import Mathlib

/-! # Lookup by levels

A name has candidates, in levels. The first level with a known candidate decides, and the name stands for
that candidate if it is the only one of its level; a candidate that a level has twice counts twice. -/

namespace JavaAnalyzer.LevelLookup
set_option autoImplicit false

variable {α : Type} (known : α → Bool)

def lookup : List (List α) → Option α
  | [] => none
  | level :: levels =>
    match level.filter known with
    | [] => lookup levels
    | [a] => some a
    | _ => none

variable {known} {known' : α → Bool} {levels : List (List α)} {level : List α} {a : α}

theorem lookup_cons_of_none (h : level.filter known = []) :
    lookup known (level :: levels) = lookup known levels := by
  rw [lookup, h]

theorem lookup_cons_eq_some_iff (h : level.filter known ≠ []) :
    lookup known (level :: levels) = some a ↔ level.filter known = [a] := by
  rw [lookup]
  split
  case h_1 hnil => exact absurd hnil h
  case h_2 b hb => rw [hb, Option.some.injEq, List.singleton_inj]
  case h_3 hmany =>
    refine iff_of_false (by simp) fun heq => ?_
    exact hmany a heq

theorem lookup_append_of_none {before after : List (List α)}
    (h : ∀ x ∈ before.flatten, known x = false) :
    lookup known (before ++ after) = lookup known after := by
  induction before with
  | nil => rfl
  | cons level before ih =>
    rw [List.flatten_cons, List.forall_mem_append] at h
    obtain ⟨hlevel, hbefore⟩ := h
    have hnone : level.filter known = [] :=
      List.filter_eq_nil_iff.mpr fun x hx => by simp [hlevel x hx]
    rw [List.cons_append, lookup_cons_of_none hnone, ih hbefore]

theorem known_of_lookup (h : lookup known levels = some a) : known a = true := by
  induction levels with
  | nil => cases h
  | cons level levels ih =>
    by_cases hnone : level.filter known = []
    · rw [lookup_cons_of_none hnone] at h
      exact ih h
    · rw [lookup_cons_eq_some_iff hnone] at h
      have hmem : a ∈ level.filter known := by rw [h]; exact List.mem_singleton_self a
      exact List.of_mem_filter hmem

/-- A name stands for the only known candidate of a level behind levels without known ones. -/
theorem lookup_eq_some_iff : lookup known levels = some a ↔
    ∃ before level after, levels = before ++ level :: after ∧
      (∀ x ∈ before.flatten, known x = false) ∧ level.filter known = [a] := by
  constructor
  · intro h
    induction levels with
    | nil => cases h
    | cons level levels ih =>
      by_cases hnone : level.filter known = []
      · rw [lookup_cons_of_none hnone] at h
        obtain ⟨before, deciding, after, rfl, hbefore, hdeciding⟩ := ih h
        refine ⟨level :: before, deciding, after, rfl, fun x hx => ?_, hdeciding⟩
        cases List.mem_append.mp hx with
        | inl hlevel => simpa using List.filter_eq_nil_iff.mp hnone x hlevel
        | inr hrest => exact hbefore x hrest
      · rw [lookup_cons_eq_some_iff hnone] at h
        exact ⟨[], level, levels, rfl, fun x hx => (by cases hx), h⟩
  · rintro ⟨before, level, after, rfl, hbefore, hlevel⟩
    rw [lookup_append_of_none hbefore, lookup_cons_eq_some_iff (by rw [hlevel]; simp), hlevel]

/-- When a candidate is the only known one of a level, it is the only one that is known in another way
exactly when it is known in that way and no other candidate of the level is. -/
theorem filter_eq_singleton_iff (h : level.filter known = [a]) :
    level.filter known' = [a] ↔ known' a = true ∧ ∀ x ∈ level, known' x = true → x = a := by
  constructor
  · intro h'
    have hmem : a ∈ level.filter known' := by rw [h']; exact List.mem_singleton_self a
    refine ⟨List.of_mem_filter hmem, fun x hx hknown => ?_⟩
    have hx' := List.mem_filter.mpr ⟨hx, hknown⟩
    rw [h'] at hx'
    exact List.mem_singleton.mp hx'
  · rintro ⟨hknown, honly⟩
    obtain ⟨before, after, rfl, hbefore, ha, hafter⟩ := List.filter_eq_cons_iff.mp h
    have hafter' := List.filter_eq_nil_iff.mp hafter
    refine List.filter_eq_cons_iff.mpr ⟨before, after, rfl, fun x hx hx' => ?_, hknown, ?_⟩
    · exact hbefore x hx (honly x (by simp [hx]) hx' ▸ ha)
    · refine List.filter_eq_nil_iff.mpr fun x hx hx' => ?_
      exact hafter' x hx (honly x (by simp [hx]) hx' ▸ ha)

/-- When a name stands for a candidate, it stands for it in another way of knowing exactly when the candidate
is known there, and no other candidate of its level or of a level before. -/
theorem lookup_iff_of_split {before after : List (List α)}
    (hbefore : ∀ x ∈ before.flatten, known x = false) (hlevel : level.filter known = [a]) :
    lookup known' (before ++ level :: after) = some a ↔
      known' a = true ∧ ∀ x ∈ before.flatten ++ level, known' x = true → x = a := by
  have hmem : a ∈ level := List.mem_of_mem_filter (hlevel ▸ List.mem_singleton_self a)
  have hknown : known a = true := List.of_mem_filter (hlevel ▸ List.mem_singleton_self a)
  have hfirst : a ∉ before.flatten := fun ha => by
    have hfalse := hbefore a ha
    rw [hknown] at hfalse
    cases hfalse
  rw [List.forall_mem_append, and_left_comm, ← filter_eq_singleton_iff hlevel]
  have hnone : (∀ x ∈ before.flatten, known' x = true → x = a) ↔
      ∀ x ∈ before.flatten, known' x = false := by
    refine forall₂_congr fun x hx => ?_
    have hne : x ≠ a := fun heq => hfirst (heq ▸ hx)
    simp [hne]
  rw [hnone]
  clear hbefore hnone
  induction before with
  | nil =>
    simp only [List.nil_append, List.flatten_nil, List.not_mem_nil, false_imp_iff, implies_true,
      true_and]
    by_cases hnone' : level.filter known' = []
    · rw [lookup_cons_of_none hnone', hnone']
      refine iff_of_false (fun heq => ?_) (List.cons_ne_nil a []).symm
      exact List.filter_eq_nil_iff.mp hnone' a hmem (known_of_lookup heq)
    · exact lookup_cons_eq_some_iff hnone'
  | cons head before ih =>
    rw [List.flatten_cons, List.mem_append, not_or] at hfirst
    have hrest : lookup known' (before ++ level :: after) = some a ↔
        (∀ x ∈ before.flatten, known' x = false) ∧ level.filter known' = [a] := ih hfirst.2
    rw [List.cons_append, List.flatten_cons, List.forall_mem_append, and_assoc, ← hrest]
    by_cases hnone' : head.filter known' = []
    · rw [lookup_cons_of_none hnone']
      refine (and_iff_right fun x hx => ?_).symm
      simpa using List.filter_eq_nil_iff.mp hnone' x hx
    · rw [lookup_cons_eq_some_iff hnone']
      refine iff_of_false (fun heq => hfirst.1 ?_) fun hboth => hnone' ?_
      · exact List.mem_of_mem_filter (heq ▸ List.mem_singleton_self a)
      · exact List.filter_eq_nil_iff.mpr fun x hx => by simp [hboth.1 x hx]

theorem lookup_cons_eq_none_iff : lookup known (level :: levels) = none ↔
    2 ≤ (level.filter known).length ∨ level.filter known = [] ∧ lookup known levels = none := by
  rw [lookup]
  rcases level.filter known with _ | ⟨a, _ | ⟨b, rest⟩⟩
  · simp
  · simp
  · simp

/-- The order of the candidates in a level does not matter. -/
theorem lookup_perm {levels levels' : List (List α)} (h : List.Forall₂ List.Perm levels levels') :
    lookup known levels = lookup known levels' := by
  induction h with
  | nil => rfl
  | @cons level level' levels levels' hlevel _ ih =>
    have hperm : (level.filter known).Perm (level'.filter known) := hlevel.filter known
    rcases hfirst : level.filter known with _ | ⟨a, _ | ⟨b, rest⟩⟩
    · rw [hfirst, List.nil_perm] at hperm
      rw [lookup_cons_of_none hfirst, lookup_cons_of_none hperm, ih]
    · rw [hfirst, List.singleton_perm] at hperm
      rw [lookup, lookup, hfirst, ← hperm]
    · have hlength := hperm.length_eq
      have hmany : 2 ≤ (level.filter known).length := by
        rw [hfirst]
        exact Nat.le_add_left 2 rest.length
      rw [lookup_cons_eq_none_iff.mpr (.inl hmany),
        lookup_cons_eq_none_iff.mpr (.inl (hlength ▸ hmany))]

/-! ## Candidates that count once -/

section Distinct

variable [DecidableEq α]

/-- Lookup in which a candidate counts once, however often its level has it. -/
def lookupDistinct (known : α → Bool) : List (List α) → Option α
  | [] => none
  | level :: levels =>
    match (level.filter known).dedup with
    | [] => lookupDistinct known levels
    | [a] => some a
    | _ => none

theorem lookupDistinct_singleton (a : α) (levels : List (List α)) :
    lookupDistinct known ([a] :: levels) = if known a then some a else lookupDistinct known levels := by
  rw [lookupDistinct, List.filter_singleton]
  cases known a <;> rfl

theorem lookupDistinct_congr {levels levels' : List (List α)}
    (h : List.Forall₂ (fun level level' => ∀ x, x ∈ level ↔ x ∈ level') levels levels') :
    lookupDistinct known levels = lookupDistinct known levels' := by
  induction h with
  | nil => rfl
  | @cons level level' levels levels' hlevel _ ih =>
    have hmem : ∀ x, x ∈ level.filter known ↔ x ∈ level'.filter known := by
      intro x
      rw [List.mem_filter, List.mem_filter, hlevel x]
    have hperm : (level.filter known).dedup.Perm (level'.filter known).dedup :=
      (List.perm_ext_iff_of_nodup (List.nodup_dedup _) (List.nodup_dedup _)).mpr fun x => by
        rw [List.mem_dedup, List.mem_dedup, hmem x]
    rw [lookupDistinct, lookupDistinct]
    rcases hfirst : (level.filter known).dedup with _ | ⟨a, _ | ⟨b, rest⟩⟩
    · rw [hfirst] at hperm
      rw [List.nil_perm.mp hperm]
      exact ih
    · rw [hfirst] at hperm
      rw [← List.singleton_perm.mp hperm]
    · rw [hfirst] at hperm
      have hlength := hperm.length_eq
      rcases hsecond : (level'.filter known).dedup with _ | ⟨a', _ | ⟨b', rest'⟩⟩
      · rw [hsecond] at hlength
        simp at hlength
      · rw [hsecond] at hlength
        simp at hlength
      · rfl

end Distinct

end JavaAnalyzer.LevelLookup
