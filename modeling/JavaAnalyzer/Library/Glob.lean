import Mathlib.Data.List.Infix

/-! # Patterns with stars

What a text is that is got from a pattern by putting a text in for each star, over any alphabet. The pieces of the
pattern can be looked for from left to right, each at the first place behind the one before it. -/

namespace JavaAnalyzer.Glob
set_option autoImplicit false

variable {α : Type*} {star : α} {part pattern text : List α}

/-- The text is the pattern with some text put in for each star. -/
inductive Fills (star : α) : List α → List α → Prop
  | nil : Fills star [] []
  | literal {c : α} {pattern text : List α} (h : c ≠ star) : Fills star pattern text →
      Fills star (c :: pattern) (c :: text)
  | gap (filling : List α) {pattern text : List α} : Fills star pattern text →
      Fills star (star :: pattern) (filling ++ text)

theorem fills_nil_iff : Fills star [] text ↔ text = [] := by
  constructor
  · intro h
    cases h
    rfl
  · rintro rfl
    exact .nil

theorem fills_star_iff : Fills star (star :: pattern) text ↔ ∃ behind, behind <:+ text ∧ Fills star pattern behind := by
  constructor
  · intro h
    cases h with
    | literal h => exact absurd rfl h
    | gap filling h => exact ⟨_, List.suffix_append _ _, h⟩
  · intro h
    obtain ⟨behind, ⟨filling, rfl⟩, h⟩ := h
    exact .gap filling h

theorem fills_append_iff (hpart : star ∉ part) :
    Fills star (part ++ pattern) text ↔ ∃ behind, text = part ++ behind ∧ Fills star pattern behind := by
  induction part generalizing text with
  | nil => simp
  | cons c part ih =>
    obtain ⟨hc, hpart⟩ := List.ne_and_not_mem_of_not_mem_cons hpart
    constructor
    · intro h
      cases h with
      | literal _ hrest =>
        obtain ⟨behind, rfl, hbehind⟩ := (ih hpart).mp hrest
        exact ⟨behind, rfl, hbehind⟩
      | gap filling h => exact absurd rfl hc
    · intro h
      obtain ⟨behind, rfl, h⟩ := h
      exact .literal (Ne.symm hc) ((ih hpart).mpr ⟨behind, rfl, h⟩)

/-- A pattern without a star is the only text it stands for. -/
theorem fills_literals_iff (hpart : star ∉ part) : Fills star part text ↔ text = part := by
  rw [← List.append_nil part, fills_append_iff hpart, List.append_nil]
  simp only [fills_nil_iff, exists_eq_right, List.append_nil]

theorem fills_suffix_iff (hpart : star ∉ part) : Fills star (star :: part) text ↔ part <:+ text := by
  rw [fills_star_iff]
  simp only [fills_literals_iff hpart, exists_eq_right]

theorem fills_star_of_suffix {behind : List α} (h : Fills star (star :: pattern) behind) (hsuffix : behind <:+ text) :
    Fills star (star :: pattern) text := by
  obtain ⟨rest, hrest, h⟩ := fills_star_iff.mp h
  exact fills_star_iff.mpr ⟨rest, hrest.trans hsuffix, h⟩

theorem fills_star_star_iff : Fills star (star :: star :: pattern) text ↔ Fills star (star :: pattern) text := by
  constructor
  · intro h
    obtain ⟨behind, hbehind, h⟩ := fills_star_iff.mp h
    exact fills_star_of_suffix h hbehind
  · exact fun h => fills_star_iff.mpr ⟨text, List.suffix_rfl, h⟩

theorem fills_ends_iff {back : List α} (hpart : star ∉ part) (hback : star ∉ back) :
    Fills star (part ++ star :: back) text ↔ ∃ behind, text = part ++ behind ∧ back <:+ behind := by
  rw [fills_append_iff hpart]
  simp only [fills_suffix_iff hback]

/-! ## The parts of a pattern -/

theorem splitOn_free [DecidableEq α] {sep : α} {xs : List α} : ∀ part ∈ xs.splitOn sep, sep ∉ part := by
  induction xs with
  | nil => simp
  | cons x xs ih =>
    rw [List.splitOn_cons_eq_if_modifyHead]
    split_ifs with hx
    · exact List.forall_mem_cons.mpr ⟨List.not_mem_nil, ih⟩
    · cases hparts : xs.splitOn sep with
      | nil => exact nofun
      | cons part parts =>
        rw [hparts] at ih
        obtain ⟨hpart, hrest⟩ := List.forall_mem_cons.mp ih
        refine List.forall_mem_cons.mpr ⟨fun hmem => ?_, hrest⟩
        rcases List.mem_cons.mp hmem with rfl | hmem
        · exact hx (beq_self_eq_true _)
        · exact hpart hmem

/-! ## The first place of a part -/

section Search

variable [DecidableEq α]

/-- The text behind the first place of a part. -/
def behindFirst (part : List α) : List α → Option (List α)
  | [] => if part = [] then some [] else none
  | c :: text => if part <+: c :: text then some ((c :: text).drop part.length) else behindFirst part text

theorem behindFirst_eq_none {part text : List α} (h : behindFirst part text = none) : ¬ part <:+: text := by
  fun_induction behindFirst part text with
  | case1 => cases h
  | case2 hpart => exact fun hinfix => hpart (List.infix_nil.mp hinfix)
  | case3 => cases h
  | case4 c text hpart ih => exact fun hinfix => (List.infix_cons_iff.mp hinfix).elim hpart (ih h)

/-- Behind the first place is all that is behind any place. -/
theorem behindFirst_eq_some {part text behind : List α} (h : behindFirst part text = some behind) :
    part ++ behind <:+ text ∧ ∀ other, part ++ other <:+ text → other <:+ behind := by
  fun_induction behindFirst part text with
  | case1 hpart =>
    cases h
    subst hpart
    exact ⟨List.suffix_rfl, fun other hother => hother⟩
  | case2 => cases h
  | case3 c text hpart =>
    cases h
    obtain ⟨behind, htext⟩ := hpart
    rw [← htext, List.drop_left]
    refine ⟨List.suffix_rfl, fun other hother => ?_⟩
    have hlength := hother.length_le
    rw [List.length_append, List.length_append] at hlength
    exact List.suffix_of_suffix_length_le ((List.suffix_append part other).trans hother) (List.suffix_append part behind)
      (by omega)
  | case4 c text hpart ih =>
    refine ⟨(ih h).1.trans (List.suffix_cons c text), fun other hother => ?_⟩
    rcases List.suffix_cons_iff.mp hother with heq | hother
    · exact absurd ⟨other, heq⟩ hpart
    · exact (ih h).2 other hother

/-- A part between two stars may as well stand at its first place. -/
theorem fills_first_iff (hpart : star ∉ part) :
    Fills star (star :: (part ++ star :: pattern)) text ↔
      ∃ behind, behindFirst part text = some behind ∧ Fills star (star :: pattern) behind := by
  rw [fills_star_iff]
  simp only [fills_append_iff hpart]
  constructor
  · intro h
    obtain ⟨_, hplace, other, rfl, hfills⟩ := h
    cases hfirst : behindFirst part text with
    | none => exact absurd ((List.prefix_append part other).isInfix.trans hplace.isInfix) (behindFirst_eq_none hfirst)
    | some behind => exact ⟨behind, rfl, fills_star_of_suffix hfills ((behindFirst_eq_some hfirst).2 other hplace)⟩
  · intro h
    obtain ⟨behind, hfirst, hfills⟩ := h
    exact ⟨part ++ behind, (behindFirst_eq_some hfirst).1, behind, rfl, hfills⟩

end Search

end JavaAnalyzer.Glob
