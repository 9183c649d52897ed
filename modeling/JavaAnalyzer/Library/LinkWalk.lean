import Mathlib

/-! # Walks along links

A loop goes from an item to the one that it links to until it finds what it looks for or the links end. Where only
finitely many items are linked to, it ends exactly when it does not come back to an item (`exists_walk_iff`). -/

namespace JavaAnalyzer.LinkWalk
set_option autoImplicit false
open Relation

variable {α : Type} (next : α → Option α) (found : α → Bool)

/-- The loop with at most `fuel` turns, nothing when these do not do. -/
def walk : ℕ → α → Option (Option α)
  | 0, _ => none
  | fuel + 1, current =>
    if found current then some (some current)
    else
      match next current with
      | none => some none
      | some behind => walk fuel behind

def Link (a b : α) : Prop :=
  next a = some b

/-- The loop goes on from the first item to the second. -/
def Passes (a b : α) : Prop :=
  found a = false ∧ Link next a b

/-- The first item along the links that is looked for, if there is one. -/
def FirstFound (start : α) : Option α → Prop
  | some a => ReflTransGen (Passes next found) start a ∧ found a = true
  | none => ∀ a, ReflTransGen (Link next) start a → found a = false

/-- The loop comes back to an item. -/
def ComesBack (start : α) : Prop :=
  ∃ a, ReflTransGen (Passes next found) start a ∧ TransGen (Passes next found) a a

variable {next} {found} {start behind : α} {fuel : ℕ}

theorem walk_found (h : found start = true) : walk next found (fuel + 1) start = some (some start) := by
  rw [walk, if_pos h]

theorem walk_end (h : found start = false) (hnext : next start = none) :
    walk next found (fuel + 1) start = some none := by
  rw [walk, if_neg (Bool.eq_false_iff.mp h), hnext]

theorem walk_passes (h : Passes next found start behind) :
    walk next found (fuel + 1) start = walk next found fuel behind := by
  rw [walk, if_neg (Bool.eq_false_iff.mp h.1), h.2]

/-- What one turn of the loop does. -/
theorem turn_cases (next : α → Option α) (found : α → Bool) (a : α) :
    found a = true ∨ (found a = false ∧ next a = none) ∨ ∃ b, Passes next found a b := by
  cases hfound : found a with
  | true => exact .inl rfl
  | false =>
    cases hnext : next a with
    | none => exact .inr (.inl ⟨rfl, rfl⟩)
    | some b => exact .inr (.inr ⟨b, hfound, hnext⟩)

theorem firstFound_of_walk {result : Option α} (h : walk next found fuel start = some result) :
    FirstFound next found start result := by
  induction fuel generalizing start with
  | zero => cases h
  | succ fuel ih =>
    rcases turn_cases next found start with hfound | ⟨hfound, hend⟩ | ⟨behind, hpass⟩
    · rw [walk_found hfound] at h
      cases h
      exact ⟨.refl, hfound⟩
    · rw [walk_end hfound hend] at h
      cases h
      intro a ha
      rcases ReflTransGen.cases_head ha with rfl | ⟨b, hb, -⟩
      · exact hfound
      · exact absurd (hend.symm.trans hb) nofun
    · rw [walk_passes hpass] at h
      have hbehind := ih h
      cases result with
      | some a => exact ⟨.head hpass hbehind.1, hbehind.2⟩
      | none =>
        intro a ha
        rcases ReflTransGen.cases_head ha with rfl | ⟨b, hb, hrest⟩
        · exact hpass.1
        · obtain rfl := Option.some.inj (hpass.2.symm.trans hb)
          exact hbehind a hrest

/-! ## When the loop ends -/

theorem ComesBack.passes (h : ComesBack next found start) :
    ∃ b, Passes next found start b ∧ ComesBack next found b := by
  obtain ⟨a, hreach, hback⟩ := h
  rcases ReflTransGen.cases_head hreach with rfl | ⟨b, hpass, hrest⟩
  · obtain ⟨b, hpass, hrest⟩ := TransGen.head'_iff.mp hback
    exact ⟨b, hpass, start, hrest, hback⟩
  · exact ⟨b, hpass, a, hrest, hback⟩

theorem walk_of_comesBack (h : ComesBack next found start) (fuel : ℕ) : walk next found fuel start = none := by
  induction fuel generalizing start with
  | zero => rfl
  | succ fuel ih =>
    obtain ⟨b, hpass, hbehind⟩ := h.passes
    rw [walk_passes hpass, ih hbehind]

/-- A loop that never ends goes on from every item it comes to. -/
theorem exists_passes (h : ∀ fuel, walk next found fuel start = none) :
    ∃ b, Passes next found start b ∧ ∀ fuel, walk next found fuel b = none := by
  rcases turn_cases next found start with hfound | ⟨hfound, hend⟩ | ⟨b, hpass⟩
  · exact absurd ((walk_found hfound).symm.trans (h 1)) nofun
  · exact absurd ((walk_end hfound hend).symm.trans (h 1)) nofun
  · exact ⟨b, hpass, fun fuel => (walk_passes hpass).symm.trans (h (fuel + 1))⟩

theorem comesBack_of_endless (hfinite : {b | ∃ a, next a = some b}.Finite)
    (h : ∀ fuel, walk next found fuel start = none) : ComesBack next found start := by
  let Endless := {a // ∀ fuel, walk next found fuel a = none}
  have hstep : ∀ a : Endless, ∃ b : Endless, Passes next found a.1 b.1 := by
    intro a
    obtain ⟨b, hpass, hb⟩ := exists_passes a.2
    exact ⟨⟨b, hb⟩, hpass⟩
  choose step hpass using hstep
  -- The items the loop comes to, of which two behind the start are the same.
  let at_ : ℕ → α := fun turn => (step^[turn] ⟨start, h⟩).1
  have hturn : ∀ turn, Passes next found (at_ turn) (at_ (turn + 1)) := by
    intro turn
    simp only [at_, Function.iterate_succ_apply']
    exact hpass _
  have hlinked : ∀ turn, at_ (turn + 1) ∈ {b | ∃ a, next a = some b} := fun turn => ⟨_, (hturn turn).2⟩
  have hreach : ∀ {first last : ℕ}, first < last → TransGen (Passes next found) (at_ first) (at_ last) := fun hlt =>
    Nat.rel_of_forall_rel_succ_of_lt _ (fun turn => TransGen.single (hturn turn)) hlt
  obtain ⟨first, -, last, -, hlt, hsame⟩ := Set.infinite_univ.exists_lt_map_eq_of_mapsTo
    (fun turn _ => hlinked turn) hfinite
  refine ⟨at_ (first + 1), (hreach (Nat.succ_pos first)).to_reflTransGen, ?_⟩
  have hback := hreach (Nat.succ_lt_succ hlt)
  rwa [← hsame] at hback

theorem exists_walk_iff (hfinite : {b | ∃ a, next a = some b}.Finite) :
    (∃ fuel result, walk next found fuel start = some result) ↔ ¬ ComesBack next found start := by
  constructor
  · rintro ⟨fuel, result, hwalk⟩ hback
    exact absurd (hwalk.symm.trans (walk_of_comesBack hback fuel)) nofun
  · intro hback
    by_contra hnone
    simp only [not_exists, ← ne_eq] at hnone
    exact hback (comesBack_of_endless hfinite fun fuel => Option.eq_none_iff_forall_ne_some.mpr (hnone fuel))

end JavaAnalyzer.LinkWalk
