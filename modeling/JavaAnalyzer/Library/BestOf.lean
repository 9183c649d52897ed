import Mathlib.Data.List.MinMax

/-! # The best of a list

Scans that keep the best element so far: `List.argmax` keeps the first of equal rank and `maxBy` the last. What stands
before and behind the result, and what becomes of it in another order. -/

namespace JavaAnalyzer.BestOf
set_option autoImplicit false

variable {α β γ : Type} [LinearOrder β] {rank : α → β} {best : α}

/-- All before the result are less. -/
theorem argmax_split {l : List α} (h : best ∈ l.argmax rank) :
    ∃ before after, l = before ++ best :: after ∧ (∀ a ∈ before, rank a < rank best) ∧
      ∀ a ∈ after, rank a ≤ rank best := by
  induction l with
  | nil => cases h
  | cons a l ih =>
    rw [List.argmax_cons] at h
    cases hrest : l.argmax rank with
    | none =>
      rw [hrest] at h
      cases h
      rw [List.argmax_eq_none.mp hrest]
      exact ⟨[], [], rfl, nofun, nofun⟩
    | some c =>
      rw [hrest] at h
      dsimp only at h
      split_ifs at h with hlt
      · cases h
        obtain ⟨before, after, rfl, hbefore, hafter⟩ := ih hrest
        exact ⟨a :: before, after, rfl, List.forall_mem_cons.mpr ⟨hlt, hbefore⟩, hafter⟩
      · cases h
        refine ⟨[], l, rfl, nofun, fun x hx => ?_⟩
        exact (List.le_of_mem_argmax hx hrest).trans (not_lt.mp hlt)

/-- Where a place in a list of lists lies. -/
theorem flatMap_split {f : γ → List α} {l : List γ} {before after : List α}
    (h : l.flatMap f = before ++ best :: after) :
    ∃ front c back inner, l = front ++ c :: back ∧ before = front.flatMap f ++ inner ∧ best ∈ f c := by
  induction l generalizing before with
  | nil => simp at h
  | cons c l ih =>
    rw [List.flatMap_cons] at h
    by_cases hmem : before.length < (f c).length
    · refine ⟨[], c, l, before, rfl, rfl, ?_⟩
      have hget : (f c ++ l.flatMap f)[before.length]? = some best := by rw [h]; simp
      rw [List.getElem?_append_left hmem] at hget
      exact List.mem_of_getElem? hget
    · obtain ⟨inner, rfl⟩ : f c <+: before :=
        List.prefix_of_prefix_length_le ⟨_, h⟩ ⟨_, rfl⟩ (not_lt.mp hmem)
      rw [List.append_assoc, List.append_cancel_left_eq] at h
      obtain ⟨front, d, back, rest, rfl, rfl, hd⟩ := ih h
      exact ⟨c :: front, d, back, rest, rfl, by rw [List.flatMap_cons, List.append_assoc], hd⟩

theorem argmax_flatMap {f : γ → List α} {l : List γ} (h : best ∈ (l.flatMap f).argmax rank) :
    ∃ front c back, l = front ++ c :: back ∧ best ∈ f c ∧ (∀ a ∈ front, ∀ x ∈ f a, rank x < rank best) ∧
      ∀ a ∈ c :: back, ∀ x ∈ f a, rank x ≤ rank best := by
  obtain ⟨before, after, hsplit, hbefore, -⟩ := argmax_split h
  obtain ⟨front, c, back, inner, rfl, rfl, hmem⟩ := flatMap_split hsplit
  refine ⟨front, c, back, rfl, hmem, fun a ha x hx => ?_, fun a ha x hx => ?_⟩
  · exact hbefore x (List.mem_append_left _ (List.mem_flatMap.mpr ⟨a, ha, hx⟩))
  · exact List.le_of_mem_argmax (List.mem_flatMap.mpr ⟨a, List.mem_append_right _ ha, hx⟩) h

theorem eq_of_split {front back front' back' : List α} {a a' : α} (h : front ++ a :: back = front' ++ a' :: back')
    (hnot : a ∉ front') (hnot' : a' ∉ front) : a = a' := by
  rcases List.append_eq_append_iff.mp h with ⟨between, rfl, hrest⟩ | ⟨between, rfl, hrest⟩
  · cases between with
    | nil => exact (List.cons.inj hrest).1
    | cons b between =>
      obtain rfl : a = b := (List.cons.inj hrest).1
      exact absurd (List.mem_append_right front List.mem_cons_self) hnot
  · cases between with
    | nil => exact (List.cons.inj hrest).1.symm
    | cons b between =>
      obtain rfl : a' = b := (List.cons.inj hrest).1
      exact absurd (List.mem_append_right front' List.mem_cons_self) hnot'

/-! ## The last of the best -/

variable (rank) in
/-- The scan in which a later element of equal rank takes the place of the best. -/
def maxBy (l : List α) : Option α :=
  l.foldl (List.argAux fun b c => rank c ≤ rank b) none

theorem maxBy_concat (l : List α) (a : α) :
    maxBy rank (l ++ [a]) = List.argAux (fun b c => rank c ≤ rank b) (maxBy rank l) a := by
  rw [maxBy, List.foldl_append]
  rfl

theorem maxBy_eq (l : List α) : maxBy rank l = l.reverse.argmax rank := by
  induction l using List.reverseRecOn with
  | nil => rfl
  | append_singleton l a ih =>
    rw [maxBy_concat, ih, List.reverse_append, List.reverse_singleton, List.singleton_append, List.argmax_cons]
    cases l.reverse.argmax rank with
    | none => rfl
    | some c =>
      rcases le_or_gt (rank c) (rank a) with hle | hlt
      · exact (if_pos hle).trans (if_neg hle.not_gt).symm
      · exact (if_neg hlt.not_ge).trans (if_pos hlt).symm

/-! ## Any order -/

variable (rank) in
/-- No element is better. -/
def IsBest (l : List α) (a : α) : Prop :=
  a ∈ l ∧ ∀ x ∈ l, rank x ≤ rank a

theorem IsBest.perm {l l' : List α} (h : IsBest rank l best) (hperm : l.Perm l') : IsBest rank l' best :=
  ⟨hperm.mem_iff.mp h.1, fun x hx => h.2 x (hperm.mem_iff.mpr hx)⟩

theorem IsBest.rank_eq {l : List α} {a b : α} (ha : IsBest rank l a) (hb : IsBest rank l b) : rank a = rank b :=
  le_antisymm (hb.2 a ha.1) (ha.2 b hb.1)

theorem isBest_argmax {l : List α} (h : l.argmax rank = some best) : IsBest rank l best :=
  ⟨List.argmax_mem h, fun _ hx => List.le_of_mem_argmax hx h⟩

theorem isBest_maxBy {l : List α} (h : maxBy rank l = some best) : IsBest rank l best := by
  rw [maxBy_eq] at h
  exact (isBest_argmax h).perm l.reverse_perm

theorem exists_argmax {l : List α} (h : l ≠ []) : ∃ a, l.argmax rank = some a :=
  Option.ne_none_iff_exists'.mp fun hnone => h (List.argmax_eq_none.mp hnone)

theorem exists_maxBy {l : List α} (h : l ≠ []) : ∃ a, maxBy rank l = some a := by
  rw [maxBy_eq]
  exact exists_argmax fun hnil => h (List.reverse_eq_nil_iff.mp hnil)

/-- The best of a block is kept when the block comes first. -/
theorem argmax_append {block l : List α} {a : α} (h : IsBest rank (block ++ l) a) (hmem : a ∈ block) :
    ∃ b ∈ block, (block ++ l).argmax rank = some b := by
  obtain ⟨b, hb⟩ := @exists_argmax _ _ _ rank _ (List.ne_nil_of_mem h.1)
  refine ⟨b, ?_, hb⟩
  obtain ⟨before, after, hsplit, hbefore, -⟩ := argmax_split hb
  have hnot : a ∉ before := fun hmem => (hbefore a hmem).ne (h.rank_eq (isBest_argmax hb))
  rcases List.append_eq_append_iff.mp hsplit with ⟨between, rfl, -⟩ | ⟨between, rfl, hrest⟩
  · exact absurd (List.mem_append_left between hmem) hnot
  · cases between with
    | nil => exact absurd (by simpa using hmem) hnot
    | cons c between =>
      obtain rfl : b = c := (List.cons.inj hrest).1
      exact List.mem_append_right before List.mem_cons_self

/-- The best of a block is kept when the block comes last. -/
theorem maxBy_append {block l : List α} {a : α} (h : IsBest rank (l ++ block) a) (hmem : a ∈ block) :
    ∃ b ∈ block, maxBy rank (l ++ block) = some b := by
  have hreverse : IsBest rank (block.reverse ++ l.reverse) a := by
    rw [← List.reverse_append]
    exact h.perm (List.reverse_perm _).symm
  obtain ⟨b, hb, hmax⟩ := argmax_append hreverse (List.mem_reverse.mpr hmem)
  exact ⟨b, List.mem_reverse.mp hb, by rw [maxBy_eq, List.reverse_append, hmax]⟩

/-- Only the order of the ranks counts. -/
theorem argmax_map {δ κ : Type} [LinearOrder κ] {g : δ → α} {rank' : δ → κ}
    (h : ∀ a b, rank (g a) < rank (g b) ↔ rank' a < rank' b) (l : List δ) :
    (l.map g).argmax rank = (l.argmax rank').map g := by
  induction l with
  | nil => rfl
  | cons a l ih =>
    rw [List.map_cons, List.argmax_cons, List.argmax_cons, ih]
    cases l.argmax rank' with
    | none => rfl
    | some c =>
      dsimp only [Option.map_some]
      by_cases hlt : rank' a < rank' c
      · rw [if_pos hlt, if_pos ((h a c).mpr hlt), Option.map_some]
      · rw [if_neg hlt, if_neg fun hg => hlt ((h a c).mp hg), Option.map_some]

end JavaAnalyzer.BestOf
