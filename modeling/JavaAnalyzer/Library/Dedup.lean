import Mathlib

/-! # Keeping the first element of every key

One pass over a list with a set of seen keys, which keeps the elements whose key is new. -/

namespace JavaAnalyzer.Dedup
set_option autoImplicit false

variable {α β κ : Type} [DecidableEq κ]

def dedupBy (key : α → κ) : List κ → List α → List α
  | _, [] => []
  | seen, x :: l =>
    if key x ∈ seen then dedupBy key seen l else x :: dedupBy key (key x :: seen) l

variable {key : α → κ}

/-- Only whether a key of the list is seen matters. -/
theorem dedupBy_congr {seen seen' : List κ} {l : List α}
    (h : ∀ x ∈ l, key x ∈ seen ↔ key x ∈ seen') : dedupBy key seen l = dedupBy key seen' l := by
  induction l generalizing seen seen' with
  | nil => rfl
  | cons x l ih =>
    have hx := h x (List.mem_cons_self ..)
    have hl : ∀ y ∈ l, key y ∈ seen ↔ key y ∈ seen' := fun y hy => h y (List.mem_cons_of_mem _ hy)
    have hl' : ∀ y ∈ l, key y ∈ key x :: seen ↔ key y ∈ key x :: seen' := fun y hy => by
      simp [hl y hy]
    simp only [dedupBy, hx, ih hl, ih hl']

theorem dedupBy_append (seen : List κ) (l l' : List α) : dedupBy key seen (l ++ l') =
    dedupBy key seen l ++ dedupBy key ((dedupBy key seen l).map key ++ seen) l' := by
  induction l generalizing seen with
  | nil => rfl
  | cons x l ih =>
    rw [List.cons_append, dedupBy.eq_2, dedupBy.eq_2]
    split
    · exact ih seen
    · have hcongr : dedupBy key ((dedupBy key (key x :: seen) l).map key ++ key x :: seen) l' =
          dedupBy key ((x :: dedupBy key (key x :: seen) l).map key ++ seen) l' := by
        refine dedupBy_congr fun y _ => ?_
        simp only [List.map_cons, List.mem_append, List.mem_cons]
        tauto
      rw [ih (key x :: seen), hcongr, List.cons_append]

theorem dedupBy_map (f : β → α) (seen : List κ) (l : List β) :
    dedupBy key seen (l.map f) = (dedupBy (fun x => key (f x)) seen l).map f := by
  induction l generalizing seen with
  | nil => rfl
  | cons x l ih =>
    simp only [List.map_cons, dedupBy, ih]
    split
    · rfl
    · simp

/-- A property of the key can be tested before or after the pass. -/
theorem filter_dedupBy {p : α → Bool} (hp : ∀ x y, key x = key y → p x = p y) (seen : List κ)
    (l : List α) : (dedupBy key seen l).filter p = dedupBy key seen (l.filter p) := by
  induction l generalizing seen with
  | nil => rfl
  | cons x l ih =>
    by_cases hpx : p x = true
    · simp only [List.filter_cons_of_pos hpx, dedupBy]
      split
      · exact ih seen
      · rw [List.filter_cons_of_pos hpx, ih]
    · rw [List.filter_cons_of_neg hpx, dedupBy]
      split
      · exact ih seen
      · rw [List.filter_cons_of_neg hpx, ih]
        refine dedupBy_congr fun y hy => ?_
        have hne : key y ≠ key x := fun he => hpx (hp y x he ▸ List.of_mem_filter hy)
        simp [hne]

theorem find?_dedupBy {p : α → Bool} (hp : ∀ x y, key x = key y → p x = p y) (l : List α) :
    (dedupBy key [] l).find? p = l.find? p := by
  rw [← List.head?_filter, ← List.head?_filter, filter_dedupBy hp]
  cases l.filter p <;> simp [dedupBy]

/-- An element is kept exactly where its key is new. -/
theorem mem_dedupBy {seen : List κ} {l : List α} {x : α} : x ∈ dedupBy key seen l ↔
    key x ∉ seen ∧ ∃ pre post, l = pre ++ x :: post ∧ key x ∉ pre.map key := by
  induction l generalizing seen with
  | nil => simp [dedupBy]
  | cons y l ih =>
    unfold dedupBy
    split
    · rename_i hy
      rw [ih]
      constructor
      · rintro ⟨hx, pre, post, rfl, hpre⟩
        refine ⟨hx, y :: pre, post, rfl, ?_⟩
        rw [List.map_cons, List.mem_cons, not_or]
        exact ⟨fun he => hx (he ▸ hy), hpre⟩
      · rintro ⟨hx, pre, post, he, hpre⟩
        cases pre with
        | nil =>
          obtain rfl := (List.cons.inj he).1
          exact absurd hy hx
        | cons z pre =>
          obtain ⟨rfl, rfl⟩ := List.cons.inj he
          exact ⟨hx, pre, post, rfl, fun hmem => hpre (List.mem_cons_of_mem _ hmem)⟩
    · rename_i hy
      rw [List.mem_cons, ih]
      constructor
      · rintro (rfl | ⟨hx, pre, post, rfl, hpre⟩)
        · exact ⟨hy, [], l, rfl, by simp⟩
        · rw [List.mem_cons, not_or] at hx
          exact ⟨hx.2, y :: pre, post, rfl, by simpa using ⟨hx.1, by simpa using hpre⟩⟩
      · rintro ⟨hx, pre, post, he, hpre⟩
        cases pre with
        | nil => exact .inl (List.cons.inj he).1.symm
        | cons z pre =>
          obtain ⟨rfl, rfl⟩ := List.cons.inj he
          rw [List.map_cons, List.mem_cons, not_or] at hpre
          exact .inr ⟨by simpa using ⟨hpre.1, hx⟩, pre, post, rfl, hpre.2⟩

/-- Every key of the list is kept. -/
theorem exists_mem_dedupBy {l : List α} {x : α} (h : x ∈ l) : ∃ y ∈ dedupBy key [] l, key y = key x := by
  obtain ⟨y, hy⟩ := Option.isSome_iff_exists.mp
    (List.find?_isSome.mpr ⟨x, h, decide_eq_true rfl⟩ : (l.find? fun y => decide (key y = key x)).isSome)
  obtain ⟨hkey, pre, post, rfl, hpre⟩ := List.find?_eq_some_iff_append.mp hy
  refine ⟨y, mem_dedupBy.mpr ⟨List.not_mem_nil, pre, post, rfl, ?_⟩, of_decide_eq_true hkey⟩
  rw [of_decide_eq_true hkey]
  simpa using hpre

/-- The keys of the list are seen, those kept and those not. -/
theorem mem_map_dedupBy_append {seen : List κ} {l : List α} {k : κ} :
    k ∈ (dedupBy key seen l).map key ++ seen ↔ k ∈ l.map key ++ seen := by
  induction l generalizing seen with
  | nil => rfl
  | cons x l ih =>
    unfold dedupBy
    split
    · rename_i hx
      rw [ih, List.map_cons, List.cons_append, List.mem_cons]
      exact (or_iff_right_of_imp fun he => List.mem_append_right _ (he ▸ hx)).symm
    · have hstep := @ih (key x :: seen)
      simp only [List.mem_append, List.mem_cons] at hstep
      simp only [List.map_cons, List.cons_append, List.mem_cons, List.mem_append]
      tauto

/-- No key is kept twice. -/
theorem nodup_map_dedupBy (seen : List κ) (l : List α) : ((dedupBy key seen l).map key).Nodup := by
  induction l generalizing seen with
  | nil => exact List.nodup_nil
  | cons x l ih =>
    unfold dedupBy
    split
    · exact ih seen
    · rw [List.map_cons, List.nodup_cons]
      refine ⟨fun hmem => ?_, ih _⟩
      obtain ⟨y, hy, hkey⟩ := List.mem_map.mp hmem
      exact (mem_dedupBy.mp hy).1 (hkey ▸ List.mem_cons_self)

/-- Of the positions of a list, those are kept whose key is new there. -/
theorem mem_dedupBy_zipIdx {l : List α} {x : α} {p : ℕ} : (x, p) ∈ dedupBy (fun entry => key entry.1) [] l.zipIdx ↔
    l[p]? = some x ∧ key x ∉ (l.take p).map key := by
  rw [mem_dedupBy]
  constructor
  · rintro ⟨-, pre, post, heq, hpre⟩
    have hget : l.zipIdx[pre.length]? = some (x, p) := by
      rw [heq, List.getElem?_append_right le_rfl, Nat.sub_self]
      rfl
    rw [List.getElem?_zipIdx, Option.map_eq_some_iff] at hget
    obtain ⟨y, hy, hxy⟩ := hget
    rw [Nat.zero_add] at hxy
    obtain ⟨rfl, rfl⟩ := Prod.mk.inj hxy
    have hl : l = pre.map Prod.fst ++ y :: post.map Prod.fst := by
      rw [← List.zipIdx_map_fst 0 l, heq, List.map_append, List.map_cons]
    refine ⟨hy, ?_⟩
    rw [hl, List.take_left' (List.length_map _), List.map_map]
    exact hpre
  · rintro ⟨hget, hnew⟩
    obtain ⟨hlt, hget⟩ := List.getElem?_eq_some_iff.mp hget
    have hlt' : p < l.zipIdx.length := by rwa [List.length_zipIdx]
    refine ⟨List.not_mem_nil, l.zipIdx.take p, l.zipIdx.drop (p + 1), ?_, ?_⟩
    · conv_lhs => rw [← List.take_append_drop p l.zipIdx, List.drop_eq_getElem_cons hlt', List.getElem_zipIdx,
        hget, Nat.zero_add]
    · have hfst : (l.zipIdx.take p).map Prod.fst = l.take p := by rw [List.map_take, List.zipIdx_map_fst]
      rw [← hfst, List.map_map] at hnew
      exact hnew

theorem mem_dedupBy_id {l : List κ} {x : κ} : x ∈ dedupBy id [] l ↔ x ∈ l := by
  rw [mem_dedupBy]
  constructor
  · intro h
    obtain ⟨-, pre, post, heq, -⟩ := h
    simp [heq]
  · intro h
    obtain ⟨pre, post, heq, hpre⟩ := List.eq_append_cons_of_mem h
    exact ⟨List.not_mem_nil, pre, post, heq, by simpa using hpre⟩

theorem dedupBy_sublist (seen : List κ) (l : List α) : (dedupBy key seen l).Sublist l := by
  induction l generalizing seen with
  | nil => exact List.Sublist.refl _
  | cons x l ih =>
    unfold dedupBy
    split
    · exact (ih seen).cons x
    · exact (ih _).cons_cons x

/-- Two elements are kept in this order exactly where both keys are new. -/
theorem pair_sublist_dedupBy {seen : List κ} {l : List α} {x y : α} :
    [x, y].Sublist (dedupBy key seen l) ↔
      ∃ pre mid post, l = pre ++ x :: (mid ++ y :: post) ∧ key x ∉ seen ∧ key y ∉ seen ∧
        key x ∉ pre.map key ∧ key y ∉ (pre ++ x :: mid).map key := by
  induction l generalizing seen with
  | nil => simp [dedupBy]
  | cons z l ih =>
    unfold dedupBy
    split
    · rename_i hz
      rw [ih]
      constructor
      · rintro ⟨pre, mid, post, rfl, hx, hy, hxpre, hypre⟩
        refine ⟨z :: pre, mid, post, rfl, hx, hy, ?_, ?_⟩
        · rw [List.map_cons, List.mem_cons, not_or]
          exact ⟨fun he => hx (he ▸ hz), hxpre⟩
        · rw [List.cons_append, List.map_cons, List.mem_cons, not_or]
          exact ⟨fun he => hy (he ▸ hz), hypre⟩
      · rintro ⟨pre, mid, post, he, hx, hy, hxpre, hypre⟩
        cases pre with
        | nil =>
          obtain rfl := (List.cons.inj he).1
          exact absurd hz hx
        | cons w pre =>
          obtain ⟨rfl, rfl⟩ := List.cons.inj he
          exact ⟨pre, mid, post, rfl, hx, hy, fun h => hxpre (List.mem_cons_of_mem _ h),
            fun h => hypre (List.mem_cons_of_mem _ h)⟩
    · rename_i hz
      rw [List.cons_sublist_cons', List.singleton_sublist, ih, mem_dedupBy]
      constructor
      · rintro (⟨pre, mid, post, rfl, hx, hy, hxpre, hypre⟩ | ⟨rfl, hy, mid, post, rfl, hymid⟩)
        · rw [List.mem_cons, not_or] at hx hy
          refine ⟨z :: pre, mid, post, rfl, hx.2, hy.2, ?_, ?_⟩
          · rw [List.map_cons, List.mem_cons, not_or]
            exact ⟨hx.1, hxpre⟩
          · rw [List.cons_append, List.map_cons, List.mem_cons, not_or]
            exact ⟨hy.1, hypre⟩
        · rw [List.mem_cons, not_or] at hy
          refine ⟨[], mid, post, rfl, hz, hy.2, by simp, ?_⟩
          rw [List.nil_append, List.map_cons, List.mem_cons, not_or]
          exact ⟨hy.1, hymid⟩
      · rintro ⟨pre, mid, post, he, hx, hy, hxpre, hypre⟩
        cases pre with
        | nil =>
          obtain ⟨rfl, rfl⟩ := List.cons.inj he
          rw [List.nil_append, List.map_cons, List.mem_cons, not_or] at hypre
          exact .inr ⟨rfl, by simpa using ⟨hypre.1, hy⟩, mid, post, rfl, hypre.2⟩
        | cons w pre =>
          obtain ⟨rfl, rfl⟩ := List.cons.inj he
          rw [List.map_cons, List.mem_cons, not_or] at hxpre
          rw [List.cons_append, List.map_cons, List.mem_cons, not_or] at hypre
          exact .inl ⟨pre, mid, post, rfl, by simpa using ⟨hxpre.1, hx⟩,
            by simpa using ⟨hypre.1, hy⟩, hxpre.2, hypre.2⟩

end JavaAnalyzer.Dedup
