import Mathlib

/-! # Edits of a list

An edit takes out a stretch of a list and puts another list in its place. Two lists are compared by
the prefix they share: it is found from the front, and the rest of the two lists no longer begins with
one element. -/

namespace JavaAnalyzer.Splice
set_option autoImplicit false

variable {α β : Type}

/-- The elements from `start` on, `count` of them, are replaced. -/
def splice (xs : List α) (start count : ℕ) (ys : List α) : List α :=
  xs.take start ++ ys ++ xs.drop (start + count)

theorem length_splice {xs : List α} {start count : ℕ} (h : start + count ≤ xs.length)
    (ys : List α) : (splice xs start count ys).length + count = xs.length + ys.length := by
  simp only [splice, List.length_append, List.length_take, List.length_drop]
  omega

theorem splice_append (front back : List α) (ys : List α) :
    splice (front ++ back) front.length 0 ys = front ++ ys ++ back := by
  simp [splice]

/-! ## The common prefix -/

section CommonPrefix

variable [DecidableEq α]

def commonPrefixLength (xs ys : List α) : ℕ :=
  ((xs.zip ys).takeWhile fun pair => pair.1 == pair.2).length

/-- The two lists go apart after the prefix. -/
def Apart (xs ys : List α) : Prop :=
  ∀ x, xs.head? = some x → ys.head? ≠ some x

theorem commonPrefixLength_append (front : List α) {xs ys : List α} (h : Apart xs ys) :
    commonPrefixLength (front ++ xs) (front ++ ys) = front.length := by
  induction front with
  | nil =>
    cases xs with
    | nil => rfl
    | cons x xs =>
      cases ys with
      | nil => rfl
      | cons y ys =>
        have hne : x ≠ y := fun heq => h x rfl (by rw [heq]; rfl)
        simp [commonPrefixLength, hne]
  | cons x front ih =>
    simpa [commonPrefixLength] using ih

theorem exists_commonPrefix (xs ys : List α) : ∃ front xs' ys', xs = front ++ xs' ∧
    ys = front ++ ys' ∧ Apart xs' ys' := by
  induction xs generalizing ys with
  | nil => exact ⟨[], [], ys, rfl, rfl, fun _ h => (by cases h)⟩
  | cons x xs ih =>
    cases ys with
    | nil => exact ⟨[], x :: xs, [], rfl, rfl, fun _ _ h => (by cases h)⟩
    | cons y ys =>
      by_cases heq : x = y
      · subst heq
        obtain ⟨front, xs', ys', hxs, hys, hapart⟩ := ih ys
        exact ⟨x :: front, xs', ys', by simp [hxs], by simp [hys], hapart⟩
      · refine ⟨[], x :: xs, y :: ys, rfl, rfl, ?_⟩
        intro z hx hy
        simp only [List.head?_cons, Option.some.injEq] at hx hy
        exact heq (hx.trans hy.symm)

end CommonPrefix

end JavaAnalyzer.Splice
