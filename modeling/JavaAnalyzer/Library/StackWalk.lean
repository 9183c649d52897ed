import Mathlib

/-! # Walks with a stack

A loop takes the last item off a stack; visiting it puts some things out and pushes items. When every visit
pushes less than it takes off (`Shrinks`), fuel for the stack is enough, and what a walk puts out is what the
visits of the reachable items put out. -/

namespace JavaAnalyzer.StackWalk
set_option autoImplicit false

variable {α β : Type} (visit : α → List β × List α)

/-- The loop, with the top of the stack as the head of the list. -/
def run : ℕ → List α → List β
  | 0, _ => []
  | _ + 1, [] => []
  | fuel + 1, a :: stack => (visit a).1 ++ run fuel ((visit a).2.reverse ++ stack)

variable (size : α → ℕ)

def weight (stack : List α) : ℕ :=
  (stack.map size).sum

/-- A visit pushes less than what it takes off. -/
def Shrinks : Prop :=
  ∀ a, weight size (visit a).2 < size a

def walk (stack : List α) : List β :=
  run visit (weight size stack) stack

/-- The items that come off the stack. -/
inductive Reach (stack : List α) : α → Prop
  | start {a : α} (h : a ∈ stack) : Reach stack a
  | push {a b : α} (h : Reach stack a) (hb : b ∈ (visit a).2) : Reach stack b

variable {visit} {size} {stack : List α}

theorem weight_append (s t : List α) : weight size (s ++ t) = weight size s + weight size t := by
  rw [weight, List.map_append, List.sum_append, ← weight, ← weight]

theorem weight_reverse (s : List α) : weight size s.reverse = weight size s := by
  rw [weight, List.map_reverse, List.sum_reverse, ← weight]

theorem Shrinks.weight_next (h : Shrinks visit size) (a : α) (stack : List α) :
    weight size ((visit a).2.reverse ++ stack) < weight size (a :: stack) := by
  have hvisit := h a
  rw [weight_append, weight_reverse, weight, weight, weight, List.map_cons, List.sum_cons] at *
  omega

theorem run_nil (fuel : ℕ) : run visit fuel [] = [] := by
  cases fuel <;> rfl

theorem run_eq_of_le (h : Shrinks visit size) {fuel fuel' : ℕ} (stack : List α)
    (hfuel : weight size stack ≤ fuel) (hfuel' : weight size stack ≤ fuel') :
    run visit fuel stack = run visit fuel' stack := by
  induction fuel generalizing fuel' stack with
  | zero =>
    cases stack with
    | nil => rw [run_nil, run_nil]
    | cons a stack =>
      have hnext := h.weight_next a stack
      omega
  | succ fuel ih =>
    cases stack with
    | nil => rw [run_nil, run_nil]
    | cons a stack =>
      have hnext := h.weight_next a stack
      obtain ⟨fuel', rfl⟩ := Nat.exists_eq_succ_of_ne_zero (show fuel' ≠ 0 by omega)
      have hrest : run visit fuel ((visit a).2.reverse ++ stack) =
          run visit fuel' ((visit a).2.reverse ++ stack) := ih _ (by omega) (by omega)
      rw [run, run, hrest]

theorem walk_nil : walk visit size [] = [] :=
  run_nil _

theorem walk_cons (h : Shrinks visit size) (a : α) (stack : List α) : walk visit size (a :: stack) =
    (visit a).1 ++ walk visit size ((visit a).2.reverse ++ stack) := by
  have hnext := h.weight_next a stack
  obtain ⟨fuel, hfuel⟩ := Nat.exists_eq_succ_of_ne_zero (show weight size (a :: stack) ≠ 0 by omega)
  rw [walk, walk, hfuel, run, run_eq_of_le h _ (by omega) (Nat.le_refl _)]

theorem Shrinks.weight_rest (h : Shrinks visit size) (a : α) (stack : List α) :
    weight size stack < weight size (a :: stack) := by
  have hvisit := h a
  rw [weight, weight, List.map_cons, List.sum_cons]
  omega

/-- The induction of a walk: over what is on the stack. -/
theorem walk_induction (h : Shrinks visit size) {motive : List α → Prop} (nil : motive [])
    (cons : ∀ a stack, motive ((visit a).2.reverse ++ stack) → motive stack → motive (a :: stack))
    (stack : List α) : motive stack := by
  induction hweight : weight size stack using Nat.strong_induction_on generalizing stack with
  | _ n ih =>
    cases stack with
    | nil => exact nil
    | cons a stack =>
      subst hweight
      exact cons a stack (ih _ (h.weight_next a stack) _ rfl) (ih _ (h.weight_rest a stack) _ rfl)

theorem Reach.of_next {a b : α} {stack : List α} (hb : Reach visit ((visit a).2.reverse ++ stack) b) :
    Reach visit (a :: stack) b := by
  induction hb with
  | start hmem =>
    rcases List.mem_append.mp hmem with hpushed | hrest
    · exact .push (.start List.mem_cons_self) (List.mem_reverse.mp hpushed)
    · exact .start (List.mem_cons_of_mem a hrest)
  | push _ hb ih => exact .push ih hb

theorem Reach.next {a b : α} {stack : List α} (hb : Reach visit (a :: stack) b) :
    b = a ∨ Reach visit ((visit a).2.reverse ++ stack) b := by
  induction hb with
  | start hmem =>
    rcases List.mem_cons.mp hmem with rfl | hrest
    · exact .inl rfl
    · exact .inr (.start (List.mem_append_right _ hrest))
  | push _ hb ih =>
    rcases ih with rfl | hreach
    · exact .inr (.start (List.mem_append_left _ (List.mem_reverse.mpr hb)))
    · exact .inr (.push hreach hb)

/-- A walk puts out what the reachable items put out. -/
theorem mem_walk_iff (h : Shrinks visit size) {b : β} :
    b ∈ walk visit size stack ↔ ∃ a, Reach visit stack a ∧ b ∈ (visit a).1 := by
  induction stack using walk_induction h with
  | nil =>
    rw [walk_nil]
    refine iff_of_false List.not_mem_nil ?_
    rintro ⟨a, hreach, -⟩
    induction hreach with
    | start hmem => cases hmem
    | push _ _ ih => exact ih
  | cons a stack ih _ =>
    rw [walk_cons h, List.mem_append, ih]
    constructor
    · rintro (hb | ⟨c, hreach, hb⟩)
      · exact ⟨a, .start List.mem_cons_self, hb⟩
      · exact ⟨c, hreach.of_next, hb⟩
    · rintro ⟨c, hreach, hb⟩
      rcases hreach.next with rfl | hnext
      · exact .inl hb
      · exact .inr ⟨c, hnext, hb⟩

theorem Reach.invariant {P : α → Prop} (hpush : ∀ a, P a → ∀ b ∈ (visit a).2, P b) {a : α}
    (ha : Reach visit stack a) (hstart : ∀ a ∈ stack, P a) : P a := by
  induction ha with
  | start hmem => exact hstart _ hmem
  | push _ hb ih => exact hpush _ ih _ hb

end JavaAnalyzer.StackWalk
