import Mathlib

/-! # Breadth-first worklists

A queue of keys with a set of seen keys: every key is looked up once, what is found is put out, and
its successors join the end of the queue. When the keys with successors lie in a finite list, fuel for
the successors of that list is enough (`bfs_isSome`). -/

namespace JavaAnalyzer.Worklist
set_option autoImplicit false

variable {κ α : Type} [DecidableEq κ] (find : κ → Option α) (next : α → List κ)

def bfs : ℕ → List κ → List κ → Option (List α)
  | _, [], _ => some []
  | 0, _ :: _, _ => none
  | fuel + 1, k :: queue, seen =>
    if k ∈ seen then bfs fuel queue seen
    else match find k with
      | none => bfs fuel queue (k :: seen)
      | some a => (bfs fuel (queue ++ next a) (k :: seen)).map (a :: ·)

/-- How many successors a key puts on the queue. -/
def degree (k : κ) : ℕ :=
  ((find k).map fun a => (next a).length).getD 0

/-- The successors of the keys that are not seen yet. -/
def remaining (names seen : List κ) : ℕ :=
  ((names.filter (· ∉ seen)).map (degree find next)).sum

/-- Fuel for a search from `queue` among the keys `names`. -/
def budget (names queue : List κ) : ℕ :=
  queue.length + remaining find next names []

variable {find next}

theorem remaining_cons_le (names seen : List κ) (k : κ) :
    remaining find next names (k :: seen) ≤ remaining find next names seen := by
  refine List.Sublist.sum_le_sum ?_ fun _ _ => Nat.zero_le _
  refine List.Sublist.map _ ?_
  refine List.monotone_filter_right _ fun x hx => ?_
  simp only [List.mem_cons, not_or, decide_eq_true_eq] at hx ⊢
  exact hx.2

theorem remaining_cons_add_le {names seen : List κ} {k : κ} (hk : k ∈ names) (hseen : k ∉ seen) :
    remaining find next names (k :: seen) + degree find next k ≤ remaining find next names seen := by
  induction names with
  | nil => cases hk
  | cons n names ih =>
    have hrest : remaining find next names (k :: seen) ≤ remaining find next names seen :=
      remaining_cons_le names seen k
    unfold remaining at hrest ih ⊢
    by_cases hn : n = k
    · subst hn
      simp only [List.filter_cons, List.mem_cons, true_or, not_true_eq_false, decide_false, hseen,
        not_false_eq_true, decide_true, if_true, List.map_cons, List.sum_cons] at hrest ⊢
      simp only [Bool.false_eq_true, if_false]
      omega
    · have hk' : k ∈ names := (List.mem_cons.mp hk).resolve_left (Ne.symm hn)
      have ih := ih hk'
      by_cases hns : n ∈ seen
      · simpa [List.filter_cons, hn, hns] using ih
      · simp only [List.filter_cons, List.mem_cons, hn, hns, or_self, not_false_eq_true,
          decide_true, if_true, List.map_cons, List.sum_cons] at ih ⊢
        omega

theorem bfs_isSome {names : List κ} (hnames : ∀ k a, find k = some a → next a ≠ [] → k ∈ names)
    (fuel : ℕ) (queue seen : List κ) (h : queue.length + remaining find next names seen ≤ fuel) :
    (bfs find next fuel queue seen).isSome := by
  induction fuel generalizing queue seen with
  | zero =>
    cases queue with
    | nil => rfl
    | cons k queue => simp at h
  | succ fuel ih =>
    cases queue with
    | nil => rfl
    | cons k queue =>
      rw [List.length_cons] at h
      unfold bfs
      split
      · exact ih queue seen (by omega)
      · rename_i hseen
        cases hk : find k with
        | none =>
          have hle : remaining find next names (k :: seen) ≤ remaining find next names seen :=
            remaining_cons_le names seen k
          exact ih queue (k :: seen) (by omega)
        | some a =>
          have hle : remaining find next names (k :: seen) + (next a).length ≤
              remaining find next names seen := by
            by_cases hleaf : next a = []
            · rw [hleaf, List.length_nil]
              exact remaining_cons_le names seen k
            · have hadd : remaining find next names (k :: seen) + degree find next k ≤
                  remaining find next names seen :=
                remaining_cons_add_le (hnames k a hk hleaf) hseen
              rwa [degree, hk, Option.map_some, Option.getD_some] at hadd
          have hrec := ih (queue ++ next a) (k :: seen) (by rw [List.length_append]; omega)
          simpa using hrec

theorem remaining_le_nil (names seen : List κ) :
    remaining find next names seen ≤ remaining find next names [] := by
  induction seen with
  | nil => exact le_rfl
  | cons k seen ih => exact (remaining_cons_le names seen k).trans ih

theorem bfs_budget {names : List κ} (hnames : ∀ k a, find k = some a → next a ≠ [] → k ∈ names)
    (queue seen : List κ) :
    (bfs find next (budget find next names queue) queue seen).isSome :=
  bfs_isSome hnames _ queue seen
    (Nat.add_le_add_left (remaining_le_nil names seen) _)

theorem bfs_keys {fuel : ℕ} {queue seen : List κ} {order : List α}
    (h : bfs find next fuel queue seen = some order) :
    ∃ keys : List κ, keys.Nodup ∧ (∀ k ∈ keys, k ∉ seen) ∧ keys.map find = order.map some := by
  induction fuel generalizing queue seen order with
  | zero =>
    cases queue with
    | nil =>
      obtain rfl := Option.some.inj h
      exact ⟨[], List.nodup_nil, by simp, rfl⟩
    | cons k queue => cases h
  | succ fuel ih =>
    cases queue with
    | nil =>
      obtain rfl := Option.some.inj h
      exact ⟨[], List.nodup_nil, by simp, rfl⟩
    | cons k queue =>
      unfold bfs at h
      split at h
      · exact ih h
      · rename_i hseen
        cases hk : find k with
        | none =>
          rw [hk] at h
          obtain ⟨keys, hnodup, hfresh, hmap⟩ := ih h
          exact ⟨keys, hnodup, fun k' hk' hmem => hfresh k' hk' (List.mem_cons_of_mem _ hmem), hmap⟩
        | some a =>
          simp only [hk, Option.map_eq_some_iff] at h
          obtain ⟨rest, hrest, rfl⟩ := h
          obtain ⟨keys, hnodup, hfresh, hmap⟩ := ih hrest
          refine ⟨k :: keys, List.nodup_cons.mpr ⟨fun hmem => hfresh k hmem (by simp), hnodup⟩,
            fun k' hk' => ?_, by rw [List.map_cons, List.map_cons, hk, hmap]⟩
          rcases List.mem_cons.mp hk' with rfl | hk'
          · exact hseen
          · exact fun hmem => hfresh k' hk' (List.mem_cons_of_mem _ hmem)

end JavaAnalyzer.Worklist
