import Mathlib

/-! # Runs of interleaved parties

Parties that take their steps in any order are one partial step function on the state of all of them:
an action names a party and its step, and `none` says that the party is not there. A run is a list of
actions, so a statement about all runs is a statement about all interleavings. Some systems keep their
promise only in the runs whose steps meet a condition (`Meets`). -/

namespace JavaAnalyzer.Interleaving
set_option autoImplicit false

variable {σ α : Type}

/-- The state after the actions, if every one of them can be taken. -/
def run (step : σ → α → Option σ) : σ → List α → Option σ
  | s, [] => some s
  | s, a :: as => (step s a).bind fun next => run step next as

/-- Every action is taken in a state that meets the condition. -/
def Meets (step : σ → α → Option σ) (cond : σ → α → Prop) : σ → List α → Prop
  | _, [] => True
  | s, a :: as => cond s a ∧ ∀ next, step s a = some next → Meets step cond next as

variable {step : σ → α → Option σ} {cond : σ → α → Prop}

theorem run_cons_iff {s last : σ} {a : α} {as : List α} :
    run step s (a :: as) = some last ↔
      ∃ next, step s a = some next ∧ run step next as = some last :=
  Option.bind_eq_some_iff

theorem run_append {s next last : σ} {as bs : List α} (hfirst : run step s as = some next)
    (hsecond : run step next bs = some last) : run step s (as ++ bs) = some last := by
  induction as generalizing s with
  | nil =>
    cases hfirst
    exact hsecond
  | cons a as ih =>
    obtain ⟨mid, hmid, hrest⟩ := run_cons_iff.mp hfirst
    exact run_cons_iff.mpr ⟨mid, hmid, ih hrest⟩

theorem Meets.cons {s next : σ} {a : α} {as : List α} (hcond : cond s a)
    (hnext : step s a = some next) (h : Meets step cond next as) : Meets step cond s (a :: as) := by
  refine ⟨hcond, fun other hother => ?_⟩
  rw [hnext] at hother
  cases hother
  exact h

/-- What a step under the condition keeps holds at the end of every run under the condition. -/
theorem invariant_of_meets {Inv : σ → Prop}
    (hstep : ∀ s a next, step s a = some next → cond s a → Inv s → Inv next) (as : List α)
    (s last : σ) (hrun : run step s as = some last) (hmeets : Meets step cond s as) (h : Inv s) :
    Inv last := by
  induction as generalizing s with
  | nil =>
    cases hrun
    exact h
  | cons a as ih =>
    obtain ⟨next, hnext, hrest⟩ := run_cons_iff.mp hrun
    obtain ⟨hcond, hmeets⟩ := hmeets
    exact ih next hrest (hmeets next hnext) (hstep s a next hnext hcond h)

/-- Conditions that come to the same under an invariant are met by the same runs, when the steps that meet
them keep the invariant. -/
theorem meets_congr {other : σ → α → Prop} {Inv : σ → Prop}
    (hiff : ∀ s a, Inv s → (cond s a ↔ other s a))
    (hstep : ∀ s a next, step s a = some next → cond s a → Inv s → Inv next) (as : List α) (s : σ)
    (h : Inv s) : Meets step cond s as ↔ Meets step other s as := by
  induction as generalizing s with
  | nil => exact Iff.rfl
  | cons a as ih =>
    refine and_congr_right_iff.mpr ?_ |>.trans (and_congr_left' (hiff s a h))
    intro hcond
    exact forall_congr' fun next => forall_congr' fun hnext => ih next (hstep s a next hnext hcond h)

/-- A condition that is enough for another one under an invariant is so in every run. -/
theorem Meets.imp {other : σ → α → Prop} {Inv : σ → Prop} (himp : ∀ s a, Inv s → cond s a → other s a)
    (hstep : ∀ s a next, step s a = some next → Inv s → Inv next) (as : List α) (s : σ) (h : Inv s)
    (hmeets : Meets step cond s as) : Meets step other s as := by
  induction as generalizing s with
  | nil => trivial
  | cons a as ih =>
    obtain ⟨hcond, hmeets⟩ := hmeets
    exact ⟨himp s a h hcond, fun next hnext => ih next (hstep s a next hnext h) (hmeets next hnext)⟩

/-- What every step keeps holds at the end of every run. -/
theorem invariant_of_run {Inv : σ → Prop}
    (hstep : ∀ s a next, step s a = some next → Inv s → Inv next) (as : List α) (s last : σ)
    (hrun : run step s as = some last) (h : Inv s) : Inv last := by
  induction as generalizing s with
  | nil =>
    cases hrun
    exact h
  | cons a as ih =>
    obtain ⟨next, hnext, hrest⟩ := run_cons_iff.mp hrun
    exact ih next hrest (hstep s a next hnext h)

end JavaAnalyzer.Interleaving
