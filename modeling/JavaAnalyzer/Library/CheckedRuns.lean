import Mathlib.Data.Nat.Notation

/-! # Computations between cancellation checks

A computation that looks at a signal now and then and stops with what it sees there. The checks are counted, as the
signal may come between any two of them. `Yields` says what the computation gives when it is not stopped, and what it
stops with otherwise; a rule for each way to put computations together. -/

namespace JavaAnalyzer.CheckedRuns
set_option autoImplicit false

abbrev Checked (ε : Type) := StateT ℕ (Except ε)

variable {ε α β : Type}

/-- One check of the signal; where there is none, nothing is ever seen. -/
def check (signal : Option (ℕ → Option ε)) : Checked ε Unit := fun n =>
  match signal.bind fun seen => seen n with
  | some reason => .error reason
  | none => .ok ((), n + 1)

def Yields (stops : ε → Prop) (post : α → Prop) (x : Checked ε α) : Prop :=
  ∀ n, match x n with
    | .ok (a, _) => post a
    | .error reason => stops reason

variable {stops : ε → Prop}

theorem Yields.pure {post : α → Prop} {a : α} (h : post a) : Yields stops post (Pure.pure a : Checked ε α) :=
  fun _ => h

theorem Yields.bind {mid : α → Prop} {post : β → Prop} {x : Checked ε α} {f : α → Checked ε β} (hx : Yields stops mid x)
    (hf : ∀ a, mid a → Yields stops post (f a)) : Yields stops post (x >>= f) := by
  intro n
  have hrun := hx n
  change match (x n >>= fun p => f p.1 p.2 : Except ε (β × ℕ)) with
    | .ok (b, _) => post b
    | .error reason => stops reason
  cases hstep : x n with
  | error reason =>
    rw [hstep] at hrun
    exact hrun
  | ok p =>
    rw [hstep] at hrun
    exact hf p.1 hrun p.2

theorem Yields.imp {post post' : α → Prop} {x : Checked ε α} (hx : Yields stops post x) (h : ∀ a, post a → post' a) :
    Yields stops post' x := by
  intro n
  have hrun := hx n
  cases hstep : x n with
  | error reason =>
    rw [hstep] at hrun
    exact hrun
  | ok p =>
    rw [hstep] at hrun
    exact h p.1 hrun

/-- A check stops with what the signal shows. -/
theorem Yields.check {signal : Option (ℕ → Option ε)}
    (h : ∀ seen n reason, signal = some seen → seen n = some reason → stops reason) :
    Yields stops (fun _ => True) (check signal) := by
  intro n
  cases signal with
  | none => trivial
  | some seen =>
    rw [CheckedRuns.check, Option.bind_some]
    cases hseen : seen n with
    | none => trivial
    | some reason => exact h seen n reason rfl hseen

/-- A check that is made only under a condition. -/
theorem Yields.checkIf {signal : Option (ℕ → Option ε)} {condition : Prop} [Decidable condition]
    (h : ∀ seen n reason, signal = some seen → seen n = some reason → stops reason) :
    Yields stops (fun _ => True) (if condition then CheckedRuns.check signal else Pure.pure ()) := by
  split
  · exact Yields.check h
  · exact Yields.pure trivial

theorem Yields.lift {post : α → Prop} {result : Except ε α} (hok : ∀ a, result = .ok a → post a)
    (herror : ∀ reason, result = .error reason → stops reason) :
    Yields stops post (StateT.lift result : Checked ε α) := by
  intro n
  cases hresult : result with
  | error reason => exact herror reason hresult
  | ok a => exact hok a hresult

end JavaAnalyzer.CheckedRuns
