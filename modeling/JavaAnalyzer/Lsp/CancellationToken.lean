import JavaAnalyzer.Library.Interleaving

/-! # The cancellation token

`CancellationToken` of `lsp/request_cancellation.rs` between its atomic steps: calls of `cancel` set
the reason and then notify, calls of `cancelled` check the reason, create a `Notified` future and await
it. `notify_waiters` of tokio wakes the futures that are there and stores no permit. -/

namespace JavaAnalyzer.Lsp
set_option autoImplicit false
open Interleaving

inductive Cancelled where
  | client
  | superseded
deriving DecidableEq, Repr

namespace CancellationToken

/-- Where a call of `cancel` is. -/
inductive CancelCall where
  | absent
  /-- The reason is set, the waiters are not notified yet. -/
  | updated
  | finished (updated : Bool)
deriving DecidableEq, Repr

/-- Where a call of `cancelled` is. -/
inductive Waiter where
  | absent
  | checking
  /-- The check found no reason, there is no future yet. -/
  | unset
  | created (notified : Bool)
  | awaiting (notified : Bool)
  | returned (reason : Cancelled)
deriving DecidableEq, Repr

def Waiter.notify : Waiter → Waiter
  | .created _ => .created true
  | .awaiting _ => .awaiting true
  | phase => phase

/-- A waiter that still has to be woken. -/
def Waiter.Waits : Waiter → Prop
  | .unset => True
  | .created notified => notified = false
  | .awaiting notified => notified = false
  | _ => False

structure State where
  reason : Option Cancelled
  cancels : ℕ → CancelCall
  waiters : ℕ → Waiter

inductive Action where
  | setReason (call : ℕ) (reason : Cancelled)
  | notifyWaiters (call : ℕ)
  | start (waiter : ℕ)
  | check (waiter : ℕ)
  | create (waiter : ℕ)
  | await (waiter : ℕ)
  | wake (waiter : ℕ)

def State.new : State :=
  ⟨none, fun _ => .absent, fun _ => .absent⟩

namespace State

variable (s : State)

def setCancel (call : ℕ) (phase : CancelCall) : State :=
  { s with cancels := Function.update s.cancels call phase }

def setWaiter (waiter : ℕ) (phase : Waiter) : State :=
  { s with waiters := Function.update s.waiters waiter phase }

/-- `compare_exchange(0, reason)`. -/
def setReason (call : ℕ) (reason : Cancelled) : Option State :=
  match s.cancels call, s.reason with
  | .absent, none => some ({ s with reason := some reason }.setCancel call .updated)
  | .absent, some _ => some (s.setCancel call (.finished false))
  | _, _ => none

def notifyWaiters (call : ℕ) : Option State :=
  match s.cancels call with
  | .updated =>
    some ({ s with waiters := fun w => (s.waiters w).notify }.setCancel call (.finished true))
  | _ => none

def start (waiter : ℕ) : Option State :=
  match s.waiters waiter with
  | .absent => some (s.setWaiter waiter .checking)
  | _ => none

def check (waiter : ℕ) : Option State :=
  match s.waiters waiter, s.reason with
  | .checking, some reason => some (s.setWaiter waiter (.returned reason))
  | .checking, none => some (s.setWaiter waiter .unset)
  | _, _ => none

def create (waiter : ℕ) : Option State :=
  match s.waiters waiter with
  | .unset => some (s.setWaiter waiter (.created false))
  | _ => none

def await (waiter : ℕ) : Option State :=
  match s.waiters waiter with
  | .created notified => some (s.setWaiter waiter (.awaiting notified))
  | _ => none

/-- A notified waiter goes on with the loop. -/
def wake (waiter : ℕ) : Option State :=
  match s.waiters waiter with
  | .awaiting true => some (s.setWaiter waiter .checking)
  | _ => none

def step : Action → Option State
  | .setReason call reason => s.setReason call reason
  | .notifyWaiters call => s.notifyWaiters call
  | .start waiter => s.start waiter
  | .check waiter => s.check waiter
  | .create waiter => s.create waiter
  | .await waiter => s.await waiter
  | .wake waiter => s.wake waiter

/-- The token is cancelled, the call that did it has returned, and a waiter is parked for good. -/
def LostWakeUp : Prop :=
  s.reason ≠ none ∧ (∃ call, s.cancels call = .finished true) ∧
    ∃ waiter, s.waiters waiter = .awaiting false

/-- The waiters are not notified while one of them has checked the reason and has no future yet. -/
def NoneUnset : Action → Prop
  | .notifyWaiters _ => ∀ waiter, s.waiters waiter ≠ .unset
  | _ => True

/-! ## The invariant -/

/-- Calls between their steps have set the reason, and a call that has returned left no waiter to
wake. -/
structure Invariant : Prop where
  reason_of_updated : ∀ call, s.cancels call = .updated → s.reason ≠ none
  reason_of_finished : ∀ call, s.cancels call = .finished true → s.reason ≠ none
  woken : ∀ call, s.cancels call = .finished true → ∀ waiter, ¬ (s.waiters waiter).Waits

variable {s} {next : State}

theorem invariant_new : State.new.Invariant :=
  ⟨fun _ h => (by cases h), fun _ h => (by cases h), fun _ h => (by cases h)⟩

theorem not_waits_notify {phase : Waiter} (h : phase ≠ .unset) : ¬ phase.notify.Waits := by
  cases phase <;> simp_all [Waiter.notify, Waiter.Waits]

/-- A waiter moves: it may start to wait only while no call has returned. -/
theorem Invariant.setWaiter (h : s.Invariant) (waiter : ℕ) (phase : Waiter)
    (hphase : phase.Waits → ∀ call, s.cancels call ≠ .finished true) :
    (s.setWaiter waiter phase).Invariant := by
  refine ⟨h.reason_of_updated, h.reason_of_finished, ?_⟩
  intro call hcall other hwaits
  simp only [State.setWaiter, Function.update_apply] at hcall hwaits
  split at hwaits
  · exact hphase hwaits call hcall
  · exact h.woken call hcall other hwaits

/-- No call has returned before the reason is set, and after it a call only moves on. -/
theorem Invariant.setReason (h : s.Invariant) {call : ℕ} {reason : Cancelled}
    (hnext : s.setReason call reason = some next) : next.Invariant := by
  simp only [State.setReason] at hnext
  split at hnext
  · cases hnext
    rename_i hreason
    have hnone : ∀ c, s.cancels c ≠ .finished true := fun c hc =>
      h.reason_of_finished c hc hreason
    refine ⟨fun _ _ => by simp [setCancel], fun _ _ => by simp [setCancel], ?_⟩
    intro c hc
    simp only [setCancel, Function.update_apply] at hc
    split at hc
    · cases hc
    · exact absurd hc (hnone c)
  · cases hnext
    rename_i hreason
    have hset : s.reason ≠ none := by simp [hreason]
    refine ⟨fun _ _ => hset, fun _ _ => hset, ?_⟩
    intro c hc
    simp only [setCancel, Function.update_apply] at hc
    split at hc
    · cases hc
    · exact h.woken c hc
  · cases hnext

/-- `notify_waiters` leaves nobody waiting when none is between its check and its future. -/
theorem Invariant.notifyWaiters (h : s.Invariant) {call : ℕ}
    (hnext : s.notifyWaiters call = some next) (hnone : ∀ waiter, s.waiters waiter ≠ .unset) :
    next.Invariant := by
  simp only [State.notifyWaiters] at hnext
  split at hnext
  · cases hnext
    rename_i hcall
    have hset : s.reason ≠ none := h.reason_of_updated call hcall
    refine ⟨fun _ _ => hset, fun _ _ => hset, ?_⟩
    intro c _ waiter
    exact not_waits_notify (hnone waiter)
  · cases hnext

theorem Invariant.step (h : s.Invariant) {a : Action} (hnext : s.step a = some next)
    (hcond : s.NoneUnset a) : next.Invariant := by
  cases a with
  | setReason call reason => exact h.setReason hnext
  | notifyWaiters call => exact h.notifyWaiters hnext hcond
  | start waiter =>
    simp only [State.step, State.start] at hnext
    split at hnext
    · cases hnext
      exact h.setWaiter waiter .checking fun hwaits => hwaits.elim
    · cases hnext
  | check waiter =>
    simp only [State.step, State.check] at hnext
    split at hnext
    · cases hnext
      exact h.setWaiter waiter _ fun hwaits => hwaits.elim
    · cases hnext
      rename_i hreason
      exact h.setWaiter waiter .unset fun _ c hc => h.reason_of_finished c hc hreason
    · cases hnext
  | create waiter =>
    simp only [State.step, State.create] at hnext
    split at hnext
    · cases hnext
      rename_i hphase
      refine h.setWaiter waiter _ fun _ c hc => h.woken c hc waiter ?_
      rw [hphase]
      trivial
    · cases hnext
  | await waiter =>
    simp only [State.step, State.await] at hnext
    split at hnext
    · cases hnext
      rename_i hphase
      refine h.setWaiter waiter _ fun hwaits c hc => h.woken c hc waiter ?_
      rw [hphase]
      exact hwaits
    · cases hnext
  | wake waiter =>
    simp only [State.step, State.wake] at hnext
    split at hnext
    · cases hnext
      exact h.setWaiter waiter .checking fun hwaits => hwaits.elim
    · cases hnext

theorem Invariant.not_lostWakeUp (h : s.Invariant) : ¬ s.LostWakeUp := by
  intro hlost
  obtain ⟨-, ⟨call, hcall⟩, waiter, hwaiter⟩ := hlost
  apply h.woken call hcall waiter
  rw [hwaiter]
  rfl

end State

/-! ## Every run -/

/-- No run loses a wake-up in which the waiters are never notified between the check of one of them
and the creation of its future. -/
theorem no_lost_wake_up (actions : List Action) (s : State)
    (hrun : run State.step .new actions = some s)
    (hmeets : Meets State.step State.NoneUnset .new actions) : ¬ s.LostWakeUp :=
  State.Invariant.not_lostWakeUp (invariant_of_meets
    (fun _ _ _ hnext hcond h => State.Invariant.step h hnext hcond) actions .new s hrun hmeets
    State.invariant_new)

/-- The waiter is parked, notified, and returns. -/
def parkedRun : List Action :=
  [.start 0, .check 0, .create 0, .await 0, .setReason 0 .client, .notifyWaiters 0, .wake 0,
    .check 0]

theorem parked_waiter_woken : ∃ s, run State.step .new parkedRun = some s ∧
    s.waiters 0 = .returned .client ∧ ¬ s.LostWakeUp := by
  refine ⟨_, rfl, rfl, no_lost_wake_up parkedRun _ rfl ?_⟩
  refine .cons trivial rfl (.cons trivial rfl (.cons trivial rfl (.cons trivial rfl
    (.cons trivial rfl (.cons ?_ rfl (.cons trivial rfl (.cons trivial rfl trivial)))))))
  intro waiter
  by_cases hwaiter : waiter = 0
  · subst hwaiter
    decide
  · simp [State.setWaiter, State.setCancel, State.new, hwaiter]

/-- The cancellation falls between the check and the future. -/
theorem lost_wake_up : ¬ ∀ (actions : List Action) (s : State),
    run State.step .new actions = some s → ¬ s.LostWakeUp := by
  intro hall
  refine hall [.start 0, .check 0, .setReason 0 .client, .notifyWaiters 0, .create 0, .await 0] _
    rfl ⟨?_, ⟨0, rfl⟩, 0, rfl⟩
  intro hreason
  cases hreason

end CancellationToken
end JavaAnalyzer.Lsp
