import JavaAnalyzer.Lsp.CancellationToken

/-! # The request registry

`RequestCancellationManager` of `lsp/request_cancellation.rs` with any number of requests at once. A
call of `begin` allocates a generation, inserts its request and cancels the one that was there before,
in three steps; a guard is finished or dropped later. A request is named by its generation, which no
other request has, and so is its token. The counter is unbounded here. -/

namespace JavaAnalyzer.Lsp
set_option autoImplicit false
open Interleaving

inductive RequestFamily where
  | completion
  | gotoDefinition
  | inlayHints
  | semanticTokensFull
  | semanticTokensRange
  | documentSymbol
deriving DecidableEq, Repr

structure RequestKey where
  family : RequestFamily
  uri : String
deriving DecidableEq, Repr

namespace RequestCancellationManager

/-- Where a request is, from `begin` to the drop of its guard. -/
inductive Request where
  | absent
  | allocated (key : RequestKey)
  | inserted (key : RequestKey) (previous : Option ℕ)
  | running (key : RequestKey)
  /-- The guard is on its way out and about to remove its entry. -/
  | closing (key : RequestKey)
  | dropped (key : RequestKey)
deriving DecidableEq, Repr

/-- The key under which a request was inserted. -/
def Request.insertedKey : Request → Option RequestKey
  | .absent | .allocated _ => none
  | .inserted key _ | .running key | .closing key | .dropped key => some key

/-- The key of a request that was inserted and is not finished. -/
def Request.liveKey : Request → Option RequestKey
  | .inserted key _ | .running key => some key
  | _ => none

/-- `begin` is not through. -/
def Request.inFlight : Request → Bool
  | .allocated _ | .inserted _ _ => true
  | _ => false

structure State where
  nextGeneration : ℕ
  active : RequestKey → Option ℕ
  requests : ℕ → Request
  /-- The reason of the token of each generation. -/
  reasons : ℕ → Option Cancelled
  /-- The generation that superseded each generation. Only the statements below read it. -/
  superseder : ℕ → Option ℕ

inductive Action where
  | allocate (key : RequestKey)
  | insert (generation : ℕ)
  | cancelPrevious (generation : ℕ)
  | finish (generation : ℕ)
  | dropUnfinished (generation : ℕ)
  | removeEntry (generation : ℕ)

namespace State

def new : State :=
  ⟨1, fun _ => none, fun _ => .absent, fun _ => none, fun _ => none⟩

variable (s : State)

def setRequest (generation : ℕ) (phase : Request) : State :=
  { s with requests := Function.update s.requests generation phase }

def setActive (key : RequestKey) (entry : Option ℕ) : State :=
  { s with active := Function.update s.active key entry }

/-- `cancel(Client)` on the own token. -/
def cancelClient (generation : ℕ) : State :=
  if s.reasons generation = none then
    { s with reasons := Function.update s.reasons generation (some .client) }
  else s

/-- `cancel(Superseded)` on the token of the previous entry. -/
def supersede (generation previous : ℕ) : State :=
  if s.reasons previous = none then
    { s with
      reasons := Function.update s.reasons previous (some .superseded)
      superseder := Function.update s.superseder previous (some generation) }
  else s

/-! ## Steps -/

def allocate (key : RequestKey) : State :=
  { s with nextGeneration := s.nextGeneration + 1 }.setRequest s.nextGeneration (.allocated key)

def insert (generation : ℕ) : Option State :=
  match s.requests generation with
  | .allocated key =>
    some ((s.setActive key (some generation)).setRequest generation
      (.inserted key (s.active key)))
  | _ => none

def cancelPrevious (generation : ℕ) : Option State :=
  match s.requests generation with
  | .inserted key none => some (s.setRequest generation (.running key))
  | .inserted key (some previous) =>
    some ((s.supersede generation previous).setRequest generation (.running key))
  | _ => none

def finish (generation : ℕ) : Option State :=
  match s.requests generation with
  | .running key => some (s.setRequest generation (.closing key))
  | _ => none

def dropUnfinished (generation : ℕ) : Option State :=
  match s.requests generation with
  | .running key => some ((s.cancelClient generation).setRequest generation (.closing key))
  | _ => none

/-- `remove_if` the entry is the own one. -/
def removeOwn (key : RequestKey) (generation : ℕ) : State :=
  if s.active key = some generation then s.setActive key none else s

def removeEntry (generation : ℕ) : Option State :=
  match s.requests generation with
  | .closing key => some ((s.removeOwn key generation).setRequest generation (.dropped key))
  | _ => none

def step : Action → Option State
  | .allocate key => some (s.allocate key)
  | .insert generation => s.insert generation
  | .cancelPrevious generation => s.cancelPrevious generation
  | .finish generation => s.finish generation
  | .dropUnfinished generation => s.dropUnfinished generation
  | .removeEntry generation => s.removeEntry generation

/-! ## What is claimed of a state -/

def HasInserted (key : RequestKey) (generation : ℕ) : Prop :=
  (s.requests generation).insertedKey = some key

def Live (key : RequestKey) (generation : ℕ) : Prop :=
  (s.requests generation).liveKey = some key

/-- A token is superseded only by a request of its key with a higher generation. -/
def SupersededByNewer : Prop :=
  ∀ old, s.reasons old = some .superseded →
    ∃ new key, s.superseder old = some new ∧ old < new ∧ s.HasInserted key old ∧
      s.HasInserted key new

/-- The registered request of a key is its newest one, a newest request that is live is registered and
not superseded, and the older live ones are cancelled. -/
def NewestKept (key : RequestKey) : Prop :=
  (∀ generation, s.active key = some generation →
    ∀ other, s.HasInserted key other → other ≤ generation) ∧
  ∀ generation, s.Live key generation →
    ((∀ other, s.HasInserted key other → other ≤ generation) →
      s.active key = some generation ∧ s.reasons generation ≠ some .superseded) ∧
    (∀ other, s.HasInserted key other → generation < other → s.reasons generation ≠ none)

/-- No call of `begin` is between its steps. -/
def NoneInFlight : Prop :=
  ∀ generation, (s.requests generation).inFlight = false

/-- A request is inserted only while no newer request of its key has been inserted. -/
def InOrder : Action → Prop
  | .insert generation => ∀ key, s.requests generation = .allocated key →
      ∀ other, s.HasInserted key other → other ≤ generation
  | _ => True

/-! ## The invariant -/

/-- The begin of another request is about to cancel this one. -/
def CancelPending (key : RequestKey) (generation : ℕ) : Prop :=
  ∃ other, s.requests other = .inserted key (some generation)

structure Invariant : Prop where
  fresh : ∀ generation, s.nextGeneration ≤ generation → s.requests generation = .absent
  active_inserted : ∀ key generation, s.active key = some generation →
    s.HasInserted key generation
  active_newest : ∀ key generation, s.active key = some generation →
    ∀ other, s.HasInserted key other → other ≤ generation
  previous_older : ∀ generation key previous,
    s.requests generation = .inserted key (some previous) →
      previous < generation ∧ s.HasInserted key previous
  replaced_newer : ∀ key generation, s.Live key generation → s.active key ≠ some generation →
    ∃ other, generation < other ∧ s.HasInserted key other
  replaced_cancelled : ∀ key generation, s.Live key generation →
    s.active key ≠ some generation → s.reasons generation ≠ none ∨ s.CancelPending key generation
  superseded : s.SupersededByNewer

variable {s} {next : State}

theorem invariant_new : State.new.Invariant where
  fresh _ _ := rfl
  active_inserted _ _ h := by cases h
  active_newest _ _ h := by cases h
  previous_older _ _ _ h := by cases h
  replaced_newer _ _ h := by cases h
  replaced_cancelled _ _ h := by cases h
  superseded _ h := by cases h

theorem inserted_of_live {phase : Request} {key : RequestKey} (h : phase.liveKey = some key) :
    phase.insertedKey = some key := by
  cases phase <;> simp_all [Request.liveKey, Request.insertedKey]

theorem Invariant.lt_nextGeneration (h : s.Invariant) {generation : ℕ}
    (hpresent : s.requests generation ≠ .absent) : generation < s.nextGeneration := by
  by_contra hle
  exact hpresent (h.fresh generation (by omega))

/-! ## A request moves on -/

/-- The phase of a request that stays where it is in the order of insertions. -/
theorem hasInserted_setRequest {generation : ℕ} {phase : Request}
    (hkey : phase.insertedKey = (s.requests generation).insertedKey) (key : RequestKey)
    (other : ℕ) : (s.setRequest generation phase).HasInserted key other ↔
      s.HasInserted key other := by
  by_cases hother : other = generation
  · subst hother
    simp [HasInserted, setRequest, hkey]
  · simp [HasInserted, setRequest, hother]

/-- A request that has been inserted goes on: it does not come alive again, and the request it was to
cancel is cancelled. -/
theorem Invariant.advance (h : s.Invariant) {generation : ℕ} {phase : Request}
    (hpresent : s.requests generation ≠ .absent)
    (hkey : phase.insertedKey = (s.requests generation).insertedKey)
    (hlive : ∀ key, phase.liveKey = some key → s.Live key generation)
    (hphase : ∀ key previous, phase ≠ .inserted key (some previous))
    (hpending : ∀ key previous, s.requests generation = .inserted key (some previous) →
      s.reasons previous ≠ none) : (s.setRequest generation phase).Invariant := by
  have hins := fun key other => hasInserted_setRequest (s := s) hkey key other
  have hlive' : ∀ key other, (s.setRequest generation phase).Live key other →
      s.Live key other := by
    intro key other hother
    by_cases heq : other = generation
    · subst heq
      refine hlive key ?_
      simpa [Live, setRequest] using hother
    · simpa [Live, setRequest, heq] using hother
  refine ⟨?_, ?_, ?_, ?_, ?_, ?_, ?_⟩
  · intro other hother
    have hlt := h.lt_nextGeneration hpresent
    have hne : other ≠ generation := by
      rintro rfl
      exact absurd hother (by simpa [setRequest] using hlt)
    simpa [setRequest, hne] using h.fresh other hother
  · intro key other hactive
    exact (hins key other).mpr (h.active_inserted key other hactive)
  · intro key other hactive newer hnewer
    exact h.active_newest key other hactive newer ((hins key newer).mp hnewer)
  · intro other key previous hother
    by_cases heq : other = generation
    · subst heq
      exact absurd (by simpa [setRequest] using hother) (hphase key previous)
    · have hold := h.previous_older other key previous (by simpa [setRequest, heq] using hother)
      exact ⟨hold.1, (hins key previous).mpr hold.2⟩
  · intro key other hother hactive
    obtain ⟨newer, hlt, hnewer⟩ := h.replaced_newer key other (hlive' key other hother) hactive
    exact ⟨newer, hlt, (hins key newer).mpr hnewer⟩
  · intro key other hother hactive
    obtain hreason | ⟨newer, hnewer⟩ :=
      h.replaced_cancelled key other (hlive' key other hother) hactive
    · exact .inl hreason
    · by_cases heq : newer = generation
      · subst heq
        exact .inl (hpending key other hnewer)
      · exact .inr ⟨newer, by simpa [setRequest, heq] using hnewer⟩
  · intro old hold
    obtain ⟨new, key, hnew, hlt, hold', hnew'⟩ := h.superseded old hold
    exact ⟨new, key, hnew, hlt, (hins key old).mpr hold', (hins key new).mpr hnew'⟩

/-! ## A token is cancelled -/

theorem Invariant.cancelClient (h : s.Invariant) (generation : ℕ) :
    (s.cancelClient generation).Invariant := by
  unfold State.cancelClient
  split
  · refine ⟨h.fresh, h.active_inserted, h.active_newest, h.previous_older, h.replaced_newer, ?_, ?_⟩
    · intro key other hother hactive
      by_cases heq : other = generation
      · exact .inl (by simp [heq])
      · exact (h.replaced_cancelled key other hother hactive).imp_left
          (by simp [heq])
    · intro old hold
      have hne : old ≠ generation := by
        rintro rfl
        simp at hold
      exact h.superseded old (by simpa [hne] using hold)
  · exact h

theorem Invariant.supersede (h : s.Invariant) {generation previous : ℕ} {key : RequestKey}
    (hlt : previous < generation) (hprevious : s.HasInserted key previous)
    (hgeneration : s.HasInserted key generation) : (s.supersede generation previous).Invariant := by
  unfold State.supersede
  split
  · refine ⟨h.fresh, h.active_inserted, h.active_newest, h.previous_older, h.replaced_newer, ?_, ?_⟩
    · intro key other hother hactive
      by_cases heq : other = previous
      · exact .inl (by simp [heq])
      · exact (h.replaced_cancelled key other hother hactive).imp_left
          (by simp [heq])
    · intro old hold
      by_cases heq : old = previous
      · subst heq
        exact ⟨generation, key, by simp, hlt, hprevious, hgeneration⟩
      · obtain ⟨new, key', hnew, hrest⟩ := h.superseded old (by simpa [heq] using hold)
        exact ⟨new, key', by simpa [heq] using hnew, hrest⟩
  · exact h

theorem supersede_reason (generation previous : ℕ) :
    (s.supersede generation previous).reasons previous ≠ none := by
  unfold supersede
  split
  · simp
  · assumption

/-! ## An entry is removed -/

theorem Invariant.removeOwn (h : s.Invariant) {key : RequestKey} {generation : ℕ}
    (hlive : ∀ key', ¬ s.Live key' generation) : (s.removeOwn key generation).Invariant := by
  unfold State.removeOwn
  split
  · rename_i hactive
    refine ⟨h.fresh, ?_, ?_, h.previous_older, ?_, ?_, h.superseded⟩
    · intro key' other hother
      by_cases heq : key' = key
      · simp [setActive, heq] at hother
      · exact h.active_inserted key' other (by simpa [setActive, heq] using hother)
    · intro key' other hother
      by_cases heq : key' = key
      · simp [setActive, heq] at hother
      · exact h.active_newest key' other (by simpa [setActive, heq] using hother)
    -- A live request is another one, so it was not registered before either.
    · intro key' other hother _
      refine h.replaced_newer key' other hother fun hregistered => ?_
      by_cases heq : key' = key
      · subst heq
        rw [hactive] at hregistered
        cases hregistered
        exact hlive key' hother
      · simp_all [setActive]
    · intro key' other hother _
      refine h.replaced_cancelled key' other hother fun hregistered => ?_
      by_cases heq : key' = key
      · subst heq
        rw [hactive] at hregistered
        cases hregistered
        exact hlive key' hother
      · simp_all [setActive]
  · exact h

/-! ## The steps of begin -/

theorem Invariant.allocate (h : s.Invariant) (key : RequestKey) : (s.allocate key).Invariant := by
  have hold : s.requests s.nextGeneration = .absent := h.fresh _ le_rfl
  have hins : ∀ key' other, (s.allocate key).HasInserted key' other ↔ s.HasInserted key' other := by
    intro key' other
    by_cases heq : other = s.nextGeneration
    · subst heq
      simp [HasInserted, State.allocate, setRequest, hold, Request.insertedKey]
    · simp [HasInserted, State.allocate, setRequest, heq]
  have hlive : ∀ key' other, (s.allocate key).Live key' other → s.Live key' other := by
    intro key' other hother
    by_cases heq : other = s.nextGeneration
    · subst heq
      simp [Live, State.allocate, setRequest, Request.liveKey] at hother
    · simpa [Live, State.allocate, setRequest, heq] using hother
  have hrequests : ∀ other key' previous, s.requests other = .inserted key' previous →
      (s.allocate key).requests other = .inserted key' previous := by
    intro other key' previous hother
    have hne : other ≠ s.nextGeneration := by
      rintro rfl
      rw [hold] at hother
      cases hother
    simpa [State.allocate, setRequest, hne] using hother
  refine ⟨?_, ?_, ?_, ?_, ?_, ?_, ?_⟩
  · intro other hother
    have hlt : s.nextGeneration + 1 ≤ other := hother
    have hne : other ≠ s.nextGeneration := by omega
    simpa [State.allocate, setRequest, hne] using h.fresh other (by omega)
  · intro key' other hactive
    exact (hins key' other).mpr (h.active_inserted key' other hactive)
  · intro key' other hactive newer hnewer
    exact h.active_newest key' other hactive newer ((hins key' newer).mp hnewer)
  · intro other key' previous hother
    have hne : other ≠ s.nextGeneration := by
      rintro rfl
      simp [State.allocate, setRequest] at hother
    have hprev := h.previous_older other key' previous
      (by simpa [State.allocate, setRequest, hne] using hother)
    exact ⟨hprev.1, (hins key' previous).mpr hprev.2⟩
  · intro key' other hother hactive
    obtain ⟨newer, hlt, hnewer⟩ := h.replaced_newer key' other (hlive key' other hother) hactive
    exact ⟨newer, hlt, (hins key' newer).mpr hnewer⟩
  · intro key' other hother hactive
    obtain hreason | ⟨newer, hnewer⟩ :=
      h.replaced_cancelled key' other (hlive key' other hother) hactive
    · exact .inl hreason
    · exact .inr ⟨newer, hrequests newer key' _ hnewer⟩
  · intro old hreason
    obtain ⟨new, key', hnew, hlt, hold', hnew'⟩ := h.superseded old hreason
    exact ⟨new, key', hnew, hlt, (hins key' old).mpr hold', (hins key' new).mpr hnew'⟩

/-! ## A request is registered -/

/-- The state after an insertion, for a request that was allocated. -/
def insertRequest (s : State) (key : RequestKey) (generation : ℕ) : State :=
  (s.setActive key (some generation)).setRequest generation (.inserted key (s.active key))

section Insertion

variable {generation : ℕ} {key : RequestKey}

theorem requests_insertRequest_self : (s.insertRequest key generation).requests generation =
    .inserted key (s.active key) := by
  simp [insertRequest, setRequest]

theorem requests_insertRequest_of_ne {other : ℕ} (hne : other ≠ generation) :
    (s.insertRequest key generation).requests other = s.requests other := by
  simp [insertRequest, setRequest, setActive, hne]

theorem active_insertRequest_self :
    (s.insertRequest key generation).active key = some generation := by
  simp [insertRequest, setActive, setRequest]

theorem active_insertRequest_of_ne {key' : RequestKey} (hne : key' ≠ key) :
    (s.insertRequest key generation).active key' = s.active key' := by
  simp [insertRequest, setActive, setRequest, hne]

theorem not_hasInserted_of_allocated (hphase : s.requests generation = .allocated key)
    (key' : RequestKey) : ¬ s.HasInserted key' generation := by
  intro hins
  simp [HasInserted, hphase, Request.insertedKey] at hins

theorem hasInserted_insertRequest (hphase : s.requests generation = .allocated key)
    (key' : RequestKey) (other : ℕ) : (s.insertRequest key generation).HasInserted key' other ↔
      s.HasInserted key' other ∨ (other = generation ∧ key' = key) := by
  by_cases hother : other = generation
  · subst hother
    have hnot := not_hasInserted_of_allocated hphase key'
    rw [HasInserted, requests_insertRequest_self]
    simp [Request.insertedKey, hnot, eq_comm]
  · rw [HasInserted, requests_insertRequest_of_ne hother]
    simp [HasInserted, hother]

/-- A request that is live but not registered afterwards is another one, it was live before, and either
it was not registered or the insertion has just taken its place. -/
theorem live_insertRequest {key' : RequestKey} {other : ℕ}
    (hlive : (s.insertRequest key generation).Live key' other)
    (hunregistered : (s.insertRequest key generation).active key' ≠ some other) :
    s.Live key' other ∧ (s.active key' = some other → key' = key) := by
  have hne : other ≠ generation := by
    rintro rfl
    rw [Live, requests_insertRequest_self] at hlive
    obtain rfl : key = key' := Option.some.inj hlive
    exact hunregistered active_insertRequest_self
  rw [Live, requests_insertRequest_of_ne hne] at hlive
  refine ⟨hlive, fun hregistered => ?_⟩
  by_contra hkey
  exact hunregistered ((active_insertRequest_of_ne hkey).trans hregistered)

theorem lt_of_inOrder (hphase : s.requests generation = .allocated key)
    (horder : ∀ other, s.HasInserted key other → other ≤ generation) {other : ℕ}
    (hins : s.HasInserted key other) : other < generation := by
  refine lt_of_le_of_ne (horder other hins) ?_
  rintro rfl
  exact not_hasInserted_of_allocated hphase key hins

theorem Invariant.insert (h : s.Invariant) (hphase : s.requests generation = .allocated key)
    (horder : ∀ other, s.HasInserted key other → other ≤ generation) :
    (s.insertRequest key generation).Invariant := by
  have hins := hasInserted_insertRequest hphase
  have hmono : ∀ key' other, s.HasInserted key' other →
      (s.insertRequest key generation).HasInserted key' other :=
    fun key' other hold => (hins key' other).mpr (.inl hold)
  have hnew : (s.insertRequest key generation).HasInserted key generation :=
    (hins key generation).mpr (.inr ⟨rfl, rfl⟩)
  constructor
  case fresh =>
    intro other hother
    have hpresent : s.requests generation ≠ .absent := by simp [hphase]
    have hbound := h.lt_nextGeneration hpresent
    have hge : s.nextGeneration ≤ other := hother
    rw [requests_insertRequest_of_ne (by omega)]
    exact h.fresh other hge
  case active_inserted =>
    intro key' other hother
    by_cases heq : key' = key
    · subst heq
      rw [active_insertRequest_self] at hother
      cases hother
      exact hnew
    · rw [active_insertRequest_of_ne heq] at hother
      exact hmono key' other (h.active_inserted key' other hother)
  case active_newest =>
    intro key' other hother newer hnewer
    by_cases heq : key' = key
    · subst heq
      rw [active_insertRequest_self] at hother
      cases hother
      rcases (hins key' newer).mp hnewer with hold | ⟨rfl, -⟩
      · exact horder newer hold
      · exact le_rfl
    · rw [active_insertRequest_of_ne heq] at hother
      rcases (hins key' newer).mp hnewer with hold | ⟨-, hkey⟩
      · exact h.active_newest key' other hother newer hold
      · exact absurd hkey heq
  case previous_older =>
    intro other key' previous hother
    by_cases heq : other = generation
    · subst heq
      rw [requests_insertRequest_self] at hother
      obtain ⟨rfl, hprevious⟩ := Request.inserted.inj hother
      have hold := h.active_inserted key previous hprevious
      exact ⟨lt_of_inOrder hphase horder hold, hmono key previous hold⟩
    · rw [requests_insertRequest_of_ne heq] at hother
      have hold := h.previous_older other key' previous hother
      exact ⟨hold.1, hmono key' previous hold.2⟩
  case replaced_newer =>
    intro key' other hother hunregistered
    obtain ⟨hold, hkey⟩ := live_insertRequest hother hunregistered
    by_cases hregistered : s.active key' = some other
    · obtain rfl := hkey hregistered
      exact ⟨generation, lt_of_inOrder hphase horder (inserted_of_live hold), hnew⟩
    · obtain ⟨newer, hnewer, hold'⟩ := h.replaced_newer key' other hold hregistered
      exact ⟨newer, hnewer, hmono key' newer hold'⟩
  case replaced_cancelled =>
    intro key' other hother hunregistered
    obtain ⟨hold, hkey⟩ := live_insertRequest hother hunregistered
    by_cases hregistered : s.active key' = some other
    · obtain rfl := hkey hregistered
      exact .inr ⟨generation, requests_insertRequest_self.trans (by rw [hregistered])⟩
    · refine (h.replaced_cancelled key' other hold hregistered).imp_right fun hpending => ?_
      obtain ⟨newer, hnewer⟩ := hpending
      have hne : newer ≠ generation := by
        rintro rfl
        rw [hphase] at hnewer
        cases hnewer
      exact ⟨newer, (requests_insertRequest_of_ne hne).trans hnewer⟩
  case superseded =>
    intro old hold
    obtain ⟨new, key', hnew', hlt, hold', hnewer⟩ := h.superseded old hold
    exact ⟨new, key', hnew', hlt, hmono key' old hold', hmono key' new hnewer⟩

end Insertion

/-! ## Every step -/

theorem Invariant.cancelPrevious (h : s.Invariant) {generation : ℕ}
    (hnext : s.cancelPrevious generation = some next) : next.Invariant := by
  simp only [State.cancelPrevious] at hnext
  split at hnext
  · cases hnext
    rename_i key hphase
    refine h.advance ?_ ?_ ?_ ?_ ?_
    all_goals simp [hphase, Live, Request.insertedKey, Request.liveKey]
  · cases hnext
    rename_i key previous hphase
    obtain ⟨hlt, hprevious⟩ := h.previous_older generation key previous hphase
    have hsame : (s.supersede generation previous).requests = s.requests := by
      unfold State.supersede
      split <;> rfl
    have hinserted : s.HasInserted key generation := by
      simp [HasInserted, hphase, Request.insertedKey]
    refine (h.supersede hlt hprevious hinserted).advance ?_ ?_ ?_ ?_ ?_
    · simp [hsame, hphase]
    · simp [hsame, hphase, Request.insertedKey]
    · simp [Live, hsame, hphase, Request.liveKey]
    · intro key' previous' hrunning
      cases hrunning
    · intro key' previous' hinserted'
      rw [hsame, hphase] at hinserted'
      cases hinserted'
      exact supersede_reason generation previous
  · cases hnext

/-- A request that is dropped before it finished only cancels itself. -/
theorem Invariant.dropUnfinished (h : s.Invariant) {generation : ℕ}
    (hnext : s.dropUnfinished generation = some next) : next.Invariant := by
  simp only [State.dropUnfinished] at hnext
  split at hnext
  · cases hnext
    rename_i key hphase
    have hsame : (s.cancelClient generation).requests = s.requests := by
      unfold State.cancelClient
      split <;> rfl
    refine (h.cancelClient generation).advance ?_ ?_ ?_ ?_ ?_
    all_goals simp [hsame, hphase, Request.insertedKey, Request.liveKey]
  · cases hnext

/-- An entry is removed by its own request, which is no longer live. -/
theorem Invariant.removeEntry (h : s.Invariant) {generation : ℕ}
    (hnext : s.removeEntry generation = some next) : next.Invariant := by
  simp only [State.removeEntry] at hnext
  split at hnext
  · cases hnext
    rename_i key hphase
    have hsame : (s.removeOwn key generation).requests = s.requests := by
      unfold State.removeOwn
      split <;> rfl
    have hdead : ∀ key', ¬ s.Live key' generation := by
      simp [Live, hphase, Request.liveKey]
    refine (h.removeOwn hdead).advance ?_ ?_ ?_ ?_ ?_
    all_goals simp [hsame, hphase, Request.insertedKey, Request.liveKey]
  · cases hnext

theorem Invariant.step (h : s.Invariant) {a : Action} (hnext : s.step a = some next)
    (hcond : s.InOrder a) : next.Invariant := by
  cases a with
  | allocate key =>
    cases hnext
    exact h.allocate key
  | insert generation =>
    simp only [State.step, State.insert] at hnext
    split at hnext
    · cases hnext
      rename_i key hphase
      exact h.insert hphase (hcond key hphase)
    · cases hnext
  | cancelPrevious generation => exact h.cancelPrevious hnext
  | finish generation =>
    simp only [State.step, State.finish] at hnext
    split at hnext
    · cases hnext
      rename_i key hphase
      refine h.advance ?_ ?_ ?_ ?_ ?_
      all_goals simp [hphase, Request.insertedKey, Request.liveKey]
    · cases hnext
  | dropUnfinished generation => exact h.dropUnfinished hnext
  | removeEntry generation => exact h.removeEntry hnext

theorem Invariant.newestKept (h : s.Invariant) (hquiet : s.NoneInFlight) (key : RequestKey) :
    s.NewestKept key := by
  have hnone : ∀ generation, ¬ s.CancelPending key generation := by
    intro generation hpending
    obtain ⟨other, hother⟩ := hpending
    have hquiet' := hquiet other
    rw [hother] at hquiet'
    cases hquiet'
  refine ⟨h.active_newest key, fun generation hlive => ⟨?_, ?_⟩⟩
  · intro hnewest
    have hregistered : s.active key = some generation := by
      by_contra hne
      obtain ⟨other, hlt, hother⟩ := h.replaced_newer key generation hlive hne
      have hle := hnewest other hother
      omega
    refine ⟨hregistered, fun hreason => ?_⟩
    obtain ⟨new, key', -, hlt, hold, hnew⟩ := h.superseded generation hreason
    have hkey : key' = key := Option.some.inj (hold.symm.trans (inserted_of_live hlive))
    subst hkey
    have hle := hnewest new hnew
    omega
  · intro other hother hlt
    have hne : s.active key ≠ some generation := by
      intro hregistered
      have hle := h.active_newest key generation hregistered other hother
      omega
    exact (h.replaced_cancelled key generation hlive hne).resolve_right (hnone generation)

/-! ## What holds of every step -/

/-- The removal of an entry leaves the entries of other requests. -/
def KeepsNewer (next : State) : Action → Prop
  | .removeEntry generation => ∀ key other, s.active key = some other → other ≠ generation →
      next.active key = some other
  | _ => True

def KeepsReasons (next : State) : Prop :=
  ∀ generation reason, s.reasons generation = some reason → next.reasons generation = some reason

theorem keepsNewer_step {a : Action} (hnext : s.step a = some next) : s.KeepsNewer next a := by
  cases a with
  | removeEntry generation =>
    simp only [State.step, State.removeEntry] at hnext
    split at hnext
    · cases hnext
      intro key other hother hne
      unfold State.removeOwn
      split
      · rename_i key' _ hown
        have hkey : key ≠ key' := by
          rintro rfl
          rw [hown] at hother
          cases hother
          exact hne rfl
        simpa [setRequest, setActive, hkey] using hother
      · exact hother
    · cases hnext
  | _ => trivial

theorem keepsReasons_cancelClient (generation : ℕ) :
    s.KeepsReasons (s.cancelClient generation) := by
  intro other reason hreason
  unfold cancelClient
  split
  · rename_i hnone
    have hne : other ≠ generation := by
      rintro rfl
      rw [hnone] at hreason
      cases hreason
    simpa [hne] using hreason
  · exact hreason

theorem keepsReasons_supersede (generation previous : ℕ) :
    s.KeepsReasons (s.supersede generation previous) := by
  intro other reason hreason
  unfold supersede
  split
  · rename_i hnone
    have hne : other ≠ previous := by
      rintro rfl
      rw [hnone] at hreason
      cases hreason
    simpa [hne] using hreason
  · exact hreason

theorem keepsReasons_step {a : Action} (hnext : s.step a = some next) : s.KeepsReasons next := by
  cases a with
  | allocate key =>
    cases hnext
    exact fun _ _ hreason => hreason
  | insert generation | finish generation =>
    simp only [State.step, State.insert, State.finish] at hnext
    split at hnext
    · cases hnext
      exact fun _ _ hreason => hreason
    · cases hnext
  | cancelPrevious generation =>
    simp only [State.step, State.cancelPrevious] at hnext
    split at hnext
    · cases hnext
      exact fun _ _ hreason => hreason
    · cases hnext
      exact keepsReasons_supersede generation _
    · cases hnext
  | dropUnfinished generation =>
    simp only [State.step, State.dropUnfinished] at hnext
    split at hnext
    · cases hnext
      exact keepsReasons_cancelClient generation
    · cases hnext
  | removeEntry generation =>
    simp only [State.step, State.removeEntry] at hnext
    split at hnext
    · cases hnext
      intro other reason hreason
      unfold State.removeOwn
      split
      · exact hreason
      · exact hreason
    · cases hnext

end State

/-! ## Every run -/

/-- In every run that inserts the requests of a key in the order of their generations, the newest
request is kept. -/
theorem newest_request_kept (actions : List Action) (s : State)
    (hrun : run State.step .new actions = some s)
    (hmeets : Meets State.step State.InOrder .new actions) :
    s.SupersededByNewer ∧ (s.NoneInFlight → ∀ key, s.NewestKept key) ∧
      ∀ a next, s.step a = some next → s.KeepsNewer next a ∧ s.KeepsReasons next := by
  have h : s.Invariant := invariant_of_meets
    (fun _ _ _ hnext hcond hinv => State.Invariant.step hinv hnext hcond) actions .new s hrun hmeets
    State.invariant_new
  exact ⟨h.superseded, h.newestKept, fun a next hnext =>
    ⟨State.keepsNewer_step hnext, State.keepsReasons_step hnext⟩⟩

def completionKey : RequestKey := ⟨.completion, "file:///Main.java"⟩

/-- Two requests, one after the other. The guard of the older one is dropped at last. -/
def orderedRun : List Action :=
  [.allocate completionKey, .insert 1, .cancelPrevious 1, .allocate completionKey, .insert 2,
    .cancelPrevious 2, .dropUnfinished 1, .removeEntry 1]

theorem ordered_run_keeps_newest : ∃ s, run State.step .new orderedRun = some s ∧
    s.active completionKey = some 2 ∧ s.reasons 1 = some .superseded ∧ s.SupersededByNewer ∧
    (s.NoneInFlight → ∀ key, s.NewestKept key) := by
  have hmeets : Meets State.step State.InOrder .new orderedRun := by
    refine .cons trivial rfl (.cons ?_ rfl (.cons trivial rfl (.cons trivial rfl (.cons ?_ rfl
      (.cons trivial rfl (.cons trivial rfl (.cons trivial rfl trivial)))))))
    · intro key _ other hother
      by_cases h1 : other = 1
      · omega
      · simp [State.HasInserted, State.allocate, State.setRequest, State.new, h1,
          Request.insertedKey] at hother
    · intro key _ other hother
      by_cases h1 : other = 1
      · omega
      · by_cases h2 : other = 2
        · omega
        · simp [State.HasInserted, State.allocate, State.setRequest, State.setActive, State.new, h1,
            h2, Request.insertedKey] at hother
  have hall := newest_request_kept orderedRun _ rfl hmeets
  exact ⟨_, rfl, by decide, by decide, hall.1, hall.2.1⟩

/-- The younger request inserts first, and is superseded by the older one. -/
theorem older_request_supersedes : ¬ ∀ (actions : List Action) (s : State),
    run State.step .new actions = some s → s.SupersededByNewer := by
  intro hall
  have hs := hall [.allocate completionKey, .allocate completionKey, .insert 2, .cancelPrevious 2,
    .insert 1, .cancelPrevious 1] _ rfl
  obtain ⟨new, key, hnew, hlt, -, -⟩ := hs 2 (by decide)
  have hold : some 1 = some new := hnew
  cases hold
  omega

end RequestCancellationManager
end JavaAnalyzer.Lsp
