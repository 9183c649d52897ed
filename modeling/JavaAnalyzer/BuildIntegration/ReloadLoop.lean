import JavaAnalyzer.Library.EventLog
import JavaAnalyzer.Library.Interleaving
import JavaAnalyzer.Workspace.WorkspaceModel

/-! # The reload loop

`run_reload_loop` of `build_integration/reload.rs`. Triggers wait in a channel; the loop receives one,
starts the import when the debounce timer has run out, and takes the result of the import, in any order.
An import is a task of its own and may return long before the loop looks. What the loop does is logged. -/

namespace JavaAnalyzer.BuildIntegration
set_option autoImplicit false
open EventLog Interleaving Workspace

/-! ## Status and imports -/

inductive DetectedBuildToolKind where
  | gradle
  | maven
deriving DecidableEq, Repr

structure BuildWatchInterest where
  fileNames : List String
deriving DecidableEq, Repr

def BuildWatchInterest.matchesPath (interest : BuildWatchInterest) (path : Path) : Bool :=
  match path.getLast? with
  | none => false
  | some fileName => interest.fileNames.any (· == fileName)

structure DetectedBuildTool where
  kind : DetectedBuildToolKind
  root : Path
  watchInterest : BuildWatchInterest
deriving DecidableEq, Repr

inductive ModelFreshness where
  | fresh
  | stale
deriving DecidableEq, Repr

inductive ModelFidelity where
  | full
  | partly
deriving DecidableEq, Repr

inductive BuildCapability where
  | unsupported
  | supported
deriving DecidableEq, Repr

inductive BuildReloadState where
  | unmanaged
  | idle
  | debouncing
  | importing
  | stale
  | failed
deriving DecidableEq, Repr

structure BuildIntegrationStatus where
  detectedTool : Option DetectedBuildToolKind := none
  toolVersion : Option String := none
  capability : BuildCapability := .unsupported
  reloadState : BuildReloadState := .unmanaged
  generation : UInt64 := 0
  freshness : Option ModelFreshness := none
  fidelity : Option ModelFidelity := none
  lastError : Option String := none

/-- A workspace model as an import delivers it. -/
structure ImportedModel extends WorkspaceModelSnapshot where
  generation : UInt64
  tool : DetectedBuildToolKind
  toolVersion : Option String
  freshness : ModelFreshness
  fidelity : ModelFidelity

/-- What the handle of an import gives: `Ok(Ok(..))`, `Ok(Err(..))` or `Err(..)`. -/
inductive ImportResult where
  | imported (snapshot : ImportedModel)
  | failed (err : String)
  | taskFailed (err : String)

/-- `import_workspace` of both build tools puts the generation of its request into the snapshot. -/
def ImportResult.normalize (generation : UInt64) : ImportResult → ImportResult
  | .imported snapshot => .imported { snapshot with generation := generation }
  | result => result

structure InFlight where
  generation : UInt64
  /-- There once the task has returned. -/
  result : Option ImportResult

inductive ReloadReason where
  | onInitialize
  | fileChanged (path : Path)
  | manual
deriving DecidableEq, Repr

inductive LoopEvent where
  | received (reason : ReloadReason)
  | importStarted (generation : UInt64)
  | fallbackStarted (generation : UInt64)
  | applied (generation : UInt64)
deriving DecidableEq, Repr

/-! ## The loop -/

/-- In milliseconds. -/
def defaultReloadDebounce : ℕ := 900

structure ReloadLoop where
  queue : List ReloadReason
  generation : UInt64
  dirty : Bool
  debounce : Option ℕ
  inFlight : Option InFlight
  /-- The calls of `import_workspace` that have not returned. -/
  running : List UInt64
  status : BuildIntegrationStatus
  watchInterest : Option BuildWatchInterest
  /-- The model that is published with the index. -/
  model : Option ImportedModel
  log : List LoopEvent

inductive LoopAction where
  | scheduleReload (reason : ReloadReason)
  | notifyPathsChanged (paths : List Path)
  | receive (now : ℕ)
  | debounceElapsed (now : ℕ) (resolved : Option DetectedBuildTool) (fallback : Except String Unit)
  | importReturns (result : ImportResult)
  | importAwaited (now : ℕ) (apply : Except String Unit)

namespace ReloadLoop

def new : ReloadLoop where
  queue := []
  generation := 0
  dirty := false
  debounce := none
  inFlight := none
  running := []
  status := {}
  watchInterest := none
  model := none
  log := []

variable (fallbackWatchInterest : BuildWatchInterest) (s : ReloadLoop)

def scheduleReload (reason : ReloadReason) : ReloadLoop :=
  { s with queue := s.queue ++ [reason] }

def notifyPathsChanged (paths : List Path) : ReloadLoop :=
  let relevant := paths.filter (s.watchInterest.getD fallbackWatchInterest).matchesPath
  relevant.foldl (fun s path => s.scheduleReload (.fileChanged path)) s

def receive (now : ℕ) : Option ReloadLoop :=
  match s.queue with
  | [] => none
  | reason :: queue => some { s with
      queue := queue
      dirty := true
      debounce := some (now + defaultReloadDebounce)
      status := { s.status with
        reloadState := if s.inFlight.isSome then .importing else .debouncing }
      log := s.log ++ [.received reason] }

def publishDetectionStatus (detection : Option DetectedBuildTool) : ReloadLoop :=
  { s with
    watchInterest := detection.map DetectedBuildTool.watchInterest
    status := { s.status with
      detectedTool := detection.map DetectedBuildTool.kind
      toolVersion := if detection.isNone then none else s.status.toolVersion
      capability := if detection.isSome then .supported else .unsupported } }

/-- `index_fallback_root` publishes an index without a model. -/
def startFallback (fallback : Except String Unit) : ReloadLoop :=
  let status : BuildIntegrationStatus := { s.status with
    capability := .unsupported
    reloadState := .unmanaged
    detectedTool := none
    lastError := none }
  match fallback with
  | .error err => { s with
      status := { status with reloadState := .failed, lastError := some err }
      log := s.log ++ [.fallbackStarted s.generation] }
  | .ok () => { s with
      status := status
      model := none
      log := s.log ++ [.fallbackStarted s.generation] }

def startImport (detected : DetectedBuildTool) : ReloadLoop :=
  { s with
    status := { s.status with
      capability := .supported
      detectedTool := some detected.kind
      toolVersion := none
      reloadState := .importing
      lastError := none }
    inFlight := some ⟨s.generation, none⟩
    running := s.running ++ [s.generation]
    log := s.log ++ [.importStarted s.generation] }

/-- The loop looks at the timer only while no import is in flight. -/
def debounceElapsed (now : ℕ) (resolved : Option DetectedBuildTool) (fallback : Except String Unit) :
    Option ReloadLoop :=
  match s.debounce, s.inFlight with
  | some deadline, none =>
    if deadline ≤ now then
      if s.dirty then
        let begun := { s with dirty := false, debounce := none, generation := s.generation + 1 }
        let published := begun.publishDetectionStatus resolved
        match resolved with
        | none => some (published.startFallback fallback)
        | some detected => some (published.startImport detected)
      else some { s with debounce := none }
    else none
  | _, _ => none

def importReturns (result : ImportResult) : Option ReloadLoop :=
  match s.inFlight with
  | some ⟨generation, none⟩ => some { s with
      inFlight := some ⟨generation, some (result.normalize generation)⟩
      running := s.running.erase generation }
  | _ => none

def markModelStale : ReloadLoop :=
  { s with model := s.model.map fun model => { model with freshness := .stale } }

def fail (err : String) : ReloadLoop :=
  { s with status := { s.status with reloadState := .failed, lastError := some err } }

def applyWorkspaceModel (snapshot : ImportedModel) (apply : Except String Unit) : ReloadLoop :=
  match apply with
  | .error err => (s.fail err).markModelStale
  | .ok () => { s with
      status := { s.status with
        capability := .supported
        detectedTool := some snapshot.tool
        toolVersion := snapshot.toolVersion
        reloadState := if s.dirty then .debouncing else .idle
        generation := snapshot.generation
        freshness := some snapshot.freshness
        fidelity := some snapshot.fidelity
        lastError := none }
      model := some snapshot
      log := s.log ++ [.applied snapshot.generation] }

def handleResult (result : ImportResult) (apply : Except String Unit) : ReloadLoop :=
  match result with
  | .imported snapshot => s.applyWorkspaceModel snapshot apply
  | .failed err => s.markModelStale.fail err
  | .taskFailed err => s.markModelStale.fail err

/-- Triggers that came during the import arm the timer again. -/
def rearm (now : ℕ) : ReloadLoop :=
  if s.dirty then
    { s with
      debounce := some (now + defaultReloadDebounce)
      status := { s.status with reloadState := .debouncing } }
  else s

def importAwaited (now : ℕ) (apply : Except String Unit) : Option ReloadLoop :=
  match s.inFlight with
  | some ⟨_, some result⟩ =>
    some ((({ s with inFlight := none } : ReloadLoop).handleResult result apply).rearm now)
  | _ => none

def step : LoopAction → Option ReloadLoop
  | .scheduleReload reason => some (s.scheduleReload reason)
  | .notifyPathsChanged paths => some (s.notifyPathsChanged fallbackWatchInterest paths)
  | .receive now => s.receive now
  | .debounceElapsed now resolved fallback => s.debounceElapsed now resolved fallback
  | .importReturns result => s.importReturns result
  | .importAwaited now apply => s.importAwaited now apply

/-! ## What the log tells -/

def IsReceived : LoopEvent → Prop
  | .received _ => True
  | _ => False

def IsApplied : LoopEvent → Prop
  | .applied _ => True
  | _ => False

/-- The generation that an event begins. -/
def begins : LoopEvent → Option UInt64
  | .importStarted generation => some generation
  | .fallbackStarted generation => some generation
  | _ => none

def applies : LoopEvent → Option UInt64
  | .applied generation => some generation
  | _ => none

def begun (log : List LoopEvent) : List UInt64 :=
  log.filterMap begins

def appliedGenerations (log : List LoopEvent) : List UInt64 :=
  log.filterMap applies

/-- The generation of the event is the latest one. -/
def Latest (before : List LoopEvent) (e : LoopEvent) : Prop :=
  (begun before).getLast? = applies e

/-- An import or a fallback comes after every trigger that the loop has received. -/
def TriggersFollowed (log : List LoopEvent) : Prop :=
  Followed IsReceived (fun e => (begins e).isSome = true) log

/-- No model of a superseded generation is applied. -/
def LatestApplied (log : List LoopEvent) : Prop :=
  Timely IsApplied Latest log

/-- Nothing is left that the loop could do. -/
structure Quiescent : Prop where
  queue : s.queue = []
  debounce : s.debounce = none
  inFlight : s.inFlight = none

theorem begun_concat (log : List LoopEvent) (e : LoopEvent) :
    begun (log ++ [e]) = begun log ++ (begins e).toList := by
  rw [begun, List.filterMap_append, begun]
  cases h : begins e <;> simp [h]

theorem appliedGenerations_concat (log : List LoopEvent) (e : LoopEvent) :
    appliedGenerations (log ++ [e]) = appliedGenerations log ++ (applies e).toList := by
  rw [appliedGenerations, List.filterMap_append, appliedGenerations]
  cases h : applies e <;> simp [h]

/-! ## The invariant -/

/-- The import in flight is the latest generation, and its snapshot carries that number. -/
structure Flying (generation : UInt64) (log : List LoopEvent) (flight : InFlight) : Prop where
  current : flight.generation = generation
  latest : (begun log).getLast? = some flight.generation
  stamped : ∀ snapshot, flight.result = some (.imported snapshot) →
    snapshot.generation = flight.generation

/-- Applied generations increase up to the current one, which is applied only when its import is no
longer in flight. -/
structure Ordered : Prop where
  increasing : (appliedGenerations s.log).Pairwise (· < ·)
  bounded : ∀ g ∈ appliedGenerations s.log, g ≤ s.generation
  pending : s.inFlight.isSome → ∀ g ∈ appliedGenerations s.log, g < s.generation

structure Invariant : Prop where
  armed : s.dirty = true → s.inFlight = none → s.debounce.isSome = true
  running : s.running =
    ((s.inFlight.filter fun flight => flight.result.isNone).map InFlight.generation).toList
  flying : ∀ flight, s.inFlight = some flight → Flying s.generation s.log flight
  followed : s.dirty = false → TriggersFollowed s.log
  timely : LatestApplied s.log
  /-- The counter wraps around. -/
  counted : s.generation = UInt64.ofNat (begun s.log).length
  ordered : (begun s.log).length < 2 ^ 64 → s.Ordered

variable {s} {fallbackWatchInterest}

theorem invariant_new : new.Invariant where
  armed h := by cases h
  running := rfl
  flying _ h := by cases h
  followed _ := followed_nil
  timely := timely_nil
  counted := rfl
  ordered _ := ⟨List.Pairwise.nil, fun _ h => absurd h List.not_mem_nil,
    fun h => absurd h Bool.false_ne_true⟩

theorem Invariant.of_same {next : ReloadLoop} (h : s.Invariant)
    (hgeneration : next.generation = s.generation) (hdirty : next.dirty = s.dirty)
    (hdebounce : next.debounce = s.debounce) (hflight : next.inFlight = s.inFlight)
    (hrunning : next.running = s.running) (hlog : next.log = s.log) : next.Invariant where
  armed := by rw [hdirty, hflight, hdebounce]; exact h.armed
  running := by rw [hrunning, hflight]; exact h.running
  flying := by rw [hflight, hgeneration, hlog]; exact h.flying
  followed := by rw [hdirty, hlog]; exact h.followed
  timely := by rw [hlog]; exact h.timely
  counted := by rw [hgeneration, hlog]; exact h.counted
  ordered hlt := by
    rw [hlog] at hlt
    obtain ⟨hincreasing, hbounded, hpending⟩ := h.ordered hlt
    exact ⟨by rw [hlog]; exact hincreasing, by rw [hlog, hgeneration]; exact hbounded,
      by rw [hlog, hgeneration, hflight]; exact hpending⟩

theorem Invariant.scheduleReload (h : s.Invariant) (reason : ReloadReason) :
    (s.scheduleReload reason).Invariant :=
  h.of_same rfl rfl rfl rfl rfl rfl

theorem Invariant.notifyPathsChanged (h : s.Invariant) (paths : List Path) :
    (s.notifyPathsChanged fallbackWatchInterest paths).Invariant := by
  rw [ReloadLoop.notifyPathsChanged]
  generalize paths.filter _ = relevant
  induction relevant generalizing s with
  | nil => exact h
  | cons path relevant ih => exact ih (h.scheduleReload _)

/-! ## Steps -/

theorem Flying.concat {generation : UInt64} {log : List LoopEvent} {flight : InFlight}
    (h : Flying generation log flight) {e : LoopEvent} (he : begins e = none) :
    Flying generation (log ++ [e]) flight where
  current := h.current
  latest := by rw [begun_concat, he, Option.toList_none, List.append_nil]; exact h.latest
  stamped := h.stamped

theorem begun_concat_length {log : List LoopEvent} {e : LoopEvent} (he : begins e = none) :
    (begun (log ++ [e])).length = (begun log).length := by
  rw [begun_concat, he, Option.toList_none, List.append_nil]

theorem Invariant.receive (h : s.Invariant) {now : ℕ} {next : ReloadLoop}
    (hnext : s.receive now = some next) : next.Invariant := by
  rw [ReloadLoop.receive] at hnext
  split at hnext
  · cases hnext
  · rename_i reason queue hqueue
    cases hnext
    have hnone : begins (.received reason) = none := rfl
    refine ⟨fun _ _ => rfl, h.running, fun flight hflight => (h.flying flight hflight).concat hnone,
      fun hdirty => Bool.noConfusion hdirty, h.timely.concat fun happlied => happlied.elim, ?_, ?_⟩
    · rw [begun_concat_length hnone]
      exact h.counted
    · intro hlt
      rw [begun_concat_length hnone] at hlt
      obtain ⟨hincreasing, hbounded, hpending⟩ := h.ordered hlt
      have happlied : appliedGenerations (s.log ++ [.received reason]) = appliedGenerations s.log := by
        rw [appliedGenerations_concat]
        exact List.append_nil _
      exact ⟨by rw [happlied]; exact hincreasing, by rw [happlied]; exact hbounded,
        by rw [happlied]; exact hpending⟩

/-- What the start of an import and that of a fallback have in common. -/
structure Begins (s next : ReloadLoop) (e : LoopEvent) : Prop where
  begins : begins e = some next.generation
  generation : next.generation = s.generation + 1
  dirty : next.dirty = false
  log : next.log = s.log ++ [e]
  flight : ∀ flight, next.inFlight = some flight → flight = ⟨next.generation, none⟩
  running : next.running =
    ((next.inFlight.filter fun flight => flight.result.isNone).map InFlight.generation).toList

theorem Begins.counted {next : ReloadLoop} {e : LoopEvent} (hbegins : Begins s next e)
    (h : s.Invariant) : next.generation = UInt64.ofNat (begun next.log).length := by
  rw [hbegins.log, begun_concat, hbegins.begins, Option.toList_some, List.length_append,
    List.length_singleton, UInt64.ofNat_add, ← h.counted, hbegins.generation]
  rfl

theorem Begins.lt_generation {next : ReloadLoop} {e : LoopEvent} (hbegins : Begins s next e)
    (h : s.Invariant) (hlt : (begun next.log).length < 2 ^ 64) : s.generation < next.generation := by
  have hlength : (begun next.log).length = (begun s.log).length + 1 := by
    rw [hbegins.log, begun_concat, hbegins.begins]
    simp
  have hold : (begun s.log).length < UInt64.size := by
    simp only [UInt64.size]
    omega
  rw [hbegins.counted h, h.counted, UInt64.lt_iff_toNat_lt, UInt64.toNat_ofNat_of_lt' hlt,
    UInt64.toNat_ofNat_of_lt' hold]
  omega

theorem Begins.invariant {next : ReloadLoop} {e : LoopEvent} (hbegins : Begins s next e)
    (h : s.Invariant) : next.Invariant := by
  have hreceived : ¬ IsReceived e := fun he => by
    cases e <;> first | exact he | cases hbegins.begins
  have happlied : applies e = none := by
    cases e <;> first | rfl | cases hbegins.begins
  have hlog : appliedGenerations next.log = appliedGenerations s.log := by
    rw [hbegins.log, appliedGenerations_concat, happlied, Option.toList_none, List.append_nil]
  have hlast : (begun next.log).getLast? = some next.generation := by
    rw [hbegins.log, begun_concat, hbegins.begins, Option.toList_some, List.getLast?_concat]
  refine ⟨fun hdirty => absurd (hbegins.dirty ▸ hdirty) (by decide), hbegins.running, ?_, ?_, ?_,
    hbegins.counted h, ?_⟩
  · intro flight hflight
    obtain rfl := hbegins.flight flight hflight
    exact ⟨rfl, hlast, fun _ hresult => by cases hresult⟩
  · intro _
    rw [TriggersFollowed, hbegins.log]
    exact followed_concat hreceived (by rw [hbegins.begins]; rfl)
  · rw [LatestApplied, hbegins.log]
    refine h.timely.concat fun he => ?_
    cases e <;> first | exact he.elim | cases hbegins.begins
  · intro hlt
    have hgreater := hbegins.lt_generation h hlt
    have hold : (begun s.log).length < 2 ^ 64 := by
      rw [hbegins.log, begun_concat, List.length_append] at hlt
      omega
    obtain ⟨hincreasing, hbounded, -⟩ := h.ordered hold
    refine ⟨by rw [hlog]; exact hincreasing, ?_, ?_⟩
    · intro g hg
      exact UInt64.le_of_lt (UInt64.lt_of_le_of_lt (hbounded g (hlog ▸ hg)) hgreater)
    · intro _ g hg
      exact UInt64.lt_of_le_of_lt (hbounded g (hlog ▸ hg)) hgreater

theorem begins_startFallback {begun : ReloadLoop} (hgeneration : begun.generation = s.generation + 1)
    (hdirty : begun.dirty = false) (hlog : begun.log = s.log) (hflight : begun.inFlight = none)
    (hrunning : begun.running = []) (fallback : Except String Unit) :
    Begins s (begun.startFallback fallback) (.fallbackStarted begun.generation) := by
  have hnone : ∀ flight, begun.inFlight = some flight → flight = ⟨begun.generation, none⟩ :=
    fun _ h => absurd (hflight.symm.trans h) (by simp)
  cases fallback with
  | error err =>
    refine ⟨rfl, hgeneration, hdirty, congrArg (· ++ _) hlog, hnone, ?_⟩
    simp only [startFallback, hflight, hrunning]
    rfl
  | ok done =>
    refine ⟨rfl, hgeneration, hdirty, congrArg (· ++ _) hlog, hnone, ?_⟩
    simp only [startFallback, hflight, hrunning]
    rfl

theorem begins_startImport {begun : ReloadLoop} (hgeneration : begun.generation = s.generation + 1)
    (hdirty : begun.dirty = false) (hlog : begun.log = s.log) (hrunning : begun.running = [])
    (detected : DetectedBuildTool) :
    Begins s (begun.startImport detected) (.importStarted begun.generation) := by
  refine ⟨rfl, hgeneration, hdirty, congrArg (· ++ _) hlog, ?_, ?_⟩
  · intro flight hflight
    exact (Option.some.inj hflight).symm
  · simp only [startImport, hrunning]
    rfl

theorem Invariant.debounceElapsed (h : s.Invariant) {now : ℕ} {resolved : Option DetectedBuildTool}
    {fallback : Except String Unit} {next : ReloadLoop}
    (hnext : s.debounceElapsed now resolved fallback = some next) : next.Invariant := by
  rw [ReloadLoop.debounceElapsed] at hnext
  split at hnext
  · rename_i deadline hdebounce hflight
    have hrunning : s.running = [] := by
      rw [h.running, hflight]
      rfl
    split at hnext
    · split at hnext
      · cases resolved with
        | none =>
          cases hnext
          refine (begins_startFallback ?_ ?_ ?_ ?_ ?_ fallback).invariant h
          · rfl
          · rfl
          · rfl
          · exact hflight
          · exact hrunning
        | some detected =>
          cases hnext
          refine (begins_startImport ?_ ?_ ?_ ?_ detected).invariant h
          · rfl
          · rfl
          · rfl
          · exact hrunning
      · rename_i hdirty
        cases hnext
        exact ⟨fun hd => absurd hd hdirty, h.running, h.flying, h.followed, h.timely, h.counted,
          fun hlt => ⟨(h.ordered hlt).increasing, (h.ordered hlt).bounded, (h.ordered hlt).pending⟩⟩
    · cases hnext
  · cases hnext

theorem Invariant.importReturns (h : s.Invariant) {result : ImportResult} {next : ReloadLoop}
    (hnext : s.importReturns result = some next) : next.Invariant := by
  rw [ReloadLoop.importReturns] at hnext
  split at hnext
  · rename_i generation hflight
    cases hnext
    have hflying := h.flying _ hflight
    refine ⟨fun _ hnone => (by cases hnone), ?_, ?_, h.followed, h.timely, h.counted, ?_⟩
    · rw [h.running, hflight]
      simp [Option.filter]
    · intro flight hf
      cases hf
      refine ⟨hflying.current, hflying.latest, fun snapshot hresult => ?_⟩
      cases result with
      | imported snapshot =>
        cases hresult
        rfl
      | failed err => cases hresult
      | taskFailed err => cases hresult
    · intro hlt
      have hordered := h.ordered hlt
      exact ⟨hordered.increasing, hordered.bounded, fun _ => hordered.pending (by rw [hflight]; rfl)⟩
  · cases hnext

/-- The import that was in flight is over, and its model is applied or not. -/
structure Landed (s : ReloadLoop) (flight : InFlight) (t : ReloadLoop) : Prop where
  generation : t.generation = s.generation
  dirty : t.dirty = s.dirty
  inFlight : t.inFlight = none
  running : t.running = []
  log : t.log = s.log ∨ t.log = s.log ++ [.applied flight.generation]

theorem landed_handleResult {flight : InFlight} {result : ImportResult} {apply : Except String Unit}
    (hflying : Flying s.generation s.log flight) (hresult : flight.result = some result)
    (hrunning : s.running = []) :
    Landed s flight (({ s with inFlight := none } : ReloadLoop).handleResult result apply) := by
  cases result with
  | failed err => exact ⟨rfl, rfl, rfl, hrunning, Or.inl rfl⟩
  | taskFailed err => exact ⟨rfl, rfl, rfl, hrunning, Or.inl rfl⟩
  | imported snapshot =>
    cases apply with
    | error err => exact ⟨rfl, rfl, rfl, hrunning, Or.inl rfl⟩
    | ok done =>
      refine ⟨rfl, rfl, rfl, hrunning, Or.inr ?_⟩
      rw [← hflying.stamped snapshot hresult]
      rfl

theorem Landed.ordered {flight : InFlight} {t : ReloadLoop} (ht : Landed s flight t)
    (hflying : Flying s.generation s.log flight) (hflight : s.inFlight = some flight)
    (h : s.Ordered) : t.Ordered := by
  have hpending := h.pending (by rw [hflight]; rfl)
  rcases ht.log with hlog | hlog
  · refine ⟨hlog ▸ h.increasing, ?_, fun hsome => ?_⟩
    · rw [hlog, ht.generation]
      exact h.bounded
    · rw [ht.inFlight] at hsome
      exact absurd hsome Bool.false_ne_true
  · have happlied : appliedGenerations t.log = appliedGenerations s.log ++ [s.generation] := by
      rw [hlog, appliedGenerations_concat, ← hflying.current]
      rfl
    refine ⟨?_, ?_, fun hsome => ?_⟩
    · rw [happlied, List.pairwise_append]
      refine ⟨h.increasing, List.pairwise_singleton _ _, fun g hg other hother => ?_⟩
      rw [List.mem_singleton.mp hother]
      exact hpending g hg
    · intro g hg
      rw [ht.generation]
      rw [happlied, List.mem_append, List.mem_singleton] at hg
      rcases hg with hg | rfl
      · exact h.bounded g hg
      · exact UInt64.le_refl _
    · rw [ht.inFlight] at hsome
      exact absurd hsome Bool.false_ne_true

theorem Landed.followed {flight : InFlight} {t : ReloadLoop} (ht : Landed s flight t)
    (h : TriggersFollowed s.log) : TriggersFollowed t.log := by
  rcases ht.log with hlog | hlog
  · rw [hlog]
    exact h
  · rw [hlog]
    exact h.concat id

theorem Landed.timely {flight : InFlight} {t : ReloadLoop} (ht : Landed s flight t)
    (hflying : Flying s.generation s.log flight) (h : LatestApplied s.log) : LatestApplied t.log := by
  rcases ht.log with hlog | hlog
  · rw [hlog]
    exact h
  · rw [hlog]
    exact h.concat fun _ => hflying.latest

theorem Landed.begun_length {flight : InFlight} {t : ReloadLoop} (ht : Landed s flight t) :
    (begun t.log).length = (begun s.log).length := by
  rcases ht.log with hlog | hlog
  · rw [hlog]
  · rw [hlog]
    exact begun_concat_length rfl

theorem Invariant.landed (h : s.Invariant) {flight : InFlight} (hflight : s.inFlight = some flight)
    {t : ReloadLoop} (ht : Landed s flight t) (now : ℕ) : (t.rearm now).Invariant := by
  have hflying := h.flying flight hflight
  have hrunning : t.running = ((t.inFlight.filter fun flight => flight.result.isNone).map
      InFlight.generation).toList := by
    rw [ht.running, ht.inFlight]
    rfl
  have hnone : ∀ other, t.inFlight = some other → Flying t.generation t.log other :=
    fun _ hother => by rw [ht.inFlight] at hother; cases hother
  have hcounted : t.generation = UInt64.ofNat (begun t.log).length := by
    rw [ht.generation, ht.begun_length]
    exact h.counted
  have hordered (hlt : (begun t.log).length < 2 ^ 64) : t.Ordered :=
    ht.ordered hflying hflight (h.ordered (ht.begun_length ▸ hlt))
  rw [rearm]
  split
  · rename_i hdirty
    refine ⟨fun _ _ => rfl, hrunning, hnone, fun hclean => ?_, ht.timely hflying h.timely, hcounted,
      fun hlt => ⟨(hordered hlt).increasing, (hordered hlt).bounded, (hordered hlt).pending⟩⟩
    exact absurd (hdirty.symm.trans hclean) (by decide)
  · rename_i hclean
    refine ⟨fun hdirty => absurd hdirty hclean, hrunning, hnone, fun hdirty => ?_,
      ht.timely hflying h.timely, hcounted, hordered⟩
    exact ht.followed (h.followed (ht.dirty ▸ hdirty))

theorem Invariant.importAwaited (h : s.Invariant) {now : ℕ} {apply : Except String Unit}
    {next : ReloadLoop} (hnext : s.importAwaited now apply = some next) : next.Invariant := by
  rw [ReloadLoop.importAwaited] at hnext
  split at hnext
  · rename_i generation result hflight
    cases hnext
    have hrunning : s.running = [] := by
      rw [h.running, hflight]
      rfl
    exact h.landed hflight (landed_handleResult (h.flying _ hflight) rfl hrunning) now
  · cases hnext

theorem Invariant.step (h : s.Invariant) {a : LoopAction} {next : ReloadLoop}
    (hnext : s.step fallbackWatchInterest a = some next) : next.Invariant := by
  cases a with
  | scheduleReload reason =>
    cases hnext
    exact h.scheduleReload reason
  | notifyPathsChanged paths =>
    cases hnext
    exact h.notifyPathsChanged paths
  | receive now => exact h.receive hnext
  | debounceElapsed now resolved fallback => exact h.debounceElapsed hnext
  | importReturns result => exact h.importReturns hnext
  | importAwaited now apply => exact h.importAwaited hnext

theorem invariant_run {actions : List LoopAction}
    (hrun : run (step fallbackWatchInterest) new actions = some s) : s.Invariant :=
  invariant_of_run (fun _ _ _ hnext h => h.step hnext) actions _ s hrun invariant_new

/-! ## Reload safety -/

def gradleModel : ImportedModel where
  modules := []
  generation := 0
  tool := .gradle
  toolVersion := none
  freshness := .fresh
  fidelity := .full

/-- A trigger, the import it leads to, and its model. -/
def importCycle : List LoopAction :=
  [.scheduleReload .manual, .receive 0,
    .debounceElapsed 900 (some ⟨.gradle, [], ⟨[]⟩⟩) (.ok ()), .importReturns (.imported gradleModel),
    .importAwaited 900 (.ok ())]

theorem Invariant.running_length (h : s.Invariant) : s.running.length ≤ 1 := by
  rw [h.running]
  cases s.inFlight with
  | none => simp
  | some flight => cases flight.result <;> simp [Option.filter, *]

/-- At most one import runs, a dirty loop without one has its timer armed, so a quiescent loop has begun
an import or a fallback after every trigger, and only the model of the latest generation is applied, in
increasing order as long as the counter has not wrapped around. -/
theorem reload_loop_safe (fallbackWatchInterest : BuildWatchInterest) (actions : List LoopAction)
    (s : ReloadLoop) (hrun : run (step fallbackWatchInterest) new actions = some s) :
    s.running.length ≤ 1 ∧
      (s.dirty = true → s.inFlight = none → s.debounce.isSome = true) ∧
      (s.Quiescent → TriggersFollowed s.log) ∧
      LatestApplied s.log ∧
      ((begun s.log).length < 2 ^ 64 → (appliedGenerations s.log).Pairwise (· < ·)) := by
  have h := invariant_run hrun
  refine ⟨h.running_length, h.armed, fun hquiescent => h.followed ?_, h.timely,
    fun hlt => (h.ordered hlt).increasing⟩
  by_contra hdirty
  have harmed := h.armed (by simpa using hdirty) hquiescent.inFlight
  rw [hquiescent.debounce] at harmed
  exact absurd harmed Bool.false_ne_true

theorem import_cycle_safe : ∃ s, run (step ⟨[]⟩) new importCycle = some s ∧ TriggersFollowed s.log :=
  ⟨_, rfl, (reload_loop_safe ⟨[]⟩ importCycle _ rfl).2.2.1 ⟨rfl, rfl, rfl⟩⟩

/-! ## The counter wraps around -/

def importCycles : ℕ → List LoopAction
  | 0 => []
  | n + 1 => importCycles n ++ importCycle

/-- Between two cycles. -/
structure Rested (s : ReloadLoop) : Prop where
  queue : s.queue = []
  dirty : s.dirty = false
  inFlight : s.inFlight = none
  running : s.running = []

theorem run_importCycle (h : s.Rested) : ∃ next,
    run (step fallbackWatchInterest) s importCycle = some next ∧ next.Rested ∧
      next.generation = s.generation + 1 ∧
      appliedGenerations next.log = appliedGenerations s.log ++ [s.generation + 1] := by
  obtain ⟨queue, generation, dirty, debounce, inFlight, running, status, watchInterest, model, log⟩ := s
  obtain ⟨rfl, rfl, rfl, rfl⟩ := h
  refine ⟨_, rfl, ⟨rfl, rfl, rfl, ?_⟩, rfl, ?_⟩
  · exact List.erase_cons_head _ _
  · exact (appliedGenerations_concat _ _).trans (congrArg (· ++ _)
      (((appliedGenerations_concat _ _).trans (List.append_nil _)).trans
        ((appliedGenerations_concat _ _).trans (List.append_nil _))))

theorem run_importCycles (fallbackWatchInterest : BuildWatchInterest) (n : ℕ) : ∃ s,
    run (step fallbackWatchInterest) new (importCycles n) = some s ∧ s.Rested ∧ s.generation = UInt64.ofNat n ∧ (n ≠ 0 → appliedGenerations s.log ≠ []) := by
  induction n with
  | zero => exact ⟨new, rfl, ⟨rfl, rfl, rfl, rfl⟩, rfl, fun h => absurd rfl h⟩
  | succ n ih =>
    obtain ⟨s, hrun, hrested, hgeneration, -⟩ := ih
    obtain ⟨next, hnext, hnextRested, hnextGeneration, happlied⟩ := run_importCycle hrested
    refine ⟨next, run_append hrun hnext, hnextRested, ?_, fun _ => ?_⟩
    · rw [hnextGeneration, hgeneration, UInt64.ofNat_add]
      rfl
    · rw [happlied]
      simp

/-- The import that follows 2^64 - 1 others has generation 0. -/
theorem wrapped_generation_applied : ¬ ∀ (fallbackWatchInterest : BuildWatchInterest)
    (actions : List LoopAction) (s : ReloadLoop),
    run (step fallbackWatchInterest) new actions = some s →
      (appliedGenerations s.log).Pairwise (· < ·) := by
  intro hall
  obtain ⟨s, hrun, hrested, hgeneration, happlied⟩ :=
    run_importCycles ⟨[]⟩ (2 ^ 64 - 1)
  obtain ⟨next, hnext, -, -, hnextApplied⟩ := run_importCycle hrested
  have hincreasing := hall ⟨[]⟩ _ next (run_append hrun hnext)
  have hwrapped : s.generation + 1 = 0 := by
    rw [hgeneration]
    rfl
  rw [hnextApplied, hwrapped, List.pairwise_append] at hincreasing
  obtain ⟨g, hg⟩ := List.exists_mem_of_ne_nil _ (happlied (by norm_num))
  exact absurd (hincreasing.2.2 g hg 0 (List.mem_singleton_self 0)) (UInt64.not_lt_zero)

end ReloadLoop

end JavaAnalyzer.BuildIntegration
