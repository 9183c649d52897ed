import JavaAnalyzer.Library.Interleaving
import JavaAnalyzer.Workspace.WorkspaceModel

/-! # The active JDK

The JDK artifact is kept twice: in `active_jdk` and in the published index. `set_jdk_artifact` stores
the first and then updates the second; a reindex reads the first, builds an index over several awaits
and replaces the second. -/

namespace JavaAnalyzer.Index
set_option autoImplicit false

/-! ## Calls that leave the JDK alone -/

def Mutation.setsJdk : Mutation → Bool
  | .addJdkClasses _ | .setJdkArtifact _ => true
  | _ => false

def WorkspaceIndex.Op.setsJdk : WorkspaceIndex.Op → Bool
  | .mutate m => m.setsJdk
  | _ => false

namespace WorkspaceCore

variable (core : WorkspaceCore)

theorem jdk_ensureModule (id : ModuleId) (name : String) :
    (core.ensureModule id name).2.jdk = core.jdk :=
  (grown_ensureModule core id name).jdk

theorem jdk_changeBucket (module : ModuleId) (sourceRoot : Option SourceRootId)
    (f : BucketIndex → BucketIndex × Bool) :
    (core.changeBucket module sourceRoot f).1.jdk = core.jdk := by
  rw [changeBucket_eq core module sourceRoot f rfl]
  exact core.jdk_ensureModule module (defaultModuleName module)

theorem jdk_changeModule (id : ModuleId) (f : ModuleIndex → ModuleIndex) :
    (core.changeModule id f).jdk = core.jdk :=
  core.jdk_ensureModule id (defaultModuleName id)

theorem jdk_getOrIndexJars (resolve : String → JarResolution) (paths : List String) :
    (getOrIndexJars resolve core paths).2.jdk = core.jdk := by
  induction paths generalizing core with
  | nil => rfl
  | cons path paths ih =>
    exact (ih _).trans (grown_getOrIndexJar core path (resolve path)).jdk

theorem jdk_allocRoots (roots : List (SourceRootId × ClasspathId)) :
    (core.allocRoots roots).2.jdk = core.jdk := by
  induction roots generalizing core with
  | nil => rfl
  | cons root roots ih =>
    obtain ⟨id, classpath⟩ := root
    exact ih (core.alloc .new).2

theorem jdk_mutate {m : Mutation} (h : m.setsJdk = false) : (core.mutate m).1.jdk = core.jdk := by
  cases m with
  | ensureModule id name => exact core.jdk_ensureModule id name
  | updateSource module origin classes declarations => exact core.jdk_changeBucket module none _
  | updateSourceInContext module sourceRoot origin classes declarations =>
    exact core.jdk_changeBucket module sourceRoot _
  | removeSourceOrigin module origin => exact core.jdk_changeBucket module none _
  | removeSourceOriginInContext module sourceRoot origin =>
    exact core.jdk_changeBucket module sourceRoot _
  | addJdkClasses classes => cases h
  | setJdkArtifact artifactId => cases h
  | addJarClasses module classes =>
    exact core.jdk_ensureModule module (defaultModuleName module)
  | getOrIndexJar path resolution => exact (grown_getOrIndexJar core path resolution).jdk
  | setModuleClasspath module classpathId jarPaths resolve =>
    exact (jdk_changeModule _ module _).trans (core.jdk_getOrIndexJars resolve jarPaths)
  | setModuleDependencies module deps => rfl
  | registerModuleSourceRoots module roots hasher =>
    exact (jdk_allocRoots _ roots).trans (core.jdk_ensureModule module (defaultModuleName module))
  | setModuleActiveClasspath module classpathId => exact core.jdk_changeModule module _

end WorkspaceCore

namespace WorkspaceIndex

theorem jdk_apply (index : WorkspaceIndex) {op : Op} (h : op.setsJdk = false) :
    (index.apply op).core.jdk = index.core.jdk := by
  cases op with
  | mutate m =>
    rw [apply, mutate_core]
    exact index.core.jdk_mutate h
  | scopeForAnalysisContext key =>
    simp only [apply, scopeForAnalysisContext]
    split
    · rfl
    · split <;> exact (WorkspaceCore.grown_buildScopeSnapshot index.core key).jdk
  | clearAnalysisCaches => rfl

theorem jdk_foldl_apply (index : WorkspaceIndex) {ops : List Op}
    (h : ∀ op ∈ ops, op.setsJdk = false) :
    (ops.foldl apply index).core.jdk = index.core.jdk := by
  induction ops generalizing index with
  | nil => rfl
  | cons op ops ih =>
    have hrest := ih (index.apply op) fun op' hop' => h op' (List.mem_cons_of_mem _ hop')
    exact hrest.trans (index.jdk_apply (h op (List.mem_cons_self ..)))

end WorkspaceIndex

end JavaAnalyzer.Index

namespace JavaAnalyzer.Workspace
open Index Interleaving

/-! ## The index of a reindex -/

theorem Reindex.setsJdk_of_mem_calls (env : Environment) (reindex : Reindex) :
    ∀ op ∈ reindex.calls env, op.setsJdk = false := by
  intro op hop
  cases reindex with
  | applyWorkspaceModel snapshot indexedRoots openDocs =>
    simp only [calls, List.mem_append, List.mem_map, List.mem_flatMap] at hop
    obtain (⟨m, ⟨module, -, hm⟩, rfl⟩ | ⟨m, ⟨indexed, -, hm⟩, rfl⟩) | ⟨unit, -, hop⟩ := hop
    · simp only [publishModule, List.mem_cons, List.not_mem_nil, or_false] at hm
      obtain rfl | rfl | rfl | rfl | rfl := hm <;> rfl
    · obtain ⟨unit, -, rfl⟩ := List.mem_map.mp hm
      rfl
    · simp only [publishOpenDoc, List.mem_cons, List.not_mem_nil, or_false] at hop
      obtain rfl | rfl := hop <;> rfl
  | indexFallbackRoot units =>
    obtain ⟨unit, -, rfl⟩ := List.mem_map.mp hop
    rfl

theorem Reindex.build_jdk (env : Environment) (reindex : Reindex) (activeJdk : Option ArtifactId) :
    (reindex.build env activeJdk).core.jdk = ⟨none, activeJdk⟩ := by
  rw [build, WorkspaceIndex.run, List.foldl_append,
    WorkspaceIndex.jdk_foldl_apply _ (reindex.setsJdk_of_mem_calls env)]
  cases activeJdk <;> rfl

/-! ## The calls and their steps -/

namespace ActiveJdk

/-- A call of `set_jdk_artifact`. -/
inductive SetCall where
  | absent
  | stored (artifact : ArtifactId)
  | finished
deriving DecidableEq, Repr

/-- A call of `apply_workspace_model` or of `index_fallback_root`. -/
inductive ReindexCall where
  | absent
  | read (activeJdk : Option ArtifactId)
  | finished
deriving DecidableEq, Repr

structure State where
  activeJdk : Option ArtifactId
  index : WorkspaceIndex
  setCalls : ℕ → SetCall
  reindexCalls : ℕ → ReindexCall

inductive Action where
  | store (call : ℕ) (artifact : ArtifactId)
  | update (call : ℕ)
  | read (call : ℕ)
  | replace (call : ℕ) (reindex : Reindex)
  /-- The scan of the disk fails, and the call returns the error. -/
  | fail (call : ℕ)
  /-- A call of another party on the published index. -/
  | other (op : WorkspaceIndex.Op)

namespace State

def new : State :=
  ⟨none, .new, fun _ => .absent, fun _ => .absent⟩

variable (env : Environment) (s : State)

def setSetCall (call : ℕ) (phase : SetCall) : State :=
  { s with setCalls := Function.update s.setCalls call phase }

def setReindexCall (call : ℕ) (phase : ReindexCall) : State :=
  { s with reindexCalls := Function.update s.reindexCalls call phase }

def store (call : ℕ) (artifact : ArtifactId) : Option State :=
  match s.setCalls call with
  | .absent => some ({ s with activeJdk := some artifact }.setSetCall call (.stored artifact))
  | _ => none

def update (call : ℕ) : Option State :=
  match s.setCalls call with
  | .stored artifact =>
    some ({ s with index := (s.index.mutate (.setJdkArtifact artifact)).1 }.setSetCall call
      .finished)
  | _ => none

def read (call : ℕ) : Option State :=
  match s.reindexCalls call with
  | .absent => some (s.setReindexCall call (.read s.activeJdk))
  | _ => none

def replace (call : ℕ) (reindex : Reindex) : Option State :=
  match s.reindexCalls call with
  | .read activeJdk =>
    some ({ s with index := reindex.build env activeJdk }.setReindexCall call .finished)
  | _ => none

def fail (call : ℕ) : Option State :=
  match s.reindexCalls call with
  | .read _ => some (s.setReindexCall call .finished)
  | _ => none

def other (op : WorkspaceIndex.Op) : Option State :=
  if op.setsJdk then none else some { s with index := s.index.apply op }

def step : Action → Option State
  | .store call artifact => s.store call artifact
  | .update call => s.update call
  | .read call => s.read call
  | .replace call reindex => s.replace env call reindex
  | .fail call => s.fail call
  | .other op => s.other op

/-- Every call that has started is through. -/
structure Finished : Prop where
  setCalls : ∀ call artifact, s.setCalls call ≠ .stored artifact
  reindexCalls : ∀ call activeJdk, s.reindexCalls call ≠ .read activeJdk

/-- The JDK layer of the published index is the artifact that was stored last. -/
def JdkKept : Prop :=
  s.index.core.jdkLayers = (s.activeJdk.map ScopeLayer.artifact).toList

instance : Decidable s.JdkKept :=
  inferInstanceAs (Decidable (s.index.core.jdkLayers = (s.activeJdk.map ScopeLayer.artifact).toList))

/-- Some call has stored the current artifact and is about to publish it. -/
def UpdatePending : Prop :=
  ∃ call artifact, s.activeJdk = some artifact ∧ s.setCalls call = .stored artifact

/-- An index or an artifact is published only if it has the current JDK, or if the current JDK is
still to be published. -/
def PublishesCurrent : Action → Prop
  | .update call => ∀ artifact, s.setCalls call = .stored artifact →
      s.activeJdk = some artifact ∨ s.UpdatePending
  | .replace call _ => ∀ activeJdk, s.reindexCalls call = .read activeJdk →
      activeJdk = s.activeJdk ∨ s.UpdatePending
  | _ => True

/-! ## The invariant -/

def Invariant : Prop :=
  s.index.core.jdk = ⟨none, s.activeJdk⟩ ∨ s.UpdatePending

variable {env} {s} {next : State}

theorem invariant_new : State.new.Invariant :=
  .inl rfl

theorem jdk_setJdkArtifact (index : WorkspaceIndex) (artifact : ArtifactId) :
    (index.mutate (.setJdkArtifact artifact)).1.core.jdk = ⟨none, some artifact⟩ := by
  rw [WorkspaceIndex.mutate_core]
  rfl

theorem Invariant.store (call : ℕ) (artifact : ArtifactId) (hnext : s.store call artifact = some next) :
    next.Invariant := by
  unfold State.store at hnext
  split at hnext
  · cases hnext
    exact .inr ⟨call, artifact, rfl, by simp [setSetCall]⟩
  · cases hnext

theorem Invariant.update {call : ℕ} (hcond : s.PublishesCurrent (.update call))
    (hnext : s.update call = some next) : next.Invariant := by
  unfold State.update at hnext
  split at hnext
  · rename_i artifact hcall
    cases hnext
    by_cases hcurrent : s.activeJdk = some artifact
    · left
      show (s.index.mutate (.setJdkArtifact artifact)).1.core.jdk = _
      rw [jdk_setJdkArtifact, ← hcurrent]
      rfl
    · obtain hcur | ⟨other, pending, hactive, hother⟩ := hcond artifact hcall
      · exact absurd hcur hcurrent
      · refine .inr ⟨other, pending, hactive, ?_⟩
        -- The pending call is another one: it has stored another artifact.
        have hne : other ≠ call := by
          intro heq
          rw [heq, hcall] at hother
          cases hother
          exact hcurrent hactive
        simpa [setSetCall, hne] using hother
  · cases hnext

theorem Invariant.replace {call : ℕ} {reindex : Reindex}
    (hcond : s.PublishesCurrent (.replace call reindex))
    (hnext : s.replace env call reindex = some next) : next.Invariant := by
  unfold State.replace at hnext
  split at hnext
  · rename_i activeJdk hcall
    cases hnext
    obtain hcurrent | hpending := hcond activeJdk hcall
    · left
      show (reindex.build env activeJdk).core.jdk = _
      rw [reindex.build_jdk env, hcurrent]
      rfl
    · exact .inr hpending
  · cases hnext

theorem Invariant.step (h : s.Invariant) {a : Action} (hnext : s.step env a = some next)
    (hcond : s.PublishesCurrent a) : next.Invariant := by
  cases a with
  | store call artifact => exact Invariant.store call artifact hnext
  | update call => exact Invariant.update hcond hnext
  | read call =>
    simp only [State.step, State.read] at hnext
    split at hnext
    · cases hnext
      exact h
    · cases hnext
  | replace call reindex => exact Invariant.replace hcond hnext
  | fail call =>
    simp only [State.step, State.fail] at hnext
    split at hnext
    · cases hnext
      exact h
    · cases hnext
  | other op =>
    simp only [State.step, State.other] at hnext
    split at hnext
    · cases hnext
    · rename_i hop
      cases hnext
      obtain hjdk | hpending := h
      · left
        show (s.index.apply op).core.jdk = _
        rw [s.index.jdk_apply (by simpa using hop), hjdk]
      · exact .inr hpending

theorem Invariant.jdkKept (h : s.Invariant) (hfinished : s.Finished) : s.JdkKept := by
  obtain hjdk | ⟨call, artifact, -, hcall⟩ := h
  · unfold JdkKept WorkspaceCore.jdkLayers
    rw [hjdk]
    cases s.activeJdk <;> rfl
  · exact absurd hcall (hfinished.setCalls call artifact)

end State

/-! ## Every run -/

/-- The JDK is kept in every run in which what is published has the current JDK, or the current JDK is
still to be published. -/
theorem jdk_kept (env : Environment) (actions : List Action) (s : State)
    (hrun : run (State.step env) .new actions = some s)
    (hmeets : Meets (State.step env) State.PublishesCurrent .new actions) (hfinished : s.Finished) :
    s.JdkKept :=
  State.Invariant.jdkKept (invariant_of_meets
    (fun _ _ _ hnext hcond h => State.Invariant.step h hnext hcond) actions .new s hrun hmeets
    State.invariant_new) hfinished

/-- One call of each kind has run, and is through. -/
theorem State.finished_of_first {s : State} (hset : s.setCalls 0 = .finished)
    (hreindex : s.reindexCalls 0 = .finished)
    (hothers : ∀ call, call ≠ 0 → s.setCalls call = .absent ∧ s.reindexCalls call = .absent) :
    s.Finished := by
  constructor
  · intro call artifact hstored
    by_cases hcall : call = 0
    · rw [hcall, hset] at hstored
      cases hstored
    · rw [(hothers call hcall).1] at hstored
      cases hstored
  · intro call activeJdk hread
    by_cases hcall : call = 0
    · rw [hcall, hreindex] at hread
      cases hread
    · rw [(hothers call hcall).2] at hread
      cases hread

def plainEnvironment : Environment :=
  ⟨fun _ => none, fun _ => .failed, .insertion⟩

/-- The JDK is stored while an index is built, and updated after the index is replaced. -/
def storedMeanwhile : List Action :=
  [.read 0, .store 0 ⟨1⟩, .replace 0 (.indexFallbackRoot []), .update 0]

theorem stored_meanwhile_kept : ∃ s, run (State.step plainEnvironment) .new storedMeanwhile = some s ∧
    s.activeJdk = some ⟨1⟩ ∧ s.JdkKept := by
  refine ⟨_, rfl, rfl, jdk_kept plainEnvironment storedMeanwhile _ rfl ?_ ?_⟩
  · refine .cons trivial rfl (.cons trivial rfl (.cons ?_ rfl (.cons ?_ rfl trivial)))
    · intro _ _
      exact .inr ⟨0, ⟨1⟩, rfl, rfl⟩
    · intro artifact hartifact
      cases hartifact
      exact .inl rfl
  · refine State.finished_of_first rfl rfl fun call hcall => ?_
    simp [State.setSetCall, State.setReindexCall, State.new, hcall]

/-- The JDK is stored and updated while an index is built without it. -/
theorem replaced_jdk_lost : ¬ ∀ (env : Environment) (actions : List Action) (s : State),
    run (State.step env) .new actions = some s → s.Finished → s.JdkKept := by
  intro hall
  have hkept := hall plainEnvironment
    [.read 0, .store 0 ⟨1⟩, .update 0, .replace 0 (.indexFallbackRoot [])] _ rfl ?_
  · exact absurd hkept (by decide)
  · refine State.finished_of_first rfl rfl fun call hcall => ?_
    simp [State.setSetCall, State.setReindexCall, State.new, hcall]

end ActiveJdk
end JavaAnalyzer.Workspace
