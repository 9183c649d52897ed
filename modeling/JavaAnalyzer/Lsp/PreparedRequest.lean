import JavaAnalyzer.Library.Interleaving
import JavaAnalyzer.Workspace.WorkspaceModel

/-! # Preparing a request

`PreparedRequest::prepare` of `lsp/request_context.rs` loads the published state twice: first a snapshot,
from which it takes the analysis context, then the index again, from which it takes the view; in the end
it reads the version of the index of the snapshot. A view points to the live buckets of an index, so it
is the scope that the index builds; the overlay of the document's own classes is left out. Meanwhile the
published index is updated in place and replaced. Each published index has a number, and `history` keeps
every state that was published. -/

namespace JavaAnalyzer.Index
set_option autoImplicit false

/-! ## Calls that keep the layers of a scope -/

/-- The call changes no module that is there, and neither the dependency graph nor the JDK. -/
def Mutation.keepsLayers : Mutation → Bool
  | .ensureModule _ _ | .updateSource _ _ _ _ | .updateSourceInContext _ _ _ _ _ => true
  | .removeSourceOrigin _ _ | .removeSourceOriginInContext _ _ _ | .getOrIndexJar _ _ => true
  | _ => false

def WorkspaceIndex.Op.keepsLayers : WorkspaceIndex.Op → Bool
  | .mutate m => m.keepsLayers
  | _ => true

theorem WorkspaceCore.keeps_changeBucket (core : WorkspaceCore) (module : ModuleId)
    (sourceRoot : Option SourceRootId) (f : BucketIndex → BucketIndex × Bool) :
    Keeps core (core.changeBucket module sourceRoot f).1 := by
  have hgrown := (grown_ensureModule core module (defaultModuleName module)).keeps
  rw [changeBucket_eq core module sourceRoot f rfl]
  exact ⟨hgrown.modules, hgrown.graph, hgrown.jdk⟩

theorem WorkspaceCore.keeps_mutate (core : WorkspaceCore) {m : Mutation}
    (h : m.keepsLayers = true) : Keeps core (core.mutate m).1 := by
  cases m with
  | ensureModule id name => exact (grown_ensureModule core id name).keeps
  | updateSource module origin classes declarations => exact core.keeps_changeBucket module none _
  | updateSourceInContext module sourceRoot origin classes declarations =>
    exact core.keeps_changeBucket module sourceRoot _
  | removeSourceOrigin module origin => exact core.keeps_changeBucket module none _
  | removeSourceOriginInContext module sourceRoot origin =>
    exact core.keeps_changeBucket module sourceRoot _
  | getOrIndexJar path resolution => exact (grown_getOrIndexJar core path resolution).keeps
  | _ => cases h

namespace WorkspaceIndex

variable {index : WorkspaceIndex}

theorem Invariant.keeps_apply (h : index.Invariant) {op : Op} (hop : op.keepsLayers = true) :
    WorkspaceCore.Keeps index.core (index.apply op).core := by
  cases op with
  | mutate m =>
    rw [WorkspaceIndex.apply, mutate_core]
    exact index.core.keeps_mutate hop
  | scopeForAnalysisContext key =>
    rw [WorkspaceIndex.apply, (h.scope_spec key).2]
    exact (WorkspaceCore.grown_buildScopeSnapshot index.core key).keeps
  | clearAnalysisCaches => exact (WorkspaceCore.Grown.refl index.core).keeps

/-- The index builds the scope without creating a module. -/
def Builds (index : WorkspaceIndex) (key : AnalysisContextKey) (scope : ScopeSnapshot BucketPtr) :
    Prop :=
  index.core.buildScopeSnapshot key = (scope, index.core)

theorem Invariant.builds_scope (h : index.Invariant) (key : AnalysisContextKey) :
    (index.apply (.scopeForAnalysisContext key)).Builds key
      (index.scopeForAnalysisContext key).1 := by
  obtain ⟨hscope, hcore⟩ := h.scope_spec key
  rw [Builds, WorkspaceIndex.apply, hscope, hcore]
  exact WorkspaceCore.buildScopeSnapshot_of_grown (.refl _)

theorem Builds.apply {key : AnalysisContextKey} {scope : ScopeSnapshot BucketPtr}
    (hbuilds : index.Builds key scope) (h : index.Invariant) {op : Op}
    (hop : op.keepsLayers = true) : (index.apply op).Builds key scope := by
  have hkeeps := h.keeps_apply hop
  have hstart : WorkspaceCore.Keeps (index.core.buildScopeSnapshot key).2 (index.apply op).core := by
    rwa [hbuilds]
  have hsame := WorkspaceCore.buildScopeSnapshot_of_keeps hstart
  rwa [hbuilds] at hsame

theorem Builds.scope_eq {key : AnalysisContextKey} {scope : ScopeSnapshot BucketPtr}
    (hbuilds : index.Builds key scope) (h : index.Invariant) :
    (index.scopeForAnalysisContext key).1 = scope := by
  rw [(h.scope_spec key).1, hbuilds]

end WorkspaceIndex
end JavaAnalyzer.Index

namespace JavaAnalyzer.Lsp
open Index Workspace Interleaving

namespace PreparedRequest

/-- An index that is or was published, and the model beside it. -/
structure HandleState where
  index : WorkspaceIndex
  model : Option WorkspaceModelSnapshot

/-- A published state. -/
structure Published where
  number : ℕ
  state : HandleState

/-- The index a view was taken from and the pointers it keeps. -/
structure View where
  number : ℕ
  scope : ScopeSnapshot BucketPtr

/-- Where a call of `prepare` is. -/
inductive Prepare where
  | absent
  | analyzed (path : Option Path) (number : ℕ) (context : AnalysisContext)
  | viewed (path : Option Path) (number : ℕ) (context : AnalysisContext) (view : View)
  | prepared (path : Option Path) (context : AnalysisContext) (view : View)
      (workspaceVersion : UInt64)

structure State where
  handles : ℕ → HandleState
  /-- The number of the index that is published. -/
  current : ℕ
  requests : ℕ → Prepare
  history : List Published

inductive Action where
  | update (op : WorkspaceIndex.Op)
  | replace (ops : List WorkspaceIndex.Op) (model : Option WorkspaceModelSnapshot)
  | analyze (request : ℕ) (path : Option Path)
  | loadView (request : ℕ)
  | readVersion (request : ℕ)

namespace State

def start (ops : List WorkspaceIndex.Op) (model : Option WorkspaceModelSnapshot) : State :=
  ⟨fun _ => ⟨.run ops, model⟩, 0, fun _ => .absent, [⟨0, ⟨.run ops, model⟩⟩]⟩

variable (s : State)

def published : HandleState :=
  s.handles s.current

/-- A state is published. -/
def publish (number : ℕ) (state : HandleState) : State :=
  { s with
    handles := Function.update s.handles number state
    current := number
    history := ⟨number, state⟩ :: s.history }

def setRequest (request : ℕ) (phase : Prepare) : State :=
  { s with requests := Function.update s.requests request phase }

/-- `WorkspaceIndexHandle::update`, or a call on the loaded index. -/
def update (op : WorkspaceIndex.Op) : State :=
  s.publish s.current { s.published with index := s.published.index.apply op }

def replace (ops : List WorkspaceIndex.Op) (model : Option WorkspaceModelSnapshot) : State :=
  s.publish (s.current + 1) ⟨.run ops, model⟩

/-- `load_analysis_state_for_uri`. -/
def analyze (request : ℕ) (path : Option Path) : Option State :=
  match s.requests request with
  | .absent => some (s.setRequest request
      (.analyzed path s.current (resolveAnalysisContextForSnapshot s.published.model path)))
  | _ => none

/-- `get_index_view_for_context`. -/
def loadView (request : ℕ) : Option State :=
  match s.requests request with
  | .analyzed path number context =>
    some ((s.update (.scopeForAnalysisContext context.key)).setRequest request
      (.viewed path number context
        ⟨s.current, (s.published.index.scopeForAnalysisContext context.key).1⟩))
  | _ => none

/-- `index_snapshot.version()`. -/
def readVersion (request : ℕ) : Option State :=
  match s.requests request with
  | .viewed path number context view =>
    some (s.setRequest request (.prepared path context view (s.handles number).index.version))
  | _ => none

def step : Action → Option State
  | .update op => some (s.update op)
  | .replace ops model => some (s.replace ops model)
  | .analyze request path => s.analyze request path
  | .loadView request => s.loadView request
  | .readVersion request => s.readVersion request

/-! ## What is claimed of a state -/

/-- The context, the view and the version are those of one published state. -/
def ComesFrom (published : Published) (path : Option Path) (context : AnalysisContext) (view : View)
    (workspaceVersion : UInt64) : Prop :=
  context = resolveAnalysisContextForSnapshot published.state.model path ∧
    view = ⟨published.number,
      (published.state.index.scopeForAnalysisContext context.key).1⟩ ∧
      workspaceVersion = published.state.index.version

def Coherent : Prop :=
  ∀ request path context view workspaceVersion,
    s.requests request = .prepared path context view workspaceVersion →
      ∃ published ∈ s.history, ComesFrom published path context view workspaceVersion

/-- No request is between its two loads when the index is replaced, and none between the view and the
version when the published index gets other layers. -/
def KeepsPrepared : Action → Prop
  | .update op => op.keepsLayers = true ∨ ∀ request path context view,
      s.requests request ≠ .viewed path s.current context view
  | .replace _ _ => ∀ request path number context,
      s.requests request ≠ .analyzed path number context
  | _ => True

/-! ## The invariant -/

structure Invariant : Prop where
  indexes : ∀ number, (s.handles number).index.Invariant
  recorded : ∀ number, number ≤ s.current → ⟨number, s.handles number⟩ ∈ s.history
  analyzed : ∀ request path number context, s.requests request = .analyzed path number context →
    number = s.current ∧
      context = resolveAnalysisContextForSnapshot (s.handles number).model path
  viewed : ∀ request path number context view,
    s.requests request = .viewed path number context view → number ≤ s.current ∧
      context = resolveAnalysisContextForSnapshot (s.handles number).model path ∧
        view.number = number ∧ (s.handles number).index.Builds context.key view.scope
  coherent : s.Coherent

variable {s} {next : State}

theorem invariant_start (ops : List WorkspaceIndex.Op) (model : Option WorkspaceModelSnapshot) :
    (start ops model).Invariant where
  indexes _ := WorkspaceIndex.invariant_run ops
  recorded number hnumber := by
    rw [Nat.le_zero.mp hnumber]
    exact List.mem_singleton_self _
  analyzed _ _ _ _ h := by cases h
  viewed _ _ _ _ _ h := by cases h
  coherent _ _ _ _ _ h := by cases h

theorem Invariant.publish (h : s.Invariant) {number : ℕ} {state : HandleState}
    (hnumber : number = s.current ∨ number = s.current + 1) (hindex : state.index.Invariant)
    (hanalyzed : ∀ request path other context, s.requests request = .analyzed path other context →
      number = s.current ∧ context = resolveAnalysisContextForSnapshot state.model path)
    (hviewed : ∀ request path context view, s.requests request = .viewed path number context view →
      context = resolveAnalysisContextForSnapshot state.model path ∧
        state.index.Builds context.key view.scope) : (s.publish number state).Invariant := by
  refine ⟨?_, ?_, ?_, ?_, ?_⟩
  · intro other
    by_cases heq : other = number
    · simp [State.publish, heq, hindex]
    · simp [State.publish, heq, h.indexes other]
  · intro other hother
    by_cases heq : other = number
    · simp [State.publish, heq]
    · have hle : other ≤ s.current := by
        have hle' : other ≤ number := hother
        omega
      have hold := h.recorded other hle
      simp only [State.publish, Function.update_of_ne heq]
      exact List.mem_cons_of_mem _ hold
  · intro request path other context hrequest
    obtain ⟨hcurrent, hcontext⟩ := hanalyzed request path other context hrequest
    obtain ⟨hother, -⟩ := h.analyzed request path other context hrequest
    have heq : other = number := hother.trans hcurrent.symm
    simp only [State.publish, heq, Function.update_self]
    exact ⟨trivial, hcontext⟩
  · intro request path other context view hrequest
    obtain ⟨hle, hcontext, hview, hbuilds⟩ := h.viewed request path other context view hrequest
    have hle' : other ≤ number := by omega
    by_cases heq : other = number
    · subst heq
      obtain ⟨hcontext', hbuilds'⟩ := hviewed request path context view hrequest
      simp only [State.publish, Function.update_self]
      exact ⟨le_rfl, hcontext', hview, hbuilds'⟩
    · simp only [State.publish, Function.update_of_ne heq]
      exact ⟨hle', hcontext, hview, hbuilds⟩
  · intro request path context view workspaceVersion hrequest
    obtain ⟨published, hmem, hfrom⟩ := h.coherent request path context view workspaceVersion hrequest
    exact ⟨published, List.mem_cons_of_mem _ hmem, hfrom⟩

theorem Invariant.update (h : s.Invariant) {op : WorkspaceIndex.Op}
    (hcond : s.KeepsPrepared (.update op)) : (s.update op).Invariant := by
  refine h.publish (.inl rfl) ((h.indexes s.current).apply op) ?_ ?_
  · intro request path other context hrequest
    obtain ⟨hother, hcontext⟩ := h.analyzed request path other context hrequest
    rw [hother] at hcontext
    exact ⟨rfl, hcontext⟩
  · intro request path context view hrequest
    obtain ⟨-, hcontext, -, hbuilds⟩ := h.viewed request path s.current context view hrequest
    refine ⟨hcontext, ?_⟩
    obtain hop | hnone := hcond
    · exact hbuilds.apply (h.indexes s.current) hop
    · exact absurd hrequest (hnone request path context view)

theorem Invariant.replace (h : s.Invariant) {ops : List WorkspaceIndex.Op}
    {model : Option WorkspaceModelSnapshot} (hcond : s.KeepsPrepared (.replace ops model)) :
    (s.replace ops model).Invariant := by
  refine h.publish (.inr rfl) (WorkspaceIndex.invariant_run ops) ?_ ?_
  · intro request path other context hrequest
    exact absurd hrequest (hcond request path other context)
  · intro request path context view hrequest
    obtain ⟨hle, -⟩ := h.viewed request path _ context view hrequest
    exact absurd hle (by omega)

theorem Invariant.setRequest (h : s.Invariant) {request : ℕ} {phase : Prepare}
    (hanalyzed : ∀ path number context, phase = .analyzed path number context →
      number = s.current ∧ context = resolveAnalysisContextForSnapshot (s.handles number).model path)
    (hviewed : ∀ path number context view, phase = .viewed path number context view →
      number ≤ s.current ∧ context = resolveAnalysisContextForSnapshot (s.handles number).model path ∧
        view.number = number ∧ (s.handles number).index.Builds context.key view.scope)
    (hprepared : ∀ path context view workspaceVersion,
      phase = .prepared path context view workspaceVersion →
        ∃ published ∈ s.history, ComesFrom published path context view workspaceVersion) :
    (s.setRequest request phase).Invariant := by
  refine ⟨h.indexes, h.recorded, ?_, ?_, ?_⟩
  · intro other path number context hother
    by_cases heq : other = request
    · subst heq
      exact hanalyzed path number context (by simpa [State.setRequest] using hother)
    · exact h.analyzed other path number context (by simpa [State.setRequest, heq] using hother)
  · intro other path number context view hother
    by_cases heq : other = request
    · subst heq
      exact hviewed path number context view (by simpa [State.setRequest] using hother)
    · exact h.viewed other path number context view (by simpa [State.setRequest, heq] using hother)
  · intro other path context view workspaceVersion hother
    by_cases heq : other = request
    · subst heq
      exact hprepared path context view workspaceVersion (by simpa [State.setRequest] using hother)
    · exact h.coherent other path context view workspaceVersion
        (by simpa [State.setRequest, heq] using hother)

theorem Invariant.loadView (h : s.Invariant) {request : ℕ} (hnext : s.loadView request = some next) :
    next.Invariant := by
  unfold State.loadView at hnext
  split at hnext
  · rename_i path number context hrequest
    cases hnext
    obtain ⟨hnumber, hcontext⟩ := h.analyzed request path number context hrequest
    have hupdate : (s.update (.scopeForAnalysisContext context.key)).Invariant := h.update (.inl rfl)
    refine hupdate.setRequest (fun _ _ _ hphase => by cases hphase) ?_
      (fun _ _ _ _ hphase => by cases hphase)
    intro path' number' context' view hphase
    cases hphase
    subst hnumber
    have hhandle : (s.update (.scopeForAnalysisContext context.key)).handles s.current =
        { s.published with index := s.published.index.apply (.scopeForAnalysisContext context.key) } :=
      Function.update_self ..
    rw [hhandle]
    exact ⟨le_rfl, hcontext, rfl, (h.indexes s.current).builds_scope context.key⟩
  · cases hnext

theorem Invariant.readVersion (h : s.Invariant) {request : ℕ}
    (hnext : s.readVersion request = some next) : next.Invariant := by
  unfold State.readVersion at hnext
  split at hnext
  · rename_i path number context view hrequest
    cases hnext
    obtain ⟨hle, hcontext, hview, hbuilds⟩ := h.viewed request path number context view hrequest
    refine h.setRequest (fun _ _ _ hphase => by cases hphase) (fun _ _ _ _ hphase => by cases hphase) ?_
    intro path' context' view' workspaceVersion hphase
    cases hphase
    refine ⟨⟨number, s.handles number⟩, h.recorded number hle, hcontext, ?_, rfl⟩
    rw [hbuilds.scope_eq (h.indexes number), ← hview]
  · cases hnext

theorem Invariant.step (h : s.Invariant) {a : Action} (hnext : s.step a = some next)
    (hcond : s.KeepsPrepared a) : next.Invariant := by
  cases a with
  | update op =>
    cases hnext
    exact h.update hcond
  | replace ops model =>
    cases hnext
    exact h.replace hcond
  | analyze request path =>
    simp only [State.step, State.analyze] at hnext
    split at hnext
    · cases hnext
      refine h.setRequest ?_ (fun _ _ _ _ hphase => by cases hphase)
        (fun _ _ _ _ hphase => by cases hphase)
      intro path' number context hphase
      cases hphase
      exact ⟨rfl, rfl⟩
    · cases hnext
  | loadView request => exact h.loadView hnext
  | readVersion request => exact h.readVersion hnext

end State

/-! ## Every run -/

/-- Prepared requests are coherent in every run in which no replacement falls between the two loads of a
request and no change of the layers between its view and its version. -/
theorem prepared_coherent (ops : List WorkspaceIndex.Op) (model : Option WorkspaceModelSnapshot)
    (actions : List Action) (s : State) (hrun : run State.step (.start ops model) actions = some s)
    (hmeets : Meets State.step State.KeepsPrepared (.start ops model) actions) : s.Coherent :=
  (invariant_of_meets (fun _ _ _ hnext hcond h => State.Invariant.step h hnext hcond) actions
    (.start ops model) s hrun hmeets (State.invariant_start ops model)).coherent

/-- The model is imported before the request, and a class is published while it is prepared. -/
def preparedAfterImport : List Action :=
  [.replace [] (some rootModel), .analyze 0 (some []),
    .update WorkspaceIndexHandle.publishMain, .loadView 0, .update WorkspaceIndexHandle.publishMain,
    .readVersion 0]

theorem prepared_after_import : ∃ s, run State.step (.start [] none) preparedAfterImport = some s ∧
    s.Coherent := by
  refine ⟨_, rfl, prepared_coherent [] none preparedAfterImport _ rfl ?_⟩
  refine .cons ?_ rfl (.cons trivial rfl (.cons (.inl rfl) rfl (.cons trivial rfl
    (.cons (.inl rfl) rfl (.cons trivial rfl trivial)))))
  intro request path number context hrequest
  cases hrequest

/-- The model is imported between the two loads of a request. -/
theorem imported_between_loads : ¬ ∀ (ops : List WorkspaceIndex.Op)
    (model : Option WorkspaceModelSnapshot) (actions : List Action) (s : State),
    run State.step (.start ops model) actions = some s → s.Coherent := by
  intro hall
  obtain ⟨published, hmem, hcontext, hview, -⟩ := hall [] none
    [.analyze 0 (some []), .replace [] (some rootModel), .loadView 0, .readVersion 0] _ rfl 0
    (some []) .fallback _ _ rfl
  -- Only the states of the new index have the view, and their model selects the module.
  have hmodel : published.state.model ≠ some rootModel := by
    intro hmodel
    rw [hmodel] at hcontext
    exact absurd hcontext (by decide)
  obtain heq | hmem := List.mem_cons.mp hmem
  · exact hmodel (by rw [heq]; rfl)
  · obtain heq | hmem := List.mem_cons.mp hmem
    · exact hmodel (by rw [heq])
    · rw [List.mem_singleton.mp hmem] at hview
      exact absurd (congrArg View.number hview) (by decide)

end PreparedRequest
end JavaAnalyzer.Lsp
