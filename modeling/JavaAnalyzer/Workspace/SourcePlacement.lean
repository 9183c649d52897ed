import JavaAnalyzer.Library.Interleaving
import JavaAnalyzer.Index.SourceBuckets
import JavaAnalyzer.Workspace.WorkspaceModel

/-! # Where a source file is published

An upsert takes a snapshot of the index and its model, finds the place of the file by the model, and
extracts the classes; then it writes them to the index that is published by then. A removal does the
same without classes. Meanwhile a reindex may replace the index and the model. -/

namespace JavaAnalyzer.Workspace
set_option autoImplicit false
open Index Interleaving

/-- The module and the source root that a model selects for a file. -/
def selectPlace (env : Environment) (model : Option WorkspaceModelSnapshot) (uri : String) :
    ModuleId × Option SourceRootId :=
  let context := resolveAnalysisContextForSnapshot model (env.toFilePath uri)
  (context.module, context.sourceRoot)

/-! ## The index of a reindex -/

/-- The call sets up a module or the JDK. -/
def setsUp : Mutation → Bool
  | .ensureModule _ _ | .registerModuleSourceRoots _ _ _ | .setModuleClasspath _ _ _ _ => true
  | .setModuleDependencies _ _ | .setJdkArtifact _ => true
  | _ => false

theorem blank_mutate {index : WorkspaceIndex} (hblank : index.core.Blank) (h : index.Invariant)
    {m : Mutation} (hm : setsUp m = true) : (index.mutate m).1.core.Blank := by
  obtain ⟨roles, hplaced⟩ := h.placed
  rw [WorkspaceIndex.mutate_core]
  cases m with
  | ensureModule id name =>
    exact hblank.of_grown hplaced (WorkspaceCore.grown_ensureModule index.core id name)
  | registerModuleSourceRoots module roots hasher =>
    exact hblank.registerModuleSourceRoots hplaced module roots hasher
  | setModuleClasspath module classpathId jarPaths resolve =>
    exact hblank.setModuleClasspath hplaced module classpathId jarPaths resolve
  | setModuleDependencies module deps => exact hblank
  | setJdkArtifact artifactId => exact hblank
  | _ => cases hm

theorem blank_foldl {index : WorkspaceIndex} (hblank : index.core.Blank) (h : index.Invariant)
    {mutations : List Mutation} (hsetsUp : ∀ m ∈ mutations, setsUp m = true) :
    ((mutations.map WorkspaceIndex.Op.mutate).foldl WorkspaceIndex.apply index).core.Blank := by
  induction mutations generalizing index with
  | nil => exact hblank
  | cons m mutations ih =>
    exact ih (blank_mutate hblank h (hsetsUp m (List.mem_cons_self ..))) (h.mutate m)
      fun m' hm' => hsetsUp m' (List.mem_cons_of_mem _ hm')

theorem blank_new : WorkspaceIndex.new.core.Blank := by
  intro p hp
  obtain ⟨id, m, sourceRoot, hm, rfl⟩ := hp
  by_cases hid : id = .root
  · subst hid
    obtain rfl := Option.some.inj ((AList.lookup_insert _).symm.trans hm)
    cases sourceRoot <;> rfl
  · have hnone := (AList.lookup_insert_ne hid).symm.trans hm
    cases hnone

/-- The call looks at the index, or writes the classes of a file to the place that is selected. -/
def PutsInPlace (select : String → ModuleId × Option SourceRootId) : WorkspaceIndex.Op → Prop
  | .scopeForAnalysisContext _ => True
  | .mutate (.updateSourceInContext module sourceRoot origin classes _) =>
    ∃ uri, origin = .sourceFile uri ∧ (∀ c ∈ classes, c.origin = .sourceFile uri) ∧
      select uri = (module, sourceRoot)
  | .mutate (.updateSource module origin classes _) =>
    ∃ uri, origin = .sourceFile uri ∧ (∀ c ∈ classes, c.origin = .sourceFile uri) ∧
      select uri = (module, none)
  | _ => False

theorem putsInPlace_update {select : String → ModuleId × Option SourceRootId} {unit : SourceUnit}
    {module : ModuleId} {sourceRoot : Option SourceRootId}
    (hselect : select unit.uri = (module, sourceRoot)) :
    PutsInPlace select (.mutate (unit.update module sourceRoot)) :=
  ⟨unit.uri, rfl, unit.origin_eq, hselect⟩

theorem onlySelected_scope {select : String → ModuleId × Option SourceRootId}
    {index : WorkspaceIndex} (honly : index.core.OnlySelected select) (h : index.Invariant)
    (key : AnalysisContextKey) :
    (index.apply (.scopeForAnalysisContext key)).core.OnlySelected select := by
  obtain ⟨roles, hplaced⟩ := h.placed
  rw [WorkspaceIndex.apply, (h.scope_spec key).2]
  exact honly.of_grown hplaced (WorkspaceCore.grown_buildScopeSnapshot index.core key)

theorem onlySelected_apply {select : String → ModuleId × Option SourceRootId}
    {index : WorkspaceIndex} (honly : index.core.OnlySelected select) (h : index.Invariant)
    {op : WorkspaceIndex.Op} (hop : PutsInPlace select op) :
    (index.apply op).core.OnlySelected select := by
  obtain ⟨roles, hplaced⟩ := h.placed
  cases op with
  | scopeForAnalysisContext key => exact onlySelected_scope honly h key
  | clearAnalysisCaches => exact hop.elim
  | mutate m =>
    rw [WorkspaceIndex.apply, WorkspaceIndex.mutate_core]
    cases m with
    | updateSourceInContext module sourceRoot origin classes declarations =>
      obtain ⟨uri, rfl, hclasses, hselect⟩ := hop
      exact honly.updateSource hplaced hclasses hselect declarations
    | updateSource module origin classes declarations =>
      obtain ⟨uri, rfl, hclasses, hselect⟩ := hop
      exact honly.updateSource hplaced hclasses hselect declarations
    | _ => exact hop.elim

theorem onlySelected_foldl {select : String → ModuleId × Option SourceRootId}
    {index : WorkspaceIndex} (honly : index.core.OnlySelected select) (h : index.Invariant)
    {ops : List WorkspaceIndex.Op} (hops : ∀ op ∈ ops, PutsInPlace select op) :
    (ops.foldl WorkspaceIndex.apply index).core.OnlySelected select := by
  induction ops generalizing index with
  | nil => exact honly
  | cons op ops ih =>
    exact ih (onlySelected_apply honly h (hops op (List.mem_cons_self ..))) (h.apply op)
      fun op' hop' => hops op' (List.mem_cons_of_mem _ hop')

/-- Every file that was scanned below a source root belongs to that root. -/
def Reindex.RootsSelected (env : Environment) : Reindex → Prop
  | applyWorkspaceModel snapshot indexedRoots _ => ∀ indexed ∈ indexedRoots,
      ∀ unit ∈ indexed.units,
        selectPlace env (some snapshot) unit.uri = (indexed.module, some indexed.root)
  | indexFallbackRoot _ => True

/-- The calls of a reindex first set up the modules, then put the files in their places. -/
theorem Reindex.calls_split (env : Environment) (reindex : Reindex)
    (hroots : reindex.RootsSelected env) : ∃ (mutations : List Mutation)
      (ops : List WorkspaceIndex.Op), reindex.calls env = mutations.map .mutate ++ ops ∧
        (∀ m ∈ mutations, setsUp m = true) ∧
          ∀ op ∈ ops, PutsInPlace (selectPlace env reindex.model) op := by
  cases reindex with
  | applyWorkspaceModel snapshot indexedRoots openDocs =>
    refine ⟨snapshot.modules.flatMap (publishModule env), _, by rw [calls, List.append_assoc], ?_, ?_⟩
    · intro m hm
      obtain ⟨module, -, hm⟩ := List.mem_flatMap.mp hm
      simp only [publishModule, List.mem_cons, List.not_mem_nil, or_false] at hm
      obtain rfl | rfl | rfl | rfl | rfl := hm <;> rfl
    · intro op hop
      obtain hroot | hdoc := List.mem_append.mp hop
      · obtain ⟨m, hm, rfl⟩ := List.mem_map.mp hroot
        obtain ⟨indexed, hindexed, hm⟩ := List.mem_flatMap.mp hm
        obtain ⟨unit, hunit, rfl⟩ := List.mem_map.mp hm
        exact putsInPlace_update (hroots indexed hindexed unit hunit)
      · obtain ⟨unit, -, hop⟩ := List.mem_flatMap.mp hdoc
        simp only [publishOpenDoc, List.mem_cons, List.not_mem_nil, or_false] at hop
        obtain rfl | rfl := hop
        · trivial
        · exact putsInPlace_update rfl
  | indexFallbackRoot units =>
    refine ⟨[], _, rfl, fun m hm => (by cases hm), ?_⟩
    intro op hop
    obtain ⟨unit, -, rfl⟩ := List.mem_map.mp hop
    refine ⟨unit.uri, rfl, unit.origin_eq, ?_⟩
    simp only [selectPlace, model, resolveAnalysisContextForSnapshot]
    cases env.toFilePath unit.uri <;> rfl

theorem Reindex.build_onlySelected (env : Environment) (reindex : Reindex)
    (activeJdk : Option ArtifactId) (hroots : reindex.RootsSelected env) :
    (reindex.build env activeJdk).core.OnlySelected (selectPlace env reindex.model) := by
  obtain ⟨mutations, ops, hcalls, hsetsUp, hops⟩ := reindex.calls_split env hroots
  have hbuild : reindex.build env activeJdk = ops.foldl WorkspaceIndex.apply
      (((activeJdk.toList.map Mutation.setJdkArtifact ++ mutations).map
        WorkspaceIndex.Op.mutate).foldl WorkspaceIndex.apply .new) := by
    rw [build, hcalls, WorkspaceIndex.run, ← List.append_assoc, List.foldl_append, List.map_append,
      List.map_map]
    rfl
  rw [hbuild]
  refine onlySelected_foldl ((blank_foldl blank_new WorkspaceIndex.invariant_new ?_).onlySelected _)
    (WorkspaceIndex.invariant_new.foldl_apply _) hops
  intro m hm
  obtain hjdk | hm := List.mem_append.mp hm
  · obtain ⟨id, -, rfl⟩ := List.mem_map.mp hjdk
    rfl
  · exact hsetsUp m hm

/-! ## The calls and their steps -/

namespace SourcePlacement

/-- A call that writes one file, from its snapshot on. -/
inductive Upsert where
  | absent
  | indexed (unit : SourceUnit) (context : AnalysisContext)
  | finished

inductive Removal where
  | absent
  | resolved (uri : String) (context : AnalysisContext)
  | finished

inductive Rebuild where
  | absent
  | running
  | finished

structure State where
  index : WorkspaceIndex
  model : Option WorkspaceModelSnapshot
  upserts : ℕ → Upsert
  removals : ℕ → Removal
  rebuilds : ℕ → Rebuild

inductive Action where
  | indexFile (call : ℕ) (unit : SourceUnit)
  | upsert (call : ℕ)
  | resolve (call : ℕ) (uri : String)
  | remove (call : ℕ)
  | beginRebuild (call : ℕ)
  | replace (call : ℕ) (reindex : Reindex) (activeJdk : Option ArtifactId)

namespace State

def new : State :=
  ⟨.new, none, fun _ => .absent, fun _ => .absent, fun _ => .absent⟩

variable (env : Environment) (s : State)

/-- The snapshot, the context that its model gives, and the extraction, which looks at the index. -/
def indexFile (call : ℕ) (unit : SourceUnit) : Option State :=
  match s.upserts call with
  | .absent =>
    let context := resolveAnalysisContextForSnapshot s.model (env.toFilePath unit.uri)
    some { s with
      index := s.index.apply (.scopeForAnalysisContext context.key)
      upserts := Function.update s.upserts call (.indexed unit context) }
  | _ => none

def upsert (call : ℕ) : Option State :=
  match s.upserts call with
  | .indexed unit context => some { s with
      index := (s.index.mutate (unit.update context.module context.sourceRoot)).1
      upserts := Function.update s.upserts call .finished }
  | _ => none

def resolve (call : ℕ) (uri : String) : Option State :=
  match s.removals call with
  | .absent => some { s with
      removals := Function.update s.removals call
        (.resolved uri (resolveAnalysisContextForSnapshot s.model (env.toFilePath uri))) }
  | _ => none

def remove (call : ℕ) : Option State :=
  match s.removals call with
  | .resolved uri context => some { s with
      index := (s.index.mutate (.removeSourceOriginInContext context.module context.sourceRoot
        (.sourceFile uri))).1
      removals := Function.update s.removals call .finished }
  | _ => none

def beginRebuild (call : ℕ) : Option State :=
  match s.rebuilds call with
  | .absent => some { s with rebuilds := Function.update s.rebuilds call .running }
  | _ => none

def replace (call : ℕ) (reindex : Reindex) (activeJdk : Option ArtifactId) : Option State :=
  match s.rebuilds call with
  | .running => some { s with
      index := reindex.build env activeJdk
      model := reindex.model
      rebuilds := Function.update s.rebuilds call .finished }
  | _ => none

def step : Action → Option State
  | .indexFile call unit => s.indexFile env call unit
  | .upsert call => s.upsert call
  | .resolve call uri => s.resolve env call uri
  | .remove call => s.remove call
  | .beginRebuild call => s.beginRebuild call
  | .replace call reindex activeJdk => s.replace env call reindex activeJdk

/-- Every call that has started is through. -/
structure Finished : Prop where
  upserts : ∀ call unit context, s.upserts call ≠ .indexed unit context
  removals : ∀ call uri context, s.removals call ≠ .resolved uri context
  rebuilds : ∀ call, s.rebuilds call ≠ .running

/-- The classes of every file are found only where the published model selects the file. -/
def OnePlace : Prop :=
  s.index.core.OnlySelected (selectPlace env s.model)

/-- A file is written only to the place that the published model selects, and a reindex finds every
file only below the source root that its model selects. -/
def WritesInPlace : Action → Prop
  | .upsert call => ∀ unit context, s.upserts call = .indexed unit context →
      selectPlace env s.model unit.uri = (context.module, context.sourceRoot)
  | .replace _ reindex _ => reindex.RootsSelected env
  | _ => True

/-! ## The invariant -/

structure Invariant : Prop where
  index : s.index.Invariant
  onePlace : s.OnePlace env

variable {env} {s} {next : State}

theorem invariant_new : State.new.Invariant env :=
  ⟨WorkspaceIndex.invariant_new, blank_new.onlySelected _⟩

theorem Invariant.step (h : s.Invariant env) {a : Action} (hnext : s.step env a = some next)
    (hcond : s.WritesInPlace env a) : next.Invariant env := by
  cases a with
  | indexFile call unit =>
    simp only [State.step, State.indexFile] at hnext
    split at hnext
    · cases hnext
      exact ⟨h.index.apply (.scopeForAnalysisContext _), onlySelected_scope h.onePlace h.index _⟩
    · cases hnext
  | upsert call =>
    simp only [State.step, State.upsert] at hnext
    split at hnext
    · rename_i unit context hcall
      cases hnext
      exact ⟨h.index.mutate (unit.update context.module context.sourceRoot),
        onlySelected_apply h.onePlace h.index (putsInPlace_update (hcond unit context hcall))⟩
    · cases hnext
  | resolve call uri =>
    simp only [State.step, State.resolve] at hnext
    split at hnext
    · cases hnext
      exact ⟨h.index, h.onePlace⟩
    · cases hnext
  | remove call =>
    simp only [State.step, State.remove] at hnext
    split at hnext
    · rename_i uri context hcall
      cases hnext
      obtain ⟨roles, hplaced⟩ := h.index.placed
      refine ⟨h.index.mutate (.removeSourceOriginInContext context.module context.sourceRoot
        (.sourceFile uri)), ?_⟩
      rw [OnePlace, WorkspaceIndex.mutate_core]
      exact h.onePlace.removeSourceOrigin hplaced context.module context.sourceRoot (.sourceFile uri)
    · cases hnext
  | beginRebuild call =>
    simp only [State.step, State.beginRebuild] at hnext
    split at hnext
    · cases hnext
      exact ⟨h.index, h.onePlace⟩
    · cases hnext
  | replace call reindex activeJdk =>
    simp only [State.step, State.replace] at hnext
    split at hnext
    · cases hnext
      exact ⟨WorkspaceIndex.invariant_run _, reindex.build_onlySelected env activeJdk hcond⟩
    · cases hnext

end State

/-! ## Every run -/

/-- In every run that writes files only where the published model selects them, the classes of every
file are in one place. -/
theorem classes_in_one_place (env : Environment) (actions : List Action) (s : State)
    (hrun : run (State.step env) .new actions = some s)
    (hmeets : Meets (State.step env) (State.WritesInPlace env) .new actions) : s.OnePlace env :=
  (invariant_of_meets (fun _ _ _ hnext hcond h => State.Invariant.step h hnext hcond) actions
    .new s hrun hmeets State.invariant_new).onePlace

/-- Every file is at the root of the file system. -/
def rootEnvironment : Environment :=
  ⟨fun _ => some [], fun _ => .failed, .insertion⟩

def mainUnit : SourceUnit :=
  ⟨"file:///Main.java", [WorkspaceIndex.mainClass], none, fun c hc => by
    rw [List.mem_singleton.mp hc]
    rfl⟩

/-- The model is imported, then the file is saved. -/
def savedAfterImport : List Action :=
  [.beginRebuild 0, .replace 0 (.applyWorkspaceModel rootModel [] []) none, .indexFile 0 mainUnit,
    .upsert 0]

theorem saved_after_import : ∃ s, run (State.step rootEnvironment) .new savedAfterImport = some s ∧
    s.OnePlace rootEnvironment := by
  refine ⟨_, rfl, classes_in_one_place rootEnvironment savedAfterImport _ rfl ?_⟩
  refine .cons trivial rfl (.cons ?_ rfl (.cons trivial rfl (.cons ?_ rfl trivial)))
  · intro indexed hindexed
    cases hindexed
  · intro unit context hcall
    cases hcall
    rfl

/-- The file is indexed for the root module, and written after the model was imported. -/
def savedDuringImport : List Action :=
  [.indexFile 0 mainUnit, .beginRebuild 0, .replace 0 (.applyWorkspaceModel rootModel [] []) none,
    .upsert 0]

theorem saved_during_import : ¬ ∀ (env : Environment) (actions : List Action) (s : State),
    run (State.step env) .new actions = some s → s.Finished → s.OnePlace env := by
  intro hall
  have hplace := hall rootEnvironment savedDuringImport _ rfl ?_ "file:///Main.java" 0
    ⟨.root, _, none, rfl, rfl⟩ ⟨WorkspaceIndex.mainClass, by decide, rfl⟩
  · exact absurd hplace (by decide)
  · refine ⟨fun call unit context hcall => ?_, fun _ _ _ hcall => (by cases hcall), fun call hcall => ?_⟩
    · by_cases hzero : call = 0
      · subst hzero
        cases hcall
      · simp [State.new, hzero] at hcall
    · by_cases hzero : call = 0
      · subst hzero
        cases hcall
      · simp [State.new, hzero] at hcall

end SourcePlacement
end JavaAnalyzer.Workspace
