import JavaAnalyzer.Index.ViewLayers
import JavaAnalyzer.Index.WorkspaceInvariant

/-! # Publishing source into its own context

`update_source_in_context` writes to the bucket of the source root if the root is registered, and to
the bucket of the module if it is not. A context reads the registered root first; without one it reads
the roots of its classpath, and the bucket of the module only when there are none. The two agree when
the root is registered or no root is visible (`publish_shown_iff`). -/

namespace JavaAnalyzer.Index
set_option autoImplicit false

/-! ## The first layer -/

namespace IndexView

/-- The layers after the first one. -/
def behind (view : IndexView) : IndexView :=
  { view with scope := { view.scope with layers := view.scope.layers.tail } }

theorem firstBest_cons_iff {c : ClassMetadata} {l : List ClassMetadata} :
    FirstBest (c :: l) c ↔ ∀ d ∈ l, d.originPrecedence ≤ c.originPrecedence := by
  constructor
  · rintro ⟨pre, post, heq, hpre, hpost⟩
    cases pre with
    | nil =>
      obtain rfl := (List.cons.inj heq).2
      exact hpost
    | cons d pre =>
      obtain rfl := (List.cons.inj heq).1
      exact absurd (hpre c (List.mem_cons_self ..)) (lt_irrefl _)
  · intro h
    exact ⟨[], l, rfl, fun d hd => absurd hd List.not_mem_nil, h⟩

theorem getClass_congr {view view' : IndexView} (hlayers : view.scope.layers = view'.scope.layers)
    (hreaders : view.artifactReaders = view'.artifactReaders) (n : String) :
    view.getClass n = view'.getClass n := by
  obtain ⟨⟨key, layers, jarPaths⟩, readers⟩ := view
  obtain ⟨⟨key', layers', jarPaths'⟩, readers'⟩ := view'
  obtain rfl : layers = layers' := hlayers
  obtain rfl : readers = readers' := hreaders
  rw [getClass_eq_argmax, getClass_eq_argmax]
  rfl

/-- What the first layer has is answered unless a layer behind it has the name with a higher rank. -/
theorem getClass_of_first {view : IndexView} {b : BucketIndex} {rest : List (ScopeLayer BucketIndex)}
    (hlayers : view.scope.layers = .overlay b :: rest) {n : String} {c : ClassMetadata}
    (hc : b.getClass n = some c) :
    view.getClass n = some c ↔
      ∀ e, view.behind.getClass n = some e → e.originPrecedence ≤ c.originPrecedence := by
  have hname := BucketIndex.getClass_internalName hc
  have hheld : view.heldNamed n = c :: view.behind.heldNamed n := by
    have hfirst : view.layerGetClass n (.overlay b) = some c := by
      simp [layerGetClass, layerGetClassRef, resolveClassRef, overlayRef, hc, hname]
    simp only [heldNamed, layers, hlayers, behind, List.tail_cons, List.filterMap_cons, hfirst]
    rfl
  rw [getClass_iff_firstBest, hheld, firstBest_cons_iff]
  constructor
  · intro h e he
    exact h e (getClass_iff_firstBest.mp he).mem
  · intro h d hd
    obtain ⟨e, he⟩ := RankedMerge.exists_argmax_of_mem ClassMetadata.originPrecedence hd
    exact (List.le_of_mem_argmax hd he).trans (h e (by rw [getClass_eq_argmax, he]))

end IndexView

/-! ## Writing through one pointer -/

namespace WorkspaceCore

variable {core : WorkspaceCore} {roles : List BucketRole}

def setBucket (core : WorkspaceCore) (p : BucketPtr) (bucket : BucketIndex) : WorkspaceCore :=
  { core with buckets := core.buckets.set p bucket }

theorem deref_setBucket_self {p : BucketPtr} (hp : p < core.buckets.length) (bucket : BucketIndex) :
    (core.setBucket p bucket).deref p = bucket := by
  simp [deref, setBucket, hp]

theorem deref_setBucket_ne {p p' : BucketPtr} (hne : p' ≠ p) (bucket : BucketIndex) :
    (core.setBucket p bucket).deref p' = core.deref p' := by
  simp [deref, setBucket, List.getElem?_set_ne hne.symm]

theorem map_deref_setBucket {p : BucketPtr} {layers : List (ScopeLayer BucketPtr)}
    (hne : ∀ p', .overlay p' ∈ layers → p' ≠ p) (bucket : BucketIndex) :
    layers.map (ScopeLayer.map (core.setBucket p bucket).deref) =
      layers.map (ScopeLayer.map core.deref) := by
  refine List.map_congr_left fun layer hlayer => ?_
  cases layer with
  | overlay p' => exact congrArg ScopeLayer.overlay (deref_setBucket_ne (hne p' hlayer) bucket)
  | artifact id => rfl

/-- The places of a module. -/
def OfModule (id : ModuleId) (r : BucketRole) : Prop :=
  r = .source id ∨ ∃ root, r = .root id root

theorem placed_bucketForRoot {id : ModuleId} {m : ModuleIndex} (hm : m.Placed roles id)
    (sourceRoot : Option SourceRootId) :
    ∃ r, roles[m.bucketForRoot sourceRoot]? = some r ∧ OfModule id r := by
  unfold ModuleIndex.bucketForRoot
  cases hroot : m.registeredRoot sourceRoot with
  | none => exact ⟨_, hm.source, .inl rfl⟩
  | some root =>
    obtain ⟨r, -, hr⟩ := Option.bind_eq_some_iff.mp hroot
    exact ⟨_, hm.roots r root hr, .inr ⟨r, rfl⟩⟩

theorem WellPlaced.shownLayers_setBucket_ne (h : core.WellPlaced roles) {id id' : ModuleId}
    (hid : id' ≠ id) {p : BucketPtr} {r : BucketRole} (hp : roles[p]? = some r)
    (hr : OfModule id r) (bucket : BucketIndex) (classpathId : ClasspathId)
    (sourceRoot : Option SourceRootId) :
    (core.setBucket p bucket).shownLayers id' classpathId sourceRoot =
      core.shownLayers id' classpathId sourceRoot := by
  rcases Option.eq_none_or_eq_some (core.modules.lookup id') with hm | ⟨m, hm⟩
  · have hm' : (core.setBucket p bucket).modules.lookup id' = none := hm
    simp only [shownLayers, hm, hm']
  · have hm' : (core.setBucket p bucket).modules.lookup id' = some m := hm
    rw [shownLayers_of_lookup hm, shownLayers_of_lookup hm']
    refine map_deref_setBucket ?_ bucket
    rintro p' hp' rfl
    rcases placed_scopeLayers (h.modules id' m hm) hp' with hr' | ⟨root, hr'⟩ | hr'
    · obtain rfl := Option.some.inj (hr'.symm.trans hp)
      simp [OfModule, hid] at hr
    · obtain rfl := Option.some.inj (hr'.symm.trans hp)
      simp [OfModule, hid] at hr
    · obtain rfl := Option.some.inj (hr'.symm.trans hp)
      simp [OfModule] at hr

theorem WellPlaced.shownJdk_setBucket (h : core.WellPlaced roles) {id : ModuleId} {p : BucketPtr}
    {r : BucketRole} (hp : roles[p]? = some r) (hr : OfModule id r) (bucket : BucketIndex) :
    (core.setBucket p bucket).shownJdk = core.shownJdk := by
  refine map_deref_setBucket ?_ bucket
  rintro p' hp' rfl
  obtain rfl := Option.some.inj ((h.lt_of_mem_jdkLayers hp').2.symm.trans hp)
  simp [OfModule] at hr

theorem WellPlaced.shownDependencies_setBucket (h : core.WellPlaced roles) {id : ModuleId}
    {p : BucketPtr} {r : BucketRole} (hp : roles[p]? = some r) (hr : OfModule id r)
    (bucket : BucketIndex) :
    (core.setBucket p bucket).shownDependencies id = core.shownDependencies id := by
  refine List.flatMap_congr fun dep hdep => ?_
  have hne : dep ≠ id := by
    rintro rfl
    exact (core.graph.dependencyOrder_nodup dep).2 hdep
  exact h.shownLayers_setBucket_ne hne hp hr bucket .main none

end WorkspaceCore

/-! ## Where a context reads -/

namespace ModuleIndex

/-- The context reads the bucket that publications for the root go to. -/
def ReadsTarget (m : ModuleIndex) (classpathId : ClasspathId) (sourceRoot : Option SourceRootId) :
    Prop :=
  (m.registeredRoot sourceRoot).isSome ∨ ¬ m.ShowsRoot classpathId

variable {m : ModuleIndex} {roles : List BucketRole} {id : ModuleId} {classpathId : ClasspathId}
  {sourceRoot : Option SourceRootId}

theorem ne_bucketForRoot_of_entry (hm : m.Placed roles id) {p : BucketPtr}
    (hp : .overlay p ∈ (m.classpathEntries classpathId).map ClasspathEntry.toLayer) :
    p ≠ m.bucketForRoot sourceRoot := by
  rintro rfl
  obtain ⟨e, he, heq⟩ := List.mem_map.mp hp
  have hplaced := hm.entries classpathId e he
  obtain ⟨r, hr, hof⟩ := WorkspaceCore.placed_bucketForRoot hm sourceRoot
  cases e with
  | artifact id => cases heq
  | overlay p' =>
    obtain rfl := ScopeLayer.overlay.inj heq
    obtain rfl := Option.some.inj (hplaced.symm.trans hr)
    simp [WorkspaceCore.OfModule] at hof

/-- The bucket of the publication is the first layer, and no other. -/
theorem ReadsTarget.scopeLayers (hreads : m.ReadsTarget classpathId sourceRoot)
    (hm : m.Placed roles id) :
    ∃ rest, m.scopeLayers classpathId sourceRoot = .overlay (m.bucketForRoot sourceRoot) :: rest ∧
      ∀ p, .overlay p ∈ rest → p ≠ m.bucketForRoot sourceRoot := by
  cases hroot : m.registeredRoot sourceRoot with
  | none =>
    have hnone : ¬ m.ShowsRoot classpathId := hreads.resolve_left (by simp [hroot])
    have hhidden := visibleSourceLayers_of_hidden hroot hnone
    refine ⟨(m.classpathEntries classpathId).map ClasspathEntry.toLayer, ?_,
      fun p hp => ne_bucketForRoot_of_entry hm hp⟩
    simp only [ModuleIndex.scopeLayers, hhidden, bucketForRoot, hroot, List.map_cons, List.map_nil,
      List.singleton_append]
  | some root =>
    obtain ⟨rest, hvisible, hrest⟩ := visibleSourceLayers_of_registered hroot classpathId
    refine ⟨rest.map .overlay ++ (m.classpathEntries classpathId).map ClasspathEntry.toLayer, ?_,
      fun p hp => ?_⟩
    · simp only [ModuleIndex.scopeLayers, hvisible, bucketForRoot, hroot, List.map_cons,
        List.cons_append]
    · rcases List.mem_append.mp hp with hsource | hentry
      · obtain ⟨p', hp', heq⟩ := List.mem_map.mp hsource
        obtain rfl : p' = p := ScopeLayer.overlay.inj heq
        obtain ⟨r, other, hne, hother, hbucket⟩ := hrest p' hp'
        obtain ⟨r', rfl, hr'⟩ := Option.bind_eq_some_iff.mp hroot
        intro heq
        simp only [bucketForRoot, hroot] at heq
        have hplace := hm.roots r other hother
        rw [hbucket, heq, hm.roots r' root hr'] at hplace
        simp only [Option.some.injEq, BucketRole.root.injEq, true_and] at hplace
        exact hne (congrArg some hplace.symm)
      · exact ne_bucketForRoot_of_entry hm hentry

/-- The context does not read the bucket of the publication at all. -/
theorem scopeLayers_of_not_readsTarget (hreads : ¬ m.ReadsTarget classpathId sourceRoot)
    (hm : m.Placed roles id) :
    ∀ p, .overlay p ∈ m.scopeLayers classpathId sourceRoot → p ≠ m.bucketForRoot sourceRoot := by
  simp only [ReadsTarget, not_or, not_not, Option.not_isSome_iff_eq_none] at hreads
  obtain ⟨hroot, hshown⟩ := hreads
  intro p hp
  rcases List.mem_append.mp hp with hsource | hentry
  · obtain ⟨p', hp', heq⟩ := List.mem_map.mp hsource
    obtain rfl : p' = p := ScopeLayer.overlay.inj heq
    obtain ⟨r, root, hr, rfl⟩ := visibleSourceLayers_of_shown hshown sourceRoot p' hp'
    simp only [bucketForRoot, hroot]
    intro heq
    have hplace := hm.roots r root hr
    rw [heq, hm.source] at hplace
    cases hplace
  · exact ne_bucketForRoot_of_entry hm hentry

end ModuleIndex

/-! ## What a write shows -/

namespace WorkspaceCore

variable {core : WorkspaceCore} {roles : List BucketRole} {key : AnalysisContextKey}
  {m : ModuleIndex}

theorem shownScope_layers (hm : core.modules.lookup key.moduleId = some m) :
    (core.shownScope key).layers =
      (m.scopeLayers key.classpath key.sourceRoot).map (ScopeLayer.map core.deref) ++
        core.shownDependencies key.moduleId ++ core.shownJdk := by
  simp only [shownScope, shownLayers_of_lookup hm]

theorem WellPlaced.shownScope_setBucket (h : core.WellPlaced roles)
    (hm : core.modules.lookup key.moduleId = some m) (bucket : BucketIndex) :
    ((core.setBucket (m.bucketForRoot key.sourceRoot) bucket).shownScope key).layers =
      (m.scopeLayers key.classpath key.sourceRoot).map
          (ScopeLayer.map (core.setBucket (m.bucketForRoot key.sourceRoot) bucket).deref) ++
        core.shownDependencies key.moduleId ++ core.shownJdk := by
  obtain ⟨r, hr, hof⟩ := placed_bucketForRoot (h.modules _ m hm) key.sourceRoot
  have hm' : (core.setBucket (m.bucketForRoot key.sourceRoot) bucket).modules.lookup key.moduleId =
      some m := hm
  rw [shownScope_layers hm', h.shownDependencies_setBucket hr hof, h.shownJdk_setBucket hr hof]

/-- A write that the context reads replaces its first layer. -/
theorem WellPlaced.shownScope_of_readsTarget (h : core.WellPlaced roles)
    (hm : core.modules.lookup key.moduleId = some m)
    (hreads : m.ReadsTarget key.classpath key.sourceRoot) (bucket : BucketIndex) :
    ((core.setBucket (m.bucketForRoot key.sourceRoot) bucket).shownScope key).layers =
      .overlay bucket :: (core.shownScope key).layers.tail := by
  obtain ⟨rest, hfirst, hrest⟩ := hreads.scopeLayers (h.modules _ m hm)
  obtain ⟨r, hr, -⟩ := placed_bucketForRoot (h.modules _ m hm) key.sourceRoot
  rw [h.shownScope_setBucket hm, shownScope_layers hm, hfirst, List.map_cons, List.map_cons,
    map_deref_setBucket hrest]
  simp only [ScopeLayer.map, deref_setBucket_self (h.lt hr), List.cons_append, List.tail_cons]

/-- A write that the context does not read changes nothing in it. -/
theorem WellPlaced.shownScope_of_not_readsTarget (h : core.WellPlaced roles)
    (hm : core.modules.lookup key.moduleId = some m)
    (hreads : ¬ m.ReadsTarget key.classpath key.sourceRoot) (bucket : BucketIndex) :
    ((core.setBucket (m.bucketForRoot key.sourceRoot) bucket).shownScope key).layers =
      (core.shownScope key).layers := by
  rw [h.shownScope_setBucket hm, shownScope_layers hm, map_deref_setBucket
    (ModuleIndex.scopeLayers_of_not_readsTarget hreads (h.modules _ m hm))]

end WorkspaceCore

/-! ## Publishing -/

namespace WorkspaceIndex

/-- The module as `ensure_module` gives it. -/
def moduleOf (index : WorkspaceIndex) (module : ModuleId) : ModuleIndex :=
  (index.core.ensureModule module (defaultModuleName module)).1

/-- The bucket that a publication for a source root goes to. -/
def targetBucket (index : WorkspaceIndex) (module : ModuleId) (sourceRoot : Option SourceRootId) :
    BucketIndex :=
  (index.core.withModule module).deref ((index.moduleOf module).bucketForRoot sourceRoot)

def updateSourceInContext (index : WorkspaceIndex) (module : ModuleId)
    (sourceRoot : Option SourceRootId) (origin : ClassOrigin) (classes : List ClassMetadata)
    (declarations : Option SourceDeclarationBatch) : WorkspaceIndex × Bool :=
  index.mutate (.updateSourceInContext module sourceRoot origin classes declarations)

/-- No published name is held by a class of a jar. -/
def NoJarConflict (index : WorkspaceIndex) (module : ModuleId) (sourceRoot : Option SourceRootId)
    (classes : List ClassMetadata) : Prop :=
  ∀ c ∈ classes, ∀ e, (index.targetBucket module sourceRoot).getClass c.internalName = some e →
    e.origin.isJar = false

/-- The view of the context answers every published name with the class published under it, which is
the last one of a list that names a class twice. -/
def ShowsClasses (index : WorkspaceIndex) (readers : ArtifactReaders) (key : AnalysisContextKey)
    (classes : List ClassMetadata) : Prop :=
  ∀ n c, BucketState.lastNamed classes n = some c →
    (index.viewForAnalysisContext readers key).getClass n = some c

def ReadsTarget (index : WorkspaceIndex) (key : AnalysisContextKey) : Prop :=
  (index.moduleOf key.moduleId).ReadsTarget key.classpath key.sourceRoot

/-- Before the publication: the context reads the bucket, and no layer behind it has a published name
with a higher rank; or the context does not read the bucket, and has the classes already. -/
structure WillShow (index : WorkspaceIndex) (readers : ArtifactReaders) (key : AnalysisContextKey)
    (classes : List ClassMetadata) : Prop where
  unrivalled : index.ReadsTarget key → ∀ n c, BucketState.lastNamed classes n = some c →
    ∀ e, (index.viewForAnalysisContext readers key).behind.getClass n = some e →
      e.originPrecedence ≤ c.originPrecedence
  already : ¬ index.ReadsTarget key → index.ShowsClasses readers key classes

variable {index : WorkspaceIndex}

theorem Invariant.updateSourceInContext (h : index.Invariant) (module : ModuleId)
    (sourceRoot : Option SourceRootId) (origin : ClassOrigin) (classes : List ClassMetadata)
    (declarations : Option SourceDeclarationBatch) :
    (index.updateSourceInContext module sourceRoot origin classes declarations).1.Invariant :=
  h.mutate _

/-- The core of a publication: one bucket is written, in the core that has the module. -/
theorem updateSourceInContext_core (index : WorkspaceIndex) (module : ModuleId)
    (sourceRoot : Option SourceRootId) (origin : ClassOrigin) (classes : List ClassMetadata)
    (declarations : Option SourceDeclarationBatch) :
    (index.updateSourceInContext module sourceRoot origin classes declarations).1.core =
      (index.core.withModule module).setBucket ((index.moduleOf module).bucketForRoot sourceRoot)
        ((index.targetBucket module sourceRoot).updateSourceWithDeclarations
          origin classes declarations).1 := by
  rw [updateSourceInContext, mutate_core]
  rfl

theorem getClass_published {module : ModuleId} {sourceRoot : Option SourceRootId}
    {origin : ClassOrigin} {classes : List ClassMetadata}
    {declarations : Option SourceDeclarationBatch}
    (hchanged : (index.updateSourceInContext module sourceRoot origin classes declarations).2 = true)
    (hjar : index.NoJarConflict module sourceRoot classes) {n : String} {c : ClassMetadata}
    (hc : BucketState.lastNamed classes n = some c) :
    ((index.targetBucket module sourceRoot).updateSourceWithDeclarations
      origin classes declarations).1.getClass n = some c := by
  have hget := BucketState.getClass_updateSource
    (index.targetBucket module sourceRoot).invariant origin classes declarations n hchanged
  rw [BucketState.withoutJarConflicts_eq hjar, hc, Option.some_or] at hget
  exact hget

theorem Invariant.placed_withModule (h : index.Invariant) (module : ModuleId) :
    (∃ roles, (index.core.withModule module).WellPlaced roles) ∧
      ∀ key, (index.core.withModule module).shownScope key = index.core.shownScope key := by
  obtain ⟨roles, hplaced⟩ := h.placed
  obtain ⟨roles', -, hplaced'⟩ := hplaced.ensureModule module (defaultModuleName module)
  exact ⟨⟨roles', hplaced'⟩, fun key => hplaced.shownScope_of_grown
    (WorkspaceCore.grown_ensureModule index.core module (defaultModuleName module)) key⟩

variable {key : AnalysisContextKey}

/-- The layers of the context after a publication that it reads. -/
theorem Invariant.layers_of_readsTarget (h : index.Invariant) (hreads : index.ReadsTarget key)
    (readers : ArtifactReaders) (origin : ClassOrigin) (classes : List ClassMetadata)
    (declarations : Option SourceDeclarationBatch) :
    ((index.updateSourceInContext key.moduleId key.sourceRoot origin classes
      declarations).1.viewForAnalysisContext readers key).scope.layers =
      .overlay ((index.targetBucket key.moduleId key.sourceRoot).updateSourceWithDeclarations
          origin classes declarations).1 ::
        (index.viewForAnalysisContext readers key).scope.layers.tail := by
  obtain ⟨⟨roles, hplaced⟩, hshown⟩ := h.placed_withModule key.moduleId
  have hm := WorkspaceCore.ensureModule_lookup index.core key.moduleId
    (defaultModuleName key.moduleId)
  rw [(h.updateSourceInContext ..).viewForAnalysisContext_eq, h.viewForAnalysisContext_eq, ← hshown,
    ← hplaced.shownScope_of_readsTarget hm hreads]
  exact congrArg (fun core => (core.shownScope key).layers) (updateSourceInContext_core ..)

theorem Invariant.layers_of_not_readsTarget (h : index.Invariant)
    (hreads : ¬ index.ReadsTarget key) (readers : ArtifactReaders) (origin : ClassOrigin)
    (classes : List ClassMetadata) (declarations : Option SourceDeclarationBatch) :
    ((index.updateSourceInContext key.moduleId key.sourceRoot origin classes
      declarations).1.viewForAnalysisContext readers key).scope.layers =
      (index.viewForAnalysisContext readers key).scope.layers := by
  obtain ⟨⟨roles, hplaced⟩, hshown⟩ := h.placed_withModule key.moduleId
  have hm := WorkspaceCore.ensureModule_lookup index.core key.moduleId
    (defaultModuleName key.moduleId)
  rw [(h.updateSourceInContext ..).viewForAnalysisContext_eq, h.viewForAnalysisContext_eq, ← hshown,
    ← hplaced.shownScope_of_not_readsTarget hm hreads]
  exact congrArg (fun core => (core.shownScope key).layers) (updateSourceInContext_core ..)

theorem viewForAnalysisContext_readers (h : index.Invariant) (readers : ArtifactReaders)
    (key : AnalysisContextKey) :
    (index.viewForAnalysisContext readers key).artifactReaders = readers := by
  rw [h.viewForAnalysisContext_eq]

/-- In every reachable state and for every publication that changes the index and names no class of a
jar, the view of the context shows the published classes exactly when it reads the bucket that was
written and no layer behind outranks them, or did not need the publication. -/
theorem publish_shown_iff (ops : List Op) (readers : ArtifactReaders) (key : AnalysisContextKey)
    (origin : ClassOrigin) (classes : List ClassMetadata)
    (declarations : Option SourceDeclarationBatch)
    (hchanged : ((run ops).updateSourceInContext key.moduleId key.sourceRoot origin classes
      declarations).2 = true)
    (hjar : (run ops).NoJarConflict key.moduleId key.sourceRoot classes) :
    ((run ops).updateSourceInContext key.moduleId key.sourceRoot origin classes
        declarations).1.ShowsClasses readers key classes ↔
      (run ops).WillShow readers key classes := by
  have h := invariant_run ops
  have hreaders := viewForAnalysisContext_readers h readers key
  have hreaders' := viewForAnalysisContext_readers
    (h.updateSourceInContext key.moduleId key.sourceRoot origin classes declarations) readers key
  by_cases hreads : (run ops).ReadsTarget key
  · have hlayers := h.layers_of_readsTarget hreads readers origin classes declarations
    have hbehind (n : String) : (((run ops).updateSourceInContext key.moduleId key.sourceRoot origin
        classes declarations).1.viewForAnalysisContext readers key).behind.getClass n =
        ((run ops).viewForAnalysisContext readers key).behind.getClass n := by
      refine IndexView.getClass_congr ?_ ?_ n
      · simp only [IndexView.behind, hlayers, List.tail_cons]
      · exact hreaders'.trans hreaders.symm
    have hiff {n : String} {c : ClassMetadata} (hc : BucketState.lastNamed classes n = some c) :=
      IndexView.getClass_of_first hlayers (getClass_published hchanged hjar hc)
    constructor
    · intro hshows
      refine ⟨fun _ n c hc e he => ?_, fun hnot => absurd hreads hnot⟩
      exact (hiff hc).mp (hshows n c hc) e ((hbehind n).trans he)
    · intro hwill n c hc
      exact (hiff hc).mpr fun e he => hwill.unrivalled hreads n c hc e ((hbehind n).symm.trans he)
  · have hlayers := h.layers_of_not_readsTarget hreads readers origin classes declarations
    have hsame := IndexView.getClass_congr hlayers (hreaders'.trans hreaders.symm)
    constructor
    · intro hshows
      exact ⟨fun hyes => absurd hyes hreads, fun _ n c hc => (hsame n).symm.trans (hshows n c hc)⟩
    · intro hwill n c hc
      exact (hsame n).trans (hwill.already hreads n c hc)

/-- The class that the file `Main.java` publishes. -/
def mainClass : ClassMetadata :=
  .bare (some "app") "Main" "app/Main" none (.sourceFile "file:///Main.java")

theorem originPrecedence_le_mainClass (c : ClassMetadata) :
    c.originPrecedence ≤ mainClass.originPrecedence := by
  rw [ClassMetadata.originPrecedence]
  split <;> decide

theorem publish_shown_new :
    ((run []).updateSourceInContext .root none (.sourceFile "file:///Main.java") [mainClass]
      none).1.ShowsClasses .none ⟨.root, .main, none⟩ [mainClass] := by
  refine (publish_shown_iff [] .none ⟨.root, .main, none⟩ (.sourceFile "file:///Main.java")
    [mainClass] none (by decide) ?_).mpr ⟨fun _ n c hc e _ => ?_, fun hhidden => ?_⟩
  · rintro c - e ⟨⟩
  · rw [List.mem_singleton.mp (BucketState.mem_of_lastNamed hc).1]
    exact originPrecedence_le_mainClass e
  · refine absurd (Or.inr ?_) hhidden
    rintro ⟨id, root, ⟨⟩, -⟩

/-- A file outside the source roots of its module is published, and its own context does not see it. -/
theorem publish_unregistered_hidden :
    ¬ ∀ (ops : List Op) (readers : ArtifactReaders) (key : AnalysisContextKey) (origin : ClassOrigin)
      (classes : List ClassMetadata) (declarations : Option SourceDeclarationBatch),
      (∀ root, ((run ops).moduleOf key.moduleId).registeredRoot key.sourceRoot = some root →
        root.classpath = key.classpath) →
      ((run ops).updateSourceInContext key.moduleId key.sourceRoot origin classes
        declarations).2 = true →
      (run ops).NoJarConflict key.moduleId key.sourceRoot classes →
      ((run ops).updateSourceInContext key.moduleId key.sourceRoot origin classes
        declarations).1.ShowsClasses readers key classes := by
  intro hall
  have hshows := hall [.mutate (.registerModuleSourceRoots .root [(⟨1⟩, .main)] .insertion)] .none
    ⟨.root, .main, none⟩ (.sourceFile "file:///Main.java") [mainClass] none
    (by rintro root ⟨⟩) (by decide) (by rintro c - e ⟨⟩)
  have hget := hshows "app/Main" mainClass (by decide)
  revert hget
  decide

end WorkspaceIndex

end JavaAnalyzer.Index
