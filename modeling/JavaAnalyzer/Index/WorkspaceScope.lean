import JavaAnalyzer.Index.WorkspaceIndex

/-! # What a scope shows

Building a scope creates the modules it asks for and changes nothing else (`Grown`), and a scope that
was built is built the same from every core that has only grown since (`buildScopeSnapshot_of_grown`).
Read through its pointers, a scope is a function of what the modules show, where a module that is
missing shows an empty bucket. -/

namespace JavaAnalyzer.Index.WorkspaceCore
set_option autoImplicit false

variable {core core' core'' : WorkspaceCore}

/-! ## Growing -/

/-- New buckets and new modules, and nothing else in a scope. -/
structure Grown (core core' : WorkspaceCore) : Prop where
  buckets : core.buckets <+: core'.buckets
  modules : ∀ id, core'.modules.lookup id = core.modules.lookup id ∨
    core.modules.lookup id = none ∧ ∃ name p,
      core'.modules.lookup id = some (.new id name p) ∧ core'.buckets[p]? = some .new
  graph : core'.graph = core.graph
  jdk : core'.jdk = core.jdk

theorem getElem?_of_prefix {α : Type} {l l' : List α} (h : l <+: l') {p : ℕ} {b : α}
    (hb : l[p]? = some b) : l'[p]? = some b := by
  obtain ⟨t, rfl⟩ := h
  obtain ⟨hlt, -⟩ := List.getElem?_eq_some_iff.mp hb
  rw [List.getElem?_append_left hlt, hb]

theorem Grown.refl (core : WorkspaceCore) : Grown core core :=
  ⟨List.prefix_refl _, fun _ => .inl rfl, rfl, rfl⟩

theorem Grown.trans (h : Grown core core') (h' : Grown core' core'') : Grown core core'' where
  buckets := h.buckets.trans h'.buckets
  modules := fun id => by
    rcases h'.modules id with heq' | ⟨hnone', hnew'⟩
    · rcases h.modules id with heq | ⟨hnone, name, p, hmod, hp⟩
      · exact .inl (heq'.trans heq)
      · exact .inr ⟨hnone, name, p, heq'.trans hmod, getElem?_of_prefix h'.buckets hp⟩
    · rcases h.modules id with heq | ⟨-, name, p, hmod, -⟩
      · exact .inr ⟨heq ▸ hnone', hnew'⟩
      · rw [hmod] at hnone'
        cases hnone'
  graph := h'.graph.trans h.graph
  jdk := h'.jdk.trans h.jdk

theorem Grown.kept (h : Grown core core') {id : ModuleId} {m : ModuleIndex}
    (hm : core.modules.lookup id = some m) : core'.modules.lookup id = some m := by
  rcases h.modules id with heq | ⟨hnone, -⟩
  · rw [heq, hm]
  · rw [hm] at hnone
    cases hnone

theorem Grown.deref (h : Grown core core') {p : BucketPtr} (hp : p < core.buckets.length) :
    core'.deref p = core.deref p := by
  obtain ⟨t, ht⟩ := h.buckets
  rw [WorkspaceCore.deref, WorkspaceCore.deref, ← ht, List.getElem?_append_left hp]

/-- Nothing that a scope over the present modules is built from has changed. -/
structure Keeps (core core' : WorkspaceCore) : Prop where
  modules : ∀ id m, core.modules.lookup id = some m → core'.modules.lookup id = some m
  graph : core'.graph = core.graph
  jdk : core'.jdk = core.jdk

theorem Grown.keeps (h : Grown core core') : Keeps core core' :=
  ⟨fun _ _ hm => h.kept hm, h.graph, h.jdk⟩

theorem Keeps.trans (h : Keeps core core') (h' : Keeps core' core'') : Keeps core core'' :=
  ⟨fun id m hm => h'.modules id m (h.modules id m hm), h'.graph.trans h.graph, h'.jdk.trans h.jdk⟩

theorem grown_alloc (core : WorkspaceCore) (bucket : BucketIndex) :
    Grown core (core.alloc bucket).2 :=
  ⟨List.prefix_append _ _, fun _ => .inl rfl, rfl, rfl⟩

/-! ## Creating modules -/

theorem ensureModule_of_lookup {id : ModuleId} {m : ModuleIndex}
    (hm : core.modules.lookup id = some m) (name : String) :
    core.ensureModule id name = (m, core) := by
  simp only [ensureModule, hm]

theorem ensureModule_of_none {id : ModuleId} (hm : core.modules.lookup id = none) (name : String) :
    core.ensureModule id name = (.new id name core.buckets.length,
      (core.alloc .new).2.setModule id (.new id name core.buckets.length)) := by
  simp only [ensureModule, hm]
  rfl

theorem ensureModule_lookup (core : WorkspaceCore) (id : ModuleId) (name : String) :
    (core.ensureModule id name).2.modules.lookup id = some (core.ensureModule id name).1 := by
  rcases Option.eq_none_or_eq_some (core.modules.lookup id) with hm | ⟨m, hm⟩
  · rw [ensureModule_of_none hm]
    exact AList.lookup_insert _
  · rw [ensureModule_of_lookup hm, hm]

theorem grown_ensureModule (core : WorkspaceCore) (id : ModuleId) (name : String) :
    Grown core (core.ensureModule id name).2 := by
  rcases Option.eq_none_or_eq_some (core.modules.lookup id) with hm | ⟨m, hm⟩
  · rw [ensureModule_of_none hm]
    refine ⟨List.prefix_append _ _, fun id' => ?_, rfl, rfl⟩
    by_cases hid : id' = id
    · subst hid
      exact .inr ⟨hm, name, core.buckets.length, AList.lookup_insert _, List.getElem?_concat_length⟩
    · exact .inl (AList.lookup_insert_ne hid)
  · rw [ensureModule_of_lookup hm]
    exact .refl core

/-! ## Building -/

theorem grown_dependencyLayers (core : WorkspaceCore) (deps : List ModuleId) :
    Grown core (core.dependencyLayers deps).2 := by
  induction deps generalizing core with
  | nil => exact .refl core
  | cons dep deps ih => exact (grown_ensureModule core dep _).trans (ih _)

theorem dependencyLayers_of_keeps {deps : List ModuleId}
    (h : Keeps (core.dependencyLayers deps).2 core') :
    core'.dependencyLayers deps = ((core.dependencyLayers deps).1, core') := by
  induction deps generalizing core with
  | nil => rfl
  | cons dep deps ih =>
    have hm := ((grown_dependencyLayers _ deps).keeps.trans h).modules dep _
      (ensureModule_lookup core dep (defaultModuleName dep))
    have hlater : Keeps ((core.ensureModule dep (defaultModuleName dep)).2.dependencyLayers deps).2
      core' := h
    have hrest := ih hlater
    simp only [dependencyLayers, ensureModule_of_lookup hm, hrest]

theorem jdkLayers_of_keeps (h : Keeps core core') : core'.jdkLayers = core.jdkLayers := by
  rw [jdkLayers, jdkLayers, h.jdk]

theorem jdkLayers_of_grown (h : Grown core core') : core'.jdkLayers = core.jdkLayers :=
  jdkLayers_of_keeps h.keeps

/-- The core once the module of a context is there. -/
def withModule (core : WorkspaceCore) (id : ModuleId) : WorkspaceCore :=
  (core.ensureModule id (defaultModuleName id)).2

theorem buildScopeLayers_eq (core : WorkspaceCore) (key : AnalysisContextKey) :
    core.buildScopeLayers key =
      ((core.ensureModule key.moduleId (defaultModuleName key.moduleId)).1.scopeLayers
          key.classpath key.sourceRoot ++
        ((core.withModule key.moduleId).dependencyLayers
          (core.graph.dependencyOrder key.moduleId)).1 ++ core.jdkLayers,
        ((core.withModule key.moduleId).dependencyLayers
          (core.graph.dependencyOrder key.moduleId)).2) := by
  have hensured := grown_ensureModule core key.moduleId (defaultModuleName key.moduleId)
  have hdeps := grown_dependencyLayers (core.withModule key.moduleId)
    (core.graph.dependencyOrder key.moduleId)
  rw [← jdkLayers_of_grown (hensured.trans hdeps), ← hensured.graph]
  rfl

theorem grown_buildScopeLayers (core : WorkspaceCore) (key : AnalysisContextKey) :
    Grown core (core.buildScopeLayers key).2 := by
  rw [buildScopeLayers_eq]
  exact (grown_ensureModule core _ _).trans (grown_dependencyLayers _ _)

theorem buildScopeLayers_of_keeps {key : AnalysisContextKey}
    (h : Keeps (core.buildScopeLayers key).2 core') :
    core'.buildScopeLayers key = ((core.buildScopeLayers key).1, core') := by
  have hall := (grown_buildScopeLayers core key).keeps.trans h
  rw [buildScopeLayers_eq] at h ⊢
  have hm := ((grown_dependencyLayers _ _).keeps.trans h).modules _ _
    (ensureModule_lookup core key.moduleId (defaultModuleName key.moduleId))
  rw [buildScopeLayers_eq, withModule, ensureModule_of_lookup hm, hall.graph,
    dependencyLayers_of_keeps h, jdkLayers_of_keeps hall]

theorem buildScopeSnapshot_eq (core : WorkspaceCore) (key : AnalysisContextKey) :
    core.buildScopeSnapshot key =
      (⟨key, ((core.withModule key.moduleId).buildScopeLayers key).1,
        (core.ensureModule key.moduleId (defaultModuleName key.moduleId)).1.classpathJars
          key.classpath⟩,
        ((core.withModule key.moduleId).buildScopeLayers key).2) := rfl

theorem grown_buildScopeSnapshot (core : WorkspaceCore) (key : AnalysisContextKey) :
    Grown core (core.buildScopeSnapshot key).2 :=
  (grown_ensureModule core _ _).trans (grown_buildScopeLayers _ _)

/-- A scope that was built stays what it is while its modules, the graph and the JDK do. -/
theorem buildScopeSnapshot_of_keeps {key : AnalysisContextKey}
    (h : Keeps (core.buildScopeSnapshot key).2 core') :
    core'.buildScopeSnapshot key = ((core.buildScopeSnapshot key).1, core') := by
  rw [buildScopeSnapshot_eq] at h ⊢
  have hm := ((grown_buildScopeLayers _ key).keeps.trans h).modules _ _
    (ensureModule_lookup core key.moduleId (defaultModuleName key.moduleId))
  rw [buildScopeSnapshot_eq, withModule, ensureModule_of_lookup hm, buildScopeLayers_of_keeps h]

/-- A scope stays what it is while modules are only created. -/
theorem buildScopeSnapshot_of_grown {key : AnalysisContextKey}
    (h : Grown (core.buildScopeSnapshot key).2 core') :
    core'.buildScopeSnapshot key = ((core.buildScopeSnapshot key).1, core') :=
  buildScopeSnapshot_of_keeps h.keeps

/-! ## Reading through the pointers -/

/-- What a module puts into a scope. -/
def shownLayers (core : WorkspaceCore) (id : ModuleId) (classpathId : ClasspathId)
    (sourceRoot : Option SourceRootId) : List (ScopeLayer BucketIndex) :=
  match core.modules.lookup id with
  | none => [.overlay .new]
  | some m => (m.scopeLayers classpathId sourceRoot).map (ScopeLayer.map core.deref)

def shownJars (core : WorkspaceCore) (id : ModuleId) (classpathId : ClasspathId) : List String :=
  ((core.modules.lookup id).map fun m => m.classpathJars classpathId).getD []

def shownDependencies (core : WorkspaceCore) (id : ModuleId) : List (ScopeLayer BucketIndex) :=
  (core.graph.dependencyOrder id).flatMap fun dep => core.shownLayers dep .main none

def shownJdk (core : WorkspaceCore) : List (ScopeLayer BucketIndex) :=
  core.jdkLayers.map (ScopeLayer.map core.deref)

def shownScope (core : WorkspaceCore) (key : AnalysisContextKey) : ScopeSnapshot BucketIndex where
  key := key
  layers := core.shownLayers key.moduleId key.classpath key.sourceRoot ++
    core.shownDependencies key.moduleId ++ core.shownJdk
  jarPaths := core.shownJars key.moduleId key.classpath

theorem shownLayers_of_lookup {id : ModuleId} {m : ModuleIndex}
    (hm : core.modules.lookup id = some m) (classpathId : ClasspathId)
    (sourceRoot : Option SourceRootId) :
    core.shownLayers id classpathId sourceRoot =
      (m.scopeLayers classpathId sourceRoot).map (ScopeLayer.map core.deref) := by
  simp only [shownLayers, hm]

theorem scopeLayers_new (id : ModuleId) (name : String) (source : BucketPtr)
    (classpathId : ClasspathId) (sourceRoot : Option SourceRootId) :
    (ModuleIndex.new id name source).scopeLayers classpathId sourceRoot = [.overlay source] := rfl

theorem map_dependencyLayers {deps : List ModuleId}
    (h : Grown (core.dependencyLayers deps).2 core') :
    (core.dependencyLayers deps).1.map (ScopeLayer.map core'.deref) =
      deps.flatMap fun dep => core'.shownLayers dep .main none := by
  induction deps generalizing core with
  | nil => rfl
  | cons dep deps ih =>
    have hm := ((grown_dependencyLayers _ deps).trans h).kept
      (ensureModule_lookup core dep (defaultModuleName dep))
    have hlater : Grown ((core.withModule dep).dependencyLayers deps).2 core' := h
    have hrest := ih hlater
    rw [List.flatMap_cons, shownLayers_of_lookup hm, ← hrest, ← List.map_append]
    rfl

theorem map_buildScopeLayers {key : AnalysisContextKey}
    (h : Grown (core.buildScopeLayers key).2 core') :
    (core.buildScopeLayers key).1.map (ScopeLayer.map core'.deref) =
      core'.shownLayers key.moduleId key.classpath key.sourceRoot ++
        core'.shownDependencies key.moduleId ++ core'.shownJdk := by
  have hall := (grown_buildScopeLayers core key).trans h
  rw [buildScopeLayers_eq] at h ⊢
  have hm := ((grown_dependencyLayers _ _).trans h).kept
    (ensureModule_lookup core key.moduleId (defaultModuleName key.moduleId))
  rw [List.map_append, List.map_append, map_dependencyLayers h, shownLayers_of_lookup hm,
    shownDependencies, hall.graph, shownJdk, jdkLayers_of_grown hall]

/-- The scope that is built, read in a core that has grown since. -/
theorem map_buildScopeSnapshot {key : AnalysisContextKey}
    (h : Grown (core.buildScopeSnapshot key).2 core') :
    (core.buildScopeSnapshot key).1.map core'.deref = core'.shownScope key := by
  rw [buildScopeSnapshot_eq] at h ⊢
  have hm := ((grown_buildScopeLayers _ key).trans h).kept
    (ensureModule_lookup core key.moduleId (defaultModuleName key.moduleId))
  simp only [ScopeSnapshot.map, shownScope, shownJars, hm, map_buildScopeLayers h, Option.map_some,
    Option.getD_some]

end JavaAnalyzer.Index.WorkspaceCore
