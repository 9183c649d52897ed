import JavaAnalyzer.Index.WorkspaceScope

/-! # The invariant of the workspace index

Every bucket of the heap has one place (`BucketRole`), and every pointer of the index points to a
bucket of the place it stands for; so no two places share a bucket. Every cached scope is the one that
would be built. Both hold after every run (`invariant_run`). -/

namespace JavaAnalyzer.Index
set_option autoImplicit false

/-- The place that a bucket was allocated for. -/
inductive BucketRole where
  | source (module : ModuleId)
  | root (module : ModuleId) (id : SourceRootId)
  | archive
deriving DecidableEq

/-! ## Places -/

def ClasspathEntry.Placed (roles : List BucketRole) : ClasspathEntry → Prop
  | .artifact _ => True
  | .overlay p => roles[p]? = some .archive

structure ModuleIndex.Placed (roles : List BucketRole) (id : ModuleId) (m : ModuleIndex) : Prop where
  source : roles[m.source]? = some (.source id)
  roots : ∀ r root, m.sourceRoots.lookup r = some root → roles[root.bucket]? = some (.root id r)
  entries : ∀ classpathId, ∀ e ∈ m.classpathEntries classpathId, e.Placed roles

namespace WorkspaceCore

structure WellPlaced (core : WorkspaceCore) (roles : List BucketRole) : Prop where
  length : roles.length = core.buckets.length
  modules : ∀ id m, core.modules.lookup id = some m → m.Placed roles id
  jars : ∀ path e, core.jarCache.lookup path = some e → e.Placed roles
  jdk : ∀ p, core.jdk.overlay = some p → roles[p]? = some .archive

variable {core core' : WorkspaceCore} {roles roles' : List BucketRole}

theorem placed_entry_mono (h : roles <+: roles') {e : ClasspathEntry} (he : e.Placed roles) :
    e.Placed roles' := by
  cases e with
  | artifact id => trivial
  | overlay p => exact getElem?_of_prefix h he

theorem placed_module_mono (h : roles <+: roles') {id : ModuleId} {m : ModuleIndex}
    (hm : m.Placed roles id) : m.Placed roles' id where
  source := getElem?_of_prefix h hm.source
  roots := fun r root hr => getElem?_of_prefix h (hm.roots r root hr)
  entries := fun cp e he => placed_entry_mono h (hm.entries cp e he)

theorem WellPlaced.lt (h : core.WellPlaced roles) {p : BucketPtr} {r : BucketRole}
    (hp : roles[p]? = some r) : p < core.buckets.length := by
  rw [← h.length]
  exact (List.getElem?_eq_some_iff.mp hp).1

/-- The pointers of a module's layers have the places of the module, or hold an archive. -/
theorem placed_scopeLayers {id : ModuleId} {m : ModuleIndex} (hm : m.Placed roles id)
    {classpathId : ClasspathId} {sourceRoot : Option SourceRootId} {p : BucketPtr}
    (hp : .overlay p ∈ m.scopeLayers classpathId sourceRoot) :
    roles[p]? = some (.source id) ∨ (∃ r, roles[p]? = some (.root id r)) ∨
      roles[p]? = some .archive := by
  rcases List.mem_append.mp hp with hsource | hentry
  · obtain ⟨p', hp', heq⟩ := List.mem_map.mp hsource
    obtain rfl : p' = p := ScopeLayer.overlay.inj heq
    rcases ModuleIndex.mem_visibleSourceLayers hp' with rfl | ⟨r, root, hroot, rfl⟩
    · exact .inl hm.source
    · exact .inr (.inl ⟨r, hm.roots r root hroot⟩)
  · obtain ⟨e, he, heq⟩ := List.mem_map.mp hentry
    have hplaced := hm.entries classpathId e he
    cases e with
    | artifact id => cases heq
    | overlay p' =>
      obtain rfl : p' = p := ScopeLayer.overlay.inj heq
      exact .inr (.inr hplaced)

theorem WellPlaced.lt_of_mem_scopeLayers (h : core.WellPlaced roles) {id : ModuleId}
    {m : ModuleIndex} (hm : core.modules.lookup id = some m) {classpathId : ClasspathId}
    {sourceRoot : Option SourceRootId} {p : BucketPtr}
    (hp : .overlay p ∈ m.scopeLayers classpathId sourceRoot) : p < core.buckets.length := by
  rcases placed_scopeLayers (h.modules id m hm) hp with hr | ⟨r, hr⟩ | hr
  · exact h.lt hr
  · exact h.lt hr
  · exact h.lt hr

theorem WellPlaced.lt_of_mem_jdkLayers (h : core.WellPlaced roles) {p : BucketPtr}
    (hp : .overlay p ∈ core.jdkLayers) :
    core.jdk.overlay = some p ∧ roles[p]? = some .archive := by
  unfold jdkLayers at hp
  split at hp
  · simp at hp
  · simp only [Option.mem_toList, Option.map_eq_some_iff, ScopeLayer.overlay.injEq,
      exists_eq_right] at hp
    exact ⟨hp, h.jdk p hp⟩

/-! ## Steps -/

theorem WellPlaced.alloc (h : core.WellPlaced roles) (bucket : BucketIndex) (r : BucketRole) :
    (core.alloc bucket).2.WellPlaced (roles ++ [r]) where
  length := by simp [WorkspaceCore.alloc, h.length]
  modules := fun id m hm => placed_module_mono (List.prefix_append ..) (h.modules id m hm)
  jars := fun path e he => placed_entry_mono (List.prefix_append ..) (h.jars path e he)
  jdk := fun p hp => getElem?_of_prefix (List.prefix_append ..) (h.jdk p hp)

theorem WellPlaced.fresh (h : core.WellPlaced roles) (bucket : BucketIndex) (r : BucketRole) :
    (roles ++ [r])[(core.alloc bucket).1]? = some r := by
  rw [WorkspaceCore.alloc, ← h.length]
  exact List.getElem?_concat_length

theorem WellPlaced.setModule (h : core.WellPlaced roles) {id : ModuleId} {m : ModuleIndex}
    (hm : m.Placed roles id) : (core.setModule id m).WellPlaced roles where
  length := h.length
  modules := fun id' m' hm' => by
    by_cases hid : id' = id
    · subst hid
      obtain rfl := Option.some.inj ((AList.lookup_insert core.modules).symm.trans hm')
      exact hm
    · exact h.modules id' m' ((AList.lookup_insert_ne hid).symm.trans hm')
  jars := h.jars
  jdk := h.jdk

theorem WellPlaced.setBucket (h : core.WellPlaced roles) (p : BucketPtr) (bucket : BucketIndex) :
    WellPlaced { core with buckets := core.buckets.set p bucket } roles :=
  ⟨by rw [List.length_set, h.length], h.modules, h.jars, h.jdk⟩

/-- The core has grown into places that extend the given ones. -/
def PlacedAfter (roles : List BucketRole) (core : WorkspaceCore) : Prop :=
  ∃ roles', roles <+: roles' ∧ core.WellPlaced roles'

theorem PlacedAfter.trans {core' : WorkspaceCore} (h : PlacedAfter roles core)
    (hnext : ∀ roles', core.WellPlaced roles' → PlacedAfter roles' core') :
    PlacedAfter roles core' := by
  obtain ⟨roles', hpre, hplaced⟩ := h
  obtain ⟨roles'', hpre', hplaced'⟩ := hnext roles' hplaced
  exact ⟨roles'', hpre.trans hpre', hplaced'⟩

theorem placed_new (id : ModuleId) (name : String) {p : BucketPtr}
    (hp : roles[p]? = some (.source id)) : (ModuleIndex.new id name p).Placed roles id where
  source := hp
  roots := fun r root hr => by cases hr
  entries := fun cp e he => by cases he

theorem WellPlaced.ensureModule (h : core.WellPlaced roles) (id : ModuleId) (name : String) :
    PlacedAfter roles (core.ensureModule id name).2 := by
  rcases Option.eq_none_or_eq_some (core.modules.lookup id) with hm | ⟨m, hm⟩
  · rw [ensureModule_of_none hm]
    exact ⟨roles ++ [BucketRole.source id], List.prefix_append roles [BucketRole.source id], (h.alloc .new (.source id)).setModule
      (placed_new id name (h.fresh .new (.source id)))⟩
  · rw [ensureModule_of_lookup hm]
    exact ⟨roles, List.prefix_refl _, h⟩

theorem WellPlaced.ensured (id : ModuleId) (name : String)
    (h : (core.ensureModule id name).2.WellPlaced roles) :
    (core.ensureModule id name).1.Placed roles id :=
  h.modules id _ (ensureModule_lookup core id name)

theorem WellPlaced.changeBucket (h : core.WellPlaced roles) (module : ModuleId)
    (sourceRoot : Option SourceRootId) (f : BucketIndex → BucketIndex × Bool) :
    PlacedAfter roles (core.changeBucket module sourceRoot f).1 :=
  (h.ensureModule module (defaultModuleName module)).trans fun roles' h' =>
    ⟨roles', List.prefix_refl _, h'.setBucket _ _⟩

theorem WellPlaced.changeModule (h : core.WellPlaced roles) (id : ModuleId)
    {f : ModuleIndex → ModuleIndex}
    (hf : ∀ roles' m, roles <+: roles' → m.Placed roles' id → (f m).Placed roles' id) :
    PlacedAfter roles (core.changeModule id f) := by
  obtain ⟨roles', hpre, h'⟩ := h.ensureModule id (defaultModuleName id)
  exact ⟨roles', hpre, h'.setModule (hf roles' _ hpre (WellPlaced.ensured id _ h'))⟩

theorem placed_setClasspath {id : ModuleId} {m : ModuleIndex} (hm : m.Placed roles id)
    (classpathId : ClasspathId) (jars : List String) {entries : List ClasspathEntry}
    (hentries : ∀ e ∈ entries, e.Placed roles) :
    (m.setClasspath classpathId jars entries).Placed roles id where
  source := hm.source
  roots := hm.roots
  entries := fun cp e he => by
    by_cases hcp : cp = classpathId
    · subst hcp
      simp only [ModuleIndex.classpathEntries, ModuleIndex.setClasspath, AList.lookup_insert,
        Option.map_some, Option.getD_some] at he
      exact hentries e he
    · simp only [ModuleIndex.classpathEntries, ModuleIndex.setClasspath,
        AList.lookup_insert_ne hcp] at he
      exact hm.entries cp e he

theorem placed_addClasspathBucket {id : ModuleId} {m : ModuleIndex} (hm : m.Placed roles id)
    (classpathId : ClasspathId) {p : BucketPtr} (hp : roles[p]? = some .archive) :
    (m.addClasspathBucket classpathId p).Placed roles id := by
  refine placed_setClasspath hm _ _ fun e he => ?_
  rcases List.mem_append.mp he with hold | hnew
  · refine hm.entries classpathId e ?_
    rw [ModuleIndex.classpathEntries]
    cases hcp : m.classpaths.lookup classpathId with
    | none => rw [hcp] at hold; cases hold
    | some entry => rw [hcp] at hold; exact hold
  · rw [List.mem_singleton.mp hnew]
    exact hp

theorem placed_setSourceRoots {id : ModuleId} {m : ModuleIndex} (hm : m.Placed roles id)
    {entries : List (SourceRootId × SourceRootIndex)} (hasher : RandomState)
    (hentries : ∀ e ∈ entries, roles[e.2.bucket]? = some (.root id e.1)) :
    (m.setSourceRoots entries hasher).Placed roles id where
  source := hm.source
  roots := fun r root hr => by
    rcases FiniteMap.mem_of_lookup_foldl_insert hr with hmem | hnone
    · exact hentries _ hmem
    · cases hnone
  entries := hm.entries

theorem WellPlaced.cacheJar (h : core.WellPlaced roles) (path : String) {entry : ClasspathEntry}
    (hentry : entry.Placed roles) : (core.cacheJar path entry).WellPlaced roles where
  length := h.length
  modules := h.modules
  jars := fun path' e he => by
    by_cases hp : path' = path
    · subst hp
      obtain rfl := Option.some.inj ((AList.lookup_insert core.jarCache).symm.trans he)
      exact hentry
    · exact h.jars path' e ((AList.lookup_insert_ne hp).symm.trans he)
  jdk := h.jdk

theorem WellPlaced.getOrIndexJar (h : core.WellPlaced roles) (path : String)
    (resolution : JarResolution) : ∃ roles', roles <+: roles' ∧
      (core.getOrIndexJar path resolution).2.WellPlaced roles' ∧
      (core.getOrIndexJar path resolution).1.Placed roles' := by
  have halloc (bucket : BucketIndex) : ∃ roles', roles <+: roles' ∧
      ((core.alloc bucket).2.cacheJar path (.overlay (core.alloc bucket).1)).WellPlaced roles' ∧
      (ClasspathEntry.overlay (core.alloc bucket).1).Placed roles' :=
    ⟨roles ++ [BucketRole.archive], List.prefix_append roles [BucketRole.archive],
      (h.alloc bucket .archive).cacheJar path (h.fresh bucket .archive), h.fresh bucket .archive⟩
  unfold WorkspaceCore.getOrIndexJar
  split
  · rename_i existing hcached
    exact ⟨roles, List.prefix_refl _, h, h.jars path existing hcached⟩
  · cases resolution with
    | artifact id => exact ⟨roles, List.prefix_refl _, h.cacheJar path trivial, trivial⟩
    | indexed classes => exact halloc _
    | failed => exact halloc _

theorem WellPlaced.getOrIndexJars (h : core.WellPlaced roles) (resolve : String → JarResolution)
    (paths : List String) : ∃ roles', roles <+: roles' ∧
      (WorkspaceCore.getOrIndexJars resolve core paths).2.WellPlaced roles' ∧
      ∀ e ∈ (WorkspaceCore.getOrIndexJars resolve core paths).1, e.Placed roles' := by
  induction paths generalizing core roles with
  | nil => exact ⟨roles, List.prefix_refl _, h, fun e he => by cases he⟩
  | cons path paths ih =>
    obtain ⟨roles₁, hpre₁, h₁, hentry⟩ := h.getOrIndexJar path (resolve path)
    obtain ⟨roles₂, hpre₂, h₂, hentries⟩ := ih h₁
    refine ⟨roles₂, hpre₁.trans hpre₂, h₂, fun e he => ?_⟩
    rcases List.mem_cons.mp he with rfl | hmem
    · exact placed_entry_mono hpre₂ hentry
    · exact hentries e hmem

theorem WellPlaced.allocRoots (h : core.WellPlaced roles) (module : ModuleId)
    (roots : List (SourceRootId × ClasspathId)) : ∃ roles', roles <+: roles' ∧
      (core.allocRoots roots).2.WellPlaced roles' ∧
      ∀ e ∈ (core.allocRoots roots).1, roles'[e.2.bucket]? = some (.root module e.1) := by
  induction roots generalizing core roles with
  | nil => exact ⟨roles, List.prefix_refl _, h, fun e he => by cases he⟩
  | cons root roots ih =>
    obtain ⟨id, classpath⟩ := root
    obtain ⟨roles', hpre, h', hentries⟩ := ih (h.alloc .new (.root module id))
    refine ⟨roles', (List.prefix_append ..).trans hpre, h', fun e he => ?_⟩
    rcases List.mem_cons.mp he with rfl | hmem
    · exact getElem?_of_prefix hpre (h.fresh .new (.root module id))
    · exact hentries e hmem

theorem WellPlaced.registerModuleSourceRoots (h : core.WellPlaced roles) (module : ModuleId)
    (roots : List (SourceRootId × ClasspathId)) (hasher : RandomState) :
    PlacedAfter roles (core.registerModuleSourceRoots module roots hasher) := by
  obtain ⟨roles₁, hpre₁, h₁⟩ := h.ensureModule module (defaultModuleName module)
  obtain ⟨roles₂, hpre₂, h₂, hentries⟩ := h₁.allocRoots module roots
  have hm := placed_module_mono hpre₂ (WellPlaced.ensured module _ h₁)
  exact ⟨roles₂, hpre₁.trans hpre₂, h₂.setModule (placed_setSourceRoots hm hasher hentries)⟩

theorem WellPlaced.addJarClasses (h : core.WellPlaced roles) (module : ModuleId)
    (classes : List ClassMetadata) : PlacedAfter roles (core.addJarClasses module classes) := by
  obtain ⟨roles₁, hpre₁, h₁⟩ := h.ensureModule module (defaultModuleName module)
  have h₂ := h₁.alloc (bucketFromArchiveData classes) .archive
  have hm := placed_module_mono (List.prefix_append roles₁ [BucketRole.archive]) (WellPlaced.ensured module _ h₁)
  exact ⟨roles₁ ++ [BucketRole.archive], hpre₁.trans (List.prefix_append roles₁ [BucketRole.archive]), h₂.setModule
    (placed_addClasspathBucket hm .main (h₁.fresh (bucketFromArchiveData classes) .archive))⟩

theorem WellPlaced.addJdkClasses (h : core.WellPlaced roles) (classes : List ClassMetadata) :
    PlacedAfter roles (core.addJdkClasses classes) := by
  have h' := h.alloc (bucketFromArchiveData classes) .archive
  refine ⟨roles ++ [BucketRole.archive], List.prefix_append roles [BucketRole.archive], h'.length, h'.modules, h'.jars,
    ?_⟩
  rintro p ⟨⟩
  exact h.fresh (bucketFromArchiveData classes) .archive

theorem WellPlaced.setModuleClasspath (h : core.WellPlaced roles) (module : ModuleId)
    (classpathId : ClasspathId) (jarPaths : List String) (resolve : String → JarResolution) :
    PlacedAfter roles (core.setModuleClasspath module classpathId jarPaths resolve) := by
  obtain ⟨roles', hpre, h', hentries⟩ := h.getOrIndexJars resolve jarPaths
  obtain ⟨roles'', hpre', h''⟩ := h'.changeModule module
    (f := fun m => m.setClasspath classpathId jarPaths
      (WorkspaceCore.getOrIndexJars resolve core jarPaths).1)
    fun roles'' m hpre' hm => placed_setClasspath hm _ _ fun e he =>
      placed_entry_mono hpre' (hentries e he)
  exact ⟨roles'', hpre.trans hpre', h''⟩

/-- Every call keeps the pointers in their places. -/
theorem WellPlaced.mutate (h : core.WellPlaced roles) (m : Mutation) :
    PlacedAfter roles (core.mutate m).1 := by
  cases m with
  | ensureModule id name => exact h.ensureModule id name
  | updateSource module origin classes declarations => exact h.changeBucket module none _
  | updateSourceInContext module sourceRoot origin classes declarations =>
    exact h.changeBucket module sourceRoot _
  | removeSourceOrigin module origin => exact h.changeBucket module none _
  | removeSourceOriginInContext module sourceRoot origin => exact h.changeBucket module sourceRoot _
  | addJdkClasses classes => exact h.addJdkClasses classes
  | setJdkArtifact artifactId =>
    exact ⟨roles, List.prefix_refl _, h.length, h.modules, h.jars, fun p hp => by cases hp⟩
  | addJarClasses module classes => exact h.addJarClasses module classes
  | getOrIndexJar path resolution =>
    obtain ⟨roles', hpre, h', -⟩ := h.getOrIndexJar path resolution
    exact ⟨roles', hpre, h'⟩
  | setModuleClasspath module classpathId jarPaths resolve =>
    exact h.setModuleClasspath module classpathId jarPaths resolve
  | setModuleDependencies module deps =>
    exact ⟨roles, List.prefix_refl _, h.length, h.modules, h.jars, h.jdk⟩
  | registerModuleSourceRoots module roots hasher =>
    exact h.registerModuleSourceRoots module roots hasher
  | setModuleActiveClasspath module classpathId =>
    exact h.changeModule module (f := fun m => m.setActiveClasspath classpathId)
      fun _ _ _ hm => ⟨hm.source, hm.roots, hm.entries⟩

theorem WellPlaced.dependencyLayers (h : core.WellPlaced roles) (deps : List ModuleId) :
    PlacedAfter roles (core.dependencyLayers deps).2 := by
  induction deps generalizing core roles with
  | nil => exact ⟨roles, List.prefix_refl _, h⟩
  | cons dep deps ih => exact (h.ensureModule dep (defaultModuleName dep)).trans fun _ h' => ih h'

theorem WellPlaced.buildScopeSnapshot (h : core.WellPlaced roles) (key : AnalysisContextKey) :
    PlacedAfter roles (core.buildScopeSnapshot key).2 :=
  (h.ensureModule key.moduleId _).trans fun _ h₁ =>
    (h₁.ensureModule key.moduleId _).trans fun _ h₂ => h₂.dependencyLayers _

theorem wellPlaced_new : WellPlaced new [.source .root] where
  length := rfl
  modules := fun id m hm => by
    by_cases hid : id = .root
    · subst hid
      obtain rfl := Option.some.inj ((AList.lookup_insert _).symm.trans hm)
      exact placed_new .root "root" rfl
    · rw [new, AList.lookup_insert_ne hid] at hm
      cases hm
  jars := fun path e he => by cases he
  jdk := fun p hp => by cases hp

/-! ## Calls that report no change -/

theorem set_deref (core : WorkspaceCore) (p : BucketPtr) :
    core.buckets.set p (core.deref p) = core.buckets := by
  refine List.ext_getElem? fun i => ?_
  rw [List.getElem?_set]
  split
  · rename_i hp
    subst hp
    split
    · rename_i hlt
      rw [deref, List.getElem?_eq_getElem hlt, Option.getD_some]
    · rename_i hge
      rw [List.getElem?_eq_none (Nat.le_of_not_lt hge)]
  · rfl

theorem changeBucket_eq (core : WorkspaceCore) (module : ModuleId)
    (sourceRoot : Option SourceRootId) (f : BucketIndex → BucketIndex × Bool) {p : BucketPtr}
    (hp : (core.ensureModule module (defaultModuleName module)).1.bucketForRoot sourceRoot = p) :
    core.changeBucket module sourceRoot f =
      ({ core.withModule module with
          buckets := (core.withModule module).buckets.set p (f ((core.withModule module).deref p)).1 },
        (f ((core.withModule module).deref p)).2) := by
  subst hp
  rfl

theorem grown_changeBucket {module : ModuleId} {sourceRoot : Option SourceRootId}
    {f : BucketIndex → BucketIndex × Bool} (hf : ∀ b, (f b).2 = false → (f b).1 = b)
    (h : (core.changeBucket module sourceRoot f).2 = false) :
    Grown core (core.changeBucket module sourceRoot f).1 := by
  rw [changeBucket_eq core module sourceRoot f rfl] at h ⊢
  rw [hf _ h, set_deref]
  exact grown_ensureModule core module (defaultModuleName module)

theorem bucket_updateSource_of_false (origin : ClassOrigin) (classes : List ClassMetadata)
    (declarations : Option SourceDeclarationBatch) (b : BucketIndex)
    (h : (b.updateSourceWithDeclarations origin classes declarations).2 = false) :
    (b.updateSourceWithDeclarations origin classes declarations).1 = b := by
  obtain ⟨s, hs⟩ := b
  simp only [BucketIndex.updateSourceWithDeclarations, BucketIndex.mk.injEq] at h ⊢
  exact BucketState.updateSource_of_false h

theorem bucket_removeByOrigin_of_false (origin : ClassOrigin) (b : BucketIndex)
    (h : (b.removeByOrigin origin).2 = false) : (b.removeByOrigin origin).1 = b := by
  obtain ⟨s, hs⟩ := b
  simp only [BucketIndex.removeByOrigin, BucketIndex.mk.injEq, BucketState.removeByOrigin] at h ⊢
  split at h
  · rfl
  · cases h

theorem grown_getOrIndexJar (core : WorkspaceCore) (path : String) (resolution : JarResolution) :
    Grown core (core.getOrIndexJar path resolution).2 := by
  have hcached (core' : WorkspaceCore) (entry : ClasspathEntry) (h : Grown core core') :
      Grown core (core'.cacheJar path entry) := ⟨h.buckets, h.modules, h.graph, h.jdk⟩
  unfold getOrIndexJar
  split
  · exact .refl core
  · cases resolution with
    | artifact id => exact hcached _ _ (.refl core)
    | indexed classes => exact hcached _ _ (grown_alloc core _)
    | failed => exact hcached _ _ (grown_alloc core _)

/-- A call that does not invalidate the caches leaves every scope as it was. -/
theorem grown_mutate {m : Mutation} (h : (core.mutate m).2 = false) :
    Grown core (core.mutate m).1 := by
  cases m with
  | ensureModule id name => exact grown_ensureModule core id name
  | updateSource module origin classes declarations =>
    exact grown_changeBucket (bucket_updateSource_of_false origin classes declarations) h
  | updateSourceInContext module sourceRoot origin classes declarations =>
    exact grown_changeBucket (bucket_updateSource_of_false origin classes declarations) h
  | removeSourceOrigin module origin =>
    exact grown_changeBucket (bucket_removeByOrigin_of_false origin) h
  | removeSourceOriginInContext module sourceRoot origin =>
    exact grown_changeBucket (bucket_removeByOrigin_of_false origin) h
  | getOrIndexJar path resolution => exact grown_getOrIndexJar core path resolution
  | _ => cases h

/-! ## What is shown stays -/

theorem map_deref_of_grown (h : Grown core core') {layers : List (ScopeLayer BucketPtr)}
    (hlt : ∀ p, .overlay p ∈ layers → p < core.buckets.length) :
    layers.map (ScopeLayer.map core'.deref) = layers.map (ScopeLayer.map core.deref) := by
  refine List.map_congr_left fun layer hlayer => ?_
  cases layer with
  | overlay p => exact congrArg ScopeLayer.overlay (h.deref (hlt p hlayer))
  | artifact id => rfl

theorem WellPlaced.shownLayers_of_grown (hplaced : core.WellPlaced roles) (h : Grown core core')
    (id : ModuleId) (classpathId : ClasspathId) (sourceRoot : Option SourceRootId) :
    core'.shownLayers id classpathId sourceRoot = core.shownLayers id classpathId sourceRoot := by
  rcases h.modules id with heq | ⟨hnone, name, p, hmod, hp⟩
  · rcases Option.eq_none_or_eq_some (core.modules.lookup id) with hm | ⟨m, hm⟩
    · simp only [shownLayers, heq, hm]
    · rw [shownLayers_of_lookup hm, shownLayers_of_lookup (heq.trans hm)]
      exact map_deref_of_grown h fun p hp => hplaced.lt_of_mem_scopeLayers hm hp
  · rw [shownLayers_of_lookup hmod, scopeLayers_new]
    simp only [shownLayers, hnone, List.map_cons, List.map_nil, ScopeLayer.map, deref, hp,
      Option.getD_some]

theorem shownJars_of_grown (h : Grown core core') (id : ModuleId) (classpathId : ClasspathId) :
    core'.shownJars id classpathId = core.shownJars id classpathId := by
  rcases h.modules id with heq | ⟨hnone, name, p, hmod, -⟩
  · rw [shownJars, shownJars, heq]
  · simp only [shownJars, hnone, hmod]
    rfl

theorem WellPlaced.shownScope_of_grown (hplaced : core.WellPlaced roles) (h : Grown core core')
    (key : AnalysisContextKey) : core'.shownScope key = core.shownScope key := by
  have hjdk : core'.shownJdk = core.shownJdk := by
    rw [shownJdk, shownJdk, jdkLayers_of_grown h]
    exact map_deref_of_grown h fun p hp => hplaced.lt (hplaced.lt_of_mem_jdkLayers hp).2
  simp only [shownScope, shownDependencies, hplaced.shownLayers_of_grown h, shownJars_of_grown h,
    h.graph, hjdk]

end WorkspaceCore

/-! ## The scope cache -/

namespace WorkspaceIndex

structure Invariant (index : WorkspaceIndex) : Prop where
  placed : ∃ roles, index.core.WellPlaced roles
  cached : ∀ key cached, index.scopeCache.lookup key = some cached →
    index.core.buildScopeSnapshot key = (cached.2, index.core)

variable {index : WorkspaceIndex}

theorem mutate_core (index : WorkspaceIndex) (m : Mutation) :
    (index.mutate m).1.core = (index.core.mutate m).1 := by
  simp only [mutate]
  split <;> rfl

theorem mutate_snd (index : WorkspaceIndex) (m : Mutation) :
    (index.mutate m).2 = (index.core.mutate m).2 := rfl

theorem mutate_of_changed {m : Mutation} (h : (index.mutate m).2 = true) :
    (index.mutate m).1 = ⟨(index.core.mutate m).1, ∅, index.version + 1⟩ := by
  rw [mutate_snd] at h
  simp only [mutate, h, if_true]
  rfl

theorem mutate_of_unchanged {m : Mutation} (h : (index.mutate m).2 = false) :
    (index.mutate m).1 = { index with core := (index.core.mutate m).1 } := by
  rw [mutate_snd] at h
  simp only [mutate, h, Bool.false_eq_true, if_false]

theorem Invariant.mutate (h : index.Invariant) (m : Mutation) : (index.mutate m).1.Invariant := by
  obtain ⟨roles, hplaced⟩ := h.placed
  obtain ⟨roles', -, hplaced'⟩ := hplaced.mutate m
  refine ⟨⟨roles', by rwa [mutate_core]⟩, fun key cached hcached => ?_⟩
  cases hchanged : (index.mutate m).2 with
  | true =>
    rw [mutate_of_changed hchanged] at hcached
    cases hcached
  | false =>
    rw [mutate_of_unchanged hchanged] at hcached ⊢
    have hbuilt := h.cached key cached hcached
    have hgrown : WorkspaceCore.Grown (index.core.buildScopeSnapshot key).2 (index.core.mutate m).1 := by
      rw [hbuilt]
      exact WorkspaceCore.grown_mutate hchanged
    have hsame := WorkspaceCore.buildScopeSnapshot_of_grown hgrown
    rwa [hbuilt] at hsame

theorem Invariant.clearAnalysisCaches (h : index.Invariant) : index.clearAnalysisCaches.Invariant :=
  ⟨h.placed, fun key cached hcached => by cases hcached⟩

/-- A cached scope is returned, or one is built and cached; either way it is the one that is built
from the core that is left. -/
theorem Invariant.scope_spec (h : index.Invariant) (key : AnalysisContextKey) :
    (index.scopeForAnalysisContext key).1 = (index.core.buildScopeSnapshot key).1 ∧
      (index.scopeForAnalysisContext key).2.core = (index.core.buildScopeSnapshot key).2 := by
  rcases Option.eq_none_or_eq_some ((index.scopeCache.lookup key).filter
    (fun cached => cached.1 = index.version)) with hmiss | ⟨cached, hhit⟩
  · simp only [scopeForAnalysisContext, hmiss, if_true, and_self]
  · have hbuilt := h.cached key cached (Option.filter_eq_some_iff.mp hhit).1
    simp only [scopeForAnalysisContext, hhit, hbuilt, and_self]

theorem Invariant.scopeForAnalysisContext (h : index.Invariant) (key : AnalysisContextKey) :
    (index.scopeForAnalysisContext key).2.Invariant := by
  rcases Option.eq_none_or_eq_some ((index.scopeCache.lookup key).filter
    (fun cached => cached.1 = index.version)) with hmiss | ⟨cached, hhit⟩
  · have hself := WorkspaceCore.buildScopeSnapshot_of_grown
      (.refl (index.core.buildScopeSnapshot key).2)
    obtain ⟨roles, hplaced⟩ := h.placed
    obtain ⟨roles', -, hplaced'⟩ := hplaced.buildScopeSnapshot key
    simp only [WorkspaceIndex.scopeForAnalysisContext, hmiss, if_true]
    refine ⟨⟨roles', hplaced'⟩, fun key' cached hcached => ?_⟩
    by_cases hkey : key' = key
    · subst hkey
      obtain rfl := Option.some.inj ((AList.lookup_insert index.scopeCache).symm.trans hcached)
      exact hself
    · have hold := h.cached key' cached ((AList.lookup_insert_ne hkey).symm.trans hcached)
      have hgrown : WorkspaceCore.Grown (index.core.buildScopeSnapshot key').2
          (index.core.buildScopeSnapshot key).2 := by
        rw [hold]
        exact WorkspaceCore.grown_buildScopeSnapshot index.core key
      have hsame := WorkspaceCore.buildScopeSnapshot_of_grown hgrown
      rwa [hold] at hsame
  · simp only [WorkspaceIndex.scopeForAnalysisContext, hhit]
    exact h

theorem Invariant.apply (h : index.Invariant) (op : Op) : (index.apply op).Invariant := by
  cases op with
  | mutate m => exact h.mutate m
  | scopeForAnalysisContext key => exact h.scopeForAnalysisContext key
  | clearAnalysisCaches => exact h.clearAnalysisCaches

theorem Invariant.foldl_apply (h : index.Invariant) (ops : List Op) :
    (ops.foldl WorkspaceIndex.apply index).Invariant := by
  induction ops generalizing index with
  | nil => exact h
  | cons op ops ih => exact ih (h.apply op)

theorem invariant_new : new.Invariant :=
  ⟨⟨_, WorkspaceCore.wellPlaced_new⟩, fun key cached hcached => by cases hcached⟩

theorem invariant_run (ops : List Op) : (run ops).Invariant :=
  invariant_new.foldl_apply ops

theorem Invariant.viewForAnalysisContext_eq (h : index.Invariant) (readers : ArtifactReaders)
    (key : AnalysisContextKey) :
    index.viewForAnalysisContext readers key = ⟨index.core.shownScope key, readers⟩ := by
  obtain ⟨roles, hplaced⟩ := h.placed
  obtain ⟨hsnapshot, hcore⟩ := h.scope_spec key
  have hgrown := WorkspaceCore.grown_buildScopeSnapshot index.core key
  simp only [viewForAnalysisContext, hsnapshot, hcore,
    WorkspaceCore.map_buildScopeSnapshot (.refl (index.core.buildScopeSnapshot key).2),
    hplaced.shownScope_of_grown hgrown]

end WorkspaceIndex

end JavaAnalyzer.Index
