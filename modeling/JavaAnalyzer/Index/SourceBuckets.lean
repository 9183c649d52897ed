import JavaAnalyzer.Index.WorkspacePublish

/-! # Where the classes of a source file are

The source buckets of a workspace are the buckets its modules write to. Some rule selects a module and a
source root for every source file (`select`); the classes of a file are in one place if they are found
only in the bucket that is selected for it (`OnlySelected`). -/

namespace JavaAnalyzer.Index
set_option autoImplicit false

/-! ## One bucket -/

namespace BucketIndex

/-- The bucket has a class of the origin. -/
def Holds (b : BucketIndex) (o : ClassOrigin) : Prop :=
  ∃ c ∈ b.iterAllClasses, c.origin = o

variable {b : BucketIndex} {o o' : ClassOrigin}

theorem not_holds_new : ¬ new.Holds o := by
  intro h
  obtain ⟨c, hc, -⟩ := h
  cases hc

theorem Holds.of_update {classes : List ClassMetadata} {declarations : Option SourceDeclarationBatch}
    (h : (b.updateSourceWithDeclarations o classes declarations).1.Holds o') :
    b.Holds o' ∨ ∃ c ∈ classes, c.origin = o' := by
  obtain ⟨c, hc, horigin⟩ := h
  cases hchanged : (b.inner.updateSourceWithDeclarations o classes declarations).2 with
  | false =>
    have hsame : (b.updateSourceWithDeclarations o classes declarations).1.inner = b.inner :=
      BucketState.updateSource_of_false hchanged
    refine .inl ⟨c, ?_, horigin⟩
    rwa [iterAllClasses, hsame] at hc
  | true =>
    have hget := BucketState.getClass_updateSource b.invariant o classes declarations c.internalName
      hchanged
    rw [mem_iterAllClasses] at hc
    rw [getClass, updateSourceWithDeclarations, hget, Option.or_eq_some_iff] at hc
    obtain hnew | ⟨-, hold⟩ := hc
    · have hmem := (BucketState.mem_of_lastNamed hnew).1
      exact .inr ⟨c, (List.mem_filter.mp hmem).1, horigin⟩
    · exact .inl ⟨c, mem_iterAllClasses.mpr (Option.filter_eq_some_iff.mp hold).1, horigin⟩

theorem Holds.of_remove (h : (b.removeByOrigin o).1.Holds o') : b.Holds o' := by
  obtain ⟨c, hc, horigin⟩ := h
  rw [mem_iterAllClasses, getClass, removeByOrigin,
    BucketState.getClass_removeByOrigin b.invariant] at hc
  exact ⟨c, mem_iterAllClasses.mpr (Option.filter_eq_some_iff.mp hc).1, horigin⟩

end BucketIndex

namespace WorkspaceCore

variable {core core' : WorkspaceCore} {roles : List BucketRole}

/-! ## All source buckets -/

/-- The bucket is one of those a module writes to. -/
def SourceBucket (core : WorkspaceCore) (p : BucketPtr) : Prop :=
  ∃ id m sourceRoot, core.modules.lookup id = some m ∧ m.bucketForRoot sourceRoot = p

/-- The bucket of a module and a source root. -/
def selectedBucket (core : WorkspaceCore) (place : ModuleId × Option SourceRootId) :
    Option BucketPtr :=
  (core.modules.lookup place.1).map fun m => m.bucketForRoot place.2

/-- The classes of every source file are found only in the bucket selected for it. -/
def OnlySelected (core : WorkspaceCore) (select : String → ModuleId × Option SourceRootId) : Prop :=
  ∀ uri p, core.SourceBucket p → (core.deref p).Holds (.sourceFile uri) →
    core.selectedBucket (select uri) = some p

/-- No source bucket has a class. -/
def Blank (core : WorkspaceCore) : Prop :=
  ∀ p, core.SourceBucket p → core.deref p = .new

theorem Blank.onlySelected (h : core.Blank) (select : String → ModuleId × Option SourceRootId) :
    core.OnlySelected select := by
  intro uri p hp hholds
  rw [h p hp] at hholds
  exact absurd hholds BucketIndex.not_holds_new

theorem WellPlaced.sourceBucket_lt (h : core.WellPlaced roles) {p : BucketPtr}
    (hp : core.SourceBucket p) : p < core.buckets.length := by
  obtain ⟨id, m, sourceRoot, hm, rfl⟩ := hp
  obtain ⟨r, hr, -⟩ := placed_bucketForRoot (h.modules id m hm) sourceRoot
  exact h.lt hr

/-- A source bucket of a core that has grown was one before, or is empty. -/
theorem Grown.sourceBucket (h : Grown core core') {p : BucketPtr} (hp : core'.SourceBucket p) :
    core.SourceBucket p ∨ core'.deref p = .new := by
  obtain ⟨id, m, sourceRoot, hm, rfl⟩ := hp
  obtain hsame | ⟨-, name, q, hnew, hq⟩ := h.modules id
  · exact .inl ⟨id, m, sourceRoot, hsame.symm.trans hm, rfl⟩
  · right
    obtain rfl := Option.some.inj (hnew.symm.trans hm)
    have hbucket : (ModuleIndex.new id name q).bucketForRoot sourceRoot = q := by
      cases sourceRoot <;> rfl
    rw [hbucket, WorkspaceCore.deref, hq, Option.getD_some]

theorem Blank.of_grown (hblank : core.Blank) (hplaced : core.WellPlaced roles)
    (h : Grown core core') : core'.Blank := by
  intro p hp
  obtain hold | hnew := h.sourceBucket hp
  · rw [h.deref (hplaced.sourceBucket_lt hold)]
    exact hblank p hold
  · exact hnew

theorem selectedBucket_of_keeps (h : Keeps core core') {place : ModuleId × Option SourceRootId}
    {p : BucketPtr} (hp : core.selectedBucket place = some p) :
    core'.selectedBucket place = some p := by
  obtain ⟨m, hm, rfl⟩ := Option.map_eq_some_iff.mp hp
  rw [selectedBucket, h.modules _ m hm]
  rfl

theorem OnlySelected.of_grown {select : String → ModuleId × Option SourceRootId}
    (honly : core.OnlySelected select) (hplaced : core.WellPlaced roles) (h : Grown core core') :
    core'.OnlySelected select := by
  intro uri p hp hholds
  obtain hold | hnew := h.sourceBucket hp
  · rw [h.deref (hplaced.sourceBucket_lt hold)] at hholds
    exact selectedBucket_of_keeps h.keeps (honly uri p hold hholds)
  · rw [hnew] at hholds
    exact absurd hholds BucketIndex.not_holds_new

/-- One bucket is written: what is new in it belongs there. -/
theorem OnlySelected.setBucket {select : String → ModuleId × Option SourceRootId}
    (honly : core.OnlySelected select) {p : BucketPtr} (hlt : p < core.buckets.length)
    {bucket : BucketIndex} (hbucket : ∀ uri, bucket.Holds (.sourceFile uri) →
      (core.deref p).Holds (.sourceFile uri) ∨ core.selectedBucket (select uri) = some p) :
    (core.setBucket p bucket).OnlySelected select := by
  intro uri q hq hholds
  have hsource : core.SourceBucket q := hq
  by_cases heq : q = p
  · subst heq
    rw [deref_setBucket_self hlt] at hholds
    obtain hold | hselected := hbucket uri hholds
    · exact honly uri q hsource hold
    · exact hselected
  · rw [deref_setBucket_ne heq] at hholds
    exact honly uri q hsource hholds

theorem selectedBucket_withModule (core : WorkspaceCore) (module : ModuleId)
    (sourceRoot : Option SourceRootId) : (core.withModule module).selectedBucket (module, sourceRoot) =
      some ((core.ensureModule module (defaultModuleName module)).1.bucketForRoot sourceRoot) := by
  rw [selectedBucket, withModule, ensureModule_lookup]
  rfl

/-- A bucket is changed, and what is new in it belongs there. -/
theorem OnlySelected.changeBucket {select : String → ModuleId × Option SourceRootId}
    (honly : core.OnlySelected select) (hplaced : core.WellPlaced roles) (module : ModuleId)
    (sourceRoot : Option SourceRootId) {f : BucketIndex → BucketIndex × Bool}
    (hf : ∀ b uri, (f b).1.Holds (.sourceFile uri) →
      b.Holds (.sourceFile uri) ∨ select uri = (module, sourceRoot)) :
    (core.changeBucket module sourceRoot f).1.OnlySelected select := by
  obtain ⟨roles', -, hplaced'⟩ := hplaced.ensureModule module (defaultModuleName module)
  have hgrown := grown_ensureModule core module (defaultModuleName module)
  have hselected := selectedBucket_withModule core module sourceRoot
  rw [changeBucket_eq core module sourceRoot f rfl]
  refine (honly.of_grown hplaced hgrown).setBucket ?_ fun uri hholds => ?_
  · exact hplaced'.sourceBucket_lt
      ⟨module, _, sourceRoot, ensureModule_lookup core module _, rfl⟩
  · obtain hold | hplace := hf _ uri hholds
    · exact .inl hold
    · right
      rw [hplace]
      exact hselected

/-! ## The calls on a source bucket -/

variable {select : String → ModuleId × Option SourceRootId}

theorem OnlySelected.updateSource (honly : core.OnlySelected select) (hplaced : core.WellPlaced roles)
    {module : ModuleId} {sourceRoot : Option SourceRootId} {uri : String}
    {classes : List ClassMetadata} (hclasses : ∀ c ∈ classes, c.origin = .sourceFile uri)
    (hselect : select uri = (module, sourceRoot)) (declarations : Option SourceDeclarationBatch) :
    (core.updateSourceInContext module sourceRoot (.sourceFile uri) classes declarations).1.OnlySelected
      select := by
  refine honly.changeBucket hplaced module sourceRoot fun b other hholds => ?_
  obtain hold | ⟨c, hc, horigin⟩ := hholds.of_update
  · exact .inl hold
  · right
    obtain rfl := ClassOrigin.sourceFile.inj ((hclasses c hc).symm.trans horigin)
    exact hselect

theorem OnlySelected.removeSourceOrigin (honly : core.OnlySelected select)
    (hplaced : core.WellPlaced roles) (module : ModuleId) (sourceRoot : Option SourceRootId)
    (origin : ClassOrigin) :
    (core.removeSourceOriginInContext module sourceRoot origin).1.OnlySelected select :=
  honly.changeBucket hplaced module sourceRoot fun _ _ hholds => .inl hholds.of_remove

/-! ## Setting up modules -/

theorem Blank.setModule (hblank : core.Blank) {id : ModuleId} {m : ModuleIndex}
    (hm : ∀ sourceRoot, core.deref (m.bucketForRoot sourceRoot) = .new) :
    (core.setModule id m).Blank := by
  intro p hp
  obtain ⟨other, m', sourceRoot, hm', rfl⟩ := hp
  by_cases heq : other = id
  · subst heq
    obtain rfl := Option.some.inj ((AList.lookup_insert core.modules).symm.trans hm')
    exact hm sourceRoot
  · exact hblank _ ⟨other, m', sourceRoot, (AList.lookup_insert_ne heq).symm.trans hm', rfl⟩

theorem allocRoots_spec (core : WorkspaceCore) (roots : List (SourceRootId × ClasspathId)) :
    Grown core (core.allocRoots roots).2 ∧ ∀ e ∈ (core.allocRoots roots).1,
      (core.allocRoots roots).2.buckets[e.2.bucket]? = some .new := by
  induction roots generalizing core with
  | nil => exact ⟨.refl core, fun e he => by cases he⟩
  | cons root roots ih =>
    obtain ⟨id, classpath⟩ := root
    obtain ⟨hgrown, hentries⟩ := ih (core.alloc .new).2
    refine ⟨(grown_alloc core .new).trans hgrown, fun e he => ?_⟩
    obtain heq | hmem := List.mem_cons.mp he
    · subst heq
      exact getElem?_of_prefix hgrown.buckets List.getElem?_concat_length
    · exact hentries e hmem

theorem Blank.registerModuleSourceRoots (hblank : core.Blank) (hplaced : core.WellPlaced roles)
    (module : ModuleId) (roots : List (SourceRootId × ClasspathId)) (hasher : RandomState) :
    (core.registerModuleSourceRoots module roots hasher).Blank := by
  obtain ⟨roles', -, hplaced'⟩ := hplaced.ensureModule module (defaultModuleName module)
  have hensured := grown_ensureModule core module (defaultModuleName module)
  have hblank' := hblank.of_grown hplaced hensured
  obtain ⟨hgrown, hentries⟩ :=
    allocRoots_spec (core.ensureModule module (defaultModuleName module)).2 roots
  have hblank'' := hblank'.of_grown hplaced' hgrown
  have hlookup := hgrown.kept (ensureModule_lookup core module (defaultModuleName module))
  refine hblank''.setModule fun sourceRoot => ?_
  unfold ModuleIndex.bucketForRoot
  split
  · rename_i root hroot
    obtain ⟨r, -, hr⟩ := Option.bind_eq_some_iff.mp hroot
    obtain hmem | hnone := FiniteMap.mem_of_lookup_foldl_insert hr
    · rw [deref, hentries _ hmem, Option.getD_some]
    · cases hnone
  · exact hblank'' _ ⟨module, _, none, hlookup, rfl⟩

theorem Blank.changeModule (hblank : core.Blank) (hplaced : core.WellPlaced roles) (id : ModuleId)
    {f : ModuleIndex → ModuleIndex}
    (hf : ∀ m sourceRoot, (f m).bucketForRoot sourceRoot = m.bucketForRoot sourceRoot) :
    (core.changeModule id f).Blank := by
  have hgrown := grown_ensureModule core id (defaultModuleName id)
  have hblank' := hblank.of_grown hplaced hgrown
  refine hblank'.setModule fun sourceRoot => ?_
  rw [hf]
  exact hblank' _ ⟨id, _, sourceRoot, ensureModule_lookup core id _, rfl⟩

theorem grown_getOrIndexJars (resolve : String → JarResolution) (core : WorkspaceCore)
    (paths : List String) : Grown core (getOrIndexJars resolve core paths).2 := by
  induction paths generalizing core with
  | nil => exact .refl core
  | cons path paths ih =>
    exact (grown_getOrIndexJar core path (resolve path)).trans (ih _)

theorem Blank.setModuleClasspath (hblank : core.Blank) (hplaced : core.WellPlaced roles)
    (module : ModuleId) (classpathId : ClasspathId) (jarPaths : List String)
    (resolve : String → JarResolution) :
    (core.setModuleClasspath module classpathId jarPaths resolve).Blank := by
  obtain ⟨roles', -, hplaced', -⟩ := hplaced.getOrIndexJars resolve jarPaths
  have hblank' := hblank.of_grown hplaced (grown_getOrIndexJars resolve core jarPaths)
  exact hblank'.changeModule hplaced' module fun m sourceRoot => rfl

end WorkspaceCore

end JavaAnalyzer.Index
