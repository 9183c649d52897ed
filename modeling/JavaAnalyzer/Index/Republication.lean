import JavaAnalyzer.Index.DeclarationRanges
import JavaAnalyzer.Index.WorkspacePublish

/-! # Publishing a list a second time

`same_classes_for_origin` compares the list with the classes stored for the origin, of which there is one for
every name. So a list is found unchanged when the classes of it that come through the second time have distinct
names and the origin they are published for (`Settles`). -/

namespace JavaAnalyzer.Index
set_option autoImplicit false

namespace BucketState
open KeyIndex

variable {s : BucketState} {o : ClassOrigin} {classes : List ClassMetadata}

/-! ## The classes of an origin -/

/-- The classes stored for an origin, in the order of their slots in `by_origin`. -/
def originClasses (s : BucketState) (o : ClassOrigin) : List ClassMetadata :=
  s.resolveClassIdsLocked (s.byOrigin.entries o)

theorem originClasses_length (h : s.Invariant) (o : ClassOrigin) :
    (s.originClasses o).length = (s.byOrigin.entries o).length := by
  have hall : ∀ i ∈ s.byOrigin.entries o, ((s.slot i).map StoredClass.materialize).isSome := by
    intro i hi
    obtain ⟨c, hc, -⟩ := keyOf_eq_some.mp ((h.origin.mem_iff o i).mp hi)
    rw [hc]
    rfl
  rw [originClasses, resolveClassIdsLocked, List.length_filterMap_eq_countP, List.countP_eq_length]
  exact hall

theorem originClasses_names_nodup (h : s.Invariant) (o : ClassOrigin) :
    ((s.originClasses o).map ClassMetadata.internalName).Nodup :=
  h.resolve_names_nodup (h.origin.nodup o)

/-- Sorting by name brings permutations with distinct names into the same order. -/
theorem sortedByInternalName_eq_iff {left right : List ClassMetadata}
    (hnodup : (left.map ClassMetadata.internalName).Nodup) :
    sortedByInternalName left = sortedByInternalName right ↔ left.Perm right := by
  have hleft : (sortedByInternalName left).Perm left := List.perm_insertionSort _ _
  have hright : (sortedByInternalName right).Perm right := List.perm_insertionSort _ _
  constructor
  · intro he
    exact (hleft.symm.trans (.of_eq he)).trans hright
  · intro hperm
    refine List.Perm.eq_of_pairwise ?_ (List.pairwise_insertionSort _ left) (List.pairwise_insertionSort _ right)
      ((hleft.trans hperm).trans hright.symm)
    intro c d hc hd hcd hdc
    exact List.inj_on_of_nodup_map hnodup (hleft.mem_iff.mp hc) (hperm.mem_iff.mpr (hright.mem_iff.mp hd))
      (le_antisymm hcd hdc)

theorem sameClassesForOrigin_iff (h : s.Invariant) (hne : classes ≠ []) :
    s.sameClassesForOrigin o classes = true ↔ (s.originClasses o).Perm classes := by
  have hlength := originClasses_length h o
  have hsorted : sortedByInternalName (s.originClasses o) = sortedByInternalName classes ↔
      (s.originClasses o).Perm classes := sortedByInternalName_eq_iff (originClasses_names_nodup h o)
  unfold sameClassesForOrigin
  cases hids : s.byOrigin.lookup o with
  | none =>
    refine iff_of_false (by simp) fun hperm => hne ?_
    have hnil : s.originClasses o = [] := by
      rw [originClasses, entries, hids]
      rfl
    rw [hnil] at hperm
    exact hperm.symm.eq_nil
  | some ids =>
    have hentries := entries_of_lookup hids
    rw [originClasses, hentries] at hlength hsorted
    rw [originClasses, hentries]
    simp only [Bool.and_eq_true, decide_eq_true_eq, hsorted]
    exact and_iff_right_of_imp fun hperm => hlength.symm.trans hperm.length_eq

/-! ## The classes that come through again -/

/-- What is left of the list the second time, once the first publication is written: the classes that came
through the first time and whose last namesake is not one of a jar, and those that named a class of a jar which
was of the published origin itself. -/
def republished (s : BucketState) (o : ClassOrigin) (classes : List ClassMetadata) : List ClassMetadata :=
  classes.filter fun c =>
    match lastNamed (s.withoutJarConflicts classes) c.internalName with
    | some last => !last.origin.isJar
    | none => (s.getClass c.internalName).all fun e => e.origin = o

/-- Publishing the list a second time changes nothing. -/
def Settles (s : BucketState) (o : ClassOrigin) (classes : List ClassMetadata) : Prop :=
  s.Rewrites o classes → s.republished o classes = [] ∨
    o.isJar = false ∧ ((s.republished o classes).map ClassMetadata.internalName).Nodup ∧
      ∀ c ∈ s.republished o classes, c.origin = o

theorem mem_withoutJarConflicts {c : ClassMetadata} : c ∈ s.withoutJarConflicts classes ↔
    c ∈ classes ∧ ∀ e, s.getClass c.internalName = some e → e.origin.isJar = false := by
  rw [withoutJarConflicts, List.mem_filter]
  cases s.getClass c.internalName <;> simp

/-- A name of the list that no class of the filtered list has is held by a class of a jar. -/
theorem exists_jar_of_lastNamed_eq_none {c : ClassMetadata} (hc : c ∈ classes)
    (hnone : lastNamed (s.withoutJarConflicts classes) c.internalName = none) :
    ∃ e, s.getClass c.internalName = some e ∧ e.origin.isJar = true := by
  have hnot : c ∉ s.withoutJarConflicts classes := fun hmem =>
    lastNamed_eq_none_iff.mp hnone (List.mem_map_of_mem hmem)
  rw [mem_withoutJarConflicts, not_and, not_forall] at hnot
  obtain ⟨e, he⟩ := hnot hc
  rw [Classical.not_imp, Bool.not_eq_false] at he
  exact ⟨e, he.1, he.2⟩

section Written

variable (h : s.Invariant) (hrewrites : s.Rewrites o classes) (declarations : Option SourceDeclarationBatch)
include h hrewrites

theorem getClass_written (n : String) : (s.updateSourceWithDeclarations o classes declarations).1.getClass n =
    (lastNamed (s.withoutJarConflicts classes) n).or ((s.getClass n).filter fun c => c.origin ≠ o) :=
  getClass_updateSource h o classes declarations n (by rw [updateSource_of_rewrites hrewrites])

theorem withoutJarConflicts_written :
    (s.updateSourceWithDeclarations o classes declarations).1.withoutJarConflicts classes =
      s.republished o classes := by
  rw [withoutJarConflicts, republished]
  refine List.filter_congr fun c hc => ?_
  rw [getClass_written h hrewrites]
  cases hlast : lastNamed (s.withoutJarConflicts classes) c.internalName with
  | some last => simp
  | none =>
    obtain ⟨e, he, hjar⟩ := exists_jar_of_lastNamed_eq_none hc hlast
    rw [he]
    by_cases ho : e.origin = o <;> simp [Option.filter_some, ho, hjar]

theorem mem_originClasses_written {c : ClassMetadata} :
    c ∈ (s.updateSourceWithDeclarations o classes declarations).1.originClasses o ↔
      lastNamed (s.withoutJarConflicts classes) c.internalName = some c ∧ c.origin = o := by
  rw [originClasses, mem_originClasses (h.updateSourceWithDeclarations o classes declarations),
    getClass_written h hrewrites, Option.or_eq_some_iff]
  constructor
  · rintro ⟨hlast | ⟨-, hold⟩, ho⟩
    · exact ⟨hlast, ho⟩
    · exact absurd ho (by simpa using (Option.filter_eq_some_iff.mp hold).2)
  · rintro ⟨hlast, ho⟩
    exact ⟨.inl hlast, ho⟩

theorem perm_republished_iff (hne : s.republished o classes ≠ []) :
    ((s.updateSourceWithDeclarations o classes declarations).1.originClasses o).Perm (s.republished o classes) ↔
      o.isJar = false ∧ ((s.republished o classes).map ClassMetadata.internalName).Nodup ∧
        ∀ c ∈ s.republished o classes, c.origin = o := by
  have hinv := h.updateSourceWithDeclarations o classes declarations
  have hnames := originClasses_names_nodup hinv o
  have hmem {c : ClassMetadata} := mem_originClasses_written (c := c) h hrewrites declarations
  constructor
  · intro hperm
    refine ⟨?_, (hperm.map _).nodup_iff.mp hnames, fun c hc => (hmem.mp (hperm.mem_iff.mpr hc)).2⟩
    obtain ⟨c, hc⟩ := List.exists_mem_of_ne_nil _ hne
    obtain ⟨hlast, ho⟩ := hmem.mp (hperm.mem_iff.mpr hc)
    have hkept := (List.mem_filter.mp hc).2
    rw [hlast] at hkept
    simpa [ho] using hkept
  · rintro ⟨hjar, hnodup, ho⟩
    refine (List.perm_ext_iff_of_nodup (.of_map _ hnames) (.of_map _ hnodup)).mpr fun c => ?_
    rw [hmem]
    constructor
    · rintro ⟨hlast, hco⟩
      have hfiltered := (mem_of_lastNamed hlast).1
      refine List.mem_filter.mpr ⟨(mem_withoutJarConflicts.mp hfiltered).1, ?_⟩
      rw [hlast]
      simp [hco, hjar]
    · intro hc
      refine ⟨?_, ho c hc⟩
      obtain ⟨hclasses, hkept⟩ := List.mem_filter.mp hc
      cases hlast : lastNamed (s.withoutJarConflicts classes) c.internalName with
      | none =>
        -- the namesake would be a class of a jar, and of the published origin
        obtain ⟨e, he, hejar⟩ := exists_jar_of_lastNamed_eq_none hclasses hlast
        rw [hlast, he] at hkept
        have heo : e.origin = o := by simpa using hkept
        rw [heo, hjar] at hejar
        cases hejar
      | some last =>
        obtain ⟨hfiltered, hname⟩ := mem_of_lastNamed hlast
        rw [hlast] at hkept
        have hlastMem : last ∈ s.republished o classes := by
          refine List.mem_filter.mpr ⟨(mem_withoutJarConflicts.mp hfiltered).1, ?_⟩
          rw [hname, hlast]
          exact hkept
        rw [List.inj_on_of_nodup_map hnodup hlastMem hc hname]

end Written

/-- The second publication reports no change exactly when the list settles. -/
theorem republish_unchanged_iff (h : s.Invariant) (declarations declarations' : Option SourceDeclarationBatch) :
    ((s.updateSourceWithDeclarations o classes declarations).1.updateSourceWithDeclarations o classes
      declarations').2 = false ↔ s.Settles o classes := by
  by_cases hrewrites : s.Rewrites o classes
  · have hinv := h.updateSourceWithDeclarations o classes declarations
    have hfiltered := withoutJarConflicts_written h hrewrites declarations
    rw [Settles, iff_true_intro hrewrites, true_imp_iff, updateSourceWithDeclarations, hfiltered]
    by_cases hne : s.republished o classes = []
    · simp [hne]
    · rw [← perm_republished_iff h hrewrites declarations hne, ← sameClassesForOrigin_iff hinv hne]
      cases (s.updateSourceWithDeclarations o classes declarations).1.sameClassesForOrigin o
        (s.republished o classes) <;> simp [hne]
  · rw [updateSource_of_not_rewrites hrewrites, updateSource_of_not_rewrites hrewrites]
    exact iff_of_true rfl fun hwritten => absurd hwritten hrewrites

end BucketState

/-! ## The workspace -/

namespace WorkspaceIndex

variable {index : WorkspaceIndex} (module : ModuleId) (sourceRoot : Option SourceRootId)
  (origin : ClassOrigin) (classes : List ClassMetadata) (declarations : Option SourceDeclarationBatch)

theorem ensureModule_published (index : WorkspaceIndex) :
    (index.updateSourceInContext module sourceRoot origin classes declarations).1.core.ensureModule module
        (defaultModuleName module) =
      (index.moduleOf module,
        (index.updateSourceInContext module sourceRoot origin classes declarations).1.core) := by
  refine WorkspaceCore.ensureModule_of_lookup ?_ _
  rw [updateSourceInContext_core]
  exact WorkspaceCore.ensureModule_lookup index.core module (defaultModuleName module)

/-- The bucket of the publication is the one that was written. -/
theorem Invariant.targetBucket_published (h : index.Invariant) :
    (index.updateSourceInContext module sourceRoot origin classes declarations).1.targetBucket module
        sourceRoot =
      ((index.targetBucket module sourceRoot).updateSourceWithDeclarations origin classes declarations).1 := by
  obtain ⟨⟨roles, hplaced⟩, -⟩ := h.placed_withModule module
  have hm := WorkspaceCore.ensureModule_lookup index.core module (defaultModuleName module)
  obtain ⟨r, hr, -⟩ := WorkspaceCore.placed_bucketForRoot (hplaced.modules _ _ hm) sourceRoot
  rw [targetBucket, moduleOf, WorkspaceCore.withModule, ensureModule_published, updateSourceInContext_core]
  exact WorkspaceCore.deref_setBucket_self (hplaced.lt hr) _

theorem updateSourceInContext_snd (index : WorkspaceIndex) :
    (index.updateSourceInContext module sourceRoot origin classes declarations).2 =
      ((index.targetBucket module sourceRoot).updateSourceWithDeclarations origin classes declarations).2 :=
  rfl

theorem updateSourceInContext_of_false
    (hmodule : index.core.ensureModule module (defaultModuleName module) = (index.moduleOf module, index.core))
    (hfalse : (index.updateSourceInContext module sourceRoot origin classes declarations).2 = false) :
    index.updateSourceInContext module sourceRoot origin classes declarations = (index, false) := by
  have hwith : index.core.withModule module = index.core := by rw [WorkspaceCore.withModule, hmodule]
  have hcore : (index.updateSourceInContext module sourceRoot origin classes declarations).1.core =
      index.core := by
    rw [updateSourceInContext_snd] at hfalse
    rw [updateSourceInContext_core, WorkspaceCore.bucket_updateSource_of_false _ _ _ _ hfalse, targetBucket,
      hwith, WorkspaceCore.setBucket, WorkspaceCore.set_deref]
  have hindex := mutate_of_unchanged hfalse
  rw [← mutate_core, ← updateSourceInContext, hcore] at hindex
  exact Prod.ext hindex hfalse

/-- In every reachable state, a second publication of a list reports no change and leaves the whole index as it
is, its buckets and its version among it, exactly when the list settles in the bucket it is published to.
`update_source` is the case without a source root. -/
theorem republication_noop_iff (ops : List Op) (module : ModuleId) (sourceRoot : Option SourceRootId)
    (origin : ClassOrigin) (classes : List ClassMetadata)
    (declarations declarations' : Option SourceDeclarationBatch) :
    ((run ops).updateSourceInContext module sourceRoot origin classes
        declarations).1.updateSourceInContext module sourceRoot origin classes declarations' =
      (((run ops).updateSourceInContext module sourceRoot origin classes declarations).1, false) ↔
      ((run ops).targetBucket module sourceRoot).inner.Settles origin classes := by
  have h := invariant_run ops
  have hsnd := updateSourceInContext_snd module sourceRoot origin classes declarations'
    ((run ops).updateSourceInContext module sourceRoot origin classes declarations).1
  rw [h.targetBucket_published] at hsnd
  rw [← BucketState.republish_unchanged_iff ((run ops).targetBucket module sourceRoot).invariant declarations
    declarations']
  constructor
  · intro hsame
    rw [hsame] at hsnd
    exact hsnd.symm
  · intro hfalse
    refine updateSourceInContext_of_false module sourceRoot origin classes declarations' ?_ (hsnd.trans hfalse)
    rw [moduleOf, ensureModule_published]

/-- A list that names a class twice is found changed however often it is published. -/
theorem repeated_name_republished : ¬ ∀ (ops : List Op) (module : ModuleId) (sourceRoot : Option SourceRootId)
    (origin : ClassOrigin) (classes : List ClassMetadata) (declarations : Option SourceDeclarationBatch),
    ((run ops).updateSourceInContext module sourceRoot origin classes
        declarations).1.updateSourceInContext module sourceRoot origin classes declarations =
      (((run ops).updateSourceInContext module sourceRoot origin classes declarations).1, false) := by
  intro hall
  have hsnd := congrArg Prod.snd
    (hall [] .root none (.sourceFile "file:///Main.java") [mainClass, mainClass] none)
  revert hsnd
  decide

end WorkspaceIndex

end JavaAnalyzer.Index
