import JavaAnalyzer.Index.BucketContents

/-! # Declaration ranges

The ranges of one owner are a class's own range and those of its methods and fields. Inserting a record replaces
the ranges of the owner it names and leaves the other owners alone, so a publication that is written gives every
class of its origin the ranges of the batch (`rangesOf_updateSource`). -/

namespace JavaAnalyzer.Index.BucketState
set_option autoImplicit false

/-! ## Reading ranges -/

def typeDeclarationRange (inner : BucketState) (internalName : String) : Option SourceRange :=
  inner.typeRanges.lookup internalName

def methodDeclarationRange (inner : BucketState) (ownerInternal name descriptor : String) : Option SourceRange :=
  inner.methodRanges.lookup (ownerInternal, name, descriptor)

def fieldDeclarationRange (inner : BucketState) (ownerInternal name : String) : Option SourceRange :=
  inner.fieldRanges.lookup (ownerInternal, name)

/-- The stored ranges of a class and its members are those that `declarations` gives. -/
structure RangesGiven (s : BucketState) (declarations : SourceDeclarationBatch) (c : ClassMetadata) : Prop where
  type : s.typeDeclarationRange c.internalName = declarations.typeRange c.internalName
  methods : ∀ m ∈ c.methods, s.methodDeclarationRange c.internalName m.name m.desc =
    declarations.methodRange c.internalName m.name m.desc
  fields : ∀ f ∈ c.fields, s.fieldDeclarationRange c.internalName f.name =
    declarations.fieldRange c.internalName f.name

/-- Every class of an origin has the ranges that `declarations` gives. -/
def OriginRangesGiven (s : BucketState) (origin : ClassOrigin) (declarations : SourceDeclarationBatch) : Prop :=
  ∀ c ∈ s.iterAllClasses, c.origin = origin → s.RangesGiven declarations c

/-- A publication that is neither empty nor found unchanged. -/
def Rewrites (s : BucketState) (origin : ClassOrigin) (classes : List ClassMetadata) : Prop :=
  s.withoutJarConflicts classes ≠ [] ∧
    s.sameClassesForOrigin origin (s.withoutJarConflicts classes) = false

/-- All that the range maps hold under one owner. -/
structure SameRanges (s s' : BucketState) (owner : String) : Prop where
  type : s'.typeRanges.lookup owner = s.typeRanges.lookup owner
  methods : ∀ name desc, s'.methodRanges.lookup (owner, name, desc) = s.methodRanges.lookup (owner, name, desc)
  fields : ∀ name, s'.fieldRanges.lookup (owner, name) = s.fieldRanges.lookup (owner, name)

variable {s s' s'' : BucketState} {owner : String}

namespace SameRanges

theorem refl (s : BucketState) (owner : String) : SameRanges s s owner :=
  ⟨rfl, fun _ _ => rfl, fun _ => rfl⟩

theorem trans (h : SameRanges s s' owner) (h' : SameRanges s' s'' owner) : SameRanges s s'' owner :=
  ⟨h'.type.trans h.type, fun name desc => (h'.methods name desc).trans (h.methods name desc),
    fun name => (h'.fields name).trans (h.fields name)⟩

theorem rangesGiven {declarations : SourceDeclarationBatch} {c : ClassMetadata}
    (h : SameRanges s s' c.internalName) (hc : s.RangesGiven declarations c) : s'.RangesGiven declarations c :=
  ⟨h.type.trans hc.type, fun m hm => (h.methods _ _).trans (hc.methods m hm),
    fun f hf => (h.fields _).trans (hc.fields f hf)⟩

end SameRanges

/-! ## Keys of other owners -/

theorem method_key_owner {c : ClassMetadata} {name desc : String} (hne : owner ≠ c.internalName) :
    (owner, name, desc) ∉ methodKeys c := by
  intro hmem
  obtain ⟨m, -, he⟩ := List.mem_map.mp hmem
  exact hne (congrArg Prod.fst he).symm

theorem field_key_owner {c : ClassMetadata} {name : String} (hne : owner ≠ c.internalName) :
    (owner, name) ∉ fieldKeys c := by
  intro hmem
  obtain ⟨f, -, he⟩ := List.mem_map.mp hmem
  exact hne (congrArg Prod.fst he).symm

theorem sameRanges_detachRecord {i : ℕ} {c : StoredClass} (hne : owner ≠ c.internalName) :
    SameRanges s (s.detachRecord i c) owner := by
  have hmaterialized : owner ≠ c.materialize.internalName := fun he => hne (he.trans c.internalName_eq)
  refine ⟨AList.lookup_erase_ne hne, fun name desc => ?_, fun name => ?_⟩
  · exact (FiniteMap.lookup_eraseKeys ..).trans (if_neg (method_key_owner hmaterialized))
  · exact (FiniteMap.lookup_eraseKeys ..).trans (if_neg (field_key_owner hmaterialized))

theorem sameRanges_evictNamed (h : s.Indexed) {n : String} (hne : owner ≠ n) :
    SameRanges s (s.evictNamed n) owner := by
  unfold evictNamed
  split
  · rename_i i hi
    obtain ⟨c, hc, rfl⟩ := h.slot_of_lookup hi
    have hdetached : SameRanges s (s.detachRecord i c) owner := sameRanges_detachRecord hne
    rw [removeClassByIdLocked_of_slot hc]
    exact ⟨hdetached.type, hdetached.methods, hdetached.fields⟩
  · exact .refl s owner

/-! ## Inserting -/

theorem sameRanges_fileRecord (h : s.Indexed) (c : StoredClass) (owner : String) :
    SameRanges s ((s.allocate c).1.fileRecord (s.allocate c).2 c) owner := by
  have hrest := (allocate_spec h c).rest
  have htypes : ((s.allocate c).1.fileRecord (s.allocate c).2 c).typeRanges = s.typeRanges := by
    change (s.allocate c).1.typeRanges = s.typeRanges
    rw [hrest]
  have hmethods : ((s.allocate c).1.fileRecord (s.allocate c).2 c).methodRanges = s.methodRanges := by
    change (s.allocate c).1.methodRanges = s.methodRanges
    rw [hrest]
  have hfields : ((s.allocate c).1.fileRecord (s.allocate c).2 c).fieldRanges = s.fieldRanges := by
    change (s.allocate c).1.fieldRanges = s.fieldRanges
    rw [hrest]
  exact ⟨by rw [htypes], fun _ _ => by rw [hmethods], fun _ => by rw [hfields]⟩

theorem sameRanges_insertDeclarations {c : ClassMetadata} (declarations : SourceDeclarationBatch)
    (hne : owner ≠ c.internalName) :
    SameRanges s (s.insertDeclarationsForMetadataLocked c declarations) owner := by
  refine ⟨?_, fun name desc => ?_, fun name => ?_⟩
  · refine (FiniteMap.lookup_insertKeys ..).trans (if_neg fun hmem => hne ?_)
    exact List.mem_singleton.mp hmem
  · exact (FiniteMap.lookup_insertKeys ..).trans (if_neg (method_key_owner hne))
  · exact (FiniteMap.lookup_insertKeys ..).trans (if_neg (field_key_owner hne))

theorem sameRanges_insertRecordLocked (h : s.Invariant) (c : StoredClass)
    (declarations : Option SourceDeclarationBatch) (hne : owner ≠ c.internalName) :
    SameRanges s (s.insertRecordLocked c declarations) owner := by
  have hfiled := (sameRanges_evictNamed h.toIndexed hne).trans
    (sameRanges_fileRecord (h.evictNamed c.internalName).toIndexed c owner)
  unfold insertRecordLocked
  cases declarations with
  | none => exact hfiled
  | some d =>
    refine hfiled.trans (sameRanges_insertDeclarations d ?_)
    exact fun he => hne (he.trans c.internalName_eq)

theorem no_ranges (h : s.Indexed) (hdead : ∀ d, s.Live d → d.internalName ≠ owner) :
    SameRanges new s owner := by
  have hlive : ∀ c, s.Live c → c.materialize.internalName ≠ owner := fun c hc he =>
    hdead c hc (c.internalName_eq.symm.trans he)
  refine ⟨Option.eq_none_iff_forall_ne_some.mpr fun r hr => ?_,
    fun name desc => Option.eq_none_iff_forall_ne_some.mpr fun r hr => ?_,
    fun name => Option.eq_none_iff_forall_ne_some.mpr fun r hr => ?_⟩
  · obtain ⟨c, hc, hmem⟩ := h.typeRange _ r hr
    exact hlive c hc (List.mem_singleton.mp hmem).symm
  · obtain ⟨c, hc, hmem⟩ := h.methodRange _ r hr
    obtain ⟨m, -, he⟩ := List.mem_map.mp hmem
    exact hlive c hc (congrArg Prod.fst he)
  · obtain ⟨c, hc, hmem⟩ := h.fieldRange _ r hr
    obtain ⟨f, -, he⟩ := List.mem_map.mp hmem
    exact hlive c hc (congrArg Prod.fst he)

/-- Where an owner has no ranges, inserting its declarations gives it those of the batch. -/
theorem rangesGiven_insertDeclarations {c : ClassMetadata} (declarations : SourceDeclarationBatch)
    (hnone : SameRanges new s c.internalName) :
    (s.insertDeclarationsForMetadataLocked c declarations).RangesGiven declarations c := by
  refine ⟨?_, fun m hm => ?_, fun f hf => ?_⟩
  · refine (FiniteMap.lookup_insertKeys ..).trans ?_
    rw [if_pos (List.mem_singleton.mpr rfl), hnone.type]
    exact Option.or_none
  · have hkey : (c.internalName, m.name, m.desc) ∈ methodKeys c := List.mem_map.mpr ⟨m, hm, rfl⟩
    refine (FiniteMap.lookup_insertKeys ..).trans ?_
    rw [if_pos hkey, hnone.methods]
    exact Option.or_none
  · have hkey : (c.internalName, f.name) ∈ fieldKeys c := List.mem_map.mpr ⟨f, hf, rfl⟩
    refine (FiniteMap.lookup_insertKeys ..).trans ?_
    rw [if_pos hkey, hnone.fields]
    exact Option.or_none

theorem rangesGiven_insertRecordLocked (h : s.Invariant) (c : StoredClass) (declarations : SourceDeclarationBatch) :
    (s.insertRecordLocked c (some declarations)).RangesGiven declarations c.materialize := by
  have hevicted := (h.evictNamed c.internalName).toIndexed
  refine rangesGiven_insertDeclarations declarations ?_
  rw [show c.materialize.internalName = c.internalName from c.internalName_eq]
  exact (no_ranges hevicted (evictNamed_fresh h.toIndexed c.internalName)).trans
    (sameRanges_fileRecord hevicted c c.internalName)

theorem sameRanges_addClasses (h : s.Invariant) (classes : List ClassMetadata)
    (declarations : Option SourceDeclarationBatch) (howner : owner ∉ classes.map ClassMetadata.internalName) :
    SameRanges s (s.addClassesWithDeclarations classes declarations) owner := by
  induction classes generalizing s with
  | nil => exact .refl s owner
  | cons c classes ih =>
    rw [List.map_cons, List.mem_cons, not_or] at howner
    exact (sameRanges_insertRecordLocked h (.fromMetadata c) declarations howner.1).trans
      (ih (h.insertRecordLocked _ declarations) howner.2)

/-- The last class of every name has the ranges of the batch it was added with. -/
theorem rangesGiven_addClasses (h : s.Invariant) (classes : List ClassMetadata)
    (declarations : SourceDeclarationBatch) {c : ClassMetadata} (hc : lastNamed classes c.internalName = some c) :
    (s.addClassesWithDeclarations classes (some declarations)).RangesGiven declarations c := by
  induction classes generalizing s with
  | nil => cases hc
  | cons d classes ih =>
    have hinserted := h.insertRecordLocked (.fromMetadata d) (some declarations)
    rw [lastNamed_cons, Option.or_eq_some_iff] at hc
    rcases hc with hc | ⟨hnone, hc⟩
    · exact ih hinserted hc
    · split_ifs at hc with hname
      obtain rfl := Option.some.inj hc
      exact (sameRanges_addClasses hinserted classes (some declarations) (lastNamed_eq_none_iff.mp hnone)).rangesGiven
        (rangesGiven_insertRecordLocked h (.fromMetadata d) declarations)

/-! ## Publishing -/

theorem updateSource_of_rewrites {o : ClassOrigin} {classes : List ClassMetadata} (h : s.Rewrites o classes)
    (declarations : Option SourceDeclarationBatch) : s.updateSourceWithDeclarations o classes declarations =
      ((s.removeByOrigin o).1.addClassesWithDeclarations (s.withoutJarConflicts classes) declarations, true) := by
  rw [updateSourceWithDeclarations]
  simp [h.1, h.2]

theorem updateSource_of_not_rewrites {o : ClassOrigin} {classes : List ClassMetadata}
    (h : ¬ s.Rewrites o classes) (declarations : Option SourceDeclarationBatch) :
    s.updateSourceWithDeclarations o classes declarations = (s, false) := by
  rw [Rewrites, not_and_or, not_not, Bool.not_eq_false] at h
  rw [updateSourceWithDeclarations]
  rcases h with h | h <;> simp [h]

/-- A publication that is written gives the classes of its origin the ranges of the batch. -/
theorem Invariant.rangesGiven_of_rewrites (h : s.Invariant) {o : ClassOrigin} {classes : List ClassMetadata}
    (hrewrites : s.Rewrites o classes) (declarations : SourceDeclarationBatch) :
    (s.updateSourceWithDeclarations o classes (some declarations)).1.OriginRangesGiven o declarations := by
  have hinv := h.updateSourceWithDeclarations o classes (some declarations)
  intro c hc ho
  rw [hinv.mem_iterAllClasses_iff, getClass_updateSource h o classes (some declarations) _
    (by rw [updateSource_of_rewrites hrewrites]), Option.or_eq_some_iff] at hc
  rcases hc with hlast | ⟨-, hold⟩
  · rw [updateSource_of_rewrites hrewrites]
    exact rangesGiven_addClasses (h.removeByOrigin o) _ declarations hlast
  · exact absurd ho (by simpa using (Option.filter_eq_some_iff.mp hold).2)

/-- After a publication every class of its origin has the ranges of the batch exactly when the publication is
written, or the classes of the origin had these ranges before: the publication of classes that are stored
already leaves the ranges as they were. -/
theorem declaration_ranges_refreshed_iff (ops : List Op) (o : ClassOrigin) (classes : List ClassMetadata)
    (declarations : SourceDeclarationBatch) :
    ((run ops).updateSourceWithDeclarations o classes (some declarations)).1.OriginRangesGiven o declarations ↔
      (run ops).Rewrites o classes ∨ (run ops).OriginRangesGiven o declarations := by
  by_cases hrewrites : (run ops).Rewrites o classes
  · exact iff_of_true ((run_invariant ops).rangesGiven_of_rewrites hrewrites declarations) (.inl hrewrites)
  · rw [updateSource_of_not_rewrites hrewrites]
    exact (or_iff_right hrewrites).symm

/-- The range of one class. -/
def typeRangeBatch (internalName : String) (range : SourceRange) : SourceDeclarationBatch where
  typeRanges := (∅ : AList (fun _ : String => SourceRange)).insert internalName range
  methodRanges := ∅
  fieldRanges := ∅

/-- A class that moved down one line keeps its old range. -/
theorem moved_class_keeps_range :
    ¬ ∀ (ops : List Op) (o : ClassOrigin) (classes : List ClassMetadata) (declarations : SourceDeclarationBatch),
      ((run ops).updateSourceWithDeclarations o classes (some declarations)).1.OriginRangesGiven o declarations := by
  intro hall
  have hgiven := hall [.updateSourceWithDeclarations (.sourceFile "file:///Main.java")
    [sourceClass (.sourceFile "file:///Main.java")] (some (typeRangeBatch "app/Main" ⟨⟨0, 6⟩, ⟨0, 10⟩⟩))]
    (.sourceFile "file:///Main.java") [sourceClass (.sourceFile "file:///Main.java")]
    (typeRangeBatch "app/Main" ⟨⟨1, 6⟩, ⟨1, 10⟩⟩)
  have htype := (hgiven (sourceClass (.sourceFile "file:///Main.java")) (by decide) rfl).type
  revert htype
  decide

end JavaAnalyzer.Index.BucketState
