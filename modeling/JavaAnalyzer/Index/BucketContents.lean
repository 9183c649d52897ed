import JavaAnalyzer.Index.BucketInvariant

/-! # What a bucket stores

`getClass` read as a partial map from internal names to classes is the abstract state of a bucket:
inserting a record overrides one name, removing an origin drops its classes, and publishing a source
file does both. The listings are read off the same map. -/

namespace JavaAnalyzer.Index.BucketState
set_option autoImplicit false
open KeyIndex

variable {s : BucketState}

/-! ## Live records and classes -/

theorem Indexed.getClass_eq_some (h : s.Indexed) {n : String} {c : ClassMetadata} :
    s.getClass n = some c ↔ ∃ r, s.Live r ∧ r.internalName = n ∧ r.materialize = c := by
  constructor
  · intro hget
    obtain ⟨i, hi, hc⟩ := Option.bind_eq_some_iff.mp hget
    obtain ⟨r, hr, hname⟩ := h.slot_of_lookup hi
    rw [hr] at hc
    exact ⟨r, ⟨i, hr⟩, hname, Option.some.inj hc⟩
  · rintro ⟨r, ⟨i, hr⟩, rfl, rfl⟩
    simp [getClass, h.lookup_name hr, hr]

theorem Indexed.getClass_internalName (h : s.Indexed) {n : String} {c : ClassMetadata}
    (hc : s.getClass n = some c) : c.internalName = n := by
  obtain ⟨r, -, rfl, rfl⟩ := h.getClass_eq_some.mp hc
  exact r.internalName_eq

theorem mem_iterAllClasses {c : ClassMetadata} :
    c ∈ s.iterAllClasses ↔ ∃ r, s.Live r ∧ r.materialize = c := by
  constructor
  · intro hc
    obtain ⟨x, hx, hxc⟩ := List.mem_filterMap.mp hc
    obtain ⟨r, rfl, hr⟩ := Option.map_eq_some_iff.mp hxc
    obtain ⟨i, hi⟩ := List.mem_iff_getElem?.mp hx
    exact ⟨r, ⟨i, by simp [slot, hi]⟩, hr⟩
  · rintro ⟨r, ⟨i, hi⟩, rfl⟩
    have hmem : s.classes[i]? = some (some r) := by
      simpa [slot, Option.join_eq_some_iff] using hi
    exact List.mem_filterMap.mpr ⟨some r, List.mem_of_getElem? hmem, rfl⟩

theorem Indexed.mem_iterAllClasses_iff (h : s.Indexed) {c : ClassMetadata} :
    c ∈ s.iterAllClasses ↔ s.getClass c.internalName = some c := by
  rw [mem_iterAllClasses, h.getClass_eq_some]
  constructor
  · rintro ⟨r, hr, rfl⟩
    exact ⟨r, hr, r.internalName_eq.symm, rfl⟩
  · rintro ⟨r, hr, -, hc⟩
    exact ⟨r, hr, hc⟩

theorem mem_resolveClassIdsLocked {κ : Type} [DecidableEq κ] {m : KeyIndex κ}
    {key : StoredClass → Option κ} (hm : m.Files (s.keyOf key)) {k : κ} {c : ClassMetadata} :
    c ∈ s.resolveClassIdsLocked (m.entries k) ↔
      ∃ r, s.Live r ∧ key r = some k ∧ r.materialize = c := by
  simp only [resolveClassIdsLocked, List.mem_filterMap, Option.map_eq_some_iff, hm.mem_iff,
    keyOf_eq_some]
  constructor
  · rintro ⟨i, ⟨r, hr, hk⟩, r', hr', hc⟩
    obtain rfl := Option.some.inj (hr.symm.trans hr')
    exact ⟨r, ⟨i, hr⟩, hk, hc⟩
  · rintro ⟨r, ⟨i, hr⟩, hk, hc⟩
    exact ⟨i, ⟨r, hr, hk⟩, r, hr, hc⟩

theorem Indexed.resolve_names_nodup (h : s.Indexed) {ids : List ℕ} (hids : ids.Nodup) :
    ((s.resolveClassIdsLocked ids).map ClassMetadata.internalName).Nodup := by
  rw [resolveClassIdsLocked, List.map_filterMap]
  refine hids.filterMap fun i j n hi hj => ?_
  simp only [Option.mem_def, Option.map_map, Option.map_eq_some_iff, Function.comp_apply] at hi hj
  obtain ⟨r, hr, hrn⟩ := hi
  obtain ⟨r', hr', hrn'⟩ := hj
  refine h.slot_inj hr hr' ?_
  rw [← r.internalName_eq, ← r'.internalName_eq]
  exact hrn.trans hrn'.symm

theorem iterAllClasses_eq_resolve :
    s.iterAllClasses = s.resolveClassIdsLocked (List.range s.classes.length) := by
  have hslots : (List.range s.classes.length).map s.slot = s.classes := by
    refine List.ext_getElem (by simp) fun i hi _ => ?_
    simp only [List.length_map, List.length_range] at hi
    simp [slot, List.getElem?_eq_getElem hi]
  rw [resolveClassIdsLocked, iterAllClasses]
  conv_lhs => rw [← hslots]
  rw [List.filterMap_map]
  rfl

/-! ## Inserting -/

theorem live_insertRecordLocked (h : s.Invariant) (c : StoredClass)
    (declarations : Option SourceDeclarationBatch) (r : StoredClass) :
    (s.insertRecordLocked c declarations).Live r ↔
      r = c ∨ (s.Live r ∧ r.internalName ≠ c.internalName) := by
  have ha := allocate_spec (h.evictNamed c.internalName).toIndexed c
  have hslot : (s.insertRecordLocked c declarations).slot =
      ((s.evictNamed c.internalName).allocate c).1.slot := by
    unfold insertRecordLocked
    cases declarations <;> rfl
  have hevicted (r : StoredClass) : (s.evictNamed c.internalName).Live r ↔
      s.Live r ∧ r.internalName ≠ c.internalName := by
    simp [Live, evictNamed_slot h.toIndexed]
  rw [← hevicted]
  simp only [Live, hslot, ha.slot]
  constructor
  · rintro ⟨j, hj⟩
    by_cases hji : j = ((s.evictNamed c.internalName).allocate c).2
    · rw [hji, Function.update_self] at hj
      exact .inl (Option.some.inj hj).symm
    · rw [Function.update_of_ne hji] at hj
      exact .inr ⟨j, hj⟩
  · rintro (rfl | ⟨j, hj⟩)
    · exact ⟨_, Function.update_self ..⟩
    · have hji : j ≠ ((s.evictNamed c.internalName).allocate c).2 := by
        rintro rfl
        rw [ha.dead] at hj
        cases hj
      exact ⟨j, by rw [Function.update_of_ne hji, hj]⟩

theorem getClass_insertRecordLocked (h : s.Invariant) (c : StoredClass)
    (declarations : Option SourceDeclarationBatch) (n : String) :
    (s.insertRecordLocked c declarations).getClass n =
      if n = c.internalName then some c.materialize else s.getClass n := by
  ext d
  rw [(h.insertRecordLocked c declarations).getClass_eq_some]
  simp only [live_insertRecordLocked h]
  split
  · rename_i hn
    subst hn
    constructor
    · rintro ⟨r, rfl | ⟨-, hne⟩, hname, rfl⟩
      · rfl
      · exact absurd hname hne
    · rintro ⟨⟩
      exact ⟨c, .inl rfl, rfl, rfl⟩
  · rename_i hn
    rw [h.getClass_eq_some]
    constructor
    · rintro ⟨r, rfl | ⟨hr, -⟩, hname, hd⟩
      · exact absurd hname.symm hn
      · exact ⟨r, hr, hname, hd⟩
    · rintro ⟨r, hr, rfl, hd⟩
      exact ⟨r, .inr ⟨hr, hn⟩, rfl, hd⟩

/-- The last of the classes with a given internal name. -/
def lastNamed (classes : List ClassMetadata) (n : String) : Option ClassMetadata :=
  classes.reverse.find? fun c => c.internalName = n

theorem lastNamed_cons (c : ClassMetadata) (classes : List ClassMetadata) (n : String) :
    lastNamed (c :: classes) n =
      (lastNamed classes n).or (if n = c.internalName then some c else none) := by
  by_cases hn : n = c.internalName
  · simp [lastNamed, List.find?_append, hn]
  · have hn' : ¬ c.internalName = n := fun he => hn he.symm
    simp [lastNamed, List.find?_append, hn, hn']

theorem mem_of_lastNamed {classes : List ClassMetadata} {n : String} {c : ClassMetadata}
    (h : lastNamed classes n = some c) : c ∈ classes ∧ c.internalName = n := by
  have hmem := List.mem_of_find?_eq_some h
  have hname := List.find?_some h
  exact ⟨List.mem_reverse.mp hmem, by simpa using hname⟩

theorem lastNamed_eq_none_iff {classes : List ClassMetadata} {n : String} :
    lastNamed classes n = none ↔ n ∉ classes.map ClassMetadata.internalName := by
  simp [lastNamed]

theorem lastNamed_of_nodup {classes : List ClassMetadata}
    (h : (classes.map ClassMetadata.internalName).Nodup) {c : ClassMetadata} (hc : c ∈ classes) :
    lastNamed classes c.internalName = some c := by
  cases hl : lastNamed classes c.internalName with
  | none => exact absurd (List.mem_map_of_mem hc) (lastNamed_eq_none_iff.mp hl)
  | some d =>
    obtain ⟨hd, hname⟩ := mem_of_lastNamed hl
    rw [List.inj_on_of_nodup_map h hd hc hname]

theorem getClass_addClasses (h : s.Invariant) (classes : List ClassMetadata)
    (declarations : Option SourceDeclarationBatch) (n : String) :
    (s.addClassesWithDeclarations classes declarations).getClass n =
      (lastNamed classes n).or (s.getClass n) := by
  induction classes generalizing s with
  | nil => rfl
  | cons c classes ih =>
    have hstep := ih (h.insertRecordLocked (.fromMetadata c) declarations)
    rw [addClassesWithDeclarations, List.foldl_cons]
    refine hstep.trans ?_
    rw [getClass_insertRecordLocked h, lastNamed_cons, Option.or_assoc]
    congr 1
    change (if n = c.internalName then some c else s.getClass n) = _
    split <;> simp

/-! ## Removing an origin -/

theorem live_removeByOrigin (h : s.Invariant) (o : ClassOrigin) (r : StoredClass) :
    (s.removeByOrigin o).1.Live r ↔ s.Live r ∧ r.origin ≠ o := by
  simp [Live, removeByOrigin_slot h]

theorem getClass_removeByOrigin (h : s.Invariant) (o : ClassOrigin) (n : String) :
    (s.removeByOrigin o).1.getClass n = (s.getClass n).filter fun c => c.origin ≠ o := by
  ext d
  rw [(h.removeByOrigin o).getClass_eq_some, Option.filter_eq_some_iff, h.getClass_eq_some]
  simp only [live_removeByOrigin h]
  constructor
  · rintro ⟨r, ⟨hr, ho⟩, hname, rfl⟩
    exact ⟨⟨r, hr, hname, rfl⟩, by simpa [StoredClass.materialize, r.origin_eq] using ho⟩
  · rintro ⟨⟨r, hr, hname, rfl⟩, ho⟩
    exact ⟨r, ⟨hr, by simpa [StoredClass.materialize, r.origin_eq] using ho⟩, hname, rfl⟩

/-! ## Publishing a source file -/

theorem withoutJarConflicts_eq {classes : List ClassMetadata}
    (hjar : ∀ c ∈ classes, ∀ e, s.getClass c.internalName = some e → e.origin.isJar = false) :
    s.withoutJarConflicts classes = classes := by
  refine List.filter_eq_self.mpr fun c hc => ?_
  cases hget : s.getClass c.internalName with
  | none => rfl
  | some e => simp [hjar c hc e hget]

/-- The classes of an origin, as `same_classes_for_origin` collects them. -/
theorem mem_originClasses (h : s.Invariant) {o : ClassOrigin} {c : ClassMetadata} :
    c ∈ s.resolveClassIdsLocked (s.byOrigin.entries o) ↔
      s.getClass c.internalName = some c ∧ c.origin = o := by
  rw [mem_resolveClassIdsLocked h.origin, h.getClass_eq_some]
  constructor
  · rintro ⟨r, hr, ho, rfl⟩
    exact ⟨⟨r, hr, r.internalName_eq.symm, rfl⟩, r.origin_eq.trans (Option.some.inj ho)⟩
  · rintro ⟨⟨r, hr, -, rfl⟩, ho⟩
    exact ⟨r, hr, congrArg some (r.origin_eq.symm.trans ho), rfl⟩

/-- `same_classes_for_origin` recognises only the classes the origin already has. -/
theorem lastNamed_of_sameClasses (h : s.Invariant) {o : ClassOrigin} {classes : List ClassMetadata}
    (hsame : s.sameClassesForOrigin o classes = true) (c : ClassMetadata) :
    lastNamed classes c.internalName = some c ↔
      s.getClass c.internalName = some c ∧ c.origin = o := by
  unfold sameClassesForOrigin at hsame
  split at hsame
  · cases hsame
  · rename_i ids hids
    simp only [Bool.and_eq_true, decide_eq_true_eq] at hsame
    have hperm : (s.resolveClassIdsLocked (s.byOrigin.entries o)).Perm classes := by
      rw [entries_of_lookup hids]
      have hsorted : (sortedByInternalName (s.resolveClassIdsLocked ids)).Perm
          (sortedByInternalName classes) := List.Perm.of_eq hsame.2
      exact ((List.perm_insertionSort _ _).symm.trans hsorted).trans (List.perm_insertionSort _ _)
    have hnodup := (hperm.map ClassMetadata.internalName).nodup_iff.mp
      (h.resolve_names_nodup (h.origin.nodup o))
    rw [← mem_originClasses h, hperm.mem_iff]
    exact ⟨fun hl => (mem_of_lastNamed hl).1, lastNamed_of_nodup hnodup⟩

/-- What the abstract map is after a source file is published: the classes of the origin go, the
incoming classes come. -/
theorem getClass_updateSource (h : s.Invariant) (o : ClassOrigin) (classes : List ClassMetadata)
    (declarations : Option SourceDeclarationBatch) (n : String)
    (ht : (s.updateSourceWithDeclarations o classes declarations).2 = true) :
    (s.updateSourceWithDeclarations o classes declarations).1.getClass n =
      (lastNamed (s.withoutJarConflicts classes) n).or
        ((s.getClass n).filter fun c => c.origin ≠ o) := by
  simp only [updateSourceWithDeclarations] at ht ⊢
  split at ht
  · cases ht
  · split at ht
    · cases ht
    · rename_i hne hsame
      rw [if_neg hne, if_neg hsame, getClass_addClasses (h.removeByOrigin o),
        getClass_removeByOrigin h]

theorem updateSource_of_false {o : ClassOrigin} {classes : List ClassMetadata}
    {declarations : Option SourceDeclarationBatch}
    (hf : (s.updateSourceWithDeclarations o classes declarations).2 = false) :
    (s.updateSourceWithDeclarations o classes declarations).1 = s := by
  simp only [updateSourceWithDeclarations] at hf ⊢
  split
  · rfl
  · rename_i hne
    rw [if_neg hne] at hf
    split
    · rfl
    · rename_i hsame
      rw [if_neg hsame] at hf
      cases hf

@[simp] theorem updateSource_nil (s : BucketState) (o : ClassOrigin)
    (declarations : Option SourceDeclarationBatch) :
    s.updateSourceWithDeclarations o [] declarations = (s, false) := rfl

/-- The classes of origin `o` are the given ones, the last of each name, and the classes of other
origins keep their names that the list does not take. -/
structure Replaces (s s' : BucketState) (o : ClassOrigin) (classes : List ClassMetadata) : Prop where
  contribution : ∀ c, c ∈ s'.iterAllClasses ∧ c.origin = o ↔ lastNamed classes c.internalName = some c
  others : ∀ c, c.origin ≠ o → c.internalName ∉ classes.map ClassMetadata.internalName →
    (c ∈ s'.iterAllClasses ↔ c ∈ s.iterAllClasses)

theorem Invariant.replaces_of_ne_nil (h : s.Invariant) {o : ClassOrigin} {classes : List ClassMetadata}
    (declarations : Option SourceDeclarationBatch) (ho : ∀ c ∈ classes, c.origin = o)
    (hjar : ∀ c ∈ classes, ∀ e, s.getClass c.internalName = some e → e.origin.isJar = false)
    (hne : classes ≠ []) :
    Replaces s (s.updateSourceWithDeclarations o classes declarations).1 o classes := by
  have hinv := h.updateSourceWithDeclarations o classes declarations
  have hfiltered := withoutJarConflicts_eq hjar
  cases ht : (s.updateSourceWithDeclarations o classes declarations).2 with
  | false =>
    rw [updateSource_of_false ht]
    simp only [BucketState.updateSourceWithDeclarations, hfiltered, List.isEmpty_iff, hne, if_false] at ht
    have hsame : s.sameClassesForOrigin o classes = true := by
      by_contra hsame
      simp [hsame] at ht
    refine ⟨fun c => ?_, fun c _ _ => Iff.rfl⟩
    rw [h.mem_iterAllClasses_iff, lastNamed_of_sameClasses h hsame]
  | true =>
    have hget (n : String) := getClass_updateSource h o classes declarations n ht
    rw [hfiltered] at hget
    refine ⟨fun c => ?_, fun c hco hname => ?_⟩
    · rw [hinv.mem_iterAllClasses_iff, hget, Option.or_eq_some_iff]
      constructor
      · rintro ⟨hc | ⟨-, hc⟩, hco⟩
        · exact hc
        · exact absurd hco (by simpa using (Option.filter_eq_some_iff.mp hc).2)
      · intro hc
        exact ⟨.inl hc, ho c (mem_of_lastNamed hc).1⟩
    · rw [hinv.mem_iterAllClasses_iff, h.mem_iterAllClasses_iff, hget,
        lastNamed_eq_none_iff.mpr hname, Option.none_or, Option.filter_eq_some_iff]
      simp [hco]

/-- For a list of the origin's classes that names no class of a jar, publishing replaces the
contribution of the origin exactly when the list is not empty or the origin has nothing stored: an
empty list is returned from before anything is removed. -/
theorem update_source_replaces_iff (ops : List Op) (o : ClassOrigin) (classes : List ClassMetadata)
    (declarations : Option SourceDeclarationBatch) (ho : ∀ c ∈ classes, c.origin = o)
    (hjar : ∀ c ∈ classes, ∀ e, (run ops).getClass c.internalName = some e → e.origin.isJar = false) :
    Replaces (run ops) ((run ops).updateSourceWithDeclarations o classes declarations).1 o classes ↔
      classes ≠ [] ∨ ∀ c ∈ (run ops).iterAllClasses, c.origin ≠ o := by
  have h := invariant_new.foldl_apply ops
  constructor
  · intro hr
    by_contra! hcon
    obtain ⟨rfl, c, hc, hco⟩ := hcon
    exact absurd ((hr.contribution c).mp ⟨hc, hco⟩) (by simp [lastNamed])
  · rintro (hne | hnone)
    · exact h.replaces_of_ne_nil declarations ho hjar hne
    · by_cases hne : classes = []
      · subst hne
        rw [updateSource_nil]
        refine ⟨fun c => ?_, fun c _ _ => Iff.rfl⟩
        simpa [lastNamed] using hnone c
      · exact h.replaces_of_ne_nil declarations ho hjar hne

/-- A top-level class of the source file `o`. -/
def sourceClass (o : ClassOrigin) : ClassMetadata :=
  .bare (some "app") "Main" "app/Main" none o

theorem update_source_replaces_single :
    Replaces (run []) ((run []).updateSourceWithDeclarations (.sourceFile "file:///Main.java")
      [sourceClass (.sourceFile "file:///Main.java")] none).1 (.sourceFile "file:///Main.java")
      [sourceClass (.sourceFile "file:///Main.java")] :=
  (update_source_replaces_iff [] (.sourceFile "file:///Main.java")
    [sourceClass (.sourceFile "file:///Main.java")] none (by simp [sourceClass, ClassMetadata.bare])
    (by simp [run, new, getClass])).mpr (.inl (by simp))

/-- The last class of a file is deleted, and stays stored. -/
theorem update_source_empty_keeps :
    ¬ ∀ (ops : List Op) (o : ClassOrigin) (classes : List ClassMetadata)
      (declarations : Option SourceDeclarationBatch), (∀ c ∈ classes, c.origin = o) →
      (∀ c ∈ classes, ∀ e, (run ops).getClass c.internalName = some e → e.origin.isJar = false) →
      Replaces (run ops) ((run ops).updateSourceWithDeclarations o classes declarations).1 o classes := by
  intro hall
  have hr := hall [.updateSourceWithDeclarations (.sourceFile "file:///Main.java")
    [sourceClass (.sourceFile "file:///Main.java")] none] (.sourceFile "file:///Main.java") [] none
    (by simp) (by simp)
  have hmem := (hr.contribution (sourceClass (.sourceFile "file:///Main.java"))).mp
    ⟨by decide, rfl⟩
  simp [lastNamed] at hmem

end JavaAnalyzer.Index.BucketState
