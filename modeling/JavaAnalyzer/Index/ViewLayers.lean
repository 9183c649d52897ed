import JavaAnalyzer.Index.View

/-! # Layer precedence

Every lookup and every listing of a view is read at the level of classes: `heldNamed` are the classes
the layers answer for a name, `recordsNamed` the classes they list. `getClass` is the best of the
first, a listing holds, for every name, the best of those of the second that have the key of the
listing. `get_class_listings_iff` says on which layers the two agree. -/

namespace JavaAnalyzer.Index
set_option autoImplicit false
open KeyIndex RankedMerge

/-! ## Listings of one bucket -/

namespace BucketIndex

/-- A listing of buckets: the classes with property `q`, each name once. -/
structure Lists (ofBucket : BucketIndex → List ClassMetadata) (q : ClassMetadata → Bool) : Prop where
  nodup : ∀ b, ((ofBucket b).map ClassMetadata.internalName).Nodup
  mem_iff : ∀ b c, c ∈ ofBucket b ↔ b.getClass c.internalName = some c ∧ q c = true

theorem lists_iterAllClasses : Lists iterAllClasses fun _ => true where
  nodup b := by
    rw [iterAllClasses, BucketState.iterAllClasses_eq_resolve]
    exact b.invariant.resolve_names_nodup List.nodup_range
  mem_iff b c := by simp [mem_iterAllClasses]

theorem lists_of_files {κ : Type} [DecidableEq κ] {index : BucketState → KeyIndex κ}
    {key : StoredClass → Option κ} (keyOfClass : ClassMetadata → Option κ)
    (hfiles : ∀ b : BucketIndex, (index b.inner).Files (b.inner.keyOf key))
    (hkey : ∀ r, keyOfClass r.materialize = key r) (k : κ) :
    Lists (fun b => b.inner.resolveClassIdsLocked ((index b.inner).entries k))
      fun c => keyOfClass c = some k where
  nodup b := b.invariant.resolve_names_nodup ((hfiles b).nodup k)
  mem_iff b c := by
    rw [BucketState.mem_resolveClassIdsLocked (hfiles b), decide_eq_true_iff,
      show b.getClass = b.inner.getClass from rfl, b.invariant.getClass_eq_some]
    constructor
    · rintro ⟨r, hr, hk, rfl⟩
      exact ⟨⟨r, hr, r.internalName_eq.symm, rfl⟩, (hkey r).trans hk⟩
    · rintro ⟨⟨r, hr, -, rfl⟩, hk⟩
      exact ⟨r, hr, (hkey r).symm.trans hk, rfl⟩

theorem lists_simpleName (simpleName : String) :
    Lists (fun b => b.getClassesBySimpleName simpleName) fun c => some c.name = some simpleName :=
  lists_of_files (fun c => some c.name) (fun b => b.invariant.simpleName)
    (fun r => congrArg some r.name_eq) simpleName

theorem lists_package (pkg : String) :
    Lists (fun b => b.classesInPackage pkg) fun c => c.package = some (BucketState.slashed pkg) :=
  lists_of_files ClassMetadata.package (fun b => b.invariant.package) (fun r => r.package_eq) _

theorem lists_owner (ownerInternal : String) :
    Lists (fun b => b.directInnerClassesByOwner ownerInternal)
      fun c => c.innerClassOf = some ownerInternal :=
  lists_of_files ClassMetadata.innerClassOf (fun b => b.invariant.owner) (fun r => r.innerClassOf_eq) _

/-- Under one name a listing has at most the class held under it. -/
theorem Lists.filter_named {ofBucket : BucketIndex → List ClassMetadata} {q : ClassMetadata → Bool}
    (h : Lists ofBucket q) (b : BucketIndex) (n : String) :
    (ofBucket b).filter (fun c => c.internalName = n) = (b.getClass n).toList.filter q := by
  have hsingle {l : List ClassMetadata} (hl : (l.map ClassMetadata.internalName).Nodup)
      (hall : ∀ c ∈ l, c.internalName = n) : l.length ≤ 1 := by
    rcases l with _ | ⟨c, _ | ⟨d, l⟩⟩
    · simp
    · simp
    · have hcd : c.internalName = d.internalName := (hall c (by simp)).trans (hall d (by simp)).symm
      simp [hcd] at hl
  have hleft := hsingle (l := (ofBucket b).filter fun c => c.internalName = n)
    ((h.nodup b).sublist (List.filter_sublist.map _)) (by simp)
  have hmem (c : ClassMetadata) : c ∈ (ofBucket b).filter (fun c => c.internalName = n) ↔
      c ∈ (b.getClass n).toList.filter q := by
    simp only [List.mem_filter, h.mem_iff, decide_eq_true_eq, Option.mem_toList]
    constructor
    · rintro ⟨⟨hget, hq⟩, rfl⟩
      exact ⟨hget, hq⟩
    · rintro ⟨hget, hq⟩
      obtain rfl := getClass_internalName hget
      exact ⟨⟨hget, hq⟩, rfl⟩
  have hright : ((b.getClass n).toList.filter q).length ≤ 1 :=
    (List.length_filter_le _ _).trans (by cases b.getClass n <;> simp)
  generalize (ofBucket b).filter (fun c => c.internalName = n) = l at *
  generalize (b.getClass n).toList.filter q = l' at *
  rcases l with _ | ⟨c, _ | ⟨d, l⟩⟩ <;> rcases l' with _ | ⟨c', _ | ⟨d', l'⟩⟩ <;> simp_all

end BucketIndex

/-! ## Listings of one archive -/

namespace ArtifactScopeReader

/-- The classes of an archive, in slot order. -/
def allClasses (reader : ArtifactScopeReader) : List ClassMetadata :=
  reader.archive.classes.map ArchiveClassStub.materialize

/-- A listing of readers: handles of slots, that read the classes with property `q`. -/
structure Lists (ofReader : ArtifactScopeReader → List ArtifactClassHandle)
    (q : ClassMetadata → Bool) : Prop where
  slots : ∀ r, ∀ h ∈ ofReader r, ∃ i, h = r.classHandle i ∧ i < r.archive.classes.length
  classes : ∀ r, (ofReader r).filterMap r.getClass = r.allClasses.filter q

theorem lists_iterAll : Lists iterAllClassHandles fun _ => true where
  slots r h hh := by
    obtain ⟨i, hi, rfl⟩ := List.mem_map.mp hh
    exact ⟨i, rfl, List.mem_range.mp hi⟩
  classes r := by rw [classes_of_iterAll, allClasses, List.filter_true]

theorem lists_of_keys {κ : Type} [DecidableEq κ] {key : ArchiveClassStub → Option κ}
    (keyOfClass : ClassMetadata → Option κ) (hkey : ∀ c, keyOfClass c.materialize = key c) (k : κ) :
    Lists (fun r => ((KeyIndex.ofKeys (r.archive.classes.map key)).entries k).map r.classHandle)
      fun c => keyOfClass c = some k where
  slots r h hh := by
    obtain ⟨i, hi, rfl⟩ := List.mem_map.mp hh
    rw [KeyIndex.entries_ofKeys, List.length_map] at hi
    exact ⟨i, rfl, List.mem_range.mp (List.mem_of_mem_filter hi)⟩
  classes r := by
    rw [classes_of_entries, allClasses, List.filter_map]
    simp only [Function.comp_def, hkey]

theorem lists_simpleName (simpleName : String) :
    Lists (fun r => r.classHandlesBySimpleName simpleName)
      fun c => some c.name = some simpleName := by
  simp only [classHandlesBySimpleName, simpleNameIndex_eq]
  exact lists_of_keys (fun c => some c.name) (fun _ => rfl) simpleName

theorem lists_package (pkg : String) :
    Lists (fun r => r.classHandlesInPackage (BucketState.slashed pkg))
      fun c => c.package = some (BucketState.slashed pkg) := by
  simp only [classHandlesInPackage, packageIndex_eq]
  exact lists_of_keys ClassMetadata.package (fun _ => rfl) (BucketState.slashed pkg)

theorem lists_owner (ownerInternal : String) :
    Lists (fun r => r.directInnerClassHandles ownerInternal)
      fun c => c.innerClassOf = some ownerInternal := by
  simp only [directInnerClassHandles, ownerIndex_eq]
  exact lists_of_keys ClassMetadata.innerClassOf (fun _ => rfl) ownerInternal

end ArtifactScopeReader

namespace IndexView

variable {view : IndexView}

/-! ## Handles that resolve -/

/-- A handle that reads the class `c`, with the name and the precedence of `c`. -/
structure Reads (view : IndexView) (r : ClassHandleRef) (c : ClassMetadata) : Prop where
  resolve : view.resolveClassRef r = some c
  internalName : view.classRefInternalName r = some c.internalName
  precedence : view.classRefOriginPrecedence r = c.originPrecedence

theorem reads_overlay {b : BucketIndex} {c : ClassMetadata}
    (h : b.getClass c.internalName = some c) : view.Reads (overlayRef b c) c where
  resolve := h
  internalName := rfl
  precedence := by simp [classRefOriginPrecedence, overlayRef, h]

theorem reads_artifact {id : ArtifactId} {reader : ArtifactScopeReader} {i : ℕ}
    (hreader : view.artifactReader id = some reader) (hi : i < reader.archive.classes.length) :
    ∃ c, view.Reads (.artifact (reader.classHandle i)) c := by
  have hid : view.artifactReader (reader.classHandle i).artifactId = some reader := by
    rw [← hreader]
    exact congrArg _ (view.artifactReaders.artifactId_eq id reader hreader)
  have hstub : reader.stub (reader.classHandle i) = reader.archive.classes[i]? :=
    ArtifactScopeReader.stub_classHandle i
  rw [List.getElem?_eq_getElem hi] at hstub
  refine ⟨reader.archive.classes[i].materialize, ?_, ?_, ?_⟩
  · simp [resolveClassRef, hid, ArtifactScopeReader.getClass, hstub]
  · simp [classRefInternalName, hid, ArtifactScopeReader.classInternalName, hstub,
      ArchiveClassStub.materialize]
  · simp only [classRefOriginPrecedence, hid, Option.bind_some,
      ArtifactScopeReader.classOriginPrecedence, hstub, Option.map_some, Option.getD_some,
      ClassMetadata.originPrecedence, ArchiveClassStub.materialize] <;> rfl

theorem Reads.ranked {r : ClassHandleRef} (h : ∃ c, view.Reads r c) :
    ∃ c, view.resolveClassRef r = some c ∧
      ClassMetadata.originPrecedence c = view.classRefOriginPrecedence r :=
  h.imp fun _ hc => ⟨hc.resolve, hc.precedence.symm⟩

theorem Reads.named {r : ClassHandleRef} (h : ∃ c, view.Reads r c) (n : String) :
    ∃ c, view.resolveClassRef r = some c ∧
      decide (c.internalName = n) = decide (view.classRefInternalName r = some n) :=
  h.imp fun _ hc => ⟨hc.resolve, by simp [hc.internalName]⟩

/-! ## Lookup -/

/-- The class a layer answers for a name. -/
def layerGetClass (view : IndexView) (n : String) (layer : ScopeLayer BucketIndex) :
    Option ClassMetadata :=
  (view.layerGetClassRef n layer).bind view.resolveClassRef

/-- The classes the layers answer for a name, in layer order. -/
def heldNamed (view : IndexView) (n : String) : List ClassMetadata :=
  view.layers.filterMap (view.layerGetClass n)

theorem reads_layerGetClassRef {n : String} {layer : ScopeLayer BucketIndex} {r : ClassHandleRef}
    (h : view.layerGetClassRef n layer = some r) : ∃ c, view.Reads r c := by
  cases layer with
  | overlay b =>
    obtain ⟨c, hc, rfl⟩ := Option.map_eq_some_iff.mp h
    obtain rfl := BucketIndex.getClass_internalName hc
    exact ⟨c, reads_overlay hc⟩
  | artifact id =>
    obtain ⟨handle, hhandle, rfl⟩ := Option.map_eq_some_iff.mp h
    obtain ⟨reader, hreader, hget⟩ := Option.bind_eq_some_iff.mp hhandle
    obtain ⟨i, hi, rfl⟩ := Option.map_eq_some_iff.mp hget
    rw [reader.byInternal_eq, KeyIndex.lookup_lastPositions] at hi
    have hmem := List.mem_of_mem_filter (List.mem_of_getLast? hi)
    rw [List.length_map] at hmem
    exact reads_artifact hreader (List.mem_range.mp hmem)

theorem keepBest_foldl (refs : List ClassHandleRef) :
    refs.foldl view.keepBest none = refs.argmax view.classRefOriginPrecedence := by
  induction refs using List.reverseRecOn with
  | nil => rfl
  | append_singleton refs r ih =>
    rw [List.foldl_concat, ih, List.argmax_concat]
    cases refs.argmax view.classRefOriginPrecedence with
    | none => rfl
    | some current => simp [keepBest, shouldReplaceRef]

/-- `get_class` is the first held class of the highest precedence. -/
theorem getClass_eq_argmax (view : IndexView) (n : String) :
    view.getClass n = (view.heldNamed n).argmax ClassMetadata.originPrecedence := by
  have hreads : ∀ r ∈ view.layers.filterMap (view.layerGetClassRef n), ∃ c, view.Reads r c := by
    intro r hr
    obtain ⟨layer, -, hlayer⟩ := List.mem_filterMap.mp hr
    exact reads_layerGetClassRef hlayer
  have hheld : view.heldNamed n =
      (view.layers.filterMap (view.layerGetClassRef n)).filterMap view.resolveClassRef := by
    rw [List.filterMap_filterMap]
    rfl
  rw [hheld, argmax_filterMap fun r hr => Reads.ranked (hreads r hr), ← keepBest_foldl]
  rfl

/-! ## Listings -/

/-- The classes read from a list of handles. -/
theorem mem_resolve_merge {refs : List ClassHandleRef} (h : ∀ r ∈ refs, ∃ c, view.Reads r c)
    {c : ClassMetadata} :
    c ∈ view.resolveClassRefs
        (merge view.classRefInternalName view.classRefOriginPrecedence refs) ↔
      ((view.resolveClassRefs refs).filter fun d => d.internalName = c.internalName).argmax
        ClassMetadata.originPrecedence = some c := by
  have hfilter (n : String) : (view.resolveClassRefs refs).filter (fun d => d.internalName = n) =
      (refs.filter fun r => view.classRefInternalName r = some n).filterMap view.resolveClassRef :=
    filter_filterMap_of fun r hr => Reads.named (h r hr) n
  have hbest (n : String) : ((view.resolveClassRefs refs).filter fun d => d.internalName = n).argmax
      ClassMetadata.originPrecedence =
      ((refs.filter fun r => view.classRefInternalName r = some n).argmax
        view.classRefOriginPrecedence).bind view.resolveClassRef := by
    rw [hfilter, argmax_filterMap fun r hr => Reads.ranked (h r (List.mem_of_mem_filter hr))]
  rw [hbest]
  constructor
  · intro hc
    obtain ⟨r, hr, hrc⟩ := List.mem_filterMap.mp hc
    obtain ⟨n, hn, hmax⟩ := mem_merge.mp hr
    obtain ⟨d, hd⟩ := h r (List.mem_of_mem_filter (List.argmax_mem hmax))
    obtain rfl := Option.some.inj (hd.resolve.symm.trans hrc)
    obtain rfl := Option.some.inj (hn.symm.trans hd.internalName)
    rw [hmax, Option.bind_some, hrc]
  · intro hc
    obtain ⟨r, hmax, hrc⟩ := Option.bind_eq_some_iff.mp hc
    have hname := List.of_mem_filter (List.argmax_mem hmax)
    exact List.mem_filterMap.mpr
      ⟨r, mem_merge.mpr ⟨c.internalName, by simpa using hname, hmax⟩, hrc⟩

theorem names_of_reads {refs : List ClassHandleRef} (h : ∀ r ∈ refs, ∃ c, view.Reads r c) :
    ((view.resolveClassRefs refs).map ClassMetadata.internalName).map some =
      refs.map view.classRefInternalName := by
  induction refs with
  | nil => rfl
  | cons r refs ih =>
    obtain ⟨c, hc⟩ := h r (List.mem_cons_self ..)
    have ih := ih fun r hr => h r (List.mem_cons_of_mem _ hr)
    rw [resolveClassRefs, List.filterMap_cons_some hc.resolve, List.map_cons, List.map_cons,
      List.map_cons, hc.internalName, ← ih]
    rfl

theorem resolve_merge_nodup {refs : List ClassHandleRef} (h : ∀ r ∈ refs, ∃ c, view.Reads r c) :
    ((view.resolveClassRefs (merge view.classRefInternalName view.classRefOriginPrecedence refs)).map
      ClassMetadata.internalName).Nodup := by
  have hreads : ∀ r ∈ merge view.classRefInternalName view.classRefOriginPrecedence refs,
      ∃ c, view.Reads r c := by
    intro r hr
    obtain ⟨n, -, hmax⟩ := mem_merge.mp hr
    exact h r (List.mem_of_mem_filter (List.argmax_mem hmax))
  refine List.Nodup.of_map some ?_
  rw [names_of_reads hreads]
  exact merge_key_nodup refs

/-- The classes of a layer: every record of a bucket, every stub of an archive. -/
def layerRecords (view : IndexView) : ScopeLayer BucketIndex → List ClassMetadata
  | .overlay bucket => bucket.iterAllClasses
  | .artifact id => ((view.artifactReader id).map ArtifactScopeReader.allClasses).getD []

/-- All classes of all layers, in layer order and then in the order of the layer. -/
def records (view : IndexView) : List ClassMetadata :=
  view.layers.flatMap view.layerRecords

def recordsNamed (view : IndexView) (n : String) : List ClassMetadata :=
  view.records.filter fun c => c.internalName = n

section Listing

variable {ofBucket : BucketIndex → List ClassMetadata}
  {ofReader : ArtifactScopeReader → List ArtifactClassHandle} {q : ClassMetadata → Bool}

theorem reads_layerRefs (hb : BucketIndex.Lists ofBucket q) (hr : ArtifactScopeReader.Lists ofReader q)
    {layer : ScopeLayer BucketIndex} {r : ClassHandleRef}
    (h : r ∈ view.layerRefs ofBucket ofReader layer) : ∃ c, view.Reads r c := by
  cases layer with
  | overlay b =>
    obtain ⟨c, hc, rfl⟩ := List.mem_map.mp h
    exact ⟨c, reads_overlay ((hb.mem_iff b c).mp hc).1⟩
  | artifact id =>
    cases hreader : view.artifactReader id with
    | none => simp [layerRefs, hreader] at h
    | some reader =>
      simp only [layerRefs, hreader, Option.map_some, Option.getD_some] at h
      obtain ⟨handle, hhandle, rfl⟩ := List.mem_map.mp h
      obtain ⟨i, rfl, hi⟩ := hr.slots reader handle hhandle
      exact reads_artifact hreader hi

/-- Under one name a layer lists its records with the property of the listing. -/
theorem resolve_layerRefs_named (hb : BucketIndex.Lists ofBucket q)
    (hr : ArtifactScopeReader.Lists ofReader q) (n : String) (layer : ScopeLayer BucketIndex) :
    (view.resolveClassRefs (view.layerRefs ofBucket ofReader layer)).filter
        (fun c => c.internalName = n) =
      ((view.layerRecords layer).filter fun c => c.internalName = n).filter q := by
  cases layer with
  | overlay b =>
    have hresolve : view.resolveClassRefs (view.layerRefs ofBucket ofReader (.overlay b)) =
        ofBucket b := by
      rw [resolveClassRefs, layerRefs, List.filterMap_map]
      refine (List.filterMap_congr fun c hc => ?_).trans List.filterMap_some
      exact ((hb.mem_iff b c).mp hc).1
    rw [hresolve, hb.filter_named, layerRecords,
      BucketIndex.lists_iterAllClasses.filter_named, List.filter_true]
  | artifact id =>
    cases hreader : view.artifactReader id with
    | none => simp [layerRefs, layerRecords, hreader, resolveClassRefs]
    | some reader =>
      have hresolve : view.resolveClassRefs ((ofReader reader).map .artifact) =
          reader.allClasses.filter q := by
        rw [resolveClassRefs, List.filterMap_map, ← hr.classes]
        refine List.filterMap_congr fun handle hhandle => ?_
        obtain ⟨i, rfl, -⟩ := hr.slots reader handle hhandle
        have hid : view.artifactReader (reader.classHandle i).artifactId = some reader := by
          rw [← hreader]
          exact congrArg _ (view.artifactReaders.artifactId_eq id reader hreader)
        simp [resolveClassRef, hid]
      simp only [layerRefs, layerRecords, hreader, Option.map_some, Option.getD_some, hresolve,
        List.filter_filter, Bool.and_comm]

/-- A listing holds, for every name, the best of the records with the property of the listing. -/
theorem mem_listing (hb : BucketIndex.Lists ofBucket q) (hr : ArtifactScopeReader.Lists ofReader q)
    {c : ClassMetadata} :
    c ∈ view.resolveClassRefs (view.mergeClassRefs (view.layerRefs ofBucket ofReader)) ↔
      ((view.recordsNamed c.internalName).filter q).argmax ClassMetadata.originPrecedence =
        some c := by
  have hreads : ∀ r ∈ view.layers.flatMap (view.layerRefs ofBucket ofReader),
      ∃ c, view.Reads r c := by
    intro r h
    obtain ⟨layer, -, hlayer⟩ := List.mem_flatMap.mp h
    exact reads_layerRefs hb hr hlayer
  rw [mergeClassRefs, mem_resolve_merge hreads]
  have hnamed (n : String) : (view.resolveClassRefs
      (view.layers.flatMap (view.layerRefs ofBucket ofReader))).filter
        (fun d => d.internalName = n) = (view.recordsNamed n).filter q := by
    rw [recordsNamed, records, resolveClassRefs, List.filterMap_flatMap, List.filter_flatMap,
      List.filter_flatMap, List.filter_flatMap]
    exact List.flatMap_congr fun layer _ => resolve_layerRefs_named hb hr n layer
  rw [hnamed]

theorem listing_nodup (hb : BucketIndex.Lists ofBucket q) (hr : ArtifactScopeReader.Lists ofReader q) :
    ((view.resolveClassRefs (view.mergeClassRefs (view.layerRefs ofBucket ofReader))).map
      ClassMetadata.internalName).Nodup :=
  resolve_merge_nodup fun r h => by
    obtain ⟨layer, -, hlayer⟩ := List.mem_flatMap.mp h
    exact reads_layerRefs hb hr hlayer

end Listing

/-! ## Which layers are listed faithfully -/

/-- The first of a list of classes with the highest origin precedence. -/
def FirstBest (l : List ClassMetadata) (c : ClassMetadata) : Prop :=
  ∃ pre post, l = pre ++ c :: post ∧ (∀ d ∈ pre, d.originPrecedence < c.originPrecedence) ∧
    ∀ d ∈ post, d.originPrecedence ≤ c.originPrecedence

theorem firstBest_iff {l : List ClassMetadata} {c : ClassMetadata} :
    FirstBest l c ↔ l.argmax ClassMetadata.originPrecedence = some c :=
  argmax_eq_some_iff_split.symm

/-- The listings of a view, with their keys. -/
inductive ListingKey where
  | simpleName (simpleName : String)
  | package (pkg : String)
  | owner (ownerInternal : String)
  | all

def listing (view : IndexView) : ListingKey → List ClassMetadata
  | .simpleName n => view.getClassesBySimpleName n
  | .package pkg => view.classesInPackage pkg
  | .owner o => view.directInnerClassesOf o
  | .all => view.iterAllClasses

/-- The property of the classes that a listing asks for. -/
def ListingKey.asks : ListingKey → ClassMetadata → Bool
  | .simpleName n, c => some c.name = some n
  | .package pkg, c => c.package = some (BucketState.slashed pkg)
  | .owner o, c => c.innerClassOf = some o
  | .all, _ => true

theorem mem_listing_iff {k : ListingKey} {c : ClassMetadata} : c ∈ view.listing k ↔
    FirstBest ((view.recordsNamed c.internalName).filter k.asks) c := by
  rw [firstBest_iff]
  cases k with
  | simpleName n =>
    exact mem_listing (BucketIndex.lists_simpleName n) (ArtifactScopeReader.lists_simpleName n)
  | package pkg =>
    exact mem_listing (BucketIndex.lists_package pkg) (ArtifactScopeReader.lists_package pkg)
  | owner o => exact mem_listing (BucketIndex.lists_owner o) (ArtifactScopeReader.lists_owner o)
  | all => exact mem_listing BucketIndex.lists_iterAllClasses ArtifactScopeReader.lists_iterAll

theorem listing_names_nodup (k : ListingKey) :
    ((view.listing k).map ClassMetadata.internalName).Nodup := by
  cases k with
  | simpleName n =>
    exact listing_nodup (BucketIndex.lists_simpleName n) (ArtifactScopeReader.lists_simpleName n)
  | package pkg =>
    exact listing_nodup (BucketIndex.lists_package pkg) (ArtifactScopeReader.lists_package pkg)
  | owner o => exact listing_nodup (BucketIndex.lists_owner o) (ArtifactScopeReader.lists_owner o)
  | all => exact listing_nodup BucketIndex.lists_iterAllClasses ArtifactScopeReader.lists_iterAll

theorem getClass_iff_firstBest {n : String} {c : ClassMetadata} :
    view.getClass n = some c ↔ FirstBest (view.heldNamed n) c := by
  rw [getClass_eq_argmax, firstBest_iff]

/-- Lookup follows the layers, and every listing shows what lookup answers. -/
structure LayerPrecedence (view : IndexView) : Prop where
  lookup : ∀ n c, view.getClass n = some c ↔ FirstBest (view.heldNamed n) c
  listed : ∀ k, ∀ c ∈ view.listing k, view.getClass c.internalName = some c
  nodup : ∀ k, ((view.listing k).map ClassMetadata.internalName).Nodup

/-- The best class of a name is the same among the records and among what the layers answer, and no
record of the name has a simple name, a package or an owner that this class does not have. -/
structure Agrees (view : IndexView) (r w : ClassMetadata) : Prop where
  recorded : FirstBest (view.recordsNamed r.internalName) w
  held : FirstBest (view.heldNamed r.internalName) w
  name : r.name = w.name
  package : ∀ p, r.package = some p → '.' ∉ p.toList → w.package = some p
  owner : ∀ o, r.innerClassOf = some o → w.innerClassOf = some o

theorem slashed_of_not_mem {p : String} (h : '.' ∉ p.toList) : BucketState.slashed p = p := by
  apply String.toList_inj.mp
  rw [BucketState.slashed, String.toList_ofList]
  refine (List.map_congr_left fun c hc => ?_).trans (List.map_id _)
  have hne : c ≠ '.' := by
    rintro rfl
    exact h hc
  exact if_neg hne

theorem slashed_append (s t : String) :
    BucketState.slashed (s ++ t) = BucketState.slashed s ++ BucketState.slashed t := by
  apply String.toList_inj.mp
  simp [BucketState.slashed, String.toList_append]

theorem not_mem_slashed (p : String) : '.' ∉ (BucketState.slashed p).toList := by
  rw [BucketState.slashed, String.toList_ofList, List.mem_map]
  rintro ⟨c, -, hc⟩
  split at hc
  · cases hc
  · rename_i hne
    exact hne hc

theorem mem_recordsNamed {n : String} {c : ClassMetadata} :
    c ∈ view.recordsNamed n ↔ c ∈ view.records ∧ c.internalName = n := by
  simp [recordsNamed]

theorem FirstBest.mem {l : List ClassMetadata} {c : ClassMetadata} (h : FirstBest l c) : c ∈ l :=
  List.argmax_mem (firstBest_iff.mp h)

theorem FirstBest.unique {l : List ClassMetadata} {c d : ClassMetadata} (hc : FirstBest l c)
    (hd : FirstBest l d) : c = d :=
  Option.some.inj ((firstBest_iff.mp hc).symm.trans (firstBest_iff.mp hd))

/-- In a faithful view a record with the property of a listing is shown as the class of its name. -/
theorem LayerPrecedence.asks (h : view.LayerPrecedence) {r w : ClassMetadata} (hr : r ∈ view.records)
    (hw : view.getClass r.internalName = some w) {k : ListingKey} (hk : k.asks r = true) :
    k.asks w = true := by
  have hmem : r ∈ (view.recordsNamed r.internalName).filter k.asks :=
    List.mem_filter.mpr ⟨mem_recordsNamed.mpr ⟨hr, rfl⟩, hk⟩
  obtain ⟨v, hv⟩ := exists_argmax_of_mem ClassMetadata.originPrecedence hmem
  obtain ⟨hvmem, hvk⟩ := List.mem_filter.mp (List.argmax_mem hv)
  have hname := (mem_recordsNamed.mp hvmem).2
  have hlisted := h.listed k v (mem_listing_iff.mpr (by rwa [hname, firstBest_iff]))
  rw [hname, hw] at hlisted
  exact Option.some.inj hlisted ▸ hvk

theorem LayerPrecedence.agrees (h : view.LayerPrecedence) {r : ClassMetadata}
    (hr : r ∈ view.records) : ∃ w, view.Agrees r w := by
  obtain ⟨w, hw⟩ := exists_argmax_of_mem ClassMetadata.originPrecedence
    (mem_recordsNamed.mpr ⟨hr, rfl⟩)
  have hwname := (mem_recordsNamed.mp (List.argmax_mem hw)).2
  have hget : view.getClass r.internalName = some w := by
    rw [← hwname]
    refine h.listed .all w (mem_listing_iff.mpr ?_)
    rw [hwname, firstBest_iff, show ListingKey.all.asks = fun _ => true from rfl, List.filter_true]
    exact hw
  refine ⟨w, firstBest_iff.mpr hw, getClass_iff_firstBest.mp hget, ?_, fun p hp hdot => ?_,
    fun o ho => ?_⟩
  · have hasks := h.asks hr hget (k := .simpleName r.name) (by simp [ListingKey.asks])
    simpa [ListingKey.asks, eq_comm] using hasks
  · have hasks := h.asks hr hget (k := .package p)
      (by simp [ListingKey.asks, slashed_of_not_mem hdot, hp])
    simpa [ListingKey.asks, slashed_of_not_mem hdot] using hasks
  · have hasks := h.asks hr hget (k := .owner o) (by simp [ListingKey.asks, ho])
    simpa [ListingKey.asks] using hasks

theorem Agrees.asks {r w : ClassMetadata} (h : view.Agrees r w) {k : ListingKey}
    (hk : k.asks r = true) : k.asks w = true := by
  cases k with
  | simpleName n => simpa [ListingKey.asks, ← h.name] using hk
  | package pkg =>
    have hp : r.package = some (BucketState.slashed pkg) := by simpa [ListingKey.asks] using hk
    simpa [ListingKey.asks] using h.package _ hp (not_mem_slashed pkg)
  | owner o =>
    have ho : r.innerClassOf = some o := by simpa [ListingKey.asks] using hk
    simpa [ListingKey.asks] using h.owner o ho
  | all => rfl

/-- A view shows through every listing what `get_class` answers exactly when, for every record of
every layer, the best record of its name agrees with it on the keys of the listings. -/
theorem get_class_listings_iff (view : IndexView) :
    view.LayerPrecedence ↔ ∀ r ∈ view.records, ∃ w, view.Agrees r w := by
  refine ⟨fun h r hr => h.agrees hr, fun hall =>
    ⟨fun n c => getClass_iff_firstBest, fun k c hc => ?_, listing_names_nodup⟩⟩
  have hbest := mem_listing_iff.mp hc
  obtain ⟨hmem, hk⟩ := List.mem_filter.mp hbest.mem
  obtain ⟨w, hw⟩ := hall c (mem_recordsNamed.mp hmem).1
  have hkept := argmax_filter (firstBest_iff.mp hw.recorded) (hw.asks hk)
  obtain rfl := hbest.unique (firstBest_iff.mpr hkept)
  exact getClass_iff_firstBest.mpr hw.held

/-- An open file declares a top-level class `A$B` where a jar has a class `B` nested in `A`: the owner
listing shows the class of the jar. -/
theorem listing_shows_shadowed : ¬ ∀ view : IndexView, view.LayerPrecedence := by
  intro hall
  let opened : ClassMetadata :=
    .bare (some "p") "A$B" "p/A$B" none (.sourceFile "file:///p/A$B.java")
  let nested : ClassMetadata :=
    .bare (some "p") "B" "p/A$B" (some "p/A") (.jar "lib.jar")
  have hlisted := (hall (.new [BucketIndex.new.addClasses [opened],
    BucketIndex.new.addArchiveClasses [nested]])).listed (.owner "p/A") nested (by decide)
  exact absurd hlisted (by decide)

end IndexView

end JavaAnalyzer.Index
