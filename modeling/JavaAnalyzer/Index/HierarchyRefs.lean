import JavaAnalyzer.Index.HierarchyMembers

/-! # Lookup by reference

The lookups by reference against the materialised ones. Both shadow the same list of methods paired
with their references, so they agree on names, descriptors and flags, and `refs_agree_iff` says when
every reference is read back as the method it stands for. -/

namespace JavaAnalyzer.Index
set_option autoImplicit false
open Dedup

namespace IndexView

variable {view : IndexView}

/-! ## Methods paired with their references -/

/-- The methods of a class with a given name, each with the reference made for it. -/
def methodRefPairs (view : IndexView) (methodName : String) :
    ClassHandleRef → List (MethodSummary × MethodRef)
  | .overlay bucket internalName =>
    match bucket.getClass internalName with
    | none => []
    | some c => (methodsNamed methodName c).map fun m =>
        (m, ⟨.source internalName, m.name, m.desc, m.accessFlags, none⟩)
  | .artifact handle =>
    match (view.artifactReader handle.artifactId).bind fun reader => reader.stub handle with
    | none => []
    | some stub => (stub.methods.zipIdx.filter fun (m, _) => m.name = methodName).map fun (m, slot) =>
        (m.materialize, ⟨.artifact stub.internalName handle, m.name, m.descriptor, m.accessFlags,
          some ⟨handle, slot⟩⟩)

theorem filter_zipIdx_map {α β : Type} (l : List α) (p : α → Bool) (f : α → β) :
    (l.zipIdx.filter fun (x, _) => p x).map (fun (x, _) => f x) = (l.filter p).map f := by
  have hfst : (l.zipIdx.filter fun (x, _) => p x).map Prod.fst = l.filter p := by
    conv_rhs => rw [← List.zipIdx_map_fst 0 l]
    rw [List.filter_map]
    rfl
  rw [← hfst, List.map_map]
  rfl

theorem methodRefPairs_fst {r : ClassHandleRef} {c : ClassMetadata} (h : view.Reads r c)
    (methodName : String) :
    (view.methodRefPairs methodName r).map Prod.fst = methodsNamed methodName c := by
  cases r with
  | overlay b n =>
    have hget : b.getClass n = some c := h.resolve
    simp only [methodRefPairs, hget, List.map_map]
    exact List.map_id _
  | artifact handle =>
    obtain ⟨reader, stub, hreader, hstub, -, rfl⟩ := stub_of_resolve h.resolve
    simp only [methodRefPairs, hreader, Option.bind_some, hstub, List.map_map]
    refine (filter_zipIdx_map stub.methods (fun m => m.name = methodName)
      ArchiveMethodStub.materialize).trans ?_
    rw [methodsNamed, ArchiveClassStub.materialize, List.filter_map]
    rfl

theorem materialize_shadowKey {m : ArchiveMethodStub}
    (h : Jvm.isMethodDescriptor m.descriptor.toList = true) : m.materialize.shadowKey = m.shadowKey := by
  rw [MethodSummary.shadowKey, ArchiveMethodStub.materialize_desc h]
  rfl

theorem methodRefCandidates_eq {r : ClassHandleRef} {c : ClassMetadata} (h : view.Reads r c)
    (methodName : String) : view.methodRefCandidates methodName r =
      (view.methodRefPairs methodName r).map fun t => (t.1.shadowKey, t.2) := by
  cases r with
  | overlay b n =>
    have hget : b.getClass n = some c := h.resolve
    simp only [methodRefCandidates, typeRefFromClassRef, resolveClassRef, methodRefPairs, hget,
      List.map_map]
    rfl
  | artifact handle =>
    obtain ⟨reader, stub, hreader, hstub, hmem, rfl⟩ := stub_of_resolve h.resolve
    have howner : view.typeRefFromClassRef (.artifact handle) =
        some (.artifact stub.internalName handle) := by
      simp [typeRefFromClassRef, classRefInternalName, hreader,
        ArtifactScopeReader.classInternalName, hstub]
    simp only [methodRefCandidates, howner, hreader, ArtifactScopeReader.methodHandlesNamed, hstub,
      methodRefPairs, Option.bind_some, Option.map_some, Option.getD_some, List.map_map,
      List.filterMap_map]
    rw [← List.filterMap_eq_map]
    refine List.filterMap_congr fun p hp => ?_
    obtain ⟨m, slot⟩ := p
    have hslot := List.mem_zipIdx_iff_getElem?.mp (List.mem_of_mem_filter hp)
    have hm : m ∈ stub.methods := List.mem_of_getElem? hslot
    simp only [Function.comp_apply, ArtifactScopeReader.methodStub, hstub, Option.bind_eq_bind,
      Option.bind_some, hslot, Option.map_some,
      materialize_shadowKey (reader.archive.methodDescriptors stub hmem m hm)]

/-- All pairs of the hierarchy for a name, and those that are kept. -/
def hierarchyPairs (view : IndexView) (classInternal methodName : String) :
    List (MethodSummary × MethodRef) :=
  (view.hierarchyOrder classInternal).flatMap (view.methodRefPairs methodName)

def keptPairs (view : IndexView) (classInternal methodName : String) :
    List (MethodSummary × MethodRef) :=
  dedupBy (fun t => t.1.shadowKey) [] (view.hierarchyPairs classInternal methodName)

theorem keptPairs_methods (classInternal methodName : String) :
    (view.keptPairs classInternal methodName).map Prod.fst =
      view.lookupMethodsInHierarchy classInternal methodName := by
  have hall : (view.hierarchyPairs classInternal methodName).map Prod.fst =
      ((view.hierarchyClasses classInternal).flatMap ClassMetadata.methods).filter
        fun m => m.name = methodName := by
    rw [hierarchyPairs, List.map_flatMap, List.filter_flatMap]
    exact flatMap_of_reads fun r hr => (reads_hierarchyOrder hr).imp fun c hc =>
      ⟨hc.1, methodRefPairs_fst hc.1 methodName⟩
  rw [lookupMethodsInHierarchy_eq, ← hall, dedupBy_map]
  rfl

theorem keptPairs_refs (classInternal methodName : String) :
    (view.keptPairs classInternal methodName).map Prod.snd =
      view.lookupMethodsInHierarchyRefs classInternal methodName := by
  have hall : (view.hierarchyOrder classInternal).flatMap (view.methodRefCandidates methodName) =
      (view.hierarchyPairs classInternal methodName).map fun t => (t.1.shadowKey, t.2) := by
    rw [hierarchyPairs, List.map_flatMap]
    refine List.flatMap_congr fun r hr => ?_
    obtain ⟨c, hc, -⟩ := reads_hierarchyOrder hr
    exact methodRefCandidates_eq hc methodName
  rw [lookupMethodsInHierarchyRefs, hall, dedupBy_map, List.map_map]
  rfl

/-! ## Reading a reference back -/

/-- A reference carries the data of a method and is materialised to it. -/
structure RefAgrees (view : IndexView) (m : MethodSummary) (r : MethodRef) : Prop where
  name : r.name = m.name
  descriptor : r.descriptor = m.desc
  accessFlags : r.accessFlags = m.accessFlags
  materialize : view.materializeMethod r = some m

theorem refAgrees_artifact {handle : ArtifactClassHandle} {c : ClassMetadata}
    (h : view.Reads (.artifact handle) c) {methodName : String} {t : MethodSummary × MethodRef}
    (ht : t ∈ view.methodRefPairs methodName (.artifact handle)) : view.RefAgrees t.1 t.2 := by
  obtain ⟨reader, stub, hreader, hstub, hmem, rfl⟩ := stub_of_resolve h.resolve
  simp only [methodRefPairs, hreader, Option.bind_some, hstub] at ht
  obtain ⟨⟨m, slot⟩, hp, rfl⟩ := List.mem_map.mp ht
  have hslot := List.mem_zipIdx_iff_getElem?.mp (List.mem_of_mem_filter hp)
  have hm : m ∈ stub.methods := List.mem_of_getElem? hslot
  refine ⟨rfl, (ArchiveMethodStub.materialize_desc
    (reader.archive.methodDescriptors stub hmem m hm)).symm, rfl, ?_⟩
  simp only at hslot
  simp [materializeMethod, hreader, ArtifactScopeReader.materializeMethod,
    ArtifactScopeReader.methodStub, hstub, hslot]

/-- The reference of an overlay method is read back as the first method of its name and descriptor. -/
theorem refAgrees_overlay_iff {b : BucketIndex} {c : ClassMetadata}
    (hget : b.getClass c.internalName = some c)
    (hfound : view.getClassRefByInternal c.internalName = some (.overlay b c.internalName))
    (m : MethodSummary) :
    view.RefAgrees m ⟨.source c.internalName, m.name, m.desc, m.accessFlags, none⟩ ↔
      (c.methods.find? fun m' => m'.name = m.name && m'.desc = m.desc) = some m := by
  have hread : view.materializeMethod ⟨.source c.internalName, m.name, m.desc, m.accessFlags, none⟩ =
      c.methods.find? fun m' => m'.name = m.name && m'.desc = m.desc := by
    simp [materializeMethod, materializeClass, classRefFromTypeRef, hfound, resolveClassRef, hget]
  rw [← hread]
  exact ⟨fun h => h.materialize, fun h => ⟨rfl, rfl, rfl, h⟩⟩

/-! ## Fields -/

structure FieldRefAgrees (view : IndexView) (f : FieldSummary) (r : FieldRef) : Prop where
  name : r.name = f.name
  descriptor : r.descriptor = f.descriptor
  accessFlags : r.accessFlags = f.accessFlags
  materialize : view.materializeField r = some f

theorem find?_descriptor {fields : List FieldSummary} {fieldName : String} {f : FieldSummary}
    (h : (fields.find? fun f => f.name = fieldName) = some f) :
    (fields.find? fun f' => f'.name = f.name && f'.descriptor = f.descriptor) = some f := by
  have hname : f.name = fieldName := by simpa using List.find?_some h
  obtain ⟨-, as, bs, rfl, has⟩ := List.find?_eq_some_iff_append.mp h
  refine List.find?_eq_some_iff_append.mpr ⟨by simp, as, bs, rfl, fun a ha => ?_⟩
  have hne : ¬ a.name = fieldName := by simpa using has a ha
  simp [hname, hne]

theorem fieldRefOf_agrees {r : ClassHandleRef} {c : ClassMetadata} (h : view.Reads r c)
    (hfound : view.getClassRefByInternal c.internalName = some r) (fieldName : String) :
    Option.Rel view.FieldRefAgrees (c.fields.find? fun f => f.name = fieldName)
      (view.fieldRefOf fieldName r) := by
  cases r with
  | overlay b n =>
    obtain rfl : n = c.internalName := by simpa [classRefInternalName] using h.internalName
    have hget : b.getClass c.internalName = some c := h.resolve
    cases hf : c.fields.find? fun f => f.name = fieldName with
    | none =>
      simp only [fieldRefOf, typeRefFromClassRef, resolveClassRef, hget, hf, Option.bind_eq_bind,
        Option.bind_some, Option.bind_none]
      exact .none
    | some f =>
      simp only [fieldRefOf, typeRefFromClassRef, resolveClassRef, hget, hf, Option.bind_eq_bind,
        Option.bind_some]
      refine .some ⟨rfl, rfl, rfl, ?_⟩
      simp [materializeField, materializeClass, classRefFromTypeRef, hfound, resolveClassRef, hget,
        find?_descriptor hf]
  | artifact handle =>
    obtain ⟨reader, stub, hreader, hstub, -, rfl⟩ := stub_of_resolve h.resolve
    have howner : view.typeRefFromClassRef (.artifact handle) =
        some (.artifact stub.internalName handle) := by
      simp [typeRefFromClassRef, classRefInternalName, hreader,
        ArtifactScopeReader.classInternalName, hstub]
    have hstubs : (stub.materialize.fields.find? fun f => f.name = fieldName) =
        (stub.fields.find? fun f => f.name = fieldName).map ArchiveFieldStub.materialize := by
      rw [ArchiveClassStub.materialize, List.find?_map]
      rfl
    rw [hstubs]
    simp only [fieldRefOf, howner, hreader, ArtifactScopeReader.fieldHandleByName, hstub,
      Option.bind_eq_bind, Option.bind_some]
    generalize hf : List.find? _ stub.fields.zipIdx = found
    have hslots : (stub.fields.find? fun f => f.name = fieldName) = found.map Prod.fst := by
      conv_lhs => rw [← List.zipIdx_map_fst 0 stub.fields]
      rw [List.find?_map, ← hf]
      rfl
    rw [hslots]
    cases found with
    | none => exact .none
    | some p =>
      obtain ⟨f, slot⟩ := p
      have hslot : stub.fields[slot]? = some f :=
        List.mem_zipIdx_iff_getElem?.mp (List.mem_of_find?_eq_some hf)
      simp only [Option.bind_some, ArtifactScopeReader.fieldStub, hstub, Option.bind_eq_bind, hslot,
        Option.map_some]
      refine .some ⟨rfl, rfl, rfl, ?_⟩
      simp [materializeField, hreader, ArtifactScopeReader.materializeField,
        ArtifactScopeReader.fieldStub, hstub, hslot]

theorem lookupField_agrees (classInternal fieldName : String) :
    Option.Rel view.FieldRefAgrees (view.lookupFieldInHierarchy classInternal fieldName)
      (view.lookupFieldInHierarchyRef classInternal fieldName) := by
  have hfirst : view.lookupFieldInHierarchy classInternal fieldName =
      ((view.hierarchyClasses classInternal).flatMap ClassMetadata.fields).find?
        fun f => f.name = fieldName := by
    rw [lookupFieldInHierarchy, collectInheritedMembers, fields_hierarchyOrder]
    refine find?_dedupBy (fun x y hxy => ?_) _
    rw [hxy]
  have hrefs : ∀ r ∈ view.hierarchyOrder classInternal,
      ∃ c, view.Reads r c ∧ view.getClassRefByInternal c.internalName = some r :=
    fun r hr => reads_hierarchyOrder hr
  rw [hfirst, lookupFieldInHierarchyRef, hierarchyClasses]
  generalize view.hierarchyOrder classInternal = refs at hrefs
  induction refs with
  | nil => exact .none
  | cons r refs ih =>
    obtain ⟨c, hc, hfound⟩ := hrefs r (List.mem_cons_self ..)
    have ih := ih fun r hr => hrefs r (List.mem_cons_of_mem _ hr)
    have hhead := fieldRefOf_agrees hc hfound fieldName
    rw [resolveClassRefs, List.filterMap_cons_some hc.resolve, List.flatMap_cons, List.find?_append,
      List.findSome?_cons]
    generalize c.fields.find? (fun f => f.name = fieldName) = found at hhead
    generalize view.fieldRefOf fieldName r = ref at hhead
    cases hhead with
    | none => exact ih
    | some hagrees => exact .some hagrees

/-! ## When the lookups agree -/

/-- Position by position, a reference carries the data of the method and is read back as it, and the
same for the field lookups. -/
structure RefsAgree (view : IndexView) (classInternal methodName : String) : Prop where
  methods : List.Forall₂ view.RefAgrees (view.lookupMethodsInHierarchy classInternal methodName)
    (view.lookupMethodsInHierarchyRefs classInternal methodName)
  fields : ∀ fieldName, Option.Rel view.FieldRefAgrees
    (view.lookupFieldInHierarchy classInternal fieldName)
    (view.lookupFieldInHierarchyRef classInternal fieldName)

/-- In every overlay class of the hierarchy, a method that repeats name and descriptor of an earlier
method of the class is hidden by its shadow key. -/
def OverlayRepeatsHidden (view : IndexView) (classInternal methodName : String) : Prop :=
  ∀ before bucket internalName after c,
    view.hierarchyOrder classInternal = before ++ .overlay bucket internalName :: after →
    bucket.getClass internalName = some c →
    ∀ pre x mid y post, c.methods = pre ++ x :: (mid ++ y :: post) → x.name = methodName →
      y.name = methodName → x.desc = y.desc →
      y.shadowKey ∈ ((view.resolveClassRefs before).flatMap ClassMetadata.methods ++
        (pre ++ x :: mid)).map MethodSummary.shadowKey

theorem hierarchyPairs_split {classInternal : String} (methodName : String)
    {before after : List ClassHandleRef} {r : ClassHandleRef}
    (h : view.hierarchyOrder classInternal = before ++ r :: after) :
    view.hierarchyPairs classInternal methodName = before.flatMap (view.methodRefPairs methodName) ++
      (view.methodRefPairs methodName r ++ after.flatMap (view.methodRefPairs methodName)) := by
  rw [hierarchyPairs, h, List.flatMap_append, List.flatMap_cons]

theorem pairs_before_fst {classInternal : String} (methodName : String)
    {before after : List ClassHandleRef} (h : view.hierarchyOrder classInternal = before ++ after) :
    (before.flatMap (view.methodRefPairs methodName)).map Prod.fst =
      ((view.resolveClassRefs before).flatMap ClassMetadata.methods).filter
        fun m => m.name = methodName := by
  rw [List.map_flatMap, List.filter_flatMap]
  exact flatMap_of_reads fun r hr => (reads_hierarchyOrder (h ▸ List.mem_append_left _ hr)).imp
    fun c hc => ⟨hc.1, methodRefPairs_fst hc.1 methodName⟩

/-- A shadow key holds the name, so only methods of that name can hide. -/
theorem shadowKey_mem_filter {methods : List MethodSummary} {m : MethodSummary} :
    m.shadowKey ∈ (methods.filter fun m' => m'.name = m.name).map MethodSummary.shadowKey ↔
      m.shadowKey ∈ methods.map MethodSummary.shadowKey := by
  simp only [List.mem_map, List.mem_filter, decide_eq_true_eq]
  constructor
  · rintro ⟨m', ⟨hm', -⟩, hkey⟩
    exact ⟨m', hm', hkey⟩
  · rintro ⟨m', hm', hkey⟩
    exact ⟨m', ⟨hm', congrArg Prod.fst hkey⟩, hkey⟩

/-- The methods that stand before a place of an overlay class, by their shadow keys. -/
theorem keys_before {classInternal methodName : String} {before after : List ClassHandleRef}
    (h : view.hierarchyOrder classInternal = before ++ after) {pre : List MethodSummary}
    {pairs : List (MethodSummary × MethodRef)}
    (hpairs : pairs.map Prod.fst = pre.filter fun m => m.name = methodName) {y : MethodSummary}
    (hy : y.name = methodName) :
    y.shadowKey ∈ (before.flatMap (view.methodRefPairs methodName) ++ pairs).map
        (fun t => t.1.shadowKey) ↔
      y.shadowKey ∈ ((view.resolveClassRefs before).flatMap ClassMetadata.methods ++ pre).map
        MethodSummary.shadowKey := by
  subst hy
  rw [← shadowKey_mem_filter, List.filter_append, ← pairs_before_fst y.name h, ← hpairs,
    ← List.map_append, List.map_map]
  rfl

theorem repeats_hidden_of_agree {classInternal methodName : String}
    (h : ∀ t ∈ view.keptPairs classInternal methodName, view.RefAgrees t.1 t.2) :
    view.OverlayRepeatsHidden classInternal methodName := by
  intro before b n after c horder hget pre x mid y post hmethods hx hy hdesc
  obtain rfl := BucketIndex.getClass_internalName hget
  obtain ⟨c', hc', hfound⟩ := reads_hierarchyOrder
    (show .overlay b c.internalName ∈ view.hierarchyOrder classInternal by simp [horder])
  obtain rfl : c' = c := Option.some.inj (hc'.resolve.symm.trans hget)
  by_contra hnew
  let pair (m : MethodSummary) : MethodSummary × MethodRef :=
    (m, ⟨.source c'.internalName, m.name, m.desc, m.accessFlags, none⟩)
  have hpairs : view.methodRefPairs methodName (.overlay b c'.internalName) =
      (methodsNamed methodName c').map pair := by
    simp only [methodRefPairs, hget]
    rfl
  have hnamed : methodsNamed methodName c' =
      (pre ++ x :: mid).filter (fun m => m.name = methodName) ++
        y :: post.filter fun m => m.name = methodName := by
    rw [methodsNamed, hmethods, show pre ++ x :: (mid ++ y :: post) = (pre ++ x :: mid) ++ y :: post by
      simp, List.filter_append, List.filter_cons_of_pos (by simpa using hy)]
  have hfst : (((pre ++ x :: mid).filter fun m => m.name = methodName).map pair).map Prod.fst =
      (pre ++ x :: mid).filter fun m => m.name = methodName := by
    rw [List.map_map]
    exact List.map_id _
  have hkept : pair y ∈ view.keptPairs classInternal methodName := by
    refine mem_dedupBy.mpr ⟨List.not_mem_nil, before.flatMap (view.methodRefPairs methodName) ++
      ((pre ++ x :: mid).filter fun m => m.name = methodName).map pair,
      (post.filter fun m => m.name = methodName).map pair ++
        after.flatMap (view.methodRefPairs methodName), ?_, ?_⟩
    · rw [hierarchyPairs_split methodName horder, hpairs, hnamed, List.map_append, List.map_cons]
      simp only [List.append_assoc, List.cons_append]
    · exact fun hmem => hnew ((keys_before horder hfst hy).mp hmem)
  have hread := (refAgrees_overlay_iff hget hfound y).mp (h _ hkept)
  have hx' : ((pre ++ [x]).find? fun m => m.name = y.name && m.desc = y.desc).isSome := by
    rw [List.find?_isSome]
    exact ⟨x, by simp, by simp [hx, hy, hdesc]⟩
  obtain ⟨z, hz⟩ := Option.isSome_iff_exists.mp hx'
  rw [hmethods, show pre ++ x :: (mid ++ y :: post) = (pre ++ [x]) ++ (mid ++ y :: post) by simp,
    List.find?_append, hz, Option.some_or] at hread
  obtain rfl := Option.some.inj hread
  have hzmem := List.mem_of_find?_eq_some hz
  refine hnew (List.mem_map_of_mem (List.mem_append_right _ ?_))
  rcases List.mem_append.mp hzmem with hzmem | hzmem
  · exact List.mem_append_left _ hzmem
  · simp [List.mem_singleton.mp hzmem]

theorem agree_of_repeats_hidden {classInternal methodName : String}
    (h : view.OverlayRepeatsHidden classInternal methodName) {t : MethodSummary × MethodRef}
    (ht : t ∈ view.keptPairs classInternal methodName) : view.RefAgrees t.1 t.2 := by
  obtain ⟨-, pre', post', hsplit, hnew⟩ := mem_dedupBy.mp ht
  obtain ⟨before, r, after, p, q, horder, hpq, rfl⟩ := Shadowing.flatMap_split hsplit
  obtain ⟨c, hc, hfound⟩ := reads_hierarchyOrder
    (show r ∈ view.hierarchyOrder classInternal by simp [horder])
  cases r with
  | artifact handle => exact refAgrees_artifact hc (show t ∈ view.methodRefPairs methodName _ by simp [hpq])
  | overlay b n =>
    obtain rfl : n = c.internalName := by simpa [classRefInternalName] using hc.internalName
    have hget : b.getClass c.internalName = some c := hc.resolve
    simp only [methodRefPairs, hget] at hpq
    obtain ⟨p', rest, hnamed, hp', hrest⟩ := List.map_eq_append_iff.mp hpq
    obtain ⟨y, q', rfl, rfl, -⟩ := List.map_eq_cons_iff.mp hrest
    obtain ⟨l, l', hmethods, hl, hl'⟩ := List.filter_eq_append_iff.mp hnamed
    obtain ⟨l₁, l₂, rfl, hl₁, hy, -⟩ := List.filter_eq_cons_iff.mp hl'
    rw [decide_eq_true_eq] at hy
    have hbefore : (l ++ l₁).filter (fun m => m.name = methodName) = p' := by
      rw [List.filter_append, hl, List.filter_eq_nil_iff.mpr fun m hm => by simpa using hl₁ m hm,
        List.append_nil]
    refine (refAgrees_overlay_iff hget hfound y).mpr ?_
    rw [hmethods, ← List.append_assoc]
    refine List.find?_eq_some_iff_append.mpr ⟨by simp, l ++ l₁, l₂, rfl, fun x hx => ?_⟩
    by_contra hmatch
    simp only [Bool.not_eq_true', Bool.not_eq_false, Bool.and_eq_true, decide_eq_true_eq] at hmatch
    obtain ⟨pre, mid, hx⟩ := List.append_of_mem hx
    have hhidden := h before b c.internalName after c horder hget pre x mid y l₂
      (by rw [hmethods, ← List.append_assoc, hx]; simp) (hmatch.1.trans hy) hy hmatch.2
    refine hnew ((keys_before horder ?_ hy).mpr hhidden)
    rw [← hp', ← hx, hbefore, List.map_map]
    exact List.map_id _

theorem RefsAgree.materialize_all {classInternal methodName : String}
    (h : view.RefsAgree classInternal methodName) :
    (view.lookupMethodsInHierarchyRefs classInternal methodName).map view.materializeMethod =
      (view.lookupMethodsInHierarchy classInternal methodName).map some := by
  have hmethods := h.methods
  generalize view.lookupMethodsInHierarchy classInternal methodName = ms at hmethods
  generalize view.lookupMethodsInHierarchyRefs classInternal methodName = rs at hmethods
  induction hmethods with
  | nil => rfl
  | cons hm _ ih => rw [List.map_cons, List.map_cons, hm.materialize, ih]

end IndexView

end JavaAnalyzer.Index
