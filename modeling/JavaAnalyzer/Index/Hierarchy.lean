import JavaAnalyzer.Index.ViewLayers
import JavaAnalyzer.Library.Worklist
import JavaAnalyzer.Library.Dedup

/-! # Member lookup in a hierarchy

The hierarchy order of `index/view.rs` and the member lookups over it, in both forms of the source:
materialised members, and references that are materialised later. The order is a breadth-first search
over class names, `hierarchyOrder_search` says that it always ends. -/

namespace JavaAnalyzer.Index
set_option autoImplicit false

/-! ## References -/

inductive TypeRef where
  | source (internalName : String)
  | artifact (internalName : String) (handle : ArtifactClassHandle)
deriving DecidableEq, Repr

def TypeRef.internalName : TypeRef → String
  | .source n => n
  | .artifact n _ => n

structure MethodRef where
  owner : TypeRef
  name : String
  descriptor : String
  accessFlags : UInt16
  artifact : Option ArtifactMethodHandle
deriving DecidableEq

structure FieldRef where
  owner : TypeRef
  name : String
  descriptor : String
  accessFlags : UInt16
  artifact : Option ArtifactFieldHandle
deriving DecidableEq

/-- `method_shadow_key`. -/
def MethodSummary.shadowKey (method : MethodSummary) : String × String :=
  (method.name, method.genericSignature.getD method.desc)

/-- The shadow key the reference lookup takes from a stub. -/
def ArchiveMethodStub.shadowKey (stub : ArchiveMethodStub) : String × String :=
  (stub.name, stub.genericSignature.getD stub.descriptor)

namespace IndexView

variable (view : IndexView)

def typeRefFromClassRef : ClassHandleRef → Option TypeRef
  | .overlay _ internalName => some (.source internalName)
  | .artifact handle =>
    (view.classRefInternalName (.artifact handle)).map fun n => .artifact n handle

def classRefFromTypeRef : TypeRef → Option ClassHandleRef
  | .source internalName => view.getClassRefByInternal internalName
  | .artifact _ handle => some (.artifact handle)

def materializeClass (typeRef : TypeRef) : Option ClassMetadata :=
  (view.classRefFromTypeRef typeRef).bind view.resolveClassRef

def materializeMethod (methodRef : MethodRef) : Option MethodSummary :=
  match methodRef.artifact with
  | some handle => (view.artifactReader handle.cls.artifactId).bind fun reader =>
      reader.materializeMethod handle
  | none => (view.materializeClass methodRef.owner).bind fun owner =>
      owner.methods.find? fun method =>
        method.name = methodRef.name && method.desc = methodRef.descriptor

def materializeField (fieldRef : FieldRef) : Option FieldSummary :=
  match fieldRef.artifact with
  | some handle => (view.artifactReader handle.cls.artifactId).bind fun reader =>
      reader.materializeField handle
  | none => (view.materializeClass fieldRef.owner).bind fun owner =>
      owner.fields.find? fun field =>
        field.name = fieldRef.name && field.descriptor = fieldRef.descriptor

/-! ## The order -/

def classRefParentInternals : ClassHandleRef → List String
  | .overlay bucket internalName =>
    match bucket.getClass internalName with
    | none => []
    | some c => c.superName.toList ++ c.interfaces
  | .artifact handle =>
    match view.artifactReader handle.artifactId with
    | none => []
    | some reader => (reader.classSuperName handle).join.toList ++
        (reader.classInterfaces handle).getD []

/-- The parents that join the queue. -/
def queuedParents (classRef : ClassHandleRef) : List String :=
  (view.classRefParentInternals classRef).filter fun parent => parent ≠ ""

/-- The names of all records, among which every class that can be found lies. -/
def recordNames : List String :=
  view.records.map ClassMetadata.internalName

/-- The loop of `hierarchy_order`, with fuel for the parents of all records. -/
def hierarchySearch (classInternal : String) : Option (List ClassHandleRef) :=
  Worklist.bfs view.getClassRefByInternal view.queuedParents
    (Worklist.budget view.getClassRefByInternal view.queuedParents view.recordNames [classInternal])
    [classInternal] []

def hierarchyOrder (classInternal : String) : List ClassHandleRef :=
  (view.hierarchySearch classInternal).getD []

/-! ## Materialised members -/

def classRefMethods (classRef : ClassHandleRef) : List MethodSummary :=
  match classRef with
  | .overlay _ _ => ((view.resolveClassRef classRef).map ClassMetadata.methods).getD []
  | .artifact handle => ((view.artifactReader handle.artifactId).bind fun reader =>
      reader.materializeMethods handle).getD []

def classRefFields (classRef : ClassHandleRef) : List FieldSummary :=
  match classRef with
  | .overlay _ _ => ((view.resolveClassRef classRef).map ClassMetadata.fields).getD []
  | .artifact handle => ((view.artifactReader handle.artifactId).bind fun reader =>
      reader.materializeFields handle).getD []

def collectInheritedMembers (classInternal : String) : List MethodSummary × List FieldSummary :=
  let order := view.hierarchyOrder classInternal
  (Dedup.dedupBy MethodSummary.shadowKey [] (order.flatMap view.classRefMethods),
    Dedup.dedupBy FieldSummary.name [] (order.flatMap view.classRefFields))

def lookupMethodsInHierarchy (classInternal methodName : String) : List MethodSummary :=
  (view.collectInheritedMembers classInternal).1.filter fun method => method.name = methodName

def lookupFieldInHierarchy (classInternal fieldName : String) : Option FieldSummary :=
  (view.collectInheritedMembers classInternal).2.find? fun field => field.name = fieldName

/-! ## Members by reference -/

/-- The references of one class, each under its shadow key. -/
def methodRefCandidates (methodName : String) (classRef : ClassHandleRef) :
    List ((String × String) × MethodRef) :=
  match view.typeRefFromClassRef classRef with
  | none => []
  | some ownerRef =>
    match classRef with
    | .overlay _ _ =>
      match view.resolveClassRef classRef with
      | none => []
      | some c => (c.methods.filter fun m => m.name = methodName).map fun m =>
          (m.shadowKey, ⟨ownerRef, m.name, m.desc, m.accessFlags, none⟩)
    | .artifact handle =>
      match view.artifactReader handle.artifactId with
      | none => []
      | some reader =>
        ((reader.methodHandlesNamed handle methodName).getD []).filterMap fun methodHandle =>
          (reader.methodStub methodHandle).map fun stub =>
            (stub.shadowKey,
              ⟨ownerRef, stub.name, stub.descriptor, stub.accessFlags, some methodHandle⟩)

def lookupMethodsInHierarchyRefs (classInternal methodName : String) : List MethodRef :=
  (Dedup.dedupBy Prod.fst [] ((view.hierarchyOrder classInternal).flatMap
    (view.methodRefCandidates methodName))).map Prod.snd

def fieldRefOf (fieldName : String) (classRef : ClassHandleRef) : Option FieldRef := do
  let ownerRef ← view.typeRefFromClassRef classRef
  match classRef with
  | .overlay _ _ =>
    let c ← view.resolveClassRef classRef
    let field ← c.fields.find? fun field => field.name = fieldName
    some ⟨ownerRef, field.name, field.descriptor, field.accessFlags, none⟩
  | .artifact handle =>
    let reader ← view.artifactReader handle.artifactId
    let fieldHandle ← reader.fieldHandleByName handle fieldName
    let stub ← reader.fieldStub fieldHandle
    some ⟨ownerRef, stub.name, stub.descriptor, stub.accessFlags, some fieldHandle⟩

def lookupFieldInHierarchyRef (classInternal fieldName : String) : Option FieldRef :=
  (view.hierarchyOrder classInternal).findSome? (view.fieldRefOf fieldName)

/-! ## The declaring owner -/

/-- The reference of a class that declares a method with this name and descriptor. -/
def declaringOwnerRefOf (methodName methodDesc : String) (classRef : ClassHandleRef) :
    Option TypeRef :=
  match classRef with
  | .overlay _ _ =>
    (view.resolveClassRef classRef).bind fun c =>
      if c.methods.any fun m => m.name = methodName && m.desc = methodDesc then
        view.typeRefFromClassRef classRef
      else none
  | .artifact handle => (view.artifactReader handle.artifactId).bind fun reader =>
      (reader.methodHandleByNameDesc handle methodName methodDesc).bind fun _ =>
        view.typeRefFromClassRef classRef

def findDeclaringMethodOwnerRef (classInternal methodName methodDesc : String) : Option TypeRef :=
  (view.hierarchyOrder classInternal).findSome? (view.declaringOwnerRefOf methodName methodDesc)

def findDeclaringMethodOwner (classInternal methodName methodDesc : String) :
    Option ClassMetadata :=
  (view.findDeclaringMethodOwnerRef classInternal methodName methodDesc).bind view.materializeClass

/-! ## The search ends and meets every class once -/

variable {view}

theorem Reads.unique {r : ClassHandleRef} {c d : ClassMetadata} (hc : view.Reads r c)
    (hd : view.Reads r d) : c = d :=
  Option.some.inj (hc.resolve.symm.trans hd.resolve)

theorem getClassRefByInternal_layer {n : String} {r : ClassHandleRef}
    (h : view.getClassRefByInternal n = some r) :
    ∃ layer ∈ view.layers, view.layerGetClassRef n layer = some r := by
  rw [getClassRefByInternal, keepBest_foldl] at h
  exact List.mem_filterMap.mp (List.argmax_mem h)

/-- A class found by a name has that name, and is a record. -/
theorem reads_getClassRefByInternal {n : String} {r : ClassHandleRef}
    (h : view.getClassRefByInternal n = some r) :
    ∃ c, view.Reads r c ∧ c.internalName = n ∧ c ∈ view.records := by
  obtain ⟨layer, hmem, hlayer⟩ := getClassRefByInternal_layer h
  cases layer with
  | overlay b =>
    obtain ⟨c, hc, rfl⟩ := Option.map_eq_some_iff.mp hlayer
    obtain rfl := BucketIndex.getClass_internalName hc
    exact ⟨c, reads_overlay hc, rfl, List.mem_flatMap.mpr
      ⟨_, hmem, BucketIndex.mem_iterAllClasses.mpr hc⟩⟩
  | artifact id =>
    obtain ⟨handle, hhandle, rfl⟩ := Option.map_eq_some_iff.mp hlayer
    obtain ⟨reader, hreader, hget⟩ := Option.bind_eq_some_iff.mp hhandle
    obtain ⟨i, hi, rfl⟩ := Option.map_eq_some_iff.mp hget
    rw [reader.byInternal_eq, KeyIndex.lookup_lastPositions] at hi
    obtain ⟨hlt, hname⟩ := List.mem_filter.mp (List.mem_of_getLast? hi)
    rw [List.length_map, List.mem_range] at hlt
    obtain ⟨c, hc⟩ := reads_artifact hreader hlt
    have hid : view.artifactReader (reader.classHandle i).artifactId = some reader := by
      rw [← hreader]
      exact congrArg _ (view.artifactReaders.artifactId_eq id reader hreader)
    have hstub : reader.archive.classes[i].materialize = c := by
      have hres := hc.resolve
      rw [resolveClassRef, hid, Option.bind_some, ArtifactScopeReader.getClass_classHandle,
        List.getElem?_eq_getElem hlt] at hres
      exact Option.some.inj hres
    refine ⟨c, hc, ?_, List.mem_flatMap.mpr ⟨_, hmem, ?_⟩⟩
    · have hstubName : reader.archive.classes[i].internalName = n := by
        simpa [List.getElem?_eq_getElem hlt] using hname
      rw [← hstub]
      exact hstubName
    · simp only [layerRecords, hreader, Option.map_some, Option.getD_some]
      exact List.mem_map.mpr ⟨_, List.getElem_mem hlt, hstub⟩

theorem hierarchySearch_isSome (view : IndexView) (classInternal : String) :
    (view.hierarchySearch classInternal).isSome :=
  Worklist.bfs_budget (fun n r h _ => by
    obtain ⟨c, -, hname, hmem⟩ := reads_getClassRefByInternal h
    exact List.mem_map.mpr ⟨c, hmem, hname⟩) _ _

theorem hierarchyOrder_search (view : IndexView) (classInternal : String) :
    view.hierarchySearch classInternal = some (view.hierarchyOrder classInternal) := by
  obtain ⟨order, horder⟩ := Option.isSome_iff_exists.mp
    (hierarchySearch_isSome view classInternal)
  rw [hierarchyOrder, horder, Option.getD_some]

/-- The classes of the hierarchy, in its order. -/
def hierarchyClasses (view : IndexView) (classInternal : String) : List ClassMetadata :=
  view.resolveClassRefs (view.hierarchyOrder classInternal)

theorem hierarchyOrder_keys (view : IndexView) (classInternal : String) :
    ∃ names : List String, names.Nodup ∧
      names.map view.getClassRefByInternal = (view.hierarchyOrder classInternal).map some := by
  obtain ⟨names, hnodup, -, hmap⟩ := Worklist.bfs_keys (hierarchyOrder_search view classInternal)
  exact ⟨names, hnodup, hmap⟩

theorem reads_hierarchyOrder {classInternal : String} {r : ClassHandleRef}
    (h : r ∈ view.hierarchyOrder classInternal) :
    ∃ c, view.Reads r c ∧ view.getClassRefByInternal c.internalName = some r := by
  obtain ⟨names, -, hmap⟩ := hierarchyOrder_keys view classInternal
  have hmem : some r ∈ names.map view.getClassRefByInternal := hmap ▸ List.mem_map_of_mem h
  obtain ⟨n, -, hn⟩ := List.mem_map.mp hmem
  obtain ⟨c, hc, rfl, -⟩ := reads_getClassRefByInternal hn
  exact ⟨c, hc, hn⟩

theorem names_of_found {names : List String} {refs : List ClassHandleRef}
    (h : names.map view.getClassRefByInternal = refs.map some) :
    (view.resolveClassRefs refs).map ClassMetadata.internalName = names := by
  induction names generalizing refs with
  | nil =>
    obtain rfl := List.map_eq_nil_iff.mp h.symm
    rfl
  | cons n names ih =>
    cases refs with
    | nil => cases h
    | cons r refs =>
      obtain ⟨hn, hrest⟩ := List.cons.inj h
      obtain ⟨c, hc, hname, -⟩ := reads_getClassRefByInternal hn
      rw [resolveClassRefs, List.filterMap_cons_some hc.resolve, List.map_cons, hname]
      exact congrArg (n :: ·) (ih hrest)

theorem hierarchyClasses_nodup (view : IndexView) (classInternal : String) :
    (view.hierarchyClasses classInternal).Nodup := by
  obtain ⟨names, hnodup, hmap⟩ := hierarchyOrder_keys view classInternal
  exact List.Nodup.of_map ClassMetadata.internalName (names_of_found hmap ▸ hnodup)

end IndexView

end JavaAnalyzer.Index
