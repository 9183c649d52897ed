import JavaAnalyzer.Index.ArchiveStub
import JavaAnalyzer.Library.KeyIndex

/-! # Artifact readers

`index/artifact_reader.rs`: read access to the classes of one stored archive. Slots are list
positions, an archive with more than `2^32` classes is rejected by the source when it is loaded. An
archive holds what was read from class files, so its method descriptors are well formed. -/

namespace JavaAnalyzer.Index
set_option autoImplicit false
open Jvm

structure ArtifactId where
  id : UInt64
deriving DecidableEq, Repr

structure ArtifactClassHandle where
  artifactId : ArtifactId
  slot : ℕ
deriving DecidableEq, Repr

structure ArtifactMethodHandle where
  cls : ArtifactClassHandle
  slot : ℕ
deriving DecidableEq, Repr

structure ArtifactFieldHandle where
  cls : ArtifactClassHandle
  slot : ℕ
deriving DecidableEq, Repr

structure StoredArtifactArchive where
  id : ArtifactId
  classes : List ArchiveClassStub
  methodDescriptors : ∀ c ∈ classes, ∀ m ∈ c.methods, isMethodDescriptor m.descriptor.toList = true

/-- The reader of an archive with the maps built when it is loaded. -/
structure ArtifactScopeReader where
  archive : StoredArtifactArchive
  byInternal : AList (fun _ : String => ℕ)
  simpleNameIndex : KeyIndex String
  packageIndex : KeyIndex String
  ownerIndex : KeyIndex String
  byInternal_eq : byInternal =
    KeyIndex.lastPositions (archive.classes.map ArchiveClassStub.internalName)
  simpleNameIndex_eq : simpleNameIndex = KeyIndex.ofKeys (archive.classes.map fun c => some c.name)
  packageIndex_eq : packageIndex = KeyIndex.ofKeys (archive.classes.map ArchiveClassStub.package)
  ownerIndex_eq : ownerIndex = KeyIndex.ofKeys (archive.classes.map ArchiveClassStub.innerClassOf)

namespace ArtifactScopeReader

def fromArchive (archive : StoredArtifactArchive) : ArtifactScopeReader where
  archive := archive
  byInternal := KeyIndex.lastPositions (archive.classes.map ArchiveClassStub.internalName)
  simpleNameIndex := KeyIndex.ofKeys (archive.classes.map fun c => some c.name)
  packageIndex := KeyIndex.ofKeys (archive.classes.map ArchiveClassStub.package)
  ownerIndex := KeyIndex.ofKeys (archive.classes.map ArchiveClassStub.innerClassOf)
  byInternal_eq := rfl
  simpleNameIndex_eq := rfl
  packageIndex_eq := rfl
  ownerIndex_eq := rfl

variable (reader : ArtifactScopeReader)

def artifactId : ArtifactId :=
  reader.archive.id

def classHandle (slot : ℕ) : ArtifactClassHandle :=
  ⟨reader.artifactId, slot⟩

/-! ## Classes -/

/-- The stub of a handle of this archive. -/
def stub (handle : ArtifactClassHandle) : Option ArchiveClassStub :=
  if handle.artifactId = reader.artifactId then reader.archive.classes[handle.slot]? else none

def getClassHandle (internalName : String) : Option ArtifactClassHandle :=
  (reader.byInternal.lookup internalName).map reader.classHandle

def getClass (handle : ArtifactClassHandle) : Option ClassMetadata :=
  (reader.stub handle).map ArchiveClassStub.materialize

def classInternalName (handle : ArtifactClassHandle) : Option String :=
  (reader.stub handle).map ArchiveClassStub.internalName

def classSuperName (handle : ArtifactClassHandle) : Option (Option String) :=
  (reader.stub handle).map ArchiveClassStub.superName

def classInterfaces (handle : ArtifactClassHandle) : Option (List String) :=
  (reader.stub handle).map ArchiveClassStub.interfaces

def classOriginPrecedence (handle : ArtifactClassHandle) : Option ℕ :=
  (reader.stub handle).map fun stub => match stub.origin with
    | .sourceFile _ => 2
    | _ => 1

def classHandlesBySimpleName (simpleName : String) : List ArtifactClassHandle :=
  (reader.simpleNameIndex.entries simpleName).map reader.classHandle

def classHandlesInPackage (normalized : String) : List ArtifactClassHandle :=
  (reader.packageIndex.entries normalized).map reader.classHandle

def directInnerClassHandles (ownerInternal : String) : List ArtifactClassHandle :=
  (reader.ownerIndex.entries ownerInternal).map reader.classHandle

def iterAllClassHandles : List ArtifactClassHandle :=
  (List.range reader.archive.classes.length).map reader.classHandle

/-! ## Members -/

def methodStub (handle : ArtifactMethodHandle) : Option ArchiveMethodStub := do
  (← reader.stub handle.cls).methods[handle.slot]?

def fieldStub (handle : ArtifactFieldHandle) : Option ArchiveFieldStub := do
  (← reader.stub handle.cls).fields[handle.slot]?

def materializeMethods (handle : ArtifactClassHandle) : Option (List MethodSummary) :=
  (reader.stub handle).map fun stub => stub.methods.map ArchiveMethodStub.materialize

def materializeFields (handle : ArtifactClassHandle) : Option (List FieldSummary) :=
  (reader.stub handle).map fun stub => stub.fields.map ArchiveFieldStub.materialize

def materializeMethod (handle : ArtifactMethodHandle) : Option MethodSummary :=
  (reader.methodStub handle).map ArchiveMethodStub.materialize

def materializeField (handle : ArtifactFieldHandle) : Option FieldSummary :=
  (reader.fieldStub handle).map ArchiveFieldStub.materialize

def methodHandlesNamed (handle : ArtifactClassHandle) (methodName : String) :
    Option (List ArtifactMethodHandle) :=
  (reader.stub handle).map fun stub =>
    (stub.methods.zipIdx.filter fun (method, _) => method.name = methodName).map
      fun (_, slot) => ⟨handle, slot⟩

def methodHandleByNameDesc (handle : ArtifactClassHandle) (methodName methodDesc : String) :
    Option ArtifactMethodHandle := do
  let (_, slot) ← (← reader.stub handle).methods.zipIdx.find? fun (method, _) =>
    method.name = methodName && method.descriptor = methodDesc
  some ⟨handle, slot⟩

def fieldHandleByName (handle : ArtifactClassHandle) (fieldName : String) :
    Option ArtifactFieldHandle := do
  let (_, slot) ← (← reader.stub handle).fields.zipIdx.find? fun (field, _) =>
    field.name = fieldName
  some ⟨handle, slot⟩

/-! ## What the handles read -/

variable {reader}

theorem stub_classHandle (i : ℕ) : reader.stub (reader.classHandle i) = reader.archive.classes[i]? := by
  simp [stub, classHandle]

theorem getClass_classHandle (i : ℕ) :
    reader.getClass (reader.classHandle i) =
      (reader.archive.classes[i]?).map ArchiveClassStub.materialize := by
  rw [getClass, stub_classHandle]

/-- The classes listed under a key are the stubs with that key, in slot order. -/
theorem classes_of_entries {κ : Type} [DecidableEq κ] (key : ArchiveClassStub → Option κ) (k : κ) :
    (((KeyIndex.ofKeys (reader.archive.classes.map key)).entries k).map
        reader.classHandle).filterMap reader.getClass =
      (reader.archive.classes.filter fun c => key c = some k).map ArchiveClassStub.materialize := by
  rw [KeyIndex.entries_ofKeys, List.filterMap_map, List.length_map]
  have hfilter : (List.range reader.archive.classes.length).filter
      (fun i => (reader.archive.classes.map key)[i]? = some (some k)) =
      (List.range reader.archive.classes.length).filter
        fun i => (reader.archive.classes[i]?).any fun c => key c = some k := by
    refine List.filter_congr fun i _ => ?_
    rw [List.getElem?_map]
    cases reader.archive.classes[i]? <;> simp
  rw [hfilter, ← KeyIndex.filterMap_positions reader.archive.classes, List.map_filterMap]
  refine List.filterMap_congr fun i _ => ?_
  rw [Function.comp_apply, getClass_classHandle]

theorem classes_of_iterAll :
    reader.iterAllClassHandles.filterMap reader.getClass =
      reader.archive.classes.map ArchiveClassStub.materialize := by
  rw [iterAllClassHandles, List.filterMap_map]
  have hall := KeyIndex.filterMap_positions reader.archive.classes fun _ => true
  have hrange : (List.range reader.archive.classes.length).filter
      (fun i => (reader.archive.classes[i]?).any fun _ => true) =
      List.range reader.archive.classes.length :=
    List.filter_eq_self.mpr fun i hi => by simp [List.mem_range.mp hi]
  rw [hrange, List.filter_true] at hall
  rw [← congrArg (List.map ArchiveClassStub.materialize) hall, List.map_filterMap]
  refine List.filterMap_congr fun i _ => ?_
  rw [Function.comp_apply, getClass_classHandle]

theorem getClass_getClassHandle (n : String) :
    (reader.getClassHandle n).bind reader.getClass =
      ((reader.archive.classes.filter fun c => c.internalName = n).getLast?).map
        ArchiveClassStub.materialize := by
  have hpos := KeyIndex.lookup_lastPositions
    (reader.archive.classes.map ArchiveClassStub.internalName) n
  have hfilter : (List.range reader.archive.classes.length).filter
      (fun i => (reader.archive.classes.map ArchiveClassStub.internalName)[i]? = some n) =
      (List.range reader.archive.classes.length).filter
        fun i => (reader.archive.classes[i]?).any fun c => c.internalName = n := by
    refine List.filter_congr fun i _ => ?_
    rw [List.getElem?_map]
    cases reader.archive.classes[i]? <;> simp
  rw [List.length_map, hfilter] at hpos
  rw [getClassHandle, reader.byInternal_eq, hpos, ← KeyIndex.filterMap_positions reader.archive.classes]
  rcases List.eq_nil_or_concat ((List.range reader.archive.classes.length).filter
      fun i => (reader.archive.classes[i]?).any fun c => c.internalName = n) with hnil | ⟨l, i, hl⟩
  · simp [hnil]
  · have hi : i < reader.archive.classes.length := by
      have hmem : i ∈ (List.range reader.archive.classes.length).filter
          fun i => (reader.archive.classes[i]?).any fun c => c.internalName = n := by
        rw [hl]
        simp
      exact List.mem_range.mp (List.mem_of_mem_filter hmem)
    simp [hl, List.filterMap_append, getClass_classHandle, List.getElem?_eq_getElem hi]

end ArtifactScopeReader

/-- The readers a scope can reach, each under the id of its own archive. -/
structure ArtifactReaders where
  get : ArtifactId → Option ArtifactScopeReader
  artifactId_eq : ∀ id reader, get id = some reader → reader.artifactId = id

/-- No artifact at all. -/
def ArtifactReaders.none : ArtifactReaders where
  get _ := .none
  artifactId_eq _ _ h := by cases h

end JavaAnalyzer.Index
