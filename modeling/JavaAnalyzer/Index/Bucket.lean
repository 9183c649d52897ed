import JavaAnalyzer.Index.ArchiveStub
import JavaAnalyzer.Library.KeyIndex
import JavaAnalyzer.Library.FiniteMap

/-! # The bucket index

`BucketState` of `index/bucket.rs`: the slots of stored classes with the maps kept beside them, and
the four operations that change it. The lock is left out, each operation takes the state and returns
it. `freeClassIds` is the source's vector read from its end. -/

namespace JavaAnalyzer.Index
set_option autoImplicit false

/-! ## Stored classes -/

inductive StoredClassBody where
  | rich (metadata : ClassMetadata)
  | archiveStub (stub : ArchiveClassStub)

def StoredClassBody.materialize : StoredClassBody → ClassMetadata
  | .rich c => c
  | .archiveStub stub => stub.materialize

/-- The record of a slot: the fields the maps are keyed by, copied from the body. -/
structure StoredClass where
  internalName : String
  name : String
  package : Option String
  innerClassOf : Option String
  origin : ClassOrigin
  body : StoredClassBody
  internalName_eq : body.materialize.internalName = internalName
  name_eq : body.materialize.name = name
  package_eq : body.materialize.package = package
  innerClassOf_eq : body.materialize.innerClassOf = innerClassOf
  origin_eq : body.materialize.origin = origin

def StoredClass.fromMetadata (c : ClassMetadata) : StoredClass where
  internalName := c.internalName
  name := c.name
  package := c.package
  innerClassOf := c.innerClassOf
  origin := c.origin
  body := .rich c
  internalName_eq := rfl
  name_eq := rfl
  package_eq := rfl
  innerClassOf_eq := rfl
  origin_eq := rfl

def StoredClass.fromArchiveStub (stub : ArchiveClassStub) : StoredClass where
  internalName := stub.internalName
  name := stub.name
  package := stub.package
  innerClassOf := stub.innerClassOf
  origin := stub.origin
  body := .archiveStub stub
  internalName_eq := rfl
  name_eq := rfl
  package_eq := rfl
  innerClassOf_eq := rfl
  origin_eq := rfl

def StoredClass.materialize (c : StoredClass) : ClassMetadata :=
  c.body.materialize

/-! ## State -/

structure BucketState where
  classes : List (Option StoredClass)
  freeClassIds : List ℕ
  byInternal : AList (fun _ : String => ℕ)
  byOrigin : KeyIndex ClassOrigin
  typeRanges : AList (fun _ : String => SourceRange)
  methodRanges : AList (fun _ : String × String × String => SourceRange)
  fieldRanges : AList (fun _ : String × String => SourceRange)
  simpleNameIndex : KeyIndex String
  packageIndex : KeyIndex String
  ownerIndex : KeyIndex String

namespace BucketState

def new : BucketState where
  classes := []
  freeClassIds := []
  byInternal := ∅
  byOrigin := ∅
  typeRanges := ∅
  methodRanges := ∅
  fieldRanges := ∅
  simpleNameIndex := ∅
  packageIndex := ∅
  ownerIndex := ∅

/-- The live record of a slot. -/
def slot (inner : BucketState) (id : ℕ) : Option StoredClass :=
  inner.classes[id]?.join

/-! ## Declaration ranges -/

/-- The keys under which a class keeps the ranges of its methods. -/
def methodKeys (c : ClassMetadata) : List (String × String × String) :=
  c.methods.map fun m => (c.internalName, m.name, m.desc)

def fieldKeys (c : ClassMetadata) : List (String × String) :=
  c.fields.map fun f => (c.internalName, f.name)

def insertDeclarationsForMetadataLocked (inner : BucketState) (c : ClassMetadata)
    (declarations : SourceDeclarationBatch) : BucketState :=
  { inner with
    typeRanges := FiniteMap.insertKeys inner.typeRanges [c.internalName] declarations.typeRange
    methodRanges := FiniteMap.insertKeys inner.methodRanges (methodKeys c)
      fun (owner, name, desc) => declarations.methodRange owner name desc
    fieldRanges := FiniteMap.insertKeys inner.fieldRanges (fieldKeys c)
      fun (owner, name) => declarations.fieldRange owner name }

def removeDeclarationsForClassLocked (inner : BucketState) (c : StoredClass) : BucketState :=
  { inner with
    typeRanges := inner.typeRanges.erase c.internalName
    methodRanges := FiniteMap.eraseKeys inner.methodRanges (methodKeys c.materialize)
    fieldRanges := FiniteMap.eraseKeys inner.fieldRanges (fieldKeys c.materialize) }

/-! ## Detaching a record -/

/-- The body of `detach_class_locked` once the record is taken out of its slot. -/
def detachRecord (inner : BucketState) (classId : ℕ) (c : StoredClass) : BucketState :=
  let inner := { inner with
    classes := inner.classes.set classId none
    byInternal :=
      if inner.byInternal.lookup c.internalName = some classId then
        inner.byInternal.erase c.internalName
      else inner.byInternal }
  let inner := inner.removeDeclarationsForClassLocked c
  { inner with
    simpleNameIndex := inner.simpleNameIndex.trim c.name classId
    packageIndex := inner.packageIndex.trimOpt c.package classId
    ownerIndex := inner.ownerIndex.trimOpt c.innerClassOf classId
    freeClassIds := classId :: inner.freeClassIds }

def detachClassLocked (inner : BucketState) (classId : ℕ) : BucketState × Option StoredClass :=
  match inner.slot classId with
  | none => (inner, none)
  | some c => (inner.detachRecord classId c, some c)

def removeClassByIdLocked (inner : BucketState) (classId : ℕ) : BucketState × Bool :=
  match inner.detachClassLocked classId with
  | (inner, none) => (inner, false)
  | (inner, some c) => ({ inner with byOrigin := inner.byOrigin.trim c.origin classId }, true)

/-! ## Inserting a record -/

/-- Removes the record that holds the internal name, if there is one. -/
def evictNamed (inner : BucketState) (internal : String) : BucketState :=
  match inner.byInternal.lookup internal with
  | some existingId => (inner.removeClassByIdLocked existingId).1
  | none => inner

/-- Stores a record in a free slot, or in a new one. -/
def allocate (inner : BucketState) (c : StoredClass) : BucketState × ℕ :=
  match inner.freeClassIds with
  | reusedId :: rest =>
    ({ inner with classes := inner.classes.set reusedId (some c), freeClassIds := rest }, reusedId)
  | [] => ({ inner with classes := inner.classes ++ [some c] }, inner.classes.length)

/-- Enters a stored record in the five maps. -/
def fileRecord (inner : BucketState) (classId : ℕ) (c : StoredClass) : BucketState :=
  { inner with
    byInternal := inner.byInternal.insert c.internalName classId
    simpleNameIndex := inner.simpleNameIndex.push c.name classId
    packageIndex := inner.packageIndex.pushOpt c.package classId
    ownerIndex := inner.ownerIndex.pushOpt c.innerClassOf classId
    byOrigin := inner.byOrigin.push c.origin classId }

def insertRecordLocked (inner : BucketState) (c : StoredClass)
    (declarations : Option SourceDeclarationBatch) : BucketState :=
  let inner := inner.evictNamed c.internalName
  let (inner, classId) := inner.allocate c
  let inner := inner.fileRecord classId c
  match declarations with
  | none => inner
  | some d => inner.insertDeclarationsForMetadataLocked c.materialize d

/-! ## Operations -/

def addClassesWithDeclarations (inner : BucketState) (classes : List ClassMetadata)
    (declarations : Option SourceDeclarationBatch) : BucketState :=
  classes.foldl (fun inner c => inner.insertRecordLocked (.fromMetadata c) declarations) inner

def addClasses (inner : BucketState) (classes : List ClassMetadata) : BucketState :=
  inner.addClassesWithDeclarations classes none

def addArchiveClasses (inner : BucketState) (classes : List ClassMetadata) : BucketState :=
  classes.foldl (fun inner c =>
    inner.insertRecordLocked (.fromArchiveStub (.fromClassMetadata c)) none) inner

def detachAll (inner : BucketState) (classIds : List ℕ) : BucketState :=
  classIds.foldl (fun inner id => (inner.detachClassLocked id).1) inner

def removeByOrigin (inner : BucketState) (origin : ClassOrigin) : BucketState × Bool :=
  match inner.byOrigin.lookup origin with
  | none => (inner, false)
  | some classIds =>
    ({ inner with byOrigin := inner.byOrigin.erase origin }.detachAll classIds, true)

def getClass (inner : BucketState) (internalName : String) : Option ClassMetadata := do
  let id ← inner.byInternal.lookup internalName
  (inner.slot id).map StoredClass.materialize

def resolveClassIdsLocked (inner : BucketState) (ids : List ℕ) : List ClassMetadata :=
  ids.filterMap fun id => (inner.slot id).map StoredClass.materialize

def sortedByInternalName (classes : List ClassMetadata) : List ClassMetadata :=
  classes.insertionSort fun left right => left.internalName ≤ right.internalName

def sameClassesForOrigin (inner : BucketState) (origin : ClassOrigin)
    (classes : List ClassMetadata) : Bool :=
  match inner.byOrigin.lookup origin with
  | none => false
  | some classIds =>
    classIds.length = classes.length &&
      sortedByInternalName (inner.resolveClassIdsLocked classIds) = sortedByInternalName classes

/-- The incoming classes that do not name a class read from a jar. -/
def withoutJarConflicts (inner : BucketState) (classes : List ClassMetadata) :
    List ClassMetadata :=
  classes.filter fun c => !(inner.getClass c.internalName).any fun e => e.origin.isJar

def updateSourceWithDeclarations (inner : BucketState) (origin : ClassOrigin)
    (classes : List ClassMetadata) (declarations : Option SourceDeclarationBatch) :
    BucketState × Bool :=
  let filtered := inner.withoutJarConflicts classes
  if filtered.isEmpty then (inner, false)
  else if inner.sameClassesForOrigin origin filtered then (inner, false)
  else ((inner.removeByOrigin origin).1.addClassesWithDeclarations filtered declarations, true)

/-! ## Listings -/

/-- `str::replace('.', "/")`. -/
def slashed (s : String) : String :=
  String.ofList (s.toList.map fun c => if c = '.' then '/' else c)

def getClassesBySimpleName (inner : BucketState) (simpleName : String) : List ClassMetadata :=
  inner.resolveClassIdsLocked (inner.simpleNameIndex.entries simpleName)

def directInnerClassesByOwner (inner : BucketState) (ownerInternal : String) :
    List ClassMetadata :=
  inner.resolveClassIdsLocked (inner.ownerIndex.entries ownerInternal)

def classesInPackage (inner : BucketState) (pkg : String) : List ClassMetadata :=
  inner.resolveClassIdsLocked (inner.packageIndex.entries (slashed pkg))

def iterAllClasses (inner : BucketState) : List ClassMetadata :=
  inner.classes.filterMap fun c => c.map StoredClass.materialize

/-! ## Runs -/

/-- The calls that change a bucket. -/
inductive Op where
  | addClassesWithDeclarations (classes : List ClassMetadata)
      (declarations : Option SourceDeclarationBatch)
  | addArchiveClasses (classes : List ClassMetadata)
  | updateSourceWithDeclarations (origin : ClassOrigin) (classes : List ClassMetadata)
      (declarations : Option SourceDeclarationBatch)
  | removeByOrigin (origin : ClassOrigin)

def apply (inner : BucketState) : Op → BucketState
  | .addClassesWithDeclarations classes declarations =>
    inner.addClassesWithDeclarations classes declarations
  | .addArchiveClasses classes => inner.addArchiveClasses classes
  | .updateSourceWithDeclarations origin classes declarations =>
    (inner.updateSourceWithDeclarations origin classes declarations).1
  | .removeByOrigin origin => (inner.removeByOrigin origin).1

/-- The bucket after a sequence of calls on a new one. -/
def run (ops : List Op) : BucketState :=
  ops.foldl apply new

end BucketState

end JavaAnalyzer.Index
