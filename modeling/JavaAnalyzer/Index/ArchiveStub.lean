import JavaAnalyzer.Index.Metadata
import JavaAnalyzer.Jvm.Descriptor

/-! # Archive stubs

`index/archive_stub.rs` and the parameter readers of `index.rs`: the compact record an archive keeps
of a class, and the class it is materialised to. A method stub stores one descriptor text instead of
the parameter list and the return type, `materialize_desc` says that a class-file descriptor is read
back unchanged. -/

namespace JavaAnalyzer.Index
set_option autoImplicit false
open Jvm Text

/-! ## Parameters from a descriptor -/

/-- `MethodParams::from_method_descriptor`. -/
def paramsFromMethodDescriptor (methodDesc : String) : List MethodParam :=
  (splitParamDescriptors methodDesc.toList).map fun ty =>
    { descriptor := String.ofList ty, name := "", annotations := [] }

/-- The parameters with the names given, as far as there are names. -/
def withParamNames : List MethodParam → List String → List MethodParam
  | p :: ps, n :: ns => { p with name := n } :: withParamNames ps ns
  | ps, [] => ps
  | [], _ => []

/-- `MethodParams::from_descriptor_and_names`. -/
def paramsFromDescriptorAndNames (methodDesc : String) (names : List String) : List MethodParam :=
  withParamNames (paramsFromMethodDescriptor methodDesc) names

theorem withParamNames_descriptor (ps : List MethodParam) (ns : List String) :
    (withParamNames ps ns).map MethodParam.descriptor = ps.map MethodParam.descriptor := by
  induction ps generalizing ns with
  | nil => cases ns <;> rfl
  | cons p ps ih =>
    cases ns with
    | nil => rfl
    | cons n ns => simp [withParamNames, ih]

/-! ## Stubs -/

structure ArchiveMethodStub where
  name : String
  descriptor : String
  paramNames : List String
  accessFlags : UInt16
  isSynthetic : Bool
  genericSignature : Option String
deriving DecidableEq

def ArchiveMethodStub.fromMethodSummary (method : MethodSummary) : ArchiveMethodStub where
  name := method.name
  descriptor := method.desc
  paramNames := method.params.map MethodParam.name
  accessFlags := method.accessFlags
  isSynthetic := method.isSynthetic
  genericSignature := method.genericSignature

def ArchiveMethodStub.materialize (stub : ArchiveMethodStub) : MethodSummary where
  name := stub.name
  params := paramsFromDescriptorAndNames stub.descriptor stub.paramNames
  annotations := []
  accessFlags := stub.accessFlags
  isSynthetic := stub.isSynthetic
  genericSignature := stub.genericSignature
  returnType := parseReturnTypeFromDescriptor stub.descriptor

structure ArchiveFieldStub where
  name : String
  descriptor : String
  accessFlags : UInt16
  isSynthetic : Bool
  genericSignature : Option String
deriving DecidableEq

def ArchiveFieldStub.fromFieldSummary (field : FieldSummary) : ArchiveFieldStub where
  name := field.name
  descriptor := field.descriptor
  accessFlags := field.accessFlags
  isSynthetic := field.isSynthetic
  genericSignature := field.genericSignature

def ArchiveFieldStub.materialize (stub : ArchiveFieldStub) : FieldSummary where
  name := stub.name
  descriptor := stub.descriptor
  accessFlags := stub.accessFlags
  annotations := []
  isSynthetic := stub.isSynthetic
  genericSignature := stub.genericSignature

structure ArchiveClassStub where
  package : Option String
  name : String
  internalName : String
  superName : Option String
  interfaces : List String
  methods : List ArchiveMethodStub
  fields : List ArchiveFieldStub
  accessFlags : UInt16
  genericSignature : Option String
  innerClassOf : Option String
  origin : ClassOrigin
  annotationTargets : Option (List String)
  annotationRetention : Option String
deriving DecidableEq

def ArchiveClassStub.fromClassMetadata (c : ClassMetadata) : ArchiveClassStub where
  package := c.package
  name := c.name
  internalName := c.internalName
  superName := c.superName
  interfaces := c.interfaces
  methods := c.methods.map ArchiveMethodStub.fromMethodSummary
  fields := c.fields.map ArchiveFieldStub.fromFieldSummary
  accessFlags := c.accessFlags
  genericSignature := c.genericSignature
  innerClassOf := c.innerClassOf
  origin := c.origin
  annotationTargets := c.annotationTargets
  annotationRetention := c.annotationRetention

/-- An annotation with the single element `value`. -/
def valueAnnotation (internalName : String) (value : AnnotationValue) : AnnotationSummary where
  internalName := internalName
  runtimeVisible := true
  elements := [("value", value)]

def ArchiveClassStub.materializeAnnotations (stub : ArchiveClassStub) : List AnnotationSummary :=
  let target (t : String) : AnnotationValue := .enum "java/lang/annotation/ElementType" t
  let targets := stub.annotationTargets.map fun
    | [t] => valueAnnotation targetInternal (target t)
    | ts => valueAnnotation targetInternal (.array (ts.map target))
  let retention := stub.annotationRetention.map fun r =>
    valueAnnotation retentionInternal (.enum "java/lang/annotation/RetentionPolicy" r)
  targets.toList ++ retention.toList

def ArchiveClassStub.materialize (stub : ArchiveClassStub) : ClassMetadata where
  package := stub.package
  name := stub.name
  internalName := stub.internalName
  superName := stub.superName
  interfaces := stub.interfaces
  annotations := stub.materializeAnnotations
  methods := stub.methods.map ArchiveMethodStub.materialize
  fields := stub.fields.map ArchiveFieldStub.materialize
  accessFlags := stub.accessFlags
  genericSignature := stub.genericSignature
  innerClassOf := stub.innerClassOf
  origin := stub.origin

/-! ## Descriptors are read back -/

theorem desc_toList (m : MethodSummary) :
    m.desc.toList = '(' :: ((m.params.map fun p => p.descriptor.toList).flatten ++
      ')' :: (m.returnType.getD "V").toList) := by
  simp [MethodSummary.desc, List.flatMap_def, List.map_map, Function.comp_def]

theorem ArchiveMethodStub.materialize_desc {stub : ArchiveMethodStub}
    (h : isMethodDescriptor stub.descriptor.toList = true) :
    stub.materialize.desc = stub.descriptor := by
  apply String.toList_inj.mp
  rw [desc_toList]
  obtain ⟨s, hs⟩ : ∃ s, stub.descriptor.toList = '(' :: s := by
    unfold isMethodDescriptor at h
    split at h
    · exact ⟨_, by assumption⟩
    · cases h
  rw [hs, isMethodDescriptor] at h
  split at h
  · rename_i params ret hsplit
    obtain ⟨rfl, hp⟩ := splitOnce_eq hsplit
    simp only [Bool.and_eq_true] at h
    have hparams : ((stub.materialize.params.map fun p => p.descriptor.toList)).flatten = params := by
      have hdesc : stub.materialize.params.map MethodParam.descriptor =
          (descriptorTypes params).map String.ofList := by
        simp only [materialize, paramsFromDescriptorAndNames, withParamNames_descriptor,
          paramsFromMethodDescriptor, splitParamDescriptors, hs, paramText_eq hp]
        simp [Function.comp_def]
      have hmap := congrArg (List.map String.toList) hdesc
      rw [List.map_map, List.map_map] at hmap
      simp only [Function.comp_def, String.toList_ofList, List.map_id'] at hmap
      rw [hmap, descriptorTypes_flatten]
    have hret : (stub.materialize.returnType.getD "V").toList = ret := by
      have hopen : ')' ∉ '(' :: params := by simpa using hp
      have hr := parseReturnType_getD hopen h.2
      simp only [materialize, parseReturnTypeFromDescriptor, hs]
      rw [List.cons_append] at hr
      cases hx : extractReturnInternalName ('(' :: (params ++ ')' :: ret)) with
      | none => simpa [hx] using hr
      | some t => simpa [hx] using hr
    rw [hs, hparams, hret]
  · cases h

example : (ArchiveMethodStub.materialize ⟨"put", "(ILjava/lang/String;[B)Ljava/util/List;",
    ["i"], 1, false, none⟩).desc = "(ILjava/lang/String;[B)Ljava/util/List;" := by decide

end JavaAnalyzer.Index
