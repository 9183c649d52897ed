import JavaAnalyzer.Index.ArchiveStub

/-! # What a class keeps in an archive

`ArchiveClassStub::from_class_metadata` and `materialize`, one behind the other. A method stub holds
the joined descriptor, so a parameter list survives when its types are found again in the text, and
a return type when the signature reader prints it as it was. -/

namespace JavaAnalyzer.Index
set_option autoImplicit false
open Jvm Text Semantic

/-! ## Without annotation lists -/

def MethodParam.plain (p : MethodParam) : MethodParam :=
  { p with annotations := [] }

def MethodSummary.plain (m : MethodSummary) : MethodSummary :=
  { m with params := m.params.map MethodParam.plain, annotations := [] }

def FieldSummary.plain (f : FieldSummary) : FieldSummary :=
  { f with annotations := [] }

def ClassMetadata.plain (c : ClassMetadata) : ClassMetadata :=
  { c with
    annotations := []
    methods := c.methods.map MethodSummary.plain
    fields := c.fields.map FieldSummary.plain }

@[simp] theorem MethodSummary.plain_desc (m : MethodSummary) : m.plain.desc = m.desc := by
  simp [desc, plain, MethodParam.plain, Function.comp_def]

@[simp] theorem ArchiveMethodStub.fromMethodSummary_plain (m : MethodSummary) :
    fromMethodSummary m.plain = fromMethodSummary m := by
  rw [fromMethodSummary, fromMethodSummary, MethodSummary.plain_desc]
  simp [MethodSummary.plain, MethodParam.plain, Function.comp_def]

theorem ArchiveMethodStub.plain_materialize (stub : ArchiveMethodStub) :
    stub.materialize.plain = stub.materialize := by
  have hnames : ∀ (ps : List MethodParam) (ns : List String), ps.map MethodParam.plain = ps →
      (withParamNames ps ns).map MethodParam.plain = withParamNames ps ns := by
    intro ps
    induction ps with
    | nil => intro ns _; cases ns <;> rfl
    | cons p ps ih =>
      intro ns h
      obtain ⟨hp, hps⟩ := List.cons.inj h
      cases ns with
      | nil => exact h
      | cons n ns =>
        have hannotations : p.annotations = [] := (congrArg MethodParam.annotations hp).symm
        simp [withParamNames, MethodParam.plain, hannotations, ih ns hps]
  have hparams : (paramsFromMethodDescriptor stub.descriptor).map MethodParam.plain =
      paramsFromMethodDescriptor stub.descriptor := by
    simp [paramsFromMethodDescriptor, MethodParam.plain, Function.comp_def]
  simp only [MethodSummary.plain, materialize, paramsFromDescriptorAndNames,
    hnames _ stub.paramNames hparams]

/-! ## Methods -/

/-- The texts of the parameter types. -/
def MethodSummary.paramTypes (m : MethodSummary) : List (List Char) :=
  m.params.map fun p => p.descriptor.toList

theorem MethodSummary.plain_paramTypes (m : MethodSummary) : m.plain.paramTypes = m.paramTypes := by
  simp [paramTypes, plain, MethodParam.plain, Function.comp_def]

theorem MethodSummary.desc_paramTypes (m : MethodSummary) : m.desc.toList =
    '(' :: (m.paramTypes.flatten ++ ')' :: (m.returnType.getD "V").toList) :=
  desc_toList m

/-- The joined parameter types are cut where they were joined, and the return type is the text of a
type signature other than void. -/
def MethodSummary.Reparsed (m : MethodSummary) : Prop :=
  ')' ∉ m.paramTypes.flatten ∧ descriptorTypes m.paramTypes.flatten = m.paramTypes ∧
    ∀ ret ∈ m.returnType, ∃ t : JvmType,
      t.wellFormed = true ∧ t ≠ .primitive 'V' ∧ t.signature = ret.toList

theorem withParamNames_names (ps : List MethodParam) :
    withParamNames (ps.map fun p => { descriptor := p.descriptor, name := "", annotations := [] })
      (ps.map MethodParam.name) = ps.map MethodParam.plain := by
  induction ps with
  | nil => rfl
  | cons p ps ih => simp [withParamNames, MethodParam.plain, ih]

/-- The parameters read from a descriptor are the types in front of its first `)`. -/
theorem materialize_paramTypes {m : MethodSummary} {front back : List Char} (hfront : ')' ∉ front)
    (hdesc : m.desc.toList = '(' :: (front ++ ')' :: back)) :
    (ArchiveMethodStub.fromMethodSummary m).materialize.paramTypes = descriptorTypes front := by
  have hparams : (ArchiveMethodStub.fromMethodSummary m).materialize.params.map
      MethodParam.descriptor = (descriptorTypes front).map String.ofList := by
    simp only [ArchiveMethodStub.materialize, ArchiveMethodStub.fromMethodSummary,
      paramsFromDescriptorAndNames, withParamNames_descriptor, paramsFromMethodDescriptor,
      splitParamDescriptors, hdesc, paramText_eq hfront]
    simp [Function.comp_def]
  have htexts := congrArg (List.map String.toList) hparams
  simpa [MethodSummary.paramTypes, Function.comp_def] using htexts

theorem parseReturnType_signature {params : List Char} (hparams : ')' ∉ params) {ret : String}
    {t : JvmType} (ht : t.wellFormed = true) (hvoid : t ≠ .primitive 'V')
    (hsig : t.signature = ret.toList) :
    parseReturnTypeFromDescriptor (String.ofList ('(' :: (params ++ ')' :: ret.toList))) =
      some ret := by
  have hopen : ')' ∉ '(' :: params := by simpa using hparams
  have hparse := JvmType.parse_signature ht []
  rw [List.append_nil, hsig] at hparse
  rw [parseReturnTypeFromDescriptor, String.toList_ofList, extractReturnInternalName,
    ← List.cons_append, splitOnce_append hopen, Option.bind_some, hparse, Option.bind_some,
    if_neg hvoid, Option.map_some, JvmType.toSignatureString, hsig, String.ofList_toList]

theorem parseReturnType_void {params : List Char} (hparams : ')' ∉ params) :
    parseReturnTypeFromDescriptor (String.ofList ('(' :: (params ++ ')' :: ['V']))) = none := by
  have hopen : ')' ∉ '(' :: params := by simpa using hparams
  have hparse : JvmType.parse ['V'] = some (.primitive 'V', []) := by decide
  rw [parseReturnTypeFromDescriptor, String.toList_ofList, extractReturnInternalName,
    ← List.cons_append, splitOnce_append hopen, Option.bind_some, hparse]
  rfl

theorem signature_of_parseReturnType {desc ret : String}
    (h : parseReturnTypeFromDescriptor desc = some ret) : ∃ t : JvmType,
      t.wellFormed = true ∧ t ≠ .primitive 'V' ∧ t.signature = ret.toList := by
  obtain ⟨t, ht, rfl⟩ := Option.map_eq_some_iff.mp h
  obtain ⟨p, -, hp⟩ := Option.bind_eq_some_iff.mp ht
  obtain ⟨q, hq, hkeep⟩ := Option.bind_eq_some_iff.mp hp
  split at hkeep
  · cases hkeep
  · rename_i hvoid
    cases hkeep
    exact ⟨q.1, JvmType.parse_wellFormed hq, hvoid, (JvmType.toSignatureString_toList q.1).symm⟩

theorem materialize_of_reparsed {m : MethodSummary} (h : m.Reparsed) :
    (ArchiveMethodStub.fromMethodSummary m).materialize = m.plain := by
  obtain ⟨hclosed, htypes, hreturns⟩ := h
  have hparams : paramsFromDescriptorAndNames m.desc (m.params.map MethodParam.name) =
      m.params.map MethodParam.plain := by
    rw [← withParamNames_names, paramsFromDescriptorAndNames, paramsFromMethodDescriptor,
      splitParamDescriptors, m.desc_paramTypes, paramText_eq hclosed]
    simp only [htypes]
    simp [MethodSummary.paramTypes, Function.comp_def]
  have hret : parseReturnTypeFromDescriptor m.desc = m.returnType := by
    rw [← String.ofList_toList (s := m.desc), m.desc_paramTypes]
    cases hreturn : m.returnType with
    | none => exact parseReturnType_void hclosed
    | some ret =>
      obtain ⟨t, ht, hvoid, hsig⟩ := hreturns ret hreturn
      exact parseReturnType_signature hclosed ht hvoid hsig
  rw [ArchiveMethodStub.materialize, ArchiveMethodStub.fromMethodSummary, MethodSummary.plain]
  simp only [hparams, hret]

theorem reparsed_of_materialize {m : MethodSummary}
    (h : (ArchiveMethodStub.fromMethodSummary m).materialize = m.plain) : m.Reparsed := by
  have hread : ∀ {front back : List Char}, ')' ∉ front →
      m.desc.toList = '(' :: (front ++ ')' :: back) → descriptorTypes front = m.paramTypes := by
    intro front back hfront hdesc
    rw [← materialize_paramTypes hfront hdesc, h, m.plain_paramTypes]
  have hclosed : ')' ∉ m.paramTypes.flatten := by
    intro hmem
    -- The first `)` cuts the parameter text short.
    obtain ⟨front, back, hsplit, hfront⟩ := List.eq_append_cons_of_mem hmem
    have hdesc := m.desc_paramTypes
    rw [hsplit, List.append_assoc, List.cons_append] at hdesc
    have hflat := congrArg List.flatten (hread hfront hdesc)
    rw [descriptorTypes_flatten, hsplit] at hflat
    simpa using congrArg List.length hflat
  refine ⟨hclosed, hread hclosed m.desc_paramTypes, ?_⟩
  intro ret hret
  exact signature_of_parseReturnType ((congrArg MethodSummary.returnType h).trans hret)

/-- A method goes through its stub, but for its annotations, exactly when its descriptor is read as
it was put together. -/
theorem materialize_iff (m : MethodSummary) :
    (ArchiveMethodStub.fromMethodSummary m).materialize = m.plain ↔ m.Reparsed :=
  ⟨reparsed_of_materialize, materialize_of_reparsed⟩

/-! ## Methods of class files -/

/-- The parameters and the return type are field types. -/
def MethodSummary.WellTyped (m : MethodSummary) : Prop :=
  (∀ p ∈ m.params, isFieldType p.descriptor.toList = true) ∧
    ∀ ret ∈ m.returnType, isFieldType ret.toList = true

/-- No parameter type holds a `)`, and the return type is the text of a type signature. -/
def MethodSummary.ReadBack (m : MethodSummary) : Prop :=
  (∀ p ∈ m.params, ')' ∉ p.descriptor.toList) ∧
    ∀ ret ∈ m.returnType, ∃ t : JvmType, t.wellFormed = true ∧ t.signature = ret.toList

/-- Class names without `)` and `<` are read back. -/
theorem MethodSummary.WellTyped.readBack {m : MethodSummary} (h : m.WellTyped)
    (hparams : ∀ p ∈ m.params, ')' ∉ p.descriptor.toList)
    (hret : ∀ ret ∈ m.returnType, '<' ∉ ret.toList) : m.ReadBack :=
  ⟨hparams, fun ret hmem => isFieldType_signature (h.2 ret hmem) (hret ret hmem)⟩

theorem paren_mem_paramTypes_iff (m : MethodSummary) :
    ')' ∉ m.paramTypes.flatten ↔ ∀ p ∈ m.params, ')' ∉ p.descriptor.toList := by
  simp [MethodSummary.paramTypes]

theorem MethodSummary.WellTyped.reparsed_iff {m : MethodSummary} (h : m.WellTyped) :
    m.Reparsed ↔ m.ReadBack := by
  have htypes : ∀ s ∈ m.paramTypes, isFieldType s = true := by
    intro s hs
    obtain ⟨p, hp, rfl⟩ := List.mem_map.mp hs
    exact h.1 p hp
  constructor
  · rintro ⟨hclosed, -, hreturns⟩
    refine ⟨(paren_mem_paramTypes_iff m).mp hclosed, fun ret hret => ?_⟩
    obtain ⟨t, ht, -, hsig⟩ := hreturns ret hret
    exact ⟨t, ht, hsig⟩
  · rintro ⟨hclosed, hreturns⟩
    refine ⟨(paren_mem_paramTypes_iff m).mpr hclosed, descriptorTypes_fieldTypes htypes, ?_⟩
    intro ret hret
    obtain ⟨t, ht, hsig⟩ := hreturns ret hret
    refine ⟨t, ht, ?_, hsig⟩
    rintro rfl
    have hfield := h.2 ret hret
    rw [← hsig] at hfield
    cases hfield

/-! ## Classes -/

theorem targetInternal_ne : targetInternal ≠ retentionInternal := by
  decide

theorem annotationTargets_materialize (stub : ArchiveClassStub) :
    stub.materialize.annotationTargets = stub.annotationTargets := by
  cases htargets : stub.annotationTargets with
  | none =>
    cases hretention : stub.annotationRetention <;>
      simp [ClassMetadata.annotationTargets, ArchiveClassStub.materialize, valueAnnotation,
        ArchiveClassStub.materializeAnnotations, htargets, hretention, targetInternal_ne.symm]
  | some ts =>
    rcases ts with _ | ⟨t, _ | ⟨t', ts⟩⟩
    · simp [ClassMetadata.annotationTargets, ArchiveClassStub.materialize, valueAnnotation,
        ArchiveClassStub.materializeAnnotations, htargets, AnnotationSummaryOf.value]
    · simp [ClassMetadata.annotationTargets, ArchiveClassStub.materialize, valueAnnotation,
        ArchiveClassStub.materializeAnnotations, htargets, AnnotationSummaryOf.value]
    · simp [ClassMetadata.annotationTargets, ArchiveClassStub.materialize, valueAnnotation,
        ArchiveClassStub.materializeAnnotations, htargets, AnnotationSummaryOf.value]

theorem annotationRetention_materialize (stub : ArchiveClassStub) :
    stub.materialize.annotationRetention = stub.annotationRetention := by
  cases htargets : stub.annotationTargets with
  | none =>
    cases hretention : stub.annotationRetention <;>
      simp [ClassMetadata.annotationRetention, ArchiveClassStub.materialize, valueAnnotation,
        ArchiveClassStub.materializeAnnotations, htargets, hretention, AnnotationSummaryOf.value]
  | some ts =>
    have hfind : ∀ value, ( valueAnnotation targetInternal value).internalName ≠ retentionInternal :=
      fun _ => targetInternal_ne
    rcases ts with _ | ⟨t, _ | ⟨t', ts⟩⟩ <;> cases hretention : stub.annotationRetention <;>
      simp [ClassMetadata.annotationRetention, ArchiveClassStub.materialize,
        ArchiveClassStub.materializeAnnotations, htargets, hretention, hfind] <;>
      simp [AnnotationSummaryOf.value, valueAnnotation]

@[simp] theorem ArchiveFieldStub.fromFieldSummary_plain (f : FieldSummary) :
    fromFieldSummary f.plain = fromFieldSummary f := rfl

/-- A stub is made of what a class has without annotation lists and of the two answers. -/
theorem fromClassMetadata_congr {c c' : ClassMetadata} (hplain : c.plain = c'.plain)
    (htargets : c.annotationTargets = c'.annotationTargets)
    (hretention : c.annotationRetention = c'.annotationRetention) :
    ArchiveClassStub.fromClassMetadata c = ArchiveClassStub.fromClassMetadata c' := by
  have hmethods : ∀ d : ClassMetadata, d.plain.methods.map ArchiveMethodStub.fromMethodSummary =
      d.methods.map ArchiveMethodStub.fromMethodSummary := by
    intro d
    simp [ClassMetadata.plain, Function.comp_def]
  have hfields : ∀ d : ClassMetadata, d.plain.fields.map ArchiveFieldStub.fromFieldSummary =
      d.fields.map ArchiveFieldStub.fromFieldSummary := by
    intro d
    simp [ClassMetadata.plain, Function.comp_def]
  have hstub : ∀ d : ClassMetadata, ArchiveClassStub.fromClassMetadata d =
      { ArchiveClassStub.fromClassMetadata d.plain with
        annotationTargets := d.annotationTargets
        annotationRetention := d.annotationRetention } := by
    intro d
    rw [ArchiveClassStub.fromClassMetadata, ArchiveClassStub.fromClassMetadata, hmethods, hfields]
    rfl
  rw [hstub c, hstub c', hplain, htargets, hretention]

/-- What the archive is to keep of a class. -/
structure ClassMetadata.SurvivesArchive (c : ClassMetadata) : Prop where
  plain_eq : (ArchiveClassStub.fromClassMetadata c).materialize.plain = c.plain
  targets_eq : (ArchiveClassStub.fromClassMetadata c).materialize.annotationTargets =
    c.annotationTargets
  retention_eq : (ArchiveClassStub.fromClassMetadata c).materialize.annotationRetention =
    c.annotationRetention
  stub_eq : ArchiveClassStub.fromClassMetadata (ArchiveClassStub.fromClassMetadata c).materialize =
    ArchiveClassStub.fromClassMetadata c

theorem materialize_plain_methods (c : ClassMetadata) :
    (ArchiveClassStub.fromClassMetadata c).materialize.plain.methods =
      c.methods.map fun m => (ArchiveMethodStub.fromMethodSummary m).materialize := by
  simp [ArchiveClassStub.materialize, ArchiveClassStub.fromClassMetadata, ClassMetadata.plain,
    ArchiveMethodStub.plain_materialize, Function.comp_def]

theorem plain_materialize_of_methods {c : ClassMetadata}
    (h : (ArchiveClassStub.fromClassMetadata c).materialize.plain.methods = c.plain.methods) :
    (ArchiveClassStub.fromClassMetadata c).materialize.plain = c.plain := by
  have hfields : (ArchiveClassStub.fromClassMetadata c).materialize.plain.fields =
      c.plain.fields := by
    simp [ArchiveClassStub.materialize, ArchiveClassStub.fromClassMetadata, ClassMetadata.plain,
      ArchiveFieldStub.materialize, ArchiveFieldStub.fromFieldSummary, FieldSummary.plain,
      Function.comp_def]
  have hclass : (ArchiveClassStub.fromClassMetadata c).materialize.plain =
      { c.plain with
        methods := (ArchiveClassStub.fromClassMetadata c).materialize.plain.methods
        fields := (ArchiveClassStub.fromClassMetadata c).materialize.plain.fields } := rfl
  rw [hclass, h, hfields]

/-- A class goes through the archive unchanged exactly when each of its methods is read back. -/
theorem archive_stub_round_trip_iff (c : ClassMetadata) (h : ∀ m ∈ c.methods, m.WellTyped) :
    c.SurvivesArchive ↔ ∀ m ∈ c.methods, m.ReadBack := by
  constructor
  · intro hkept m hm
    have hmethods := congrArg ClassMetadata.methods hkept.plain_eq
    rw [materialize_plain_methods] at hmethods
    exact (h m hm).reparsed_iff.mp ((materialize_iff m).mp (List.map_inj_left.mp hmethods m hm))
  · intro hread
    have hmethods : (ArchiveClassStub.fromClassMetadata c).materialize.plain.methods =
        c.plain.methods := by
      rw [materialize_plain_methods]
      exact List.map_congr_left fun m hm =>
        (materialize_iff m).mpr ((h m hm).reparsed_iff.mpr (hread m hm))
    have hplain := plain_materialize_of_methods hmethods
    have htargets := annotationTargets_materialize (ArchiveClassStub.fromClassMetadata c)
    have hretention := annotationRetention_materialize (ArchiveClassStub.fromClassMetadata c)
    exact ⟨hplain, htargets, hretention, fromClassMetadata_congr hplain htargets hretention⟩

/-- A class with one method of one parameter. -/
def classOfMethod (paramType : String) (returnType : Option String) : ClassMetadata :=
  { ClassMetadata.bare (some "demo") "Shop" "demo/Shop" none (.jar "demo.jar") with
    methods := [⟨"price", [⟨paramType, "cost", []⟩], [], 1, false, none, returnType⟩] }

theorem ordinary_method_survives :
    (classOfMethod "[Ljava/lang/String;" (some "Ljava/util/List;")).SurvivesArchive := by
  have htyped : ∀ m ∈ (classOfMethod "[Ljava/lang/String;" (some "Ljava/util/List;")).methods,
      m.WellTyped := by
    simp only [classOfMethod, List.mem_singleton, forall_eq, MethodSummary.WellTyped]
    decide
  refine (archive_stub_round_trip_iff _ htyped).mpr ?_
  intro m hm
  refine (htyped m hm).readBack ?_ ?_
  all_goals
    obtain rfl := List.mem_singleton.mp hm
    decide

/-- A Kotlin class may be called `Cost(EUR)`. -/
theorem parenthesised_class_cut : ¬ ∀ c : ClassMetadata,
    (∀ m ∈ c.methods, m.WellTyped) → c.SurvivesArchive := by
  intro hall
  have htyped : ∀ m ∈ (classOfMethod "Ldemo/Cost(EUR);" none).methods, m.WellTyped := by
    simp only [classOfMethod, List.mem_singleton, forall_eq, MethodSummary.WellTyped]
    decide
  have hplain := (hall _ htyped).plain_eq
  revert hplain
  decide

/-! ## Classes the archive keeps as they are -/

def MethodSummary.IsPlain (m : MethodSummary) : Prop :=
  m.annotations = [] ∧ ∀ p ∈ m.params, p.annotations = []

theorem MethodSummary.plain_eq_iff (m : MethodSummary) : m.plain = m ↔ m.IsPlain := by
  constructor
  · intro h
    refine ⟨(congrArg MethodSummary.annotations h).symm, fun p hp => ?_⟩
    have hparams : m.params.map MethodParam.plain = m.params.map id := by
      rw [List.map_id]
      exact congrArg MethodSummary.params h
    exact (congrArg MethodParam.annotations (List.map_inj_left.mp hparams p hp)).symm
  · rintro ⟨hannotations, hparams⟩
    have hsame : m.params.map MethodParam.plain = m.params.map id :=
      List.map_congr_left fun p hp => by rw [MethodParam.plain, ← hparams p hp, id]
    rw [plain, hsame, List.map_id, ← hannotations]

theorem ArchiveFieldStub.materialize_iff (f : FieldSummary) :
    (fromFieldSummary f).materialize = f ↔ f.annotations = [] := by
  have hstub : (fromFieldSummary f).materialize = { f with annotations := [] } := rfl
  rw [hstub]
  constructor
  · intro h
    exact (congrArg FieldSummary.annotations h).symm
  · intro h
    rw [← h]

/-- No annotation but those a stub is materialised with, and methods that are read back. -/
structure ClassMetadata.Reduced (c : ClassMetadata) : Prop where
  annotations : ∃ stub : ArchiveClassStub, c.annotations = stub.materializeAnnotations
  methods : ∀ m ∈ c.methods, m.IsPlain ∧ m.Reparsed
  fields : ∀ f ∈ c.fields, f.annotations = []

theorem materialize_method_iff (m : MethodSummary) :
    (ArchiveMethodStub.fromMethodSummary m).materialize = m ↔ m.IsPlain ∧ m.Reparsed := by
  rw [← materialize_iff, ← m.plain_eq_iff]
  constructor
  · intro h
    have hplain : m.plain = m := by
      rw [← h, ArchiveMethodStub.plain_materialize]
    exact ⟨hplain, h.trans hplain.symm⟩
  · rintro ⟨hplain, h⟩
    exact h.trans hplain

/-- The annotations a stub is materialised with lead to the same annotations again. -/
theorem materializeAnnotations_iff (c : ClassMetadata) :
    (ArchiveClassStub.fromClassMetadata c).materializeAnnotations = c.annotations ↔
      ∃ stub : ArchiveClassStub, c.annotations = stub.materializeAnnotations := by
  constructor
  · intro h
    exact ⟨_, h.symm⟩
  · rintro ⟨stub, hstub⟩
    have htargets : c.annotationTargets = stub.annotationTargets := by
      rw [← annotationTargets_materialize stub, ClassMetadata.annotationTargets, hstub]
      rfl
    have hretention : c.annotationRetention = stub.annotationRetention := by
      rw [← annotationRetention_materialize stub, ClassMetadata.annotationRetention, hstub]
      rfl
    rw [hstub, ArchiveClassStub.materializeAnnotations, ArchiveClassStub.materializeAnnotations,
      ← htargets, ← hretention]
    rfl

theorem map_eq_self_iff {α : Type} {f : α → α} {l : List α} : l.map f = l ↔ ∀ a ∈ l, f a = a := by
  have hid : l.map f = l ↔ l.map f = l.map id := by rw [List.map_id]
  exact hid.trans List.map_inj_left

theorem materialize_class_iff (c : ClassMetadata) :
    (ArchiveClassStub.fromClassMetadata c).materialize = c ↔ c.Reduced := by
  have hmethods : (ArchiveClassStub.fromClassMetadata c).materialize.methods = c.methods ↔
      ∀ m ∈ c.methods, m.IsPlain ∧ m.Reparsed := by
    simp only [← materialize_method_iff]
    simp [ArchiveClassStub.materialize, ArchiveClassStub.fromClassMetadata, map_eq_self_iff]
  have hfields : (ArchiveClassStub.fromClassMetadata c).materialize.fields = c.fields ↔
      ∀ f ∈ c.fields, f.annotations = [] := by
    simp only [← ArchiveFieldStub.materialize_iff]
    simp [ArchiveClassStub.materialize, ArchiveClassStub.fromClassMetadata, map_eq_self_iff]
  constructor
  · intro h
    exact ⟨(materializeAnnotations_iff c).mp (congrArg ClassMetadata.annotations h),
      hmethods.mp (congrArg ClassMetadata.methods h), hfields.mp (congrArg ClassMetadata.fields h)⟩
  · intro h
    have hclass : (ArchiveClassStub.fromClassMetadata c).materialize =
        { c with
          annotations := (ArchiveClassStub.fromClassMetadata c).materializeAnnotations
          methods := (ArchiveClassStub.fromClassMetadata c).materialize.methods
          fields := (ArchiveClassStub.fromClassMetadata c).materialize.fields } := rfl
    rw [hclass, (materializeAnnotations_iff c).mpr h.annotations, hmethods.mpr h.methods,
      hfields.mpr h.fields]

end JavaAnalyzer.Index
