import JavaAnalyzer.Language.Render
import JavaAnalyzer.Semantic.Inheritance
import JavaAnalyzer.Semantic.MethodReturn

/-! # Types of inherited members

The types of a member as the resolver and the renderer give them, against the member types of the
language. The code puts the receiver's own arguments in for the parameters of the declaring class, by
position. The language puts in the arguments that the declaring class receives along the inheritance
path. `inherited_members_iff` says for calls, methods and fields when the two agree. -/

namespace JavaAnalyzer.Language
set_option autoImplicit false
open Text Index Semantic

/-! ## The types behind the texts -/

section Shown

variable (provider : SymbolProvider) (receiverInternal : String) (classMeta : ClassMetadata)

/-- The receiver's arguments, by the position of the declaring class's parameters. -/
def ownImage : String → JvmType :=
  JvmType.argOf (classTypeParameters classMeta) (splitInternalName receiverInternal).2

def shownType (t : JvmType) : JvmType :=
  asReceiverParam (classTypeParameters classMeta) (splitInternalName receiverInternal).2 t

def isSubstituted : Bool :=
  !(classTypeParameters classMeta).isEmpty && !(splitInternalName receiverInternal).2.isEmpty

/-- The text of a shown type, the declared one when there is nothing to put in. -/
def textOf (jvmText : List Char) (t : JvmType) : String :=
  if isSubstituted receiverInternal classMeta then typeNameToSourceStyle provider t.toTypeName
  else declaredText provider jvmText

def signatureOf (jvmText : List Char) (t : JvmType) : List Char :=
  if isSubstituted receiverInternal classMeta then t.toTypeName.jvmSignature else jvmText

theorem substituteType_shown {text rest : List Char} {t : JvmType}
    (h : JvmType.parse text = some (t, rest)) :
    substituteType receiverInternal classMeta.genericSignature text =
      if isSubstituted receiverInternal classMeta then
        some (shownType receiverInternal classMeta t).toTypeName
      else none := by
  rw [substituteType_eq receiverInternal classMeta.genericSignature h, isSubstituted, shownType,
    classTypeParameters, ← Bool.not_or]
  generalize (_ || _) = empty
  cases empty with
  | true => rfl
  | false => rfl

theorem renderSubstituted_eq {text rest : List Char} {t : JvmType}
    (h : JvmType.parse text = some (t, rest)) :
    renderSubstituted provider receiverInternal classMeta text =
      textOf provider receiverInternal classMeta text (shownType receiverInternal classMeta t) := by
  rw [renderSubstituted, substituteType_shown receiverInternal classMeta h, textOf]
  split <;> rfl

theorem paramTexts_parse {fuel : ℕ} {s : List Char} {p : JvmType × List Char}
    (h : p ∈ paramTexts fuel s) : JvmType.parse p.2 = some (p.1, []) := by
  induction fuel generalizing s with
  | zero => simp [paramTexts] at h
  | succ fuel ih =>
    rw [paramTexts] at h
    cases hs : JvmType.parse s with
    | none => simp [hs] at h
    | some read =>
      obtain ⟨t, rest⟩ := read
      simp only [hs, List.mem_cons] at h
      rcases h with rfl | h
      · exact JvmType.parse_consumed hs
      · exact ih h

def paramTypeTexts (method : MethodSummary) : List String :=
  (declaredParams method).mapIdx fun i param => renderParamTypeForDisplay method i
    (textOf provider receiverInternal classMeta param.2
      (shownType receiverInternal classMeta param.1))

theorem renderSubstitutedParamTypes_eq (method : MethodSummary) :
    renderSubstitutedParamTypes provider receiverInternal classMeta method =
      paramTypeTexts provider receiverInternal classMeta method := by
  rw [renderSubstitutedParamTypes, paramTypeTexts, List.mapIdx_eq_mapIdx_iff]
  intro i hi
  rw [renderSubstituted_eq provider _ _ (paramTexts_parse (List.getElem_mem hi))]

/-! ## Shown as members of the receiver -/

/-- Label and detail of a method show its declared types under `σ`. -/
structure ShowsMethodAs (method : MethodSummary) (ret : JvmType) (σ : String → JvmType) : Prop where
  label : methodLabel provider receiverInternal classMeta method =
    labelOf method (paramTypeTexts provider receiverInternal classMeta method)
  detail : methodDetail provider receiverInternal classMeta method =
    detailOf receiverInternal method (paramTypeTexts provider receiverInternal classMeta method)
      (textOf provider receiverInternal classMeta (returnText method)
        (shownType receiverInternal classMeta ret))
  types : ∀ t ∈ ret :: (declaredParams method).map Prod.fst,
    (shownType receiverInternal classMeta t).boxed = (t.inst σ).boxed

/-- The detail of a field shows its declared type under `σ`. -/
structure ShowsFieldAs (field : FieldSummary) (t : JvmType) (σ : String → JvmType) : Prop where
  detail : fieldDetail provider receiverInternal classMeta field =
    fieldDetailOf provider receiverInternal field (signatureOf receiverInternal classMeta
      (fieldText field) (shownType receiverInternal classMeta t))
  type : (shownType receiverInternal classMeta t).boxed = (t.inst σ).boxed

/-- A member's own type parameters stay, the class's parameters are received. -/
def memberImage (methodTypeParams : List String) (received : String → JvmType) (x : String) :
    JvmType :=
  if x ∈ methodTypeParams then .typeVar x else received x

/-- A variable of a member's type for which the receiver's own arguments are right: the method's own
parameters are not replaced, and a parameter of the class has the argument that the class receives. -/
structure PassedOn (methodTypeParams : List String) (received : String → JvmType)
    (o : String × Bool) : Prop where
  shadowed : o.1 ∈ methodTypeParams → ownImage receiverInternal classMeta o.1 = .typeVar o.1
  passed : o.1 ∉ methodTypeParams →
    JvmType.boxedAt o.2 (ownImage receiverInternal classMeta o.1) = JvmType.boxedAt o.2 (received o.1)

theorem passedOn_iff (methodTypeParams : List String) (received : String → JvmType)
    (o : String × Bool) : PassedOn receiverInternal classMeta methodTypeParams received o ↔
      JvmType.boxedAt o.2 (ownImage receiverInternal classMeta o.1) =
        JvmType.boxedAt o.2 (memberImage methodTypeParams received o.1) := by
  by_cases hparam : o.1 ∈ methodTypeParams
  · have hvar : JvmType.boxedAt o.2 (.typeVar o.1) = .typeVar o.1 :=
      JvmType.boxedAt_eq_typeVar.mpr rfl
    rw [memberImage, if_pos hparam, hvar, JvmType.boxedAt_eq_typeVar]
    exact ⟨fun h => h.shadowed hparam, fun h => ⟨fun _ => h, fun hn => absurd hparam hn⟩⟩
  · rw [memberImage, if_neg hparam]
    exact ⟨fun h => h.passed hparam, fun h => ⟨fun hp => absurd hp hparam, fun _ => h⟩⟩

theorem shownType_iff (methodTypeParams : List String) (received : String → JvmType) (t : JvmType) :
    (shownType receiverInternal classMeta t).boxed =
        (t.inst (memberImage methodTypeParams received)).boxed ↔
      ∀ o ∈ t.occurrences false, PassedOn receiverInternal classMeta methodTypeParams received o := by
  rw [shownType, asReceiverParam_iff]
  exact forall₂_congr fun o _ =>
    (passedOn_iff receiverInternal classMeta methodTypeParams received o).symm

def methodTypeParams (method : MethodSummary) : List String :=
  parseMethodTypeParameters (methodSignatureToUse method)

theorem showsMethodAs_iff {method : MethodSummary} {ret : JvmType} {rest : List Char}
    (h : JvmType.parse (returnText method) = some (ret, rest)) (received : String → JvmType) :
    ShowsMethodAs provider receiverInternal classMeta method ret
        (memberImage (methodTypeParams method) received) ↔
      ∀ t ∈ ret :: (declaredParams method).map Prod.fst, ∀ o ∈ t.occurrences false,
        PassedOn receiverInternal classMeta (methodTypeParams method) received o := by
  have htypes := forall₂_congr fun (t : JvmType)
    (_ : t ∈ ret :: (declaredParams method).map Prod.fst) =>
      shownType_iff receiverInternal classMeta (methodTypeParams method) received t
  rw [← htypes]
  constructor
  · exact fun hshow => hshow.types
  · intro hall
    refine ⟨?_, ?_, hall⟩
    · rw [methodLabel, renderSubstitutedParamTypes_eq]
    · rw [methodDetail, renderSubstitutedParamTypes_eq, renderSubstituted_eq provider _ _ h]

theorem showsFieldAs_iff {field : FieldSummary} {t : JvmType} {rest : List Char}
    (h : JvmType.parse (fieldText field) = some (t, rest)) (received : String → JvmType) :
    ShowsFieldAs provider receiverInternal classMeta field t (memberImage [] received) ↔
      ∀ o ∈ t.occurrences false, PassedOn receiverInternal classMeta [] received o := by
  rw [← shownType_iff]
  constructor
  · exact fun hshow => hshow.type
  · intro htype
    refine ⟨?_, htype⟩
    rw [fieldDetail, substituteType_shown _ _ h, signatureOf]
    split <;> rfl

end Shown

/-! ## Seen through the supertype -/

/-- What holds of the arguments that the declaring class receives, on every path from the receiver. -/
def SeenThrough (view : IndexView) (receiverInternal : String) (owner : ClassMetadata)
    (holds : (String → JvmType) → Prop) : Prop :=
  ∀ ownerArgs, InheritsAs view (splitInternalName receiverInternal) (owner.internalName, ownerArgs) →
    holds (JvmType.argOf (classTypeParameters owner) ownerArgs)

theorem SeenThrough.congr {view : IndexView} {receiverInternal : String} {owner : ClassMetadata}
    {p q : (String → JvmType) → Prop} (h : ∀ received, p received ↔ q received) :
    SeenThrough view receiverInternal owner p ↔ SeenThrough view receiverInternal owner q :=
  forall₂_congr fun _ _ => h _

/-- A call of a method of `owner` has its return type under `σ`. -/
structure ReturnsAs (lookup : MethodLookup) (method : MethodSummary) (owner : ClassMetadata)
    (types : List JvmType × JvmType) (σ : String → JvmType) : Prop where
  named : lookup.resolveMethodReturn = (lookup.selectedCall method owner).nameReturn
    ((lookup.selectedCall method owner).instantiatedReturn types)
  type : ((lookup.selectedCall method owner).instantiatedReturn types).boxed =
    (types.2.inst σ).boxed

theorem returnsAs_iff {lookup : MethodLookup} {method : MethodSummary} {owner : ClassMetadata}
    {types : List JvmType × JvmType} (hfinds : lookup.Finds method owner)
    (htypes : parseMethodSignatureTypes (lookup.selectedCall method owner).signature = some types)
    (received : String → JvmType) :
    ReturnsAs lookup method owner types
        ((lookup.selectedCall method owner).hygienicImage types received) ↔
      ∀ o ∈ types.2.occurrences false,
        (lookup.selectedCall method owner).KeptApart types received o := by
  rw [← SelectedCall.returnsInstance_iff htypes received]
  have hreturn := MethodLookup.resolveMethodReturn_eq hfinds
  constructor
  · exact fun h => ⟨hreturn ▸ h.named, h.type⟩
  · exact fun h => ⟨hreturn.trans h.1, h.2⟩

/-- Members of a declaring class are seen as members of the receiver exactly when, wherever one of their
types has a variable, the receiver's own argument at that position is the one that the declaring class
receives along the path, and no own parameter of a method is taken for one of the class. -/
theorem inherited_members_iff (view : IndexView) (receiverInternal : String)
    (owner : ClassMetadata) :
    (∀ (lookup : MethodLookup) (method : MethodSummary) (types : List JvmType × JvmType),
      lookup.view = view → lookup.receiverInternal = receiverInternal →
      lookup.Finds method owner →
      parseMethodSignatureTypes (lookup.selectedCall method owner).signature = some types →
      (SeenThrough view receiverInternal owner (fun received =>
          ReturnsAs lookup method owner types
            ((lookup.selectedCall method owner).hygienicImage types received)) ↔
        SeenThrough view receiverInternal owner fun received =>
          ∀ o ∈ types.2.occurrences false,
            (lookup.selectedCall method owner).KeptApart types received o)) ∧
    (∀ (provider : SymbolProvider) (method : MethodSummary) (ret : JvmType) (rest : List Char),
      JvmType.parse (returnText method) = some (ret, rest) →
      (SeenThrough view receiverInternal owner (fun received =>
          ShowsMethodAs provider receiverInternal owner method ret
            (memberImage (methodTypeParams method) received)) ↔
        SeenThrough view receiverInternal owner fun received =>
          ∀ t ∈ ret :: (declaredParams method).map Prod.fst, ∀ o ∈ t.occurrences false,
            PassedOn receiverInternal owner (methodTypeParams method) received o)) ∧
    (∀ (provider : SymbolProvider) (field : FieldSummary) (t : JvmType) (rest : List Char),
      JvmType.parse (fieldText field) = some (t, rest) →
      (SeenThrough view receiverInternal owner (fun received =>
          ShowsFieldAs provider receiverInternal owner field t (memberImage [] received)) ↔
        SeenThrough view receiverInternal owner fun received =>
          ∀ o ∈ t.occurrences false, PassedOn receiverInternal owner [] received o)) := by
  refine ⟨?_, ?_, ?_⟩
  · rintro lookup method types - - hfinds htypes
    exact SeenThrough.congr fun received => returnsAs_iff hfinds htypes received
  · intro provider method ret rest hret
    exact SeenThrough.congr fun received => showsMethodAs_iff provider _ _ hret received
  · intro provider field t rest ht
    exact SeenThrough.congr fun received => showsFieldAs_iff provider _ _ ht received

/-- Where no class on the way changes the arguments, the receiver's own ones are right. -/
theorem ownImage_of_unchanged {view : IndexView} {receiverInternal : String} {owner : ClassMetadata}
    {ownerArgs : List JvmType} (h : Relation.ReflTransGen (UnchangedStep view)
      (splitInternalName receiverInternal) (owner.internalName, ownerArgs)) :
    ownImage receiverInternal owner = JvmType.argOf (classTypeParameters owner) ownerArgs := by
  have hargs : ownerArgs = (splitInternalName receiverInternal).2 := (unchanged_args h).2
  rw [ownImage, hargs]

/-! ## A subclass of a generic class -/

def getMethod : MethodSummary where
  name := "get"
  params := []
  annotations := []
  accessFlags := 1
  isSynthetic := false
  genericSignature := some "()TT;"
  returnType := some "Ljava/lang/Object;"

def valueField : FieldSummary where
  name := "value"
  descriptor := "Ljava/lang/Object;"
  accessFlags := 1
  annotations := []
  isSynthetic := false
  genericSignature := some "TT;"

def baseClass : ClassMetadata :=
  { ClassMetadata.bare (some "p") "Base" "p/Base" none (.jar "lib.jar") with
    superName := some "java/lang/Object"
    methods := [getMethod]
    fields := [valueField]
    genericSignature := some "<T:Ljava/lang/Object;>Ljava/lang/Object;" }

/-- A subclass of `Base` with this signature, beside it. -/
def subView (signature : String) : IndexView :=
  .new [BucketIndex.new.addClasses [baseClass,
    { ClassMetadata.bare (some "p") "Sub" "p/Sub" none (.jar "lib.jar") with
      superName := some "p/Base"
      genericSignature := some signature }]]

/-- `class Sub<A> extends Base<A>`. -/
def straightSub : String := "<A:Ljava/lang/Object;>Lp/Base<TA;>;"

/-- `class Sub<A, B> extends Base<B>`. -/
def swappedSub : String := "<A:Ljava/lang/Object;B:Ljava/lang/Object;>Lp/Base<TB;>;"

def subOfString : String := "p/Sub<Ljava/lang/String;>"

def getLookup (signature receiverInternal : String) : MethodLookup where
  view := subView signature
  receiverInternal := receiverInternal
  methodName := "get"
  args := ⟨0, [], []⟩
  ctx := ⟨fun _ _ => none⟩
  selectOverloadMatch := fun _ candidates _ _ => candidates.head?

/-- The only path from `Sub<String>` to `Base`, for `class Sub<A> extends Base<A>`. -/
theorem received_straight {ownerArgs : List JvmType}
    (h : InheritsAs (subView straightSub) (splitInternalName subOfString) ("p/Base", ownerArgs)) :
    ownerArgs = [.object "java/lang/String" []] := by
  have hsub : superClassTypes (subView straightSub) (splitInternalName subOfString) =
      [("p/Base", [.object "java/lang/String" []])] := by decide
  have hbase : superClassTypes (subView straightSub)
      ("p/Base", [.object "java/lang/String" []]) = [("java/lang/Object", [])] := by decide
  have hobject : superClassTypes (subView straightSub) ("java/lang/Object", []) = [] := by decide
  rcases h.cases_head with hself | ⟨next, hnext, h⟩
  · have hname : (splitInternalName subOfString).1 = "p/Base" :=
      congrArg Prod.fst hself
    exact absurd hname (by decide)
  · obtain rfl := List.mem_singleton.mp (hsub ▸ hnext)
    rcases h.cases_head with hself | ⟨next, hnext, h⟩
    · exact (Prod.mk.inj hself).2.symm
    · obtain rfl := List.mem_singleton.mp (hbase ▸ hnext)
      rcases h.cases_head with hself | ⟨next, hnext, -⟩
      · exact absurd (congrArg Prod.fst hself) (by decide : "java/lang/Object" ≠ "p/Base")
      · rw [hobject] at hnext
        cases hnext

theorem straight_parameter_seen :
    SeenThrough (subView straightSub) subOfString baseClass (fun received =>
      ReturnsAs (getLookup straightSub subOfString) getMethod baseClass ([], .typeVar "T")
        (((getLookup straightSub subOfString).selectedCall getMethod baseClass).hygienicImage
          ([], .typeVar "T") received)) ∧
    SeenThrough (subView straightSub) subOfString baseClass (fun received =>
      ShowsMethodAs ⟨fun _ => none⟩ subOfString baseClass getMethod (.typeVar "T")
        (memberImage (methodTypeParams getMethod) received)) ∧
    SeenThrough (subView straightSub) subOfString baseClass (fun received =>
      ShowsFieldAs ⟨fun _ => none⟩ subOfString baseClass valueField (.typeVar "T")
        (memberImage [] received)) := by
  have hmembers := inherited_members_iff (subView straightSub) subOfString baseClass
  have hdeclared : declaredParams getMethod = [] := by decide
  refine ⟨(hmembers.1 (getLookup _ _) getMethod _ rfl rfl
      ⟨by decide, by decide, by decide, by decide⟩ (by decide)).mpr ?_,
    (hmembers.2.1 ⟨fun _ => none⟩ getMethod (.typeVar "T") [] (by decide)).mpr ?_,
    (hmembers.2.2 ⟨fun _ => none⟩ valueField (.typeVar "T") [] (by decide)).mpr ?_⟩
  · intro ownerArgs hpath o ho
    obtain rfl := received_straight hpath
    obtain rfl : o = ("T", false) := by simpa [JvmType.occurrences] using ho
    exact (SelectedCall.keptApart_iff _ _ _).mpr (by decide)
  · intro ownerArgs hpath t ht o ho
    obtain rfl := received_straight hpath
    obtain rfl : t = .typeVar "T" := by simpa [hdeclared] using ht
    obtain rfl : o = ("T", false) := by simpa [JvmType.occurrences] using ho
    exact (passedOn_iff _ _ _ _ _).mpr (by decide)
  · intro ownerArgs hpath o ho
    obtain rfl := received_straight hpath
    obtain rfl : o = ("T", false) := by simpa [JvmType.occurrences] using ho
    exact (passedOn_iff _ _ _ _ _).mpr (by decide)

/-- `class Sub<A, B> extends Base<B>`: on a `Sub<String, Integer>` the call `get()` is typed `String`, the
first argument, where `Base` receives `Integer`. -/
theorem swapped_parameter_not_seen :
    ¬ ∀ (lookup : MethodLookup) (method : MethodSummary) (owner : ClassMetadata)
        (types : List JvmType × JvmType), lookup.Finds method owner →
      parseMethodSignatureTypes (lookup.selectedCall method owner).signature = some types →
      SeenThrough lookup.view lookup.receiverInternal owner fun received =>
        ReturnsAs lookup method owner types
          ((lookup.selectedCall method owner).hygienicImage types received) := by
  intro hall
  have hseen := hall
    (getLookup swappedSub "p/Sub<Ljava/lang/String;Ljava/lang/Integer;>") getMethod baseClass
    ([], .typeVar "T") ⟨by decide, by decide, by decide, by decide⟩ (by decide)
    [.object "java/lang/Integer" []] (.single (by decide))
  exact absurd hseen.type (by decide)

end JavaAnalyzer.Language
