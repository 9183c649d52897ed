import JavaAnalyzer.Semantic.MethodBindings

/-! # The return type of a selected method

`resolve_selected_method_return_with_callsite_and_qualifier_resolver` of `semantic/types.rs`. The
declared return type goes through two substitutions, first the inferred bindings, then the arguments of
the receiver, so a type that the first one puts in is seen by the second. `hygienic_return_iff` says
when the two passes amount to the one substitution of the language. Types are compared up to boxing of
primitive type arguments. -/

namespace JavaAnalyzer.Semantic
set_option autoImplicit false
open Text Index

/-! ## Names in the scope of an owner -/

section OwnerScope

variable (view : IndexView) (ownerInternal : String)

def classNamed (candidate : String) : Option String :=
  (view.getClass candidate).map fun _ => candidate

/-- The class that an unqualified name stands for in the scope of an owner. -/
def classInOwnerScope (base : String) : Option String :=
  let owner := ownerInternal.toList
  if base.toList = afterLast '$' (afterLast '/' owner) then some ownerInternal
  else
    (((beforeLast '$' owner).bind fun outer =>
        classNamed view (String.ofList outer ++ "$" ++ base)).or
      ((beforeLast '/' owner).bind fun pkg =>
        classNamed view (String.ofList pkg ++ "/" ++ base))).or
    ((classNamed view ("java/lang/" ++ base)).or
      (match view.getClassesBySimpleName base with
        | [c] => some c.internalName
        | _ => none))

/-- The last part of `canonicalize_type_in_owner_scope`, with the arguments already canonical. -/
def canonicalizeBase (ty : TypeName) : TypeName :=
  let base := ty.erasedInternal
  if ty.kind ∈ [.primitive, .typeVar, .unknown, .null] ∨ ty.isWildcardLike then ty
  else if base = "" then ty
  else if (view.getClass base).isSome then { ty with kind := .internal }
  else if base.toList.all fun c => 'A' ≤ c && c ≤ 'Z' then ty
  else
    match classInOwnerScope view ownerInternal base with
    | some name => { ty with baseInternal := name, kind := .internal }
    | none => ty

mutual

def canonicalizeTypeInOwnerScope : TypeName → TypeName
  | ⟨base, kind, args, dims⟩ =>
    canonicalizeBase view ownerInternal ⟨base, kind, canonicalizeArgsInOwnerScope args, dims⟩

def canonicalizeArgsInOwnerScope : List TypeName → List TypeName
  | [] => []
  | a :: args => canonicalizeTypeInOwnerScope a :: canonicalizeArgsInOwnerScope args

end

end OwnerScope

/-! ## The return type -/

structure SelectedCall where
  view : IndexView
  receiverInternal : String
  method : MethodSummary
  ownerInternal : String
  classGenericSignature : Option String
  args : CallArgs
  ctx : EvalContext

namespace SelectedCall

variable (call : SelectedCall)

def signature : String :=
  call.method.genericSignature.getD call.method.desc

/-- The inferred bindings, from the parameter types and the return type of the signature. -/
def methodBindings (types : List JvmType × JvmType) : Bindings :=
  inferMethodTypeBindingsShallow call.view call.method call.signature types.1 types.2
    call.receiverInternal call.classGenericSignature call.args call.ctx

/-- `resolve_selected_method_return_with_callsite_and_qualifier_resolver`. -/
def resolveSelectedMethodReturn : Option TypeName :=
  (parseMethodSignatureTypes call.signature).bind fun types =>
    -- The source skips this substitution when there are no bindings.
    let resolvedRet := substituteTypeVars types.2 (call.methodBindings types)
    match substituteType call.receiverInternal call.classGenericSignature resolvedRet.signature with
    | some substituted =>
      let substituted := canonicalizeTypeInOwnerScope call.view call.ownerInternal substituted
      if substituted.erasedInternal = "void" then none else some substituted
    | none =>
      if resolvedRet = .primitive 'V' then none
      else some (canonicalizeTypeInOwnerScope call.view call.ownerInternal resolvedRet.toTypeName)

/-! ## The type that is named -/

def classTypeParams : List String :=
  (call.classGenericSignature.map parseClassTypeParameters).getD []

def receiverTypeArgs : List JvmType :=
  (splitInternalName call.receiverInternal).2

def receiverImage : String → JvmType :=
  JvmType.argOf call.classTypeParams call.receiverTypeArgs

/-- The type after both substitutions. -/
def instantiatedReturn (types : List JvmType × JvmType) : JvmType :=
  asReceiverParam call.classTypeParams call.receiverTypeArgs
    (substituteTypeVars types.2 (call.methodBindings types))

/-- What is returned for a type: nothing for `void`, else its name in the owner's scope. -/
def nameReturn (t : JvmType) : Option TypeName :=
  let named := canonicalizeTypeInOwnerScope call.view call.ownerInternal t.toTypeName
  if call.classTypeParams ≠ [] ∧ call.receiverTypeArgs ≠ [] then
    if named.erasedInternal = "void" then none else some named
  else if t = .primitive 'V' then none
  else some named

theorem methodBindings_wellFormed (types : List JvmType × JvmType) :
    (call.methodBindings types).WellFormed :=
  inferMethodTypeBindingsShallow_wellFormed _ _ _ _ _ _ _ _ _

theorem parse_resolvedReturn {types : List JvmType × JvmType} (h : types.2.wellFormed = true) :
    JvmType.parse (substituteTypeVars types.2 (call.methodBindings types)).signature =
      some (substituteTypeVars types.2 (call.methodBindings types), []) := by
  have hwf : (substituteTypeVars types.2 (call.methodBindings types)).wellFormed = true :=
    JvmType.inst_wellFormed h fun x hx => (call.methodBindings_wellFormed types).image hx
  have hparse := JvmType.parse_signature hwf []
  rwa [List.append_nil] at hparse

variable {call}

theorem resolveSelectedMethodReturn_eq {types : List JvmType × JvmType}
    (h : parseMethodSignatureTypes call.signature = some types) :
    call.resolveSelectedMethodReturn = call.nameReturn (call.instantiatedReturn types) := by
  have hparse := call.parse_resolvedReturn (parseMethodSignatureTypes_wellFormed h)
  have hsub := substituteType_eq call.receiverInternal call.classGenericSignature hparse
  rw [resolveSelectedMethodReturn, h, Option.bind_some, nameReturn, instantiatedReturn]
  rw [← classTypeParams, ← receiverTypeArgs] at hsub
  by_cases hgeneric : call.classTypeParams ≠ [] ∧ call.receiverTypeArgs ≠ []
  · rw [if_neg (by simpa using hgeneric)] at hsub
    simp only [hsub]
    rw [if_pos hgeneric]
  · have hempty : (call.classTypeParams.isEmpty || call.receiverTypeArgs.isEmpty) = true := by
      simpa [or_iff_not_imp_left] using hgeneric
    have hself : asReceiverParam call.classTypeParams call.receiverTypeArgs
        (substituteTypeVars types.2 (call.methodBindings types)) =
          substituteTypeVars types.2 (call.methodBindings types) := by
      rw [asReceiverParam, ← Bool.not_or, hempty]
      rfl
    rw [if_pos hempty] at hsub
    simp only [hsub, hself]
    rw [if_neg hgeneric]

theorem boxed_instantiatedReturn (types : List JvmType × JvmType) :
    (call.instantiatedReturn types).boxed =
      (types.2.inst fun x => ((call.methodBindings types).image x).inst call.receiverImage).boxed := by
  rw [instantiatedReturn, boxed_asReceiverParam, substituteTypeVars_eq_inst, JvmType.inst_inst]
  rfl

/-- The returned type is the declared one under `σ`, exactly when the two passes give the same as `σ`
wherever a variable occurs. -/
theorem instantiatedReturn_iff (types : List JvmType × JvmType) (σ : String → JvmType) :
    (call.instantiatedReturn types).boxed = (types.2.inst σ).boxed ↔
      ∀ o ∈ types.2.occurrences false,
        JvmType.boxedAt o.2 (((call.methodBindings types).image o.1).inst call.receiverImage) =
          JvmType.boxedAt o.2 (σ o.1) := by
  rw [boxed_instantiatedReturn]
  exact JvmType.boxedAt_inst_iff _ σ types.2 false

/-! ## Hygiene -/

variable (call)

def methodTypeParams : List String :=
  parseMethodTypeParameters call.signature

/-- The substitution of the language: a type parameter of the method by its inferred binding, every
other variable by `outer`. -/
def hygienicImage (types : List JvmType × JvmType) (outer : String → JvmType) (x : String) : JvmType :=
  if x ∈ call.methodTypeParams then (call.methodBindings types).image x else outer x

/-- The call returns the declared type under `σ`. -/
def ReturnsInstance (types : List JvmType × JvmType) (σ : String → JvmType) : Prop :=
  call.resolveSelectedMethodReturn = call.nameReturn (call.instantiatedReturn types) ∧
    (call.instantiatedReturn types).boxed = (types.2.inst σ).boxed

/-- A variable of the return type that the two passes keep apart: what the method's parameter is bound
to mentions no class parameter that the receiver replaces, and another variable ends as what `outer`
has for it. -/
structure KeptApart (types : List JvmType × JvmType) (outer : String → JvmType)
    (o : String × Bool) : Prop where
  methodParam : o.1 ∈ call.methodTypeParams →
    ∀ y ∈ ((call.methodBindings types).image o.1).occurrences o.2,
      call.receiverImage y.1 = .typeVar y.1
  otherVar : o.1 ∉ call.methodTypeParams →
    JvmType.boxedAt o.2 (((call.methodBindings types).image o.1).inst call.receiverImage) =
      JvmType.boxedAt o.2 (outer o.1)

variable {call}

theorem keptApart_iff (types : List JvmType × JvmType) (outer : String → JvmType)
    (o : String × Bool) : call.KeptApart types outer o ↔
      JvmType.boxedAt o.2 (((call.methodBindings types).image o.1).inst call.receiverImage) =
        JvmType.boxedAt o.2 (call.hygienicImage types outer o.1) := by
  by_cases hparam : o.1 ∈ call.methodTypeParams
  · rw [hygienicImage, if_pos hparam, JvmType.boxedAt_inst_eq_self]
    exact ⟨fun h => h.methodParam hparam, fun h => ⟨fun _ => h, fun hn => absurd hparam hn⟩⟩
  · rw [hygienicImage, if_neg hparam]
    exact ⟨fun h => h.otherVar hparam, fun h => ⟨fun hp => absurd hp hparam, fun _ => h⟩⟩

/-- The return type is the declared one under one simultaneous substitution exactly when the two passes
keep the variables of the return type apart. -/
theorem returnsInstance_iff {types : List JvmType × JvmType}
    (h : parseMethodSignatureTypes call.signature = some types) (outer : String → JvmType) :
    call.ReturnsInstance types (call.hygienicImage types outer) ↔
      ∀ o ∈ types.2.occurrences false, call.KeptApart types outer o := by
  rw [ReturnsInstance, instantiatedReturn_iff]
  constructor
  · rintro ⟨-, hinstance⟩ o ho
    exact (keptApart_iff types outer o).mpr (hinstance o ho)
  · intro happart
    exact ⟨resolveSelectedMethodReturn_eq h,
      fun o ho => (keptApart_iff types outer o).mp (happart o ho)⟩

/-- The substitution that the two passes should amount to maps the class's parameters to the receiver's
arguments. -/
theorem hygienic_return_iff {types : List JvmType × JvmType}
    (h : parseMethodSignatureTypes call.signature = some types) :
    call.ReturnsInstance types (call.hygienicImage types call.receiverImage) ↔
      ∀ o ∈ types.2.occurrences false, call.KeptApart types call.receiverImage o :=
  returnsInstance_iff h call.receiverImage

/-- `<T> T id(T)`. -/
def idMethod : MethodSummary where
  name := "id"
  params := [⟨"Ljava/lang/Object;", "t", []⟩]
  annotations := []
  accessFlags := 1
  isSynthetic := false
  genericSignature := some "<T:Ljava/lang/Object;>(TT;)TT;"
  returnType := some "Ljava/lang/Object;"

/-- `box.id(arg)` with `Box<String> box`, where `Box<E>` declares `id`. -/
def idCall (arg : TypeName) : SelectedCall where
  view := .new [BucketIndex.new.addClasses [
    { ClassMetadata.bare (some "p") "Box" "p/Box" none (.jar "lib.jar") with
      methods := [idMethod]
      genericSignature := some "<E:Ljava/lang/Object;>Ljava/lang/Object;" }]]
  receiverInternal := "p/Box<Ljava/lang/String;>"
  method := idMethod
  ownerInternal := "p/Box"
  classGenericSignature := some "<E:Ljava/lang/Object;>Ljava/lang/Object;"
  args := ⟨1, [arg], ["arg"]⟩
  ctx := ⟨fun _ _ => none⟩

theorem integer_returned_hygienically :
    (idCall (.internalWithArgs "java/lang/Integer" [])).ReturnsInstance
      ([.typeVar "T"], .typeVar "T")
      ((idCall (.internalWithArgs "java/lang/Integer" [])).hygienicImage
        ([.typeVar "T"], .typeVar "T")
        (idCall (.internalWithArgs "java/lang/Integer" [])).receiverImage) :=
  (hygienic_return_iff (by decide)).mpr fun o ho => (keptApart_iff _ _ o).mpr (by
    obtain rfl : o = ("T", false) := by simpa [JvmType.occurrences] using ho
    decide)

/-- An argument of the caller's own type variable `E` is bound to `T` and then read as the `E` of the
receiver: the call is typed `String`. -/
theorem callers_variable_captured :
    ¬ ∀ (call : SelectedCall) (types : List JvmType × JvmType),
      parseMethodSignatureTypes call.signature = some types →
      call.receiverTypeArgs.length = call.classTypeParams.length →
      call.ReturnsInstance types (call.hygienicImage types call.receiverImage) := by
  intro hall
  have hbox := hall (idCall (.typeVar "E")) ([.typeVar "T"], .typeVar "T") (by decide) (by decide)
  exact absurd hbox.2 (by decide)

end SelectedCall

/-! ## The method of a receiver -/

/-- A call of a method by its name, with the selection among the overloads. -/
structure MethodLookup where
  view : IndexView
  receiverInternal : String
  methodName : String
  args : CallArgs
  ctx : EvalContext
  selectOverloadMatch : String → List MethodSummary → CallArgs → EvalContext → Option MethodSummary

namespace MethodLookup

variable (lookup : MethodLookup)

def baseReceiver : String :=
  (splitInternalName lookup.receiverInternal).1

def candidates : List MethodSummary :=
  lookup.view.lookupMethodsInHierarchy lookup.baseReceiver lookup.methodName

/-- The type of `getClass()`, by the receiver. -/
def getClassReturn : TypeName :=
  let receiver := splitInternalName lookup.receiverInternal
  let receiverType :=
    if receiver.2.isEmpty then TypeName.new receiver.1
    else .withArgs receiver.1 (receiver.2.map JvmType.toTypeName)
  .withArgs "java/lang/Class" [⟨"+", .wildcardExtends, [receiverType], 0⟩]

def selectedCall (method : MethodSummary) (owner : ClassMetadata) : SelectedCall :=
  ⟨lookup.view, lookup.receiverInternal, method, owner.internalName, owner.genericSignature,
    lookup.args, lookup.ctx⟩

/-- `resolve_method_return_with_callsite_and_qualifier_resolver`. -/
def resolveMethodReturn : Option TypeName :=
  if lookup.methodName = "getClass" ∧ lookup.args.count = 0 then some lookup.getClassReturn
  else if lookup.candidates.isEmpty then none
  else
    (lookup.selectOverloadMatch lookup.receiverInternal lookup.candidates lookup.args
        lookup.ctx).bind fun method =>
      (lookup.view.findDeclaringMethodOwner lookup.baseReceiver method.name method.desc).bind
        fun owner => (lookup.selectedCall method owner).resolveSelectedMethodReturn

/-- A method that the lookup finds, with its declaring class. -/
structure Finds (method : MethodSummary) (owner : ClassMetadata) : Prop where
  not_getClass : ¬ (lookup.methodName = "getClass" ∧ lookup.args.count = 0)
  candidates : lookup.candidates ≠ []
  selected : lookup.selectOverloadMatch lookup.receiverInternal lookup.candidates lookup.args
    lookup.ctx = some method
  declared : lookup.view.findDeclaringMethodOwner lookup.baseReceiver method.name method.desc =
    some owner

variable {lookup}

theorem resolveMethodReturn_eq {method : MethodSummary} {owner : ClassMetadata}
    (h : lookup.Finds method owner) : lookup.resolveMethodReturn =
      (lookup.selectedCall method owner).resolveSelectedMethodReturn := by
  rw [resolveMethodReturn, if_neg h.not_getClass, if_neg (by simpa using h.candidates), h.selected,
    Option.bind_some, h.declared, Option.bind_some]

end MethodLookup

end JavaAnalyzer.Semantic
