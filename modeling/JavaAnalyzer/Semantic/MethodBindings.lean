import JavaAnalyzer.Index.Hierarchy
import JavaAnalyzer.Library.FiniteMap
import JavaAnalyzer.Semantic.Generics

/-! # Inferred bindings of type variables

How `semantic/types.rs` binds the type variables of a selected method from the arguments of a call:
first the arguments that are no lambdas and no method references are matched against the parameters,
then a variable of the return type is taken from a parameter that is that variable, or from what a
functional argument returns. The expression resolver that reads functional arguments is a field of
`EvalContext`. Every binding is a well-formed type, `inferMethodTypeBindingsShallow_wellFormed`. -/

namespace JavaAnalyzer.Semantic
set_option autoImplicit false
open Text Index

structure CallArgs where
  count : ℕ
  types : List TypeName
  texts : List String

/-- The place of a call, by the one function the inference uses of it: the return type of a functional
argument, from its text and the type of its parameter. -/
structure EvalContext where
  inferFunctionalArgReturnShallow : String → JvmType → Option {t : JvmType // t.wellFormed = true}

inductive OverloadInvocationMode where
  | fixed
  | varargs
deriving DecidableEq, Repr

/-! ## Binding one variable -/

/-- The bindings so far and the variables with two different candidates. -/
structure BindingState where
  bindings : Bindings
  conflicted : List String

namespace BindingState

def start (bindings : Bindings) : BindingState := ⟨bindings, []⟩

def bindTypeVar (s : BindingState) (name : String) (candidate : JvmType) : BindingState :=
  if name ∈ s.conflicted then s
  else
    match s.bindings.lookup name with
    | some existing =>
      if existing ≠ candidate then { s with conflicted := name :: s.conflicted } else s
    | none => { s with bindings := s.bindings.insert name candidate }

/-- The bindings without those in conflict. -/
def settled (s : BindingState) : Bindings :=
  FiniteMap.eraseKeys s.bindings s.conflicted

mutual

def bindMethodTypeVars (methodTypeParams : List String) :
    JvmType → JvmType → BindingState → BindingState
  | .typeVar name, actual, s =>
    if name ∈ methodTypeParams then s.bindTypeVar name actual else s
  | .array formalInner, .array actualInner, s =>
    bindMethodTypeVars methodTypeParams formalInner actualInner s
  | .wildcardBound _ formalInner, actual, s =>
    bindMethodTypeVars methodTypeParams formalInner actual s
  | .object _ formalArgs, .object _ actualArgs, s =>
    bindArgTypeVars methodTypeParams formalArgs actualArgs s
  | _, _, s => s
termination_by structural formal => formal

def bindArgTypeVars (methodTypeParams : List String) :
    List JvmType → List JvmType → BindingState → BindingState
  | formalArg :: formalArgs, actualArg :: actualArgs, s =>
    bindArgTypeVars methodTypeParams formalArgs actualArgs
      (bindMethodTypeVars methodTypeParams formalArg actualArg s)
  | _, _, s => s
termination_by structural formalArgs => formalArgs

end

end BindingState

def collectTypeVars (ty : JvmType) : List String :=
  (ty.occurrences false).map Prod.fst

/-! ## Arguments and parameters -/

def accVarargs : UInt16 := 0x80

def isVarargsMethod (method : MethodSummary) : Bool :=
  method.accessFlags &&& accVarargs ≠ 0 &&
    method.params.getLast?.any fun p => p.descriptor.toList.head? = some '['

/-- `map_argument_index_to_parameter`: the parameter of an argument, and whether the argument is one
of its elements. -/
def mapArgumentIndexToParameter (selected : MethodSummary) (argIndex : ℕ)
    (mode : OverloadInvocationMode) (paramLen : ℕ) : Option (ℕ × Bool) :=
  if paramLen = 0 then none
  else
    match mode with
    | .fixed => if argIndex ≥ paramLen then none else some (argIndex, false)
    | .varargs =>
      if !isVarargsMethod selected then none
      else if argIndex < paramLen - 1 then some (argIndex, false)
      else some (paramLen - 1, true)

/-- The formal type an argument is matched against. -/
def formalOf (paramJvmTypes : List JvmType) : ℕ × Bool → Option JvmType
  | (mappedIndex, varargElement) =>
    match paramJvmTypes[mappedIndex]?, varargElement with
    | some formal, false => some formal
    | some (.array inner), true => some inner
    | _, _ => none

/-- A text with an arrow or a double colon is a lambda or a method reference. -/
def isFunctionalText (text : String) : Bool :=
  "->".toList <:+: trim text.toList || "::".toList <:+: trim text.toList

/-- The receiver's arguments put into a parameter type, when there are arguments and parameters. -/
def asReceiverParam (classTypeParams : List String) (receiverArgs : List JvmType) (t : JvmType) :
    JvmType :=
  if !classTypeParams.isEmpty && !receiverArgs.isEmpty then t.substitute classTypeParams receiverArgs
  else t

theorem substituteType_eq (receiverInternal : String) (classGenericSignature : Option String)
    {text rest : List Char} {t : JvmType} (h : JvmType.parse text = some (t, rest)) :
    substituteType receiverInternal classGenericSignature text =
      if ((classGenericSignature.map parseClassTypeParameters).getD []).isEmpty ||
          (splitInternalName receiverInternal).2.isEmpty then none
      else some (asReceiverParam ((classGenericSignature.map parseClassTypeParameters).getD [])
        (splitInternalName receiverInternal).2 t).toTypeName := by
  rw [substituteType, h]
  generalize (classGenericSignature.map parseClassTypeParameters).getD [] = classTypeParams
  generalize (splitInternalName receiverInternal).2 = receiverArgs
  by_cases hargs : receiverArgs = []
  · simp [hargs]
  · by_cases hparams : classTypeParams = []
    · simp [hparams]
    · simp [hargs, hparams, asReceiverParam]

theorem boxed_asReceiverParam (classTypeParams : List String) (receiverArgs : List JvmType)
    (t : JvmType) : (asReceiverParam classTypeParams receiverArgs t).boxed =
      (t.inst (JvmType.argOf classTypeParams receiverArgs)).boxed := by
  rw [asReceiverParam]
  split
  · exact JvmType.boxed_substitute ..
  · rename_i hempty
    have himage : JvmType.argOf classTypeParams receiverArgs = .typeVar := by
      by_cases hparams : classTypeParams = []
      · rw [hparams, JvmType.argOf_nil_params]
      · have hargs : receiverArgs = [] := by simpa [hparams] using hempty
        rw [hargs, JvmType.argOf_nil_args]
    rw [himage, JvmType.inst_self]

/-- The receiver's arguments are the right ones for a type exactly when they are wherever a variable
occurs. -/
theorem asReceiverParam_iff (classTypeParams : List String) (receiverArgs : List JvmType)
    (t : JvmType) (σ : String → JvmType) :
    (asReceiverParam classTypeParams receiverArgs t).boxed = (t.inst σ).boxed ↔
      ∀ o ∈ t.occurrences false,
        JvmType.boxedAt o.2 (JvmType.argOf classTypeParams receiverArgs o.1) =
          JvmType.boxedAt o.2 (σ o.1) := by
  rw [boxed_asReceiverParam]
  exact JvmType.boxedAt_inst_iff _ σ t false

section Inference

variable (view : IndexView)

def findDeclaringClassGenericSignature (receiverOwner : String) (selected : MethodSummary) :
    Option String :=
  (view.findDeclaringMethodOwner receiverOwner selected.name selected.desc).bind
    ClassMetadata.genericSignature

/-- One turn of the loop over the arguments. -/
def bindNonLambdaArg (methodTypeParams : List String) (paramJvmTypes : List JvmType)
    (classTypeParams : List String) (receiverArgs : List JvmType) (selected : MethodSummary)
    (skipArgIndex : ℕ) (mode : OverloadInvocationMode) (args : CallArgs) (s : BindingState)
    (argIdx : ℕ) : BindingState :=
  if argIdx = skipArgIndex then s
  else if isFunctionalText (args.texts[argIdx]?.getD "") then s
  else
    match args.types[argIdx]? with
    | none => s
    | some argTy =>
      if argTy.kind = .unknown then s
      else
        match (mapArgumentIndexToParameter selected argIdx mode paramJvmTypes.length).bind
          (formalOf paramJvmTypes), typeNameToJvmType argTy with
        | some formal, some actual =>
          s.bindMethodTypeVars methodTypeParams (asReceiverParam classTypeParams receiverArgs formal)
            actual
        | _, _ => s

def inferMethodTypeBindingsFromNonLambdaArgs (methodSignature : String)
    (paramJvmTypes : List JvmType) (receiverInternal : String) (selected : MethodSummary)
    (skipArgIndex : ℕ) (mode : OverloadInvocationMode) (args : CallArgs) : Bindings :=
  let methodTypeParams := parseMethodTypeParameters methodSignature
  if methodTypeParams.isEmpty then ∅
  else
    let receiver := splitInternalName receiverInternal
    let classTypeParams := ((findDeclaringClassGenericSignature view receiver.1 selected).map
      parseClassTypeParameters).getD []
    ((List.range args.count).foldl (bindNonLambdaArg methodTypeParams paramJvmTypes classTypeParams
      receiver.2 selected skipArgIndex mode args) (.start ∅)).settled

/-- The variable of the return type in a covariant slot. -/
def covariantReturnVar (returnTypeVars : List String) : JvmType → Option String
  | .wildcardBound '+' (.typeVar name) | .typeVar name =>
    if name ∈ returnTypeVars then some name else none
  | _ => none

def bindReturnTypeVarFromFunctionalParam (paramTy : JvmType) (argText : Option String)
    (argTy : Option TypeName) (ctx : EvalContext) (returnTypeVars : List String)
    (s : BindingState) : BindingState :=
  match paramTy with
  | .object _ typeArgs =>
    match typeArgs.findSome? (covariantReturnVar returnTypeVars) with
    | none => s
    | some retVar =>
      let inferred := ((argTy.filter fun ty => ty.kind ≠ .unknown).bind typeNameToJvmType).or
        (argText.bind fun text => (ctx.inferFunctionalArgReturnShallow text paramTy).map Subtype.val)
      match inferred with
      | none => s
      | some jvm => s.bindTypeVar retVar jvm
  | _ => s

/-- One turn of the loop over the parameters. -/
def bindParam (returnTypeVars classTypeParams : List String) (receiverTypeArgs : List JvmType)
    (args : CallArgs) (ctx : EvalContext) (s : BindingState) (param : JvmType × ℕ) : BindingState :=
  -- The source skips this substitution while there are no bindings, when it changes nothing.
  let paramTy := substituteTypeVars (asReceiverParam classTypeParams receiverTypeArgs param.1)
    s.bindings
  let functional := bindReturnTypeVarFromFunctionalParam paramTy args.texts[param.2]?
    args.types[param.2]? ctx returnTypeVars s
  match paramTy with
  | .typeVar name =>
    if name ∈ returnTypeVars then
      match args.types[param.2]?.bind typeNameToJvmType with
      | none => s
      | some jvm => s.bindTypeVar name jvm
    else functional
  | _ => functional

/-- `usize::MAX`, which no argument has as its index. -/
def usizeMax : ℕ := 2 ^ 64 - 1

def inferMethodTypeBindingsShallow (selected : MethodSummary) (methodSignature : String)
    (paramJvmTypes : List JvmType) (retJvmType : JvmType) (receiverInternal : String)
    (classGenericSignature : Option String) (args : CallArgs) (ctx : EvalContext) : Bindings :=
  if (parseMethodTypeParameters methodSignature).isEmpty then ∅
  else
    let returnTypeVars := collectTypeVars retJvmType
    if returnTypeVars.isEmpty then ∅
    else
      let classTypeParams := (classGenericSignature.map parseClassTypeParameters).getD []
      let receiverTypeArgs := (splitInternalName receiverInternal).2
      let bindings := inferMethodTypeBindingsFromNonLambdaArgs view methodSignature paramJvmTypes
        receiverInternal selected usizeMax .fixed args
      (paramJvmTypes.zipIdx.foldl (bindParam returnTypeVars classTypeParams receiverTypeArgs args ctx)
        (.start bindings)).settled

end Inference

/-! ## Bindings are well-formed -/

def Bindings.WellFormed (bindings : Bindings) : Prop :=
  ∀ name t, bindings.lookup name = some t → t.wellFormed = true

theorem Bindings.WellFormed.empty : Bindings.WellFormed ∅ := by
  intro name t h
  simp at h

theorem Bindings.WellFormed.insert {bindings : Bindings} (h : bindings.WellFormed) {name : String}
    {t : JvmType} (ht : t.wellFormed = true) :
    Bindings.WellFormed (AList.insert name t bindings) := by
  intro x u hu
  by_cases hx : x = name
  · subst hx
    rw [AList.lookup_insert] at hu
    exact Option.some.inj hu ▸ ht
  · rw [AList.lookup_insert_ne hx] at hu
    exact h x u hu

theorem Bindings.WellFormed.image {bindings : Bindings} (h : bindings.WellFormed) {x : String}
    (hx : (JvmType.typeVar x).wellFormed = true) : (bindings.image x).wellFormed = true := by
  rw [Bindings.image]
  cases hb : bindings.lookup x with
  | none => exact hx
  | some t => exact h x t hb

namespace BindingState

theorem settled_wellFormed {s : BindingState} (h : s.bindings.WellFormed) :
    s.settled.WellFormed := by
  intro name t ht
  rw [settled, FiniteMap.lookup_eraseKeys] at ht
  split_ifs at ht
  exact h name t ht

theorem bindTypeVar_wellFormed {s : BindingState} (h : s.bindings.WellFormed) {candidate : JvmType}
    (hc : candidate.wellFormed = true) (name : String) :
    (s.bindTypeVar name candidate).bindings.WellFormed := by
  unfold bindTypeVar
  split
  · exact h
  · split
    · split
      · exact h
      · exact h
    · exact h.insert hc

mutual

theorem bindMethodTypeVars_wellFormed (methodTypeParams : List String) :
    ∀ (formal actual : JvmType) (s : BindingState), actual.wellFormed = true →
      s.bindings.WellFormed →
        (bindMethodTypeVars methodTypeParams formal actual s).bindings.WellFormed
  | .typeVar name, actual, s, ha, hs => by
      rw [bindMethodTypeVars]
      split
      · exact bindTypeVar_wellFormed hs ha name
      · exact hs
  | .array formalInner, actual, s, ha, hs => by
      cases actual with
      | array actualInner => exact bindMethodTypeVars_wellFormed _ formalInner actualInner s ha hs
      | _ => exact hs
  | .wildcardBound _ formalInner, actual, s, ha, hs => by
      rw [bindMethodTypeVars]
      exact bindMethodTypeVars_wellFormed _ formalInner actual s ha hs
  | .object _ formalArgs, actual, s, ha, hs => by
      cases actual with
      | object name actualArgs =>
        simp only [JvmType.wellFormed, Bool.and_eq_true] at ha
        exact bindArgTypeVars_wellFormed _ formalArgs actualArgs s ha.2 hs
      | _ => exact hs
  | .primitive _, _, s, _, hs => by
      rw [bindMethodTypeVars]
      · exact hs
      all_goals simp
  | .wildcard, _, s, _, hs => by
      rw [bindMethodTypeVars]
      · exact hs
      all_goals simp

theorem bindArgTypeVars_wellFormed (methodTypeParams : List String) :
    ∀ (formalArgs actualArgs : List JvmType) (s : BindingState),
      JvmType.wellFormedArgs actualArgs = true → s.bindings.WellFormed →
        (bindArgTypeVars methodTypeParams formalArgs actualArgs s).bindings.WellFormed
  | [], _, s, _, hs => by
      rw [bindArgTypeVars]
      · exact hs
      all_goals simp
  | _ :: _, [], s, _, hs => by
      rw [bindArgTypeVars]
      · exact hs
      all_goals simp
  | formalArg :: formalArgs, actualArg :: actualArgs, s, ha, hs => by
      simp only [JvmType.wellFormedArgs, Bool.and_eq_true] at ha
      rw [bindArgTypeVars]
      exact bindArgTypeVars_wellFormed _ formalArgs actualArgs _ ha.2
        (bindMethodTypeVars_wellFormed _ formalArg actualArg s ha.1 hs)

end

end BindingState

theorem bindNonLambdaArg_wellFormed (methodTypeParams : List String) (paramJvmTypes : List JvmType)
    (classTypeParams : List String) (receiverArgs : List JvmType) (selected : MethodSummary)
    (skipArgIndex : ℕ) (mode : OverloadInvocationMode) (args : CallArgs) {s : BindingState}
    (hs : s.bindings.WellFormed) (argIdx : ℕ) :
    (bindNonLambdaArg methodTypeParams paramJvmTypes classTypeParams receiverArgs selected
      skipArgIndex mode args s argIdx).bindings.WellFormed := by
  unfold bindNonLambdaArg
  split
  · exact hs
  · split
    · exact hs
    · split
      · exact hs
      · split
        · exact hs
        · split
          · rename_i hactual
            exact BindingState.bindMethodTypeVars_wellFormed _ _ _ _
              (typeNameToJvmType_wellFormed hactual) hs
          · exact hs

theorem bindReturnTypeVarFromFunctionalParam_wellFormed (paramTy : JvmType)
    (argText : Option String) (argTy : Option TypeName) (ctx : EvalContext)
    (returnTypeVars : List String) {s : BindingState} (hs : s.bindings.WellFormed) :
    (bindReturnTypeVarFromFunctionalParam paramTy argText argTy ctx returnTypeVars
      s).bindings.WellFormed := by
  unfold bindReturnTypeVarFromFunctionalParam
  split
  · split
    · exact hs
    · dsimp only
      split
      · exact hs
      · rename_i jvm hjvm
        apply BindingState.bindTypeVar_wellFormed hs
        rcases Option.or_eq_some_iff.mp hjvm with hty | ⟨-, htext⟩
        · obtain ⟨ty, -, hty⟩ := Option.bind_eq_some_iff.mp hty
          exact typeNameToJvmType_wellFormed hty
        · obtain ⟨text, -, htext⟩ := Option.bind_eq_some_iff.mp htext
          obtain ⟨t, -, rfl⟩ := Option.map_eq_some_iff.mp htext
          exact t.2
  · exact hs

theorem bindParam_wellFormed (returnTypeVars classTypeParams : List String)
    (receiverTypeArgs : List JvmType) (args : CallArgs) (ctx : EvalContext) {s : BindingState}
    (hs : s.bindings.WellFormed) (param : JvmType × ℕ) :
    (bindParam returnTypeVars classTypeParams receiverTypeArgs args ctx s
      param).bindings.WellFormed := by
  unfold bindParam
  have hfunctional (paramTy : JvmType) := bindReturnTypeVarFromFunctionalParam_wellFormed paramTy
    args.texts[param.2]? args.types[param.2]? ctx returnTypeVars hs
  dsimp only
  split
  · split
    · split
      · exact hs
      · rename_i jvm hjvm
        obtain ⟨ty, -, hty⟩ := Option.bind_eq_some_iff.mp hjvm
        exact BindingState.bindTypeVar_wellFormed hs (typeNameToJvmType_wellFormed hty) _
    · exact hfunctional _
  · exact hfunctional _

theorem inferMethodTypeBindingsFromNonLambdaArgs_wellFormed (view : IndexView)
    (methodSignature : String) (paramJvmTypes : List JvmType) (receiverInternal : String)
    (selected : MethodSummary) (skipArgIndex : ℕ) (mode : OverloadInvocationMode)
    (args : CallArgs) : (inferMethodTypeBindingsFromNonLambdaArgs view methodSignature paramJvmTypes
      receiverInternal selected skipArgIndex mode args).WellFormed := by
  unfold inferMethodTypeBindingsFromNonLambdaArgs
  dsimp only
  split
  · exact .empty
  · apply BindingState.settled_wellFormed
    exact List.foldlRecOn (motive := fun s : BindingState => s.bindings.WellFormed) _ _
      Bindings.WellFormed.empty fun s hs argIdx _ =>
        bindNonLambdaArg_wellFormed _ _ _ _ _ _ _ _ hs argIdx

theorem inferMethodTypeBindingsShallow_wellFormed (view : IndexView) (selected : MethodSummary)
    (methodSignature : String) (paramJvmTypes : List JvmType) (retJvmType : JvmType)
    (receiverInternal : String) (classGenericSignature : Option String) (args : CallArgs)
    (ctx : EvalContext) : (inferMethodTypeBindingsShallow view selected methodSignature
      paramJvmTypes retJvmType receiverInternal classGenericSignature args ctx).WellFormed := by
  unfold inferMethodTypeBindingsShallow
  dsimp only
  split
  · exact .empty
  · split
    · exact .empty
    · have hstart := inferMethodTypeBindingsFromNonLambdaArgs_wellFormed view methodSignature
        paramJvmTypes receiverInternal selected usizeMax .fixed args
      apply BindingState.settled_wellFormed
      exact List.foldlRecOn (motive := fun s : BindingState => s.bindings.WellFormed) _ _ hstart
        fun s hs param _ => bindParam_wellFormed _ _ _ _ _ hs param

end JavaAnalyzer.Semantic
