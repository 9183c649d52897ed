import JavaAnalyzer.Semantic.Substitution
import JavaAnalyzer.Semantic.TypeName

/-! # Reading generic signatures

The readers and substitutions of `semantic/types/generics.rs`: a receiver type with its arguments, the
type parameters a signature declares, the parameters and the return type of a method signature, and
`substituteType`, which puts a receiver's arguments into a member's type. The loops over the text take
as much fuel as there are characters, and every turn takes one off. A receiver that ends right behind
`<` has no arguments here, the source stops with an index error on it. -/

namespace JavaAnalyzer.Semantic
set_option autoImplicit false
open Text

namespace JvmType

/-! ## A run of types -/

/-- As many types as can be read one after another, and the text where the reading stops. -/
def parseManyFuel : ℕ → List Char → List JvmType × List Char
  | 0, s => ([], s)
  | fuel + 1, s =>
    match parse s with
    | none => ([], s)
    | some (t, rest) =>
      let more := parseManyFuel fuel rest
      (t :: more.1, more.2)

def parseMany (s : List Char) : List JvmType × List Char := parseManyFuel s.length s

theorem parseManyFuel_succ {fuel : ℕ} {s : List Char} (h : s.length ≤ fuel) :
    parseManyFuel (fuel + 1) s = parseManyFuel fuel s := by
  induction fuel generalizing s with
  | zero =>
    obtain rfl : s = [] := List.length_eq_zero_iff.mp (by omega)
    rfl
  | succ fuel ih =>
    rw [parseManyFuel, parseManyFuel]
    cases hs : parse s with
    | none => rfl
    | some p =>
      have hlen := parse_length hs
      simp only [ih (show p.2.length ≤ fuel by omega)]

theorem parseMany_of_parse {s : List Char} {p : JvmType × List Char} (h : parse s = some p) :
    parseMany s = (p.1 :: (parseMany p.2).1, (parseMany p.2).2) := by
  have hlen := parse_length h
  have hstable : ∀ fuel, p.2.length ≤ fuel → parseManyFuel fuel p.2 = parseMany p.2 := by
    intro fuel hfuel
    induction fuel, hfuel using Nat.le_induction with
    | base => rfl
    | succ fuel hle ih => rw [parseManyFuel_succ hle, ih]
  obtain ⟨n, hn⟩ : ∃ n, s.length = n + 1 := ⟨s.length - 1, by omega⟩
  rw [parseMany, hn, parseManyFuel, h]
  simp only [hstable n (by omega)]

theorem parseMany_signatures {ts : List JvmType} (h : wellFormedArgs ts = true) :
    parseMany (signatures ts) = (ts, []) := by
  induction ts with
  | nil => rfl
  | cons t ts ih =>
    simp only [wellFormedArgs, Bool.and_eq_true] at h
    rw [signatures, parseMany_of_parse (parse_signature h.1 _), ih h.2]

/-! ## Substitution -/

/-- The argument at the position of the first parameter of this name. -/
def argOf (typeParams : List String) (typeArgs : List JvmType) (name : String) : JvmType :=
  ((typeParams.idxOf? name).bind fun pos => typeArgs[pos]?).getD (.typeVar name)

def substitute (typeParams : List String) (typeArgs : List JvmType) (t : JvmType) : JvmType :=
  t.instWith boxPrimitive (argOf typeParams typeArgs)

theorem boxed_substitute (typeParams : List String) (typeArgs : List JvmType) (t : JvmType) :
    (t.substitute typeParams typeArgs).boxed = (t.inst (argOf typeParams typeArgs)).boxed :=
  boxed_instWith _ t

theorem argOf_nil_params (typeArgs : List JvmType) : argOf [] typeArgs = .typeVar := by
  funext name
  simp [argOf]

theorem argOf_nil_args (typeParams : List String) : argOf typeParams [] = .typeVar := by
  funext name
  cases h : typeParams.idxOf? name <;> simp [argOf, h]

end JvmType

/-! ## Type variable bindings -/

abbrev Bindings := AList fun _ : String => JvmType

/-- What a variable is bound to, itself when it is not bound. -/
def Bindings.image (bindings : Bindings) (name : String) : JvmType :=
  (bindings.lookup name).getD (.typeVar name)

def substituteTypeVars (ty : JvmType) (bindings : Bindings) : JvmType :=
  ty.instWith id bindings.image

theorem substituteTypeVars_eq_inst (ty : JvmType) (bindings : Bindings) :
    substituteTypeVars ty bindings = ty.inst bindings.image := rfl

/-! ## Receivers -/

def splitInternalName (internal : String) : String × List JvmType :=
  match splitOnce '<' internal.toList with
  | none => (internal, [])
  | some (base, rest) => (String.ofList base, (JvmType.parseMany rest.dropLast).1)

/-! ## Type parameters -/

/-- What stands before the bracket that closes `depth` open ones, and what follows it. -/
def closeAngle : ℕ → List Char → Option (List Char × List Char)
  | _, [] => none
  | depth, c :: s =>
    if c = '<' then (closeAngle (depth + 1) s).map fun p => (c :: p.1, p.2)
    else if c = '>' then
      if depth = 1 then some ([], s)
      else (closeAngle (depth - 1) s).map fun p => (c :: p.1, p.2)
    else (closeAngle depth s).map fun p => (c :: p.1, p.2)

/-- The declared type parameters of a signature, and the signature behind them. -/
def typeParameterPrefix : List Char → Option (List Char × List Char)
  | '<' :: s => closeAngle 1 s
  | _ => none

/-- Drops a bound, up to the semicolon outside of all brackets. -/
def skipBound : ℤ → List Char → List Char
  | _, [] => []
  | depth, c :: s =>
    if c = '<' then skipBound (depth + 1) s
    else if c = '>' then skipBound (depth - 1) s
    else if c = ';' ∧ depth = 0 then s
    else skipBound depth s

def skipBounds : ℕ → List Char → List Char
  | fuel + 1, ':' :: s => skipBounds fuel (skipBound 0 s)
  | _, s => s

/-- The loop of `parse_class_type_parameters`. -/
def typeParameterNames : ℕ → List Char → List String
  | 0, _ => []
  | fuel + 1, s =>
    match splitOnce ':' s with
    | none => []
    | some (paramName, rest) =>
      let bound := skipBound 0 rest
      let others := typeParameterNames fuel (skipBounds bound.length bound)
      if trim paramName = [] then others else String.ofList (trim paramName) :: others

theorem skipBound_length (depth : ℤ) (s : List Char) : (skipBound depth s).length ≤ s.length := by
  induction s generalizing depth with
  | nil => exact le_rfl
  | cons c s ih =>
    rw [skipBound, List.length_cons]
    split_ifs
    · exact (ih _).trans (Nat.le_succ _)
    · exact (ih _).trans (Nat.le_succ _)
    · exact Nat.le_succ _
    · exact (ih _).trans (Nat.le_succ _)

theorem skipBounds_length (fuel : ℕ) (s : List Char) :
    (skipBounds fuel s).length ≤ s.length := by
  induction fuel generalizing s with
  | zero => simp [skipBounds]
  | succ fuel ih =>
    unfold skipBounds
    split
    · rename_i n rest hn
      obtain rfl := Nat.succ.inj hn
      have hskip := skipBound_length 0 rest
      have hrest := ih (skipBound 0 rest)
      rw [List.length_cons]
      omega
    · exact le_rfl

theorem typeParameterNames_succ {fuel : ℕ} {s : List Char} (h : s.length ≤ fuel) :
    typeParameterNames (fuel + 1) s = typeParameterNames fuel s := by
  induction fuel generalizing s with
  | zero =>
    obtain rfl : s = [] := List.length_eq_zero_iff.mp (by omega)
    rfl
  | succ fuel ih =>
    rw [typeParameterNames, typeParameterNames]
    cases hs : splitOnce ':' s with
    | none => rfl
    | some halves =>
      obtain ⟨paramName, rest⟩ := halves
      have hlen : rest.length < s.length := by
        rw [(splitOnce_eq hs).1, List.length_append, List.length_cons]
        omega
      have hbound := skipBound_length 0 rest
      have hothers := skipBounds_length (skipBound 0 rest).length (skipBound 0 rest)
      simp only [ih (show (skipBounds (skipBound 0 rest).length (skipBound 0 rest)).length ≤ fuel
        by omega)]

def parseClassTypeParameters (signature : String) : List String :=
  match typeParameterPrefix signature.toList with
  | none => []
  | some (params, _) => typeParameterNames params.length params

def parseMethodTypeParameters (signature : String) : List String :=
  parseClassTypeParameters signature

/-! ## Method signatures -/

/-- The types between the parentheses and the one behind them. -/
def parseMethodTypes : List Char → Option (List JvmType × JvmType)
  | '(' :: s =>
    (splitOnce ')' s).bind fun halves =>
      let params := JvmType.parseMany halves.1
      if params.2.isEmpty then (JvmType.parse halves.2).map fun ret => (params.1, ret.1) else none
  | _ => none

def parseMethodSignatureTypes (signature : String) : Option (List JvmType × JvmType) :=
  match signature.toList with
  | '<' :: _ => (typeParameterPrefix signature.toList).bind fun p => parseMethodTypes p.2
  | s => parseMethodTypes s

theorem parseMethodTypes_wellFormed {s : List Char} {types : List JvmType × JvmType}
    (h : parseMethodTypes s = some types) : types.2.wellFormed = true := by
  unfold parseMethodTypes at h
  split at h
  · obtain ⟨halves, -, h⟩ := Option.bind_eq_some_iff.mp h
    dsimp only at h
    split_ifs at h
    obtain ⟨ret, hret, rfl⟩ := Option.map_eq_some_iff.mp h
    exact JvmType.parse_wellFormed hret
  · cases h

theorem parseMethodSignatureTypes_wellFormed {signature : String}
    {types : List JvmType × JvmType} (h : parseMethodSignatureTypes signature = some types) :
    types.2.wellFormed = true := by
  unfold parseMethodSignatureTypes at h
  split at h
  · obtain ⟨p, -, h⟩ := Option.bind_eq_some_iff.mp h
    exact parseMethodTypes_wellFormed h
  · exact parseMethodTypes_wellFormed h

/-- `substitute_type`: the receiver's arguments put into a type, none when there is nothing to put
in. -/
def substituteType (receiverInternal : String) (classGenericSignature : Option String)
    (targetJvmType : List Char) : Option TypeName :=
  let receiverTypeArgs := (splitInternalName receiverInternal).2
  let classTypeParams := (classGenericSignature.map parseClassTypeParameters).getD []
  if receiverTypeArgs.isEmpty then none
  else if classTypeParams.isEmpty then none
  else (JvmType.parse targetJvmType).map fun p =>
    (p.1.substitute classTypeParams receiverTypeArgs).toTypeName

example : (substituteType "java/util/List<Ljava/lang/String;>"
    (some "<E:Ljava/lang/Object;>Ljava/lang/Object;") "TE;".toList).map TypeName.baseInternal =
      some "java/lang/String" := by decide

end JavaAnalyzer.Semantic
