import JavaAnalyzer.Index.Metadata
import JavaAnalyzer.Semantic.ConsumedText
import JavaAnalyzer.Semantic.MethodBindings

/-! # Texts of members

The labels and details of members from `language/java/render.rs`, with the receiver's type arguments
put into the types they show. A type that nothing is substituted into is shown from its declared text. -/

namespace JavaAnalyzer.Language
set_option autoImplicit false
open Text Index Semantic

/-- `resolve_source_name`: the source name of a class in the index. -/
structure SymbolProvider where
  resolveSourceName : String → Option String

def slashesToDots (s : String) : String :=
  String.ofList (s.toList.map fun c => if c = '/' then '.' else c)

def dims (n : ℕ) : String := String.join (List.replicate n "[]")

section Render

variable (provider : SymbolProvider)

/-- The provider's name, or the internal name with dots. -/
def sourceName (internal : String) : String :=
  (provider.resolveSourceName internal).getD (slashesToDots internal)

/-! ## Type names in source style -/

/-- The name in front of the arguments, from the rendered arguments. -/
def baseInSourceStyle (base : String) (rendered : List String) : String :=
  if base ∈ ["byte", "char", "double", "float", "int", "long", "short", "boolean", "void"] then base
  else if base = "*" then "?"
  else if base = "+" then
    match rendered with
    | inner :: _ => "? extends " ++ inner
    | [] => "?"
  else if base = "-" then
    match rendered with
    | inner :: _ => "? super " ++ inner
    | [] => "?"
  else sourceName provider base

mutual

def typeNameToSourceStyle : TypeName → String
  | ⟨base, kind, args, arrayDims⟩ =>
    let rendered := typeNamesToSourceStyle args
    if kind = .intersection then " & ".intercalate rendered ++ dims arrayDims
    else
      let head := baseInSourceStyle provider base rendered
      let applied :=
        if rendered.isEmpty || base = "+" || base = "-" then head
        else head ++ "<" ++ ", ".intercalate rendered ++ ">"
      applied ++ dims arrayDims

def typeNamesToSourceStyle : List TypeName → List String
  | [] => []
  | t :: ts => typeNameToSourceStyle t :: typeNamesToSourceStyle ts

end

/-! ## Descriptors and signatures in source style -/

/-- The leading brackets of a descriptor, counted, and what is behind them. -/
def stripBrackets : List Char → ℕ × List Char
  | '[' :: s => ((stripBrackets s).1 + 1, (stripBrackets s).2)
  | s => (0, s)

def primitiveKeyword (s : List Char) : Option String :=
  match s with
  | ['B'] => some "byte"
  | ['C'] => some "char"
  | ['D'] => some "double"
  | ['F'] => some "float"
  | ['I'] => some "int"
  | ['J'] => some "long"
  | ['S'] => some "short"
  | ['Z'] => some "boolean"
  | ['V'] => some "void"
  | _ => none

/-- What stands between a leading `L` and a final semicolon. -/
def objectName (s : List Char) : Option String :=
  match s with
  | 'L' :: rest => if rest.getLast? = some ';' then some (String.ofList rest.dropLast) else none
  | _ => none

def descriptorToSourceType (desc : List Char) : Option String :=
  let stripped := stripBrackets desc
  ((primitiveKeyword stripped.2).or
    ((objectName stripped.2).bind provider.resolveSourceName)).map (· ++ dims stripped.1)

mutual

def jvmTypeToSourceType : JvmType → String
  | .primitive c => javaPrimitiveCharToName c
  | .typeVar name => name
  | .array inner => jvmTypeToSourceType inner ++ "[]"
  | .wildcard => "?"
  | .wildcardBound c inner =>
    if c = '+' then "? extends " ++ jvmTypeToSourceType inner
    else if c = '-' then "? super " ++ jvmTypeToSourceType inner
    else jvmTypeToSourceType inner
  | .object internal args =>
    let rendered := jvmTypesToSourceType args
    if rendered.isEmpty then sourceName provider internal
    else sourceName provider internal ++ "<" ++ ", ".intercalate rendered ++ ">"

def jvmTypesToSourceType : List JvmType → List String
  | [] => []
  | t :: ts => jvmTypeToSourceType t :: jvmTypesToSourceType ts

end

def signatureToSourceType (sig : List Char) : Option String :=
  (JvmType.parse sig).bind fun p =>
    if p.2.isEmpty then some (jvmTypeToSourceType provider p.1) else none

def cleanFallbackJvmSig (jvmSig : List Char) : String :=
  let stripped := stripBrackets (trim jvmSig)
  let typeName := (primitiveKeyword stripped.2).getD
    ((objectName stripped.2).getD (String.ofList stripped.2))
  String.ofList (typeName.toList.map fun c => if c = '/' ∨ c = '$' then '.' else c) ++
    dims stripped.1

/-- The text of a type that nothing is substituted into. -/
def declaredText (jvmText : List Char) : String :=
  ((signatureToSourceType provider jvmText).or (descriptorToSourceType provider jvmText)).getD
    (cleanFallbackJvmSig jvmText)

/-! ## Members -/

def shortClassName (receiverInternal : String) : String :=
  let base := ((splitOnce '<' receiverInternal.toList).map Prod.fst).getD receiverInternal.toList
  String.ofList (afterLast '/' base)

def methodSignatureToUse (method : MethodSummary) : String :=
  method.genericSignature.getD method.desc

/-- `render_param_type_for_display`: the last parameter of a varargs method. -/
def renderParamTypeForDisplay (method : MethodSummary) (idx : ℕ) (rendered : String) : String :=
  if (method.accessFlags &&& Semantic.accVarargs ≠ 0) ∧ idx + 1 = method.params.length ∧
      "[]".toList <:+ rendered.toList then
    String.ofList (rendered.toList.take (rendered.toList.length - 2)) ++ "..."
  else rendered

/-- The text of a member's type: with the receiver's arguments, or as declared. -/
def renderSubstituted (receiverInternal : String) (classMeta : ClassMetadata)
    (jvmText : List Char) : String :=
  ((substituteType receiverInternal classMeta.genericSignature jvmText).map
    (typeNameToSourceStyle provider)).getD (declaredText provider jvmText)

/-- The parameter types of a signature, each with the text it is read from. -/
def paramTexts : ℕ → List Char → List (JvmType × List Char)
  | 0, _ => []
  | fuel + 1, s =>
    match JvmType.parse s with
    | none => []
    | some (t, rest) => (t, s.take (s.length - rest.length)) :: paramTexts fuel rest

def paramsText (sig : List Char) : List Char :=
  (((splitOnce '(' sig).bind fun p => splitOnce ')' p.2).map Prod.fst).getD []

def declaredParams (method : MethodSummary) : List (JvmType × List Char) :=
  let text := paramsText (methodSignatureToUse method).toList
  paramTexts text.length text

def returnText (method : MethodSummary) : List Char :=
  ((method.genericSignature.bind fun sig => splitOnce ')' sig.toList).map Prod.snd).getD
    (method.returnType.getD "V").toList

def renderSubstitutedParamTypes (receiverInternal : String) (classMeta : ClassMetadata)
    (method : MethodSummary) : List String :=
  (declaredParams method).mapIdx fun i param =>
    renderParamTypeForDisplay method i
      (renderSubstituted provider receiverInternal classMeta param.2)

def labelOf (method : MethodSummary) (paramTypes : List String) : String :=
  method.name ++ "(" ++ ", ".intercalate paramTypes ++ ")"

def methodLabel (receiverInternal : String) (classMeta : ClassMetadata) (method : MethodSummary) :
    String :=
  labelOf method (renderSubstitutedParamTypes provider receiverInternal classMeta method)

def detailOf (receiverInternal : String) (method : MethodSummary) (paramTypes : List String)
    (returnType : String) : String :=
  let fullParams := paramTypes.mapIdx fun i typeName =>
    typeName ++ " " ++ ((method.params[i]?.map MethodParam.name).getD ("arg" ++ toString i))
  shortClassName receiverInternal ++ " — " ++ returnType ++ " " ++ method.name ++ "(" ++
    ", ".intercalate fullParams ++ ")"

def methodDetail (receiverInternal : String) (classMeta : ClassMetadata) (method : MethodSummary) :
    String :=
  detailOf receiverInternal method
    (renderSubstitutedParamTypes provider receiverInternal classMeta method)
    (renderSubstituted provider receiverInternal classMeta (returnText method))

def fieldText (field : FieldSummary) : List Char :=
  (field.genericSignature.getD field.descriptor).toList

def fieldDetailOf (receiverInternal : String) (field : FieldSummary) (displayType : List Char) :
    String :=
  shortClassName receiverInternal ++ " — " ++ field.name ++ " : " ++
    (descriptorToSourceType provider displayType).getD (String.ofList displayType)

def fieldDetail (receiverInternal : String) (classMeta : ClassMetadata) (field : FieldSummary) :
    String :=
  fieldDetailOf provider receiverInternal field
    (((substituteType receiverInternal classMeta.genericSignature (fieldText field)).map
      TypeName.jvmSignature).getD (fieldText field))

end Render

end JavaAnalyzer.Language
