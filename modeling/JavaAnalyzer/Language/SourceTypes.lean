import JavaAnalyzer.Language.SourceTypeCtx
import JavaAnalyzer.Library.Text
import JavaAnalyzer.Library.TextLines

/-! # Source types

The type texts of a source file and the descriptors and signatures that `language/java/type_ctx.rs` and
`language/java/utils.rs` make of them. -/

namespace JavaAnalyzer.Language
set_option autoImplicit false
open JavaAnalyzer.Index Text TextLines

/-! ## Cutting type texts -/

/-- The loop of `strip_leading_java_type_modifiers`. Every round drops a character. -/
def stripModifiersFuel : ℕ → List Char → List Char
  | 0, s => s
  | fuel + 1, s =>
    if "final ".toList.isPrefixOf (trimStart s) then
      stripModifiersFuel fuel ((trimStart s).drop "final ".length)
    else if (trimStart s).head? = some '@' then
      match splitOnce ' ' (trimStart s) with
      | some (_, rest) => stripModifiersFuel fuel rest
      | none => trimStart s
    else trimStart s

/-- `strip_leading_java_type_modifiers` -/
def stripLeadingJavaTypeModifiers (s : List Char) : List Char :=
  trim (stripModifiersFuel s.length s)

/-- The place of the `>` that brings the depth to zero, counted from `i`. -/
def closingAngle : ℤ → ℕ → List Char → Option ℕ
  | _, _, [] => none
  | depth, i, c :: s =>
    if c = '<' then closingAngle (depth + 1) (i + 1) s
    else if c = '>' then
      if depth - 1 = 0 then some i else closingAngle (depth - 1) (i + 1) s
    else closingAngle depth (i + 1) s

/-- `split_java_generic_base`. The byte offset of the `<` is the number of characters that are skipped. -/
def splitJavaGenericBase (ty : List Char) : Option (List Char × Option (List Char)) :=
  match ty.idxOf? '<' with
  | none => some (trim ty, none)
  | some start =>
    let skipped := byteLength (ty.take start)
    (closingAngle 0 skipped (ty.drop skipped)).map fun i =>
      (trim (ty.take start), some (trim ((ty.take i).drop (start + 1))))

/-- The pieces of a text between the separators outside of angle brackets. -/
def splitTopLevel (sep : Char) : ℤ → List Char → List (List Char)
  | _, [] => [[]]
  | depth, c :: s =>
    if c = '<' then prepend c (splitTopLevel sep (depth + 1) s)
    else if c = '>' then prepend c (splitTopLevel sep (depth - 1) s)
    else if c = sep ∧ depth = 0 then [] :: splitTopLevel sep depth s
    else prepend c (splitTopLevel sep depth s)

/-- `split_java_generic_args` -/
def splitJavaGenericArgs (s : List Char) : List (List Char) :=
  ((splitTopLevel ',' 0 s).map trim).filter fun arg => !arg.isEmpty

/-- `split_top_level_java_intersection_bounds` -/
def splitTopLevelJavaIntersectionBounds (s : List Char) : List (List Char) :=
  ((splitTopLevel '&' 0 s).map trim).filter fun bound => !bound.isEmpty

/-- `split_params`. Nothing behind the last comma is no parameter. -/
def splitParams (s : List Char) : List (List Char) :=
  let pieces := splitTopLevel ',' 0 s
  if pieces.getLast? = some [] then pieces.dropLast else pieces

/-- What stands in front of the last blank outside of angle brackets, on the reversed text. -/
def beforeTopBlank : ℤ → List Char → Option (List Char)
  | _, [] => none
  | depth, c :: s =>
    if c = '>' then beforeTopBlank (depth + 1) s
    else if c = '<' then beforeTopBlank (depth - 1) s
    else if (c = ' ' ∨ c = '\t') ∧ depth = 0 then some s
    else beforeTopBlank depth s

/-- `extract_param_type`: the parameter without its name. -/
def extractParamType (param : List Char) : List Char :=
  match beforeTopBlank 0 param.reverse with
  | some front => trim front.reverse
  | none => param

def stripSuffix (suffix s : List Char) : Option (List Char) :=
  if suffix.isSuffixOf s then some (s.take (s.length - suffix.length)) else none

/-- The array brackets at the end of a text, and the text before them. -/
def stripDimensionsFuel : ℕ → List Char → ℕ × List Char
  | 0, s => (0, s)
  | fuel + 1, s =>
    match stripSuffix ['[', ']'] s with
    | some stripped => ((stripDimensionsFuel fuel (trim stripped)).1 + 1, (stripDimensionsFuel fuel (trim stripped)).2)
    | none => (0, s)

def stripDimensions (s : List Char) : ℕ × List Char :=
  stripDimensionsFuel s.length s

/-! ## Descriptors -/

/-- The letter of a primitive type. -/
def primitiveLetter (base : List Char) : Option Char :=
  match String.ofList base with
  | "void" => some 'V'
  | "boolean" => some 'Z'
  | "byte" => some 'B'
  | "char" => some 'C'
  | "short" => some 'S'
  | "int" => some 'I'
  | "long" => some 'J'
  | "float" => some 'F'
  | "double" => some 'D'
  | _ => none

namespace SourceTypeCtx

variable (ctx : SourceTypeCtx)

/-- `to_descriptor` -/
def toDescriptor (ty : List Char) : List Char :=
  let ty := stripLeadingJavaTypeModifiers (trim ty)
  let vararg := stripSuffix ['.', '.', '.'] ty
  let brackets := stripDimensions (trim (vararg.getD ty))
  let dims := brackets.1 + if vararg.isSome then 1 else 0
  let erased := (splitTopLevelJavaIntersectionBounds brackets.2).head?.getD brackets.2
  let base := trim (((splitJavaGenericBase erased).map Prod.fst).getD erased)
  List.replicate dims '[' ++
    match primitiveLetter base with
    | some letter => [letter]
    | none => 'L' :: ((ctx.resolveSimple (String.ofList base)).toList ++ [';'])

/-- The parameters between the parentheses of `params_text`. -/
def paramTypeTexts (paramsText : List Char) : List (List Char) :=
  let inner := (((trim paramsText).dropWhile (· = '(')).reverse.dropWhile (· = ')')).reverse
  if (trim inner).isEmpty then []
  else (splitParams inner).map fun param => extractParamType (trim param)

/-- `build_java_descriptor` -/
def buildJavaDescriptor (paramsText retType : List Char) : List Char :=
  '(' :: ((paramTypeTexts paramsText).flatMap ctx.toDescriptor ++
    ')' :: ctx.toDescriptor (trim retType))

/-! ## Signatures -/

/-- `!internal.contains('/') && internal.chars().all(|c| c.is_ascii_uppercase())` -/
def looksLikeTypeVar (internal : List Char) : Bool :=
  !internal.contains '/' && internal.all fun c => 'A' ≤ c && c ≤ 'Z'

/-- Every call of `source_type_to_signature` inside another is on a shorter text. -/
def sourceTypeToSignatureFuel : ℕ → List Char → List Char
  | 0, _ => []
  | fuel + 1, ty =>
    let s := stripLeadingJavaTypeModifiers (trim ty)
    if s = ['?'] then ['*']
    else if "? extends ".toList.isPrefixOf s then
      '+' :: sourceTypeToSignatureFuel fuel (s.drop "? extends ".length)
    else if "? super ".toList.isPrefixOf s then
      '-' :: sourceTypeToSignatureFuel fuel (s.drop "? super ".length)
    else
      let vararg := stripSuffix ['.', '.', '.'] s
      let brackets := stripDimensions ((vararg.map trim).getD s)
      let dims := brackets.1 + if vararg.isSome then 1 else 0
      match splitTopLevelJavaIntersectionBounds brackets.2 with
      | bound :: _ :: _ => sourceTypeToSignatureFuel fuel bound
      | _ =>
        let split := (splitJavaGenericBase brackets.2).getD (brackets.2, none)
        List.replicate dims '[' ++
          match primitiveLetter split.1 with
          | some letter => [letter]
          | none =>
            let internal := (BucketState.slashed (ctx.resolveSimple (String.ofList split.1))).toList
            if looksLikeTypeVar internal then 'T' :: (internal ++ [';'])
            else
              match split.2 with
              | some args => 'L' :: (internal ++ '<' ::
                  ((splitJavaGenericArgs args).flatMap (sourceTypeToSignatureFuel fuel) ++ ['>', ';']))
              | none => 'L' :: (internal ++ [';'])

/-- `source_type_to_signature` -/
def sourceTypeToSignature (ty : List Char) : List Char :=
  ctx.sourceTypeToSignatureFuel (ty.length + 1) ty

end SourceTypeCtx

end JavaAnalyzer.Language
