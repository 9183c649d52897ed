import JavaAnalyzer.Language.GenericTypeTexts

/-! # Formal parameters

The parameter lists of methods as they are written, and the descriptor of the erasures of their types. -/

namespace JavaAnalyzer.Language
set_option autoImplicit false
open Text TextLines

/-! ## Tokens -/

/-- White space between two tokens. -/
abbrev Gap := {b : List Char // ∀ c ∈ b, isJavaBlank c}

/-- The words that are no identifiers. -/
def reservedWords : List String :=
  ["abstract", "assert", "boolean", "break", "byte", "case", "catch", "char", "class", "const", "continue",
    "default", "do", "double", "else", "enum", "extends", "false", "final", "finally", "float", "for", "goto",
    "if", "implements", "import", "instanceof", "int", "interface", "long", "native", "new", "null", "package",
    "private", "protected", "public", "return", "short", "static", "strictfp", "super", "switch",
    "synchronized", "this", "throw", "throws", "transient", "true", "try", "void", "volatile", "while", "_"]

structure ParameterName where
  text : List Char
  ne_nil : text ≠ []
  chars : ∀ c ∈ text, isIdentifierChar c
  unreserved : String.ofList text ∉ reservedWords

inductive PrimitiveType where
  | boolean | byte | char | short | int | long | float | double
deriving DecidableEq, Repr

namespace PrimitiveType

def word : PrimitiveType → String
  | boolean => "boolean"
  | byte => "byte"
  | char => "char"
  | short => "short"
  | int => "int"
  | long => "long"
  | float => "float"
  | double => "double"

def letter : PrimitiveType → Char
  | boolean => 'Z'
  | byte => 'B'
  | char => 'C'
  | short => 'S'
  | int => 'I'
  | long => 'J'
  | float => 'F'
  | double => 'D'

end PrimitiveType

/-! ## Types -/

/-- A pair of brackets with the white space in front of each. -/
structure Dimension where
  lead : Gap
  inner : Gap

def Dimension.text (d : Dimension) : List Char :=
  d.lead.1 ++ '[' :: (d.inner.1 ++ [']'])

/-- A type that is no array, with no white space around it. -/
inductive ElementType where
  | primitive (p : PrimitiveType)
  | reference (ty : ClassTypeText) (solid : Solid ty.text)
      (unreserved : ∀ s ∈ ty.front ++ [ty.last], String.ofList s.name ∉ reservedWords)

def ElementType.text : ElementType → List Char
  | primitive p => p.word.toList
  | reference ty _ _ => ty.text

structure SourceType where
  element : ElementType
  dims : List Dimension

def SourceType.text (t : SourceType) : List Char :=
  t.element.text ++ t.dims.flatMap Dimension.text

inductive ReturnType where
  | void
  | type (t : SourceType)

def ReturnType.text : ReturnType → List Char
  | void => "void".toList
  | type t => t.text

/-! ## Parameters -/

/-- A modifier with the white space behind it. The arguments of an annotation may be any text. -/
inductive ParameterModifier where
  | final (gap : Gap)
  | annotationUse (lead : Gap) (name : ClassTypeText) (solid : Solid name.text)
      (plain : ∀ s ∈ name.front ++ [name.last], s.args = none) (args : Option (Gap × List Char)) (gap : Gap)

namespace ParameterModifier

/-- The arguments with their parentheses. -/
def argumentsText : Option (Gap × List Char) → List Char
  | none => []
  | some (gap, args) => gap.1 ++ '(' :: (args ++ [')'])

def text : ParameterModifier → List Char
  | final gap => "final".toList ++ gap.1
  | annotationUse lead name _ _ args gap => '@' :: (lead.1 ++ name.text ++ argumentsText args) ++ gap.1

end ParameterModifier

/-- A parameter of variable arity has white space in front of its dots, and no brackets behind its name. -/
structure FormalParameter where
  lead : Gap
  modifiers : List ParameterModifier
  type : SourceType
  dots : Option Gap
  gap : Gap
  name : ParameterName
  dims : List Dimension
  trail : Gap
  arity : dots.isSome → dims = []

namespace FormalParameter

variable (p : FormalParameter)

def dotsText : Option Gap → List Char
  | none => []
  | some gap => gap.1 ++ ['.', '.', '.']

/-- The parameter up to its type. -/
def typeText : List Char :=
  p.modifiers.flatMap ParameterModifier.text ++ (p.type.text ++ dotsText p.dots)

def text : List Char :=
  p.lead.1 ++ p.typeText ++ p.gap.1 ++ p.name.text ++ p.dims.flatMap Dimension.text ++ p.trail.1

end FormalParameter

/-- Only the last parameter may be of variable arity. The gap is what an empty list is written with. -/
structure FormalParameters where
  params : List FormalParameter
  gap : Gap
  arity : ∀ p ∈ params.dropLast, p.dots = none

namespace FormalParameters

variable (ps : FormalParameters)

/-- What stands between the parentheses. -/
def inner : List Char :=
  match ps.params with
  | [] => ps.gap.1
  | params => [','].intercalate (params.map FormalParameter.text)

def text : List Char :=
  '(' :: (ps.inner ++ [')'])

end FormalParameters

/-! ## Erasures -/

section Erasure

-- The internal name of the erasure of what a written name stands for, be it a class or a type variable.
variable (internal : String → String)

def ElementType.erasure : ElementType → List Char
  | primitive p => [p.letter]
  | reference ty _ _ => 'L' :: ((internal (String.ofList ty.qualifiedName)).toList ++ [';'])

/-- The descriptor of the erasure of an array type with further dimensions. -/
def SourceType.erasure (t : SourceType) (more : ℕ) : List Char :=
  List.replicate (t.dims.length + more) '[' ++ t.element.erasure internal

def ReturnType.erasure : ReturnType → List Char
  | void => ['V']
  | type t => t.erasure internal 0

/-- Variable arity is one dimension. -/
def FormalParameter.erasure (p : FormalParameter) : List Char :=
  p.type.erasure internal (p.dims.length + p.dots.toList.length)

/-- The descriptor of a method with these parameters. -/
def FormalParameters.descriptor (ps : FormalParameters) (ret : ReturnType) : List Char :=
  '(' :: (ps.params.flatMap (FormalParameter.erasure internal) ++ ')' :: ret.erasure internal)

/-- The descriptor of the source is that of the erasures, and made of one component for each parameter. -/
def SourceTypeCtx.DescribesErasure (ctx : SourceTypeCtx) (ps : FormalParameters) (ret : ReturnType) : Prop :=
  ctx.buildJavaDescriptor ps.text ret.text = ps.descriptor internal ret ∧
    (SourceTypeCtx.paramTypeTexts ps.text).map ctx.toDescriptor = ps.params.map (FormalParameter.erasure internal)

/-! ## Where the cuts fall between the tokens -/

/-- One space ends the modifier: the one behind `final`, or the first one from the `@` on. -/
def ParameterModifier.EndsAtSpace : ParameterModifier → Prop
  | final gap => gap.1.head? = some ' '
  | annotationUse lead name _ _ args gap =>
    ' ' ∉ lead.1 ++ name.text ++ argumentsText args ∧ ' ' ∈ gap.1

/-- The name of the class is read from the text, and its lookup finds the class. -/
def ElementType.Readable (ctx : SourceTypeCtx) : ElementType → Prop
  | primitive _ => True
  | reference ty _ _ => ty.PlainlyNamed ∧
      ctx.resolveSimple (String.ofList ty.qualifiedName) = internal (String.ofList ty.qualifiedName)

/-- There is nothing between two brackets. -/
structure SourceType.Readable (ctx : SourceTypeCtx) (t : SourceType) : Prop where
  element : t.element.Readable internal ctx
  dims : ∀ d ∈ t.dims, d.inner.1 = []

def ReturnType.Readable (ctx : SourceTypeCtx) : ReturnType → Prop
  | void => True
  | type t => t.Readable internal ctx

/-- A space or a tab ends the type, and nothing of it stands behind the name. -/
structure FormalParameter.Readable (ctx : SourceTypeCtx) (p : FormalParameter) : Prop where
  modifiers : ∀ m ∈ p.modifiers, m.EndsAtSpace
  type : p.type.Readable internal ctx
  gap : ' ' ∈ p.gap.1 ∨ '\t' ∈ p.gap.1
  dims : p.dims = []

/-- The commas between the parameters are those outside of angle brackets, as these are counted in all of
the text. -/
structure FormalParameters.Readable (ctx : SourceTypeCtx) (ps : FormalParameters) : Prop where
  params : ∀ p ∈ ps.params, p.Readable internal ctx
  commas : ∀ p ∈ ps.params, Uncut ',' 0 p.text
  levels : ∀ p ∈ ps.params.dropLast, angles p.text = 0

end Erasure

end JavaAnalyzer.Language
