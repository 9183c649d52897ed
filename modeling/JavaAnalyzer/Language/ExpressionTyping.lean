import JavaAnalyzer.Library.JavaOperators
import JavaAnalyzer.Semantic.Conversion

/-! # Expression typing

`resolve_expression_type` of `language/java/expression_typing.rs`: the types of literals, casts, operators,
conditionals and assignments from the syntax tree, and of a `var` local from its initializer. What reads an
expression from its text, segment by segment, is a parameter (`Readers`). -/

namespace JavaAnalyzer.Language.ExpressionTyping
set_option autoImplicit false
open Semantic JavaOperators Text

/-! ## Trees -/

/-- An object creation whose text begins with `new `. On any other (`outer.new Inner()`) the source calls itself
with the same text, without end. -/
structure Creation where
  text : String
  begins : "new ".toList <+: text.toList

inductive Expr where
  | parenthesized (inner : Expr)
  | identifier (text : String)
  | integerLiteral (text : String)
  | floatingPointLiteral (text : String)
  | booleanLiteral
  | characterLiteral
  | nullLiteral
  | stringLiteral
  | cast (types : List String) (value : Expr)
  | assignment (left right : Expr)
  | ternary (condition consequence alternative : Expr)
  | unary (op : UnaryOperator) (operand : Expr)
  | binary (op : BinaryOperator) (left right : Expr)
  /-- A method invocation, a field access, a class literal or a lambda, which are read from their text. -/
  | chain (text : String)
  | creation (expr : Creation)
  /-- Every other kind: array accesses, `instanceof`, method references, `switch`. -/
  | other (text : String)

/-- A text and what the parser makes of it as an expression. -/
structure Source where
  text : String
  tree : Option Expr

inductive LocalVarDeclKind where
  | explicit
  | varSyntax
deriving DecidableEq

structure LocalVar where
  name : String
  typeInternal : TypeName
  declKind : LocalVarDeclKind
  initExpr : Option Source

/-- The readers of texts. Those with a list get the names of the `var` locals being resolved. -/
structure Readers where
  /-- `resolver.resolve` of a name -/
  name : String → Option TypeName
  chain : List String → String → Option TypeName
  creation : String → Option TypeName
  sourceType : List Char → Option TypeName
  /-- What `resolve_expression_type` does with a text whose tree has no type. -/
  text : List String → List Char → Option TypeName

/-! ## Names of types -/

def promotedNumericResultTypeName (left right : String) : Option String :=
  (unboxedPrimitiveTypeName left).bind fun left =>
    (unboxedPrimitiveTypeName right).bind fun right =>
      let numeric := ["byte", "short", "char", "int", "long", "float", "double"]
      if left ∉ numeric ∨ right ∉ numeric then none
      else if left = "double" ∨ right = "double" then some "double"
      else if left = "float" ∨ right = "float" then some "float"
      else if left = "long" ∨ right = "long" then some "long"
      else some "int"

def promotedIntegralResultTypeName (left right : String) : Option String :=
  (unboxedPrimitiveTypeName left).bind fun left =>
    (unboxedPrimitiveTypeName right).bind fun right =>
      let integral := ["byte", "short", "char", "int", "long"]
      if left ∉ integral ∨ right ∉ integral then none
      else if left = "long" ∨ right = "long" then some "long"
      else some "int"

def promotedShiftResultTypeName (left right : String) : Option String :=
  (unboxedPrimitiveTypeName left).bind fun left =>
    (unboxedPrimitiveTypeName right).bind fun right =>
      let integral := ["byte", "short", "char", "int", "long"]
      if left ∉ integral ∨ right ∉ integral then none
      else if left = "long" then some "long"
      else some "int"

def promotedUnaryIntegralResultTypeName (operand : String) : Option String :=
  (unboxedPrimitiveTypeName operand).bind fun operand =>
    if operand ∉ ["byte", "short", "char", "int", "long"] then none
    else if operand = "long" then some "long"
    else some "int"

def unaryNumericResultTypeName (operand : String) : Option String :=
  (unboxedPrimitiveTypeName operand).bind fun operand =>
    match operand with
    | "byte" | "short" | "char" | "int" => some "int"
    | "long" => some "long"
    | "float" => some "float"
    | "double" => some "double"
    | _ => none

/-! ## Literals -/

def resolveIntegerLiteralType (text : String) : Option TypeName :=
  let sanitized := (trim text.toList).filter (· ≠ '_')
  if sanitized = [] then none
  else if sanitized.getLast? ∈ [some 'l', some 'L'] ∧ sanitized.dropLast ≠ [] then some (TypeName.new "long")
  else some (TypeName.new "int")

def resolveFloatingPointLiteralType (text : String) : Option TypeName :=
  let sanitized := (trim text.toList).filter (· ≠ '_')
  if sanitized = [] then none
  else if sanitized.getLast? ∈ [some 'f', some 'F'] then some (TypeName.new "float")
  else some (TypeName.new "double")

/-! ## Operators -/

def isStringType (ty : TypeName) : Bool :=
  ty.erasedInternal == "java/lang/String"

section

variable (left right : TypeName)

def numericBinaryResultType : Option TypeName :=
  (promotedNumericResultTypeName left.erasedInternal right.erasedInternal).map TypeName.new

def integralBinaryResultType : Option TypeName :=
  (promotedIntegralResultTypeName left.erasedInternal right.erasedInternal).map TypeName.new

def shiftBinaryResultType : Option TypeName :=
  (promotedShiftResultTypeName left.erasedInternal right.erasedInternal).map TypeName.new

def equalityResultType : Option TypeName :=
  if left.erasedInternal = "null" ∨ right.erasedInternal = "null" then
    if !left.isPrimitive || !right.isPrimitive then some (TypeName.new "boolean") else none
  else if left.erasedInternal = "boolean" ∧ right.erasedInternal = "boolean" then some (TypeName.new "boolean")
  else if (numericBinaryResultType left right).isSome then some (TypeName.new "boolean")
  else if !left.isPrimitive && !right.isPrimitive then some (TypeName.new "boolean")
  else none

def logicalResultType : Option TypeName :=
  if left.erasedInternal = "boolean" ∧ right.erasedInternal = "boolean" then some (TypeName.new "boolean") else none

def bitwiseResultType : Option TypeName :=
  if left.erasedInternal = "boolean" ∧ right.erasedInternal = "boolean" then some (TypeName.new "boolean")
  else integralBinaryResultType left right

def binaryResultType (op : BinaryOperator) : Option TypeName :=
  match op with
  | .add =>
    if isStringType left || isStringType right then some (TypeName.new "java/lang/String")
    else numericBinaryResultType left right
  | .sub | .mul | .div | .rem => numericBinaryResultType left right
  | .less | .lessEqual | .greater | .greaterEqual =>
    (numericBinaryResultType left right).map fun _ => TypeName.new "boolean"
  | .equal | .notEqual => equalityResultType left right
  | .andAlso | .orElse => logicalResultType left right
  | .and | .or | .xor => bitwiseResultType left right
  | .shiftLeft | .shiftRight | .unsignedShiftRight => shiftBinaryResultType left right

def ternaryResultType : Option TypeName :=
  if left.erasedInternalWithArrays = right.erasedInternalWithArrays then some left
  else if left.erasedInternal = "null" ∧ !right.isPrimitive then some right
  else if right.erasedInternal = "null" ∧ !left.isPrimitive then some left
  else match numericBinaryResultType left right with
    | some promoted => some promoted
    | none => if !left.isPrimitive && !right.isPrimitive then some left else none

end

def unaryResultType (op : UnaryOperator) (operand : TypeName) : Option TypeName :=
  match op with
  | .plus | .minus => (unaryNumericResultTypeName operand.erasedInternal).map TypeName.new
  | .not => if operand.erasedInternal = "boolean" then some (TypeName.new "boolean") else none
  | .complement => (promotedUnaryIntegralResultTypeName operand.erasedInternal).map TypeName.new

/-! ## Expressions -/

def primitiveTypeTexts : List String :=
  ["byte", "short", "int", "long", "float", "double", "boolean", "char", "void"]

section

variable (readers : Readers)

def resolveSourceTypeName (typeName : String) : Option TypeName :=
  let ty := trim typeName.toList
  if ty = [] then none
  else if String.ofList ty ∈ primitiveTypeTexts then some (TypeName.new (String.ofList ty))
  else readers.sourceType ty

def resolveCastExpressionType (types : List String) : Option TypeName :=
  if types = [] then none
  else (types.mapM (resolveSourceTypeName readers)).map TypeName.intersection

/-- `resolve_ast_node_type`, in terms of the types of the identifiers. -/
def resolveAstNodeType (resolving : List String) (identifierType : String → Option TypeName) :
    Expr → Option TypeName
  | .parenthesized inner => resolveAstNodeType resolving identifierType inner
  | .identifier text => identifierType (String.ofList (trim text.toList))
  | .integerLiteral text => resolveIntegerLiteralType text
  | .floatingPointLiteral text => resolveFloatingPointLiteralType text
  | .booleanLiteral => some (TypeName.new "boolean")
  | .characterLiteral => some (TypeName.new "char")
  | .nullLiteral => some (TypeName.new "null")
  | .stringLiteral => some (TypeName.new "java/lang/String")
  | .cast types _ => resolveCastExpressionType readers types
  | .assignment left right =>
    (resolveAstNodeType resolving identifierType left).or (resolveAstNodeType resolving identifierType right)
  | .ternary _ consequence alternative =>
    (resolveAstNodeType resolving identifierType consequence).bind fun left =>
      (resolveAstNodeType resolving identifierType alternative).bind fun right => ternaryResultType left right
  | .unary op operand => (resolveAstNodeType resolving identifierType operand).bind (unaryResultType op)
  | .binary op left right =>
    (resolveAstNodeType resolving identifierType left).bind fun left =>
      (resolveAstNodeType resolving identifierType right).bind fun right => binaryResultType left right op
  | .chain text => readers.chain resolving text
  | .creation expr => readers.creation expr.text
  | .other _ => none

def resolveExpressionTypeWith (resolving : List String) (identifierType : String → Option TypeName)
    (source : Source) : Option TypeName :=
  let text := trim source.text.toList
  if text = [] then none
  else (source.tree.bind (resolveAstNodeType readers resolving identifierType)).or (readers.text resolving text)

/-- `resolve_var_init_expr_inner` -/
def resolveVarInitExpr (resolving : List String) (identifierType : String → Option TypeName)
    (source : Source) : Option TypeName :=
  let text := trim source.text.toList
  if "new ".toList <+: text then readers.creation (String.ofList text)
  else resolveExpressionTypeWith readers resolving identifierType source

/-! ## Locals -/

variable (locals : List LocalVar)

def isCurrentlyResolvingVarLocal (resolving : List String) (ident : String) : Bool :=
  ident ∈ resolving &&
    locals.any fun v => v.name == ident && v.declKind == LocalVarDeclKind.varSyntax && v.initExpr.isSome

/-- The names that a further initializer can be resolved for. -/
def unresolvedNames (resolving : List String) : List String :=
  (locals.map LocalVar.name).filter fun name => name ∉ resolving

variable {locals} in
theorem unresolvedNames_lt {resolving : List String} {ident : String} {v : LocalVar} {init : Source}
    (hv : locals.find? (fun v => v.name = ident) = some v) (hkind : ¬ v.declKind ≠ .varSyntax)
    (hinit : v.initExpr = some init) (hfree : ¬ isCurrentlyResolvingVarLocal locals resolving ident = true) :
    (unresolvedNames locals (ident :: resolving)).length < (unresolvedNames locals resolving).length := by
  have hmem := List.mem_of_find?_eq_some hv
  have hname : v.name = ident := by simpa using List.find?_some hv
  have hnot : ident ∉ resolving := by
    intro hin
    refine hfree ?_
    rw [isCurrentlyResolvingVarLocal, Bool.and_eq_true, List.any_eq_true]
    exact ⟨decide_eq_true hin, v, hmem, by simp [hname, not_not.mp hkind, hinit]⟩
  have hfilter : unresolvedNames locals (ident :: resolving) =
      (unresolvedNames locals resolving).filter fun name => name ≠ ident := by
    rw [unresolvedNames, unresolvedNames, List.filter_filter]
    exact List.filter_congr fun name _ => by simp [not_or]
  rw [hfilter, List.length_filter_lt_length_iff_exists]
  refine ⟨ident, List.mem_filter.mpr ⟨List.mem_map.mpr ⟨v, hmem, hname⟩, decide_eq_true hnot⟩, by simp⟩

/-- `resolve_local_identifier_type`, and what its callers ask when that has no type. -/
def resolveIdentifierType (resolving : List String) (ident : String) : Option TypeName :=
  let localType : Option TypeName :=
    match hv : locals.find? fun v : LocalVar => v.name = ident with
    | none => none
    | some v =>
      if hkind : v.declKind ≠ LocalVarDeclKind.varSyntax then some v.typeInternal
      else match hinit : v.initExpr with
        | none => none
        | some init =>
          if trim init.text.toList = ident.toList then some v.typeInternal
          else if hfree : isCurrentlyResolvingVarLocal locals resolving ident then none
          else
            (resolveVarInitExpr readers (ident :: resolving)
              (fun name => resolveIdentifierType (ident :: resolving) name) init).or (some v.typeInternal)
  localType.or (readers.name ident)
termination_by (unresolvedNames locals resolving).length
decreasing_by exact unresolvedNames_lt hv hkind hinit hfree

def resolveExpressionType (source : Source) : Option TypeName :=
  resolveExpressionTypeWith readers [] (resolveIdentifierType readers locals []) source

end

end JavaAnalyzer.Language.ExpressionTyping
