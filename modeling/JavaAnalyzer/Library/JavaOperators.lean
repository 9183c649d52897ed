import Mathlib.Data.Option.Basic
import Mathlib.Tactic.Common

/-! # The operators of Java

The types that Java gives to its unary, binary and conditional operators. Of the classes the rules ask only
which primitive a class boxes and which class is the string. -/

namespace JavaAnalyzer.JavaOperators
set_option autoImplicit false

inductive Primitive where
  | boolean
  | byte
  | short
  | char
  | int
  | long
  | float
  | double
deriving DecidableEq, Repr

namespace Primitive

def isNumeric (p : Primitive) : Bool :=
  p ≠ .boolean

def isIntegral (p : Primitive) : Bool :=
  p ∈ [.byte, .short, .char, .int, .long]

/-- Not narrower than `int`: what unary promotion leaves as it is. -/
def isPromoted (p : Primitive) : Bool :=
  p ∈ [.int, .long, .float, .double]

def promoted (p : Primitive) : Primitive :=
  if p.isPromoted then p else .int

/-- Binary numeric promotion. -/
def join (p q : Primitive) : Primitive :=
  if p = .double ∨ q = .double then .double
  else if p = .float ∨ q = .float then .float
  else if p = .long ∨ q = .long then .long
  else .int

end Primitive

/-- What an array is an array of. -/
inductive Element (C : Type) where
  | primitive (p : Primitive)
  | null
  | class (c : C)
deriving DecidableEq

structure JavaType (C : Type) where
  element : Element C
  dims : ℕ
deriving DecidableEq

class ClassRoles (C : Type) where
  boxed : C → Option Primitive
  string : C

inductive UnaryOperator where
  | plus
  | minus
  | not
  | complement
deriving DecidableEq, Repr

inductive BinaryOperator where
  | add
  | sub
  | mul
  | div
  | rem
  | less
  | lessEqual
  | greater
  | greaterEqual
  | equal
  | notEqual
  | andAlso
  | orElse
  | and
  | or
  | xor
  | shiftLeft
  | shiftRight
  | unsignedShiftRight
deriving DecidableEq, Repr

section

variable {C : Type}

namespace Element

def isPrimitive : Element C → Bool
  | .primitive _ => true
  | _ => false

/-- The primitive that an element is or boxes. -/
def unboxed [ClassRoles C] : Element C → Option Primitive
  | .primitive p => some p
  | .null => none
  | .class c => ClassRoles.boxed c

end Element

namespace JavaType

def primitive (p : Primitive) : JavaType C := ⟨.primitive p, 0⟩

def isPrimitive (t : JavaType C) : Bool :=
  t.dims = 0 && t.element.isPrimitive

variable [ClassRoles C]

/-- The type after unboxing conversion, when that is a primitive one. -/
def unboxed (t : JavaType C) : Option Primitive :=
  if t.dims = 0 then t.element.unboxed else none

def numeric (t : JavaType C) : Option Primitive :=
  t.unboxed.filter Primitive.isNumeric

def integral (t : JavaType C) : Option Primitive :=
  t.unboxed.filter Primitive.isIntegral

def isBoolean (t : JavaType C) : Bool :=
  t.unboxed = some .boolean

end JavaType

variable [ClassRoles C] [DecidableEq C]

def stringType : JavaType C := ⟨.class ClassRoles.string, 0⟩

def unaryType (op : UnaryOperator) (operand : JavaType C) : Option (JavaType C) :=
  match op with
  | .plus | .minus => operand.numeric.map fun p => .primitive p.promoted
  | .complement => operand.integral.map fun p => .primitive p.promoted
  | .not => if operand.isBoolean then some (.primitive .boolean) else none

def arithmeticType (left right : JavaType C) : Option (JavaType C) :=
  left.numeric.bind fun p => right.numeric.map fun q => .primitive (p.join q)

def bitwiseType (left right : JavaType C) : Option (JavaType C) :=
  if left.isBoolean && right.isBoolean then some (.primitive .boolean)
  else left.integral.bind fun p => right.integral.map fun q => .primitive (p.join q)

def shiftType (left right : JavaType C) : Option (JavaType C) :=
  left.integral.bind fun p => right.integral.map fun _ => .primitive p.promoted

/-- Numbers, booleans, or references of any two types: no cast between the classes is asked for. -/
def comparable (left right : JavaType C) : Bool :=
  if left.isPrimitive || right.isPrimitive then
    left.numeric.isSome && right.numeric.isSome || left.isBoolean && right.isBoolean
  else true

def binaryType (op : BinaryOperator) (left right : JavaType C) : Option (JavaType C) :=
  match op with
  | .add => if left = stringType ∨ right = stringType then some stringType else arithmeticType left right
  | .sub | .mul | .div | .rem => arithmeticType left right
  | .less | .lessEqual | .greater | .greaterEqual =>
    (arithmeticType left right).map fun _ => .primitive .boolean
  | .equal | .notEqual => if comparable left right then some (.primitive .boolean) else none
  | .andAlso | .orElse => if left.isBoolean && right.isBoolean then some (.primitive .boolean) else none
  | .and | .or | .xor => bitwiseType left right
  | .shiftLeft | .shiftRight | .unsignedShiftRight => shiftType left right

/-- The type of a conditional. The branches for which Java's rule asks for the value of a constant or for the
classes above both types have none here. -/
def conditionalType (left right : JavaType C) : Option (JavaType C) :=
  if left = right then some left
  else if left.element = .null && !right.isPrimitive then some right
  else if right.element = .null && !left.isPrimitive then some left
  else if left.isBoolean && right.isBoolean then some (.primitive .boolean)
  else (left.unboxed.filter Primitive.isPromoted).bind fun p =>
    (right.unboxed.filter Primitive.isPromoted).map fun q => .primitive (p.join q)

end

end JavaAnalyzer.JavaOperators
