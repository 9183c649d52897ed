import JavaAnalyzer.Semantic.JvmType

/-! # Type names

`TypeName` of `semantic/types/type_name.rs`, the form in which the resolver hands types out: an
internal base name, its kind, type arguments and array dimensions. `JvmType.toTypeName` leads from
signature types to it and `jvmSignature` back to signature text. -/

namespace JavaAnalyzer.Semantic
set_option autoImplicit false
open Text

inductive TypeNameKind where
  | internal
  | primitive
  | typeVar
  | sourceLike
  | intersection
  | wildcard
  | wildcardExtends
  | wildcardSuper
  | null
  | unknown
  | capture
deriving DecidableEq, Repr

structure TypeName where
  baseInternal : String
  kind : TypeNameKind
  args : List TypeName
  arrayDims : ℕ
deriving Repr

namespace TypeName

/-! ## Building -/

def withArgsAndKind (base : String) (kind : TypeNameKind) (args : List TypeName) : TypeName :=
  ⟨base, kind, args, 0⟩

def withKind (base : String) (kind : TypeNameKind) : TypeName :=
  withArgsAndKind base kind []

def classifyLegacyBase (base : String) : TypeNameKind :=
  if base ∈ ["byte", "char", "double", "float", "int", "long", "short", "boolean", "void"] then
    .primitive
  else if base = "&" then .intersection
  else if base = "*" ∨ base = "?" then .wildcard
  else if base = "+" then .wildcardExtends
  else if base = "-" then .wildcardSuper
  else if base = "null" then .null
  else if base = "capture" then .capture
  else if '/' ∈ base.toList then .internal
  else .sourceLike

/-- The loop that takes the suffixes `[]` off, and how many there were. -/
def stripDims : ℕ → List Char → List Char × ℕ
  | 0, base => (base, 0)
  | fuel + 1, base =>
    if "[]".toList <:+ base then
      let rest := stripDims fuel (trimEnd (base.take (base.length - 2)))
      (rest.1, rest.2 + 1)
    else (base, 0)

def new (baseInternal : String) : TypeName :=
  let base := trim baseInternal.toList
  let stripped := stripDims base.length base
  let name := String.ofList stripped.1
  { withKind name (classifyLegacyBase name) with arrayDims := stripped.2 }

def withArgs (base : String) (args : List TypeName) : TypeName :=
  withArgsAndKind base (classifyLegacyBase base) args

def primitive (base : String) : TypeName := withKind base .primitive

def typeVar (base : String) : TypeName := withKind base .typeVar

def unknown : TypeName := withKind "unknown" .unknown

def wildcard : TypeName := withKind "*" .wildcard

def internalWithArgs (base : String) (args : List TypeName) : TypeName :=
  withArgsAndKind base .internal args

def wildcardExtends (inner : TypeName) : TypeName :=
  withArgsAndKind "+" .wildcardExtends [inner]

def wildcardSuper (inner : TypeName) : TypeName :=
  withArgsAndKind "-" .wildcardSuper [inner]

def wrapArray (t : TypeName) : TypeName :=
  { t with arrayDims := t.arrayDims + 1 }

def internal (base : String) : TypeName := withKind base .internal

def isIntersection (t : TypeName) : Bool :=
  t.kind = .intersection

def isArray (t : TypeName) : Bool :=
  0 < t.arrayDims

def withArrayDims (t : TypeName) (dims : ℕ) : TypeName :=
  { t with arrayDims := dims }

def intersection (bounds : List TypeName) : TypeName :=
  match bounds.flatMap fun bound => if bound.isIntersection then bound.args else [bound] with
  | [] => withKind "&" .intersection
  | [bound] => bound
  | bounds => withArgsAndKind "&" .intersection bounds

/-! ## Reading -/

def isWildcardLike (t : TypeName) : Bool :=
  t.kind ∈ [.wildcard, .wildcardExtends, .wildcardSuper, .capture]

/-- The base name, of the first bound for an intersection. -/
def erasedInternal : TypeName → String
  | ⟨_, .intersection, primary :: _, _⟩ => primary.erasedInternal
  | ⟨base, _, _, _⟩ => base

def primitiveSignature (base : String) : List Char :=
  match base with
  | "byte" => ['B']
  | "char" => ['C']
  | "double" => ['D']
  | "float" => ['F']
  | "int" => ['I']
  | "long" => ['J']
  | "short" => ['S']
  | "boolean" => ['Z']
  | "void" => ['V']
  | other => other.toList

mutual

/-- `to_jvm_signature`. -/
def jvmSignature : TypeName → List Char
  | ⟨base, kind, args, dims⟩ =>
    let argSigs := jvmSignatures args
    let dimmed := fun sig => List.replicate dims '[' ++ sig
    match kind with
    | .intersection =>
      match argSigs with
      | primary :: _ => dimmed primary
      | [] => "Ljava/lang/Object;".toList
    | .primitive => dimmed (primitiveSignature base)
    | .wildcard => dimmed ['*']
    | .wildcardExtends | .wildcardSuper => dimmed (base.toList ++ argSigs.head?.getD [])
    | .internal | .sourceLike | .capture =>
      if args.isEmpty then dimmed ('L' :: (base.toList ++ [';']))
      else dimmed ('L' :: (base.toList ++ '<' :: (argSigs.flatten ++ ['>', ';'])))
    | .typeVar | .null | .unknown => dimmed ('T' :: (base.toList ++ [';']))

def jvmSignatures : List TypeName → List (List Char)
  | [] => []
  | t :: ts => jvmSignature t :: jvmSignatures ts

end

end TypeName

/-! ## From signature types -/

def javaPrimitiveCharToName (c : Char) : String :=
  match c with
  | 'I' => "int"
  | 'Z' => "boolean"
  | 'J' => "long"
  | 'F' => "float"
  | 'D' => "double"
  | 'B' => "byte"
  | 'C' => "char"
  | 'S' => "short"
  | 'V' => "void"
  | _ => "unknown"

namespace JvmType

mutual

def toTypeName : JvmType → TypeName
  | .object name args => .internalWithArgs name (toTypeNames args)
  | .typeVar name => .typeVar name
  | .array inner => (toTypeName inner).wrapArray
  | .wildcard => .wildcard
  | .wildcardBound c inner =>
    if c = '+' then .wildcardExtends (toTypeName inner)
    else if c = '-' then .wildcardSuper (toTypeName inner)
    else .withArgs (String.singleton c) [toTypeName inner]
  | .primitive c => .primitive (javaPrimitiveCharToName c)

def toTypeNames : List JvmType → List TypeName
  | [] => []
  | t :: ts => toTypeName t :: toTypeNames ts

end

end JvmType

/-! ## Back to signature types -/

/-- `type_name_to_jvm_type`: nothing for a type of which only a source name or nothing is known. -/
def typeNameToJvmType (ty : TypeName) : Option JvmType :=
  if ty.kind = .unknown ∨ ty.kind = .null ∨ ty.kind = .sourceLike then none
  else
    (JvmType.parse ty.jvmSignature).bind fun p => if p.2.isEmpty then some p.1 else none

theorem typeNameToJvmType_wellFormed {ty : TypeName} {t : JvmType}
    (h : typeNameToJvmType ty = some t) : t.wellFormed = true := by
  simp only [typeNameToJvmType] at h
  split_ifs at h
  obtain ⟨p, hp, h⟩ := Option.bind_eq_some_iff.mp h
  split_ifs at h
  cases h
  exact JvmType.parse_wellFormed hp

example : typeNameToJvmType (.withArgs "java/util/List" [.typeVar "E"]) =
    some (.object "java/util/List" [.typeVar "E"]) := by decide

end JavaAnalyzer.Semantic
