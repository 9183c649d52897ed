import Mathlib

/-! # Class metadata

The records the index stores for every class (`index.rs`): origin, annotations, methods, fields and
the class itself, with the source's own fields. `Arc<str>` is a shared immutable string and is read
as `String`; interning replaces a string by an equal shared one and is the identity here.

Floating constants of annotations are kept as their IEEE bit patterns. The source parser only
produces them from unsigned decimal literals (no NaN, no negative zero), where float equality and
equality of the bits agree. The element map of an annotation is listed in key order, so that equal
maps are equal lists. -/

namespace JavaAnalyzer.Index
set_option autoImplicit false

inductive ClassOrigin where
  | jar (path : String)
  | sourceFile (uri : String)
  | zipSource (zipPath entryName : String)
  | unknown
deriving DecidableEq, Repr, Inhabited

/-- `matches!(origin, ClassOrigin::Jar(_))`. -/
def ClassOrigin.isJar : ClassOrigin → Bool
  | .jar _ => true
  | _ => false

/-! ## Annotations -/

/-- An annotation over the type `V` of its element values. -/
structure AnnotationSummaryOf (V : Type) where
  internalName : String
  runtimeVisible : Bool
  elements : List (String × V)
deriving DecidableEq, Repr

inductive AnnotationValue where
  | byte (v : Int8)
  | char (v : UInt16)
  | double (bits : UInt64)
  | float (bits : UInt32)
  | int (v : Int32)
  | long (v : Int64)
  | short (v : Int16)
  | boolean (v : Bool)
  | string (v : String)
  | enum (typeName constName : String)
  | class (v : String)
  | nested (summary : AnnotationSummaryOf AnnotationValue)
  | array (items : List AnnotationValue)
  | unknown

abbrev AnnotationSummary := AnnotationSummaryOf AnnotationValue

/-! The derived `PartialEq`, by recursion on the left value. -/

mutual

def AnnotationValue.beq : AnnotationValue → AnnotationValue → Bool
  | .byte a, .byte b => a == b
  | .char a, .char b => a == b
  | .double a, .double b => a == b
  | .float a, .float b => a == b
  | .int a, .int b => a == b
  | .long a, .long b => a == b
  | .short a, .short b => a == b
  | .boolean a, .boolean b => a == b
  | .string a, .string b => a == b
  | .enum a a', .enum b b' => a == b && a' == b'
  | .class a, .class b => a == b
  | .nested a, .nested b => beqSummary a b
  | .array a, .array b => beqItems a b
  | .unknown, .unknown => true
  | _, _ => false
termination_by structural a => a

def AnnotationValue.beqSummary : AnnotationSummary → AnnotationSummary → Bool
  | ⟨n, v, es⟩, ⟨n', v', es'⟩ => n == n' && v == v' && beqElements es es'
termination_by structural a => a

def AnnotationValue.beqElements :
    List (String × AnnotationValue) → List (String × AnnotationValue) → Bool
  | [], [] => true
  | e :: es, e' :: es' => beqElement e e' && beqElements es es'
  | _, _ => false
termination_by structural a => a

def AnnotationValue.beqElement : String × AnnotationValue → String × AnnotationValue → Bool
  | (k, v), (k', v') => k == k' && v.beq v'
termination_by structural a => a

def AnnotationValue.beqItems : List AnnotationValue → List AnnotationValue → Bool
  | [], [] => true
  | a :: as, b :: bs => a.beq b && beqItems as bs
  | _, _ => false
termination_by structural a => a

end

mutual

theorem AnnotationValue.beq_iff : ∀ a b : AnnotationValue, a.beq b = true ↔ a = b
  | .nested a, b => by
      cases b <;> simp [AnnotationValue.beq, AnnotationValue.beqSummary_iff a]
  | .array a, b => by
      cases b <;> simp [AnnotationValue.beq, AnnotationValue.beqItems_iff a]
  | .byte _, b | .char _, b | .double _, b | .float _, b | .int _, b | .long _, b
  | .short _, b | .boolean _, b | .string _, b | .enum _ _, b | .class _, b | .unknown, b => by
      cases b <;> simp [AnnotationValue.beq]

theorem AnnotationValue.beqSummary_iff :
    ∀ a b : AnnotationSummary, AnnotationValue.beqSummary a b = true ↔ a = b
  | ⟨_, _, es⟩, ⟨_, _, es'⟩ => by
      simp [AnnotationValue.beqSummary, AnnotationValue.beqElements_iff es es', and_assoc]

theorem AnnotationValue.beqElements_iff :
    ∀ a b : List (String × AnnotationValue), AnnotationValue.beqElements a b = true ↔ a = b
  | [], b => by cases b <;> simp [AnnotationValue.beqElements]
  | _ :: _, [] => by simp [AnnotationValue.beqElements]
  | e :: es, e' :: es' => by
      simp [AnnotationValue.beqElements, AnnotationValue.beqElement_iff e e',
        AnnotationValue.beqElements_iff es es']

theorem AnnotationValue.beqElement_iff :
    ∀ a b : String × AnnotationValue, AnnotationValue.beqElement a b = true ↔ a = b
  | (_, v), (_, v') => by simp [AnnotationValue.beqElement, AnnotationValue.beq_iff v v']

theorem AnnotationValue.beqItems_iff :
    ∀ a b : List AnnotationValue, AnnotationValue.beqItems a b = true ↔ a = b
  | [], b => by cases b <;> simp [AnnotationValue.beqItems]
  | _ :: _, [] => by simp [AnnotationValue.beqItems]
  | a :: as, b :: bs => by
      simp [AnnotationValue.beqItems, AnnotationValue.beq_iff a b,
        AnnotationValue.beqItems_iff as bs]

end

instance : DecidableEq AnnotationValue :=
  fun a b => decidable_of_iff _ (AnnotationValue.beq_iff a b)

/-! ## Members -/

structure MethodParam where
  descriptor : String
  name : String
  annotations : List AnnotationSummary
deriving DecidableEq

structure MethodSummary where
  name : String
  params : List MethodParam
  annotations : List AnnotationSummary
  accessFlags : UInt16
  isSynthetic : Bool
  genericSignature : Option String
  /-- `none` when the method returns void. -/
  returnType : Option String
deriving DecidableEq

/-- The descriptor, rebuilt from the parameter descriptors and the return type. -/
def MethodSummary.desc (m : MethodSummary) : String :=
  "(" ++ String.join (m.params.map MethodParam.descriptor) ++ ")" ++ m.returnType.getD "V"

structure FieldSummary where
  name : String
  descriptor : String
  accessFlags : UInt16
  annotations : List AnnotationSummary
  isSynthetic : Bool
  genericSignature : Option String
deriving DecidableEq

/-! ## Classes -/

structure ClassMetadata where
  package : Option String
  name : String
  internalName : String
  superName : Option String
  interfaces : List String
  annotations : List AnnotationSummary
  methods : List MethodSummary
  fields : List FieldSummary
  accessFlags : UInt16
  genericSignature : Option String
  /-- Internal name of the owner, for member classes. -/
  innerClassOf : Option String
  origin : ClassOrigin
deriving DecidableEq

/-- A class without members, supertypes or annotations. -/
def ClassMetadata.bare (package : Option String) (name internalName : String)
    (innerClassOf : Option String) (origin : ClassOrigin) : ClassMetadata where
  package := package
  name := name
  internalName := internalName
  superName := none
  interfaces := []
  annotations := []
  methods := []
  fields := []
  accessFlags := 0
  genericSignature := none
  innerClassOf := innerClassOf
  origin := origin

def targetInternal : String := "java/lang/annotation/Target"

def retentionInternal : String := "java/lang/annotation/Retention"

/-- The value under the key `value` of an annotation. -/
def AnnotationSummaryOf.value {V : Type} (a : AnnotationSummaryOf V) : Option V :=
  (a.elements.find? fun e => e.1 = "value").map Prod.snd

/-- `none` without `@Target`: applicable everywhere. -/
def ClassMetadata.annotationTargets (c : ClassMetadata) : Option (List String) := do
  let targetAnn ← c.annotations.find? fun a => a.internalName = targetInternal
  match ← targetAnn.value with
  | .enum _ constName => some [constName]
  | .array items => some (items.filterMap fun
      | .enum _ constName => some constName
      | _ => none)
  | _ => none

/-- `none` without `@Retention`. -/
def ClassMetadata.annotationRetention (c : ClassMetadata) : Option String := do
  let ann ← c.annotations.find? fun a => a.internalName = retentionInternal
  match ← ann.value with
  | .enum _ constName => some constName
  | _ => none

def ClassMetadata.matchesSimpleName (c : ClassMetadata) (simpleName : String) : Bool :=
  c.name = simpleName

/-! ## Declaration ranges -/

structure SourcePosition where
  line : UInt32
  character : UInt32
deriving DecidableEq, Repr, Inhabited

structure SourceRange where
  start : SourcePosition
  stop : SourcePosition
deriving DecidableEq, Repr, Inhabited

structure SourceDeclarationBatch where
  typeRanges : AList (fun _ : String => SourceRange)
  methodRanges : AList (fun _ : String × String × String => SourceRange)
  fieldRanges : AList (fun _ : String × String => SourceRange)

def SourceDeclarationBatch.typeRange (b : SourceDeclarationBatch) (internalName : String) :
    Option SourceRange :=
  b.typeRanges.lookup internalName

def SourceDeclarationBatch.methodRange (b : SourceDeclarationBatch)
    (ownerInternal name descriptor : String) : Option SourceRange :=
  b.methodRanges.lookup (ownerInternal, name, descriptor)

def SourceDeclarationBatch.fieldRange (b : SourceDeclarationBatch) (ownerInternal name : String) :
    Option SourceRange :=
  b.fieldRanges.lookup (ownerInternal, name)

end JavaAnalyzer.Index
