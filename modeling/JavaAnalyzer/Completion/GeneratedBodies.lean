import JavaAnalyzer.Index.Metadata
import JavaAnalyzer.Language.Members
import JavaAnalyzer.Library.JavaValues

/-! # Generated `equals` and `hashCode`

The bodies that `language/java/completion/providers/override_member.rs` generates for `equals` and `hashCode`, the
statements and expressions they are the text of, their types, and what they compute. -/

namespace JavaAnalyzer.Completion
set_option autoImplicit false
open Index JavaValues

/-! ## Texts -/

def accTransient : UInt16 := 0x0080

def descriptorArrayDepth (descriptor : String) : ℕ :=
  (descriptor.toList.takeWhile (· = '[')).length

def descriptorBase (descriptor : String) : String :=
  .ofList (descriptor.toList.drop (descriptorArrayDepth descriptor))

def selectEqualsHashCodeFields (fields : List FieldSummary) : List FieldSummary :=
  fields.filter fun field => !field.isSynthetic && field.accessFlags &&& Language.accStatic = 0 &&
    field.accessFlags &&& accTransient = 0 && field.name.toList.head? ≠ some '$'

def fieldEqualityExpr (field : FieldSummary) : String :=
  let left := "this." ++ field.name
  let right := "other." ++ field.name
  match descriptorArrayDepth field.descriptor with
  | 0 =>
    let base := descriptorBase field.descriptor
    if base = "F" then "Float.compare(" ++ left ++ ", " ++ right ++ ") == 0"
    else if base = "D" then "Double.compare(" ++ left ++ ", " ++ right ++ ") == 0"
    else if base ∈ ["B", "C", "I", "J", "S", "Z"] then left ++ " == " ++ right
    else "java.util.Objects.equals(" ++ left ++ ", " ++ right ++ ")"
  | 1 => "java.util.Arrays.equals(" ++ left ++ ", " ++ right ++ ")"
  | _ => "java.util.Arrays.deepEquals(" ++ left ++ ", " ++ right ++ ")"

def fieldHashExpr (field : FieldSummary) : String :=
  let access := "this." ++ field.name
  match descriptorArrayDepth field.descriptor with
  | 0 =>
    let base := descriptorBase field.descriptor
    if base = "Z" then "(" ++ access ++ " ? 1 : 0)"
    else if base ∈ ["B", "C", "I", "S"] then access
    else if base = "J" then "Long.hashCode(" ++ access ++ ")"
    else if base = "F" then "Float.hashCode(" ++ access ++ ")"
    else if base = "D" then "Double.hashCode(" ++ access ++ ")"
    else "java.util.Objects.hashCode(" ++ access ++ ")"
  | 1 => "java.util.Arrays.hashCode(" ++ access ++ ")"
  | _ => "java.util.Arrays.deepHashCode(" ++ access ++ ")"

def buildEqualsBody (currentClassName : String) (fields : List FieldSummary) : String :=
  let comparisons := (selectEqualsHashCodeFields fields).map fieldEqualityExpr
  let lines := ["if (this == o) return true;", "if (o == null || getClass() != o.getClass()) return false;"]
  if comparisons.isEmpty then "\n".intercalate (lines ++ ["return true;"])
  else
    "\n".intercalate (lines ++ [currentClassName ++ " other = (" ++ currentClassName ++ ") o;",
      "return " ++ "\n        && ".intercalate comparisons ++ ";"])

def buildHashCodeBody (fields : List FieldSummary) : String :=
  match selectEqualsHashCodeFields fields with
  | [] => "return 0;"
  | first :: rest =>
    "\n".intercalate (("int result = " ++ fieldHashExpr first ++ ";") ::
      rest.map (fun field => "result = 31 * result + " ++ fieldHashExpr field ++ ";") ++ ["return result;"])

/-! ## Statements and expressions -/

inductive Comparison where
  | floatCompare | doubleCompare | objectsEquals | arraysEquals | arraysDeepEquals
deriving DecidableEq, Repr

inductive Hashing where
  | longHashCode | floatHashCode | doubleHashCode | objectsHashCode | arraysHashCode | arraysDeepHashCode
deriving DecidableEq, Repr

/-- The name that the method is called by. -/
def Comparison.path : Comparison → List String
  | floatCompare => ["Float", "compare"]
  | doubleCompare => ["Double", "compare"]
  | objectsEquals => ["java", "util", "Objects", "equals"]
  | arraysEquals => ["java", "util", "Arrays", "equals"]
  | arraysDeepEquals => ["java", "util", "Arrays", "deepEquals"]

def Hashing.path : Hashing → List String
  | longHashCode => ["Long", "hashCode"]
  | floatHashCode => ["Float", "hashCode"]
  | doubleHashCode => ["Double", "hashCode"]
  | objectsHashCode => ["java", "util", "Objects", "hashCode"]
  | arraysHashCode => ["java", "util", "Arrays", "hashCode"]
  | arraysDeepHashCode => ["java", "util", "Arrays", "deepHashCode"]

inductive Owner where
  | this | other
deriving DecidableEq, Repr

inductive Expr where
  | field (owner : Owner) (name : String)
  | eq (left right : Expr)
  | isZero (e : Expr)
  | oneOrZero (e : Expr)
  | compare (method : Comparison) (left right : Expr)
  | hash (method : Hashing) (e : Expr)
deriving DecidableEq, Repr

namespace Expr

def text : Expr → String
  | field .this name => "this." ++ name
  | field .other name => "other." ++ name
  | eq left right => left.text ++ " == " ++ right.text
  | isZero e => e.text ++ " == 0"
  | oneOrZero e => "(" ++ e.text ++ " ? 1 : 0)"
  | compare method left right => ".".intercalate method.path ++ "(" ++ left.text ++ ", " ++ right.text ++ ")"
  | hash method e => ".".intercalate method.path ++ "(" ++ e.text ++ ")"

end Expr

/-- `if (this == o) return true;`, `if (o == null || getClass() != o.getClass()) return false;`, and the comparisons of
the fields. -/
structure EqualsBody where
  className : String
  comparisons : List Expr

def EqualsBody.text (body : EqualsBody) : String :=
  "\n".intercalate (["if (this == o) return true;", "if (o == null || getClass() != o.getClass()) return false;"] ++
    if body.comparisons.isEmpty then ["return true;"]
    else [body.className ++ " other = (" ++ body.className ++ ") o;",
      "return " ++ "\n        && ".intercalate (body.comparisons.map Expr.text) ++ ";"])

/-- The hashes of the fields, each added to 31 times the result so far. -/
structure HashBody where
  hashes : List Expr

def HashBody.text (body : HashBody) : String :=
  match body.hashes with
  | [] => "return 0;"
  | first :: rest => "\n".intercalate (("int result = " ++ first.text ++ ";") ::
      rest.map (fun e => "result = 31 * result + " ++ e.text ++ ";") ++ ["return result;"])

def equalityExpr (field : FieldSummary) : Expr :=
  let left := Expr.field .this field.name
  let right := Expr.field .other field.name
  match descriptorArrayDepth field.descriptor with
  | 0 =>
    let base := descriptorBase field.descriptor
    if base = "F" then .isZero (.compare .floatCompare left right)
    else if base = "D" then .isZero (.compare .doubleCompare left right)
    else if base ∈ ["B", "C", "I", "J", "S", "Z"] then .eq left right
    else .compare .objectsEquals left right
  | 1 => .compare .arraysEquals left right
  | _ => .compare .arraysDeepEquals left right

def hashExpr (field : FieldSummary) : Expr :=
  let access := Expr.field .this field.name
  match descriptorArrayDepth field.descriptor with
  | 0 =>
    let base := descriptorBase field.descriptor
    if base = "Z" then .oneOrZero access
    else if base ∈ ["B", "C", "I", "S"] then access
    else if base = "J" then .hash .longHashCode access
    else if base = "F" then .hash .floatHashCode access
    else if base = "D" then .hash .doubleHashCode access
    else .hash .objectsHashCode access
  | 1 => .hash .arraysHashCode access
  | _ => .hash .arraysDeepHashCode access

def equalsBody (currentClassName : String) (fields : List FieldSummary) : EqualsBody :=
  ⟨currentClassName, (selectEqualsHashCodeFields fields).map equalityExpr⟩

def hashBody (fields : List FieldSummary) : HashBody :=
  ⟨(selectEqualsHashCodeFields fields).map hashExpr⟩

theorem equalityExpr_text (field : FieldSummary) : (equalityExpr field).text = fieldEqualityExpr field := by
  rw [equalityExpr, fieldEqualityExpr]
  split
  · dsimp only
    split_ifs
    · exact String.append_assoc
    · exact String.append_assoc
    · rfl
    · rfl
  · rfl
  · rfl

theorem hashExpr_text (field : FieldSummary) : (hashExpr field).text = fieldHashExpr field := by
  rw [hashExpr, fieldHashExpr]
  split
  · dsimp only
    split_ifs <;> rfl
  · rfl
  · rfl

/-- The generated texts are those of the bodies. -/
theorem generated_texts (currentClassName : String) (fields : List FieldSummary) :
    buildEqualsBody currentClassName fields = (equalsBody currentClassName fields).text ∧
      buildHashCodeBody fields = (hashBody fields).text := by
  constructor
  · have htexts : ((selectEqualsHashCodeFields fields).map equalityExpr).map Expr.text =
        (selectEqualsHashCodeFields fields).map fieldEqualityExpr := by
      rw [List.map_map]
      exact List.map_congr_left fun field _ => equalityExpr_text field
    rw [buildEqualsBody, EqualsBody.text, equalsBody]
    dsimp only
    rw [htexts, List.isEmpty_map, List.isEmpty_map]
    split_ifs <;> rfl
  · rw [buildHashCodeBody, HashBody.text, hashBody]
    cases selectEqualsHashCodeFields fields with
    | nil => rfl
    | cons first rest =>
      rw [List.map_cons]
      dsimp only
      rw [hashExpr_text, List.map_map]
      have hrest : ∀ field ∈ rest, "result = 31 * result + " ++ fieldHashExpr field ++ ";" =
          "result = 31 * result + " ++ (hashExpr field).text ++ ";" := fun field _ => by rw [hashExpr_text]
      rw [List.map_congr_left hrest]
      rfl

/-! ## Types -/

inductive JavaType where
  | prim (kind : PrimKind)
  | ref (name : String)
  | array (elem : JavaType)
deriving DecidableEq, Repr

namespace JavaType

def letter : PrimKind → Char
  | .boolean => 'Z'
  | .byte => 'B'
  | .char => 'C'
  | .short => 'S'
  | .int => 'I'
  | .long => 'J'
  | .float => 'F'
  | .double => 'D'

def descriptor : JavaType → List Char
  | prim kind => [letter kind]
  | ref name => 'L' :: (name.toList ++ [';'])
  | array elem => '[' :: elem.descriptor

def isRef : JavaType → Bool
  | prim _ => false
  | _ => true

end JavaType

def FieldSummary.HasType (field : FieldSummary) (t : JavaType) : Prop :=
  field.descriptor.toList = t.descriptor

/-- Neither the class nor a field has the first identifier of the name, so that it is the name of a library class. -/
def NotObscured (className : String) (fields : List FieldSummary) (path : List String) : Prop :=
  path.head? ≠ some className ∧ ∀ field ∈ fields, field.isSynthetic = false → path.head? ≠ some field.name

/-- The types of the arguments of a method. -/
def Comparison.Accepts : Comparison → JavaType → Prop
  | floatCompare, t => t = .prim .float
  | doubleCompare, t => t = .prim .double
  | objectsEquals, t => t.isRef = true
  | arraysEquals, t => ∃ elem, t = .array elem
  | arraysDeepEquals, t => ∃ elem, t = .array elem ∧ elem.isRef = true

def Comparison.result : Comparison → PrimKind
  | floatCompare => .int
  | doubleCompare => .int
  | _ => .boolean

def Hashing.Accepts : Hashing → JavaType → Prop
  | longHashCode, t => t = .prim .long
  | floatHashCode, t => t = .prim .float
  | doubleHashCode, t => t = .prim .double
  | objectsHashCode, t => t.isRef = true
  | arraysHashCode, t => ∃ elem, t = .array elem
  | arraysDeepHashCode, t => ∃ elem, t = .array elem ∧ elem.isRef = true

/-- The types of expressions, in a class with some fields. A synthetic field has no name in the source. -/
inductive Typed (className : String) (fields : List FieldSummary) : Expr → JavaType → Prop
  | field {owner : Owner} {field : FieldSummary} {t : JavaType} (hmem : field ∈ fields)
      (hname : field.isSynthetic = false) (ht : FieldSummary.HasType field t) :
      Typed className fields (.field owner field.name) t
  | eq {left right : Expr} {kind : PrimKind} (hleft : Typed className fields left (.prim kind))
      (hright : Typed className fields right (.prim kind)) : Typed className fields (.eq left right) (.prim .boolean)
  | isZero {e : Expr} (h : Typed className fields e (.prim .int)) : Typed className fields (.isZero e) (.prim .boolean)
  | oneOrZero {e : Expr} (h : Typed className fields e (.prim .boolean)) :
      Typed className fields (.oneOrZero e) (.prim .int)
  | compare {method : Comparison} {left right : Expr} {t : JavaType} (hpath : NotObscured className fields method.path)
      (haccepts : method.Accepts t) (hleft : Typed className fields left t) (hright : Typed className fields right t) :
      Typed className fields (.compare method left right) (.prim method.result)
  | hash {method : Hashing} {e : Expr} {t : JavaType} (hpath : NotObscured className fields method.path)
      (haccepts : method.Accepts t) (h : Typed className fields e t) :
      Typed className fields (.hash method e) (.prim .int)

/-- The types whose values can be assigned to an `int`. -/
def intKinds : List PrimKind :=
  [.byte, .char, .short, .int]

def EqualsBody.WellTyped (fields : List FieldSummary) (body : EqualsBody) : Prop :=
  ∀ e ∈ body.comparisons, Typed body.className fields e (.prim .boolean)

def HashBody.WellTyped (className : String) (fields : List FieldSummary) (body : HashBody) : Prop :=
  ∀ e ∈ body.hashes, ∃ kind ∈ intKinds, Typed className fields e (.prim kind)

/-! ## Types of the generated expressions -/

theorem base_of_type {descriptor : String} {kind : PrimKind}
    (h : descriptor.toList = (JavaType.prim kind).descriptor) :
    descriptorArrayDepth descriptor = 0 ∧ descriptorBase descriptor = .ofList [JavaType.letter kind] := by
  have hdepth : descriptorArrayDepth descriptor = 0 := by
    rw [descriptorArrayDepth, h]
    cases kind <;> rfl
  refine ⟨hdepth, ?_⟩
  rw [descriptorBase, hdepth, h]
  rfl

theorem base_of_ref {descriptor name : String} (h : descriptor.toList = (JavaType.ref name).descriptor) :
    descriptorArrayDepth descriptor = 0 ∧ ∀ c : Char, descriptorBase descriptor ≠ .ofList [c] := by
  have hdepth : descriptorArrayDepth descriptor = 0 := by
    rw [descriptorArrayDepth, h]
    rfl
  refine ⟨hdepth, fun c hc => ?_⟩
  rw [descriptorBase, hdepth, h] at hc
  have hlist := String.ofList_injective hc
  simp [JavaType.descriptor] at hlist

/-- How the fields of a type are compared. -/
def equalityOf (t : JavaType) (left right : Expr) : Expr :=
  match t with
  | .prim .float => .isZero (.compare .floatCompare left right)
  | .prim .double => .isZero (.compare .doubleCompare left right)
  | .prim _ => .eq left right
  | .ref _ => .compare .objectsEquals left right
  | .array (.array _) => .compare .arraysDeepEquals left right
  | .array _ => .compare .arraysEquals left right

/-- How the fields of a type are hashed. -/
def hashOf (t : JavaType) (access : Expr) : Expr :=
  match t with
  | .prim .boolean => .oneOrZero access
  | .prim .long => .hash .longHashCode access
  | .prim .float => .hash .floatHashCode access
  | .prim .double => .hash .doubleHashCode access
  | .prim _ => access
  | .ref _ => .hash .objectsHashCode access
  | .array (.array _) => .hash .arraysDeepHashCode access
  | .array _ => .hash .arraysHashCode access

theorem depth_of_array {descriptor : String} {elem : JavaType}
    (h : descriptor.toList = (JavaType.array elem).descriptor) :
    descriptorArrayDepth descriptor = (elem.descriptor.takeWhile (· = '[')).length + 1 := by
  rw [descriptorArrayDepth, h]
  rfl

theorem exprs_of_type {field : FieldSummary} {t : JavaType} (h : FieldSummary.HasType field t) :
    equalityExpr field = equalityOf t (.field .this field.name) (.field .other field.name) ∧
      hashExpr field = hashOf t (.field .this field.name) := by
  cases t with
  | prim kind =>
    obtain ⟨hdepth, hbase⟩ := base_of_type h
    rw [equalityExpr, hashExpr, hdepth, hbase]
    cases kind <;> exact ⟨rfl, rfl⟩
  | ref name =>
    obtain ⟨hdepth, hbase⟩ := base_of_ref h
    have hF := hbase 'F'
    have hD := hbase 'D'
    have hZ := hbase 'Z'
    have hJ := hbase 'J'
    have heq : descriptorBase field.descriptor ∉ ["B", "C", "I", "J", "S", "Z"] := by
      simp only [List.mem_cons, List.not_mem_nil, or_false, not_or]
      exact ⟨hbase 'B', hbase 'C', hbase 'I', hJ, hbase 'S', hZ⟩
    have hint : descriptorBase field.descriptor ∉ ["B", "C", "I", "S"] := by
      simp only [List.mem_cons, List.not_mem_nil, or_false, not_or]
      exact ⟨hbase 'B', hbase 'C', hbase 'I', hbase 'S'⟩
    rw [equalityExpr, hashExpr, hdepth]
    dsimp only
    rw [if_neg hF, if_neg hD, if_neg heq, if_neg hZ, if_neg hint, if_neg hJ, if_neg hF, if_neg hD]
    exact ⟨rfl, rfl⟩
  | array elem =>
    have hdepth := depth_of_array h
    cases elem with
    | prim kind =>
      have hone : descriptorArrayDepth field.descriptor = 1 := by
        rw [hdepth]
        cases kind <;> rfl
      rw [equalityExpr, hashExpr, hone]
      exact ⟨rfl, rfl⟩
    | ref name =>
      rw [equalityExpr, hashExpr, hdepth]
      exact ⟨rfl, rfl⟩
    | array elem =>
      rw [equalityExpr, hashExpr, hdepth]
      exact ⟨rfl, rfl⟩

section Typing

variable {className : String} {fields : List FieldSummary} {field : FieldSummary} {t : JavaType}

theorem mem_of_selected (h : field ∈ selectEqualsHashCodeFields fields) :
    field ∈ fields ∧ field.isSynthetic = false := by
  obtain ⟨hmem, htest⟩ := List.mem_filter.mp h
  simp only [Bool.and_eq_true, Bool.not_eq_true'] at htest
  exact ⟨hmem, htest.1.1.1⟩

/-- The first identifier of the library methods for a type. -/
def libraryName : JavaType → Option String
  | .prim .float => some "Float"
  | .prim .double => some "Double"
  | .prim .long => some "Long"
  | .prim _ => none
  | _ => some "java"

/-- Neither the class nor a field has the first identifier of a library method for a type. -/
def LibraryInScope (className : String) (fields : List FieldSummary) (t : JavaType) : Prop :=
  libraryName t ≠ some className ∧ ∀ field ∈ fields, field.isSynthetic = false → libraryName t ≠ some field.name

theorem typed_equality {left right : Expr} (hlibrary : LibraryInScope className fields t)
    (hleft : Typed className fields left t) (hright : Typed className fields right t) : Typed className fields (equalityOf t left right) (.prim .boolean) := by
  cases t with
  | prim kind =>
    cases kind with
    | float => exact .isZero (@Typed.compare _ _ .floatCompare _ _ _ hlibrary rfl hleft hright)
    | double => exact .isZero (@Typed.compare _ _ .doubleCompare _ _ _ hlibrary rfl hleft hright)
    | _ => exact .eq hleft hright
  | ref name => exact @Typed.compare _ _ .objectsEquals _ _ (.ref name) hlibrary rfl hleft hright
  | array elem =>
    cases elem with
    | array inner => exact @Typed.compare _ _ .arraysDeepEquals _ _ _ hlibrary ⟨_, rfl, rfl⟩ hleft hright
    | _ => exact @Typed.compare _ _ .arraysEquals _ _ _ hlibrary ⟨_, rfl⟩ hleft hright

theorem typed_hash {access : Expr} (hlibrary : LibraryInScope className fields t)
    (h : Typed className fields access t) :
    ∃ kind ∈ intKinds, Typed className fields (hashOf t access) (.prim kind) := by
  have hint : ∀ kind ∈ intKinds, t = .prim kind → ∃ kind ∈ intKinds, Typed className fields access (.prim kind) :=
    fun kind hkind ht => ⟨kind, hkind, ht ▸ h⟩
  cases t with
  | prim kind =>
    cases kind with
    | boolean => exact ⟨.int, by decide, .oneOrZero h⟩
    | long => exact ⟨.int, by decide, @Typed.hash _ _ .longHashCode _ _ hlibrary rfl h⟩
    | float => exact ⟨.int, by decide, @Typed.hash _ _ .floatHashCode _ _ hlibrary rfl h⟩
    | double => exact ⟨.int, by decide, @Typed.hash _ _ .doubleHashCode _ _ hlibrary rfl h⟩
    | byte => exact hint .byte (by decide) rfl
    | char => exact hint .char (by decide) rfl
    | short => exact hint .short (by decide) rfl
    | int => exact hint .int (by decide) rfl
  | ref name => exact ⟨.int, by decide, @Typed.hash _ _ .objectsHashCode _ (.ref name) hlibrary rfl h⟩
  | array elem =>
    cases elem with
    | array inner => exact ⟨.int, by decide, @Typed.hash _ _ .arraysDeepHashCode _ _ hlibrary ⟨_, rfl, rfl⟩ h⟩
    | _ => exact ⟨.int, by decide, @Typed.hash _ _ .arraysHashCode _ _ hlibrary ⟨_, rfl⟩ h⟩

/-- The hash of a field names the library class for its type, where there is one. -/
theorem libraryInScope_of_typed {access : Expr} {kind : PrimKind}
    (h : Typed className fields (hashOf t access) (.prim kind)) : LibraryInScope className fields t := by
  cases t with
  | prim kind =>
    cases kind with
    | long =>
      cases h with
      | hash hpath _ _ => exact hpath
    | float =>
      cases h with
      | hash hpath _ _ => exact hpath
    | double =>
      cases h with
      | hash hpath _ _ => exact hpath
    | _ => exact ⟨fun h => (by cases h), fun _ _ _ h => by cases h⟩
  | ref name =>
    cases h with
    | hash hpath _ _ => exact hpath
  | array elem =>
    cases elem with
    | array inner =>
      cases h with
      | hash hpath _ _ => exact hpath
    | _ =>
      cases h with
      | hash hpath _ _ => exact hpath

end Typing

/-! ## Values -/

section Values

variable {Obj : Type} (m : ObjectMethods Obj)

/-- `==` of integers, characters and booleans. -/
def primEq (p q : PrimValue) : Option PrimValue :=
  if p.kind = q.kind ∧ p.kind ≠ .float ∧ p.kind ≠ .double then some (.boolean (p = q)) else none

def Comparison.apply : Comparison → JavaValue Obj → JavaValue Obj → Option PrimValue
  | floatCompare, .prim (.float a), .prim (.float b) => some (.int (JavaValues.floatCompare a b))
  | doubleCompare, .prim (.double a), .prim (.double b) => some (.int (JavaValues.doubleCompare a b))
  | objectsEquals, .ref x, .ref y => some (.boolean (Objects.equals m x y))
  | arraysEquals, .ref x, .ref y => some (.boolean (Arrays.equals m x y))
  | arraysDeepEquals, .ref x, .ref y => some (.boolean (Arrays.deepEquals m x y))
  | _, _, _ => none

def Hashing.apply : Hashing → JavaValue Obj → Option PrimValue
  | longHashCode, .prim (.long x) => some (.int (JavaValues.longHashCode x))
  | floatHashCode, .prim (.float raw) => some (.int (PrimValue.float raw).hashCode)
  | doubleHashCode, .prim (.double raw) => some (.int (PrimValue.double raw).hashCode)
  | objectsHashCode, .ref x => some (.int (Objects.hashCode m x))
  | arraysHashCode, .ref x => some (.int (Arrays.hashCode m x))
  | arraysDeepHashCode, .ref x => some (.int (Arrays.deepHashCode m x))
  | _, _ => none

/-- The value of an expression; `none` where an operand has a value of another type. -/
def Expr.eval (value : Owner → String → JavaValue Obj) : Expr → Option (JavaValue Obj)
  | field owner name => some (value owner name)
  | eq left right =>
    match left.eval value, right.eval value with
    | some (.prim p), some (.prim q) => (primEq p q).map .prim
    | _, _ => none
  | isZero e =>
    match e.eval value with
    | some (.prim (.int x)) => some (.prim (.boolean (x = 0)))
    | _ => none
  | oneOrZero e =>
    match e.eval value with
    | some (.prim (.boolean b)) => some (.prim (.int (if b then 1 else 0)))
    | _ => none
  | compare method left right =>
    match left.eval value, right.eval value with
    | some v, some w => (method.apply m v w).map .prim
    | _, _ => none
  | hash method e => (e.eval value).bind fun v => (method.apply m v).map .prim

def asBoolean : Option (JavaValue Obj) → Option Bool
  | some (.prim (.boolean b)) => some b
  | _ => none

/-- The value as an `int` it is assigned to. -/
def asInt : Option (JavaValue Obj) → Option (BitVec 32)
  | some (.prim (.byte x)) => some (x.signExtend 32)
  | some (.prim (.char x)) => some (x.setWidth 32)
  | some (.prim (.short x)) => some (x.signExtend 32)
  | some (.prim (.int x)) => some x
  | _ => none

/-- `e && ..`, from left to right. -/
def Expr.allTrue (value : Owner → String → JavaValue Obj) : List Expr → Option Bool
  | [] => some true
  | e :: es => (asBoolean (e.eval m value)).bind fun b => if b then allTrue value es else some false

/-- Instances of the class and its subclasses: their classes and their fields. -/
structure Instances (Obj Inst : Type) where
  classOf : Inst → String
  fieldOf : Inst → String → JavaValue Obj

variable {Inst : Type} [DecidableEq Inst] (instances : Instances Obj Inst)

def Instances.values (this other : Inst) : Owner → String → JavaValue Obj
  | .this => instances.fieldOf this
  | .other => instances.fieldOf other

/-- `this.equals(o)` with the generated body. -/
def EqualsBody.run (body : EqualsBody) (this : Inst) (o : Option Inst) : Option Bool :=
  match o with
  | none => some false
  | some other =>
    if this = other then some true
    else if instances.classOf this ≠ instances.classOf other then some false
    else Expr.allTrue m (instances.values this other) body.comparisons

/-- `this.hashCode()` with the generated body. -/
def HashBody.run (body : HashBody) (this : Inst) : Option (BitVec 32) :=
  match body.hashes with
  | [] => some 0
  | first :: rest => (asInt (first.eval m (instances.values this this))).bind fun result =>
      rest.foldlM (fun result e => (asInt (e.eval m (instances.values this this))).map (31 * result + ·)) result

/-! ## Fields -/

/-- What a variable of a type can hold. -/
def Holds : JavaType → JavaValue Obj → Prop
  | .prim kind, v => ∃ p : PrimValue, v = .prim p ∧ p.kind = kind
  | .ref _, v => ∃ x, v = .ref x
  | .array (.prim kind), v => ∃ x, v = .ref x ∧ Nullable (fun id => .primArray id kind) (fun _ => True) x
  | .array _, v => ∃ x, v = .ref x ∧ Nullable .refArray (fun _ => True) x

/-- Whether two fields of a type are the same. -/
def sameOf : JavaType → JavaValue Obj → JavaValue Obj → Bool
  | .prim _, .prim p, .prim q => p.equals q
  | .ref _, .ref x, .ref y => Objects.equals m x y
  | .array (.array _), .ref x, .ref y => Arrays.deepEquals m x y
  | .array _, .ref x, .ref y => Arrays.equals m x y
  | _, _, _ => false

/-- The hash of a primitive field. -/
def primHash (p : PrimValue) : BitVec 32 :=
  match p with
  | .boolean b => if b then 1 else 0
  | p => p.hashCode

/-- The hash of a field of a type. -/
def hashValue : JavaType → JavaValue Obj → BitVec 32
  | .prim _, .prim p => primHash p
  | .ref _, .ref x => Objects.hashCode m x
  | .array (.array _), .ref x => Arrays.deepHashCode m x
  | .array _, .ref x => Arrays.hashCode m x
  | _, _ => 0

variable {m}

theorem primHash_congr {p q : PrimValue} (h : p.equals q = true) : primHash p = primHash q := by
  have hhash := PrimValue.hashCode_congr h
  have hboxed := PrimValue.equals_iff.mp h
  cases p with
  | boolean b =>
    cases q with
    | boolean c =>
      cases hboxed
      rfl
    | _ => cases hboxed
  | _ =>
    cases q with
    | boolean c => cases hboxed
    | _ => exact hhash

theorem primEq_eq {p q : PrimValue} (hkind : p.kind = q.kind) (hfloat : p.kind ≠ .float) (hdouble : p.kind ≠ .double) :
    primEq p q = some (.boolean (p.equals q)) := by
  have hboxed : ∀ r : PrimValue, r.kind ≠ .float → r.kind ≠ .double → r.boxed = r := by
    intro r hf hd
    cases r with
    | float => exact absurd rfl hf
    | double => exact absurd rfl hd
    | _ => rfl
  rw [primEq, if_pos ⟨hkind, hfloat, hdouble⟩, PrimValue.equals, hboxed p hfloat hdouble,
    hboxed q (hkind ▸ hfloat) (hkind ▸ hdouble)]

theorem float_of_kind {p : PrimValue} (h : p.kind = .float) : ∃ raw, p = .float raw := by
  cases p with
  | float raw => exact ⟨raw, rfl⟩
  | _ => cases h

theorem double_of_kind {p : PrimValue} (h : p.kind = .double) : ∃ raw, p = .double raw := by
  cases p with
  | double raw => exact ⟨raw, rfl⟩
  | _ => cases h

section Eval

variable {left right : Expr} {value : Owner → String → JavaValue Obj} {v w : JavaValue Obj}

theorem eq_eval {p q : PrimValue} (hleft : left.eval m value = some (.prim p))
    (hright : right.eval m value = some (.prim q)) (hkind : p.kind = q.kind) (hfloat : p.kind ≠ .float) (hdouble : p.kind ≠ .double) :
    asBoolean ((Expr.eq left right).eval m value) = some (p.equals q) := by
  rw [Expr.eval, hleft, hright]
  dsimp only
  rw [primEq_eq hkind hfloat hdouble]
  rfl

theorem compare_eval {method : Comparison} {b : Bool} (hleft : left.eval m value = some v)
    (hright : right.eval m value = some w) (happly : method.apply m v w = some (.boolean b)) :
    asBoolean ((Expr.compare method left right).eval m value) = some b := by
  rw [Expr.eval, hleft, hright]
  dsimp only
  rw [happly]
  rfl

theorem isZero_eval {method : Comparison} {x : BitVec 32} (hleft : left.eval m value = some v)
    (hright : right.eval m value = some w) (happly : method.apply m v w = some (.int x)) :
    asBoolean ((Expr.isZero (.compare method left right)).eval m value) = some (decide (x = 0)) := by
  rw [Expr.eval, Expr.eval, hleft, hright]
  dsimp only
  rw [happly]
  rfl

theorem equalityOf_eval {t : JavaType} (hleft : left.eval m value = some v) (hright : right.eval m value = some w)
    (hv : Holds t v) (hw : Holds t w) :
    asBoolean ((equalityOf t left right).eval m value) = some (sameOf m t v w) := by
  cases t with
  | prim kind =>
    obtain ⟨p, rfl, hp⟩ := hv
    obtain ⟨q, rfl, hq⟩ := hw
    have hkind := hp.trans hq.symm
    have heq : kind ≠ .float → kind ≠ .double →
        asBoolean ((Expr.eq left right).eval m value) = some (p.equals q) :=
      fun hf hd => eq_eval hleft hright hkind (hp ▸ hf) (hp ▸ hd)
    cases kind with
    | float =>
      obtain ⟨a, rfl⟩ := float_of_kind hp
      obtain ⟨b, rfl⟩ := float_of_kind hq
      refine (isZero_eval hleft hright rfl).trans (congrArg some (decide_eq_decide.mpr ?_))
      rw [floatCompare_eq_zero, PrimValue.boxed, PrimValue.boxed, PrimValue.float.injEq]
    | double =>
      obtain ⟨a, rfl⟩ := double_of_kind hp
      obtain ⟨b, rfl⟩ := double_of_kind hq
      refine (isZero_eval hleft hright rfl).trans (congrArg some (decide_eq_decide.mpr ?_))
      rw [doubleCompare_eq_zero, PrimValue.boxed, PrimValue.boxed, PrimValue.double.injEq]
    | _ => exact heq (by decide) (by decide)
  | ref name =>
    obtain ⟨x, rfl⟩ := hv
    obtain ⟨y, rfl⟩ := hw
    exact compare_eval hleft hright rfl
  | array elem =>
    cases elem with
    | _ =>
      obtain ⟨x, rfl, -⟩ := hv
      obtain ⟨y, rfl, -⟩ := hw
      exact compare_eval hleft hright rfl

theorem hash_eval {method : Hashing} {x : BitVec 32} (hleft : left.eval m value = some v)
    (happly : method.apply m v = some (.int x)) : asInt ((Expr.hash method left).eval m value) = some x := by
  rw [Expr.eval, hleft, Option.bind_some, happly]
  rfl

theorem hashOf_eval {t : JavaType} (hleft : left.eval m value = some v) (hv : Holds t v) :
    asInt ((hashOf t left).eval m value) = some (hashValue m t v) := by
  cases t with
  | prim kind =>
    obtain ⟨p, rfl, hp⟩ := hv
    cases p with
    | boolean b =>
      cases hp
      change asInt ((Expr.oneOrZero left).eval m value) = _
      rw [Expr.eval, hleft]
      rfl
    | long x =>
      cases hp
      exact hash_eval hleft rfl
    | float raw =>
      cases hp
      exact hash_eval hleft rfl
    | double raw =>
      cases hp
      exact hash_eval hleft rfl
    | _ =>
      cases hp
      exact congrArg asInt hleft
  | ref name =>
    obtain ⟨x, rfl⟩ := hv
    exact hash_eval hleft rfl
  | array elem =>
    cases elem with
    | _ =>
      obtain ⟨x, rfl, -⟩ := hv
      exact hash_eval hleft rfl

end Eval

theorem primFields_equivalence : HashedEquivalence (fun _ => True) PrimValue.equals primHash where
  refl := primValue_equivalence.refl
  symm := primValue_equivalence.symm
  trans := primValue_equivalence.trans
  hash _ _ _ _ h := primHash_congr h

/-- On the values of a type the comparison is an equivalence and agrees with the hash. -/
theorem type_equivalence (hm : m.Contract) (t : JavaType) :
    HashedEquivalence (Holds t) (sameOf m t) (hashValue m t) := by
  cases t with
  | prim kind =>
    refine @HashedEquivalence.image _ _ _ _ _ primFields_equivalence .prim _ _ _ ?_ (fun _ _ => rfl) fun _ => rfl
    rintro v ⟨p, rfl, -⟩
    exact ⟨p, rfl, trivial⟩
  | ref name =>
    refine @HashedEquivalence.image _ _ _ _ _ (objects_equivalence hm) .ref _ _ _ ?_ (fun _ _ => rfl) fun _ => rfl
    rintro v ⟨x, rfl⟩
    exact ⟨x, rfl, trivial⟩
  | array elem =>
    cases elem with
    | prim kind => exact (primArrays_equivalence m kind).image (fun _ hv => hv) (fun _ _ => rfl) fun _ => rfl
    | ref name => exact (refArrays_equivalence hm).image (fun _ hv => hv) (fun _ _ => rfl) fun _ => rfl
    | array inner => exact (deepArrays_equivalence hm).image (fun _ hv => hv) (fun _ _ => rfl) fun _ => rfl

/-! ## Runs of the bodies -/

section Runs

variable {typeOf : FieldSummary → JavaType} {selected : List FieldSummary}

theorem allTrue_eq {value : Owner → String → JavaValue Obj}
    (htype : ∀ field ∈ selected, FieldSummary.HasType field (typeOf field))
    (hholds : ∀ field ∈ selected, ∀ owner, Holds (typeOf field) (value owner field.name)) :
    Expr.allTrue m value (selected.map equalityExpr) =
      some (selected.all fun field =>
        sameOf m (typeOf field) (value .this field.name) (value .other field.name)) := by
  induction selected with
  | nil => rfl
  | cons field rest ih =>
    have hfirst := hholds field List.mem_cons_self
    have heval := @equalityOf_eval _ m (.field .this field.name) (.field .other field.name) value _ _ (typeOf field)
      rfl rfl (hfirst .this) (hfirst .other)
    rw [← (exprs_of_type (htype field List.mem_cons_self)).1] at heval
    have hrest := ih (fun f hf => htype f (List.mem_cons_of_mem _ hf))
      fun f hf => hholds f (List.mem_cons_of_mem _ hf)
    rw [List.map_cons, Expr.allTrue, heval, Option.bind_some, List.all_cons, hrest]
    cases sameOf m (typeOf field) (value .this field.name) (value .other field.name) <;> rfl

/-- The hash of some fields from theirs. -/
def combineHashes : List (BitVec 32) → BitVec 32
  | [] => 0
  | first :: rest => rest.foldl (fun result h => 31 * result + h) first

theorem foldlM_hashes {value : Owner → String → JavaValue Obj}
    (htype : ∀ field ∈ selected, FieldSummary.HasType field (typeOf field))
    (hholds : ∀ field ∈ selected, Holds (typeOf field) (value .this field.name)) (result : BitVec 32) :
    (selected.map hashExpr).foldlM (fun result e => (asInt (e.eval m value)).map (31 * result + ·)) result =
      some ((selected.map fun field => hashValue m (typeOf field) (value .this field.name)).foldl
        (fun result h => 31 * result + h) result) := by
  induction selected generalizing result with
  | nil => rfl
  | cons field rest ih =>
    have heval := @hashOf_eval _ m (.field .this field.name) value _ (typeOf field) rfl
      (hholds field List.mem_cons_self)
    rw [← (exprs_of_type (htype field List.mem_cons_self)).2] at heval
    rw [List.map_cons, List.foldlM_cons, heval]
    exact ih (fun f hf => htype f (List.mem_cons_of_mem _ hf)) (fun f hf => hholds f (List.mem_cons_of_mem _ hf)) _

/-- What the generated `hashCode` returns. -/
theorem hashBody_run {fields : List FieldSummary}
    (htype : ∀ field ∈ selectEqualsHashCodeFields fields, FieldSummary.HasType field (typeOf field)) {this : Inst}
    (hholds : ∀ field ∈ selectEqualsHashCodeFields fields,
      Holds (typeOf field) (instances.fieldOf this field.name)) :
    (hashBody fields).run m instances this = some (combineHashes ((selectEqualsHashCodeFields fields).map fun field =>
      hashValue m (typeOf field) (instances.fieldOf this field.name))) := by
  rw [HashBody.run, hashBody]
  cases hselected : selectEqualsHashCodeFields fields with
  | nil => rfl
  | cons field rest =>
    rw [hselected] at htype hholds
    have heval := @hashOf_eval _ m (.field .this field.name) (instances.values this this) _ (typeOf field) rfl
      (hholds field List.mem_cons_self)
    rw [← (exprs_of_type (htype field List.mem_cons_self)).2] at heval
    rw [List.map_cons]
    dsimp only
    rw [heval, Option.bind_some]
    exact foldlM_hashes (fun f hf => htype f (List.mem_cons_of_mem _ hf))
      (fun f hf => hholds f (List.mem_cons_of_mem _ hf)) _

/-- What the generated `equals` returns for an instance. -/
theorem equalsBody_run {currentClassName : String} {fields : List FieldSummary} (hm : m.Contract)
    (htype : ∀ field ∈ selectEqualsHashCodeFields fields, FieldSummary.HasType field (typeOf field))
    (hholds : ∀ this, ∀ field ∈ selectEqualsHashCodeFields fields,
      Holds (typeOf field) (instances.fieldOf this field.name)) (this other : Inst) :
    (equalsBody currentClassName fields).run m instances this (some other) =
      some (decide (instances.classOf this = instances.classOf other) &&
        (selectEqualsHashCodeFields fields).all fun field =>
          sameOf m (typeOf field) (instances.fieldOf this field.name) (instances.fieldOf other field.name)) := by
  have hall := @allTrue_eq _ m typeOf (selectEqualsHashCodeFields fields) (instances.values this other) htype
    fun field hfield owner => match owner with
      | .this => hholds this field hfield
      | .other => hholds other field hfield
  rw [EqualsBody.run, equalsBody]
  dsimp only
  split_ifs with hthis hclass
  · subst hthis
    rw [decide_eq_true rfl, Bool.true_and]
    exact congrArg some (List.all_eq_true.mpr fun field hfield =>
      (type_equivalence hm (typeOf field)).refl _ (hholds this field hfield)).symm
  · rw [decide_eq_false hclass, Bool.false_and]
  · rw [decide_eq_true (not_not.mp hclass), Bool.true_and]
    exact hall

end Runs

end Values

/-! ## Agreement -/

/-- Whatever the fields of the instances hold, the generated `equals` is an equivalence, to which nothing is `null`, and
equal instances have equal generated hashes. -/
def Agree (currentClassName : String) (fields : List FieldSummary) (typeOf : FieldSummary → JavaType) : Prop :=
  ∀ {Obj Inst : Type} [DecidableEq Inst] {m : ObjectMethods Obj} {instances : Instances Obj Inst}, m.Contract →
    (∀ this, ∀ field ∈ selectEqualsHashCodeFields fields,
      Holds (typeOf field) (instances.fieldOf this field.name)) →
    ∃ (same : Inst → Inst → Bool) (hash : Inst → BitVec 32),
      (∀ this, (equalsBody currentClassName fields).run m instances this none = some false) ∧
      (∀ this other, (equalsBody currentClassName fields).run m instances this (some other) =
        some (same this other)) ∧
      (∀ this, (hashBody fields).run m instances this = some (hash this)) ∧
      HashedEquivalence (fun _ => True) same hash

theorem bodies_agree {fields : List FieldSummary} {typeOf : FieldSummary → JavaType}
    (htype : ∀ field ∈ selectEqualsHashCodeFields fields, FieldSummary.HasType field (typeOf field))
    (currentClassName : String) : Agree currentClassName fields typeOf := by
  intro Obj Inst _ m instances hm hholds
  refine ⟨_, _, fun _ => rfl, equalsBody_run instances hm htype hholds,
    fun this => hashBody_run instances htype (hholds this), ?_⟩
  exact HashedEquivalence.parts (fun field _ => type_equivalence hm (typeOf field)) instances.classOf hholds
    combineHashes

/-- The generated bodies are well typed, and agree. -/
structure Correct (currentClassName : String) (fields : List FieldSummary) (typeOf : FieldSummary → JavaType) :
    Prop where
  equals_typed : (equalsBody currentClassName fields).WellTyped fields
  hash_typed : (hashBody fields).WellTyped currentClassName fields
  agree : Agree currentClassName fields typeOf

section Generated

variable {currentClassName : String} {fields : List FieldSummary} {typeOf : FieldSummary → JavaType}

theorem typed_bodies (htype : ∀ field ∈ fields, FieldSummary.HasType field (typeOf field))
    (h : ∀ field ∈ selectEqualsHashCodeFields fields, LibraryInScope currentClassName fields (typeOf field)) :
    (equalsBody currentClassName fields).WellTyped fields ∧ (hashBody fields).WellTyped currentClassName fields := by
  have hfield : ∀ field ∈ selectEqualsHashCodeFields fields, ∀ owner,
      Typed currentClassName fields (.field owner field.name) (typeOf field) := fun field hfield owner =>
    .field (mem_of_selected hfield).1 (mem_of_selected hfield).2 (htype field (mem_of_selected hfield).1)
  constructor
  · intro e he
    obtain ⟨field, hselected, rfl⟩ := List.mem_map.mp he
    rw [(exprs_of_type (htype field (mem_of_selected hselected).1)).1]
    exact typed_equality (h field hselected) (hfield field hselected .this) (hfield field hselected .other)
  · intro e he
    obtain ⟨field, hselected, rfl⟩ := List.mem_map.mp he
    rw [(exprs_of_type (htype field (mem_of_selected hselected).1)).2]
    exact typed_hash (h field hselected) (hfield field hselected .this)

/-- The generated texts are those of bodies that are correct exactly when neither the class nor a field hides a library
class that the types of the compared fields need. -/
theorem generated_bodies_correct_iff (htype : ∀ field ∈ fields, FieldSummary.HasType field (typeOf field)) :
    buildEqualsBody currentClassName fields = (equalsBody currentClassName fields).text ∧
      buildHashCodeBody fields = (hashBody fields).text ∧
      (Correct currentClassName fields typeOf ↔
        ∀ field ∈ selectEqualsHashCodeFields fields, LibraryInScope currentClassName fields (typeOf field)) := by
  obtain ⟨hequals, hhash⟩ := generated_texts currentClassName fields
  refine ⟨hequals, hhash, ?_, ?_⟩
  · intro h field hselected
    obtain ⟨kind, -, htyped⟩ := h.hash_typed (hashExpr field) (List.mem_map_of_mem hselected)
    rw [(exprs_of_type (htype field (mem_of_selected hselected).1)).2] at htyped
    exact libraryInScope_of_typed htyped
  · intro h
    obtain ⟨hequals, hhash⟩ := typed_bodies htype h
    exact ⟨hequals, hhash, bodies_agree (fun field hselected => htype field (mem_of_selected hselected).1) _⟩

end Generated

/-- `int x; float ratio; String name;` -/
def plainFields : List FieldSummary :=
  [⟨"x", "I", 2, [], false, none⟩, ⟨"ratio", "F", 2, [], false, none⟩,
    ⟨"name", "Ljava/lang/String;", 2, [], false, none⟩]

def plainTypeOf (field : FieldSummary) : JavaType :=
  if field.name = "x" then .prim .int else if field.name = "ratio" then .prim .float else .ref "java/lang/String"

theorem generated_bodies_correct_plain : Correct "Point" plainFields plainTypeOf :=
  (@generated_bodies_correct_iff "Point" plainFields plainTypeOf (by
    intro field hfield
    simp only [plainFields, List.mem_cons, List.not_mem_nil, or_false] at hfield
    rcases hfield with rfl | rfl | rfl <;> rfl)).2.2.mpr (by
    intro field hfield
    have hmem := (mem_of_selected hfield).1
    simp only [plainFields, List.mem_cons, List.not_mem_nil, or_false] at hmem
    rcases hmem with rfl | rfl | rfl <;> simp [LibraryInScope, plainTypeOf, libraryName, plainFields])

/-- With the fields `int java; String name;` the name `java.util.Objects` is not that of a class. -/
theorem field_hides_java :
    let fields : List FieldSummary :=
      [⟨"java", "I", 2, [], false, none⟩, ⟨"name", "Ljava/lang/String;", 2, [], false, none⟩]
    ¬ (equalsBody "Entry" fields).WellTyped fields ∧
      buildEqualsBody "Entry" fields = "\n".intercalate ["if (this == o) return true;",
        "if (o == null || getClass() != o.getClass()) return false;", "Entry other = (Entry) o;",
        "return this.java == other.java", "        && java.util.Objects.equals(this.name, other.name);"] := by
  refine ⟨fun h => ?_, by decide +kernel⟩
  have htyped := h (.compare .objectsEquals (.field .this "name") (.field .other "name")) (by decide +kernel)
  generalize hkind : JavaType.prim .boolean = t at htyped
  cases htyped with
  | compare hpath _ _ _ => exact hpath.2 _ List.mem_cons_self rfl rfl

end JavaAnalyzer.Completion
