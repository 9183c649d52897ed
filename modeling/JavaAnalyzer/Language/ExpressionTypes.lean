import JavaAnalyzer.Language.ExpressionTyping
import JavaAnalyzer.Semantic.OverloadScore

/-! # Expression types

What the types of `ExpressionTyping` are to Java: over well typed expressions, with `var` locals, the reader
gives Java's type or none, and which of the two is decided by the operands' types. -/

namespace JavaAnalyzer.Language.ExpressionTyping
set_option autoImplicit false
open Semantic JavaOperators Text

/-! ## Java's types by name -/

def primitiveName : Primitive → String
  | .boolean => "boolean"
  | .byte => "byte"
  | .short => "short"
  | .char => "char"
  | .int => "int"
  | .long => "long"
  | .float => "float"
  | .double => "double"

def wrapperName : Primitive → String
  | .boolean => "java/lang/Boolean"
  | .byte => "java/lang/Byte"
  | .short => "java/lang/Short"
  | .char => "java/lang/Character"
  | .int => "java/lang/Integer"
  | .long => "java/lang/Long"
  | .float => "java/lang/Float"
  | .double => "java/lang/Double"

def primitives : List Primitive :=
  [.boolean, .byte, .char, .short, .int, .long, .float, .double]

theorem primitiveWrappers_eq : primitiveWrappers = primitives.map fun p => (primitiveName p, wrapperName p) := rfl

theorem mem_primitives (p : Primitive) : p ∈ primitives := by
  cases p <;> decide

theorem primitiveName_injective : Function.Injective primitiveName := by
  intro p q h
  revert h
  cases p <;> cases q <;> decide

def IsClassName (name : String) : Prop :=
  '.' ∉ name.toList ∧ '[' ∉ name.toList ∧ name ≠ "null" ∧ ∀ p ∈ primitives, primitiveName p ≠ name

instance (name : String) : Decidable (IsClassName name) :=
  inferInstanceAs (Decidable (_ ∧ _))

/-- The internal name of a class. -/
structure ClassName where
  name : String
  valid : IsClassName name
deriving DecidableEq

theorem isClassName_string : IsClassName "java/lang/String" := by
  decide

instance : ClassRoles ClassName where
  boxed c := primitives.find? fun p => wrapperName p == c.name
  string := ⟨"java/lang/String", isClassName_string⟩

abbrev JType := JavaType ClassName

def elementName : Element ClassName → String
  | .primitive p => primitiveName p
  | .null => "null"
  | .class c => c.name

theorem elementName_injective : Function.Injective elementName := by
  rintro (p | _ | c) (q | _ | d) h
  · rw [primitiveName_injective h]
  · exact absurd h (by cases p <;> decide)
  · exact absurd h (d.valid.2.2.2 p (mem_primitives p))
  · exact absurd h.symm (by cases q <;> decide)
  · rfl
  · exact absurd h.symm d.valid.2.2.1
  · exact absurd h.symm (c.valid.2.2.2 q (mem_primitives q))
  · exact absurd h c.valid.2.2.1
  · obtain ⟨name, hname⟩ := c
    obtain rfl : name = d.name := h
    rfl

theorem unboxedPrimitiveTypeName_element (e : Element ClassName) :
    unboxedPrimitiveTypeName (elementName e) = e.unboxed.map primitiveName := by
  cases e with
  | primitive p => cases p <;> decide
  | null => decide
  | «class» c =>
    have hnames : ∀ p ∈ primitives, ((fun w : String × String => w.1 == c.name || w.2 == c.name) ∘
        fun p => (primitiveName p, wrapperName p)) p = (wrapperName p == c.name) := by
      intro p hp
      rw [Function.comp_apply, beq_false_of_ne (c.valid.2.2.2 p hp), Bool.false_or]
    rw [unboxedPrimitiveTypeName, elementName, normalizedName_eq c.valid.1, primitiveWrappers_eq, List.find?_map,
      List.find?_congr hnames, Option.map_map]
    rfl

/-! ## Types read as Java's -/

/-- A type of the source stands for a type of Java. Type arguments are left open. -/
structure Denotes (ty : TypeName) (t : JType) : Prop where
  one : ty.kind ≠ .intersection
  base : ty.baseInternal = elementName t.element
  dims : ty.arrayDims = t.dims
  primitive : ty.isPrimitive = t.element.isPrimitive

section

variable {ty left right : TypeName} {t L R T : JType}

theorem Denotes.erased (h : Denotes ty t) : ty.erasedInternal = elementName t.element := by
  obtain ⟨base, kind, args, dims⟩ := ty
  cases kind
  case intersection => exact absurd rfl h.one
  all_goals exact h.base

theorem Denotes.erased_with_arrays (h : Denotes ty t) :
    ty.erasedInternalWithArrays = (elementName t.element).toList ++ TypeName.dimsText t.dims := by
  rw [← h.base, ← h.dims]
  obtain ⟨base, kind, args, dims⟩ := ty
  cases kind
  case intersection => exact absurd rfl h.one
  all_goals rfl

theorem denotes_primitive (p : Primitive) : Denotes (TypeName.new (primitiveName p)) (.primitive p) := by
  cases p <;> exact ⟨by decide, by decide, by decide, by decide⟩

theorem denotes_string : Denotes (TypeName.new "java/lang/String") stringType :=
  ⟨by decide, by decide, by decide, by decide⟩

theorem denotes_null : Denotes (TypeName.new "null") ⟨.null, 0⟩ :=
  ⟨by decide, by decide, by decide, by decide⟩

theorem bracket_free (e : Element ClassName) : '[' ∉ (elementName e).toList := by
  cases e with
  | primitive p => cases p <;> decide
  | null => decide
  | «class» c => exact c.valid.2.1

/-- The texts tell the types apart. -/
theorem Denotes.text_eq_iff (hl : Denotes left L) (hr : Denotes right R) :
    left.erasedInternalWithArrays = right.erasedInternalWithArrays ↔ L = R := by
  rw [hl.erased_with_arrays, hr.erased_with_arrays]
  constructor
  · intro h
    have hno : ∀ e : Element ClassName, ¬ ['[', ']'] <:+ (elementName e).toList :=
      fun e hsuffix => bracket_free e (hsuffix.mem (by simp))
    obtain ⟨hdims, hname⟩ := dims_inj (hno L.element) (hno R.element) h
    obtain ⟨element, dims⟩ := L
    obtain ⟨element', dims'⟩ := R
    obtain rfl : dims = dims' := hdims
    obtain rfl := elementName_injective (String.toList_inj.mp hname)
    rfl
  · rintro rfl
    rfl

end

/-! ## Promotion by name -/

/-- The primitive that a name stands for, when it is one of some. -/
def unboxedWhen (test : Primitive → Bool) (e : Element ClassName) : Option Primitive :=
  e.unboxed.filter test

theorem bind_unboxed {f : String → String → Option String} {test : Primitive → Bool}
    {result : Primitive → Primitive → Primitive}
    (hf : ∀ p q, f (primitiveName p) (primitiveName q) =
      if test p && test q then some (primitiveName (result p q)) else none) (left right : Element ClassName) :
    ((unboxedPrimitiveTypeName (elementName left)).bind fun l =>
        (unboxedPrimitiveTypeName (elementName right)).bind (f l)) =
      (unboxedWhen test left).bind fun p => (unboxedWhen test right).map fun q => primitiveName (result p q) := by
  rw [unboxedPrimitiveTypeName_element, unboxedPrimitiveTypeName_element, unboxedWhen, unboxedWhen]
  cases left.unboxed with
  | none => rfl
  | some p =>
    cases right.unboxed with
    | none => cases (some p).filter test <;> rfl
    | some q =>
      rw [Option.map_some, Option.map_some, Option.bind_some, Option.bind_some, hf p q]
      cases hp : test p <;> cases hq : test q <;> simp [Option.filter, hp, hq]

theorem promotedNumericResultTypeName_eq (left right : Element ClassName) :
    promotedNumericResultTypeName (elementName left) (elementName right) =
      (unboxedWhen Primitive.isNumeric left).bind fun p =>
        (unboxedWhen Primitive.isNumeric right).map fun q => primitiveName (p.join q) :=
  bind_unboxed (fun p q => by cases p <;> cases q <;> rfl) left right

theorem promotedIntegralResultTypeName_eq (left right : Element ClassName) :
    promotedIntegralResultTypeName (elementName left) (elementName right) =
      (unboxedWhen Primitive.isIntegral left).bind fun p =>
        (unboxedWhen Primitive.isIntegral right).map fun q => primitiveName (p.join q) :=
  bind_unboxed (fun p q => by cases p <;> cases q <;> rfl) left right

theorem promotedShiftResultTypeName_eq (left right : Element ClassName) :
    promotedShiftResultTypeName (elementName left) (elementName right) =
      (unboxedWhen Primitive.isIntegral left).bind fun p =>
        (unboxedWhen Primitive.isIntegral right).map fun _ => primitiveName p.promoted := by
  have hnames : ∀ p q, (fun left right =>
      let integral := ["byte", "short", "char", "int", "long"]
      if left ∉ integral ∨ right ∉ integral then none
      else if left = "long" then some "long"
      else some "int") (primitiveName p) (primitiveName q) =
        if p.isIntegral && q.isIntegral then some (primitiveName p.promoted) else none := by
    intro p q
    cases p <;> cases q <;> rfl
  exact bind_unboxed hnames left right

theorem promotedUnaryIntegralResultTypeName_eq (e : Element ClassName) :
    promotedUnaryIntegralResultTypeName (elementName e) =
      (unboxedWhen Primitive.isIntegral e).map fun p => primitiveName p.promoted := by
  rw [promotedUnaryIntegralResultTypeName, unboxedPrimitiveTypeName_element, unboxedWhen]
  cases e.unboxed with
  | none => rfl
  | some p => cases p <;> rfl

theorem unaryNumericResultTypeName_eq (e : Element ClassName) :
    unaryNumericResultTypeName (elementName e) =
      (unboxedWhen Primitive.isNumeric e).map fun p => primitiveName p.promoted := by
  rw [unaryNumericResultTypeName, unboxedPrimitiveTypeName_element, unboxedWhen]
  cases e.unboxed with
  | none => rfl
  | some p => cases p <;> rfl

/-! ## Operators -/

section

variable {ty left right : TypeName} {t L R T : JType}

theorem unboxedWhen_of_type {test : Primitive → Bool} {p : Primitive} (h : t.unboxed.filter test = some p) :
    unboxedWhen test t.element = some p := by
  rw [JavaType.unboxed] at h
  split_ifs at h
  · exact h
  · cases h

theorem arithmetic_reads (hl : Denotes left L) (hr : Denotes right R) (h : arithmeticType L R = some T) :
    ∃ ty, numericBinaryResultType left right = some ty ∧ Denotes ty T := by
  obtain ⟨p, hp, h⟩ := Option.bind_eq_some_iff.mp h
  obtain ⟨q, hq, rfl⟩ := Option.map_eq_some_iff.mp h
  refine ⟨_, ?_, denotes_primitive (p.join q)⟩
  rw [numericBinaryResultType, hl.erased, hr.erased, promotedNumericResultTypeName_eq, unboxedWhen_of_type hp,
    unboxedWhen_of_type hq]
  rfl

theorem shift_reads (hl : Denotes left L) (hr : Denotes right R) (h : shiftType L R = some T) :
    ∃ ty, shiftBinaryResultType left right = some ty ∧ Denotes ty T := by
  obtain ⟨p, hp, h⟩ := Option.bind_eq_some_iff.mp h
  obtain ⟨q, hq, rfl⟩ := Option.map_eq_some_iff.mp h
  refine ⟨_, ?_, denotes_primitive p.promoted⟩
  rw [shiftBinaryResultType, hl.erased, hr.erased, promotedShiftResultTypeName_eq, unboxedWhen_of_type hp,
    unboxedWhen_of_type hq]
  rfl

/-- The answer about an expression of type `t`: that type if the reader reads the expression, else none. -/
def Answers (reads : Bool) (result : Option TypeName) (t : JType) : Prop :=
  if reads then ∃ ty, result = some ty ∧ Denotes ty t else result = none

theorem Answers.bind {reads reads' : Bool} {result : Option TypeName} {f : TypeName → Option TypeName}
    (h : Answers reads result t) (hf : ∀ ty, Denotes ty t → Answers reads' (f ty) T) :
    Answers (reads && reads') (result.bind f) T := by
  cases reads with
  | false =>
    rw [show result = none from h]
    rfl
  | true =>
    obtain ⟨ty, rfl, hty⟩ := h
    exact hf ty hty

theorem Denotes.boolean_iff (h : Denotes ty t) : ty.erasedInternal = "boolean" ↔ t.element = .primitive .boolean := by
  rw [h.erased]
  exact elementName_injective.eq_iff (b := .primitive .boolean)

theorem Denotes.null_iff (h : Denotes ty t) : ty.erasedInternal = "null" ↔ t.element = .null := by
  rw [h.erased]
  exact elementName_injective.eq_iff (b := .null)

/-- Of the types with a boolean value, the primitive one. -/
theorem primitive_iff_of_boolean (h : t.isBoolean = true) :
    t.isPrimitive = true ↔ t.element = .primitive .boolean := by
  have hunboxed : t.unboxed = some .boolean := of_decide_eq_true h
  rw [JavaType.unboxed] at hunboxed
  split_ifs at hunboxed with hdims
  rw [JavaType.isPrimitive, hdims]
  cases helement : t.element with
  | primitive p =>
    rw [helement] at hunboxed
    obtain rfl := Option.some.inj hunboxed
    simp [Element.isPrimitive]
  | null => simp [Element.isPrimitive]
  | «class» c => simp [Element.isPrimitive]

/-- `!` is read of the primitive type only. -/
def readsUnary (op : UnaryOperator) (operand : JType) : Bool :=
  match op with
  | .not => operand.isPrimitive
  | _ => true

/-- A comparison is not read when just one side is made of primitives, unless the other is `null` or boxes a
number. -/
def readsEquality (left right : JType) : Bool :=
  left.element = .null || right.element = .null ||
    left.element = .primitive .boolean && right.element = .primitive .boolean ||
    (unboxedWhen Primitive.isNumeric left.element).isSome && (unboxedWhen Primitive.isNumeric right.element).isSome ||
    !left.element.isPrimitive && !right.element.isPrimitive

def readsBinary (op : BinaryOperator) (left right : JType) : Bool :=
  match op with
  | .equal | .notEqual => readsEquality left right
  | .andAlso | .orElse => left.isPrimitive && right.isPrimitive
  | .and | .or | .xor => !left.isBoolean || left.isPrimitive && right.isPrimitive
  | _ => true

/-- Neither a boolean beside a boxed one nor `null` beside an array of primitives is read. -/
def readsConditional (left right : JType) : Bool :=
  if left = right then true
  else if left.element = .null then !right.element.isPrimitive
  else if right.element = .null then !left.element.isPrimitive
  else !left.isBoolean

theorem answers_some {result : Option TypeName} (h : ∃ ty, result = some ty ∧ Denotes ty T) : Answers true result T :=
  h

theorem unary_answers (op : UnaryOperator) (h : Denotes ty t) (ht : unaryType op t = some T) :
    Answers (readsUnary op t) (unaryResultType op ty) T := by
  cases op with
  | plus | minus =>
    obtain ⟨p, hp, rfl⟩ := Option.map_eq_some_iff.mp ht
    refine answers_some ⟨_, ?_, denotes_primitive p.promoted⟩
    rw [unaryResultType, h.erased, unaryNumericResultTypeName_eq, unboxedWhen_of_type hp]
    rfl
  | complement =>
    obtain ⟨p, hp, rfl⟩ := Option.map_eq_some_iff.mp ht
    refine answers_some ⟨_, ?_, denotes_primitive p.promoted⟩
    rw [unaryResultType, h.erased, promotedUnaryIntegralResultTypeName_eq, unboxedWhen_of_type hp]
    rfl
  | not =>
    rw [unaryType] at ht
    split_ifs at ht with hbool
    cases ht
    rw [readsUnary, unaryResultType, Answers]
    have hiff := h.boolean_iff.trans (primitive_iff_of_boolean hbool).symm
    split_ifs with hread herased herased
    · exact ⟨_, rfl, denotes_primitive .boolean⟩
    · exact absurd (hiff.mpr hread) herased
    · exact absurd (hiff.mp herased) hread
    · rfl

theorem map_joined (p q : Option Primitive) :
    (p.bind fun p => q.map fun q => primitiveName (p.join q)).map TypeName.new =
      p.bind fun p => q.map fun q => TypeName.new (primitiveName (p.join q)) := by
  cases p with
  | none => rfl
  | some p => rw [Option.bind_some, Option.bind_some, Option.map_map]; rfl

theorem numericBinaryResultType_eq (hl : Denotes left L) (hr : Denotes right R) :
    numericBinaryResultType left right = (unboxedWhen Primitive.isNumeric L.element).bind fun p =>
      (unboxedWhen Primitive.isNumeric R.element).map fun q => TypeName.new (primitiveName (p.join q)) := by
  rw [numericBinaryResultType, hl.erased, hr.erased, promotedNumericResultTypeName_eq, map_joined]

theorem numericBinary_isSome (hl : Denotes left L) (hr : Denotes right R) :
    (numericBinaryResultType left right).isSome = ((unboxedWhen Primitive.isNumeric L.element).isSome &&
      (unboxedWhen Primitive.isNumeric R.element).isSome) := by
  rw [numericBinaryResultType_eq hl hr]
  cases unboxedWhen Primitive.isNumeric L.element <;> cases unboxedWhen Primitive.isNumeric R.element <;> rfl

theorem equalityResultType_eq (hl : Denotes left L) (hr : Denotes right R) :
    equalityResultType left right = if readsEquality L R then some (TypeName.new "boolean") else none := by
  have hnull : (Element.null : Element ClassName).isPrimitive = false := rfl
  simp only [equalityResultType, hl.null_iff, hr.null_iff, hl.boolean_iff, hr.boolean_iff,
    numericBinary_isSome hl hr, hl.primitive, hr.primitive, readsEquality]
  by_cases hleft : L.element = .null
  · simp [hleft, hnull]
  by_cases hright : R.element = .null
  · simp [hright, hnull]
  by_cases hboolean : L.element = .primitive .boolean ∧ R.element = .primitive .boolean
  · simp [hboolean]
  by_cases hp : (unboxedWhen Primitive.isNumeric L.element).isSome = true <;>
    by_cases hq : (unboxedWhen Primitive.isNumeric R.element).isSome = true <;>
      simp [hleft, hright, hboolean, hp, hq]

theorem equality_answers (hl : Denotes left L) (hr : Denotes right R) :
    Answers (readsEquality L R) (equalityResultType left right) (.primitive .boolean) := by
  rw [equalityResultType_eq hl hr, Answers]
  split_ifs
  · exact ⟨_, rfl, denotes_primitive .boolean⟩
  · rfl

/-- Between booleans the source has a result for the primitive ones. -/
theorem both_boolean_iff (hl : Denotes left L) (hr : Denotes right R) (hL : L.isBoolean = true)
    (hR : R.isBoolean = true) :
    (left.erasedInternal = "boolean" ∧ right.erasedInternal = "boolean") ↔
      (L.isPrimitive && R.isPrimitive) = true := by
  rw [hl.boolean_iff, hr.boolean_iff, Bool.and_eq_true, primitive_iff_of_boolean hL, primitive_iff_of_boolean hR]

theorem logical_answers (hl : Denotes left L) (hr : Denotes right R) (hL : L.isBoolean = true)
    (hR : R.isBoolean = true) :
    Answers (L.isPrimitive && R.isPrimitive) (logicalResultType left right) (.primitive .boolean) := by
  rw [logicalResultType, Answers]
  have hiff := both_boolean_iff hl hr hL hR
  split_ifs with hread herased herased
  · exact ⟨_, rfl, denotes_primitive .boolean⟩
  · exact absurd (hiff.mpr hread) herased
  · exact absurd (hiff.mp herased) hread
  · rfl

theorem integralBinaryResultType_eq (hl : Denotes left L) (hr : Denotes right R) :
    integralBinaryResultType left right = (unboxedWhen Primitive.isIntegral L.element).bind fun p =>
      (unboxedWhen Primitive.isIntegral R.element).map fun q => TypeName.new (primitiveName (p.join q)) := by
  rw [integralBinaryResultType, hl.erased, hr.erased, promotedIntegralResultTypeName_eq, map_joined]

theorem unboxedWhen_boolean {test : Primitive → Bool} (h : t.isBoolean = true) (htest : test .boolean = false) :
    unboxedWhen test t.element = none := by
  have hunboxed : t.unboxed = some .boolean := of_decide_eq_true h
  rw [JavaType.unboxed] at hunboxed
  split_ifs at hunboxed
  rw [unboxedWhen, hunboxed]
  simp [Option.filter, htest]

theorem bitwise_answers (hl : Denotes left L) (hr : Denotes right R) (h : bitwiseType L R = some T) :
    Answers (!L.isBoolean || L.isPrimitive && R.isPrimitive) (bitwiseResultType left right) T := by
  rw [bitwiseType] at h
  split_ifs at h with hboth
  · cases h
    obtain ⟨hL, hR⟩ := Bool.and_eq_true_iff.mp hboth
    have hlogical := logical_answers hl hr hL hR
    rw [hL, Bool.not_true, Bool.false_or, bitwiseResultType, integralBinaryResultType_eq hl hr,
      unboxedWhen_boolean hL rfl]
    exact hlogical
  · obtain ⟨p, hp, h⟩ := Option.bind_eq_some_iff.mp h
    obtain ⟨q, hq, rfl⟩ := Option.map_eq_some_iff.mp h
    have hL : L.isBoolean = false := by
      by_contra hL
      rw [Bool.not_eq_false] at hL
      exact Option.some_ne_none p ((unboxedWhen_of_type hp).symm.trans (unboxedWhen_boolean hL rfl))
    have herased : ¬ (left.erasedInternal = "boolean" ∧ right.erasedInternal = "boolean") := by
      rw [hl.boolean_iff]
      rintro ⟨helement, -⟩
      have hp := unboxedWhen_of_type hp
      rw [helement] at hp
      cases hp
    rw [hL, Bool.not_false, Bool.true_or, bitwiseResultType, if_neg herased, integralBinaryResultType_eq hl hr,
      unboxedWhen_of_type hp, unboxedWhen_of_type hq]
    exact ⟨_, rfl, denotes_primitive (p.join q)⟩

theorem Denotes.string_of_number {p : Primitive} (h : Denotes ty t) (hp : t.numeric = some p) :
    isStringType ty = false := by
  have hunboxed := unboxedWhen_of_type hp
  rw [isStringType, h.erased, beq_eq_false_iff_ne]
  intro herased
  rw [@elementName_injective t.element (.class ClassRoles.string) herased] at hunboxed
  cases hunboxed

theorem binary_answers (op : BinaryOperator) (hl : Denotes left L) (hr : Denotes right R)
    (h : binaryType op L R = some T) : Answers (readsBinary op L R) (binaryResultType left right op) T := by
  cases op with
  | add =>
    rw [binaryType] at h
    rw [binaryResultType]
    split_ifs at h with hstring
    · cases h
      have htext : (isStringType left || isStringType right) = true := by
        rw [Bool.or_eq_true]
        refine hstring.imp (fun hL => ?_) fun hR => ?_
        · rw [isStringType, hl.erased, hL]
          rfl
        · rw [isStringType, hr.erased, hR]
          rfl
      rw [if_pos htext]
      exact ⟨_, rfl, denotes_string⟩
    · obtain ⟨p, hp, hq⟩ := Option.bind_eq_some_iff.mp h
      obtain ⟨q, hq, -⟩ := Option.map_eq_some_iff.mp hq
      rw [hl.string_of_number hp, hr.string_of_number hq]
      exact answers_some (arithmetic_reads hl hr h)
  | sub | mul | div | rem => exact answers_some (arithmetic_reads hl hr h)
  | less | lessEqual | greater | greaterEqual =>
    obtain ⟨t, ht, rfl⟩ := Option.map_eq_some_iff.mp h
    obtain ⟨ty, hty, -⟩ := arithmetic_reads hl hr ht
    rw [binaryResultType, hty]
    exact ⟨_, rfl, denotes_primitive .boolean⟩
  | equal | notEqual =>
    rw [binaryType] at h
    split_ifs at h
    cases h
    exact equality_answers hl hr
  | andAlso | orElse =>
    rw [binaryType] at h
    split_ifs at h with hboth
    cases h
    obtain ⟨hL, hR⟩ := Bool.and_eq_true_iff.mp hboth
    exact logical_answers hl hr hL hR
  | and | or | xor => exact bitwise_answers hl hr h
  | shiftLeft | shiftRight | unsignedShiftRight => exact answers_some (shift_reads hl hr h)

/-- One class boxes a primitive. -/
theorem boxed_injective {c d : ClassName} {p : Primitive} (hc : ClassRoles.boxed c = some p)
    (hd : ClassRoles.boxed d = some p) : c = d := by
  have hname : ∀ c : ClassName, ClassRoles.boxed c = some p → c.name = wrapperName p := by
    intro c hc
    have hfind : primitives.find? (fun p => wrapperName p == c.name) = some p := hc
    have hwrapper := List.find?_some hfind
    exact (beq_iff_eq.mp hwrapper).symm
  obtain ⟨name, hvalid⟩ := c
  obtain ⟨name', hvalid'⟩ := d
  obtain rfl : name = name' := (hname _ hc).trans (hname _ hd).symm
  rfl

/-- Of two different types with a boolean value, one is primitive. -/
theorem one_primitive_of_boolean (hL : L.isBoolean = true) (hR : R.isBoolean = true) (hne : L ≠ R) :
    (!L.element.isPrimitive && !R.element.isPrimitive) = false := by
  have hunboxed : ∀ t : JType, t.isBoolean = true → t.dims = 0 ∧ t.element.unboxed = some .boolean := by
    intro t ht
    have hunboxed : t.unboxed = some .boolean := of_decide_eq_true ht
    rw [JavaType.unboxed] at hunboxed
    split_ifs at hunboxed with hdims
    exact ⟨hdims, hunboxed⟩
  obtain ⟨element, dims⟩ := L
  obtain ⟨element', dims'⟩ := R
  obtain ⟨rfl, hL⟩ := hunboxed _ hL
  obtain ⟨rfl, hR⟩ := hunboxed _ hR
  cases element with
  | primitive p => rfl
  | null => cases hL
  | «class» c =>
    cases element' with
    | primitive p => rfl
    | null => cases hR
    | «class» d =>
      obtain rfl := boxed_injective hL hR
      exact absurd rfl hne

theorem ternaryResultType_of_ne (hl : Denotes left L) (hr : Denotes right R) (hne : L ≠ R) :
    ternaryResultType left right =
      if L.element = .null ∧ R.element.isPrimitive = false then some right
      else if R.element = .null ∧ L.element.isPrimitive = false then some left
      else ((unboxedWhen Primitive.isNumeric L.element).bind fun p =>
          (unboxedWhen Primitive.isNumeric R.element).map fun q => TypeName.new (primitiveName (p.join q))).or
        (if !L.element.isPrimitive && !R.element.isPrimitive then some left else none) := by
  rw [ternaryResultType, if_neg (mt (hl.text_eq_iff hr).mp hne), ← numericBinaryResultType_eq hl hr]
  simp only [hl.null_iff, hr.null_iff, hl.primitive, hr.primitive, Bool.not_eq_true']
  cases numericBinaryResultType left right <;> rfl

theorem numeric_of_promoted {p : Primitive} (h : t.unboxed.filter Primitive.isPromoted = some p) :
    t.numeric = some p ∧ t.isBoolean = false := by
  obtain ⟨hunboxed, hpromoted⟩ := Option.filter_eq_some_iff.mp h
  rw [JavaType.numeric, JavaType.isBoolean, hunboxed]
  cases p <;> simp_all [Primitive.isPromoted, Primitive.isNumeric, Option.filter]

theorem conditional_answers (hl : Denotes left L) (hr : Denotes right R) (h : conditionalType L R = some T) :
    Answers (readsConditional L R) (ternaryResultType left right) T := by
  rw [conditionalType] at h
  by_cases hsame : L = R
  · rw [if_pos hsame] at h
    cases h
    rw [readsConditional, if_pos hsame, ternaryResultType, if_pos ((hl.text_eq_iff hr).mpr hsame)]
    exact ⟨left, rfl, hl⟩
  rw [if_neg hsame] at h
  rw [readsConditional, if_neg hsame, ternaryResultType_of_ne hl hr hsame, Answers]
  have hnotNull : ∀ t : JType, ∀ test, (∃ p, unboxedWhen test t.element = some p) → t.element ≠ .null := by
    rintro t test ⟨p, hp⟩ helement
    rw [helement] at hp
    cases hp
  split_ifs at h with hleft hright hboolean
  · cases h
    obtain ⟨hnull, -⟩ := Bool.and_eq_true_iff.mp hleft
    rw [decide_eq_true_iff] at hnull
    cases hp : R.element.isPrimitive with
    | false => simpa [hnull, hp] using hr
    | true =>
      have hright : R.element ≠ .null := by
        intro helement
        rw [helement] at hp
        cases hp
      simp [hnull, hright, unboxedWhen, Element.unboxed]
  · cases h
    obtain ⟨hnull, -⟩ := Bool.and_eq_true_iff.mp hright
    rw [decide_eq_true_iff] at hnull
    have hL : L.element ≠ .null := by
      intro helement
      refine hleft ?_
      rw [helement, JavaType.isPrimitive, hnull]
      simp [Element.isPrimitive]
    cases hp : L.element.isPrimitive with
    | false => simpa [hnull, hL, hp] using hl
    | true => simp [hnull, hL, unboxedWhen, Element.unboxed]
  · cases h
    obtain ⟨hL, hR⟩ := Bool.and_eq_true_iff.mp hboolean
    have hone := one_primitive_of_boolean hL hR hsame
    have hnull : ∀ t : JType, t.isBoolean = true → t.element ≠ .null := by
      intro t ht helement
      have hunboxed : t.unboxed = some .boolean := of_decide_eq_true ht
      rw [JavaType.unboxed, helement] at hunboxed
      split_ifs at hunboxed
      cases hunboxed
    simp [hnull L hL, hnull R hR, hL, unboxedWhen_boolean hL, Primitive.isNumeric, hone]
  · obtain ⟨p, hp, h⟩ := Option.bind_eq_some_iff.mp h
    obtain ⟨q, hq, rfl⟩ := Option.map_eq_some_iff.mp h
    obtain ⟨hnumeric, hL⟩ := numeric_of_promoted hp
    have hp := unboxedWhen_of_type hnumeric
    have hq := unboxedWhen_of_type (numeric_of_promoted hq).1
    simp only [hnotNull L _ ⟨p, hp⟩, hnotNull R _ ⟨q, hq⟩, hL, hp, hq]
    exact ⟨_, rfl, denotes_primitive (p.join q)⟩

end

/-! ## Literals -/

/-- The text of a number: no blanks, a digit or a dot in front, no `_` at the end. -/
def isNumeral (text : List Char) : Bool :=
  text.head?.any (fun c => c.isDigit || c == '.') && text.all (fun c => !isWhitespace c) && text.getLast? != some '_'

def integerLiteralType (text : String) : Option JType :=
  if isNumeral text.toList then
    some (.primitive (if text.toList.getLast? = some 'l' ∨ text.toList.getLast? = some 'L' then .long else .int))
  else none

def floatingPointLiteralType (text : String) : Option JType :=
  if isNumeral text.toList then
    some (.primitive (if text.toList.getLast? = some 'f' ∨ text.toList.getLast? = some 'F' then .float else .double))
  else none

/-- Without its underscores a number ends as before, and a letter at the end has something before it. -/
theorem sanitized_numeral {text : List Char} (h : isNumeral text = true) :
    ∃ front last, text.getLast? = some last ∧ (trim text).filter (· ≠ '_') = front ++ [last] ∧
      (last.isDigit = false → last ≠ '.' → front ≠ []) := by
  simp only [isNumeral, Bool.and_eq_true, bne_iff_ne, List.all_eq_true, Bool.not_eq_true', Option.any_eq_true,
    Bool.or_eq_true, beq_iff_eq] at h
  obtain ⟨⟨⟨first, hfirst, hstart⟩, hblank⟩, hlast⟩ := h
  have hsolid : Solid text :=
    ⟨fun hnil => (by rw [hnil] at hfirst; cases hfirst), fun c hc => hblank c (List.mem_of_mem_head? hc),
      fun c hc => hblank c (List.mem_of_mem_getLast? hc)⟩
  rw [hsolid.trim_eq]
  obtain rfl | ⟨front, last, htext⟩ := List.eq_nil_or_concat text
  · cases hfirst
  obtain rfl : text = front ++ [last] := htext.trans List.concat_eq_append
  rw [List.getLast?_concat] at hlast
  have hkeep : last ≠ '_' := fun heq => hlast (congrArg some heq)
  refine ⟨front.filter (· ≠ '_'), last, List.getLast?_concat, ?_, fun hdigit hdot => ?_⟩
  · rw [List.filter_append]
    simp [hkeep]
  · cases front with
    | nil =>
      obtain rfl : last = first := Option.some.inj hfirst
      rcases hstart with hstart | hstart
      · exact absurd hstart (by rw [hdigit]; exact Bool.false_ne_true)
      · exact absurd hstart hdot
    | cons c rest =>
      obtain rfl : c = first := Option.some.inj hfirst
      have hc : c ≠ '_' := by
        rintro rfl
        revert hstart
        decide
      simp [hc]

theorem integerLiteral_reads {text : String} {t : JType} (h : integerLiteralType text = some t) :
    ∃ ty, resolveIntegerLiteralType text = some ty ∧ Denotes ty t := by
  obtain ⟨hnumeral, ht⟩ := Option.ite_none_right_eq_some.mp h
  obtain rfl := Option.some.inj ht
  obtain ⟨front, last, hlast, hclean, hfront⟩ := sanitized_numeral hnumeral
  have hne : front ++ [last] ≠ [] := List.append_ne_nil_of_right_ne_nil front (List.cons_ne_nil last [])
  rw [resolveIntegerLiteralType, hclean, if_neg hne, hlast, List.getLast?_concat, List.dropLast_concat]
  by_cases hlong : some last ∈ [some 'l', some 'L']
  · have hletter : last.isDigit = false ∧ last ≠ '.' := by
      simp only [List.mem_cons, Option.some.injEq, List.not_mem_nil, or_false] at hlong
      rcases hlong with rfl | rfl <;> decide
    rw [if_pos ⟨hlong, hfront hletter.1 hletter.2⟩, if_pos (List.mem_pair.mp hlong)]
    exact ⟨_, rfl, denotes_primitive .long⟩
  · rw [if_neg fun hand => hlong hand.1, if_neg (mt List.mem_pair.mpr hlong)]
    exact ⟨_, rfl, denotes_primitive .int⟩

theorem floatingPointLiteral_reads {text : String} {t : JType} (h : floatingPointLiteralType text = some t) :
    ∃ ty, resolveFloatingPointLiteralType text = some ty ∧ Denotes ty t := by
  obtain ⟨hnumeral, ht⟩ := Option.ite_none_right_eq_some.mp h
  obtain rfl := Option.some.inj ht
  obtain ⟨front, last, hlast, hclean, -⟩ := sanitized_numeral hnumeral
  have hne : front ++ [last] ≠ [] := List.append_ne_nil_of_right_ne_nil front (List.cons_ne_nil last [])
  rw [resolveFloatingPointLiteralType, hclean, if_neg hne, hlast, List.getLast?_concat]
  simp only [List.mem_pair]
  split_ifs
  · exact ⟨_, rfl, denotes_primitive .float⟩
  · exact ⟨_, rfl, denotes_primitive .double⟩

/-! ## Java's types -/

/-- The types of what an expression is made of. `mentions` are the locals in a chain. -/
structure Context where
  names : String → Option JType
  chains : String → Option JType
  mentions : String → List String
  creations : Creation → Option JType
  sourceTypes : String → Option JType
  others : String → Option JType

namespace Expr

/-- A name or a field, which an assignment gives a value to. -/
def isVariable : Expr → Bool
  | .parenthesized inner => inner.isVariable
  | .identifier _ | .chain _ => true
  | _ => false

variable (Γ : Context)

def names : Expr → List String
  | .parenthesized inner => inner.names
  | .identifier text => [String.ofList (trim text.toList)]
  | .assignment left right => left.names ++ right.names
  | .ternary _ consequence alternative => consequence.names ++ alternative.names
  | .unary _ operand => operand.names
  | .binary _ left right => left.names ++ right.names
  | .chain text => Γ.mentions text
  | _ => []

end Expr

section

variable (Γ : Context)

def sourceType (text : String) : Option JType :=
  match primitives.find? fun p => primitiveName p == text with
  | some p => some (.primitive p)
  | none => Γ.sourceTypes text

/-- Java's type of an expression. Casts to several types and assignments to array elements have none here. -/
def javaType : Expr → Option JType
  | .parenthesized inner => javaType inner
  | .identifier text => Γ.names (String.ofList (trim text.toList))
  | .integerLiteral text => integerLiteralType text
  | .floatingPointLiteral text => floatingPointLiteralType text
  | .booleanLiteral => some (.primitive .boolean)
  | .characterLiteral => some (.primitive .char)
  | .nullLiteral => some ⟨.null, 0⟩
  | .stringLiteral => some stringType
  | .cast [text] _ => sourceType Γ text
  | .cast _ _ => none
  | .assignment left right =>
    if left.isVariable then (javaType left).bind fun t => (javaType right).map fun _ => t else none
  | .ternary _ consequence alternative =>
    (javaType consequence).bind fun left => (javaType alternative).bind (conditionalType left)
  | .unary op operand => (javaType operand).bind (unaryType op)
  | .binary op left right => (javaType left).bind fun l => (javaType right).bind (binaryType op l)
  | .chain text => Γ.chains text
  | .creation expr => Γ.creations expr
  | .other text => Γ.others text

/-- A well typed expression that the reader has a type for. -/
def readable : Expr → Bool
  | .parenthesized inner => readable inner
  | .assignment left _ => readable left
  | .ternary _ consequence alternative =>
    readable consequence && (readable alternative &&
      ((javaType Γ consequence).bind fun left => (javaType Γ alternative).map (readsConditional left)).getD false)
  | .unary op operand => readable operand && ((javaType Γ operand).map (readsUnary op)).getD false
  | .binary op left right =>
    readable left && (readable right &&
      ((javaType Γ left).bind fun l => (javaType Γ right).map (readsBinary op l)).getD false)
  | .other _ => false
  | _ => true

end

/-- The readers of the texts are right about them, while no local that a chain mentions is being resolved. -/
structure Readers.Right (readers : Readers) (Γ : Context) : Prop where
  chain : ∀ resolving text t, (∀ name ∈ Γ.mentions text, name ∉ resolving) → Γ.chains text = some t →
    ∃ ty, readers.chain resolving text = some ty ∧ Denotes ty t
  creation : ∀ expr t, Γ.creations expr = some t → ∃ ty, readers.creation expr.text = some ty ∧ Denotes ty t
  sourceType : ∀ text t, Γ.sourceTypes text = some t →
    ∃ ty, resolveSourceTypeName readers text = some ty ∧ Denotes ty t

section

variable {Γ : Context} {readers : Readers}

theorem sourceType_reads (hreaders : readers.Right Γ) {text : String} {t : JType} (h : sourceType Γ text = some t) :
    ∃ ty, resolveSourceTypeName readers text = some ty ∧ Denotes ty t := by
  rw [sourceType] at h
  split at h
  · rename_i p hp
    cases h
    have hname := List.find?_some hp
    rw [beq_iff_eq] at hname
    subst hname
    refine ⟨_, ?_, denotes_primitive p⟩
    cases p <;> rfl
  · exact hreaders.sourceType text t h

theorem cast_reads (hreaders : readers.Right Γ) {text : String} {t : JType} (h : sourceType Γ text = some t) :
    ∃ ty, resolveCastExpressionType readers [text] = some ty ∧ Denotes ty t := by
  obtain ⟨ty, hty, hdenotes⟩ := sourceType_reads hreaders h
  refine ⟨ty, ?_, hdenotes⟩
  have hone : ty.isIntersection = false := decide_eq_false hdenotes.one
  simp [resolveCastExpressionType, hty, TypeName.intersection, hone]

theorem readable_of_isVariable {e : Expr} (h : e.isVariable = true) : readable Γ e = true := by
  induction e with
  | parenthesized inner ih => exact ih h
  | identifier text => rfl
  | chain text => rfl
  | _ => cases h

/-- One step for each kind of expression: the answer about it, from those about its parts. -/
theorem resolveAstNodeType_answers (hreaders : readers.Right Γ) {resolving : List String}
    {identifierType : String → Option TypeName} {e : Expr}
    (hnames : ∀ name ∈ e.names Γ, name ∉ resolving ∧
      ∀ t, Γ.names name = some t → ∃ ty, identifierType name = some ty ∧ Denotes ty t)
    {t : JType} (ht : javaType Γ e = some t) :
    Answers (readable Γ e) (resolveAstNodeType readers resolving identifierType e) t := by
  induction e generalizing t with
  | parenthesized inner ih => exact ih hnames ht
  | identifier text => exact (hnames _ (List.mem_singleton_self _)).2 t ht
  | integerLiteral text => exact integerLiteral_reads ht
  | floatingPointLiteral text => exact floatingPointLiteral_reads ht
  | booleanLiteral => cases ht; exact ⟨_, rfl, denotes_primitive .boolean⟩
  | characterLiteral => cases ht; exact ⟨_, rfl, denotes_primitive .char⟩
  | nullLiteral => cases ht; exact ⟨_, rfl, denotes_null⟩
  | stringLiteral => cases ht; exact ⟨_, rfl, denotes_string⟩
  | cast types value =>
    match types, ht with
    | [text], ht => exact cast_reads hreaders ht
  | assignment left right ihl ihr =>
    obtain ⟨hvariable, ht⟩ := Option.ite_none_right_eq_some.mp ht
    obtain ⟨t', ht', ht⟩ := Option.bind_eq_some_iff.mp ht
    obtain ⟨-, -, rfl⟩ := Option.map_eq_some_iff.mp ht
    have hleft := ihl (fun name hname => hnames name (List.mem_append_left _ hname)) ht'
    rw [readable_of_isVariable hvariable] at hleft
    obtain ⟨ty, hty, hdenotes⟩ := hleft
    rw [readable, readable_of_isVariable hvariable, resolveAstNodeType, hty]
    exact ⟨ty, rfl, hdenotes⟩
  | ternary condition consequence alternative _ ihl ihr =>
    obtain ⟨L, hL, ht⟩ := Option.bind_eq_some_iff.mp ht
    obtain ⟨R, hR, ht⟩ := Option.bind_eq_some_iff.mp ht
    rw [readable, hL, hR]
    refine (ihl (fun name hname => hnames name (List.mem_append_left _ hname)) hL).bind fun left hl => ?_
    exact (ihr (fun name hname => hnames name (List.mem_append_right _ hname)) hR).bind fun right hr =>
      conditional_answers hl hr ht
  | unary op operand ih =>
    obtain ⟨t', ht', ht⟩ := Option.bind_eq_some_iff.mp ht
    rw [readable, ht']
    exact (ih hnames ht').bind fun ty hty => unary_answers op hty ht
  | binary op left right ihl ihr =>
    obtain ⟨L, hL, ht⟩ := Option.bind_eq_some_iff.mp ht
    obtain ⟨R, hR, ht⟩ := Option.bind_eq_some_iff.mp ht
    rw [readable, hL, hR]
    refine (ihl (fun name hname => hnames name (List.mem_append_left _ hname)) hL).bind fun left hl => ?_
    exact (ihr (fun name hname => hnames name (List.mem_append_right _ hname)) hR).bind fun right hr =>
      binary_answers op hl hr ht
  | chain text => exact hreaders.chain resolving text t (fun name hname => (hnames name hname).1) ht
  | creation expr => exact hreaders.creation expr t ht
  | other text => rfl

end

/-! ## Locals -/

section

variable {readers : Readers} {locals : List LocalVar} {resolving : List String} {ident : String} {v : LocalVar}

theorem resolveIdentifierType_outer (hv : locals.find? (fun v => v.name = ident) = none) :
    resolveIdentifierType readers locals resolving ident = readers.name ident := by
  rw [resolveIdentifierType]
  split
  · rfl
  · simp_all

theorem resolveIdentifierType_explicit (hv : locals.find? (fun v => v.name = ident) = some v)
    (hkind : v.declKind = .explicit) :
    resolveIdentifierType readers locals resolving ident = some v.typeInternal := by
  rw [resolveIdentifierType]
  split
  · simp_all
  · rename_i w hw
    obtain rfl := Option.some.inj (hv.symm.trans hw)
    rw [dif_pos (by rw [hkind]; decide)]
    rfl

theorem resolveIdentifierType_var (hv : locals.find? (fun v => v.name = ident) = some v)
    (hkind : v.declKind = .varSyntax) {init : Source} (hinit : v.initExpr = some init)
    (hself : trim init.text.toList ≠ ident.toList) (hfree : ident ∉ resolving) {ty : TypeName}
    (hty : resolveVarInitExpr readers (ident :: resolving) (resolveIdentifierType readers locals (ident :: resolving))
      init = some ty) :
    resolveIdentifierType readers locals resolving ident = some ty := by
  rw [resolveIdentifierType]
  split
  · simp_all
  · rename_i w hw
    obtain rfl := Option.some.inj (hv.symm.trans hw)
    rw [dif_neg (by rw [hkind]; decide)]
    split
    · simp_all
    · rename_i init' hinit'
      obtain rfl := Option.some.inj (hinit.symm.trans hinit')
      have hnot : ¬ isCurrentlyResolvingVarLocal locals resolving ident = true := by
        simp [isCurrentlyResolvingVarLocal, hfree]
      rw [if_neg hself, dif_neg hnot, hty]
      rfl

/-- The locals, the latest one first, with Java's types: an initializer is well typed and readable, and mentions
of all the locals only earlier ones. -/
inductive Declared (Γ : Context) (all : List String) : List LocalVar → Prop where
  | nil : Declared Γ all []
  | explicit {v : LocalVar} {rest : List LocalVar} {t : JType} (hkind : v.declKind = .explicit)
      (ht : Γ.names v.name = some t) (hty : Denotes v.typeInternal t) (hrest : Declared Γ all rest) :
      Declared Γ all (v :: rest)
  | var {v : LocalVar} {rest : List LocalVar} {source : Source} {e : Expr} (hkind : v.declKind = .varSyntax)
      (hinit : v.initExpr = some source) (htree : source.tree = some e) (hblank : trim source.text.toList ≠ [])
      (hself : trim source.text.toList ≠ v.name.toList)
      (hnew : "new ".toList <+: trim source.text.toList →
        ∃ expr, e = .creation expr ∧ expr.text = String.ofList (trim source.text.toList))
      (ht : Γ.names v.name = javaType Γ e) (hread : readable Γ e = true)
      (hearlier : ∀ name ∈ e.names Γ, name ∈ all → name ∈ rest.map LocalVar.name) (hrest : Declared Γ all rest) :
      Declared Γ all (v :: rest)

/-- A place in a well typed program: the locals that are visible there, and readers that are right about what is
no local. -/
structure WellTyped (Γ : Context) (readers : Readers) (locals : List LocalVar) : Prop where
  right : readers.Right Γ
  distinct : (locals.map LocalVar.name).Nodup
  outer : ∀ name t, name ∉ locals.map LocalVar.name → Γ.names name = some t →
    ∃ ty, readers.name name = some ty ∧ Denotes ty t
  declared : ∃ order, order.Perm locals ∧ Declared Γ (locals.map LocalVar.name) order

theorem find_local (hdistinct : (locals.map LocalVar.name).Nodup) (hv : v ∈ locals) :
    locals.find? (fun w => w.name = v.name) = some v := by
  obtain ⟨w, hw⟩ : ∃ w, locals.find? (fun w => w.name = v.name) = some w :=
    Option.isSome_iff_exists.mp (List.find?_isSome.mpr ⟨v, hv, decide_eq_true rfl⟩)
  have hname := List.find?_some hw
  rw [hw, List.inj_on_of_nodup_map hdistinct (List.mem_of_find?_eq_some hw) hv (of_decide_eq_true hname)]

theorem creation_reads {Γ : Context} (hright : readers.Right Γ) {source : Source} {e : Expr} {t : JType}
    {identifierType : String → Option TypeName} (htree : source.tree = some e)
    (hblank : trim source.text.toList ≠ [])
    (hnew : "new ".toList <+: trim source.text.toList →
      ∃ expr, e = .creation expr ∧ expr.text = String.ofList (trim source.text.toList))
    (ht : javaType Γ e = some t)
    (hanswer : ∃ ty, resolveAstNodeType readers resolving identifierType e = some ty ∧ Denotes ty t) :
    ∃ ty, resolveVarInitExpr readers resolving identifierType source = some ty ∧ Denotes ty t := by
  rw [resolveVarInitExpr]
  split_ifs with htext
  · obtain ⟨expr, rfl, hexpr⟩ := hnew htext
    obtain ⟨ty, hty, hdenotes⟩ := hright.creation expr t ht
    exact ⟨ty, by rw [← hexpr, hty], hdenotes⟩
  · obtain ⟨ty, hty, hdenotes⟩ := hanswer
    refine ⟨ty, ?_, hdenotes⟩
    rw [resolveExpressionTypeWith, if_neg hblank, htree, Option.bind_some, hty]
    rfl

theorem WellTyped.outer_resolves {Γ : Context} (h : WellTyped Γ readers locals) {name : String} {t : JType}
    (hname : name ∉ locals.map LocalVar.name) (ht : Γ.names name = some t) :
    ∃ ty, resolveIdentifierType readers locals resolving name = some ty ∧ Denotes ty t := by
  have hnone : locals.find? (fun v => v.name = name) = none := by
    simpa using hname
  rw [resolveIdentifierType_outer hnone]
  exact h.outer name t hname ht

/-- By induction over the declarations: while no local up to here is being resolved, those up to here have Java's
types. -/
theorem Declared.resolves {Γ : Context} (h : WellTyped Γ readers locals) {order : List LocalVar}
    (hdeclared : Declared Γ (locals.map LocalVar.name) order) (hmem : ∀ v ∈ order, v ∈ locals)
    (horder : (order.map LocalVar.name).Nodup) {resolving : List String}
    (hresolving : ∀ name ∈ resolving, name ∈ locals.map LocalVar.name ∧ name ∉ order.map LocalVar.name)
    {name : String} (hname : name ∈ order.map LocalVar.name) {t : JType} (ht : Γ.names name = some t) :
    ∃ ty, resolveIdentifierType readers locals resolving name = some ty ∧ Denotes ty t := by
  have hrest : ∀ {v : LocalVar} {rest : List LocalVar} {name : String}, name ∉ (v :: rest).map LocalVar.name →
      name ∉ rest.map LocalVar.name := fun hnot hmem => hnot (List.mem_cons_of_mem _ hmem)
  induction hdeclared generalizing resolving name t with
  | nil => cases hname
  | @explicit v rest t' hkind ht' hty _ ih =>
    obtain rfl | hname := List.mem_cons.mp hname
    · rw [resolveIdentifierType_explicit (find_local h.distinct (hmem v List.mem_cons_self)) hkind]
      obtain rfl := Option.some.inj (ht'.symm.trans ht)
      exact ⟨_, rfl, hty⟩
    · exact ih (fun w hw => hmem w (List.mem_cons_of_mem v hw)) (List.nodup_cons.mp horder).2
        (fun name hname => (hresolving name hname).imp_right hrest) hname ht
  | @var v rest source e hkind hinit htree hblank hself hnew ht' hread hearlier _ ih =>
    have hmem' : ∀ w ∈ rest, w ∈ locals := fun w hw => hmem w (List.mem_cons_of_mem v hw)
    obtain ⟨hnot, horder'⟩ := List.nodup_cons.mp horder
    obtain rfl | hname := List.mem_cons.mp hname
    swap
    · exact ih hmem' horder' (fun name hname => (hresolving name hname).imp_right hrest) hname ht
    have hv : v.name ∈ locals.map LocalVar.name := List.mem_map_of_mem (hmem v List.mem_cons_self)
    have hfree : v.name ∉ resolving := fun hin => (hresolving v.name hin).2 List.mem_cons_self
    have hresolving' : ∀ name ∈ v.name :: resolving,
        name ∈ locals.map LocalVar.name ∧ name ∉ rest.map LocalVar.name := by
      intro name hin
      obtain rfl | hin := List.mem_cons.mp hin
      · exact ⟨hv, hnot⟩
      · exact (hresolving name hin).imp_right hrest
    have hnames : ∀ name ∈ e.names Γ, name ∉ v.name :: resolving ∧ ∀ t, Γ.names name = some t →
        ∃ ty, resolveIdentifierType readers locals (v.name :: resolving) name = some ty ∧ Denotes ty t := by
      intro name hmention
      by_cases hlocal : name ∈ locals.map LocalVar.name
      · have hname := hearlier name hmention hlocal
        exact ⟨fun hin => (hresolving' name hin).2 hname, fun t => ih hmem' horder' hresolving' hname⟩
      · exact ⟨fun hin => hlocal (hresolving' name hin).1, fun t => h.outer_resolves hlocal⟩
    have hanswer := resolveAstNodeType_answers h.right hnames (ht'.symm.trans ht)
    rw [hread] at hanswer
    obtain ⟨ty, hty, hdenotes⟩ := creation_reads h.right htree hblank hnew (ht'.symm.trans ht) hanswer
    exact ⟨ty, resolveIdentifierType_var (find_local h.distinct (hmem v List.mem_cons_self)) hkind hinit hself hfree
      hty, hdenotes⟩

theorem WellTyped.name_resolves {Γ : Context} (h : WellTyped Γ readers locals) {name : String} {t : JType}
    (ht : Γ.names name = some t) :
    ∃ ty, resolveIdentifierType readers locals [] name = some ty ∧ Denotes ty t := by
  obtain ⟨order, hperm, hdeclared⟩ := h.declared
  have hnames := hperm.map LocalVar.name
  by_cases hlocal : name ∈ locals.map LocalVar.name
  · exact hdeclared.resolves h (fun v hv => hperm.mem_iff.mp hv) (hnames.nodup_iff.mpr h.distinct)
      (fun name hin => by cases hin) (hnames.mem_iff.mpr hlocal) ht
  · exact h.outer_resolves hlocal ht

end

section

def sampleContext : Context where
  names name := if name = "x" then some (.primitive .int) else if name = "y" then some (.primitive .long) else none
  chains _ := none
  mentions _ := []
  creations _ := none
  sourceTypes _ := none
  others _ := none

def sampleReaders : Readers :=
  ⟨fun _ => none, fun _ _ => none, fun _ => none, fun _ => none, fun _ _ => none⟩

/-- `int x` -/
def sampleX : LocalVar :=
  ⟨"x", TypeName.new "int", .explicit, none⟩

/-- `var y = x + 1L` -/
def sampleY : LocalVar :=
  ⟨"y", TypeName.new "var", .varSyntax,
    some ⟨"x + 1L", some (.binary .add (.identifier "x") (.integerLiteral "1L"))⟩⟩

theorem sample_wellTyped : WellTyped sampleContext sampleReaders [sampleX, sampleY] where
  right := ⟨fun _ _ _ _ h => (by cases h), fun _ _ h => (by cases h), fun _ _ h => (by cases h)⟩
  distinct := by decide
  outer name t hname ht := by
    simp only [sampleX, sampleY, List.map_cons, List.map_nil, List.mem_cons, List.not_mem_nil, or_false,
      not_or] at hname
    simp [sampleContext, hname.1, hname.2] at ht
  declared := by
    refine ⟨[sampleY, sampleX], List.Perm.swap _ _ _, ?_⟩
    refine .var rfl rfl rfl (by decide) (by decide) (fun h => absurd h (by decide)) rfl rfl ?_ ?_
    · decide
    · exact .explicit rfl rfl (denotes_primitive .int) .nil

end

end JavaAnalyzer.Language.ExpressionTyping
