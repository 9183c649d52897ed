import JavaAnalyzer.Semantic.ReceiverText
import JavaAnalyzer.Semantic.ReferenceWidening

/-! # Conversions

`classify_conversion` of `semantic/types.rs`, which compares two types by their erased texts, their names as
primitives and wrappers, and the hierarchy. -/

namespace JavaAnalyzer.Semantic
set_option autoImplicit false
open Index

inductive ConversionKind where
  | identity
  | wideningPrimitive
  | narrowingPrimitive
  | boxing
  | unboxing
  | boxingWideningPrimitive
  | unboxingWideningPrimitive
  | referenceWidening
  | nullToReference
  | unknown
  | incompatible
deriving DecidableEq, Repr

structure TypeCompatibility where
  kind : ConversionKind
  score : ℤ
deriving DecidableEq, Repr

/-! ## Types -/

namespace TypeName

def null : TypeName := withKind "null" .null

def isNull (t : TypeName) : Bool :=
  t.kind = .null

def isUnknown (t : TypeName) : Bool :=
  t.kind = .unknown

/-- The text with the dimensions, `java/lang/String[]`. -/
def erasedInternalWithArrays : TypeName → List Char
  | ⟨_, .intersection, primary :: _, dims⟩ => primary.erasedInternalWithArrays ++ dimsText dims
  | ⟨base, _, _, dims⟩ => base.toList ++ dimsText dims

def isExactClass : TypeName → Bool
  | ⟨_, .intersection, primary :: _, _⟩ => primary.isExactClass
  | ⟨_, kind, _, _⟩ => kind = .internal

/-- What is left of an array type without any dimension. -/
def innermostElement (t : TypeName) : TypeName :=
  { t with arrayDims := 0 }

end TypeName

def isReferenceTypeName (t : TypeName) : Bool :=
  if t.isPrimitive then false
  else if t.kind = .intersection then true
  else t.arrayDims > 0 || t.isExactClass || t.isWildcardLike

/-! ## Names of primitives -/

/-- `replace('.', "/")` -/
def normalizedName (name : String) : String :=
  String.ofList (name.toList.map fun c => if c = '.' then '/' else c)

def primitiveWrappers : List (String × String) :=
  [("boolean", "java/lang/Boolean"), ("byte", "java/lang/Byte"), ("char", "java/lang/Character"),
    ("short", "java/lang/Short"), ("int", "java/lang/Integer"), ("long", "java/lang/Long"),
    ("float", "java/lang/Float"), ("double", "java/lang/Double")]

def primitiveWrapperTypeName (primitive : String) : Option String :=
  primitiveWrappers.lookup primitive

def unboxedPrimitiveTypeName (ty : String) : Option String :=
  (primitiveWrappers.find? fun w => w.1 == normalizedName ty || w.2 == normalizedName ty).map Prod.fst

def areBoxingCompatibleTypeNames (left right : String) : Bool :=
  left == right || primitiveWrapperTypeName (normalizedName left) == some (normalizedName right) ||
    primitiveWrapperTypeName (normalizedName right) == some (normalizedName left)

def wideningPrimitives : List (String × String) :=
  [("byte", "short"), ("byte", "int"), ("byte", "long"), ("byte", "float"), ("byte", "double"),
    ("short", "int"), ("short", "long"), ("short", "float"), ("short", "double"),
    ("char", "int"), ("char", "long"), ("char", "float"), ("char", "double"),
    ("int", "long"), ("int", "float"), ("int", "double"),
    ("long", "float"), ("long", "double"), ("float", "double")]

def isWideningPrimitiveConversion (source target : String) : Bool :=
  (source, target) ∈ wideningPrimitives

/-! ## The cascade -/

section

variable (view : IndexView) (source target : TypeName)

/-- Between names that stand for the same primitive. -/
def boxingConversion : ConversionKind :=
  if source.isPrimitive && !target.isPrimitive then .boxing
  else if !source.isPrimitive && target.isPrimitive then .unboxing
  else .identity

/-- Between names that stand for primitives. -/
def primitiveConversion (src dst : String) : ConversionKind :=
  if src = dst then boxingConversion source target
  else if isWideningPrimitiveConversion src dst then
    if source.isPrimitive && target.isPrimitive then .wideningPrimitive
    else if source.isPrimitive && !target.isPrimitive then .boxingWideningPrimitive
    else if !source.isPrimitive && target.isPrimitive then .unboxingWideningPrimitive
    else .incompatible
  else .narrowingPrimitive

def classifyConversion : ConversionKind :=
  if source.erasedInternalWithArrays = target.erasedInternalWithArrays then .identity
  else if source.isUnknown || target.isUnknown then .unknown
  else if source.isNull then
    if isReferenceTypeName target then .nullToReference else .incompatible
  else match unboxedPrimitiveTypeName source.erasedInternal, unboxedPrimitiveTypeName target.erasedInternal with
    | some src, some dst => primitiveConversion source target src dst
    | _, _ =>
      if areBoxingCompatibleTypeNames source.erasedInternal target.erasedInternal then boxingConversion source target
      else if isReferenceWidening view source target then .referenceWidening
      else .incompatible

def typeCompatibility : TypeCompatibility :=
  let kind := classifyConversion view source target
  ⟨kind, match kind with
    | .identity => 120
    | .wideningPrimitive => 95
    | .unboxingWideningPrimitive => 85
    | .unboxing | .boxing => 80
    | .boxingWideningPrimitive => 75
    | .referenceWidening => 70
    | .nullToReference => 65
    | .unknown => 0
    | .narrowingPrimitive => -20
    | .incompatible => -100⟩

variable {view source target}

/-! ## What the names decide -/

/-- Two names for the same primitive, or for primitives of which the first widens to the second, and one of
the types is primitive. -/
def PrimitiveRelated (source target : TypeName) : Prop :=
  ∃ src dst, unboxedPrimitiveTypeName source.erasedInternal = some src ∧
    unboxedPrimitiveTypeName target.erasedInternal = some dst ∧
    (src = dst ∨
      isWideningPrimitiveConversion src dst = true ∧ (source.isPrimitive = true ∨ target.isPrimitive = true))

/-- Both names stand for primitives. -/
def PrimitiveNames (source target : TypeName) : Prop :=
  (unboxedPrimitiveTypeName source.erasedInternal).isSome ∧ (unboxedPrimitiveTypeName target.erasedInternal).isSome

instance : Decidable (PrimitiveNames source target) :=
  inferInstanceAs (Decidable (_ ∧ _))

/-- The conversions of a type to itself, between primitives and wrappers. -/
def ConversionKind.OfNames (kind : ConversionKind) : Prop :=
  kind ∈ [.identity, .wideningPrimitive, .boxing, .unboxing, .boxingWideningPrimitive, .unboxingWideningPrimitive]

theorem unboxed_of_wrapper {primitive wrapper : String}
    (h : primitiveWrapperTypeName primitive = some wrapper) :
    ((primitiveWrappers.find? fun w => w.1 == primitive || w.2 == primitive).map Prod.fst) = some primitive ∧
      ((primitiveWrappers.find? fun w => w.1 == wrapper || w.2 == wrapper).map Prod.fst) = some primitive := by
  have hall : ∀ w ∈ primitiveWrappers,
      ((primitiveWrappers.find? fun v => v.1 == w.1 || v.2 == w.1).map Prod.fst) = some w.1 ∧
        ((primitiveWrappers.find? fun v => v.1 == w.2 || v.2 == w.2).map Prod.fst) = some w.1 := by decide
  obtain ⟨before, after, hlist, -⟩ := List.lookup_eq_some_iff.mp h
  exact hall (primitive, wrapper) (hlist ▸ by simp)

/-- Boxing does not relate names beyond what unboxing does. -/
theorem areBoxingCompatible_cases {left right : String} (h : areBoxingCompatibleTypeNames left right = true) :
    left = right ∨ ∃ p, unboxedPrimitiveTypeName left = some p ∧ unboxedPrimitiveTypeName right = some p := by
  simp only [areBoxingCompatibleTypeNames, Bool.or_eq_true, beq_iff_eq] at h
  rcases h with (h | h) | h
  · exact .inl h
  · exact .inr ⟨_, unboxed_of_wrapper h⟩
  · exact .inr ⟨_, (unboxed_of_wrapper h).symm⟩

theorem boxingConversion_ofNames (source target : TypeName) : (boxingConversion source target).OfNames := by
  unfold boxingConversion
  split_ifs <;> simp [ConversionKind.OfNames]

theorem PrimitiveRelated.names (h : PrimitiveRelated source target) : PrimitiveNames source target := by
  obtain ⟨src, dst, hsrc, hdst, -⟩ := h
  exact ⟨hsrc ▸ rfl, hdst ▸ rfl⟩

theorem PrimitiveNames.related (h : PrimitiveNames source target)
    (he : source.erasedInternal = target.erasedInternal) : PrimitiveRelated source target := by
  obtain ⟨src, hsrc⟩ := Option.isSome_iff_exists.mp h.1
  exact ⟨src, src, hsrc, he ▸ hsrc, .inl rfl⟩

/-- The branches of the cascade between known types. -/
inductive ConversionRule (view : IndexView) (source target : TypeName) : ConversionKind → Prop where
  | same (htext : source.erasedInternalWithArrays = target.erasedInternalWithArrays) :
      ConversionRule view source target .identity
  | null (htext : source.erasedInternalWithArrays ≠ target.erasedInternalWithArrays)
      (hnull : source.isNull = true) :
      ConversionRule view source target (if isReferenceTypeName target then .nullToReference else .incompatible)
  | names {kind : ConversionKind} (htext : source.erasedInternalWithArrays ≠ target.erasedInternalWithArrays)
      (hnull : source.isNull = false)
      (h : source.erasedInternal = target.erasedInternal ∨ PrimitiveRelated source target) (hkind : kind.OfNames) :
      ConversionRule view source target kind
  | primitives {kind : ConversionKind}
      (htext : source.erasedInternalWithArrays ≠ target.erasedInternalWithArrays) (hnull : source.isNull = false)
      (hnames : PrimitiveNames source target) (h : ¬ PrimitiveRelated source target)
      (hkind : kind = .narrowingPrimitive ∨ kind = .incompatible) : ConversionRule view source target kind
  | references (htext : source.erasedInternalWithArrays ≠ target.erasedInternalWithArrays)
      (hnull : source.isNull = false) (hnames : ¬ PrimitiveNames source target)
      (h : source.erasedInternal ≠ target.erasedInternal) :
      ConversionRule view source target
        (if isReferenceWidening view source target then .referenceWidening else .incompatible)

theorem primitiveConversion_rule (htext : source.erasedInternalWithArrays ≠ target.erasedInternalWithArrays)
    (hnull : source.isNull = false) {src dst : String}
    (hsrc : unboxedPrimitiveTypeName source.erasedInternal = some src)
    (hdst : unboxedPrimitiveTypeName target.erasedInternal = some dst) :
    ConversionRule view source target (primitiveConversion source target src dst) := by
  have hnames : PrimitiveNames source target := ⟨hsrc ▸ rfl, hdst ▸ rfl⟩
  unfold primitiveConversion
  split_ifs with he hwidening hboth hbox hunbox
  · exact .names htext hnull (.inr ⟨src, dst, hsrc, hdst, .inl he⟩) (boxingConversion_ofNames source target)
  · refine .names htext hnull (.inr ⟨src, dst, hsrc, hdst, .inr ⟨hwidening, ?_⟩⟩) (by simp [ConversionKind.OfNames])
    exact .inl (Bool.and_eq_true .. ▸ hboth).1
  · refine .names htext hnull (.inr ⟨src, dst, hsrc, hdst, .inr ⟨hwidening, ?_⟩⟩) (by simp [ConversionKind.OfNames])
    exact .inl (Bool.and_eq_true .. ▸ hbox).1
  · refine .names htext hnull (.inr ⟨src, dst, hsrc, hdst, .inr ⟨hwidening, ?_⟩⟩) (by simp [ConversionKind.OfNames])
    exact .inr (Bool.and_eq_true .. ▸ hunbox).2
  · refine .primitives htext hnull hnames ?_ (.inr rfl)
    rintro ⟨src', dst', hsrc', hdst', hrelated⟩
    obtain rfl := Option.some.inj (hsrc'.symm.trans hsrc)
    obtain rfl := Option.some.inj (hdst'.symm.trans hdst)
    rcases hrelated with hrelated | ⟨-, hprimitive⟩
    · exact he hrelated
    · cases hs : source.isPrimitive <;> cases ht : target.isPrimitive <;> simp_all
  · refine .primitives htext hnull hnames ?_ (.inl rfl)
    rintro ⟨src', dst', hsrc', hdst', hrelated⟩
    obtain rfl := Option.some.inj (hsrc'.symm.trans hsrc)
    obtain rfl := Option.some.inj (hdst'.symm.trans hdst)
    exact hrelated.elim he fun h => hwidening h.1

/-- The branches behind the names of primitives. -/
theorem referenceConversion_rule (htext : source.erasedInternalWithArrays ≠ target.erasedInternalWithArrays)
    (hnull : source.isNull = false) (hnames : ¬ PrimitiveNames source target) :
    ConversionRule view source target
      (if areBoxingCompatibleTypeNames source.erasedInternal target.erasedInternal then
        boxingConversion source target
      else if isReferenceWidening view source target then .referenceWidening
      else .incompatible) := by
  by_cases hboxing : areBoxingCompatibleTypeNames source.erasedInternal target.erasedInternal = true
  · rw [if_pos hboxing]
    rcases areBoxingCompatible_cases hboxing with he | ⟨p, hp⟩
    · exact .names htext hnull (.inl he) (boxingConversion_ofNames source target)
    · exact absurd ⟨hp.1 ▸ rfl, hp.2 ▸ rfl⟩ hnames
  · rw [if_neg hboxing]
    refine .references htext hnull hnames fun he => hboxing ?_
    rw [areBoxingCompatibleTypeNames, he, beq_self_eq_true, Bool.true_or, Bool.true_or]

theorem classifyConversion_rule (view : IndexView) (hsource : source.isUnknown = false)
    (htarget : target.isUnknown = false) :
    ConversionRule view source target (classifyConversion view source target) := by
  unfold classifyConversion
  by_cases htext : source.erasedInternalWithArrays = target.erasedInternalWithArrays
  · rw [if_pos htext]
    exact .same htext
  rw [if_neg htext, hsource, htarget, if_neg (by simp)]
  cases hnull : source.isNull with
  | true => exact .null htext hnull
  | false =>
    rw [if_neg Bool.false_ne_true]
    cases hsrc : unboxedPrimitiveTypeName source.erasedInternal with
    | none => exact referenceConversion_rule htext hnull fun h => by simp [PrimitiveNames, hsrc] at h
    | some src =>
      cases hdst : unboxedPrimitiveTypeName target.erasedInternal with
      | none => exact referenceConversion_rule htext hnull fun h => by simp [PrimitiveNames, hdst] at h
      | some dst => exact primitiveConversion_rule htext hnull hsrc hdst

namespace ConversionRule

variable {kind : ConversionKind} (h : ConversionRule view source target kind)
include h

theorem ofNames_iff : kind.OfNames ↔ source.erasedInternalWithArrays = target.erasedInternalWithArrays ∨
    source.isNull = false ∧ (source.erasedInternal = target.erasedInternal ∨ PrimitiveRelated source target) := by
  cases h with
  | same htext => exact iff_of_true (by simp [ConversionKind.OfNames]) (.inl htext)
  | null htext hnull =>
    refine iff_of_false (by split_ifs <;> simp [ConversionKind.OfNames]) ?_
    rintro (he | ⟨hfalse, -⟩)
    · exact htext he
    · exact Bool.false_ne_true (hfalse.symm.trans hnull)
  | names htext hnull hrelated hkind => exact iff_of_true hkind (.inr ⟨hnull, hrelated⟩)
  | primitives htext hnull hnames hrelated hkind =>
    refine iff_of_false (by rcases hkind with rfl | rfl <;> simp [ConversionKind.OfNames]) ?_
    rintro (he | ⟨-, he | hr⟩)
    · exact htext he
    · exact hrelated (hnames.related he)
    · exact hrelated hr
  | references htext hnull hnames hne =>
    refine iff_of_false (by split_ifs <;> simp [ConversionKind.OfNames]) ?_
    rintro (he | ⟨-, he | hr⟩)
    · exact htext he
    · exact hne he
    · exact hnames hr.names

theorem referenceWidening_iff : kind = .referenceWidening ↔
    source.erasedInternalWithArrays ≠ target.erasedInternalWithArrays ∧ source.isNull = false ∧
      source.erasedInternal ≠ target.erasedInternal ∧ ¬ PrimitiveNames source target ∧
      isReferenceWidening view source target = true := by
  cases h with
  | same htext => exact iff_of_false (by simp) fun hall => hall.1 htext
  | null htext hnull =>
    exact iff_of_false (by split_ifs <;> simp) fun hall => Bool.false_ne_true (hall.2.1.symm.trans hnull)
  | names htext hnull hrelated hkind =>
    refine iff_of_false (fun he => by simp [he, ConversionKind.OfNames] at hkind) fun hall => ?_
    rcases hrelated with he | hr
    · exact hall.2.2.1 he
    · exact hall.2.2.2.1 hr.names
  | primitives htext hnull hnames hrelated hkind =>
    exact iff_of_false (by rcases hkind with rfl | rfl <;> simp) fun hall => hall.2.2.2.1 hnames
  | references htext hnull hnames hne => simp [htext, hnull, hnames, hne]

theorem incompatible_iff (hnull : source.isNull = true) : kind = .incompatible ↔
    source.erasedInternalWithArrays ≠ target.erasedInternalWithArrays ∧ isReferenceTypeName target = false := by
  cases h with
  | same htext => simp [htext]
  | null htext _ => simp [htext]
  | names _ hfalse => exact absurd (hfalse.symm.trans hnull) Bool.false_ne_true
  | primitives _ hfalse => exact absurd (hfalse.symm.trans hnull) Bool.false_ne_true
  | references _ hfalse => exact absurd (hfalse.symm.trans hnull) Bool.false_ne_true

end ConversionRule

/-! ## Arrays and the null type -/

/-- What a conversion of this kind may be between arrays, and from the null type. -/
structure RespectsArraysAndNull (view : IndexView) (source target : TypeName) (kind : ConversionKind) : Prop where
  dimensions : source.arrayDims ≠ target.arrayDims → ¬ kind.OfNames
  elements : source.arrayDims = target.arrayDims → 0 < source.arrayDims → kind = .referenceWidening →
    isReferenceWidening view source.innermostElement target.innermostElement = true
  same_primitive : source.arrayDims = target.arrayDims → 0 < source.arrayDims → source.isPrimitive = true →
    target.isPrimitive = true → source.baseInternal = target.baseInternal → kind = .identity
  null_reference : source.isNull = true → target.isPrimitive = false ∨ 0 < target.arrayDims → kind ≠ .incompatible
  null_primitive : source.isNull = true → target.isPrimitive = true → target.arrayDims = 0 → kind = .incompatible

/-- The pairs of types that do not reach one of the cascade's shortcuts: names that decide although the
dimensions differ, dimensions that decide for elements that are not related, and a target that is an array of
primitives, a type variable or a source name for the null type. -/
structure AvoidsShortcuts (view : IndexView) (source target : TypeName) : Prop where
  dimensions : source.arrayDims ≠ target.arrayDims →
    source.erasedInternalWithArrays ≠ target.erasedInternalWithArrays ∧
      (source.isNull = true ∨
        source.erasedInternal ≠ target.erasedInternal ∧ ¬ PrimitiveRelated source target)
  elements : source.arrayDims = target.arrayDims → 0 < source.arrayDims → source.isNull = false →
    source.erasedInternalWithArrays ≠ target.erasedInternalWithArrays →
    source.erasedInternal ≠ target.erasedInternal → ¬ PrimitiveNames source target →
    isReferenceWidening view source.innermostElement target.innermostElement = true
  null : source.isNull = true →
    if target.isPrimitive = true ∧ target.arrayDims = 0 then
      source.erasedInternalWithArrays ≠ target.erasedInternalWithArrays
    else
      source.erasedInternalWithArrays = target.erasedInternalWithArrays ∨ isReferenceTypeName target = true

theorem isReferenceWidening_equal_dims (he : source.arrayDims = target.arrayDims) (hpos : 0 < source.arrayDims) :
    isReferenceWidening view source target = true := by
  simp [isReferenceWidening, he, he ▸ hpos]

theorem erasedInternalWithArrays_primitive {t : TypeName} (h : t.isPrimitive = true) :
    t.erasedInternalWithArrays = t.baseInternal.toList ++ TypeName.dimsText t.arrayDims := by
  obtain ⟨base, kind, args, dims⟩ := t
  obtain rfl : kind = .primitive := of_decide_eq_true h
  rfl

theorem not_isReferenceTypeName_primitive {t : TypeName} (h : t.isPrimitive = true) :
    isReferenceTypeName t = false := by
  rw [isReferenceTypeName, if_pos h]

/-- Conversions respect arrays and the null type between the known types that avoid the shortcuts, and between
no others. -/
theorem conversion_respects_iff (view : IndexView) (source target : TypeName) (hsource : source.isUnknown = false)
    (htarget : target.isUnknown = false) :
    RespectsArraysAndNull view source target (classifyConversion view source target) ↔
      AvoidsShortcuts view source target := by
  have hrule := classifyConversion_rule view hsource htarget
  constructor
  · intro h
    refine ⟨fun hdims => ?_, fun hdims hpos hnull htext hne hnames => ?_, fun hnull => ?_⟩
    · have hnot := mt hrule.ofNames_iff.mpr (h.dimensions hdims)
      rw [not_or, not_and_or, Bool.not_eq_false, not_or] at hnot
      exact hnot
    · exact h.elements hdims hpos (hrule.referenceWidening_iff.mpr
        ⟨htext, hnull, hne, hnames, isReferenceWidening_equal_dims hdims hpos⟩)
    · split_ifs with htarget
      · exact ((hrule.incompatible_iff hnull).mp (h.null_primitive hnull htarget.1 htarget.2)).1
      · have hne := h.null_reference hnull (by
          rw [not_and_or, Bool.not_eq_true] at htarget
          exact htarget.imp_right Nat.pos_of_ne_zero)
        have hnot := mt (hrule.incompatible_iff hnull).mpr hne
        rwa [not_and_or, not_not, Bool.not_eq_false] at hnot
  · intro h
    refine ⟨fun hdims hkind => ?_, fun hdims hpos hkind => ?_, fun hdims hpos hs ht hbase => ?_,
      fun hnull htarget hkind => ?_, fun hnull hprimitive hdims => ?_⟩
    · obtain ⟨htext, hnull | ⟨hne, hrelated⟩⟩ := h.dimensions hdims
      · exact (hrule.ofNames_iff.mp hkind).elim htext fun hfalse =>
          Bool.false_ne_true (hfalse.1.symm.trans hnull)
      · exact (hrule.ofNames_iff.mp hkind).elim htext fun hall => hall.2.elim hne hrelated
    · obtain ⟨htext, hnull, hne, hnames, -⟩ := hrule.referenceWidening_iff.mp hkind
      exact h.elements hdims hpos hnull htext hne hnames
    · unfold classifyConversion
      rw [if_pos]
      rw [erasedInternalWithArrays_primitive hs, erasedInternalWithArrays_primitive ht, hbase, hdims]
    · obtain ⟨htext, hreference⟩ := (hrule.incompatible_iff hnull).mp hkind
      have hcondition := h.null hnull
      rw [if_neg (by
        rintro ⟨hprimitive, hzero⟩
        rcases htarget with hfalse | hpos
        · exact Bool.false_ne_true (hfalse.symm.trans hprimitive)
        · omega)] at hcondition
      rcases hcondition with he | hr
      · exact htext he
      · exact Bool.false_ne_true (hreference.symm.trans hr)
    · have hcondition := h.null hnull
      rw [if_pos ⟨hprimitive, hdims⟩] at hcondition
      exact (hrule.incompatible_iff hnull).mpr ⟨hcondition, not_isReferenceTypeName_primitive hprimitive⟩

/-- An array as an object. -/
theorem array_to_object_respects :
    RespectsArraysAndNull (.new []) (TypeName.internalWithArgs "java/lang/String" []).wrapArray
      (.internalWithArgs "java/lang/Object" [])
      (classifyConversion (.new []) (TypeName.internalWithArgs "java/lang/String" []).wrapArray
        (.internalWithArgs "java/lang/Object" [])) := by
  refine (conversion_respects_iff _ _ _ (by decide) (by decide)).mpr
    ⟨fun _ => ⟨by decide, .inr ⟨by decide, ?_⟩⟩, fun hdims => ?_, fun hnull => ?_⟩
  · have hnone : unboxedPrimitiveTypeName "java/lang/String" = none := by decide
    rintro ⟨src, dst, hsrc, -⟩
    exact Option.some_ne_none src (hsrc.symm.trans hnone)
  · exact absurd hdims (by decide)
  · exact absurd hnull (by decide)

/-- An array of integers is an integer, an array of texts is an array of numbers, and the null type is no array
of integers. -/
theorem shortcuts_taken :
    ¬ RespectsArraysAndNull (.new []) (TypeName.primitive "int").wrapArray (.primitive "int")
        (classifyConversion (.new []) (TypeName.primitive "int").wrapArray (.primitive "int")) ∧
      ¬ RespectsArraysAndNull (.new []) (TypeName.internalWithArgs "java/lang/String" []).wrapArray
        (TypeName.internalWithArgs "java/lang/Integer" []).wrapArray
        (classifyConversion (.new []) (TypeName.internalWithArgs "java/lang/String" []).wrapArray
          (TypeName.internalWithArgs "java/lang/Integer" []).wrapArray) ∧
      ¬ RespectsArraysAndNull (.new []) .null (TypeName.primitive "int").wrapArray
        (classifyConversion (.new []) .null (TypeName.primitive "int").wrapArray) := by
  refine ⟨fun h => h.dimensions (by decide) ?_, fun h => ?_, fun h => ?_⟩
  · have hkind : classifyConversion (.new []) (TypeName.primitive "int").wrapArray (.primitive "int") = .identity := by
      decide
    rw [hkind]
    exact List.mem_cons_self
  · have helements := h.elements rfl Nat.one_pos (by decide)
    revert helements
    decide
  · exact h.null_reference rfl (.inr Nat.one_pos) (by decide)

end

end JavaAnalyzer.Semantic
