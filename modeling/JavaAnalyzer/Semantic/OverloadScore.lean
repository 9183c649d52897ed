import JavaAnalyzer.Jvm.Descriptor
import JavaAnalyzer.Library.TextPlaces
import JavaAnalyzer.Library.TextTrim
import JavaAnalyzer.Semantic.Conversion

/-! # Overload scores

The scorer of `semantic/types.rs`, which compares the text of an argument's type with a descriptor, beside
`type_compatibility`. Where the two differ is a matter of dimensions, of the names of primitives, and of simple
names (`ScoredAsConverted`). -/

namespace JavaAnalyzer.Semantic
set_option autoImplicit false
open Index Text Jvm

/-! ## The scorer -/

def isTypeVariableDescriptorToken (desc : List Char) : Bool :=
  if desc.head? = some 'T' && desc.getLast? = some ';' then true
  else if !(desc.head? = some 'L' && desc.getLast? = some ';') then false
  else
    let inner := desc.tail.dropLast
    if inner.isEmpty || '/' ∈ inner || '.' ∈ inner || '$' ∈ inner then false
    else (String.ofList inner).utf8ByteSize ≤ 3 && inner.all fun c => 'A' ≤ c && c ≤ 'Z'

/-- The name a descriptor without dimensions stands for. -/
def resolvedDescriptor (desc : List Char) : String :=
  match desc with
  | ['B'] => "byte"
  | ['C'] => "char"
  | ['D'] => "double"
  | ['F'] => "float"
  | ['I'] => "int"
  | ['J'] => "long"
  | ['S'] => "short"
  | ['Z'] => "boolean"
  | ['V'] => "void"
  | _ =>
    if desc.head? = some 'L' && desc.getLast? = some ';' then String.ofList desc.tail.dropLast
    else String.ofList desc

def isPrimitiveName (name : String) : Bool :=
  name ∈ ["byte", "char", "double", "float", "int", "long", "short", "boolean", "void"]

def simpleName (name : String) : List Char :=
  afterLast '/' name.toList

/-- The comparisons behind the array part. -/
def scoreNames (resolved normalized : String) : ℤ :=
  if resolved = normalized then 10
  else if areBoxingCompatibleTypeNames resolved normalized then 8
  else if resolved = "java/lang/Object" then
    if !isPrimitiveName normalized then 5 else -1
  else if simpleName resolved = simpleName normalized then 10
  else -1

def scoreSingleDescriptor : List Char → List Char → ℤ
  | [], ty => scoreNames (resolvedDescriptor []) (normalizedName (String.ofList ty))
  | c :: desc, ty =>
    if c = '[' then
      if ['[', ']'] <:+ ty then scoreSingleDescriptor desc (trim (ty.take (ty.length - 2))) else -1
    else scoreNames (resolvedDescriptor (c :: desc)) (normalizedName (String.ofList ty))

def scoreArgumentAgainstDescriptor (desc : List Char) (argTy : TypeName) : Option ℤ :=
  if isTypeVariableDescriptorToken desc then some 0
  else if argTy.isUnknown then some 0
  else
    let score := scoreSingleDescriptor desc argTy.erasedInternalWithArrays
    if score ≥ 0 then some score else none

def scoreDescriptorList : List (List Char) → List TypeName → Option ℤ
  | [], [] => some 0
  | desc :: paramDescs, arg :: argTypes => do
    let score ← scoreArgumentAgainstDescriptor desc arg
    let total ← scoreDescriptorList paramDescs argTypes
    some (score + total)
  | _, _ => none

/-! ## Descriptors and types -/

/-- The types that field descriptors stand for (JVMS 4.3.2). -/
def JvmType.isDescriptor : JvmType → Bool
  | .primitive c => c ∈ baseChars
  | .object name args => isInternalName name.toList && args.isEmpty
  | .array inner => inner.isDescriptor
  | _ => false

/-- A type as `TypeName::new` leaves it, with no dimensions or outer blanks in its name, and with no array among
the bounds of an intersection. -/
structure TypeName.WellNamed (t : TypeName) : Prop where
  trimmed : trim t.erasedInternal.toList = t.erasedInternal.toList
  no_dims : ¬ ['[', ']'] <:+ t.erasedInternal.toList
  bounds : t.erasedInternalWithArrays = t.erasedInternal.toList ++ TypeName.dimsText t.arrayDims

/-- `scoreNames` puts no negative score on the names. -/
def NamesMatch (resolved normalized : String) : Prop :=
  resolved = normalized ∨ areBoxingCompatibleTypeNames resolved normalized = true ∨
    if resolved = "java/lang/Object" then isPrimitiveName normalized = false
    else simpleName resolved = simpleName normalized

theorem scoreNames_nonneg {resolved normalized : String} :
    0 ≤ scoreNames resolved normalized ↔ NamesMatch resolved normalized := by
  unfold scoreNames NamesMatch
  split_ifs <;> simp_all

namespace TypeName

theorem dimsText_append (dims : ℕ) : dimsText (dims + 1) = dimsText dims ++ ['[', ']'] := by
  rw [dimsText, List.replicate_succ', List.flatten_append, List.flatten_singleton, dimsText]

/-- Dimensions behind a name leave no outer blanks. -/
theorem trim_dims {name : List Char} (h : trim name = name) (dims : ℕ) :
    trim (name ++ dimsText dims) = name ++ dimsText dims := by
  cases dims with
  | zero => rwa [dimsText, List.replicate_zero, List.flatten_nil, List.append_nil]
  | succ dims =>
    have hstart : trimStart (name ++ dimsText (dims + 1)) = name ++ dimsText (dims + 1) := by
      cases name with
      | nil => rw [dimsText_succ]; rfl
      | cons c rest =>
        have hc : isWhitespace c = false := by
          have hfront := trimStart_of_trim h
          rw [trimStart, List.dropWhile_eq_self_iff] at hfront
          simpa using hfront (Nat.succ_pos _)
        rw [trimStart, List.cons_append, List.dropWhile_cons_of_neg (by simp [hc])]
    have hend : (name ++ dimsText (dims + 1)).reverse = ']' :: '[' :: (name ++ dimsText dims).reverse := by
      rw [dimsText_append]
      simp
    rw [trim_of_starts hstart, trimEnd, hend, trimStart, List.dropWhile_cons_of_neg (by decide), ← hend,
      List.reverse_reverse]

end TypeName

/-! ## Names -/

theorem normalizedName_toList (name : String) :
    (normalizedName name).toList = name.toList.map fun c => if c = '.' then '/' else c := by
  rw [normalizedName, String.toList_ofList]

theorem normalizedName_eq {name : String} (h : '.' ∉ name.toList) : normalizedName name = name := by
  have hmap : name.toList.map (fun c => if c = '.' then '/' else c) = name.toList.map id :=
    List.map_congr_left fun c hc => if_neg fun he => h (by rwa [← he])
  rw [normalizedName, hmap, List.map_id, String.ofList_toList]

theorem normalizedName_no_dot (name : String) : '.' ∉ (normalizedName name).toList := by
  rw [normalizedName_toList, List.mem_map]
  rintro ⟨c, -, hc⟩
  split_ifs at hc with h
  · exact absurd hc (by decide)
  · exact h hc

/-- The names of the primitives and of their wrappers, each with its primitive. -/
def primitiveNames : List (String × String) :=
  primitiveWrappers.flatMap fun w => [(w.1, w.1), (w.2, w.1)]

theorem mem_primitiveNames {name primitive : String} (h : unboxedPrimitiveTypeName name = some primitive) :
    (normalizedName name, primitive) ∈ primitiveNames := by
  obtain ⟨w, hfind, rfl⟩ := Option.map_eq_some_iff.mp h
  have hnames := List.find?_some hfind
  rw [Bool.or_eq_true, beq_iff_eq, beq_iff_eq] at hnames
  refine List.mem_flatMap.mpr ⟨w, List.mem_of_find?_eq_some hfind, ?_⟩
  rcases hnames with he | he
  · rw [← he]; exact List.mem_cons_self
  · rw [← he]; exact List.mem_cons_of_mem _ List.mem_cons_self

theorem primitiveNames_no_dims : ∀ x ∈ primitiveNames, '[' ∉ x.1.toList := by decide

theorem primitiveNames_not_object : ∀ x ∈ primitiveNames, x.1 ≠ "java/lang/Object" := by decide

theorem primitiveNames_boxing : ∀ x ∈ primitiveNames, ∀ y ∈ primitiveNames, x.2 = y.2 →
    areBoxingCompatibleTypeNames x.1 y.1 = true := by decide

theorem primitiveNames_simple : ∀ x ∈ primitiveNames, ∀ y ∈ primitiveNames, simpleName x.1 = simpleName y.1 →
    x.2 = y.2 := by decide

theorem namesMatch_primitives {resolved name src dst : String} (hdot : '.' ∉ resolved.toList)
    (hdst : unboxedPrimitiveTypeName resolved = some dst) (hsrc : unboxedPrimitiveTypeName name = some src) :
    NamesMatch resolved (normalizedName name) ↔ src = dst := by
  have hresolved : (resolved, dst) ∈ primitiveNames := by
    rw [← normalizedName_eq hdot]
    exact mem_primitiveNames hdst
  have hname := mem_primitiveNames hsrc
  have hnormal : unboxedPrimitiveTypeName (normalizedName name) = some src := by
    rwa [unboxedPrimitiveTypeName, normalizedName_eq (normalizedName_no_dot name)]
  constructor
  · rintro (he | hboxing | hrest)
    · exact Option.some.inj ((hnormal.symm.trans (he ▸ hdst)))
    · rcases areBoxingCompatible_cases hboxing with he | ⟨p, hleft, hright⟩
      · exact Option.some.inj ((hnormal.symm.trans (he ▸ hdst)))
      · exact Option.some.inj ((hnormal.symm.trans hright).trans (hleft.symm.trans hdst))
    · rw [if_neg (primitiveNames_not_object _ hresolved)] at hrest
      exact (primitiveNames_simple _ hresolved _ hname hrest).symm
  · rintro rfl
    exact .inr (.inl (primitiveNames_boxing _ hresolved _ hname rfl))

theorem mem_of_mem_simpleName {c : Char} {name : String} (h : c ∈ simpleName name) : c ∈ name.toList := by
  rw [simpleName, afterLast, List.mem_reverse] at h
  exact List.mem_reverse.mp ((List.takeWhile_sublist _).mem h)

theorem isPrimitiveName_no_dims {name : String} (h : isPrimitiveName name = true) : '[' ∉ name.toList := by
  have hnames : ∀ n ∈ ["byte", "char", "double", "float", "int", "long", "short", "boolean", "void"],
      '[' ∉ n.toList := by decide
  exact hnames name (of_decide_eq_true h)

/-- Where the last part of a name has dimensions only `Object` matches. -/
theorem namesMatch_array {resolved normalized : String} (hbracket : '[' ∉ resolved.toList)
    (hdot : '.' ∉ normalized.toList) (hlast : '[' ∈ simpleName normalized) :
    NamesMatch resolved normalized ↔ resolved = "java/lang/Object" := by
  have hmem := mem_of_mem_simpleName hlast
  constructor
  · rintro (he | hboxing | hrest)
    · exact absurd (he ▸ hmem) hbracket
    · rcases areBoxingCompatible_cases hboxing with he | ⟨p, hleft, hright⟩
      · exact absurd (he ▸ hmem) hbracket
      · have hname := mem_primitiveNames hright
        rw [normalizedName_eq hdot] at hname
        exact absurd hmem (primitiveNames_no_dims _ hname)
    · by_contra hobject
      rw [if_neg hobject] at hrest
      exact hbracket (mem_of_mem_simpleName (hrest ▸ hlast))
  · intro hobject
    refine .inr (.inr ?_)
    rw [if_pos hobject]
    cases hprimitive : isPrimitiveName normalized with
    | true => exact absurd hmem (isPrimitiveName_no_dims hprimitive)
    | false => rfl

theorem dims_mem_simpleName (name : List Char) (dims : ℕ) :
    '[' ∈ simpleName (normalizedName (String.ofList (name ++ TypeName.dimsText (dims + 1)))) := by
  have hdims : (TypeName.dimsText (dims + 1)).map (fun c => if c = '.' then '/' else c) =
      TypeName.dimsText (dims + 1) := by
    rw [TypeName.dimsText, List.map_flatten, List.map_replicate]
    rfl
  have hslash : '/' ∉ TypeName.dimsText (dims + 1) := by
    rw [TypeName.dimsText, List.mem_flatten]
    rintro ⟨part, hpart, hmem⟩
    rw [List.eq_of_mem_replicate hpart] at hmem
    exact absurd hmem (by decide)
  rw [simpleName, normalizedName_toList, String.toList_ofList, List.map_append, hdims,
    TextPlaces.afterLast_append_of_notMem _ hslash, List.mem_append, TypeName.dimsText_succ]
  exact .inr List.mem_cons_self

/-! ## Descriptors -/

theorem isInternalName_no {c : Char} {name : List Char} (h : isInternalName name = true)
    (hc : c ∈ ['.', ';', '[']) : c ∉ name := by
  have hjoined : ['/'].intercalate (name.splitOn '/') = name := List.intercalate_splitOn '/'
  have hslash : c ≠ '/' := by
    rintro rfl
    exact absurd hc (by decide)
  have hparts : ∀ part ∈ name.splitOn '/', c ∉ part := by
    intro part hpart hmem
    have hname := List.all_eq_true.mp h part hpart
    rw [isUnqualifiedName, Bool.and_eq_true, List.all_eq_true] at hname
    have hfree := of_decide_eq_true (hname.2 c hmem)
    simp only [List.mem_cons, List.not_mem_nil, or_false, not_or] at hfree hc
    tauto
  intro hmem
  rw [← hjoined] at hmem
  revert hmem
  generalize name.splitOn '/' = parts at hparts
  induction parts with
  | nil => simp
  | cons part parts ih =>
    rw [TypeName.intercalate_cons, List.mem_append, List.mem_flatMap]
    rintro (hmem | ⟨text, htext, hmem⟩)
    · exact hparts part List.mem_cons_self hmem
    · rcases List.mem_append.mp hmem with hmem | hmem
      · exact hslash (List.mem_singleton.mp hmem)
      · exact hparts text (List.mem_cons_of_mem _ htext) hmem

namespace JvmType

/-- A descriptor stands for a class or a primitive, with dimensions. -/
structure DescriptorType (t : TypeName) : Prop where
  no_dot : '.' ∉ t.baseInternal.toList
  no_dims : '[' ∉ t.baseInternal.toList
  kind : t.kind = .internal ∨ t.kind = .primitive ∧ (unboxedPrimitiveTypeName t.baseInternal).isSome

theorem descriptorType {desc : JvmType} (h : desc.isDescriptor = true) : DescriptorType desc.toTypeName := by
  induction desc using isDescriptor.induct with
  | case1 c =>
    have hc : c ∈ baseChars := of_decide_eq_true h
    simp only [baseChars, List.mem_cons, List.not_mem_nil, or_false] at hc
    rcases hc with rfl | rfl | rfl | rfl | rfl | rfl | rfl | rfl <;>
      exact ⟨by decide, by decide, .inr ⟨rfl, by decide⟩⟩
  | case2 name args =>
    rw [isDescriptor, Bool.and_eq_true] at h
    exact ⟨isInternalName_no h.1 (by decide), isInternalName_no h.1 (by decide), .inl rfl⟩
  | case3 inner ih => exact ⟨(ih h).no_dot, (ih h).no_dims, (ih h).kind⟩
  | case4 desc hprimitive hobject harray => cases desc <;> simp_all [isDescriptor]

theorem resolvedDescriptor_primitive {c : Char} (hc : c ∈ baseChars) :
    resolvedDescriptor [c] = javaPrimitiveCharToName c := by
  simp only [baseChars, List.mem_cons, List.not_mem_nil, or_false] at hc
  rcases hc with rfl | rfl | rfl | rfl | rfl | rfl | rfl | rfl <;> rfl

theorem resolvedDescriptor_class (name : String) : resolvedDescriptor ('L' :: (name.toList ++ [';'])) = name := by
  have hmiddle : (name.toList ++ [';']).dropLast = name.toList := List.dropLast_concat
  have hlast : ('L' :: (name.toList ++ [';'])).getLast? = some ';' := by
    rw [← List.cons_append, List.getLast?_concat]
  cases hrest : name.toList ++ [';'] with
  | nil => simp at hrest
  | cons c rest =>
    rw [hrest] at hmiddle hlast
    simp only [resolvedDescriptor, hlast, List.head?_cons, List.tail_cons, hmiddle, decide_true, Bool.and_true, if_true,
      String.ofList_toList]
    rfl

theorem scoreSingleDescriptor_plain {c : Char} (hc : c ≠ '[') (desc ty : List Char) :
    scoreSingleDescriptor (c :: desc) ty =
      scoreNames (resolvedDescriptor (c :: desc)) (normalizedName (String.ofList ty)) := by
  rw [scoreSingleDescriptor, if_neg hc]

/-- The dimensions of the descriptor are taken off, and the rest is compared by names. -/
theorem scoreSingleDescriptor_nonneg {desc : JvmType} (h : desc.isDescriptor = true) {name : List Char}
    (htrim : trim name = name) (hno : ¬ ['[', ']'] <:+ name) (dims : ℕ) :
    0 ≤ scoreSingleDescriptor desc.signature (name ++ TypeName.dimsText dims) ↔
      desc.toTypeName.arrayDims ≤ dims ∧ NamesMatch desc.toTypeName.baseInternal
        (normalizedName (String.ofList (name ++ TypeName.dimsText (dims - desc.toTypeName.arrayDims)))) := by
  induction desc using isDescriptor.induct generalizing dims with
  | case1 c =>
    have hc : c ∈ baseChars := of_decide_eq_true h
    have hbracket : c ≠ '[' := by
      rintro rfl
      exact absurd hc (by decide)
    rw [signature, scoreSingleDescriptor_plain hbracket, scoreNames_nonneg, resolvedDescriptor_primitive hc]
    exact (and_iff_right (Nat.zero_le dims)).symm
  | case2 className args =>
    rw [isDescriptor, Bool.and_eq_true, List.isEmpty_iff] at h
    obtain ⟨-, rfl⟩ := h
    rw [signature, List.isEmpty_nil, if_pos rfl, scoreSingleDescriptor_plain (by decide), scoreNames_nonneg,
      resolvedDescriptor_class]
    exact (and_iff_right (Nat.zero_le dims)).symm
  | case3 inner ih =>
    rw [signature, scoreSingleDescriptor, if_pos rfl]
    have hdims : (array inner).toTypeName.arrayDims = inner.toTypeName.arrayDims + 1 := rfl
    have hbase : (array inner).toTypeName.baseInternal = inner.toTypeName.baseInternal := rfl
    rw [hdims, hbase]
    cases dims with
    | zero =>
      have hnil : TypeName.dimsText 0 = [] := rfl
      rw [hnil, List.append_nil, if_neg hno]
      exact iff_of_false (by decide) fun hle => Nat.not_succ_le_zero _ hle.1
    | succ dims =>
      have hsuffix : ['[', ']'] <:+ name ++ TypeName.dimsText (dims + 1) := by
        rw [TypeName.dimsText_append, ← List.append_assoc]
        exact List.suffix_append _ _
      have htake : (name ++ TypeName.dimsText (dims + 1)).take
          ((name ++ TypeName.dimsText (dims + 1)).length - 2) = name ++ TypeName.dimsText dims := by
        rw [TypeName.dimsText_append, ← List.append_assoc, List.length_append]
        exact List.take_left' rfl
      rw [if_pos hsuffix, htake, TypeName.trim_dims htrim, ih h dims, Nat.add_sub_add_right, Nat.succ_le_succ_iff]
  | case4 desc hprimitive hobject harray => cases desc <;> simp_all [isDescriptor]

theorem DescriptorType.erased {t : TypeName} (h : DescriptorType t) : t.erasedInternal = t.baseInternal := by
  obtain ⟨base, kind, args, dims⟩ := t
  rcases h.kind with hkind | ⟨hkind, -⟩ <;>
    · simp only at hkind
      subst hkind
      rfl

theorem DescriptorType.text {t : TypeName} (h : DescriptorType t) :
    t.erasedInternalWithArrays = t.baseInternal.toList ++ TypeName.dimsText t.arrayDims := by
  obtain ⟨base, kind, args, dims⟩ := t
  rcases h.kind with hkind | ⟨hkind, -⟩ <;>
    · simp only at hkind
      subst hkind
      rfl

theorem DescriptorType.known {t : TypeName} (h : DescriptorType t) : t.isUnknown = false := by
  rcases h.kind with hkind | ⟨hkind, -⟩ <;> simp [TypeName.isUnknown, hkind]

theorem DescriptorType.isReferenceTypeName {t : TypeName} (h : DescriptorType t) :
    Semantic.isReferenceTypeName t = true ↔ t.isPrimitive = false := by
  obtain ⟨base, kind, args, dims⟩ := t
  rcases h.kind with hkind | ⟨hkind, -⟩ <;>
    · simp only at hkind
      subst hkind
      simp [Semantic.isReferenceTypeName, TypeName.isPrimitive, TypeName.isExactClass]

theorem DescriptorType.primitive_not_object {t : TypeName} (h : DescriptorType t) (hprimitive : t.isPrimitive = true) :
    t.erasedInternal ≠ "java/lang/Object" := by
  rw [h.erased]
  intro hobject
  have hnone : unboxedPrimitiveTypeName "java/lang/Object" = none := by decide
  rcases h.kind with hkind | ⟨-, hsome⟩
  · simp [TypeName.isPrimitive, hkind] at hprimitive
  · rw [hobject, hnone] at hsome
    cases hsome

theorem DescriptorType.namesMatch_iff {t source : TypeName} (h : DescriptorType t) (hnames : PrimitiveNames source t) :
    NamesMatch t.erasedInternal (normalizedName source.erasedInternal) ↔
      unboxedPrimitiveTypeName source.erasedInternal = unboxedPrimitiveTypeName t.erasedInternal := by
  obtain ⟨src, hsrc⟩ := Option.isSome_iff_exists.mp hnames.1
  obtain ⟨dst, hdst⟩ := Option.isSome_iff_exists.mp hnames.2
  rw [namesMatch_primitives (h.erased ▸ h.no_dot) hdst hsrc, hsrc, hdst, Option.some.injEq]

theorem DescriptorType.namesMatch_same {t : TypeName} (h : DescriptorType t) {name : String}
    (he : name = t.erasedInternal) : NamesMatch t.erasedInternal (normalizedName name) := by
  rw [he, h.erased, normalizedName_eq h.no_dot]
  exact .inl rfl

end JvmType

/-! ## Where the judgements agree -/

/-- Method invocation converts the one type to the other. -/
def MethodConvertible (view : IndexView) (source target : TypeName) : Prop :=
  (typeCompatibility view source target).kind ≠ .incompatible ∧
    (typeCompatibility view source target).kind ≠ .narrowingPrimitive

/-- The erased class of `source` reaches the one of `target`, and neither type is primitive. -/
def ReachesAsClass (view : IndexView) (source target : TypeName) : Prop :=
  source.isPrimitive = false ∧ target.isPrimitive = false ∧
    view.ReachesClass source.erasedInternal target.erasedInternal

/-- A descriptor and the type of an argument on which score and conversion agree. -/
def ScoredAsConverted (view : IndexView) (desc : List Char) (arg target : TypeName) : Prop :=
  if isTypeVariableDescriptorToken desc = true then
    -- scored whatever the argument is
    arg.isNull = true ∨ arg.erasedInternal = target.erasedInternal ∨
      arg.arrayDims = 0 ∧ ReachesAsClass view arg target
  else if arg.isNull = true then
    if target.isPrimitive = true then
      arg.arrayDims = target.arrayDims → NamesMatch target.erasedInternal (normalizedName arg.erasedInternal) →
        arg.erasedInternal = target.erasedInternal
    else
      target.arrayDims < arg.arrayDims ∧ target.erasedInternal = "java/lang/Object" ∨
        arg.arrayDims = target.arrayDims ∧ NamesMatch target.erasedInternal (normalizedName arg.erasedInternal)
  else if arg.arrayDims < target.arrayDims then
    arg.erasedInternal ≠ target.erasedInternal ∧ ¬ PrimitiveRelated arg target
  else if target.arrayDims < arg.arrayDims then
    if target.erasedInternal = "java/lang/Object" then
      target.arrayDims = 0 ∨ arg.erasedInternal = "java/lang/Object"
    else arg.erasedInternal ≠ target.erasedInternal ∧ ¬ PrimitiveRelated arg target
  else if PrimitiveNames arg target then
    PrimitiveRelated arg target →
      unboxedPrimitiveTypeName arg.erasedInternal = unboxedPrimitiveTypeName target.erasedInternal
  else if 0 < target.arrayDims then NamesMatch target.erasedInternal (normalizedName arg.erasedInternal)
  else
    NamesMatch target.erasedInternal (normalizedName arg.erasedInternal) ↔
      arg.erasedInternal = target.erasedInternal ∨ ReachesAsClass view arg target

section

variable {view : IndexView} {source target : TypeName}

theorem methodConvertible_iff (hsource : source.isUnknown = false) (htarget : target.isUnknown = false) :
    MethodConvertible view source target ↔
      source.erasedInternalWithArrays = target.erasedInternalWithArrays ∨
        if source.isNull = true then isReferenceTypeName target = true
        else source.erasedInternal = target.erasedInternal ∨ PrimitiveRelated source target ∨
          ¬ PrimitiveNames source target ∧ isReferenceWidening view source target = true := by
  have hrule := classifyConversion_rule view hsource htarget
  have hkind : (typeCompatibility view source target).kind = classifyConversion view source target := rfl
  rw [MethodConvertible, hkind]
  generalize classifyConversion view source target = kind at hrule
  cases hrule with
  | same htext => exact iff_of_true ⟨by simp, by simp⟩ (.inl htext)
  | null htext hnull => cases hr : isReferenceTypeName target <;> simp [htext, hnull]
  | names htext hnull hrelated hkind =>
    refine iff_of_true ?_ (.inr ?_)
    · constructor <;>
        · rintro rfl
          simp [ConversionKind.OfNames] at hkind
    · rw [if_neg (by simp [hnull])]
      exact hrelated.imp_right .inl
  | primitives htext hnull hnames hrelated hkind =>
    refine iff_of_false (by rcases hkind with rfl | rfl <;> simp) ?_
    rw [if_neg (by simp [hnull])]
    rintro (he | he | hr | hr)
    · exact htext he
    · exact hrelated (hnames.related he)
    · exact hrelated hr
    · exact hr.1 hnames
  | references htext hnull hnames hne =>
    have hrelated : ¬ PrimitiveRelated source target := fun hr => hnames hr.names
    cases hr : isReferenceWidening view source target <;> simp [htext, hnull, hnames, hne, hrelated]

theorem isReferenceWidening_dims (hdims : 0 < source.arrayDims ∨ 0 < target.arrayDims) :
    isReferenceWidening view source target = true ↔ target.arrayDims = source.arrayDims ∨
      target.arrayDims = 0 ∧ target.erasedInternal = "java/lang/Object" := by
  rw [isReferenceWidening, if_pos (by simpa using hdims)]
  simp

theorem isReferenceWidening_plain (hsource : source.arrayDims = 0) (htarget : target.arrayDims = 0) :
    source.erasedInternal = target.erasedInternal ∨ isReferenceWidening view source target = true ↔
      source.erasedInternal = target.erasedInternal ∨ ReachesAsClass view source target := by
  cases hs : source.isPrimitive with
  | true => simp [isReferenceWidening, ReachesAsClass, hsource, htarget, hs]
  | false =>
    cases ht : target.isPrimitive with
    | true => simp [isReferenceWidening, ReachesAsClass, hsource, htarget, hs, ht]
    | false =>
      rw [isReferenceWidening_class hsource htarget hs ht]
      simp [ReachesAsClass, hs, ht]

theorem dims_inj {name name' : List Char} (h : ¬ ['[', ']'] <:+ name) (h' : ¬ ['[', ']'] <:+ name') {dims dims' : ℕ}
    (he : name ++ TypeName.dimsText dims = name' ++ TypeName.dimsText dims') : dims = dims' ∧ name = name' := by
  induction dims generalizing dims' with
  | zero =>
    cases dims' with
    | zero => exact ⟨rfl, List.append_cancel_right he⟩
    | succ dims' =>
      rw [TypeName.dimsText_append, ← List.append_assoc] at he
      exact absurd (he ▸ List.suffix_append _ _ : ['[', ']'] <:+ name ++ TypeName.dimsText 0)
        (by simpa [TypeName.dimsText] using h)
  | succ dims ih =>
    rw [TypeName.dimsText_append, ← List.append_assoc] at he
    cases dims' with
    | zero =>
      exact absurd (he ▸ List.suffix_append _ _ : ['[', ']'] <:+ name' ++ TypeName.dimsText 0)
        (by simpa [TypeName.dimsText] using h')
    | succ dims' =>
      rw [TypeName.dimsText_append, ← List.append_assoc] at he
      obtain ⟨rfl, hname⟩ := ih (List.append_cancel_right he)
      exact ⟨rfl, hname⟩

end

/-! ## One descriptor and one argument -/

section

variable {view : IndexView} {desc : JvmType} {arg : TypeName} (hdesc : desc.isDescriptor = true)
  (hnamed : arg.WellNamed)
include hdesc hnamed

theorem text_eq_iff : arg.erasedInternalWithArrays = desc.toTypeName.erasedInternalWithArrays ↔
    arg.arrayDims = desc.toTypeName.arrayDims ∧ arg.erasedInternal = desc.toTypeName.erasedInternal := by
  have htype := JvmType.descriptorType hdesc
  have hplain : ¬ ['[', ']'] <:+ desc.toTypeName.baseInternal.toList := fun h =>
    htype.no_dims (h.subset List.mem_cons_self)
  rw [hnamed.bounds, htype.text, htype.erased]
  constructor
  · intro he
    obtain ⟨hdims, hname⟩ := dims_inj hnamed.no_dims hplain he
    exact ⟨hdims, String.toList_inj.mp hname⟩
  · rintro ⟨hdims, hname⟩
    rw [hdims, hname]

variable (hknown : arg.isUnknown = false)
include hknown

theorem scored_iff (htoken : isTypeVariableDescriptorToken desc.signature = false) :
    (scoreArgumentAgainstDescriptor desc.signature arg).isSome ↔
      desc.toTypeName.arrayDims < arg.arrayDims ∧ desc.toTypeName.erasedInternal = "java/lang/Object" ∨
        arg.arrayDims = desc.toTypeName.arrayDims ∧
          NamesMatch desc.toTypeName.erasedInternal (normalizedName arg.erasedInternal) := by
  have htype := JvmType.descriptorType hdesc
  have hscore : (scoreArgumentAgainstDescriptor desc.signature arg).isSome ↔
      0 ≤ scoreSingleDescriptor desc.signature (arg.erasedInternal.toList ++ TypeName.dimsText arg.arrayDims) := by
    rw [scoreArgumentAgainstDescriptor, htoken, hknown, ← hnamed.bounds]
    simp [apply_ite]
  rw [hscore, JvmType.scoreSingleDescriptor_nonneg hdesc hnamed.trimmed hnamed.no_dims, htype.erased]
  rcases Nat.lt_trichotomy desc.toTypeName.arrayDims arg.arrayDims with hlt | he | hgt
  · obtain ⟨dims, hdims⟩ : ∃ dims, arg.arrayDims - desc.toTypeName.arrayDims = dims + 1 :=
      ⟨arg.arrayDims - desc.toTypeName.arrayDims - 1, by omega⟩
    rw [hdims, namesMatch_array htype.no_dims (normalizedName_no_dot _) (dims_mem_simpleName _ dims)]
    constructor
    · rintro ⟨-, hobject⟩
      exact .inl ⟨hlt, hobject⟩
    · rintro (⟨-, hobject⟩ | ⟨he, -⟩)
      · exact ⟨hlt.le, hobject⟩
      · omega
  · have hnil : TypeName.dimsText 0 = [] := rfl
    rw [he, Nat.sub_self, hnil, List.append_nil, String.ofList_toList]
    simp
  · exact iff_of_false (by omega) (by omega)

theorem convertible_null_iff (hnull : arg.isNull = true) : MethodConvertible view arg desc.toTypeName ↔
    arg.arrayDims = desc.toTypeName.arrayDims ∧ arg.erasedInternal = desc.toTypeName.erasedInternal ∨
      desc.toTypeName.isPrimitive = false := by
  have htype := JvmType.descriptorType hdesc
  rw [methodConvertible_iff hknown htype.known, text_eq_iff hdesc hnamed, if_pos hnull, htype.isReferenceTypeName]

theorem convertible_iff (hnull : arg.isNull = false) : MethodConvertible view arg desc.toTypeName ↔
    arg.erasedInternal = desc.toTypeName.erasedInternal ∨ PrimitiveRelated arg desc.toTypeName ∨
      ¬ PrimitiveNames arg desc.toTypeName ∧ isReferenceWidening view arg desc.toTypeName = true := by
  rw [methodConvertible_iff hknown (JvmType.descriptorType hdesc).known, text_eq_iff hdesc hnamed,
    if_neg (by simp [hnull])]
  exact or_iff_right_of_imp fun he => .inl he.2

end

/-- What looks like a type variable is the descriptor of a class, whose name is none of a primitive. -/
theorem token_class {desc : JvmType} (hdesc : desc.isDescriptor = true)
    (htoken : isTypeVariableDescriptorToken desc.signature = true) :
    desc.toTypeName.arrayDims = 0 ∧ desc.toTypeName.isPrimitive = false ∧
      desc.toTypeName.erasedInternal ≠ "java/lang/Object" ∧
      unboxedPrimitiveTypeName desc.toTypeName.erasedInternal = none := by
  cases desc with
  | primitive c =>
    have hc : c ∈ baseChars := of_decide_eq_true hdesc
    simp only [baseChars, List.mem_cons, List.not_mem_nil, or_false] at hc
    rcases hc with rfl | rfl | rfl | rfl | rfl | rfl | rfl | rfl <;> exact absurd htoken (by decide)
  | typeVar => simp [JvmType.isDescriptor] at hdesc
  | wildcard => simp [JvmType.isDescriptor] at hdesc
  | wildcardBound => simp [JvmType.isDescriptor] at hdesc
  | array inner => simp [JvmType.signature, isTypeVariableDescriptorToken] at htoken
  | object name args =>
    rw [JvmType.isDescriptor, Bool.and_eq_true, List.isEmpty_iff] at hdesc
    obtain ⟨hname, rfl⟩ := hdesc
    have hlast : ('L' :: (name.toList ++ [';'])).getLast? = some ';' := by
      rw [← List.cons_append, List.getLast?_concat]
    rw [JvmType.signature, List.isEmpty_nil, if_pos rfl, isTypeVariableDescriptorToken, hlast] at htoken
    simp only [List.head?_cons, Option.some.injEq, Char.reduceEq, decide_false, Bool.false_and, Bool.false_eq_true,
      if_false, decide_true, Bool.and_self, Bool.not_true, List.tail_cons, List.dropLast_concat] at htoken
    split_ifs at htoken with hempty
    rw [Bool.and_eq_true, List.all_eq_true] at htoken
    have hupper : ∀ c ∈ name.toList, 'A' ≤ c ∧ c ≤ 'Z' := fun c hc => by simpa using htoken.2 c hc
    refine ⟨rfl, rfl, fun hobject => ?_, ?_⟩
    · have hslash : '/' ∈ name.toList := by
        have hobject : name = "java/lang/Object" := hobject
        rw [hobject]
        decide
      exact absurd (hupper '/' hslash) (by decide)
    · cases hunboxed : unboxedPrimitiveTypeName name with
      | none => exact hunboxed
      | some p =>
        have hmem := mem_primitiveNames hunboxed
        rw [normalizedName_eq (isInternalName_no hname (by decide))] at hmem
        have hlower : (primitiveNames.all fun x => x.1.toList.any fun c => 'Z'.toNat < c.toNat) = true := by decide
        obtain ⟨c, hc, hlt⟩ := List.any_eq_true.mp (List.all_eq_true.mp hlower _ hmem)
        have hlt := of_decide_eq_true hlt
        exact absurd (UInt32.le_iff_toNat_le.mp (hupper c hc).2) (Nat.not_le.mpr hlt)

section

variable {view : IndexView} {source target : TypeName}

theorem not_primitiveNames (hnone : unboxedPrimitiveTypeName target.erasedInternal = none) :
    ¬ PrimitiveNames source target := by
  rintro ⟨-, hsome⟩
  rw [hnone] at hsome
  cases hsome

theorem not_primitiveNames_object (hobject : target.erasedInternal = "java/lang/Object") :
    ¬ PrimitiveNames source target := by
  have hnone : unboxedPrimitiveTypeName "java/lang/Object" = none := by decide
  exact not_primitiveNames (hobject ▸ hnone)

theorem primitiveRelated_same (hnames : PrimitiveNames source target)
    (h : unboxedPrimitiveTypeName source.erasedInternal = unboxedPrimitiveTypeName target.erasedInternal) :
    PrimitiveRelated source target := by
  obtain ⟨src, hsrc⟩ := Option.isSome_iff_exists.mp hnames.1
  exact ⟨src, src, hsrc, h ▸ hsrc, .inl rfl⟩

/-- Without names of primitives, the names and the hierarchy decide between types without dimensions. -/
theorem converts_plain (hnames : ¬ PrimitiveNames source target) (hsource : source.arrayDims = 0)
    (htarget : target.arrayDims = 0) :
    (source.erasedInternal = target.erasedInternal ∨ PrimitiveRelated source target ∨
      ¬ PrimitiveNames source target ∧ isReferenceWidening view source target = true) ↔
      source.erasedInternal = target.erasedInternal ∨ ReachesAsClass view source target := by
  have hrelated : ¬ PrimitiveRelated source target := fun hr => hnames hr.names
  rw [← isReferenceWidening_plain hsource htarget]
  simp [hnames, hrelated]

theorem converts_primitives (hnames : PrimitiveNames source target) :
    (source.erasedInternal = target.erasedInternal ∨ PrimitiveRelated source target ∨
      ¬ PrimitiveNames source target ∧ isReferenceWidening view source target = true) ↔
      PrimitiveRelated source target := by
  constructor
  · rintro (he | hrelated | ⟨hnot, -⟩)
    · exact hnames.related he
    · exact hrelated
    · exact absurd hnames hnot
  · exact fun hrelated => .inr (.inl hrelated)

theorem converts_dims (hdims : 0 < source.arrayDims ∨ 0 < target.arrayDims) :
    (source.erasedInternal = target.erasedInternal ∨ PrimitiveRelated source target ∨
      ¬ PrimitiveNames source target ∧ isReferenceWidening view source target = true) ↔
      source.erasedInternal = target.erasedInternal ∨ PrimitiveRelated source target ∨
      ¬ PrimitiveNames source target ∧ (target.arrayDims = source.arrayDims ∨
        target.arrayDims = 0 ∧ target.erasedInternal = "java/lang/Object") := by
  rw [isReferenceWidening_dims hdims]

end

section

variable {view : IndexView} {desc : JvmType} {arg : TypeName}

theorem score_agrees_of_token (hdesc : desc.isDescriptor = true) (hknown : arg.isUnknown = false)
    (hnamed : arg.WellNamed) (htoken : isTypeVariableDescriptorToken desc.signature = true) :
    ((scoreArgumentAgainstDescriptor desc.signature arg).isSome ↔ MethodConvertible view arg desc.toTypeName) ↔
      ScoredAsConverted view desc.signature arg desc.toTypeName := by
  obtain ⟨hdims, hprimitive, hobject, hnone⟩ := token_class hdesc htoken
  unfold ScoredAsConverted
  have hscored : (scoreArgumentAgainstDescriptor desc.signature arg).isSome := by
    rw [scoreArgumentAgainstDescriptor, htoken, if_pos rfl]
    rfl
  have hnames : ¬ PrimitiveNames arg desc.toTypeName := not_primitiveNames hnone
  rw [if_pos htoken, iff_true_left hscored]
  cases hnull : arg.isNull with
  | true =>
    rw [convertible_null_iff hdesc hnamed hknown hnull]
    exact iff_of_true (.inr hprimitive) (.inl rfl)
  | false =>
    rw [convertible_iff hdesc hnamed hknown hnull]
    rcases Nat.eq_zero_or_pos arg.arrayDims with hzero | hpos
    · rw [converts_plain hnames hzero hdims]
      simp [hzero]
    · rw [converts_dims (.inl hpos)]
      have hrelated : ¬ PrimitiveRelated arg desc.toTypeName := fun hr => hnames hr.names
      simp [hdims, hobject, hrelated, hpos.ne, hpos.ne']

theorem score_agrees_of_null (hdesc : desc.isDescriptor = true) (hknown : arg.isUnknown = false)
    (hnamed : arg.WellNamed) (htoken : isTypeVariableDescriptorToken desc.signature = false)
    (hnull : arg.isNull = true) :
    ((scoreArgumentAgainstDescriptor desc.signature arg).isSome ↔ MethodConvertible view arg desc.toTypeName) ↔
      ScoredAsConverted view desc.signature arg desc.toTypeName := by
  have htype := JvmType.descriptorType hdesc
  unfold ScoredAsConverted
  rw [htoken, hnull, if_neg Bool.false_ne_true, scored_iff hdesc hnamed hknown htoken, if_pos rfl,
    convertible_null_iff hdesc hnamed hknown hnull]
  cases hprimitive : desc.toTypeName.isPrimitive with
  | true =>
    have hobject : desc.toTypeName.erasedInternal ≠ "java/lang/Object" :=
      htype.primitive_not_object hprimitive
    have hsame : arg.erasedInternal = desc.toTypeName.erasedInternal →
        NamesMatch desc.toTypeName.erasedInternal (normalizedName arg.erasedInternal) := htype.namesMatch_same
    rw [if_pos rfl]
    constructor
    · intro h hdims hmatch
      exact ((h.mp (.inr ⟨hdims, hmatch⟩)).resolve_right (by decide)).2
    · intro h
      constructor
      · rintro (⟨-, he⟩ | ⟨hdims, hmatch⟩)
        · exact absurd he hobject
        · exact .inl ⟨hdims, h hdims hmatch⟩
      · rintro (⟨hdims, he⟩ | hfalse)
        · exact .inr ⟨hdims, hsame he⟩
        · cases hfalse
  | false => simp

theorem score_agrees_of_arg (hdesc : desc.isDescriptor = true) (hknown : arg.isUnknown = false)
    (hnamed : arg.WellNamed) (htoken : isTypeVariableDescriptorToken desc.signature = false)
    (hnull : arg.isNull = false) :
    ((scoreArgumentAgainstDescriptor desc.signature arg).isSome ↔ MethodConvertible view arg desc.toTypeName) ↔
      ScoredAsConverted view desc.signature arg desc.toTypeName := by
  have htype := JvmType.descriptorType hdesc
  unfold ScoredAsConverted
  rw [htoken, hnull, if_neg Bool.false_ne_true, scored_iff hdesc hnamed hknown htoken,
    if_neg Bool.false_ne_true, convertible_iff hdesc hnamed hknown hnull]
  rcases Nat.lt_trichotomy arg.arrayDims desc.toTypeName.arrayDims with hlt | heq | hgt
  · rw [if_pos hlt, converts_dims (.inr (by omega))]
    have hfewer : ¬ (desc.toTypeName.arrayDims = arg.arrayDims ∨
        desc.toTypeName.arrayDims = 0 ∧ desc.toTypeName.erasedInternal = "java/lang/Object") := by omega
    have hless : ¬ (desc.toTypeName.arrayDims < arg.arrayDims) := by omega
    simp [hfewer, hless, hlt.ne, not_or]
  · rw [if_neg (by omega), if_neg (by omega)]
    have hmatch : (desc.toTypeName.arrayDims < arg.arrayDims ∧
        desc.toTypeName.erasedInternal = "java/lang/Object" ∨ arg.arrayDims = desc.toTypeName.arrayDims ∧
          NamesMatch desc.toTypeName.erasedInternal (normalizedName arg.erasedInternal)) ↔
        NamesMatch desc.toTypeName.erasedInternal (normalizedName arg.erasedInternal) := by
      simp [heq]
    rw [hmatch]
    by_cases hnames : PrimitiveNames arg desc.toTypeName
    · rw [if_pos hnames, htype.namesMatch_iff hnames, converts_primitives hnames]
      exact ⟨fun h hrelated => h.mpr hrelated, fun h => ⟨primitiveRelated_same hnames, h⟩⟩
    · rw [if_neg hnames]
      rcases Nat.eq_zero_or_pos desc.toTypeName.arrayDims with hzero | hpos
      · rw [if_neg (by omega), converts_plain hnames (heq.trans hzero) hzero]
      · rw [if_pos hpos, converts_dims (.inr hpos)]
        exact iff_true_right (.inr (.inr ⟨hnames, .inl heq.symm⟩))
  · rw [if_neg (by omega), if_pos hgt, converts_dims (.inl (by omega))]
    by_cases hobject : desc.toTypeName.erasedInternal = "java/lang/Object"
    · have hnames : ¬ PrimitiveNames arg desc.toTypeName := not_primitiveNames_object hobject
      have hrelated : ¬ PrimitiveRelated arg desc.toTypeName := fun hr => hnames hr.names
      simp [hobject, hnames, hrelated, hgt, hgt.ne, or_comm]
    · simp [hobject, hgt.ne, hgt.ne', not_or]

end

/-- The score of an argument agrees with the conversion of its type exactly here. -/
theorem score_agrees_iff (view : IndexView) (desc : JvmType) (hdesc : desc.isDescriptor = true) (arg : TypeName)
    (hknown : arg.isUnknown = false) (hnamed : arg.WellNamed) :
    ((scoreArgumentAgainstDescriptor desc.signature arg).isSome ↔ MethodConvertible view arg desc.toTypeName) ↔
      ScoredAsConverted view desc.signature arg desc.toTypeName := by
  cases htoken : isTypeVariableDescriptorToken desc.signature with
  | true => exact score_agrees_of_token hdesc hknown hnamed htoken
  | false =>
    cases hnull : arg.isNull with
    | true => exact score_agrees_of_null hdesc hknown hnamed htoken hnull
    | false => exact score_agrees_of_arg hdesc hknown hnamed htoken hnull

/-- An integer for a parameter of its own type. -/
theorem int_for_int_agrees :
    (scoreArgumentAgainstDescriptor (JvmType.primitive 'I').signature (.primitive "int")).isSome ↔
      MethodConvertible (.new []) (.primitive "int") (JvmType.primitive 'I').toTypeName := by
  refine (score_agrees_iff (.new []) (.primitive 'I') (by decide) (.primitive "int") (by decide)
    ⟨by decide, by decide, rfl⟩).mpr ?_
  rw [ScoredAsConverted, if_neg (by decide), if_neg (by decide), if_neg (by decide), if_neg (by decide),
    if_pos (by decide)]
  exact fun _ => rfl

/-- An integer is converted to a long but not scored, and a class is scored for another class of the same simple
name but not converted. -/
theorem judgements_differ :
    ¬ ((scoreArgumentAgainstDescriptor (JvmType.primitive 'J').signature (.primitive "int")).isSome ↔
        MethodConvertible (.new []) (.primitive "int") (JvmType.primitive 'J').toTypeName) ∧
      ¬ ((scoreArgumentAgainstDescriptor (JvmType.object "b/Node" []).signature
          (.internalWithArgs "a/Node" [])).isSome ↔
        MethodConvertible (.new []) (.internalWithArgs "a/Node" []) (JvmType.object "b/Node" []).toTypeName) := by
  unfold MethodConvertible
  constructor <;> decide

end JavaAnalyzer.Semantic
