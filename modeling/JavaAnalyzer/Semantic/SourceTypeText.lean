import JavaAnalyzer.Language.GenericTypeTexts
import JavaAnalyzer.Semantic.ConsumedText

/-! # Source types as generic JVM types

`java_source_type_to_jvm_generic` of `semantic/types.rs` writes the text of a source type as the internal name of its
class with the signatures of its type arguments. It puts `L` and `;` around every argument that is no array, and asks for
type variables only before it takes the brackets of an array off. -/

namespace JavaAnalyzer.Semantic
set_option autoImplicit false
open Text TextLines ElementWise Language JvmType

/-! ## The source -/

/-- `L` and `;` around what is no array. -/
def wrapObject (inner : List Char) : List Char :=
  if inner.head? == some '[' then inner else 'L' :: (inner ++ [';'])

/-- The loop that puts the brackets of an array back. -/
def wrapArrays : ℕ → List Char → List Char
  | 0, result => result
  | depth + 1, result => '[' :: wrapObject (wrapArrays depth result)

section Source

variable (resolveSimpleName : List Char → List Char) (typeParams : List (List Char))

/-- A type without brackets of arrays: the class name, and its arguments where the text ends with their bracket. -/
def translateClass (resolvedArg : List Char → List Char) (ty : List Char) : List Char :=
  match ty.idxOf? '<' with
  | some pos =>
    if ty.getLast? = some '>' then
      let args := splitTopLevel ',' 0 (ty.drop (pos + 1)).dropLast
      resolveSimpleName (trim (ty.take pos)) ++ '<' :: (args.flatMap resolvedArg ++ ['>'])
    else resolveSimpleName ty
  | none => resolveSimpleName ty

def javaSourceTypeToJvmGenericFuel : ℕ → List Char → List Char
  | 0, _ => []
  | fuel + 1, sourceTy =>
    let ty := trim sourceTy
    if typeParams.contains ty then 'T' :: (ty ++ [';'])
    else
      let stripped := stripDimensions ty
      let resolvedArg := fun arg =>
        if trim arg = ['?'] then ['*'] else wrapObject (javaSourceTypeToJvmGenericFuel fuel (trim arg))
      wrapArrays stripped.1 (translateClass resolveSimpleName resolvedArg stripped.2)

def javaSourceTypeToJvmGeneric (sourceTy : List Char) : List Char :=
  javaSourceTypeToJvmGenericFuel resolveSimpleName typeParams (sourceTy.length + 1) sourceTy

end Source

/-- An array and a type variable are written as descriptors already. -/
def descriptorForm (ty : List Char) : List Char :=
  if ty.head? == some '[' || ty.head? == some 'T' && ty.getLast? == some ';' then ty else 'L' :: (ty ++ [';'])

/-! ## Source types -/

/-- A source type as it is written, with the blanks in it. JVM types do not have arguments of an outer class, and they
are left out here. -/
inductive SourceType where
  | named (name gap : List Char) (args : List SourceType)
  | typeVar (name : List Char)
  | primitive (name : List Char)
  | array (element : SourceType) (inside : List Char)
  | wildcard
  /-- `extends` or `super`, with the blanks before and behind the word. -/
  | bounded (upper : Bool) (gap space : List Char) (bound : SourceType)
  | spaced (before : List Char) (ty : SourceType) (after : List Char)

/-- What becomes of class names, and the type variables in scope. A name that is not resolved may stay as it is. -/
structure TypeScope where
  resolveSimpleName : List Char → List Char
  typeParams : List (List Char)
  resolves : ∀ s, resolveSimpleName s = s ∨
    (resolveSimpleName s).head? ≠ some '[' ∧ ∀ c ∈ resolveSimpleName s, endsClassName c = false
  identifiers : ∀ p ∈ typeParams, p ≠ [] ∧ ∀ c ∈ p, isIdentifierChar c = true

namespace SourceType

theorem inductOn {P : SourceType → Prop} (ty : SourceType)
    (named : ∀ name gap args, (∀ arg ∈ args, P arg) → P (.named name gap args))
    (typeVar : ∀ name, P (.typeVar name)) (primitive : ∀ name, P (.primitive name))
    (array : ∀ element inside, P element → P (.array element inside)) (wildcard : P .wildcard)
    (bounded : ∀ upper gap space bound, P bound → P (.bounded upper gap space bound))
    (spaced : ∀ before ty after, P ty → P (.spaced before ty after)) : P ty :=
  @SourceType.rec P (fun args => ∀ arg ∈ args, P arg) named typeVar primitive array wildcard bounded spaced
    (fun _ h => absurd h List.not_mem_nil)
    (fun _ _ harg hargs => List.forall_mem_cons.mpr ⟨harg, hargs⟩) ty

mutual

def text : SourceType → List Char
  | .named name gap args =>
    if args.isEmpty then name else name ++ gap ++ '<' :: ([','].intercalate (texts args) ++ ['>'])
  | .typeVar name => name
  | .primitive name => name
  | .array element inside => text element ++ '[' :: (inside ++ [']'])
  | .wildcard => ['?']
  | .bounded upper gap space bound =>
    '?' :: (gap ++ (if upper then "extends".toList else "super".toList) ++ space ++ text bound)
  | .spaced before ty after => before ++ text ty ++ after

def texts : List SourceType → List (List Char)
  | [] => []
  | arg :: args => text arg :: texts args

end

theorem texts_eq_map (args : List SourceType) : texts args = args.map text := by
  induction args with
  | nil => rfl
  | cons arg args ih => rw [texts, ih, List.map_cons]

/-- A type variable, with blanks around it. -/
def isTypeVariable : SourceType → Bool
  | .typeVar _ => true
  | .spaced _ ty _ => isTypeVariable ty
  | _ => false

mutual

/-- Nothing in it is a type variable, a primitive type or a bounded wildcard, and the brackets of arrays have no blanks
between them. -/
def plain : SourceType → Bool
  | .named _ _ args => plainArgs args
  | .typeVar _ => false
  | .primitive _ => false
  | .array element inside => inside.isEmpty && plain element
  | .wildcard => true
  | .bounded .. => false
  | .spaced _ ty _ => plain ty

def plainArgs : List SourceType → Bool
  | [] => true
  | arg :: args => plain arg && plainArgs args

end

end SourceType

namespace TypeScope

variable (scope : TypeScope)

def translate (sourceTy : List Char) : List Char :=
  javaSourceTypeToJvmGeneric scope.resolveSimpleName scope.typeParams sourceTy

mutual

/-- The type that is meant. -/
def intended : SourceType → JvmType
  | .named name _ args => .object (String.ofList (scope.resolveSimpleName name)) (intendedArgs args)
  | .typeVar name => .typeVar (String.ofList name)
  | .primitive name => .primitive ((primitiveLetter name).getD 'V')
  | .array element _ => .array (intended element)
  | .wildcard => .wildcard
  | .bounded upper _ _ bound => .wildcardBound (if upper then '+' else '-') (intended bound)
  | .spaced _ ty _ => intended ty

def intendedArgs : List SourceType → List JvmType
  | [] => []
  | arg :: args => intended arg :: intendedArgs args

end

def isBlank (s : List Char) : Bool :=
  s.all isWhitespace

mutual

/-- A type, or a type argument: wildcards are type arguments only. -/
def wellFormed (asArgument : Bool) : SourceType → Bool
  | .named name gap args =>
    isQualifiedName name && !scope.typeParams.contains name && (primitiveLetter name).isNone && isBlank gap &&
      wellFormedArgs args
  | .typeVar name => scope.typeParams.contains name
  | .primitive name => isQualifiedName name && !scope.typeParams.contains name && (primitiveLetter name).isSome
  | .array element inside => isBlank inside && wellFormed false element
  | .wildcard => asArgument
  | .bounded _ gap space bound => asArgument && isBlank gap && isBlank space && wellFormed false bound
  | .spaced before ty after => isBlank before && isBlank after && wellFormed asArgument ty

def wellFormedArgs : List SourceType → Bool
  | [] => true
  | arg :: args => wellFormed true arg && wellFormedArgs args

end

/-- The text that is made of a type is read back as the type that is meant. -/
def DecodesBack (ty : SourceType) : Prop :=
  JvmType.parse (descriptorForm (scope.translate ty.text)) = some (scope.intended ty, [])

end TypeScope

/-! ## The translation without fuel -/

section Fuel

variable (resolveSimpleName : List Char → List Char) (typeParams : List (List Char))

theorem translateClass_congr {resolvedArg resolvedArg' : List Char → List Char} {ty : List Char}
    (h : ∀ arg, arg.length < ty.length → resolvedArg arg = resolvedArg' arg) :
    translateClass resolveSimpleName resolvedArg ty = translateClass resolveSimpleName resolvedArg' ty := by
  rw [translateClass, translateClass]
  split
  · rename_i pos hpos
    split_ifs with hclose
    · have hargs : ∀ arg ∈ splitTopLevel ',' 0 (ty.drop (pos + 1)).dropLast, resolvedArg arg = resolvedArg' arg := by
        intro arg harg
        have hlen := length_add_of_mem_splitTopLevel harg
        have hsome := List.length_pos_of_mem harg
        have hne : ty ≠ [] := by
          rintro rfl
          cases hclose
        have hpositive := List.length_pos_iff.mpr hne
        refine h arg ?_
        simp only [List.length_dropLast, List.length_drop] at hlen
        omega
      dsimp only
      rw [List.flatMap_congr hargs]
    · rfl
  · rfl

theorem fuel_eq (fuel : ℕ) (sourceTy : List Char) :
    javaSourceTypeToJvmGenericFuel resolveSimpleName typeParams (fuel + 1) sourceTy =
      if typeParams.contains (trim sourceTy) then 'T' :: (trim sourceTy ++ [';'])
      else
        wrapArrays (stripDimensions (trim sourceTy)).1 (translateClass resolveSimpleName
          (fun arg =>
            if trim arg = ['?'] then ['*']
            else wrapObject (javaSourceTypeToJvmGenericFuel resolveSimpleName typeParams fuel (trim arg)))
          (stripDimensions (trim sourceTy)).2) := rfl

theorem fuel_stable {fuel fuel' : ℕ} {sourceTy : List Char} (h : sourceTy.length < fuel)
    (h' : sourceTy.length < fuel') :
    javaSourceTypeToJvmGenericFuel resolveSimpleName typeParams fuel sourceTy =
      javaSourceTypeToJvmGenericFuel resolveSimpleName typeParams fuel' sourceTy := by
  induction fuel generalizing fuel' sourceTy with
  | zero => exact absurd h (Nat.not_lt_zero _)
  | succ fuel ih =>
    obtain ⟨fuel', rfl⟩ : ∃ n, fuel' = n + 1 := ⟨fuel' - 1, by omega⟩
    have hcore : (stripDimensions (trim sourceTy)).2.length ≤ sourceTy.length :=
      (stripDimensions_front (trimStart_trim sourceTy)).length_le.trans (trim_length_le sourceTy)
    rw [fuel_eq, fuel_eq]
    congr 2
    refine translateClass_congr resolveSimpleName fun arg harg => ?_
    have hlen := trim_length_le arg
    rw [@ih fuel' _ (by omega) (by omega)]

end Fuel

namespace TypeScope

variable (scope : TypeScope)

/-- A type argument as the arguments of a class have it. -/
def argument (arg : List Char) : List Char :=
  if trim arg = ['?'] then ['*'] else wrapObject (scope.translate arg)

theorem translate_trim (s : List Char) : scope.translate (trim s) = scope.translate s := by
  have hlen := trim_length_le s
  rw [translate, translate, javaSourceTypeToJvmGeneric, javaSourceTypeToJvmGeneric,
    @fuel_stable _ _ _ (s.length + 1) _ (Nat.lt_succ_self _) (by omega), fuel_eq, fuel_eq, trim_trim]

theorem translate_eq (s : List Char) :
    scope.translate s =
      if scope.typeParams.contains (trim s) then 'T' :: (trim s ++ [';'])
      else
        wrapArrays (stripDimensions (trim s)).1
          (translateClass scope.resolveSimpleName scope.argument (stripDimensions (trim s)).2) := by
  have hcore : (stripDimensions (trim s)).2.length ≤ s.length :=
    (stripDimensions_front (trimStart_trim s)).length_le.trans (trim_length_le s)
  rw [translate, javaSourceTypeToJvmGeneric, fuel_eq]
  congr 2
  refine translateClass_congr _ fun arg harg => ?_
  have hlen := trim_length_le arg
  rw [argument, ← translate_trim, translate, javaSourceTypeToJvmGeneric,
    @fuel_stable _ _ _ s.length _ (Nat.lt_succ_self _) (by omega)]

end TypeScope

/-! ## Texts of types -/

def isNameChar (c : Char) : Bool :=
  isIdentifierChar c || c = '.'

/-- The characters of names, and the first one no dot. -/
structure IsNameText (name : List Char) : Prop where
  head : ∃ c rest, name = c :: rest ∧ isIdentifierChar c = true
  chars : ∀ c ∈ name, isNameChar c = true

section Names

variable {name : List Char}

theorem isNameText_of_qualified (h : isQualifiedName name = true) : IsNameText name where
  head := by
    have hjoined : ['.'].intercalate (name.splitOn '.') = name := List.intercalate_splitOn '.'
    obtain ⟨first, rest, hsplit⟩ := List.exists_cons_of_ne_nil (List.splitOn_ne_nil '.' name)
    have hfirst := List.all_eq_true.mp h first (by rw [hsplit]; exact List.mem_cons_self)
    rw [Bool.and_eq_true, Bool.not_eq_true', List.isEmpty_eq_false_iff, List.all_eq_true] at hfirst
    obtain ⟨c, chars, rfl⟩ := List.exists_cons_of_ne_nil hfirst.1
    rw [hsplit] at hjoined
    cases rest with
    | nil => exact ⟨c, chars, by rw [← hjoined, List.intercalate_singleton], hfirst.2 c List.mem_cons_self⟩
    | cons next rest =>
      refine ⟨c, chars ++ '.' :: ['.'].intercalate (next :: rest), ?_, hfirst.2 c List.mem_cons_self⟩
      rw [← hjoined, List.intercalate_cons_cons]
      simp
  chars := by
    intro c hc
    have hjoined : ['.'].intercalate (name.splitOn '.') = name := List.intercalate_splitOn '.'
    rw [← hjoined] at hc
    rcases mem_intercalate hc with hdot | ⟨segment, hsegment, hmem⟩
    · rw [List.mem_singleton.mp hdot]
      rfl
    · have hall := List.all_eq_true.mp h segment hsegment
      rw [Bool.and_eq_true, List.all_eq_true] at hall
      rw [isNameChar, hall.2 c hmem, Bool.true_or]

theorem isNameText_of_identifier (hne : name ≠ []) (h : ∀ c ∈ name, isIdentifierChar c = true) : IsNameText name where
  head := by
    obtain ⟨c, rest, rfl⟩ := List.exists_cons_of_ne_nil hne
    exact ⟨c, rest, rfl, h c List.mem_cons_self⟩
  chars c hc := by rw [isNameChar, h c hc, Bool.true_or]

theorem isWhitespace_nameChar {c : Char} (h : isNameChar c = true) : isWhitespace c = false := by
  rcases (Bool.or_eq_true _ _).mp h with hid | hdot
  · exact (isIdentifierChar_cases hid).1
  · obtain rfl := of_decide_eq_true hdot
    rfl

theorem IsNameText.solid (h : IsNameText name) : Solid name where
  ne_nil := by
    obtain ⟨c, rest, rfl, -⟩ := h.head
    exact List.cons_ne_nil _ _
  head c hc := isWhitespace_nameChar (h.chars c (List.mem_of_mem_head? hc))
  last c hc := isWhitespace_nameChar (h.chars c (List.mem_of_mem_getLast? hc))

theorem IsNameText.notMem (h : IsNameText name) {c : Char} (hc : isNameChar c = false) : c ∉ name :=
  fun hmem => Bool.false_ne_true (hc.symm.trans (h.chars c hmem))

theorem IsNameText.plain (h : IsNameText name) : Plain name :=
  fun _ hc => ⟨ne_of_test (h.chars _ hc) (by decide), ne_of_test (h.chars _ hc) (by decide),
    ne_of_test (h.chars _ hc) (by decide)⟩

theorem blank_of_isBlank {s : List Char} (h : TypeScope.isBlank s = true) : Blank s :=
  List.all_eq_true.mp h

theorem plain_blank {s : List Char} (h : Blank s) : Plain s :=
  fun _ hc => isWhitespace_plain (h _ hc)

end Names

section Dimensions

theorem stripDimensionsFuel_stable {n m : ℕ} {s : List Char} (hn : s.length ≤ n) (hm : s.length ≤ m) :
    stripDimensionsFuel n s = stripDimensionsFuel m s := by
  induction n generalizing m s with
  | zero =>
    obtain rfl := List.length_eq_zero_iff.mp (Nat.le_zero.mp hn)
    cases m <;> rfl
  | succ n ih =>
    cases m with
    | zero =>
      obtain rfl := List.length_eq_zero_iff.mp (Nat.le_zero.mp hm)
      rfl
    | succ m =>
      rw [stripDimensionsFuel, stripDimensionsFuel]
      split
      · rename_i stripped hstripped
        have hparts := congrArg List.length (stripSuffix_eq_some hstripped)
        rw [List.length_append, List.length_cons, List.length_singleton] at hparts
        have hlen := trim_length_le stripped
        rw [ih (m := m) (by omega) (by omega)]
      · rfl

theorem stripDimensions_eq (s : List Char) :
    stripDimensions s =
      match stripSuffix ['[', ']'] s with
      | some stripped => ((stripDimensions (trim stripped)).1 + 1, (stripDimensions (trim stripped)).2)
      | none => (0, s) := by
  rw [stripDimensions, stripDimensionsFuel_stable le_rfl (Nat.le_succ _), stripDimensionsFuel]
  cases hstripped : stripSuffix ['[', ']'] s with
  | none => rfl
  | some stripped =>
    have hparts := congrArg List.length (stripSuffix_eq_some hstripped)
    rw [List.length_append, List.length_cons, List.length_singleton] at hparts
    have hlen := trim_length_le stripped
    dsimp only
    rw [stripDimensions, @stripDimensionsFuel_stable s.length (trim stripped).length _ (by omega) le_rfl]

theorem stripDimensions_brackets (s : List Char) :
    stripDimensions (s ++ ['[', ']']) = ((stripDimensions (trim s)).1 + 1, (stripDimensions (trim s)).2) := by
  have hsuffix : stripSuffix ['[', ']'] (s ++ ['[', ']']) = some s := by
    rw [stripSuffix, if_pos (List.isSuffixOf_iff_suffix.mpr ⟨s, rfl⟩), List.length_append, Nat.add_sub_cancel,
      List.take_left]
  rw [stripDimensions_eq, hsuffix]

/-- Without brackets at the end there is nothing to strip. -/
theorem stripDimensions_of_not_suffix {s : List Char} (h : ¬['[', ']'] <:+ s) : stripDimensions s = (0, s) := by
  rw [stripDimensions_eq, stripSuffix, if_neg fun hsuffix => h (List.isSuffixOf_iff_suffix.mp hsuffix)]

theorem stripDimensions_of_last {s : List Char} {c : Char} (h : s.getLast? = some c) (hc : c ≠ ']') :
    stripDimensions s = (0, s) := by
  refine stripDimensions_of_not_suffix ?_
  rintro ⟨front, rfl⟩
  rw [List.getLast?_append_of_ne_nil _ (List.cons_ne_nil _ _)] at h
  exact hc (Option.some.inj h).symm

end Dimensions

/-! ## Translations of texts -/

namespace TypeScope

variable {scope : TypeScope} {asArgument : Bool} {ty element : SourceType} {name : List Char}

theorem not_typeParam {s : List Char} {c : Char} (hc : c ∈ s) (hname : isIdentifierChar c = false) :
    scope.typeParams.contains s = false := by
  rw [← Bool.not_eq_true, List.contains_iff_mem]
  intro hmem
  exact Bool.false_ne_true (hname.symm.trans ((scope.identifiers s hmem).2 c hc))

theorem isNameText_typeParam (h : scope.typeParams.contains name = true) : IsNameText name :=
  have hid := scope.identifiers name (List.contains_iff_mem.mp h)
  isNameText_of_identifier hid.1 hid.2

theorem translate_typeParam (h : scope.typeParams.contains name = true) :
    scope.translate name = 'T' :: (name ++ [';']) := by
  rw [translate_eq, (isNameText_typeParam h).solid.trim_eq, if_pos h]

theorem translate_name (hname : IsNameText name) (h : scope.typeParams.contains name = false) :
    scope.translate name = scope.resolveSimpleName name := by
  have hlast : ∃ c, name.getLast? = some c ∧ c ≠ ']' := by
    obtain ⟨c, rest, rfl, -⟩ := hname.head
    refine ⟨_, List.getLast?_eq_some_getLast (List.cons_ne_nil c rest), fun hc => ?_⟩
    exact hname.notMem (by decide) (hc ▸ List.getLast_mem (List.cons_ne_nil c rest))
  obtain ⟨c, hlast, hc⟩ := hlast
  rw [translate_eq, hname.solid.trim_eq, if_neg (by rw [h]; exact Bool.false_ne_true), stripDimensions_of_last hlast hc]
  rw [wrapArrays, translateClass, List.idxOf?_eq_none_iff.mpr (hname.notMem (by decide))]

theorem translate_generic (hname : IsNameText name) {gap : List Char} (hgap : Blank gap) {args : List (List Char)}
    (hargs : ∀ arg ∈ args, Sealed 0 arg) (hne : args ≠ []) :
    scope.translate (name ++ gap ++ '<' :: ([','].intercalate args ++ ['>'])) =
      scope.resolveSimpleName name ++ '<' :: (args.flatMap scope.argument ++ ['>']) := by
  have hsolid : Solid (name ++ (gap ++ '<' :: [','].intercalate args) ++ ['>']) :=
    hname.solid.append _ (solid_singleton (by decide))
  have htext : name ++ gap ++ '<' :: ([','].intercalate args ++ ['>']) =
      name ++ (gap ++ '<' :: [','].intercalate args) ++ ['>'] := by simp
  have hlast : (name ++ gap ++ '<' :: ([','].intercalate args ++ ['>'])).getLast? = some '>' := by
    rw [htext, List.getLast?_concat]
  have hopen : '<' ∉ name ++ gap := by
    rw [List.mem_append]
    rintro (hmem | hmem)
    · exact hname.notMem (by decide) hmem
    · exact (isWhitespace_plain (hgap _ hmem)).1 rfl
  have hparam : scope.typeParams.contains (name ++ gap ++ '<' :: ([','].intercalate args ++ ['>'])) = false :=
    @not_typeParam _ _ '<' (List.mem_append_right _ List.mem_cons_self) (by decide)
  have htrim : trim (name ++ gap ++ '<' :: ([','].intercalate args ++ ['>'])) =
      name ++ gap ++ '<' :: ([','].intercalate args ++ ['>']) := by rw [htext, hsolid.trim_eq]
  rw [translate_eq, htrim, if_neg (by rw [hparam]; exact Bool.false_ne_true),
    stripDimensions_of_last hlast (by decide), wrapArrays, translateClass, idxOf?_append_cons hopen]
  dsimp only
  have hdrop : (name ++ gap ++ '<' :: ([','].intercalate args ++ ['>'])).drop ((name ++ gap).length + 1) =
      [','].intercalate args ++ ['>'] := by
    rw [← List.drop_drop, List.drop_left]
    rfl
  rw [if_pos hlast, List.take_left, hdrop, List.dropLast_concat, splitTopLevel_intercalate hargs hne,
    trim_append_blank _ hgap, hname.solid.trim_eq]

theorem solid_dimension (inside : List Char) : Solid ('[' :: (inside ++ [']'])) :=
  (solid_singleton (by decide)).append inside (solid_singleton (by decide))

theorem not_typeParam_dimension (s inside : List Char) :
    scope.typeParams.contains (s ++ '[' :: (inside ++ [']'])) = false :=
  @not_typeParam _ _ '[' (List.mem_append_right _ List.mem_cons_self) (by decide)

/-- The brackets of an array, where nothing stands between them. -/
theorem translate_array (s : List Char) :
    scope.translate (s ++ ['[', ']']) =
      '[' :: wrapObject (if scope.typeParams.contains (trim s) then
        wrapArrays (stripDimensions (trim s)).1
          (translateClass scope.resolveSimpleName scope.argument (stripDimensions (trim s)).2)
        else scope.translate s) := by
  have hcore : trim (trimStart s) = trim s := by rw [trim, trimStart_trimStart, trim]
  have htrim : trim (s ++ ['[', ']']) = trimStart s ++ ['[', ']'] := trim_append_solid s (solid_dimension [])
  have hparam : scope.typeParams.contains (trimStart s ++ ['[', ']']) = false := not_typeParam_dimension _ []
  rw [translate_eq, htrim, if_neg (by rw [hparam]; exact Bool.false_ne_true), stripDimensions_brackets, hcore,
    wrapArrays]
  split_ifs with hvar
  · rfl
  · rw [translate_eq, if_neg hvar]

/-- With blanks between its brackets, an array is taken for a class. -/
theorem translate_looseArray (s : List Char) {inside : List Char} (hblank : Blank inside) (hne : inside ≠ []) :
    scope.translate (s ++ '[' :: (inside ++ [']'])) =
      scope.resolveSimpleName (trimStart s ++ '[' :: (inside ++ [']'])) := by
  have hlast : (trimStart s ++ '[' :: (inside ++ [']'])).getLast? = some ']' := by
    rw [← List.cons_append, ← List.append_assoc, List.getLast?_concat]
  have hsuffix : ¬['[', ']'] <:+ trimStart s ++ '[' :: (inside ++ [']']) := by
    rintro ⟨front, hfront⟩
    obtain ⟨init, c, rfl⟩ := (List.eq_nil_or_concat' inside).resolve_left hne
    have hparts : front ++ ['[', ']'] = (trimStart s ++ '[' :: init) ++ [c, ']'] := by
      rw [hfront]
      simp
    have hc := (List.cons.inj (List.append_inj_right' hparts rfl)).1
    exact absurd (hblank c (List.mem_append_right _ (List.mem_singleton_self c))) (by rw [← hc]; decide)
  rw [translate_eq, trim_append_solid s (solid_dimension inside),
    if_neg (by rw [not_typeParam_dimension]; exact Bool.false_ne_true), stripDimensions_of_not_suffix hsuffix,
    wrapArrays, translateClass]
  split
  · rw [if_neg]
    dsimp only
    rw [hlast]
    decide
  · rfl

/-! ## Texts of types are read as one -/

theorem wellFormedArgs_mem {args : List SourceType} (h : scope.wellFormedArgs args = true) {arg : SourceType}
    (harg : arg ∈ args) : scope.wellFormed true arg = true := by
  induction args with
  | nil => exact absurd harg List.not_mem_nil
  | cons first args ih =>
    rw [wellFormedArgs, Bool.and_eq_true] at h
    rcases List.mem_cons.mp harg with rfl | hrest
    · exact h.1
    · exact ih h.2 hrest

theorem sealed_text (h : scope.wellFormed asArgument ty = true) : Sealed 0 ty.text := by
  induction ty using SourceType.inductOn generalizing asArgument with
  | named name gap args ih =>
    simp only [wellFormed, Bool.and_eq_true] at h
    obtain ⟨⟨⟨⟨hqualified, -⟩, -⟩, hgap⟩, hargs⟩ := h
    have hname := (isNameText_of_qualified hqualified).plain
    rw [SourceType.text]
    split_ifs
    · exact hname.sealed 0
    · rw [SourceType.texts_eq_map]
      refine ((hname.sealed 0).append ((plain_blank (blank_of_isBlank hgap)).sealed 0)).append (Sealed.brackets ?_)
      refine Sealed.intercalate one_pos fun piece hpiece => ?_
      obtain ⟨arg, harg, rfl⟩ := List.mem_map.mp hpiece
      exact (ih arg harg (wellFormedArgs_mem hargs harg)).mono zero_le_one
  | typeVar name => exact (isNameText_typeParam h).plain.sealed 0
  | primitive name =>
    simp only [wellFormed, Bool.and_eq_true] at h
    exact (isNameText_of_qualified h.1.1).plain.sealed 0
  | array element inside ih =>
    simp only [wellFormed, Bool.and_eq_true] at h
    refine (ih h.2).append (Plain.sealed (fun c hc => ?_) 0)
    rcases List.mem_cons.mp hc with rfl | hc
    · decide
    rcases List.mem_append.mp hc with hinside | hclose
    · exact plain_blank (blank_of_isBlank h.1) c hinside
    · rw [List.mem_singleton.mp hclose]
      decide
  | wildcard => exact Plain.sealed (fun c hc => by rw [List.mem_singleton.mp hc]; decide) 0
  | bounded upper gap space bound ih =>
    simp only [wellFormed, Bool.and_eq_true] at h
    obtain ⟨⟨⟨-, hgap⟩, hspace⟩, hbound⟩ := h
    have hword : IsNameText (if upper then "extends".toList else "super".toList) :=
      isNameText_of_identifier (by cases upper <;> decide) (List.all_eq_true.mp (by cases upper <;> rfl))
    have hmark : Plain ['?'] := fun c hc => by rw [List.mem_singleton.mp hc]; decide
    have hfront := (hmark.sealed 0).append ((plain_blank (blank_of_isBlank hgap)).sealed 0)
    exact ((hfront.append (hword.plain.sealed 0)).append
      ((plain_blank (blank_of_isBlank hspace)).sealed 0)).append (ih hbound)
  | spaced before ty after ih =>
    simp only [wellFormed, Bool.and_eq_true] at h
    exact (((plain_blank (blank_of_isBlank h.1.1)).sealed 0).append (ih h.2)).append
      ((plain_blank (blank_of_isBlank h.1.2)).sealed 0)

theorem translate_arguments (hname : IsNameText name) {gap : List Char} (hgap : Blank gap) {args : List SourceType}
    (hargs : scope.wellFormedArgs args = true) (hne : args ≠ []) :
    scope.translate (name ++ gap ++ '<' :: ([','].intercalate (SourceType.texts args) ++ ['>'])) =
      scope.resolveSimpleName name ++ '<' :: (args.flatMap (fun arg => scope.argument arg.text) ++ ['>']) := by
  have hsealed : ∀ text ∈ args.map SourceType.text, Sealed 0 text := by
    intro text htext
    obtain ⟨ty, hty, rfl⟩ := List.mem_map.mp htext
    exact sealed_text (wellFormedArgs_mem hargs hty)
  rw [SourceType.texts_eq_map, translate_generic hname hgap hsealed (by simpa using hne), List.flatMap_map]

/-- A type starts with a character of a name. -/
theorem head_text (h : scope.wellFormed false ty = true) :
    ∃ c rest, trimStart ty.text = c :: rest ∧ isIdentifierChar c = true := by
  have hstart : ∀ {name : List Char}, IsNameText name → ∀ back,
      ∃ c rest, trimStart (name ++ back) = c :: rest ∧ isIdentifierChar c = true := by
    rintro name hname back
    obtain ⟨c, rest, rfl, hc⟩ := hname.head
    refine ⟨c, rest ++ back, ?_, hc⟩
    exact List.dropWhile_cons_of_neg (by rw [(isIdentifierChar_cases hc).1]; exact Bool.false_ne_true)
  have happend : ∀ {s : List Char}, (∃ c rest, trimStart s = c :: rest ∧ isIdentifierChar c = true) → ∀ back,
      ∃ c rest, trimStart (s ++ back) = c :: rest ∧ isIdentifierChar c = true := by
    rintro s ⟨c, rest, hs, hc⟩ back
    refine ⟨c, rest ++ back, ?_, hc⟩
    rw [trimStart, List.dropWhile_append, show s.dropWhile isWhitespace = c :: rest from hs]
    rfl
  induction ty using SourceType.inductOn with
  | named name gap args _ =>
    simp only [wellFormed, Bool.and_eq_true] at h
    have hname := isNameText_of_qualified h.1.1.1.1
    rw [SourceType.text]
    split_ifs
    · simpa using hstart hname []
    · rw [List.append_assoc]
      exact hstart hname _
  | typeVar name => simpa [SourceType.text] using hstart (isNameText_typeParam h) []
  | primitive name =>
    simp only [wellFormed, Bool.and_eq_true] at h
    simpa [SourceType.text] using hstart (isNameText_of_qualified h.1.1) []
  | array element inside ih =>
    simp only [wellFormed, Bool.and_eq_true] at h
    exact happend (ih h.2) _
  | wildcard => exact absurd h (by simp [wellFormed])
  | bounded upper gap space bound _ => exact absurd h (by simp [wellFormed])
  | spaced before ty after ih =>
    simp only [wellFormed, Bool.and_eq_true] at h
    rw [SourceType.text, List.append_assoc, trimStart_blank_append (blank_of_isBlank h.1.1)]
    exact happend (ih h.2) after

theorem argument_type (h : scope.wellFormed false ty = true) :
    scope.argument ty.text = wrapObject (scope.translate ty.text) := by
  obtain ⟨c, rest, hstart, hc⟩ := head_text h
  refine if_neg fun hquestion => ?_
  have hmem : c ∈ ty.text := (trimStart_suffix _).subset (hstart ▸ List.mem_cons_self)
  have hcount := count_trim (isIdentifierChar_cases hc).1 ty.text
  rw [hquestion] at hcount
  have hpos := List.count_pos_iff.mpr hmem
  rw [← hcount, List.count_pos_iff, List.mem_singleton] at hpos
  rw [hpos] at hc
  exact absurd hc (by decide)

theorem mem_trim {s : List Char} {c : Char} (hc : isWhitespace c = false) : c ∈ trim s ↔ c ∈ s := by
  rw [← List.count_pos_iff, count_trim hc, List.count_pos_iff]

theorem trim_spaced {before after : List Char} (hbefore : isBlank before = true) (hafter : isBlank after = true)
    (s : List Char) : trim (before ++ s ++ after) = trim s := by
  rw [trim_append_blank _ (blank_of_isBlank hafter), trim_blank_append (blank_of_isBlank hbefore)]

theorem typeParam_text_iff (h : scope.wellFormed false ty = true) :
    scope.typeParams.contains (trim ty.text) = true ↔ ty.isTypeVariable = true := by
  induction ty using SourceType.inductOn with
  | named name gap args _ =>
    simp only [wellFormed, Bool.and_eq_true, Bool.not_eq_true'] at h
    obtain ⟨⟨⟨⟨hqualified, hparam⟩, -⟩, -⟩, -⟩ := h
    refine iff_of_false ?_ Bool.false_ne_true
    rw [SourceType.text, Bool.not_eq_true]
    split_ifs
    · rw [(isNameText_of_qualified hqualified).solid.trim_eq, hparam]
    · exact not_typeParam ((mem_trim (by decide)).mpr (List.mem_append_right _ List.mem_cons_self)) (by decide)
  | typeVar name =>
    rw [SourceType.text, (isNameText_typeParam h).solid.trim_eq]
    exact iff_of_true h rfl
  | primitive name =>
    simp only [wellFormed, Bool.and_eq_true, Bool.not_eq_true'] at h
    rw [SourceType.text, (isNameText_of_qualified h.1.1).solid.trim_eq, h.1.2]
    rfl
  | array element inside _ =>
    refine iff_of_false ?_ Bool.false_ne_true
    rw [SourceType.text, Bool.not_eq_true]
    exact not_typeParam ((mem_trim (by decide)).mpr (List.mem_append_right _ List.mem_cons_self)) (by decide)
  | wildcard => exact absurd h (by simp [wellFormed])
  | bounded upper gap space bound _ => exact absurd h (by simp [wellFormed])
  | spaced before ty after ih =>
    simp only [wellFormed, Bool.and_eq_true] at h
    rw [SourceType.text, trim_spaced h.1.1 h.1.2]
    exact ih h.2

end TypeScope

/-! ## What is read from the texts -/

theorem parse_object {s : List Char} {p : JvmType × List Char} (h : parse ('L' :: s) = some p) :
    ∃ name args, p.1 = .object name args := by
  rw [parse, List.length_cons, parseFuel, if_pos rfl] at h
  split at h
  · obtain ⟨q, -, rfl⟩ := Option.map_eq_some_iff.mp h
    exact ⟨_, _, rfl⟩
  · obtain rfl := Option.some.inj h
    exact ⟨_, _, rfl⟩

theorem parse_array (s : List Char) : parse ('[' :: s) = (parse s).map fun p => (.array p.1, p.2) := by
  rw [parse_cons (by decide), if_neg (by decide), if_pos rfl]

/-- An argument that is no wildcard is read as a class or an array, if at all. -/
theorem parse_wrapObject {inner rest : List Char} {p : JvmType × List Char}
    (h : parse (wrapObject inner ++ rest) = some p) : (∃ name args, p.1 = .object name args) ∨ ∃ t, p.1 = .array t := by
  rw [wrapObject] at h
  split_ifs at h with hhead
  · obtain ⟨tail, rfl⟩ := List.head?_eq_some_iff.mp (beq_iff_eq.mp hhead)
    rw [List.cons_append, parse_array] at h
    obtain ⟨q, -, rfl⟩ := Option.map_eq_some_iff.mp h
    exact Or.inr ⟨q.1, rfl⟩
  · exact Or.inl (parse_object h)

namespace TypeScope

variable {scope : TypeScope} {asArgument : Bool} {ty element : SourceType} {name : List Char}

/-- What a name becomes stays a name. -/
theorem resolve_name (hname : IsNameText name) :
    (scope.resolveSimpleName name).head? ≠ some '[' ∧ ∀ c ∈ scope.resolveSimpleName name, endsClassName c = false := by
  rcases scope.resolves name with hsame | hinternal
  · rw [hsame]
    obtain ⟨c, rest, rfl, hc⟩ := hname.head
    refine ⟨fun h => ?_, fun d hd => ?_⟩
    · rw [Option.some.inj h] at hc
      exact absurd hc (by decide)
    · by_contra hends
      have hname := hname.chars d hd
      simp only [endsClassName, Bool.not_eq_false, Bool.or_eq_true, decide_eq_true_eq] at hends
      rcases hends with rfl | rfl <;> exact absurd hname (by decide)
  · exact hinternal

theorem wrapObject_name {inner : List Char} (h : inner.head? ≠ some '[') :
    wrapObject inner = 'L' :: (inner ++ [';']) :=
  if_neg (by simpa using h)

/-- How an argument is read: as the type that is meant where it is plain, and as that type nowhere else. -/
def ReadsRight (scope : TypeScope) (ty : SourceType) : Prop :=
  ∀ rest, (ty.plain = true → parse (scope.argument ty.text ++ rest) = some (scope.intended ty, rest)) ∧
    ∀ back, parse (scope.argument ty.text ++ rest) = some (scope.intended ty, back) → ty.plain = true

theorem argument_head (s : List Char) : ∃ c rest, scope.argument s = c :: rest ∧ c ≠ '>' := by
  rw [argument]
  split_ifs
  · exact ⟨'*', [], rfl, by decide⟩
  · rw [wrapObject]
    split_ifs with hhead
    · obtain ⟨tail, htail⟩ := List.head?_eq_some_iff.mp (beq_iff_eq.mp hhead)
      exact ⟨'[', tail, htail, by decide⟩
    · exact ⟨'L', _, rfl, by decide⟩

theorem readsRight_args {args : List SourceType} (h : ∀ arg ∈ args, scope.ReadsRight arg) (rest : List Char) :
    (SourceType.plainArgs args = true →
        parseArgs (args.flatMap (fun arg => scope.argument arg.text) ++ '>' :: rest) =
          some (scope.intendedArgs args, rest)) ∧
      ∀ back, parseArgs (args.flatMap (fun arg => scope.argument arg.text) ++ '>' :: rest) =
        some (scope.intendedArgs args, back) → SourceType.plainArgs args = true := by
  induction args with
  | nil =>
    refine ⟨fun _ => ?_, fun _ _ => rfl⟩
    rw [List.flatMap_nil, List.nil_append, parseArgs_cons, if_pos rfl, intendedArgs]
  | cons arg args ih =>
    obtain ⟨harg, hargs⟩ := List.forall_mem_cons.mp h
    obtain ⟨hplain, hback⟩ := harg (args.flatMap (fun arg => scope.argument arg.text) ++ '>' :: rest)
    obtain ⟨hplains, hbacks⟩ := ih hargs
    obtain ⟨c, tail, hhead, hc⟩ := @argument_head scope arg.text
    rw [List.flatMap_cons, List.append_assoc]
    rw [hhead, List.cons_append] at hplain hback ⊢
    rw [parseArgs_cons, if_neg hc, SourceType.plainArgs, Bool.and_eq_true, intendedArgs]
    constructor
    · rintro ⟨hthis, hothers⟩
      rw [hplain hthis, Option.bind_some, hplains hothers, Option.map_some]
    · intro back heq
      obtain ⟨p, hp, hmap⟩ := Option.bind_eq_some_iff.mp heq
      obtain ⟨q, hq, hpair⟩ := Option.map_eq_some_iff.mp hmap
      obtain ⟨htypes, -⟩ := Prod.mk.inj hpair
      obtain ⟨hfirst, hothers⟩ := List.cons.inj htypes
      have hthis : arg.plain = true := hback p.2 (by rw [hp, ← hfirst])
      -- A plain argument is read to its end, so the others are read from where they begin.
      rw [hplain hthis] at hp
      obtain rfl := Option.some.inj hp
      exact ⟨hthis, hbacks q.2 (by rw [hq, ← hothers])⟩

theorem intended_typeVariable (h : scope.wellFormed false ty = true) (hvar : ty.isTypeVariable = true) :
    scope.intended ty = .typeVar (String.ofList (trim ty.text)) := by
  induction ty using SourceType.inductOn with
  | typeVar name =>
    rw [intended, SourceType.text, (isNameText_typeParam h).solid.trim_eq]
  | spaced before ty after ih =>
    simp only [wellFormed, Bool.and_eq_true] at h
    rw [intended, SourceType.text, trim_spaced h.1.1 h.1.2]
    exact ih h.2 hvar
  | _ => cases hvar

theorem not_plain_typeVariable (h : ty.isTypeVariable = true) : ty.plain = false := by
  induction ty using SourceType.inductOn with
  | typeVar name => rfl
  | spaced before ty after ih => exact ih h
  | _ => cases h

theorem argument_trim {s s' : List Char} (h : trim s = trim s') : scope.argument s = scope.argument s' := by
  rw [argument, argument, ← translate_trim, h, translate_trim]

/-- A class or an array is read, and the type that is meant is neither. -/
theorem readsRight_of_other {inner : List Char} (harg : scope.argument ty.text = wrapObject inner)
    (hplain : ty.plain = false) (hobject : ∀ name args, scope.intended ty ≠ .object name args)
    (harray : ∀ t, scope.intended ty ≠ .array t) : scope.ReadsRight ty := by
  refine fun rest => ⟨fun h => absurd (hplain.symm.trans h) Bool.false_ne_true, fun back h => ?_⟩
  rw [harg] at h
  rcases parse_wrapObject h with ⟨name, args, hname⟩ | ⟨t, ht⟩
  · exact absurd hname (hobject name args)
  · exact absurd ht (harray t)

theorem readsRight_named {gap : List Char} {args : List SourceType}
    (h : scope.wellFormed false (.named name gap args) = true) (hargs : ∀ arg ∈ args, scope.ReadsRight arg) :
    scope.ReadsRight (.named name gap args) := by
  intro rest
  have hall := h
  simp only [wellFormed, Bool.and_eq_true, Bool.not_eq_true'] at hall
  obtain ⟨⟨⟨⟨hqualified, hparam⟩, -⟩, hgap⟩, hformed⟩ := hall
  have hname := isNameText_of_qualified hqualified
  obtain ⟨hhead, hends⟩ := @resolve_name scope _ hname
  rw [argument_type h, SourceType.text, SourceType.plain, intended]
  split_ifs with hempty
  · obtain rfl := List.isEmpty_iff.mp hempty
    rw [translate_name hname hparam, wrapObject_name hhead, List.cons_append, List.append_assoc,
      List.singleton_append, parse_className hends]
    exact ⟨fun _ => rfl, fun _ _ => rfl⟩
  · have hopen : (scope.resolveSimpleName name ++
        '<' :: (args.flatMap (fun arg => scope.argument arg.text) ++ ['>'])).head? ≠ some '[' := by
      cases hresolved : scope.resolveSimpleName name with
      | nil => exact fun heq => absurd heq (by simp)
      | cons c chars =>
        rw [hresolved] at hhead
        exact hhead
    rw [translate_arguments hname (blank_of_isBlank hgap) hformed (by simpa using hempty), wrapObject_name hopen]
    obtain ⟨hplain, hback⟩ := readsRight_args hargs (';' :: rest)
    have htext : 'L' :: (scope.resolveSimpleName name ++
        '<' :: (args.flatMap (fun arg => scope.argument arg.text) ++ ['>']) ++ [';']) ++ rest =
        'L' :: (scope.resolveSimpleName name ++
          '<' :: (args.flatMap (fun arg => scope.argument arg.text) ++ '>' :: ';' :: rest)) := by simp
    rw [htext, parse_classArgs hends]
    constructor
    · intro h
      rw [hplain h, Option.map_some]
      rfl
    · intro back heq
      obtain ⟨q, hq, hpair⟩ := Option.map_eq_some_iff.mp heq
      obtain ⟨htypes, -⟩ := Prod.mk.inj hpair
      have hsame : q.1 = scope.intendedArgs args := (JvmType.object.inj htypes).2
      exact hback q.2 (by rw [hq, ← hsame])

theorem resolve_looseArray (h : scope.wellFormed false element = true) (inside : List Char) :
    (scope.resolveSimpleName (trimStart element.text ++ '[' :: (inside ++ [']']))).head? ≠ some '[' ∧
      (scope.resolveSimpleName (trimStart element.text ++ '[' :: (inside ++ [']']))).getLast? ≠ some ';' := by
  rcases scope.resolves (trimStart element.text ++ '[' :: (inside ++ [']'])) with hsame | ⟨hhead, hends⟩
  · rw [hsame]
    obtain ⟨c, rest, hstart, hc⟩ := head_text h
    rw [← List.cons_append, ← List.append_assoc, List.getLast?_concat, hstart]
    refine ⟨fun heq => ?_, by decide⟩
    rw [Option.some.inj heq] at hc
    exact absurd hc (by decide)
  · exact ⟨hhead, fun hlast => absurd (hends ';' (List.mem_of_getLast? hlast)) (by decide)⟩

theorem readsRight_array {inside : List Char} (h : scope.wellFormed false (.array element inside) = true)
    (helement : scope.ReadsRight element) : scope.ReadsRight (.array element inside) := by
  intro rest
  have hall := h
  simp only [wellFormed, Bool.and_eq_true] at hall
  rw [argument_type h, SourceType.text, SourceType.plain, intended, Bool.and_eq_true, List.isEmpty_iff]
  by_cases hinside : inside = []
  · subst hinside
    rw [List.nil_append, translate_array]
    have hopen : ∀ x, wrapObject ('[' :: x) = '[' :: x := fun x => rfl
    rw [hopen, List.cons_append, parse_array]
    by_cases hvar : element.isTypeVariable = true
    · rw [if_pos ((typeParam_text_iff hall.2).mpr hvar)]
      refine ⟨fun hplain => ?_, fun back heq => ?_⟩
      · exact absurd ((not_plain_typeVariable hvar).symm.trans hplain.2) Bool.false_ne_true
      · obtain ⟨q, hq, hpair⟩ := Option.map_eq_some_iff.mp heq
        have hsame := JvmType.array.inj (Prod.mk.inj hpair).1
        rw [intended_typeVariable hall.2 hvar] at hsame
        rcases parse_wrapObject hq with ⟨other, args, hother⟩ | ⟨t, ht⟩
        · rw [hother] at hsame
          cases hsame
        · rw [ht] at hsame
          cases hsame
    · rw [if_neg fun hparam => hvar ((typeParam_text_iff hall.2).mp hparam), ← argument_type hall.2]
      obtain ⟨hplain, hback⟩ := helement rest
      refine ⟨fun h => by rw [hplain h.2, Option.map_some], fun back heq => ⟨rfl, ?_⟩⟩
      obtain ⟨q, hq, hpair⟩ := Option.map_eq_some_iff.mp heq
      have hsame := JvmType.array.inj (Prod.mk.inj hpair).1
      exact hback q.2 (by rw [hq, ← hsame])
  · refine ⟨fun h => absurd h.1 hinside, fun back heq => ?_⟩
    rw [translate_looseArray _ (blank_of_isBlank hall.1) hinside, wrapObject_name (resolve_looseArray hall.2 inside).1]
      at heq
    obtain ⟨name, args, hobject⟩ := parse_object heq
    cases hobject

/-- Every type argument is read as the type that is meant exactly where it is plain. -/
theorem readsRight (h : scope.wellFormed asArgument ty = true) : scope.ReadsRight ty := by
  induction ty using SourceType.inductOn generalizing asArgument with
  | named name gap args ih =>
    refine readsRight_named h fun arg harg => ih arg harg (wellFormedArgs_mem ?_ harg)
    simp only [wellFormed, Bool.and_eq_true] at h
    exact h.2
  | typeVar name =>
    exact readsRight_of_other (@argument_type scope (.typeVar name) h) rfl (fun _ _ => JvmType.noConfusion)
      fun _ => JvmType.noConfusion
  | primitive name =>
    exact readsRight_of_other (@argument_type scope (.primitive name) h) rfl (fun _ _ => JvmType.noConfusion)
      fun _ => JvmType.noConfusion
  | array element inside ih =>
    refine readsRight_array h (@ih false ?_)
    simp only [wellFormed, Bool.and_eq_true] at h
    exact h.2
  | wildcard =>
    intro rest
    have harg : scope.argument SourceType.wildcard.text = ['*'] := if_pos (by decide)
    rw [harg, List.singleton_append, parse_cons (by decide), if_neg (by decide), if_neg (by decide), if_pos rfl]
    exact ⟨fun _ => rfl, fun _ _ => rfl⟩
  | bounded upper gap space bound _ =>
    refine @readsRight_of_other scope _ (scope.translate _) (if_neg fun hquestion => ?_) rfl
      (fun _ _ => JvmType.noConfusion) fun _ => JvmType.noConfusion
    have hmem : 'e' ∈ (SourceType.bounded upper gap space bound).text := by
      cases upper <;> simp [SourceType.text]
    rw [← mem_trim (by decide), hquestion] at hmem
    exact absurd hmem (by decide)
  | spaced before ty after ih =>
    simp only [wellFormed, Bool.and_eq_true] at h
    have hrest := ih h.2
    have harg : scope.argument (SourceType.spaced before ty after).text = scope.argument ty.text :=
      argument_trim (trim_spaced h.1.1 h.1.2 _)
    intro rest
    rw [harg]
    exact hrest rest

/-- Only the text of a type variable is closed by a semicolon without beginning as an array. -/
theorem translate_semicolon (h : scope.wellFormed false ty = true) (hvar : ty.isTypeVariable = false)
    (hlast : (scope.translate ty.text).getLast? = some ';') : (scope.translate ty.text).head? = some '[' := by
  have hresolved : ∀ {name : List Char}, IsNameText name → (scope.resolveSimpleName name).getLast? ≠ some ';' :=
    fun hname hlast => absurd ((resolve_name hname).2 ';' (List.mem_of_getLast? hlast)) (by decide)
  induction ty using SourceType.inductOn with
  | named name gap args _ =>
    have hall := h
    simp only [wellFormed, Bool.and_eq_true, Bool.not_eq_true'] at hall
    obtain ⟨⟨⟨⟨hqualified, hparam⟩, -⟩, hgap⟩, hformed⟩ := hall
    have hname := isNameText_of_qualified hqualified
    rw [SourceType.text] at hlast
    split_ifs at hlast with hempty
    · rw [translate_name hname hparam] at hlast
      exact absurd hlast (hresolved hname)
    · rw [translate_arguments hname (blank_of_isBlank hgap) hformed (by simpa using hempty), ← List.cons_append,
        ← List.append_assoc, List.getLast?_concat] at hlast
      exact absurd hlast (by decide)
  | typeVar name => cases hvar
  | primitive name =>
    simp only [wellFormed, Bool.and_eq_true, Bool.not_eq_true'] at h
    have hname := isNameText_of_qualified h.1.1
    rw [SourceType.text, translate_name hname h.1.2] at hlast
    exact absurd hlast (hresolved hname)
  | array element inside _ =>
    simp only [wellFormed, Bool.and_eq_true] at h
    rw [SourceType.text] at hlast ⊢
    by_cases hinside : inside = []
    · rw [hinside, List.nil_append, translate_array]
      rfl
    · rw [translate_looseArray _ (blank_of_isBlank h.1) hinside] at hlast
      exact absurd hlast (resolve_looseArray h.2 inside).2
  | wildcard => exact absurd h (by simp [wellFormed])
  | bounded upper gap space bound _ => exact absurd h (by simp [wellFormed])
  | spaced before ty after ih =>
    simp only [wellFormed, Bool.and_eq_true] at h
    rw [SourceType.text, ← translate_trim, trim_spaced h.1.1 h.1.2, translate_trim] at hlast ⊢
    exact ih h.2 hvar hlast

/-- A source type is read back exactly where it is a type variable or has none in it, no primitive type and no bounded
wildcard, and no blanks between the brackets of an array. -/
theorem source_type_decodes_iff (scope : TypeScope) (ty : SourceType) (h : scope.wellFormed false ty = true) :
    scope.DecodesBack ty ↔ ty.isTypeVariable = true ∨ ty.plain = true := by
  rw [DecodesBack]
  by_cases hvar : ty.isTypeVariable = true
  · refine iff_of_true ?_ (Or.inl hvar)
    have hparam := (typeParam_text_iff h).mpr hvar
    have hname := isNameText_typeParam hparam
    have hform : descriptorForm ('T' :: (trim ty.text ++ [';'])) = 'T' :: (trim ty.text ++ [';']) := by
      rw [descriptorForm, ← List.cons_append, List.getLast?_concat]
      rfl
    rw [← translate_trim, translate_typeParam hparam, hform, parse_cons (by decide), if_pos rfl,
      splitOnce_append (hname.notMem (by decide)), intended_typeVariable h hvar]
    rfl
  · have hform : descriptorForm (scope.translate ty.text) = scope.argument ty.text := by
      rw [argument_type h, descriptorForm, wrapObject]
      have hsemicolon := translate_semicolon h (by simpa using hvar)
      by_cases hhead : (scope.translate ty.text).head? = some '['
      · rw [hhead]
        rfl
      · have hlast : ((scope.translate ty.text).getLast? == some ';') = false := by
          rw [beq_eq_false_iff_ne]
          exact fun hlast => hhead (hsemicolon hlast)
        rw [hlast, Bool.and_false, Bool.or_false]
    obtain ⟨hplain, hback⟩ := readsRight h []
    rw [List.append_nil] at hplain hback
    rw [hform]
    exact ⟨fun heq => Or.inr (hback [] heq), fun hor => hplain (hor.resolve_left hvar)⟩

/-- Names stay as they are, and `E` is in scope. -/
def listScope : TypeScope where
  resolveSimpleName s := s
  typeParams := [['E']]
  resolves _ := Or.inl rfl
  identifiers p hp := by
    rw [List.mem_singleton.mp hp]
    exact ⟨List.cons_ne_nil _ _, List.all_eq_true.mp rfl⟩

theorem list_of_arrays_decodes :
    listScope.wellFormed false (.named "List".toList [] [.array (.named "String".toList [] []) []]) = true ∧
      listScope.DecodesBack (.named "List".toList [] [.array (.named "String".toList [] []) []]) :=
  ⟨by decide, (source_type_decodes_iff listScope _ (by decide)).mpr (Or.inr rfl)⟩

/-- `List<E>` becomes `List<LTE;;>`. -/
theorem type_argument_variable_lost :
    listScope.wellFormed false (.named "List".toList [] [.typeVar ['E']]) = true ∧
      ¬listScope.DecodesBack (.named "List".toList [] [.typeVar ['E']]) := by
  refine ⟨by decide, ?_⟩
  rw [DecodesBack]
  decide

end TypeScope

end JavaAnalyzer.Semantic
