import JavaAnalyzer.Semantic.JvmType

/-! # Descriptors

`jvm/descriptor.rs` (one descriptor type off the front, the parameter descriptors of a method) and the
return type readers of `semantic/types.rs`. `isMethodDescriptor` is the descriptor grammar of class
files (JVMS 4.3.2 and 4.3.3), for class names without `<` and `)`. On it taking a descriptor apart
and printing it again gives it back. -/

namespace JavaAnalyzer.Jvm
set_option autoImplicit false
open Text Semantic

/-! ## One descriptor type -/

/-- `consume_one_descriptor_type`: the first descriptor type and what follows. -/
def consumeOneDescriptorType : List Char → List Char × List Char
  | [] => ([], [])
  | c :: s =>
    if c = 'L' then
      match splitOnce ';' s with
      | some (name, rest) => ('L' :: (name ++ [';']), rest)
      | none => ('L' :: s, [])
    else if c = '[' then
      ('[' :: (consumeOneDescriptorType s).1, (consumeOneDescriptorType s).2)
    else ([c], s)

theorem consumeOneDescriptorType_append (s : List Char) :
    (consumeOneDescriptorType s).1 ++ (consumeOneDescriptorType s).2 = s := by
  induction s with
  | nil => rfl
  | cons c s ih =>
    simp only [consumeOneDescriptorType]
    split_ifs with hL hA
    · split
      · rename_i name rest h
        obtain ⟨rfl, -⟩ := splitOnce_eq h
        simp [hL]
      · simp [hL]
    · simp [hA, ih]
    · simp

theorem consumeOneDescriptorType_length {s : List Char} (h : s ≠ []) :
    (consumeOneDescriptorType s).2.length < s.length := by
  have happ := congrArg List.length (consumeOneDescriptorType_append s)
  have hne : (consumeOneDescriptorType s).1 ≠ [] := by
    cases s with
    | nil => exact absurd rfl h
    | cons c s =>
      simp only [consumeOneDescriptorType]
      split_ifs
      · split <;> simp
      · simp
      · simp
  have hpos := List.length_pos_of_ne_nil hne
  rw [List.length_append] at happ
  omega

/-! ## All descriptor types of a text -/

/-- The loop `while !s.is_empty()` over `consume_one_descriptor_type`. -/
def descriptorTypesFuel : ℕ → List Char → List (List Char)
  | 0, _ => []
  | fuel + 1, s =>
    if s.isEmpty then []
    else
      (consumeOneDescriptorType s).1 :: descriptorTypesFuel fuel (consumeOneDescriptorType s).2

def descriptorTypes (s : List Char) : List (List Char) := descriptorTypesFuel s.length s

/-- The loop ends with the whole text consumed: no character is lost and the fuel is enough. -/
theorem descriptorTypesFuel_flatten (fuel : ℕ) (s : List Char) (h : s.length ≤ fuel) :
    (descriptorTypesFuel fuel s).flatten = s := by
  induction fuel generalizing s with
  | zero =>
    obtain rfl : s = [] := List.length_eq_zero_iff.mp (by omega)
    rfl
  | succ fuel ih =>
    simp only [descriptorTypesFuel]
    split_ifs with he
    · simp [List.isEmpty_iff.mp he]
    · have hne : s ≠ [] := fun e => he (List.isEmpty_iff.mpr e)
      have hlen := consumeOneDescriptorType_length hne
      rw [List.flatten_cons, ih _ (by omega), consumeOneDescriptorType_append]

theorem descriptorTypes_flatten (s : List Char) : (descriptorTypes s).flatten = s :=
  descriptorTypesFuel_flatten s.length s le_rfl

/-! ## Parameters and return type of a method descriptor -/

/-- The text between the first `(` and the first `)`. A `)` in front of the `(`, where the source's
slice panics, gives the empty text. -/
def paramText (desc : List Char) : Option (List Char) :=
  match desc.idxOf? '(', desc.idxOf? ')' with
  | some l, some r => some ((desc.take r).drop (l + 1))
  | _, _ => none

def splitParamDescriptors (desc : List Char) : List (List Char) :=
  match paramText desc with
  | some inner => descriptorTypes inner
  | none => []

/-- `extract_return_internal_name`: `none` for void. -/
def extractReturnInternalName (desc : List Char) : Option JvmType :=
  (splitOnce ')' desc).bind fun p =>
    (JvmType.parse p.2).bind fun q => if q.1 = .primitive 'V' then none else some q.1

def parseReturnTypeFromDescriptor (desc : String) : Option String :=
  (extractReturnInternalName desc.toList).map JvmType.toSignatureString

/-! ## Well-formed descriptors -/

def baseChars : List Char := ['B', 'C', 'D', 'F', 'I', 'J', 'S', 'Z']

def isFieldDescriptor : List Char → Bool
  | [] => false
  | c :: s =>
    if c = 'L' then
      match splitOnce ';' s with
      | some (name, []) => name.all fun c => c ≠ '<' && c ≠ ')'
      | _ => false
    else if c = '[' then isFieldDescriptor s
    else s.isEmpty && baseChars.contains c

/-- A return descriptor: void or a field descriptor. -/
def isReturnDescriptor (s : List Char) : Bool := s = ['V'] || isFieldDescriptor s

def isMethodDescriptor : List Char → Bool
  | '(' :: s =>
    match splitOnce ')' s with
    | some (params, ret) => (descriptorTypes params).all isFieldDescriptor && isReturnDescriptor ret
    | none => false
  | _ => false

/-- A field descriptor is read as a type whose signature it is. -/
theorem isFieldDescriptor_signature {s : List Char} (h : isFieldDescriptor s = true) :
    ∃ t : JvmType, t.wellFormed = true ∧ t.signature = s ∧ t ≠ .primitive 'V' := by
  induction s with
  | nil => simp [isFieldDescriptor] at h
  | cons c s ih =>
    simp only [isFieldDescriptor] at h
    split_ifs at h with hL hA
    · split at h
      · rename_i name hs
        obtain ⟨rfl, hname⟩ := splitOnce_eq hs
        refine ⟨.object (String.ofList name) [], ?_, by simp [JvmType.signature, hL], by simp⟩
        simp only [JvmType.wellFormed, String.toList_ofList, JvmType.wellFormedArgs, Bool.and_true]
        refine List.all_eq_true.mpr fun d hd => ?_
        have hd' := List.all_eq_true.mp h d hd
        have hsemi : d ≠ ';' := fun e => hname (e ▸ hd)
        simp_all [JvmType.endsClassName]
      · simp at h
    · obtain ⟨t, ht, rfl, -⟩ := ih h
      exact ⟨.array t, by simpa [JvmType.wellFormed] using ht, by simp [JvmType.signature, hA],
        by simp⟩
    · simp only [Bool.and_eq_true, List.isEmpty_iff, List.contains_iff_mem] at h
      obtain ⟨rfl, hc⟩ := h
      refine ⟨.primitive c, ?_, rfl, ?_⟩
      · simp only [baseChars, List.mem_cons, List.not_mem_nil, or_false] at hc
        rcases hc with rfl | rfl | rfl | rfl | rfl | rfl | rfl | rfl <;> decide
      · rintro ⟨⟩
        simp [baseChars] at hc

/-- Reading the return type of a well-formed descriptor and printing it gives the text back. -/
theorem parseReturnType_getD {params ret : List Char} (hp : ')' ∉ params)
    (hr : isReturnDescriptor ret = true) :
    ((extractReturnInternalName (params ++ ')' :: ret)).map JvmType.signature).getD ['V'] = ret := by
  rw [extractReturnInternalName, splitOnce_append hp, Option.bind_some]
  simp only [isReturnDescriptor, Bool.or_eq_true, decide_eq_true_eq] at hr
  rcases hr with rfl | hr
  · have hV : JvmType.parse ['V'] = some (.primitive 'V', []) := by decide
    simp [hV]
  · obtain ⟨t, ht, rfl, hV⟩ := isFieldDescriptor_signature hr
    have hparse := JvmType.parse_signature ht []
    rw [List.append_nil] at hparse
    simp [hparse, hV]

theorem paramText_eq {params : List Char} (hp : ')' ∉ params) (ret : List Char) :
    paramText ('(' :: (params ++ ')' :: ret)) = some params := by
  have hidx : ('(' :: (params ++ ')' :: ret)).idxOf? ')' = some (params.length + 1) := by
    rw [List.idxOf?_cons]
    have h2 : (params ++ ')' :: ret).idxOf? ')' = some params.length := by
      induction params with
      | nil => rfl
      | cons c params ih =>
        have hc : c ≠ ')' := fun e => hp (by simp [e])
        rw [List.cons_append, List.idxOf?_cons, ih fun m => hp (List.mem_cons_of_mem c m)]
        simp [hc]
    simp [h2]
  simp [paramText, hidx, List.idxOf?_cons]

/-! ## Class-file descriptors

The grammar of JVMS 4.3.2 with the class names of JVMS 4.2, which may hold brackets and parentheses. -/

def isUnqualifiedName (s : List Char) : Bool :=
  !s.isEmpty && s.all fun c => c ∉ ['.', ';', '[', '/']

/-- A class name in its internal form. -/
def isInternalName (s : List Char) : Bool :=
  (s.splitOn '/').all isUnqualifiedName

def isFieldType : List Char → Bool
  | [] => false
  | c :: s =>
    if c = 'L' then
      match splitOnce ';' s with
      | some (name, []) => isInternalName name
      | _ => false
    else if c = '[' then isFieldType s
    else s.isEmpty && baseChars.contains c

theorem consumeOneDescriptorType_fieldType {s : List Char} (h : isFieldType s = true)
    (rest : List Char) : consumeOneDescriptorType (s ++ rest) = (s, rest) := by
  induction s with
  | nil => simp [isFieldType] at h
  | cons c s ih =>
    simp only [isFieldType] at h
    split_ifs at h with hL hA
    · split at h
      · rename_i name hs
        obtain ⟨rfl, hname⟩ := splitOnce_eq hs
        simp [consumeOneDescriptorType, hL, splitOnce_append hname]
      · cases h
    · simp [consumeOneDescriptorType, hA, ih h]
    · simp only [Bool.and_eq_true, List.isEmpty_iff] at h
      simp [consumeOneDescriptorType, hL, hA, h.1]

theorem isFieldType_ne_nil {s : List Char} (h : isFieldType s = true) : s ≠ [] := by
  rintro rfl
  cases h

theorem descriptorTypesFuel_fieldTypes {types : List (List Char)}
    (h : ∀ s ∈ types, isFieldType s = true) (fuel : ℕ) (hfuel : types.flatten.length ≤ fuel) :
    descriptorTypesFuel fuel types.flatten = types := by
  induction types generalizing fuel with
  | nil => cases fuel <;> rfl
  | cons s types ih =>
    have hs := h s List.mem_cons_self
    have hpos := List.length_pos_of_ne_nil (isFieldType_ne_nil hs)
    rw [List.flatten_cons, List.length_append] at hfuel
    obtain ⟨fuel, rfl⟩ : ∃ n, fuel = n + 1 := ⟨fuel - 1, by omega⟩
    have hrest := ih (fun t ht => h t (List.mem_cons_of_mem s ht)) fuel (by omega)
    have hne : (s ++ types.flatten).isEmpty = false := by simp [isFieldType_ne_nil hs]
    rw [List.flatten_cons, descriptorTypesFuel, hne, consumeOneDescriptorType_fieldType hs]
    simp [hrest]

/-- The parameter text of a descriptor is cut where its field types were joined. -/
theorem descriptorTypes_fieldTypes {types : List (List Char)}
    (h : ∀ s ∈ types, isFieldType s = true) : descriptorTypes types.flatten = types :=
  descriptorTypesFuel_fieldTypes h _ le_rfl

theorem isFieldType_signature {s : List Char} (h : isFieldType s = true) (hplain : '<' ∉ s) :
    ∃ t : JvmType, t.wellFormed = true ∧ t.signature = s := by
  induction s with
  | nil => cases h
  | cons c s ih =>
    simp only [isFieldType] at h
    split_ifs at h with hL hA
    · split at h
      · rename_i name hs
        obtain ⟨rfl, hname⟩ := splitOnce_eq hs
        refine ⟨.object (String.ofList name) [], ?_, by simp [JvmType.signature, hL]⟩
        simp only [JvmType.wellFormed, String.toList_ofList, JvmType.wellFormedArgs, Bool.and_true]
        refine List.all_eq_true.mpr fun d hd => ?_
        have hsemi : d ≠ ';' := fun e => hname (e ▸ hd)
        have hopen : d ≠ '<' := by
          rintro rfl
          exact hplain (by simp [hd])
        simp [JvmType.endsClassName, hsemi, hopen]
      · cases h
    · obtain ⟨t, ht, rfl⟩ := ih h fun hmem => hplain (List.mem_cons_of_mem c hmem)
      exact ⟨.array t, by simpa [JvmType.wellFormed] using ht, by simp [JvmType.signature, hA]⟩
    · simp only [Bool.and_eq_true, List.isEmpty_iff, List.contains_iff_mem] at h
      obtain ⟨rfl, hc⟩ := h
      refine ⟨.primitive c, ?_, rfl⟩
      simp only [baseChars, List.mem_cons, List.not_mem_nil, or_false] at hc
      rcases hc with rfl | rfl | rfl | rfl | rfl | rfl | rfl | rfl <;> decide

end JavaAnalyzer.Jvm
