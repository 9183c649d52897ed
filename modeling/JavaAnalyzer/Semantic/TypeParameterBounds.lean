import JavaAnalyzer.Library.FiniteMap
import JavaAnalyzer.Semantic.SignatureScan

/-! # Bounds of type parameters

`parse_type_parameter_bounds` of `semantic/types/generics.rs` beside the two readers that only skip the bounds, on the
texts of the grammar for the type parameters of a class or a method. A bound that was read is compared with the text
that was declared, which it writes again. -/

namespace JavaAnalyzer.Semantic
set_option autoImplicit false
open Text Jvm JvmType

/-! ## The reader of bounds -/

/-- The bounds of each type parameter by its name. -/
abbrev TypeParameterBounds := AList fun _ : String => List JvmType

/-- The bound in the slot of the class bound, which may be empty. -/
def readClassBound (s : List Char) : List JvmType × List Char :=
  if s.head? = some ':' then ([], s)
  else
    match parse s with
    | some (bound, rest) => ([bound], rest)
    | none => ([], s)

/-- The loop over the bounds behind further colons. -/
def readInterfaceBounds : ℕ → List Char → List JvmType × List Char
  | fuel + 1, ':' :: s =>
    if s.head? = some ':' then readInterfaceBounds fuel s
    else
      match parse s with
      | some (bound, rest) =>
        let more := readInterfaceBounds fuel rest
        (bound :: more.1, more.2)
      | none => ([], s)
  | _, s => ([], s)

/-- The loop of `parse_type_parameter_bounds`. -/
def readTypeParameters : ℕ → List Char → TypeParameterBounds → TypeParameterBounds
  | 0, _, bounds => bounds
  | fuel + 1, s, bounds =>
    match splitOnce ':' s with
    | none => bounds
    | some (paramName, rest) =>
      if trim paramName = [] then bounds
      else
        let first := readClassBound rest
        let others := readInterfaceBounds first.2.length first.2
        readTypeParameters fuel others.2 (bounds.insert (String.ofList (trim paramName)) (first.1 ++ others.1))

def parseTypeParameterBounds (signature : String) : TypeParameterBounds :=
  match typeParameterPrefix signature.toList with
  | none => ∅
  | some (params, _) => readTypeParameters params.length params ∅

/-! ## Declared type parameters -/

/-- A type parameter of the grammar, its bounds as texts. -/
structure TypeParameter where
  name : List Char
  classBound : Option (List Char)
  interfaceBounds : List (List Char)
  name_identifier : isIdentifier name = true
  classBound_derives : ∀ b ∈ classBound, Derives .referenceType b
  interfaceBounds_derive : ∀ b ∈ interfaceBounds, Derives .referenceType b

namespace TypeParameter

def bounds (p : TypeParameter) : List (List Char) :=
  p.classBound.toList ++ p.interfaceBounds

/-- Slots for bounds behind a colon each, the first of which may be empty. -/
def slotsText (first : List Char) (others : List (List Char)) : List Char :=
  first ++ others.flatMap (':' :: ·)

def text (p : TypeParameter) : List Char :=
  p.name ++ ':' :: slotsText (p.classBound.getD []) p.interfaceBounds

/-- Its last bound ends with a semicolon. -/
def Ended (p : TypeParameter) : Prop :=
  p.text.getLast? = some ';'

instance (p : TypeParameter) : Decidable p.Ended :=
  decEq _ _

def texts (params : List TypeParameter) : List Char :=
  params.flatMap text

/-- The type parameters of a signature, none or those between brackets. -/
def declaration (params : List TypeParameter) : List Char :=
  if params.isEmpty then [] else '<' :: (texts params ++ ['>'])

def methodSignature (params : List TypeParameter) (paramTypes : List (List Char)) (returnType : List Char) :
    List Char :=
  declaration params ++ '(' :: (paramTypes.flatten ++ ')' :: returnType)

/-! ## What the readers should return -/

def NamesAgree (params : List TypeParameter) (rest : List Char) : Prop :=
  parseClassTypeParameters (String.ofList (declaration params ++ rest)) = params.map fun p => String.ofList p.name

/-- The types write the texts. -/
def Write (types : List JvmType) (texts : List (List Char)) : Prop :=
  types.map signature = texts

structure BoundsAgree (params : List TypeParameter) (rest : List Char) : Prop where
  names : ∀ name, name ∈ parseTypeParameterBounds (String.ofList (declaration params ++ rest)) ↔
    ∃ p ∈ params, String.ofList p.name = name
  bounds : ∀ p ∈ params, ∃ types, (parseTypeParameterBounds (String.ofList (declaration params ++ rest))).lookup
    (String.ofList p.name) = some types ∧ Write types p.bounds

def MethodTypesAgree (params : List TypeParameter) (paramTypes : List (List Char)) (returnType : List Char) : Prop :=
  ∃ types, parseMethodSignatureTypes (String.ofList (methodSignature params paramTypes returnType)) = some types ∧
    Write types.1 paramTypes ∧ types.2.signature = returnType

/-! ## Texts of type parameters -/

theorem name_free (p : TypeParameter) : ':' ∉ p.name ∧ ∀ c ∈ p.name, c ≠ '<' ∧ c ≠ '>' ∧ c ≠ ';' := by
  have hfree := (identifier_free p.name_identifier).2
  refine ⟨fun hmem => absurd (hfree _ hmem) (by decide), fun c hc => ?_⟩
  have hc' := hfree c hc
  simp only [List.mem_cons, List.not_mem_nil, or_false, not_or] at hc'
  exact ⟨hc'.2.2.2.2.1, hc'.2.2.2.2.2.1, hc'.2.1⟩

theorem slotsText_cons (first second : List Char) (others : List (List Char)) :
    slotsText first (second :: others) = first ++ ':' :: slotsText second others := by
  rw [slotsText, List.flatMap_cons, slotsText, List.cons_append]

theorem text_append (p : TypeParameter) (behind : List Char) :
    p.text ++ behind = p.name ++ ':' :: (slotsText (p.classBound.getD []) p.interfaceBounds ++ behind) := by
  rw [text, List.append_assoc, List.cons_append]

theorem texts_cons (p : TypeParameter) (params : List TypeParameter) :
    texts (p :: params) = p.text ++ texts params :=
  List.flatMap_cons

theorem texts_head (params : List TypeParameter) : (texts params).head? ≠ some ':' := by
  cases params with
  | nil => exact nofun
  | cons p params =>
    rw [texts_cons, text_append]
    obtain ⟨hne, -⟩ := identifier_free p.name_identifier
    cases hname : p.name with
    | nil => exact absurd hname hne
    | cons c name =>
      have hc := p.name_free.1
      rw [hname] at hc
      exact fun hcolon => hc (by rw [Option.some.inj hcolon]; exact List.mem_cons_self)

theorem slotsText_closes {first : List Char} {others : List (List Char)} (hfirst : Closes first)
    (hothers : ∀ b ∈ others, Derives .referenceType b) : Closes (slotsText first others) := by
  refine hfirst.append ?_
  induction others with
  | nil => exact closes_free nofun
  | cons b others ih =>
    obtain ⟨hb, hrest⟩ := List.forall_mem_cons.mp hothers
    rw [List.flatMap_cons]
    exact (hb.closes.cons (by decide)).append (ih hrest)

theorem classBound_closes (p : TypeParameter) : Closes (p.classBound.getD []) := by
  cases hbound : p.classBound with
  | none => exact closes_free nofun
  | some b => exact (p.classBound_derives b hbound).closes

theorem texts_closes (params : List TypeParameter) : Closes (texts params) := by
  induction params with
  | nil => exact closes_free nofun
  | cons p params ih =>
    have hname : Closes p.name := closes_free fun c hc => ⟨(p.name_free.2 c hc).1, (p.name_free.2 c hc).2.1⟩
    rw [texts_cons, text]
    exact (hname.append ((slotsText_closes p.classBound_closes p.interfaceBounds_derive).cons (by decide))).append ih

/-- The type parameters are cut out of a signature, whatever follows. -/
theorem typeParameterPrefix_declaration {params : List TypeParameter} (h : params ≠ []) (rest : List Char) :
    typeParameterPrefix (declaration params ++ rest) = some (texts params, rest) := by
  rw [declaration, if_neg (mt List.isEmpty_iff.mp h), List.cons_append, List.append_assoc, typeParameterPrefix,
    texts_closes params 1 Nat.one_pos, List.singleton_append, closeAngle, if_neg (by decide), if_pos rfl, if_pos rfl,
    Option.map_some, List.append_nil]

/-! ## The names -/

/-- The names that are read of the text inside the brackets. -/
def namesIn (s : List Char) : List String :=
  typeParameterNames s.length s

/-- What is left when the bounds of a type parameter are skipped. -/
def skipSlots (s : List Char) : List Char :=
  skipBounds (skipBound 0 s).length (skipBound 0 s)

theorem skipBounds_succ {fuel : ℕ} {s : List Char} (h : s.length ≤ fuel) :
    skipBounds (fuel + 1) s = skipBounds fuel s := by
  induction fuel generalizing s with
  | zero =>
    obtain rfl : s = [] := List.length_eq_zero_iff.mp (Nat.le_zero.mp h)
    rfl
  | succ fuel ih =>
    cases s with
    | nil => rfl
    | cons c s =>
      by_cases hc : c = ':'
      · subst hc
        exact ih ((skipBound_length 0 s).trans (Nat.le_of_succ_le_succ h))
      · rw [skipBounds, skipBounds]
        · exact fun _ _ _ heq => hc (List.cons.inj heq).1
        · exact fun _ _ _ heq => hc (List.cons.inj heq).1

theorem skipBounds_stable {fuel : ℕ} {s : List Char} (h : s.length ≤ fuel) :
    skipBounds fuel s = skipBounds s.length s := by
  induction fuel, h using Nat.le_induction with
  | base => rfl
  | succ fuel hle ih => rw [skipBounds_succ hle, ih]

theorem typeParameterNames_stable {fuel : ℕ} {s : List Char} (h : s.length ≤ fuel) :
    typeParameterNames fuel s = namesIn s := by
  induction fuel, h using Nat.le_induction with
  | base => rfl
  | succ fuel hle ih => rw [typeParameterNames_succ hle, ih]

theorem skipBounds_of_head {s : List Char} (h : s.head? ≠ some ':') (fuel : ℕ) : skipBounds fuel s = s := by
  cases s with
  | nil => cases fuel <;> rfl
  | cons c s =>
    rw [skipBounds]
    exact fun _ _ _ heq => h (by rw [(List.cons.inj heq).1]; rfl)

theorem ended_append {front back : List Char} {c : Char} (hc : c ≠ ';') :
    (front ++ c :: back).getLast? = some ';' ↔ back.getLast? = some ';' := by
  cases back with
  | nil => simp [hc]
  | cons d back => rw [List.getLast?_append_cons, List.getLast?_cons_cons]

theorem ended_iff (p : TypeParameter) :
    p.Ended ↔ (slotsText (p.classBound.getD []) p.interfaceBounds).getLast? = some ';' :=
  ended_append (by decide)

theorem skipSlots_colon {first : List Char} (hfirst : EndsBound first) (behind : List Char) :
    skipSlots (first ++ ':' :: behind) = skipSlots behind := by
  rw [skipSlots]
  by_cases hended : first.getLast? = some ';'
  · rw [hfirst.ends hended, List.length_cons, skipBounds, skipBounds_stable (skipBound_length 0 behind)]
    rfl
  · rw [hfirst.goesOn hended 0 le_rfl, skipBound, if_neg (by decide), if_neg (by decide), if_neg (by decide)]
    rfl

/-- The bounds are skipped exactly if the last ends with a semicolon. Else what follows is taken for one more bound. -/
theorem skipSlots_slots {first : List Char} {others : List (List Char)} (hfirst : EndsBound first)
    (hothers : ∀ b ∈ others, Derives .referenceType b) {behind : List Char} (hbehind : behind.head? ≠ some ':') :
    skipSlots (slotsText first others ++ behind) =
      if (slotsText first others).getLast? = some ';' then behind else skipSlots behind := by
  induction others generalizing first with
  | nil =>
    rw [slotsText, List.flatMap_nil, List.append_nil]
    split_ifs with hended
    · rw [skipSlots, hfirst.ends hended, skipBounds_of_head hbehind]
    · rw [skipSlots, hfirst.goesOn hended 0 le_rfl, ← skipSlots]
  | cons second others ih =>
    obtain ⟨hsecond, hrest⟩ := List.forall_mem_cons.mp hothers
    have hends : EndsBound second := Derives.scans hsecond
    rw [slotsText_cons, List.append_assoc, List.cons_append, skipSlots_colon hfirst, ih hends hrest]
    simp only [ended_append (show ':' ≠ ';' by decide)]

theorem classBound_ends (p : TypeParameter) : EndsBound (p.classBound.getD []) := by
  cases hbound : p.classBound with
  | none => exact ⟨fun _ _ _ => rfl, nofun, fun _ _ _ _ => rfl⟩
  | some b => exact Derives.scans (p.classBound_derives b hbound)

theorem skipSlots_parameter (p : TypeParameter) (params : List TypeParameter) :
    skipSlots (slotsText (p.classBound.getD []) p.interfaceBounds ++ texts params) =
      if p.Ended then texts params else skipSlots (texts params) := by
  rw [skipSlots_slots p.classBound_ends p.interfaceBounds_derive (texts_head params)]
  simp only [ended_iff]

theorem skipSlots_length (s : List Char) : (skipSlots s).length ≤ s.length :=
  (skipBounds_length _ _).trans (skipBound_length 0 s)

/-- What is taken for one more bound swallows the name of the next type parameter, and its bounds go with it. -/
theorem skipSlots_texts (p : TypeParameter) (params : List TypeParameter) : skipSlots (texts (p :: params)) =
    skipSlots (slotsText (p.classBound.getD []) p.interfaceBounds ++ texts params) := by
  have hcolon : Passes 0 [':'] := passes_free (List.forall_mem_singleton.mpr (by decide)) 0
  have hpass : Passes 0 (p.name ++ [':']) := (passes_free p.name_free.2 0).append hcolon
  rw [texts_cons, text_append, List.append_cons, skipSlots, hpass 0 le_rfl, ← skipSlots]

/-- The names from the slots of a type parameter on. -/
def namesBehind (p : TypeParameter) (params : List TypeParameter) : List String :=
  namesIn (skipSlots (slotsText (p.classBound.getD []) p.interfaceBounds ++ texts params))

theorem namesIn_cons (p : TypeParameter) (params : List TypeParameter) : namesIn (texts (p :: params)) =
    if trim p.name = [] then namesBehind p params
    else String.ofList (trim p.name) :: namesBehind p params := by
  have hlength : (texts (p :: params)).length =
      (p.name.length + (slotsText (p.classBound.getD []) p.interfaceBounds ++ texts params).length) + 1 := by
    rw [texts_cons, text_append, List.length_append, List.length_cons]
    omega
  rw [namesIn, hlength, texts_cons, text_append, typeParameterNames, splitOnce_append p.name_free.1]
  dsimp only
  rw [← skipSlots, typeParameterNames_stable ((skipSlots_length _).trans (Nat.le_add_left _ _)), ← namesBehind]

theorem namesBehind_length (p : TypeParameter) (params : List TypeParameter) :
    (namesBehind p params).length ≤ params.length := by
  induction params generalizing p with
  | nil =>
    rw [namesBehind, skipSlots_parameter]
    split_ifs <;> exact le_rfl
  | cons q params ih =>
    rw [namesBehind, skipSlots_parameter]
    split_ifs with hended
    · rw [namesIn_cons, List.length_cons]
      split_ifs
      · exact (ih q).trans (Nat.le_succ _)
      · exact Nat.succ_le_succ (ih q)
    · rw [skipSlots_texts]
      exact (ih q).trans (Nat.le_succ _)

/-- The names come back exactly if whitespace is no part of a name's end and every type parameter but the last ends with
a semicolon. -/
theorem namesIn_iff (params : List TypeParameter) :
    namesIn (texts params) = params.map (fun p => String.ofList p.name) ↔
      (∀ p ∈ params, trim p.name = p.name) ∧ ∀ p ∈ params.dropLast, p.Ended := by
  induction params with
  | nil => exact iff_of_true rfl ⟨nofun, nofun⟩
  | cons p params ih =>
    rw [namesIn_cons, List.map_cons, List.forall_mem_cons]
    by_cases hempty : trim p.name = []
    · rw [if_pos hempty, hempty]
      refine iff_of_false (fun heq => ?_) fun h => (identifier_free p.name_identifier).1 h.1.1.symm
      have hlength := namesBehind_length p params
      rw [heq, List.length_cons, List.length_map] at hlength
      exact Nat.not_succ_le_self _ hlength
    · rw [if_neg hempty, List.cons.injEq, String.ofList_inj, and_assoc]
      refine and_congr_right fun _ => ?_
      rw [namesBehind, skipSlots_parameter]
      cases params with
      | nil =>
        refine iff_of_true ?_ ⟨nofun, nofun⟩
        split_ifs <;> rfl
      | cons q params =>
        rw [List.dropLast_cons_cons, List.forall_mem_cons (l := (q :: params).dropLast)]
        by_cases hended : p.Ended
        · rw [if_pos hended, ih, and_iff_right hended]
        · rw [if_neg hended, skipSlots_texts]
          refine iff_of_false (fun heq => ?_) fun h => hended h.2.1
          have hlength := namesBehind_length q params
          rw [namesBehind, heq, List.length_map, List.length_cons] at hlength
          exact Nat.not_succ_le_self _ hlength

/-! ## The bounds -/

/-- Nothing is nested in a class with type arguments. -/
def Plain (texts : List (List Char)) : Prop :=
  ∀ b ∈ texts, ¬ NestsInGeneric b

/-- Type parameters of one name have the same bounds. -/
def SameBounds (params : List TypeParameter) : Prop :=
  ∀ p ∈ params, ∀ q ∈ params, p.name = q.name → p.bounds = q.bounds

def readTypes (texts : List (List Char)) : List JvmType :=
  texts.map fun b => ((parse b).map Prod.fst).getD .wildcard

theorem bounds_derive (p : TypeParameter) : ∀ b ∈ p.bounds, Derives .referenceType b := by
  intro b hb
  rcases List.mem_append.mp hb with hb | hb
  · exact p.classBound_derives b (Option.mem_toList.mp hb)
  · exact p.interfaceBounds_derive b hb

/-- Types that write texts of the grammar show that nothing is nested there. -/
theorem plain_of_write {types : List JvmType} {texts : List (List Char)} (hderives : ∀ b ∈ texts, Derives .javaType b)
    (htypes : ∀ t ∈ types, t.wellFormed = true) (h : Write types texts) : Plain texts := by
  intro b hb
  rw [← h] at hb
  obtain ⟨t, ht, rfl⟩ := List.mem_map.mp hb
  exact (hderives _ (h ▸ hb)).read_iff.mp ⟨t, htypes t ht, rfl⟩

theorem readTypes_write {texts : List (List Char)} (hderives : ∀ b ∈ texts, Derives .javaType b) (h : Plain texts) :
    Write (readTypes texts) texts ∧ ∀ t ∈ readTypes texts, t.wellFormed = true := by
  have hone : ∀ b ∈ texts, (((parse b).map Prod.fst).getD .wildcard).signature = b ∧
      (((parse b).map Prod.fst).getD .wildcard).wellFormed = true := by
    intro b hb
    obtain ⟨t, ht, rfl⟩ := (hderives b hb).read_iff.mpr (h b hb)
    have hread := parse_signature ht []
    rw [List.append_nil] at hread
    rw [hread]
    exact ⟨rfl, ht⟩
  constructor
  · rw [Write, readTypes, List.map_map]
    exact (List.map_congr_left fun b hb => (hone b hb).1).trans (List.map_id _)
  · intro t ht
    obtain ⟨b, hb, rfl⟩ := List.mem_map.mp ht
    exact (hone b hb).2

theorem signature_head_colon {t : JvmType} (h : t.wellFormed = true) (behind : List Char) :
    (t.signature ++ behind).head? ≠ some ':' := by
  cases t with
  | object name args =>
    rw [signature]
    split <;> exact nofun
  | primitive c =>
    rintro hcolon
    obtain rfl : c = ':' := Option.some.inj hcolon
    exact absurd h (by decide)
  | wildcardBound c inner =>
    rintro hcolon
    obtain rfl : c = ':' := Option.some.inj hcolon
    rw [wellFormed, Bool.and_eq_true] at h
    exact absurd h.1 (by decide)
  | _ => exact nofun

theorem readInterfaceBounds_of_head {s : List Char} (h : s.head? ≠ some ':') (fuel : ℕ) :
    readInterfaceBounds fuel s = ([], s) := by
  cases s with
  | nil => cases fuel <;> rfl
  | cons c s =>
    rw [readInterfaceBounds]
    exact fun _ _ _ heq => h (by rw [(List.cons.inj heq).1]; rfl)

theorem readInterfaceBounds_write {types : List JvmType} (htypes : ∀ t ∈ types, t.wellFormed = true)
    {behind : List Char} (hbehind : behind.head? ≠ some ':') {fuel : ℕ} (hfuel : types.length ≤ fuel) :
    readInterfaceBounds fuel ((types.map signature).flatMap (':' :: ·) ++ behind) = (types, behind) := by
  induction types generalizing fuel with
  | nil => exact readInterfaceBounds_of_head hbehind fuel
  | cons t types ih =>
    obtain ⟨ht, hrest⟩ := List.forall_mem_cons.mp htypes
    obtain ⟨fuel, rfl⟩ : ∃ n, fuel = n + 1 := ⟨fuel - 1, by rw [List.length_cons] at hfuel; omega⟩
    rw [List.map_cons, List.flatMap_cons, List.append_assoc, List.cons_append, readInterfaceBounds,
      if_neg (signature_head_colon ht _), parse_signature ht]
    dsimp only
    rw [ih hrest (Nat.le_of_succ_le_succ hfuel)]

/-- The slots of a type parameter are read up to what follows, unless they are all empty and something follows. -/
theorem readSlots_write {first others : List JvmType} (hfirst : ∀ t ∈ first, t.wellFormed = true)
    (hone : first.length ≤ 1) (hothers : ∀ t ∈ others, t.wellFormed = true) {behind : List Char}
    (hbehind : behind.head? ≠ some ':') (hended : first = [] → others = [] → behind = []) :
    let slot := readClassBound (slotsText (first.map signature).flatten (others.map signature) ++ behind)
    slot.1 = first ∧ readInterfaceBounds slot.2.length slot.2 = (others, behind) := by
  have hothersRead : ∀ fuel, others.length ≤ fuel →
      readInterfaceBounds fuel ((others.map signature).flatMap (':' :: ·) ++ behind) = (others, behind) :=
    fun fuel hfuel => readInterfaceBounds_write hothers hbehind hfuel
  have hlength : others.length ≤ ((others.map signature).flatMap (':' :: ·) ++ behind).length := by
    rw [List.length_append, List.length_flatMap, List.map_map]
    have hsum := List.length_le_sum_of_one_le (others.map ((List.length ∘ (':' :: ·)) ∘ signature)) fun n hn => by
      obtain ⟨t, -, rfl⟩ := List.mem_map.mp hn
      exact Nat.succ_le_succ (Nat.zero_le _)
    rw [List.length_map] at hsum
    exact hsum.trans (Nat.le_add_right _ _)
  rw [slotsText, List.append_assoc]
  match first, hone with
  | [t], _ =>
    have ht := hfirst t List.mem_cons_self
    have hread : readClassBound (([t].map signature).flatten ++ ((others.map signature).flatMap (':' :: ·) ++ behind)) =
        ([t], (others.map signature).flatMap (':' :: ·) ++ behind) := by
      rw [List.map_singleton, List.flatten_singleton, readClassBound, if_neg (signature_head_colon ht _),
        parse_signature ht]
    rw [hread]
    exact ⟨rfl, hothersRead _ hlength⟩
  | [], _ =>
    rw [List.map_nil, List.flatten_nil, List.nil_append]
    cases others with
    | nil =>
      obtain rfl := hended rfl rfl
      exact ⟨rfl, rfl⟩
    | cons t others =>
      have hread : readClassBound (((t :: others).map signature).flatMap (':' :: ·) ++ behind) =
          ([], ((t :: others).map signature).flatMap (':' :: ·) ++ behind) := if_pos rfl
      rw [hread]
      exact ⟨rfl, hothersRead _ hlength⟩

/-- A type parameter is read up to the next one. -/
theorem readTypeParameters_cons {p : TypeParameter} (htrim : trim p.name = p.name) (hplain : Plain p.bounds)
    {params : List TypeParameter} (hended : params = [] ∨ p.Ended) (fuel : ℕ) (bounds : TypeParameterBounds) :
    readTypeParameters (fuel + 1) (texts (p :: params)) bounds =
      readTypeParameters fuel (texts params) (bounds.insert (String.ofList p.name) (readTypes p.bounds)) := by
  have hderives : ∀ b ∈ p.bounds, Derives .javaType b := fun b hb => .reference (p.bounds_derive b hb)
  obtain ⟨hfirst, hfirstTypes⟩ := readTypes_write (fun b hb => hderives b (List.mem_append_left _ hb))
    (fun b hb => hplain b (List.mem_append_left p.interfaceBounds hb))
  obtain ⟨hothers, hothersTypes⟩ := readTypes_write (fun b hb => hderives b (List.mem_append_right _ hb))
    (fun b hb => hplain b (List.mem_append_right p.classBound.toList hb))
  have hslots : slotsText (p.classBound.getD []) p.interfaceBounds =
      slotsText ((readTypes p.classBound.toList).map signature).flatten
        ((readTypes p.interfaceBounds).map signature) := by
    rw [show _ = p.classBound.toList from hfirst, show _ = p.interfaceBounds from hothers]
    cases p.classBound with
    | none => rfl
    | some b => rw [Option.toList_some, List.flatten_singleton, Option.getD_some]
  have hone : (readTypes p.classBound.toList).length ≤ 1 := by
    rw [readTypes, List.length_map]
    cases p.classBound with
    | none => exact Nat.zero_le 1
    | some b => exact le_rfl
  have hread := readSlots_write hfirstTypes hone hothersTypes (texts_head params) (fun hnone hnothing => by
      rcases hended with rfl | hended
      · rfl
      · rw [ended_iff, hslots, hnone, hnothing] at hended
        cases hended)
  rw [texts_cons, text_append, readTypeParameters, splitOnce_append p.name_free.1, hslots]
  dsimp only at hread ⊢
  rw [htrim, if_neg (identifier_free p.name_identifier).1, hread.1, hread.2, readTypes, readTypes, ← List.map_append]
  rfl

theorem readTypeParameters_texts {params : List TypeParameter} (htrim : ∀ p ∈ params, trim p.name = p.name)
    (hplain : ∀ p ∈ params, Plain p.bounds) (hended : ∀ p ∈ params.dropLast, p.Ended) {fuel : ℕ}
    (hfuel : params.length ≤ fuel) (bounds : TypeParameterBounds) :
    readTypeParameters fuel (texts params) bounds =
      params.foldl (fun bounds p => bounds.insert (String.ofList p.name) (readTypes p.bounds)) bounds := by
  induction params generalizing fuel bounds with
  | nil => cases fuel <;> rfl
  | cons p params ih =>
    obtain ⟨fuel, rfl⟩ : ∃ n, fuel = n + 1 := ⟨fuel - 1, by rw [List.length_cons] at hfuel; omega⟩
    have hp : params = [] ∨ p.Ended := by
      cases params with
      | nil => exact .inl rfl
      | cons q params => exact .inr (hended p List.mem_cons_self)
    have hrest : ∀ q ∈ params.dropLast, q.Ended := by
      cases params with
      | nil => exact nofun
      | cons q params => exact fun r hr => hended r (List.mem_cons_of_mem p hr)
    rw [readTypeParameters_cons (htrim p List.mem_cons_self) (hplain p List.mem_cons_self) hp, List.foldl_cons]
    exact ih (fun q hq => htrim q (List.mem_cons_of_mem p hq)) (fun q hq => hplain q (List.mem_cons_of_mem p hq)) hrest
      (Nat.le_of_succ_le_succ hfuel) _

/-! ## What the readers keep -/

theorem readClassBound_wellFormed (s : List Char) : ∀ t ∈ (readClassBound s).1, t.wellFormed = true := by
  rw [readClassBound]
  split_ifs
  · exact nofun
  · cases hread : parse s with
    | none => exact nofun
    | some p => exact List.forall_mem_singleton.mpr (parse_wellFormed hread)

theorem readInterfaceBounds_wellFormed (fuel : ℕ) (s : List Char) :
    ∀ t ∈ (readInterfaceBounds fuel s).1, t.wellFormed = true := by
  fun_induction readInterfaceBounds fuel s with
  | case1 fuel s hcolon ih => exact ih
  | case2 fuel s hcolon bound rest hread more ih => exact List.forall_mem_cons.mpr ⟨parse_wellFormed hread, ih⟩
  | case3 => exact nofun
  | case4 => exact nofun

/-- The bounds of every name are well formed. -/
def AllWellFormed (bounds : TypeParameterBounds) : Prop :=
  ∀ name types, bounds.lookup name = some types → ∀ t ∈ types, t.wellFormed = true

theorem readTypeParameters_wellFormed (fuel : ℕ) (s : List Char) {bounds : TypeParameterBounds}
    (h : AllWellFormed bounds) : AllWellFormed (readTypeParameters fuel s bounds) := by
  induction fuel generalizing s bounds with
  | zero => exact h
  | succ fuel ih =>
    rw [readTypeParameters]
    cases splitOnce ':' s with
    | none => exact h
    | some halves =>
      dsimp only
      split_ifs
      · exact h
      · refine ih _ fun name types hlookup => ?_
        by_cases hname : name = String.ofList (trim halves.1)
        · subst hname
          rw [AList.lookup_insert, Option.some.injEq] at hlookup
          subst hlookup
          exact List.forall_mem_append.mpr ⟨readClassBound_wellFormed _, readInterfaceBounds_wellFormed _ _⟩
        · rw [AList.lookup_insert_ne hname] at hlookup
          exact h name types hlookup

theorem parseTypeParameterBounds_wellFormed (signature : String) :
    AllWellFormed (parseTypeParameterBounds signature) := by
  rw [parseTypeParameterBounds]
  split
  · exact nofun
  · exact readTypeParameters_wellFormed _ _ nofun

end TypeParameter

end JavaAnalyzer.Semantic
