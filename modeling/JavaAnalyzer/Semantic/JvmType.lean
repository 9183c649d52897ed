import JavaAnalyzer.Library.Text

/-! # Generic JVM types and their signature text

`JvmType` of `semantic/types/generics.rs`: the tree behind a JVM type signature, the reader
`JvmType::parse` and the printer `to_signature_string`. Texts are character lists. The reader takes
an explicit fuel. `parseFuel_stable` shows that the fuel `parse` passes is always enough, so no answer
of `parse` comes from running out, and `parse_signature` is the round trip on well-formed types. -/

namespace JavaAnalyzer.Semantic
set_option autoImplicit false
open Text

inductive JvmType where
  /-- Internal class name and type arguments. -/
  | object (name : String) (args : List JvmType)
  | typeVar (name : String)
  | array (inner : JvmType)
  | primitive (c : Char)
  | wildcard
  /-- `+` for extends, `-` for super. -/
  | wildcardBound (c : Char) (inner : JvmType)
deriving Inhabited, Repr

namespace JvmType

theorem inductOn {P : JvmType → Prop} (t : JvmType)
    (object : ∀ name args, (∀ a ∈ args, P a) → P (.object name args))
    (typeVar : ∀ name, P (.typeVar name)) (array : ∀ inner, P inner → P (.array inner))
    (primitive : ∀ c, P (.primitive c)) (wildcard : P .wildcard)
    (wildcardBound : ∀ c inner, P inner → P (.wildcardBound c inner)) : P t :=
  @JvmType.rec P (fun args => ∀ a ∈ args, P a)
    object typeVar array primitive wildcard wildcardBound (by simp)
    (fun a args ha hargs => by simpa using ⟨ha, hargs⟩) t

/-! ## Equality -/

mutual

def beq : JvmType → JvmType → Bool
  | .object n as, .object n' as' => n == n' && beqArgs as as'
  | .typeVar n, .typeVar n' => n == n'
  | .array t, .array t' => beq t t'
  | .primitive c, .primitive c' => c == c'
  | .wildcard, .wildcard => true
  | .wildcardBound c t, .wildcardBound c' t' => c == c' && beq t t'
  | _, _ => false
termination_by structural a => a

def beqArgs : List JvmType → List JvmType → Bool
  | [], [] => true
  | a :: as, b :: bs => beq a b && beqArgs as bs
  | _, _ => false
termination_by structural a => a

end

mutual

theorem beq_iff : ∀ a b : JvmType, beq a b = true ↔ a = b
  | .object n as, b => by cases b <;> simp [beq, beqArgs_iff as]
  | .typeVar _, b => by cases b <;> simp [beq]
  | .array t, b => by cases b <;> simp [beq, beq_iff t]
  | .primitive _, b => by cases b <;> simp [beq]
  | .wildcard, b => by cases b <;> simp [beq]
  | .wildcardBound _ t, b => by cases b <;> simp [beq, beq_iff t]

theorem beqArgs_iff : ∀ as bs : List JvmType, beqArgs as bs = true ↔ as = bs
  | [], bs => by cases bs <;> simp [beqArgs]
  | _ :: _, [] => by simp [beqArgs]
  | a :: as, b :: bs => by simp [beqArgs, beq_iff a b, beqArgs_iff as bs]

end

instance : DecidableEq JvmType := fun a b => decidable_of_iff _ (beq_iff a b)

/-! ## Printing -/

mutual

/-- `to_signature_string`. -/
def signature : JvmType → List Char
  | .object n args =>
    if args.isEmpty then 'L' :: (n.toList ++ [';'])
    else 'L' :: (n.toList ++ '<' :: (signatures args ++ ['>', ';']))
  | .typeVar n => 'T' :: (n.toList ++ [';'])
  | .array t => '[' :: signature t
  | .primitive c => [c]
  | .wildcard => ['*']
  | .wildcardBound c t => c :: signature t

def signatures : List JvmType → List Char
  | [] => []
  | t :: ts => signature t ++ signatures ts

end

def toSignatureString (t : JvmType) : String := String.ofList t.signature

@[simp] theorem toSignatureString_toList (t : JvmType) :
    t.toSignatureString.toList = t.signature := String.toList_ofList

theorem signature_length_pos (t : JvmType) : 0 < t.signature.length := by
  cases t with
  | object n args => rw [signature]; split <;> simp
  | _ => simp [signature]

/-! ## Reading -/

/-- The letters of the primitive descriptors, `V` included. -/
def primitiveChars : List Char := ['V', 'B', 'C', 'D', 'F', 'I', 'J', 'S', 'Z']

/-- Where the name of a class type ends. -/
def endsClassName (c : Char) : Bool := c = '<' || c = ';'

mutual

/-- `JvmType::parse` with at most `fuel` nested reads. -/
def parseFuel : ℕ → List Char → Option (JvmType × List Char)
  | 0, _ => none
  | _ + 1, [] => none
  | fuel + 1, c :: s =>
    if c = 'L' then
      match (breakAt endsClassName s).2 with
      | '<' :: rest =>
        (parseArgsFuel fuel rest).map fun p =>
          (.object (String.ofList (breakAt endsClassName s).1) p.1, skipChar ';' p.2)
      | rest => some (.object (String.ofList (breakAt endsClassName s).1) [], skipChar ';' rest)
    else if c = 'T' then
      (splitOnce ';' s).map fun p => (.typeVar (String.ofList p.1), p.2)
    else if c = '[' then
      (parseFuel fuel s).map fun p => (.array p.1, p.2)
    else if c = '*' then
      some (.wildcard, s)
    else if c = '+' ∨ c = '-' then
      (parseFuel fuel s).map fun p => (.wildcardBound c p.1, p.2)
    else if c ∈ primitiveChars then
      some (.primitive c, s)
    else
      none

/-- The argument loop, from behind `<` to behind the matching `>`. -/
def parseArgsFuel : ℕ → List Char → Option (List JvmType × List Char)
  | 0, _ => none
  | _ + 1, [] => none
  | fuel + 1, c :: s =>
    if c = '>' then some ([], s)
    else
      (parseFuel fuel (c :: s)).bind fun p =>
        (parseArgsFuel fuel p.2).map fun q => (p.1 :: q.1, q.2)

end

def parse (s : List Char) : Option (JvmType × List Char) := parseFuel (2 * s.length + 1) s

/-! ## A read consumes text -/

mutual

theorem parseFuel_length : ∀ {fuel : ℕ} {s : List Char} {p : JvmType × List Char},
    parseFuel fuel s = some p → p.2.length < s.length
  | 0, _, _, h => by simp [parseFuel] at h
  | _ + 1, [], _, h => by simp [parseFuel] at h
  | fuel + 1, c :: s, p, h => by
      have hbreak := breakAt_snd_length endsClassName s
      simp only [parseFuel] at h
      split_ifs at h
      · split at h
        · rename_i rest hrest
          obtain ⟨q, hq, rfl⟩ := Option.map_eq_some_iff.mp h
          have h1 := parseArgsFuel_length hq
          have h2 := skipChar_length ';' q.2
          rw [hrest] at hbreak
          simp only [List.length_cons] at hbreak ⊢
          omega
        · cases h
          have h2 := skipChar_length ';' (breakAt endsClassName s).2
          simp only [List.length_cons]
          omega
      · obtain ⟨q, hq, rfl⟩ := Option.map_eq_some_iff.mp h
        obtain ⟨rfl, _⟩ := splitOnce_eq hq
        simp
        omega
      · obtain ⟨q, hq, rfl⟩ := Option.map_eq_some_iff.mp h
        have := parseFuel_length hq
        simp only [List.length_cons]
        omega
      · cases h
        simp
      · obtain ⟨q, hq, rfl⟩ := Option.map_eq_some_iff.mp h
        have := parseFuel_length hq
        simp only [List.length_cons]
        omega
      · cases h
        simp

theorem parseArgsFuel_length : ∀ {fuel : ℕ} {s : List Char} {p : List JvmType × List Char},
    parseArgsFuel fuel s = some p → p.2.length < s.length
  | 0, _, _, h => by simp [parseArgsFuel] at h
  | _ + 1, [], _, h => by simp [parseArgsFuel] at h
  | fuel + 1, c :: s, p, h => by
      simp only [parseArgsFuel] at h
      split_ifs at h
      · cases h
        simp
      · obtain ⟨q, hq, h⟩ := Option.bind_eq_some_iff.mp h
        obtain ⟨r, hr, rfl⟩ := Option.map_eq_some_iff.mp h
        have h1 := parseFuel_length hq
        have h2 := parseArgsFuel_length hr
        exact h2.trans h1

end

/-! ## The fuel is always enough -/

theorem parseFuel_and_args_stable : ∀ (n : ℕ),
    (∀ s : List Char, s.length ≤ n → ∀ f g, 2 * s.length + 1 ≤ f → 2 * s.length + 1 ≤ g →
      parseFuel f s = parseFuel g s) ∧
    (∀ s : List Char, s.length ≤ n → ∀ f g, 2 * s.length + 2 ≤ f → 2 * s.length + 2 ≤ g →
      parseArgsFuel f s = parseArgsFuel g s) := by
  -- On the text's length; the arguments of one length use the types of the same length.
  intro n
  induction n with
  | zero =>
    refine ⟨fun s hs f g hf hg => ?_, fun s hs f g hf hg => ?_⟩
    all_goals
      obtain ⟨f, rfl⟩ : ∃ f', f = f' + 1 := ⟨f - 1, by omega⟩
      obtain ⟨g, rfl⟩ : ∃ g', g = g' + 1 := ⟨g - 1, by omega⟩
      obtain rfl : s = [] := List.length_eq_zero_iff.mp (by omega)
      simp [parseFuel, parseArgsFuel]
  | succ n ih =>
    obtain ⟨ihT, ihA⟩ := ih
    have hT : ∀ s : List Char, s.length ≤ n + 1 → ∀ f g, 2 * s.length + 1 ≤ f →
        2 * s.length + 1 ≤ g → parseFuel f s = parseFuel g s := by
      intro s hs f g hf hg
      obtain ⟨f, rfl⟩ : ∃ f', f = f' + 1 := ⟨f - 1, by omega⟩
      obtain ⟨g, rfl⟩ : ∃ g', g = g' + 1 := ⟨g - 1, by omega⟩
      cases s with
      | nil => simp [parseFuel]
      | cons c s =>
        simp only [List.length_cons] at hs hf hg
        have hrec : parseFuel f s = parseFuel g s := ihT s (by omega) f g (by omega) (by omega)
        simp only [parseFuel, hrec]
        split_ifs
        · have hbreak := breakAt_snd_length endsClassName s
          split
          · rename_i rest hrest
            rw [hrest] at hbreak
            simp only [List.length_cons] at hbreak
            rw [ihA rest (by omega) f g (by omega) (by omega)]
          · rfl
        all_goals rfl
    refine ⟨hT, fun s hs f g hf hg => ?_⟩
    obtain ⟨f, rfl⟩ : ∃ f', f = f' + 1 := ⟨f - 1, by omega⟩
    obtain ⟨g, rfl⟩ : ∃ g', g = g' + 1 := ⟨g - 1, by omega⟩
    cases s with
    | nil => simp [parseArgsFuel]
    | cons c s =>
      simp only [parseArgsFuel]
      split_ifs
      · rfl
      · rw [hT (c :: s) hs f g (by omega) (by omega)]
        refine Option.bind_congr fun p hp => ?_
        have hlen := parseFuel_length hp
        rw [ihA p.2 (by omega) f g (by omega) (by omega)]

theorem parseFuel_stable {s : List Char} {fuel : ℕ} (h : 2 * s.length + 1 ≤ fuel) :
    parseFuel fuel s = parse s :=
  (parseFuel_and_args_stable s.length).1 s le_rfl fuel _ h le_rfl

theorem parse_length {s : List Char} {p : JvmType × List Char} (h : parse s = some p) :
    p.2.length < s.length := parseFuel_length h

/-! ## Well-formed types -/

mutual

/-- No name contains a character that ends it in the signature text. -/
def wellFormed : JvmType → Bool
  | .object n args => n.toList.all (fun c => !endsClassName c) && wellFormedArgs args
  | .typeVar n => !n.toList.contains ';'
  | .array t => wellFormed t
  | .primitive c => primitiveChars.contains c
  | .wildcard => true
  | .wildcardBound c t => (c = '+' || c = '-') && wellFormed t

def wellFormedArgs : List JvmType → Bool
  | [] => true
  | t :: ts => wellFormed t && wellFormedArgs ts

end

theorem wellFormedArgs_iff {ts : List JvmType} :
    wellFormedArgs ts = true ↔ ∀ t ∈ ts, t.wellFormed = true := by
  induction ts with
  | nil => simp [wellFormedArgs]
  | cons t ts ih => simp [wellFormedArgs, ih]

mutual

theorem parseFuel_wellFormed : ∀ {fuel : ℕ} {s : List Char} {p : JvmType × List Char},
    parseFuel fuel s = some p → p.1.wellFormed = true
  | 0, _, _, h => by simp [parseFuel] at h
  | _ + 1, [], _, h => by simp [parseFuel] at h
  | fuel + 1, c :: s, p, h => by
      have hname : ((breakAt endsClassName s).1.all fun c => !endsClassName c) = true :=
        List.all_eq_true.mpr fun c hc => by simp [breakAt_fst_free endsClassName s c hc]
      simp only [parseFuel] at h
      split_ifs at h with _ _ _ _ hbound hprim
      · split at h
        · obtain ⟨q, hq, rfl⟩ := Option.map_eq_some_iff.mp h
          simp [wellFormed, String.toList_ofList, hname, parseArgsFuel_wellFormed hq]
        · cases h
          simp [wellFormed, String.toList_ofList, hname, wellFormedArgs]
      · obtain ⟨q, hq, rfl⟩ := Option.map_eq_some_iff.mp h
        simpa [wellFormed, String.toList_ofList] using (splitOnce_eq hq).2
      · obtain ⟨q, hq, rfl⟩ := Option.map_eq_some_iff.mp h
        simpa [wellFormed] using parseFuel_wellFormed hq
      · cases h
        simp [wellFormed]
      · obtain ⟨q, hq, rfl⟩ := Option.map_eq_some_iff.mp h
        simpa [wellFormed, parseFuel_wellFormed hq] using hbound
      · cases h
        simpa [wellFormed] using hprim

theorem parseArgsFuel_wellFormed : ∀ {fuel : ℕ} {s : List Char} {p : List JvmType × List Char},
    parseArgsFuel fuel s = some p → wellFormedArgs p.1 = true
  | 0, _, _, h => by simp [parseArgsFuel] at h
  | _ + 1, [], _, h => by simp [parseArgsFuel] at h
  | fuel + 1, c :: s, p, h => by
      simp only [parseArgsFuel] at h
      split_ifs at h
      · cases h
        simp [wellFormedArgs]
      · obtain ⟨q, hq, h⟩ := Option.bind_eq_some_iff.mp h
        obtain ⟨r, hr, rfl⟩ := Option.map_eq_some_iff.mp h
        simp [wellFormedArgs, parseFuel_wellFormed hq, parseArgsFuel_wellFormed hr]

end

theorem parse_wellFormed {s : List Char} {p : JvmType × List Char} (h : parse s = some p) :
    p.1.wellFormed = true := parseFuel_wellFormed h

/-! ## Round trip -/

theorem signature_head {t : JvmType} (h : t.wellFormed = true) :
    ∃ c s, t.signature = c :: s ∧ c ≠ '>' := by
  cases t with
  | object n args =>
    rw [signature]
    split
    · exact ⟨_, _, rfl, by decide⟩
    · exact ⟨_, _, rfl, by decide⟩
  | typeVar n => exact ⟨_, _, rfl, by decide⟩
  | array t => exact ⟨_, _, rfl, by decide⟩
  | primitive c =>
    refine ⟨c, [], rfl, ?_⟩
    rintro rfl
    simp [wellFormed, primitiveChars] at h
  | wildcard => exact ⟨_, _, rfl, by decide⟩
  | wildcardBound c t =>
    refine ⟨c, _, rfl, ?_⟩
    rintro rfl
    simp [wellFormed] at h

theorem name_free {n : String} (h : (n.toList.all fun c => !endsClassName c) = true) :
    ∀ c ∈ n.toList, endsClassName c = false := by
  intro c hc
  simpa using List.all_eq_true.mp h c hc

mutual

theorem parseFuel_signature : ∀ (t : JvmType), t.wellFormed = true → ∀ (rest : List Char)
    (fuel : ℕ), 2 * t.signature.length ≤ fuel → parseFuel fuel (t.signature ++ rest) = some (t, rest)
  | t, h, rest, 0, hf => by
      have := signature_length_pos t
      omega
  | .object n [], h, rest, fuel + 1, hf => by
      simp only [wellFormed, Bool.and_eq_true] at h
      have hb := breakAt_append (name_free h.1) (d := ';') (by decide) rest
      simp [signature, parseFuel, hb]
  | .object n (a :: as), h, rest, fuel + 1, hf => by
      simp only [wellFormed, Bool.and_eq_true] at h
      have hb := breakAt_append (name_free h.1) (d := '<') (by decide)
        (signatures (a :: as) ++ '>' :: ';' :: rest)
      have hlen : 2 * (signatures (a :: as)).length + 1 ≤ fuel := by
        simp [signature] at hf
        omega
      have hargs := parseArgsFuel_signatures (a :: as) h.2 (';' :: rest) fuel hlen
      simp [signature, parseFuel, hb, hargs]
  | .typeVar n, h, rest, fuel + 1, hf => by
      have hn : ';' ∉ n.toList := by simpa [wellFormed] using h
      simp [signature, parseFuel, splitOnce_append hn]
  | .array t, h, rest, fuel + 1, hf => by
      have ht := parseFuel_signature t (by simpa [wellFormed] using h) rest fuel
        (by simp [signature] at hf; omega)
      simp [signature, parseFuel, ht]
  | .primitive c, h, rest, fuel + 1, hf => by
      have hc : c ∈ primitiveChars := by simpa [wellFormed] using h
      simp only [primitiveChars, List.mem_cons, List.not_mem_nil, or_false] at hc
      rcases hc with rfl | rfl | rfl | rfl | rfl | rfl | rfl | rfl | rfl <;>
        simp [signature, parseFuel, primitiveChars]
  | .wildcard, h, rest, fuel + 1, hf => by
      simp [signature, parseFuel]
  | .wildcardBound c t, h, rest, fuel + 1, hf => by
      simp only [wellFormed, Bool.and_eq_true, Bool.or_eq_true, decide_eq_true_eq] at h
      have ht := parseFuel_signature t h.2 rest fuel (by simp [signature] at hf; omega)
      rcases h.1 with rfl | rfl <;> simp [signature, parseFuel, ht]

theorem parseArgsFuel_signatures : ∀ (ts : List JvmType), wellFormedArgs ts = true →
    ∀ (rest : List Char) (fuel : ℕ), 2 * (signatures ts).length + 1 ≤ fuel →
      parseArgsFuel fuel (signatures ts ++ '>' :: rest) = some (ts, rest)
  | ts, h, rest, 0, hf => by omega
  | [], h, rest, fuel + 1, hf => by simp [signatures, parseArgsFuel]
  | t :: ts, h, rest, fuel + 1, hf => by
      simp only [wellFormedArgs, Bool.and_eq_true] at h
      have hpos := signature_length_pos t
      simp only [signatures, List.length_append] at hf
      obtain ⟨c, s, hs, hc⟩ := signature_head h.1
      have ht := parseFuel_signature t h.1 (signatures ts ++ '>' :: rest) fuel (by omega)
      have hts := parseArgsFuel_signatures ts h.2 rest fuel (by omega)
      rw [hs] at ht
      simp only [signatures, hs, List.append_assoc, List.cons_append] at ht ⊢
      simp [parseArgsFuel, hc, ht, hts]

end

theorem parse_signature {t : JvmType} (h : t.wellFormed = true) (rest : List Char) :
    parse (t.signature ++ rest) = some (t, rest) :=
  parseFuel_signature t h rest _ (by simp; omega)

example : parse "Ljava/util/Map<TK;[I>;Z".toList =
    some (.object "java/util/Map" [.typeVar "K", .array (.primitive 'I')], ['Z']) := by decide

end JvmType

end JavaAnalyzer.Semantic
