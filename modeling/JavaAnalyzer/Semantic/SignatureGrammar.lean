import JavaAnalyzer.Jvm.Descriptor
import JavaAnalyzer.Semantic.ConsumedText

/-! # The grammar of type signatures

What `JvmType::parse` reads, beside the grammar of `JavaTypeSignature` in JVMS 4.7.9.1. The reader follows a
looser grammar (`Loose`), and it stops behind the arguments of a class type where the grammar goes on to a
class that is nested in it. -/

namespace JavaAnalyzer.Semantic
set_option autoImplicit false
open Text Jvm

namespace JvmType

/-! ## The reader without fuel -/

section

variable {c : Char} {name : List Char} (rest : List Char)

theorem parse_array : parse ('[' :: rest) = (parse rest).map fun p => (.array p.1, p.2) := by
  rw [parse, parseFuel, if_neg (by decide), if_neg (by decide), if_pos rfl,
    parseFuel_stable (by rw [List.length_cons]; omega)]

theorem parse_bound (h : c = '+' ∨ c = '-') :
    parse (c :: rest) = (parse rest).map fun p => (.wildcardBound c p.1, p.2) := by
  rw [parse, parseFuel, parseFuel_stable (by rw [List.length_cons]; omega)]
  rcases h with rfl | rfl <;> rfl

theorem parse_any : parse ('*' :: rest) = some (.wildcard, rest) :=
  rfl

theorem parse_primitive (h : c ∈ primitiveChars) : parse (c :: rest) = some (.primitive c, rest) := by
  simp only [primitiveChars, List.mem_cons, List.not_mem_nil, or_false] at h
  rcases h with rfl | rfl | rfl | rfl | rfl | rfl | rfl | rfl | rfl <;> rfl

theorem parse_variable (h : ';' ∉ name) :
    parse ('T' :: (name ++ ';' :: rest)) = some (.typeVar (String.ofList name), rest) := by
  rw [parse, parseFuel, if_neg (by decide), if_pos rfl, splitOnce_append h]
  rfl

theorem breakAt_free (h : ∀ c ∈ name, endsClassName c = false) : breakAt endsClassName name = (name, []) := by
  have hall : ∀ c ∈ name, (!endsClassName c) = true := fun c hc => by rw [h c hc]; rfl
  rw [breakAt, List.takeWhile_eq_self_iff.mpr hall, List.dropWhile_eq_nil_iff.mpr hall]

theorem parseArgs_close : parseArgs ('>' :: rest) = some ([], rest) := by
  rw [parseArgs_cons, if_pos rfl]

theorem parseArgs_step (h : c ≠ '>') :
    parseArgs (c :: rest) = (parse (c :: rest)).bind fun p => (parseArgs p.2).map fun q => (p.1 :: q.1, q.2) := by
  rw [parseArgs_cons, if_neg h]

end

/-- A type is read back from its signature, whatever follows, if it is well formed and in no other case. -/
theorem decodes_iff_wellFormed (t : JvmType) :
    (∀ rest : String, parse (t.toSignatureString ++ rest).toList = some (t, rest.toList)) ↔
      t.wellFormed = true := by
  constructor
  · intro h
    exact parse_wellFormed (h "")
  · intro h rest
    rw [String.toList_append, toSignatureString_toList]
    exact parse_signature h rest.toList

/-! ## The grammar -/

/-- A name of the grammar. -/
def isIdentifier (s : List Char) : Bool :=
  !s.isEmpty && s.all fun c => c ∉ ['.', ';', '[', '/', '<', '>', ':']

inductive Nonterminal where
  | javaType
  | referenceType
  | classType
  | packagedClass
  | simpleClass
  | typeArguments
  | typeArgument

/-- The texts of a nonterminal, with one constructor for each production. -/
inductive Derives : Nonterminal → List Char → Prop where
  | base {c : Char} (h : c ∈ baseChars) : Derives .javaType [c]
  | reference {s : List Char} (h : Derives .referenceType s) : Derives .javaType s
  | object {s : List Char} (h : Derives .classType s) : Derives .referenceType ('L' :: (s ++ [';']))
  | typeVariable {name : List Char} (h : isIdentifier name = true) : Derives .referenceType ('T' :: (name ++ [';']))
  | array {s : List Char} (h : Derives .javaType s) : Derives .referenceType ('[' :: s)
  | outermost {s : List Char} (h : Derives .packagedClass s) : Derives .classType s
  | suffix {s t : List Char} (h : Derives .classType s) (h' : Derives .simpleClass t) :
      Derives .classType (s ++ '.' :: t)
  | simple {s : List Char} (h : Derives .simpleClass s) : Derives .packagedClass s
  | package {name s : List Char} (h : isIdentifier name = true) (h' : Derives .packagedClass s) :
      Derives .packagedClass (name ++ '/' :: s)
  | plain {name : List Char} (h : isIdentifier name = true) : Derives .simpleClass name
  | generic {name args : List Char} (h : isIdentifier name = true) (h' : Derives .typeArguments args) :
      Derives .simpleClass (name ++ '<' :: (args ++ ['>']))
  | last {s : List Char} (h : Derives .typeArgument s) : Derives .typeArguments s
  | more {s t : List Char} (h : Derives .typeArgument s) (h' : Derives .typeArguments t) :
      Derives .typeArguments (s ++ t)
  | any : Derives .typeArgument ['*']
  | invariant {s : List Char} (h : Derives .referenceType s) : Derives .typeArgument s
  | bounded {c : Char} {s : List Char} (hc : c = '+' ∨ c = '-') (h : Derives .referenceType s) :
      Derives .typeArgument (c :: s)

/-- A class that is nested in a class with type arguments. -/
def NestsInGeneric (s : List Char) : Prop :=
  ['>', '.'] <:+: s

instance (s : List Char) : Decidable (NestsInGeneric s) :=
  inferInstanceAs (Decidable (['>', '.'] <:+: s))

/-! ## What the reader does with texts of the grammar -/

theorem pair_infix_append {a b : Char} {l r : List Char} :
    [a, b] <:+: l ++ r ↔ [a, b] <:+: l ∨ [a, b] <:+: r ∨ l.getLast? = some a ∧ r.head? = some b := by
  induction l with
  | nil => simp
  | cons c l ih =>
    rw [List.cons_append, List.infix_cons_iff, ih, List.infix_cons_iff]
    cases l with
    | nil => cases r <;> simp [List.cons_prefix_cons]; tauto
    | cons d l => simp [List.cons_prefix_cons, List.getLast?_cons_cons]; tauto

/-- A text between its first and last character. -/
structure Framed (s : List Char) : Prop where
  head : ∃ c rest, s = c :: rest ∧ c ≠ '>' ∧ c ≠ '.'
  last : s.getLast? ≠ some '>'

/-- What is read of a type or a type argument. -/
structure ReadsType (s : List Char) : Prop extends Framed s where
  whole : ¬ NestsInGeneric s → ∀ rest, ∃ t, parse (s ++ rest) = some (t, rest)
  stops : NestsInGeneric s → ∀ rest t left, parse (s ++ rest) = some (t, left) → left.head? = some '.'

/-- What is read of type arguments. -/
structure ReadsArgs (s : List Char) : Prop extends Framed s where
  whole : ¬ NestsInGeneric s → ∀ rest, ∃ ts, parseArgs (s ++ '>' :: rest) = some (ts, rest)
  stops : NestsInGeneric s → ∀ rest, parseArgs (s ++ '>' :: rest) = none

/-- A class type is a name, or a name with arguments and what is nested in it. -/
def ReadsClass (s : List Char) : Prop :=
  ∃ name : List Char, (∀ c ∈ name, endsClassName c = false ∧ c ≠ '>') ∧
    (s = name ∨ ∃ args nested, s = name ++ '<' :: (args ++ '>' :: nested) ∧ ReadsArgs args ∧
      (nested = [] ∨ nested.head? = some '.'))

theorem not_nests_of_free {s : List Char} (h : '>' ∉ s) : ¬ NestsInGeneric s :=
  fun hnested => h (hnested.subset List.mem_cons_self)

theorem identifier_free {name : List Char} (h : isIdentifier name = true) :
    name ≠ [] ∧ ∀ c ∈ name, c ∉ ['.', ';', '[', '/', '<', '>', ':'] := by
  rw [isIdentifier, Bool.and_eq_true, Bool.not_eq_true', List.isEmpty_eq_false_iff, List.all_eq_true] at h
  exact ⟨h.1, fun c hc => of_decide_eq_true (h.2 c hc)⟩

theorem identifier_name {name : List Char} (h : isIdentifier name = true) :
    ∀ c ∈ name, endsClassName c = false ∧ c ≠ '>' := by
  intro c hc
  have hfree := (identifier_free h).2 c hc
  simp only [List.mem_cons, List.not_mem_nil, or_false, not_or] at hfree
  exact ⟨by simp [endsClassName, hfree], hfree.2.2.2.2.2.1⟩

theorem name_append {name name' : List Char} {d : Char} (h : ∀ c ∈ name, endsClassName c = false ∧ c ≠ '>')
    (hd : endsClassName d = false ∧ d ≠ '>') (h' : ∀ c ∈ name', endsClassName c = false ∧ c ≠ '>') :
    ∀ c ∈ name ++ d :: name', endsClassName c = false ∧ c ≠ '>' := by
  intro c hc
  rcases List.mem_append.mp hc with hc | hc
  · exact h c hc
  · rcases List.mem_cons.mp hc with rfl | hc
    · exact hd
    · exact h' c hc

theorem framed_cons {c : Char} {s : List Char} (h : c ≠ '>' ∧ c ≠ '.') (hlast : s.getLast? ≠ some '>') :
    Framed (c :: s) where
  head := ⟨c, s, rfl, h⟩
  last := by
    cases s with
    | nil => simpa using h.1
    | cons d s => rwa [List.getLast?_cons_cons]

theorem ReadsType.marked {c : Char} {s : List Char} {mark : JvmType → JvmType} (hc : c ≠ '>' ∧ c ≠ '.')
    (hparse : ∀ s, parse (c :: s) = (parse s).map fun p => (mark p.1, p.2)) (h : ReadsType s) :
    ReadsType (c :: s) where
  toFramed := framed_cons hc h.last
  whole hplain rest := by
    have hinner : ¬ NestsInGeneric s := fun hnested => hplain (List.infix_cons hnested)
    obtain ⟨t, ht⟩ := h.whole hinner rest
    exact ⟨mark t, by rw [List.cons_append, hparse, ht]; rfl⟩
  stops hnests rest t left hread := by
    have hinner : NestsInGeneric s := by
      rcases List.infix_cons_iff.mp hnests with hfront | hinner
      · exact absurd (List.cons_prefix_cons.mp hfront).1.symm hc.1
      · exact hinner
    rw [List.cons_append, hparse, Option.map_eq_some_iff] at hread
    obtain ⟨⟨t', left'⟩, hread, heq⟩ := hread
    cases heq
    exact h.stops hinner rest t' _ hread

/-- Behind a closed argument list nothing is nested. -/
theorem nests_of_closed {front args : List Char} (hfront : '>' ∉ front) (hargs : args.getLast? ≠ some '>')
    (h : NestsInGeneric (front ++ (args ++ ['>', ';']))) : NestsInGeneric args := by
  rcases pair_infix_append.mp h with h | h | ⟨h, -⟩
  · exact absurd h (not_nests_of_free hfront)
  · rcases pair_infix_append.mp h with h | h | ⟨h, -⟩
    · exact h
    · exact absurd h (by decide)
    · exact absurd h hargs
  · exact absurd (List.mem_of_getLast? h) hfront

theorem readsType_class {s : List Char} (h : ReadsClass s) : ReadsType ('L' :: (s ++ [';'])) := by
  have hframed : Framed ('L' :: (s ++ [';'])) := framed_cons (by decide) (by simp)
  obtain ⟨name, hname, rfl | ⟨args, nested, rfl, hargs, hnested⟩⟩ := h
  · refine ⟨hframed, fun _ rest => ?_, fun hnests => ?_⟩
    · rw [List.cons_append, List.append_assoc]
      exact ⟨_, parse_className (fun c hc => (hname c hc).1) rest⟩
    · have hfree : '>' ∉ s := fun hmem => (hname _ hmem).2 rfl
      exact absurd hnests (not_nests_of_free (by simp [hfree]))
  · have hread : ∀ rest, parse ('L' :: (name ++ '<' :: (args ++ '>' :: nested) ++ [';']) ++ rest) =
        (parseArgs (args ++ '>' :: (nested ++ ';' :: rest))).map fun p =>
          (.object (String.ofList name) p.1, skipChar ';' p.2) := by
      intro rest
      rw [← parse_classArgs fun c hc => (hname c hc).1]
      simp
    refine ⟨hframed, fun hplain rest => ?_, fun hnests rest t left ht => ?_⟩
    · have hinner : ¬ NestsInGeneric args := by
        refine fun hnested => hplain (hnested.trans ?_)
        exact ⟨'L' :: (name ++ ['<']), '>' :: (nested ++ [';']), by simp⟩
      obtain rfl : nested = [] := by
        refine hnested.resolve_right fun hdot => hplain ?_
        obtain ⟨nested, rfl⟩ : ∃ tail, nested = '.' :: tail := by
          cases nested with
          | nil => cases hdot
          | cons c tail => exact ⟨tail, by rw [Option.some.inj hdot]⟩
        exact ⟨'L' :: (name ++ '<' :: args), nested ++ [';'], by simp⟩
      obtain ⟨ts, hts⟩ := hargs.whole hinner (';' :: rest)
      rw [hread, List.nil_append, hts]
      exact ⟨_, rfl⟩
    · rw [hread] at ht
      by_cases hinner : NestsInGeneric args
      · rw [hargs.stops hinner] at ht
        cases ht
      · obtain ⟨ts, hts⟩ := hargs.whole hinner (nested ++ ';' :: rest)
        rw [hts] at ht
        cases ht
        rcases hnested with rfl | hdot
        · have hfree : '>' ∉ name := fun hmem => (hname _ hmem).2 rfl
          refine absurd (@nests_of_closed ('L' :: (name ++ ['<'])) args (by simp [hfree]) hargs.last ?_) hinner
          simpa using hnests
        · cases nested with
          | nil => cases hdot
          | cons c tail =>
            obtain rfl := Option.some.inj hdot
            rfl

theorem readsType_base {c : Char} (h : c ∈ baseChars) : ReadsType [c] := by
  have hprimitive : c ∈ primitiveChars := List.mem_cons_of_mem _ h
  have hc : c ≠ '>' ∧ c ≠ '.' := by
    constructor <;> rintro rfl <;> exact absurd h (by decide)
  refine ⟨framed_cons hc (by simp), fun _ rest => ⟨_, parse_primitive rest hprimitive⟩, fun hnests => ?_⟩
  exact absurd hnests (not_nests_of_free (by simpa using hc.1.symm))

theorem readsType_variable {name : List Char} (h : isIdentifier name = true) :
    ReadsType ('T' :: (name ++ [';'])) := by
  have hfree : '>' ∉ name := fun hmem => (identifier_name h _ hmem).2 rfl
  have hsemicolon : ';' ∉ name := fun hmem => absurd (identifier_name h _ hmem).1 (by decide)
  refine ⟨framed_cons (by decide) (by simp), fun _ rest => ?_, fun hnests => ?_⟩
  · rw [List.cons_append, List.append_assoc]
    exact ⟨_, parse_variable rest hsemicolon⟩
  · exact absurd hnests (not_nests_of_free (by simp [hfree]))

theorem readsType_any : ReadsType ['*'] where
  toFramed := framed_cons (by decide) (by simp)
  whole _ rest := ⟨_, parse_any rest⟩
  stops hnests := absurd hnests (by decide)

theorem parseArgs_append {s : List Char} (h : Framed s) (rest : List Char) : parseArgs (s ++ rest) =
    (parse (s ++ rest)).bind fun p => (parseArgs p.2).map fun q => (p.1 :: q.1, q.2) := by
  obtain ⟨c, tail, rfl, hc, -⟩ := h.head
  exact parseArgs_step _ hc

theorem parseArgs_dot {left : List Char} (h : left.head? = some '.') : parseArgs left = none := by
  cases left with
  | nil => cases h
  | cons c left =>
    obtain rfl := Option.some.inj h
    rw [parseArgs_step left (by decide)]
    rfl

theorem readsArgs_last {s : List Char} (h : ReadsType s) : ReadsArgs s where
  toFramed := h.toFramed
  whole hplain rest := by
    obtain ⟨t, ht⟩ := h.whole hplain ('>' :: rest)
    exact ⟨[t], by rw [parseArgs_append h.toFramed, ht, Option.bind_some, parseArgs_close]; rfl⟩
  stops hnests rest := by
    rw [parseArgs_append h.toFramed]
    cases hread : parse (s ++ '>' :: rest) with
    | none => rfl
    | some p => rw [Option.bind_some, parseArgs_dot (h.stops hnests _ p.1 p.2 hread), Option.map_none]

theorem readsArgs_more {s t : List Char} (h : ReadsType s) (h' : ReadsArgs t) : ReadsArgs (s ++ t) := by
  obtain ⟨c, tail, rfl, hc⟩ := h.head
  obtain ⟨c', tail', rfl, hc'⟩ := h'.head
  have hsplit : NestsInGeneric (c :: tail ++ c' :: tail') ↔
      NestsInGeneric (c :: tail) ∨ NestsInGeneric (c' :: tail') := by
    refine pair_infix_append.trans (or_congr_right (or_iff_left fun hjoint => ?_))
    exact h.last hjoint.1
  refine ⟨⟨⟨c, tail ++ c' :: tail', rfl, hc⟩, ?_⟩, fun hplain rest => ?_, fun hnests rest => ?_⟩
  · rw [List.getLast?_append_cons]
    exact h'.last
  · rw [hsplit, not_or] at hplain
    obtain ⟨t, ht⟩ := h.whole hplain.1 (c' :: tail' ++ '>' :: rest)
    obtain ⟨ts, hts⟩ := h'.whole hplain.2 rest
    refine ⟨t :: ts, ?_⟩
    rw [List.append_assoc, parseArgs_append h.toFramed, ht, Option.bind_some, hts]
    rfl
  · rw [List.append_assoc, parseArgs_append h.toFramed]
    by_cases hfront : NestsInGeneric (c :: tail)
    · cases hread : parse (c :: tail ++ (c' :: tail' ++ '>' :: rest)) with
      | none => rfl
      | some p => rw [Option.bind_some, parseArgs_dot (h.stops hfront _ p.1 p.2 hread), Option.map_none]
    · obtain ⟨t, ht⟩ := h.whole hfront (c' :: tail' ++ '>' :: rest)
      rw [ht, Option.bind_some, h'.stops ((hsplit.mp hnests).resolve_left hfront), Option.map_none]

theorem ReadsClass.before {name s : List Char} {d : Char} (h : ∀ c ∈ name, endsClassName c = false ∧ c ≠ '>')
    (hd : endsClassName d = false ∧ d ≠ '>') (hs : ReadsClass s) : ReadsClass (name ++ d :: s) := by
  obtain ⟨name', hname', rfl | ⟨args, nested, rfl, hargs⟩⟩ := hs
  · exact ⟨_, name_append h hd hname', .inl rfl⟩
  · exact ⟨_, name_append h hd hname', .inr ⟨args, nested, by simp, hargs⟩⟩

theorem ReadsClass.suffix {s t : List Char} (hs : ReadsClass s) (ht : ReadsClass t) :
    ReadsClass (s ++ '.' :: t) := by
  obtain ⟨name, hname, rfl | ⟨args, nested, rfl, hargs, hnested⟩⟩ := hs
  · exact ht.before hname (by decide)
  · refine ⟨name, hname, .inr ⟨args, nested ++ '.' :: t, by simp, hargs, .inr ?_⟩⟩
    rcases hnested with rfl | hdot
    · rfl
    · cases nested with
      | nil => rfl
      | cons c nested => exact hdot

/-- What is read of the texts of a nonterminal. -/
def Reads : Nonterminal → List Char → Prop
  | .javaType | .referenceType | .typeArgument => ReadsType
  | .classType | .packagedClass | .simpleClass => ReadsClass
  | .typeArguments => ReadsArgs

theorem Derives.reads {n : Nonterminal} {s : List Char} (h : Derives n s) : Reads n s := by
  induction h with
  | base h => exact readsType_base h
  | reference _ ih => exact ih
  | object _ ih => exact readsType_class ih
  | typeVariable h => exact readsType_variable h
  | array _ ih => exact ReadsType.marked (by decide) parse_array ih
  | outermost _ ih => exact ih
  | suffix _ _ ih ih' => exact ReadsClass.suffix ih ih'
  | simple _ ih => exact ih
  | package h _ ih => exact ReadsClass.before (identifier_name h) (by decide) ih
  | plain h => exact ⟨_, identifier_name h, .inl rfl⟩
  | generic h _ ih => exact ⟨_, identifier_name h, .inr ⟨_, [], rfl, ih, .inl rfl⟩⟩
  | last _ ih => exact readsArgs_last ih
  | more _ _ ih ih' => exact readsArgs_more ih ih'
  | any => exact readsType_any
  | invariant _ ih => exact ih
  | bounded hc _ ih =>
    refine ReadsType.marked ?_ (fun rest => parse_bound rest hc) ih
    rcases hc with rfl | rfl <;> decide

/-- A text of the grammar is read as a whole when nothing is nested in a class with type arguments. -/
theorem Derives.whole_iff {s : List Char} (h : Derives .javaType s) :
    (∃ t, parse s = some (t, [])) ↔ ¬ NestsInGeneric s := by
  have hreads : ReadsType s := h.reads
  constructor
  · rintro ⟨t, ht⟩ hnests
    have hdot := hreads.stops hnests [] t [] (by rwa [List.append_nil])
    cases hdot
  · intro hplain
    obtain ⟨t, ht⟩ := hreads.whole hplain []
    rw [List.append_nil] at ht
    exact ⟨t, ht⟩

/-! ## What the reader takes for a type -/

/-- The texts of the looser grammar: `V` and wildcards are types, every type is an argument, a list of
arguments may be empty, the semicolon behind it may be missing, and a name is any text without the
characters that end it. -/
inductive Loose : List Char → Prop where
  | char {c : Char} (h : c = '*' ∨ c ∈ primitiveChars) : Loose [c]
  | typeVariable {name : List Char} (h : ';' ∉ name) : Loose ('T' :: (name ++ [';']))
  | marked {c : Char} {s : List Char} (hc : c = '[' ∨ c = '+' ∨ c = '-') (h : Loose s) : Loose (c :: s)
  | plain {name : List Char} (h : ∀ c ∈ name, endsClassName c = false) : Loose ('L' :: (name ++ [';']))
  | generic {name closing : List Char} {args : List (List Char)} (h : ∀ c ∈ name, endsClassName c = false)
      (hargs : ∀ arg ∈ args, Loose arg) (hclosing : closing = ['>'] ∨ closing = ['>', ';']) :
      Loose ('L' :: (name ++ '<' :: (args.flatten ++ closing)))

/-- A class name that goes on to the end of the text. -/
inductive Unclosed : List Char → Prop where
  | name {name : List Char} (h : ∀ c ∈ name, endsClassName c = false) : Unclosed ('L' :: name)
  | marked {c : Char} {s : List Char} (hc : c = '[' ∨ c = '+' ∨ c = '-') (h : Unclosed s) : Unclosed (c :: s)

def StartsLoosely (s : List Char) : Prop :=
  (∃ front, front <+: s ∧ Loose front) ∨ Unclosed s

theorem parse_marked {c : Char} (hc : c = '[' ∨ c = '+' ∨ c = '-') :
    ∃ mark : JvmType → JvmType, ∀ s, parse (c :: s) = (parse s).map fun p => (mark p.1, p.2) := by
  rcases hc with rfl | hc
  · exact ⟨.array, parse_array⟩
  · exact ⟨.wildcardBound c, fun s => parse_bound s hc⟩

theorem Loose.head {s : List Char} (h : Loose s) : ∃ c rest, s = c :: rest ∧ c ≠ '>' ∧ c ≠ ';' := by
  cases h with
  | @char c h =>
    refine ⟨c, [], rfl, ?_⟩
    constructor <;> rintro rfl <;> exact absurd h (by decide)
  | typeVariable h => exact ⟨_, _, rfl, by decide⟩
  | marked hc h =>
    refine ⟨_, _, rfl, ?_⟩
    rcases hc with rfl | rfl | rfl <;> decide
  | plain h => exact ⟨_, _, rfl, by decide⟩
  | generic h hargs hclosing => exact ⟨_, _, rfl, by decide⟩

/-- The reader takes a text of the looser grammar, and a semicolon behind it at most. -/
def Takes (s : List Char) : Prop :=
  ∀ rest, ∃ t left, parse (s ++ rest) = some (t, left) ∧ (rest.head? ≠ some ';' → left = rest)

theorem parseArgs_takes {args : List (List Char)} (hargs : ∀ arg ∈ args, Loose arg ∧ Takes arg)
    (rest : List Char) : ∃ ts, parseArgs (args.flatten ++ '>' :: rest) = some (ts, rest) := by
  induction args with
  | nil => exact ⟨[], parseArgs_close rest⟩
  | cons arg args ih =>
    obtain ⟨hloose, htakes⟩ := hargs arg List.mem_cons_self
    obtain ⟨ts, hts⟩ := ih fun arg harg => hargs arg (List.mem_cons_of_mem _ harg)
    obtain ⟨t, left, ht, hleft⟩ := htakes (args.flatten ++ '>' :: rest)
    have hnext : (args.flatten ++ '>' :: rest).head? ≠ some ';' := by
      cases args with
      | nil => exact fun h => absurd (Option.some.inj h) (by decide)
      | cons next args =>
        obtain ⟨c, tail, hnext, -, hc⟩ := (hargs next (by simp)).1.head
        rw [List.flatten_cons, hnext]
        exact fun h => hc (Option.some.inj h)
    rw [hleft hnext] at ht
    obtain ⟨c, tail, hc, hne, -⟩ := hloose.head
    refine ⟨t :: ts, ?_⟩
    rw [List.flatten_cons, List.append_assoc, hc, List.cons_append, parseArgs_step _ hne, ← List.cons_append,
      ← hc, ht, Option.bind_some, hts]
    rfl

theorem Loose.takes {s : List Char} (h : Loose s) : Takes s := by
  induction h with
  | char h =>
    intro rest
    rcases h with rfl | h
    · exact ⟨_, rest, parse_any rest, fun _ => rfl⟩
    · exact ⟨_, rest, parse_primitive rest h, fun _ => rfl⟩
  | typeVariable h =>
    intro rest
    rw [List.cons_append, List.append_assoc]
    exact ⟨_, rest, parse_variable rest h, fun _ => rfl⟩
  | marked hc _ ih =>
    intro rest
    obtain ⟨mark, hmark⟩ := parse_marked hc
    obtain ⟨t, left, ht, hleft⟩ := ih rest
    exact ⟨mark t, left, by rw [List.cons_append, hmark, ht]; rfl, hleft⟩
  | plain h =>
    intro rest
    rw [List.cons_append, List.append_assoc]
    exact ⟨_, rest, parse_className h rest, fun _ => rfl⟩
  | @generic name closing args h hargs hclosing ih =>
    intro rest
    have hall : ∀ arg ∈ args, Loose arg ∧ Takes arg := fun arg harg => ⟨hargs arg harg, ih arg harg⟩
    rcases hclosing with rfl | rfl
    · obtain ⟨ts, hts⟩ := parseArgs_takes hall rest
      refine ⟨.object (String.ofList name) ts, skipChar ';' rest, ?_, fun hrest => ?_⟩
      · rw [List.cons_append, List.append_assoc, List.cons_append, List.append_assoc, List.singleton_append,
          parse_classArgs h, hts]
        rfl
      · cases rest with
        | nil => rfl
        | cons d rest =>
          rw [skipChar, if_neg fun hd => hrest (congrArg some hd)]
    · obtain ⟨ts, hts⟩ := parseArgs_takes hall (';' :: rest)
      refine ⟨.object (String.ofList name) ts, rest, ?_, fun _ => rfl⟩
      rw [List.cons_append, List.append_assoc, List.cons_append, List.append_assoc, List.cons_append,
        List.singleton_append, parse_classArgs h, hts]
      rfl

theorem Unclosed.parse {s : List Char} (h : Unclosed s) : ∃ t, parse s = some (t, []) := by
  induction h with
  | name h => exact ⟨_, parse_unclosedName h⟩
  | marked hc _ ih =>
    obtain ⟨mark, hmark⟩ := parse_marked hc
    obtain ⟨t, ht⟩ := ih
    exact ⟨mark t, by rw [hmark, ht]; rfl⟩

/-- What was read is a text of the looser grammar, or a class name without an end. -/
def Took (s left : List Char) : Prop :=
  (∃ front, s = front ++ left ∧ Loose front) ∨ Unclosed s ∧ left = []

theorem Took.marked {c : Char} {s left : List Char} (hc : c = '[' ∨ c = '+' ∨ c = '-') (h : Took s left) :
    Took (c :: s) left := by
  rcases h with ⟨front, rfl, hloose⟩ | ⟨hunclosed, rfl⟩
  · exact .inl ⟨c :: front, rfl, .marked hc hloose⟩
  · exact .inr ⟨.marked hc hunclosed, rfl⟩

theorem class_text (s : List Char) :
    (∃ name : List Char, (∀ c ∈ name, endsClassName c = false) ∧ s = name) ∨
      (∃ name rest : List Char, (∀ c ∈ name, endsClassName c = false) ∧ s = name ++ ';' :: rest) ∨
      ∃ name rest : List Char, (∀ c ∈ name, endsClassName c = false) ∧ s = name ++ '<' :: rest := by
  have hname := breakAt_fst_free endsClassName s
  have hsplit : s = (breakAt endsClassName s).1 ++ (breakAt endsClassName s).2 :=
    List.takeWhile_append_dropWhile.symm
  cases hrest : (breakAt endsClassName s).2 with
  | nil => exact .inl ⟨_, hname, by rw [hrest, List.append_nil] at hsplit; exact hsplit⟩
  | cons d rest =>
    have hd : endsClassName d = true := by
      have hhead := List.head?_dropWhile_not (fun c => !endsClassName c) s
      rw [show s.dropWhile (fun c => !endsClassName c) = d :: rest from hrest] at hhead
      simpa using hhead
    rw [hrest] at hsplit
    rw [endsClassName, Bool.or_eq_true, decide_eq_true_eq, decide_eq_true_eq] at hd
    rcases hd with rfl | rfl
    · exact .inr (.inr ⟨_, rest, hname, hsplit⟩)
    · exact .inr (.inl ⟨_, rest, hname, hsplit⟩)

theorem generic_took {name : List Char} {args : List (List Char)} (hname : ∀ c ∈ name, endsClassName c = false)
    (hargs : ∀ arg ∈ args, Loose arg) (rest : List Char) : ∃ front,
    'L' :: (name ++ '<' :: (args.flatten ++ '>' :: rest)) = front ++ skipChar ';' rest ∧ Loose front := by
  by_cases hsemicolon : rest.head? = some ';'
  · cases rest with
    | nil => cases hsemicolon
    | cons d rest =>
      obtain rfl := Option.some.inj hsemicolon
      exact ⟨_, by rw [skipChar_self]; simp, .generic hname hargs (.inr rfl)⟩
  · refine ⟨_, ?_, .generic hname hargs (.inl rfl)⟩
    have hskip : skipChar ';' rest = rest := by
      cases rest with
      | nil => rfl
      | cons d rest => rw [skipChar, if_neg fun hd => hsemicolon (congrArg some hd)]
    rw [hskip]
    simp

mutual

theorem parseFuel_took : ∀ {fuel : ℕ} {s : List Char} {p : JvmType × List Char},
    parseFuel fuel s = some p → Took s p.2
  | 0, _, _, h => by simp [parseFuel] at h
  | _ + 1, [], _, h => by simp [parseFuel] at h
  | fuel + 1, c :: s, p, h => by
      simp only [parseFuel] at h
      split_ifs at h with hL hT hA hany hbound hprimitive
      · subst hL
        rcases class_text s with ⟨name, hname, rfl⟩ | ⟨name, rest, hname, rfl⟩ | ⟨name, rest, hname, rfl⟩
        · rw [breakAt_free hname] at h
          cases h
          exact .inr ⟨.name hname, rfl⟩
        · rw [breakAt_append hname rfl] at h
          have hread : some (JvmType.object (String.ofList name) [], skipChar ';' (';' :: rest)) = some p := h
          rw [skipChar_self] at hread
          cases hread
          exact .inl ⟨_, by simp, .plain hname⟩
        · rw [breakAt_append hname rfl] at h
          obtain ⟨q, hq, rfl⟩ := Option.map_eq_some_iff.mp h
          obtain ⟨args, rfl, hall⟩ := parseArgsFuel_took hq
          exact .inl (generic_took hname hall q.2)
      · obtain ⟨q, hq, rfl⟩ := Option.map_eq_some_iff.mp h
        obtain ⟨rfl, hfree⟩ := splitOnce_eq hq
        subst hT
        exact .inl ⟨_, by simp, .typeVariable hfree⟩
      · obtain ⟨q, hq, rfl⟩ := Option.map_eq_some_iff.mp h
        exact (parseFuel_took hq).marked (.inl hA)
      · cases h
        exact .inl ⟨[c], rfl, .char (.inl hany)⟩
      · obtain ⟨q, hq, rfl⟩ := Option.map_eq_some_iff.mp h
        exact (parseFuel_took hq).marked (.inr hbound)
      · cases h
        exact .inl ⟨[c], rfl, .char (.inr hprimitive)⟩

theorem parseArgsFuel_took : ∀ {fuel : ℕ} {s : List Char} {p : List JvmType × List Char},
    parseArgsFuel fuel s = some p →
      ∃ args : List (List Char), s = args.flatten ++ '>' :: p.2 ∧ ∀ arg ∈ args, Loose arg
  | 0, _, _, h => by simp [parseArgsFuel] at h
  | _ + 1, [], _, h => by simp [parseArgsFuel] at h
  | fuel + 1, c :: s, p, h => by
      simp only [parseArgsFuel] at h
      split_ifs at h with hclose
      · cases h
        exact ⟨[], by rw [hclose]; rfl, fun _ harg => absurd harg List.not_mem_nil⟩
      · obtain ⟨q, hq, h⟩ := Option.bind_eq_some_iff.mp h
        obtain ⟨r, hr, rfl⟩ := Option.map_eq_some_iff.mp h
        obtain ⟨args, hargs, hall⟩ := parseArgsFuel_took hr
        rcases parseFuel_took hq with ⟨front, hfront, hloose⟩ | ⟨-, hnil⟩
        · refine ⟨front :: args, ?_, List.forall_mem_cons.mpr ⟨hloose, hall⟩⟩
          rw [hfront, hargs, List.flatten_cons, List.append_assoc]
        · rw [hnil] at hargs
          exact absurd hargs.symm (by simp)

end

/-- The reader answers on the texts that start with a text of the looser grammar, and on no others. -/
theorem parse_eq_none_iff (s : List Char) : parse s = none ↔ ¬ StartsLoosely s := by
  constructor
  · rintro hnone (⟨front, ⟨rest, rfl⟩, hloose⟩ | hunclosed)
    · obtain ⟨t, left, ht, -⟩ := hloose.takes rest
      rw [hnone] at ht
      cases ht
    · obtain ⟨t, ht⟩ := hunclosed.parse
      rw [hnone] at ht
      cases ht
  · intro hstarts
    by_contra hsome
    obtain ⟨p, hp⟩ := Option.ne_none_iff_exists'.mp hsome
    rcases parseFuel_took hp with ⟨front, hfront, hloose⟩ | ⟨hunclosed, -⟩
    · exact hstarts (.inl ⟨front, ⟨p.2, hfront.symm⟩, hloose⟩)
    · exact hstarts (.inr hunclosed)

/-! ## Accepting exactly the grammar -/

/-- A text of the grammar is consumed, and a text that starts with none is rejected. -/
def AcceptsAsGrammar (s : List Char) : Prop :=
  (Derives .javaType s → ∃ t, parse s = some (t, [])) ∧
    ((∀ front, front <+: s → ¬ Derives .javaType front) → parse s = none)

/-- The reader accepts as the grammar says on the texts of the grammar in which nothing is nested in a class
with type arguments, and on the other texts unless they start with a text of the looser grammar only. -/
theorem accepts_grammar_iff (s : List Char) :
    AcceptsAsGrammar s ↔ (Derives .javaType s → ¬ NestsInGeneric s) ∧
      ((∀ front, front <+: s → ¬ Derives .javaType front) → ¬ StartsLoosely s) :=
  and_congr (forall_congr' Derives.whole_iff) (imp_congr_right fun _ => parse_eq_none_iff s)

/-- `Lp/Outer<TT;>.Inner<TU;>;` is a text of the grammar, and its inner class is left. -/
theorem inner_class_left : ¬ ∀ s : List Char, AcceptsAsGrammar s := by
  intro hall
  have hvariable : ∀ name, isIdentifier name = true → Derives .typeArguments ('T' :: (name ++ [';'])) :=
    fun name h => .last (.invariant (.typeVariable h))
  have houter : Derives .classType "p/Outer<TT;>".toList :=
    .outermost (@Derives.package ['p'] _ (by decide)
      (.simple (@Derives.generic "Outer".toList _ (by decide) (hvariable ['T'] (by decide)))))
  have hderives : Derives .javaType "Lp/Outer<TT;>.Inner<TU;>;".toList :=
    .reference (.object (.suffix houter
      (@Derives.generic "Inner".toList _ (by decide) (hvariable ['U'] (by decide)))))
  obtain ⟨t, ht⟩ := (hall _).1 hderives
  exact hderives.whole_iff.mp ⟨t, ht⟩ (by decide)

end JvmType

end JavaAnalyzer.Semantic
