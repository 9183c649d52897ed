import JavaAnalyzer.Language.AngleBrackets
import JavaAnalyzer.Language.TypeTranslations
import JavaAnalyzer.Library.TextPlaces

/-! # Texts of generic class types

A class type is written as names between dots, each of which may have type arguments, with blanks between
all of these. `split_java_generic_base` looks for the bracket that closes the first one of the text, and
takes the byte offset of that one for a number of characters. -/

namespace JavaAnalyzer.Language
set_option autoImplicit false
open Text TextLines TextPlaces

/-! ## Class types -/

/-- White space of the language. -/
def isJavaBlank (c : Char) : Bool :=
  [' ', '\t', '\n', '\r', '\x0c'].contains c

/-- A name of a class type with its type arguments and the blanks around them. -/
structure TypeSegment where
  lead : List Char
  name : List Char
  gap : List Char
  args : Option (List (List Char))
  trail : List Char

namespace TypeSegment

def argsText (s : TypeSegment) : List Char :=
  match s.args with
  | none => []
  | some args => '<' :: ([','].intercalate args ++ ['>'])

def text (s : TypeSegment) : List Char :=
  s.lead ++ s.name ++ s.gap ++ s.argsText ++ s.trail

/-- The name is an identifier, and between the brackets there is something. -/
structure WellFormed (s : TypeSegment) : Prop where
  lead : ∀ c ∈ s.lead, isJavaBlank c
  gap : ∀ c ∈ s.gap, isJavaBlank c
  trail : ∀ c ∈ s.trail, isJavaBlank c
  name : s.name ≠ [] ∧ ∀ c ∈ s.name, isIdentifierChar c
  args : s.args ≠ some []

end TypeSegment

/-- The segments of a class type, the last one on its own. -/
def classTypeText (front : List TypeSegment) (last : TypeSegment) : List Char :=
  front.flatMap (fun s => s.text ++ ['.']) ++ last.text

def dottedName (front : List TypeSegment) (last : TypeSegment) : List Char :=
  front.flatMap (fun s => s.name ++ ['.']) ++ last.name

inductive TypeTextKind where
  | reference
  | argument

/-- The texts of reference types and of type arguments, with blanks around them. -/
inductive IsTypeText : TypeTextKind → List Char → Prop where
  | cls (front : List TypeSegment) (last : TypeSegment) (hsegments : ∀ s ∈ front ++ [last], s.WellFormed)
      (hargs : ∀ s ∈ front ++ [last], ∀ args ∈ s.args, ∀ arg ∈ args, IsTypeText .argument arg) :
      IsTypeText .reference (classTypeText front last)
  | primitiveArray (lead name gap inner trail : List Char)
      (hblank : ∀ c ∈ lead ++ gap ++ inner ++ trail, isJavaBlank c)
      (hname : String.ofList name ∈
        ["boolean", "byte", "char", "short", "int", "long", "float", "double"]) :
      IsTypeText .reference (lead ++ name ++ gap ++ '[' :: inner ++ ']' :: trail)
  | array (element inner trail : List Char) (hblank : ∀ c ∈ inner ++ trail, isJavaBlank c)
      (h : IsTypeText .reference element) :
      IsTypeText .reference (element ++ '[' :: inner ++ ']' :: trail)
  | wildcard (lead trail : List Char) (hblank : ∀ c ∈ lead ++ trail, isJavaBlank c) :
      IsTypeText .argument (lead ++ '?' :: trail)
  | bounded (lead gap word space bound : List Char) (hblank : ∀ c ∈ lead ++ gap ++ space, isJavaBlank c)
      (hword : String.ofList word ∈ ["extends", "super"]) (hspace : space ≠ [])
      (h : IsTypeText .reference bound) :
      IsTypeText .argument (lead ++ '?' :: gap ++ word ++ space ++ bound)
  | reference (t : List Char) (h : IsTypeText .reference t) : IsTypeText .argument t

/-- The text of a class type. -/
structure ClassTypeText where
  front : List TypeSegment
  last : TypeSegment
  segments : ∀ s ∈ front ++ [last], s.WellFormed
  arguments : ∀ s ∈ front ++ [last], ∀ args ∈ s.args, ∀ arg ∈ args, IsTypeText .argument arg

namespace ClassTypeText

variable (ty : ClassTypeText)

def text : List Char :=
  classTypeText ty.front ty.last

def qualifiedName : List Char :=
  dottedName ty.front ty.last

/-- The text is split into the qualified name and the arguments of the type itself. -/
def SplitFaithfully : Prop :=
  match ty.last.args with
  | none => splitJavaGenericBase ty.text = some (ty.qualifiedName, none)
  | some args => ∃ argsText, splitJavaGenericBase ty.text = some (ty.qualifiedName, some argsText) ∧
      splitJavaGenericArgs argsText = args.map trim

/-- Only the last name has type arguments, no blank stands inside of the name, and in front of type
arguments each character of the name is a byte. -/
structure PlainlyNamed : Prop where
  outers : ∀ s ∈ ty.front, s.args = none
  behind : ∀ s ∈ ty.front, s.gap = [] ∧ s.trail = []
  before : ∀ s ∈ (ty.front ++ [ty.last]).tail, s.lead = []
  bytes : ty.last.args ≠ none → ∀ s ∈ ty.front ++ [ty.last], ∀ c ∈ s.name, c.utf8Size = 1

end ClassTypeText

/-! ## What the texts are made of -/

theorem isJavaBlank_cases {c : Char} (h : isJavaBlank c = true) :
    isWhitespace c = true ∧ c.utf8Size = 1 ∧ c ≠ '.' := by
  simp only [isJavaBlank, List.contains_eq_mem, List.mem_cons, List.not_mem_nil, or_false,
    decide_eq_true_eq] at h
  rcases h with rfl | rfl | rfl | rfl | rfl <;> decide

theorem isAlphanum_range {c : Char} (h : c.isAlphanum = true) : 48 ≤ c.toNat ∧ c.toNat ≤ 122 := by
  have hA : 'A'.val.toNat = 65 := rfl
  have hZ : 'Z'.val.toNat = 90 := rfl
  have ha : 'a'.val.toNat = 97 := rfl
  have hz : 'z'.val.toNat = 122 := rfl
  have h0 : '0'.val.toNat = 48 := rfl
  have h9 : '9'.val.toNat = 57 := rfl
  simp only [Char.isAlphanum, Char.isAlpha, Char.isUpper, Char.isLower, Char.isDigit, Bool.or_eq_true,
    Bool.and_eq_true, decide_eq_true_eq, ge_iff_le, UInt32.le_iff_toNat_le, hA, hZ, ha, hz, h0, h9] at h
  rw [Char.toNat]
  omega

theorem isWhitespace_of_isAlphanum {c : Char} (h : c.isAlphanum = true) : isWhitespace c = false := by
  have hrange := isAlphanum_range h
  rw [← Bool.not_eq_true]
  intro hblank
  simp only [isWhitespace, Bool.or_eq_true, Bool.and_eq_true, decide_eq_true_eq,
    List.contains_eq_mem, List.mem_cons, List.not_mem_nil, or_false] at hblank
  omega

theorem isIdentifierChar_cases {c : Char} (h : isIdentifierChar c = true) :
    isWhitespace c = false ∧ c ≠ '<' ∧ c ≠ '>' ∧ c ≠ ',' ∧ c ≠ '.' := by
  have hblank : isWhitespace c = false := by
    simp only [isIdentifierChar, Bool.or_eq_true, Bool.and_eq_true, decide_eq_true_eq,
      Bool.not_eq_true'] at h
    rcases h with ((h | rfl) | rfl) | h
    · exact isWhitespace_of_isAlphanum h
    · decide
    · decide
    · exact h.2
  exact ⟨hblank, ne_of_test h (by decide), ne_of_test h (by decide), ne_of_test h (by decide),
    ne_of_test h (by decide)⟩

namespace TypeSegment

variable {s : TypeSegment}

theorem WellFormed.plain_name (h : s.WellFormed) : Plain s.name := fun c hc => by
  obtain ⟨-, hopen, hclose, hcomma, -⟩ := isIdentifierChar_cases (h.name.2 c hc)
  exact ⟨hopen, hclose, hcomma⟩

theorem blank_of_java {b : List Char} (h : ∀ c ∈ b, isJavaBlank c) : Blank b :=
  fun c hc => (isJavaBlank_cases (h c hc)).1

theorem plain_of_blank {b : List Char} (h : ∀ c ∈ b, isJavaBlank c) : Plain b :=
  fun c hc => isWhitespace_plain (isJavaBlank_cases (h c hc)).1

theorem WellFormed.text_ne_nil (h : s.WellFormed) : s.text ≠ [] := by
  intro hnil
  simp only [text, List.append_eq_nil_iff] at hnil
  exact h.name.1 hnil.1.1.1.2

/-- A segment is sealed if its arguments are. -/
theorem WellFormed.sealed (h : s.WellFormed)
    (hargs : ∀ args ∈ s.args, ∀ arg ∈ args, Sealed 0 arg) : Sealed 0 s.text := by
  have hargsText : Sealed 0 s.argsText := by
    rw [argsText]
    split
    · exact sealed_nil 0
    · rename_i args hsome
      exact (Sealed.intercalate Int.one_pos fun arg harg =>
        (hargs args hsome arg harg).mono (by decide)).brackets
  exact (((((plain_of_blank h.lead).sealed 0).append (h.plain_name.sealed 0)).append
    ((plain_of_blank h.gap).sealed 0)).append hargsText).append ((plain_of_blank h.trail).sealed 0)

end TypeSegment

/-- One of some words that have no brackets and commas. -/
theorem sealed_word {words : List String} {word : List Char} (hword : String.ofList word ∈ words)
    (hplain : words.all (fun word => word.toList.all fun c =>
      decide (c ≠ '<' ∧ c ≠ '>' ∧ c ≠ ',')) = true) : Sealed 0 word := by
  have hall := List.all_eq_true.mp (List.all_eq_true.mp hplain _ hword)
  rw [String.toList_ofList] at hall
  exact Plain.sealed (fun c hc => of_decide_eq_true (hall c hc)) 0

theorem sealed_classTypeText {front : List TypeSegment} {last : TypeSegment}
    (h : ∀ s ∈ front ++ [last], Sealed 0 s.text) : Sealed 0 (classTypeText front last) := by
  refine Sealed.append ?_ (h last (List.mem_append_right _ (List.mem_singleton_self last)))
  have hfront : ∀ s ∈ front, Sealed 0 s.text := fun s hs => h s (List.mem_append_left _ hs)
  clear h
  induction front with
  | nil => exact sealed_nil 0
  | cons s front ih =>
    rw [List.flatMap_cons]
    have hdot : Sealed 0 ['.'] := sealed_singleton (by decide) (by decide) (by decide)
    exact ((hfront s List.mem_cons_self).append hdot).append
      (ih fun t ht => hfront t (List.mem_cons_of_mem s ht))

/-- The text of a type is sealed, and not all of it is blank. -/
theorem IsTypeText.sealed {kind : TypeTextKind} {t : List Char} (h : IsTypeText kind t) :
    Sealed 0 t ∧ ∃ c ∈ t, isWhitespace c = false := by
  have hchar : ∀ c : Char, c ≠ '<' → c ≠ '>' → c ≠ ',' → Sealed 0 [c] := fun c hopen hclose hcomma =>
    sealed_singleton hopen hclose fun h => absurd h hcomma
  have hblank : ∀ {b : List Char}, (∀ c ∈ b, isJavaBlank c) → Sealed 0 b := fun h =>
    (TypeSegment.plain_of_blank h).sealed 0
  induction h with
  | cls front last hsegments hargs ih =>
    constructor
    · refine sealed_classTypeText fun s hs => (hsegments s hs).sealed fun args hsome arg harg => ?_
      exact (ih s hs args hsome arg harg).1
    · have hlast := hsegments last (List.mem_append_right _ (List.mem_singleton_self last))
      obtain ⟨c, rest, hname⟩ := List.exists_cons_of_ne_nil hlast.name.1
      have hc : c ∈ last.name := hname ▸ List.mem_cons_self
      refine ⟨c, ?_, (isIdentifierChar_cases (hlast.name.2 c hc)).1⟩
      simp [classTypeText, TypeSegment.text, hc]
  | primitiveArray lead name gap inner trail hb hname =>
    have hsplit : ∀ b ∈ [lead, gap, inner, trail], ∀ c ∈ b, isJavaBlank c := by
      simp only [List.mem_append, or_imp, forall_and] at hb
      simpa [and_assoc] using hb
    have hname := sealed_word hname (by decide)
    refine ⟨?_, '[', by simp, by decide⟩
    have hfront := (((hblank (hsplit lead (by simp))).append hname).append (hblank (hsplit gap (by simp))))
    have hback := (hchar '[' (by decide) (by decide) (by decide)).append
      (((hblank (hsplit inner (by simp))).append (hchar ']' (by decide) (by decide) (by decide))).append
        (hblank (hsplit trail (by simp))))
    simpa using hfront.append hback
  | array element inner trail hb _ ih =>
    have hinner : ∀ c ∈ inner, isJavaBlank c := fun c hc => hb c (List.mem_append_left _ hc)
    have htrail : ∀ c ∈ trail, isJavaBlank c := fun c hc => hb c (List.mem_append_right _ hc)
    refine ⟨?_, '[', by simp, by decide⟩
    have hback := (hchar '[' (by decide) (by decide) (by decide)).append
      (((hblank hinner).append (hchar ']' (by decide) (by decide) (by decide))).append (hblank htrail))
    simpa using ih.1.append hback
  | wildcard lead trail hb =>
    have hlead : ∀ c ∈ lead, isJavaBlank c := fun c hc => hb c (List.mem_append_left _ hc)
    have htrail : ∀ c ∈ trail, isJavaBlank c := fun c hc => hb c (List.mem_append_right _ hc)
    refine ⟨?_, '?', by simp, by decide⟩
    simpa using ((hblank hlead).append (hchar '?' (by decide) (by decide) (by decide))).append
      (hblank htrail)
  | bounded lead gap word space bound hb hword _ _ ih =>
    have hsplit : ∀ b ∈ [lead, gap, space], ∀ c ∈ b, isJavaBlank c := by
      simp only [List.mem_append, or_imp, forall_and] at hb
      simpa [and_assoc] using hb
    have hword := sealed_word hword (by decide)
    refine ⟨?_, '?', by simp, by decide⟩
    have hfront := ((hblank (hsplit lead (by simp))).append
      (hchar '?' (by decide) (by decide) (by decide))).append (hblank (hsplit gap (by simp)))
    simpa using ((hfront.append hword).append (hblank (hsplit space (by simp)))).append ih.1
  | reference t _ ih => exact ih

/-! ## The name in front of type arguments -/

section NameText

/-- Segments without type arguments, each with the dot behind it. -/
def outerText (front : List TypeSegment) : List Char :=
  front.flatMap fun s => s.lead ++ s.name ++ s.gap ++ s.trail ++ ['.']

/-- The text up to the place where the type arguments of the last segment would begin. -/
def nameText (front : List TypeSegment) (last : TypeSegment) : List Char :=
  outerText front ++ last.lead ++ last.name ++ last.gap

variable {front : List TypeSegment} {last : TypeSegment}

theorem mem_outerText {c : Char} : c ∈ outerText front ↔
    ∃ s ∈ front, c ∈ s.lead ∨ c ∈ s.name ∨ c ∈ s.gap ∨ c ∈ s.trail ∨ c = '.' := by
  simp [outerText]

theorem mem_nameText {c : Char} (h : c ∈ nameText front last) :
    c = '.' ∨ ∃ s ∈ front ++ [last], c ∈ s.lead ∨ c ∈ s.name ∨ c ∈ s.gap ∨ c ∈ s.trail := by
  simp only [nameText, List.mem_append, mem_outerText] at h
  rcases h with ((⟨s, hs, h⟩ | h) | h) | h
  · rcases h with h | h | h | h | h
    · exact .inr ⟨s, List.mem_append_left _ hs, .inl h⟩
    · exact .inr ⟨s, List.mem_append_left _ hs, .inr (.inl h)⟩
    · exact .inr ⟨s, List.mem_append_left _ hs, .inr (.inr (.inl h))⟩
    · exact .inr ⟨s, List.mem_append_left _ hs, .inr (.inr (.inr h))⟩
    · exact .inl h
  · exact .inr ⟨last, List.mem_append_right _ (List.mem_singleton_self last), .inl h⟩
  · exact .inr ⟨last, List.mem_append_right _ (List.mem_singleton_self last), .inr (.inl h)⟩
  · exact .inr ⟨last, List.mem_append_right _ (List.mem_singleton_self last), .inr (.inr (.inl h))⟩

theorem plain_nameText (h : ∀ s ∈ front ++ [last], s.WellFormed) : Plain (nameText front last) := by
  intro c hc
  rcases mem_nameText hc with rfl | ⟨s, hs, hc | hc | hc | hc⟩
  · decide
  · exact TypeSegment.plain_of_blank (h s hs).lead c hc
  · exact (h s hs).plain_name c hc
  · exact TypeSegment.plain_of_blank (h s hs).gap c hc
  · exact TypeSegment.plain_of_blank (h s hs).trail c hc

theorem mem_dottedName {c : Char} (h : ∀ s ∈ front ++ [last], s.WellFormed)
    (hc : c ∈ dottedName front last) : isWhitespace c = false := by
  have hname : ∀ s ∈ front ++ [last], ∀ d ∈ s.name, isWhitespace d = false := fun s hs d hd =>
    (isIdentifierChar_cases ((h s hs).name.2 d hd)).1
  rcases List.mem_append.mp hc with hc | hc
  · obtain ⟨s, hs, hc⟩ := List.mem_flatMap.mp hc
    rcases List.mem_append.mp hc with hc | hc
    · exact hname s (List.mem_append_left _ hs) c hc
    · rw [List.mem_singleton.mp hc]
      decide
  · exact hname last (List.mem_append_right _ (List.mem_singleton_self last)) c hc

/-- The dots of a name are as many as the segments in front of the last one. -/
theorem count_dots_nameText (h : ∀ s ∈ front ++ [last], s.WellFormed) :
    (nameText front last).count '.' = front.length := by
  have hblank : ∀ {b : List Char}, (∀ c ∈ b, isJavaBlank c) → b.count '.' = 0 := fun hb =>
    List.count_eq_zero.mpr fun hmem => (isJavaBlank_cases (hb '.' hmem)).2.2 rfl
  have hname : ∀ s ∈ front ++ [last], s.name.count '.' = 0 := fun s hs =>
    List.count_eq_zero.mpr fun hmem =>
      (isIdentifierChar_cases ((h s hs).name.2 '.' hmem)).2.2.2.2 rfl
  have hlast := List.mem_append_right front (List.mem_singleton_self last)
  rw [nameText, List.count_append, List.count_append, List.count_append, hblank (h last hlast).lead,
    hblank (h last hlast).gap, hname last hlast, add_zero, add_zero, add_zero]
  have hfront : ∀ s ∈ front, s.WellFormed ∧ s.name.count '.' = 0 := fun s hs =>
    ⟨h s (List.mem_append_left _ hs), hname s (List.mem_append_left _ hs)⟩
  clear h hname hlast
  induction front with
  | nil => rfl
  | cons s front ih =>
    obtain ⟨hs, hdots⟩ := hfront s List.mem_cons_self
    have hrest := ih fun t ht => hfront t (List.mem_cons_of_mem s ht)
    rw [outerText] at hrest
    rw [outerText, List.flatMap_cons, List.count_append, hrest, List.count_append, List.count_append,
      List.count_append, List.count_append, hblank hs.lead, hblank hs.gap, hblank hs.trail, hdots,
      List.length_cons]
    rw [show List.count '.' ['.'] = 1 from rfl]
    omega

theorem count_dots_dottedName (h : ∀ s ∈ front ++ [last], s.WellFormed) :
    (dottedName front last).count '.' = front.length := by
  have hname : ∀ s ∈ front ++ [last], s.name.count '.' = 0 := fun s hs =>
    List.count_eq_zero.mpr fun hmem =>
      (isIdentifierChar_cases ((h s hs).name.2 '.' hmem)).2.2.2.2 rfl
  rw [dottedName, List.count_append,
    hname last (List.mem_append_right front (List.mem_singleton_self last)), add_zero]
  have hfront : ∀ s ∈ front, s.name.count '.' = 0 := fun s hs => hname s (List.mem_append_left _ hs)
  clear h hname
  induction front with
  | nil => rfl
  | cons s front ih =>
    rw [List.flatMap_cons, List.count_append, ih fun t ht => hfront t (List.mem_cons_of_mem s ht),
      List.count_append, hfront s List.mem_cons_self, List.length_cons]
    rw [show List.count '.' ['.'] = 1 from rfl]
    omega

theorem solid_dottedName (h : ∀ s ∈ front ++ [last], s.WellFormed) : Solid (dottedName front last) := by
  have hlast := (h last (List.mem_append_right front (List.mem_singleton_self last))).name.1
  have hne : dottedName front last ≠ [] := fun hnil => hlast (List.append_eq_nil_iff.mp hnil).2
  exact ⟨hne, fun c hc => mem_dottedName h (List.mem_of_mem_head? hc),
    fun c hc => mem_dottedName h (List.mem_of_mem_getLast? hc)⟩

/-- A blank between two characters of the name stays when the text is trimmed. -/
theorem eq_nil_of_trim_nameText (h : ∀ s ∈ front ++ [last], s.WellFormed)
    (htrim : trim (nameText front last) = dottedName front last) {x b y : List Char} {d e : Char}
    (htext : nameText front last = x ++ (b ++ y)) (hb : ∀ c ∈ b, isJavaBlank c)
    (hx : d ∈ x) (hd : isWhitespace d = false) (hy : e ∈ y) (he : isWhitespace e = false) : b = [] := by
  cases b with
  | nil => rfl
  | cons c b =>
    have hmem : c ∈ trim (nameText front last) := by
      rw [htext, List.cons_append]
      exact mem_trim_of_between hx hd (List.mem_append_right b hy) he
    rw [htrim] at hmem
    have hblank := (isJavaBlank_cases (hb c List.mem_cons_self)).1
    rw [mem_dottedName h hmem] at hblank
    exact absurd hblank Bool.false_ne_true

theorem exists_name_char {s : TypeSegment} (h : s.WellFormed) : ∃ c ∈ s.name, isWhitespace c = false := by
  obtain ⟨c, rest, hname⟩ := List.exists_cons_of_ne_nil h.name.1
  have hc : c ∈ s.name := hname ▸ List.mem_cons_self
  exact ⟨c, hc, (isIdentifierChar_cases (h.name.2 c hc)).1⟩

/-- Blanks and dots are one byte each. -/
theorem nameText_bytes_iff (h : ∀ s ∈ front ++ [last], s.WellFormed) :
    (∀ c ∈ nameText front last, c.utf8Size = 1) ↔
      ∀ s ∈ front ++ [last], ∀ c ∈ s.name, c.utf8Size = 1 := by
  constructor
  · intro hall s hs c hc
    refine hall c ?_
    simp only [nameText, List.mem_append, mem_outerText]
    rcases List.mem_append.mp hs with hs | hs
    · exact .inl (.inl (.inl ⟨s, hs, .inr (.inl hc)⟩))
    · rw [List.mem_singleton.mp hs] at hc
      exact .inl (.inr hc)
  · intro hall c hc
    rcases mem_nameText hc with rfl | ⟨s, hs, hc | hc | hc | hc⟩
    · decide
    · exact (isJavaBlank_cases ((h s hs).lead c hc)).2.1
    · exact hall s hs c hc
    · exact (isJavaBlank_cases ((h s hs).gap c hc)).2.1
    · exact (isJavaBlank_cases ((h s hs).trail c hc)).2.1

/-- Trimmed, the text is the qualified name exactly where no blank stands inside of it. -/
theorem trim_nameText_iff (h : ∀ s ∈ front ++ [last], s.WellFormed) :
    trim (nameText front last) = dottedName front last ↔
      (∀ s ∈ front, s.gap = [] ∧ s.trail = []) ∧ ∀ s ∈ (front ++ [last]).tail, s.lead = [] := by
  have hdot : isWhitespace '.' = false := by decide
  constructor
  · intro htrim
    refine ⟨fun s hs => ?_, fun s hs => ?_⟩
    · obtain ⟨c, hc, hcBlank⟩ := exists_name_char (h s (List.mem_append_left _ hs))
      have hwf := h s (List.mem_append_left _ hs)
      obtain ⟨before, after, rfl⟩ := List.append_of_mem hs
      constructor
      · refine eq_nil_of_trim_nameText h htrim (x := outerText before ++ s.lead ++ s.name)
          (y := s.trail ++ '.' :: outerText after ++ last.lead ++ last.name ++ last.gap)
          (d := c) (e := '.') ?_ hwf.gap (by simp [hc]) hcBlank (by simp) hdot
        simp [nameText, outerText]
      · refine eq_nil_of_trim_nameText h htrim (x := outerText before ++ s.lead ++ s.name ++ s.gap)
          (y := '.' :: outerText after ++ last.lead ++ last.name ++ last.gap)
          (d := c) (e := '.') ?_ hwf.trail (by simp [hc]) hcBlank (by simp) hdot
        simp [nameText, outerText]
    · have hmem := List.mem_of_mem_tail hs
      obtain ⟨c, hc, hcBlank⟩ := exists_name_char (h s hmem)
      have hwf := h s hmem
      cases front with
      | nil => cases hs
      | cons first front =>
        rcases List.mem_append.mp hs with hs | hs
        · obtain ⟨before, after, rfl⟩ := List.append_of_mem hs
          refine eq_nil_of_trim_nameText h htrim (x := outerText (first :: before))
            (y := s.name ++ s.gap ++ s.trail ++ '.' :: outerText after ++ last.lead ++ last.name ++ last.gap)
            (d := '.') (e := c) ?_ hwf.lead (by simp [outerText]) hdot (by simp [hc]) hcBlank
          simp [nameText, outerText]
        · obtain rfl := List.mem_singleton.mp hs
          refine eq_nil_of_trim_nameText h htrim (x := outerText (first :: front)) (y := s.name ++ s.gap)
            (d := '.') (e := c) ?_ hwf.lead (by simp [outerText]) hdot (by simp [hc]) hcBlank
          simp [nameText]
  · rintro ⟨hbehind, hbefore⟩
    have hblank : ∀ s ∈ front ++ [last], Blank s.lead ∧ Blank s.gap := fun s hs =>
      ⟨TypeSegment.blank_of_java (h s hs).lead, TypeSegment.blank_of_java (h s hs).gap⟩
    have hgap := (hblank last (List.mem_append_right front (List.mem_singleton_self last))).2
    have hsolid := (solid_dottedName h).trim_eq
    cases front with
    | nil =>
      have htext : nameText [] last = last.lead ++ dottedName [] last ++ last.gap := by
        simp [nameText, outerText, dottedName]
      rw [htext, trim_append_blank _ hgap, trim_blank_append (hblank last (by simp)).1, hsolid]
    | cons first front =>
      have houter : outerText front = front.flatMap fun s => s.name ++ ['.'] := by
        refine List.flatMap_congr fun s hs => ?_
        obtain ⟨hgap, htrail⟩ := hbehind s (List.mem_cons_of_mem first hs)
        rw [hgap, htrail, hbefore s (List.mem_append_left _ hs)]
        simp
      obtain ⟨hfirstGap, hfirstTrail⟩ := hbehind first List.mem_cons_self
      have htext : nameText (first :: front) last =
          first.lead ++ dottedName (first :: front) last ++ last.gap := by
        have houterCons : outerText (first :: front) =
            first.lead ++ first.name ++ first.gap ++ first.trail ++ ['.'] ++ outerText front :=
          List.flatMap_cons
        rw [nameText, houterCons, houter, hfirstGap, hfirstTrail,
          hbefore last (List.mem_append_right front (List.mem_singleton_self last))]
        simp [dottedName]
      rw [htext, trim_append_blank _ hgap, trim_blank_append (hblank first (by simp)).1, hsolid]

end NameText

/-! ## The first bracket -/

theorem splitJavaGenericBase_plain {s : List Char} (h : '<' ∉ s) :
    splitJavaGenericBase s = some (trim s, none) := by
  rw [splitJavaGenericBase, List.idxOf?_eq_none_iff.mpr h]

theorem idxOf?_append_cons {c : Char} {front : List Char} (h : c ∉ front) (rest : List Char) :
    (front ++ c :: rest).idxOf? c = some front.length := by
  induction front with
  | nil => rw [List.nil_append, List.idxOf?_cons, if_pos (beq_self_eq_true c), List.length_nil]
  | cons d front ih =>
    have hne : c ≠ d := fun heq => h (heq ▸ List.mem_cons_self)
    have hfront : c ∉ front := fun hmem => h (List.mem_cons_of_mem d hmem)
    rw [List.cons_append, List.idxOf?_cons, if_neg (by simpa using hne.symm), ih hfront, Option.map_some,
      List.length_cons]

theorem splitJavaGenericBase_bracket {front : List Char} (h : '<' ∉ front) (rest : List Char) :
    splitJavaGenericBase (front ++ '<' :: rest) =
      (closingAngle 0 (byteLength front) ((front ++ '<' :: rest).drop (byteLength front))).map fun i =>
        (trim front, some (trim (((front ++ '<' :: rest).take i).drop (front.length + 1)))) := by
  rw [splitJavaGenericBase, idxOf?_append_cons h]
  simp only [List.take_left]

/-- Where the text in front of the bracket has a byte for each character, the brackets of a sealed text
are found. -/
theorem splitJavaGenericBase_bytes {front inside : List Char} (h : '<' ∉ front) (hinside : Sealed 1 inside)
    (hbytes : byteLength front = front.length) (rest : List Char) :
    splitJavaGenericBase (front ++ '<' :: (inside ++ '>' :: rest)) =
      some (trim front, some (trim inside)) := by
  rw [splitJavaGenericBase_bracket h, hbytes, List.drop_left, closingAngle_sealed hinside, Option.map_some]
  have htake : (front ++ '<' :: (inside ++ '>' :: rest)).take (front.length + 1 + inside.length) =
      front ++ '<' :: inside := by
    rw [Nat.add_assoc, List.take_length_add_append, Nat.add_comm 1, List.take_succ_cons, List.take_left]
  have hdrop : (front ++ '<' :: inside).drop (front.length + 1) = inside := by
    rw [List.drop_length_add_append, List.drop_succ_cons, List.drop_zero]
  rw [htake, hdrop]

/-- Where it has more bytes, the scan starts behind the first bracket. What it takes for the end of the
arguments is then a bracket among them, or none. -/
theorem splitJavaGenericBase_skips {front inside rest name args : List Char} (h : '<' ∉ front)
    (hinside : Sealed 1 inside) (hrest : '>' ∉ rest) (hbytes : front.length < byteLength front)
    (hsplit : splitJavaGenericBase (front ++ '<' :: (inside ++ '>' :: rest)) = some (name, some args)) :
    args.count '>' < inside.count '>' := by
  rw [splitJavaGenericBase_bracket h] at hsplit
  obtain ⟨i, hclosing, heq⟩ := Option.map_eq_some_iff.mp hsplit
  obtain ⟨-, hargs⟩ := Prod.mk.inj heq
  obtain rfl := Option.some.inj hargs
  obtain ⟨skipped, hskipped⟩ : ∃ k, byteLength front = front.length + (k + 1) :=
    ⟨byteLength front - front.length - 1, by omega⟩
  rw [hskipped, List.drop_length_add_append, List.drop_succ_cons] at hclosing
  obtain ⟨scanned, behind, hscan, rfl, hdepth⟩ := closingAngle_spec hclosing
  rw [zero_add] at hdepth
  -- Up to the bracket that is found, the text is the skipped part and the scanned one.
  have hskippedLe : skipped ≤ (inside ++ '>' :: rest).length := by
    by_contra hlong
    rw [List.drop_eq_nil_of_le (by omega)] at hscan
    exact absurd hscan.symm (by simp)
  have htext : inside ++ '>' :: rest = ((inside ++ '>' :: rest).take skipped ++ scanned) ++ '>' :: behind := by
    rw [List.append_assoc, ← hscan, List.take_append_drop]
  have htake : ((front ++ '<' :: (inside ++ '>' :: rest)).take
        (front.length + (skipped + 1) + scanned.length)).drop (front.length + 1) =
      (inside ++ '>' :: rest).take skipped ++ scanned := by
    rw [Nat.add_assoc, List.take_length_add_append, List.drop_length_add_append,
      show skipped + 1 + scanned.length = skipped + scanned.length + 1 by omega, List.take_succ_cons,
      List.drop_succ_cons, List.drop_zero]
    conv_lhs => rw [htext]
    refine List.take_left' ?_
    rw [List.length_append, List.length_take, Nat.min_eq_left hskippedLe]
  rw [htake, count_trim (by decide)]
  generalize hskip : (inside ++ '>' :: rest).take skipped = skip at htext ⊢
  rcases List.append_eq_append_iff.mp htext with ⟨middle, hmiddle, hbehind⟩ | ⟨middle, hmiddle, hbehind⟩
  · cases middle with
    | nil =>
      -- It would be the closing bracket, but from the skipped part on the depth is that of the arguments.
      rw [List.append_nil] at hmiddle
      have hfront : skip <+: inside := ⟨scanned, hmiddle⟩
      have hdeep := hinside.deep skip hfront
      have hlevel := hinside.level
      rw [← hmiddle, angles_append] at hlevel
      omega
    | cons c middle =>
      obtain ⟨rfl, htail⟩ := List.cons.inj hbehind
      have hmem : '>' ∈ rest := by
        rw [htail]
        exact List.mem_append_right _ List.mem_cons_self
      exact absurd hmem hrest
  · cases middle with
    | nil =>
      rw [List.append_nil] at hmiddle
      have hfront : skip <+: inside := ⟨scanned, hmiddle.symm⟩
      have hdeep := hinside.deep skip hfront
      have hlevel := hinside.level
      rw [hmiddle, angles_append] at hlevel
      omega
    | cons c middle =>
      obtain ⟨rfl, -⟩ := List.cons.inj hbehind
      simp only [hmiddle, List.count_append, List.count_cons_self]
      omega

/-! ## Splitting a class type -/

namespace ClassTypeText

variable {ty : ClassTypeText}

theorem text_of_simple_front (h : ∀ s ∈ ty.front, s.args = none) :
    ty.text = nameText ty.front ty.last ++ ty.last.argsText ++ ty.last.trail := by
  have hfront : ty.front.flatMap (fun s => s.text ++ ['.']) = outerText ty.front := by
    refine List.flatMap_congr fun s hs => ?_
    simp only [TypeSegment.text, TypeSegment.argsText, h s hs, List.append_nil]
  rw [text, classTypeText, hfront, nameText, TypeSegment.text]
  simp only [List.append_assoc]

/-- Where an outer name has type arguments, the text in front of its bracket is the name up to there. -/
theorem text_of_generic_front {before after : List TypeSegment} {s : TypeSegment}
    {args : List (List Char)} (hfront : ty.front = before ++ s :: after)
    (hbefore : ∀ s ∈ before, s.args = none) (hargs : s.args = some args) :
    ∃ rest, ty.text = nameText before s ++ '<' :: rest := by
  have houter : before.flatMap (fun s => s.text ++ ['.']) = outerText before := by
    refine List.flatMap_congr fun s hs => ?_
    simp only [TypeSegment.text, TypeSegment.argsText, hbefore s hs, List.append_nil]
  refine ⟨[','].intercalate args ++ ['>'] ++ s.trail ++ ['.'] ++
    after.flatMap (fun s => s.text ++ ['.']) ++ ty.last.text, ?_⟩
  rw [text, classTypeText, hfront, List.flatMap_append, List.flatMap_cons, houter, nameText]
  simp [TypeSegment.text, TypeSegment.argsText, hargs]

theorem exists_first_generic (front : List TypeSegment) :
    (∀ s ∈ front, s.args = none) ∨ ∃ before s after args, front = before ++ s :: after ∧
      (∀ s ∈ before, s.args = none) ∧ s.args = some args := by
  induction front with
  | nil => exact .inl fun s hs => absurd hs List.not_mem_nil
  | cons s front ih =>
    cases hs : s.args with
    | some args => exact .inr ⟨[], s, front, args, rfl, fun s hs => absurd hs List.not_mem_nil, hs⟩
    | none =>
      rcases ih with hall | ⟨before, t, after, args, rfl, hbefore, ht⟩
      · exact .inl (List.forall_mem_cons.mpr ⟨hs, hall⟩)
      · exact .inr ⟨s :: before, t, after, args, rfl, List.forall_mem_cons.mpr ⟨hs, hbefore⟩, ht⟩

/-- The name is never right where an outer name has type arguments: it ends in front of them. -/
theorem not_faithful_of_generic_front {before after : List TypeSegment} {s : TypeSegment}
    {args : List (List Char)} (hfront : ty.front = before ++ s :: after)
    (hbefore : ∀ s ∈ before, s.args = none) (hargs : s.args = some args) : ¬ ty.SplitFaithfully := by
  have hwf : ∀ t ∈ before ++ [s], t.WellFormed := fun t ht => ty.segments t (by
    rw [hfront]
    simp only [List.mem_append, List.mem_cons, List.not_mem_nil] at ht ⊢
    tauto)
  have hplain : '<' ∉ nameText before s := fun hmem => (plain_nameText hwf '<' hmem).1 rfl
  obtain ⟨rest, htext⟩ := text_of_generic_front hfront hbefore hargs
  have hname : ∀ name argsText, splitJavaGenericBase ty.text = some (name, argsText) →
      argsText ≠ none ∧ name ≠ ty.qualifiedName := by
    intro name argsText hsplit
    rw [htext, splitJavaGenericBase_bracket hplain] at hsplit
    obtain ⟨i, -, heq⟩ := Option.map_eq_some_iff.mp hsplit
    obtain ⟨rfl, rfl⟩ := Prod.mk.inj heq
    refine ⟨Option.some_ne_none _, fun hname => ?_⟩
    have hcount := congrArg (List.count '.') hname
    rw [count_trim (by decide), count_dots_nameText hwf, qualifiedName,
      count_dots_dottedName ty.segments, hfront, List.length_append, List.length_cons] at hcount
    omega
  intro h
  rw [SplitFaithfully] at h
  split at h
  · exact (hname _ _ h).1 rfl
  · obtain ⟨argsText, hsplit, -⟩ := h
    exact (hname _ _ hsplit).2 rfl

theorem lt_not_mem_nameText (ty : ClassTypeText) : '<' ∉ nameText ty.front ty.last :=
  fun h => (plain_nameText ty.segments '<' h).1 rfl

theorem wellFormed_last (ty : ClassTypeText) : ty.last.WellFormed :=
  ty.segments ty.last (List.mem_append_right ty.front (List.mem_singleton_self ty.last))

/-- Without arguments the text is the name, as it is written. -/
theorem faithful_iff_of_no_args (houters : ∀ s ∈ ty.front, s.args = none) (hargs : ty.last.args = none) :
    ty.SplitFaithfully ↔ trim (nameText ty.front ty.last) = ty.qualifiedName := by
  have htext := text_of_simple_front houters
  rw [TypeSegment.argsText, hargs, List.append_nil] at htext
  have hnone : '<' ∉ ty.text := by
    rw [htext]
    intro h
    rcases List.mem_append.mp h with h | h
    · exact ty.lt_not_mem_nameText h
    · exact (TypeSegment.plain_of_blank ty.wellFormed_last.trail '<' h).1 rfl
  have htrim : trim ty.text = trim (nameText ty.front ty.last) := by
    rw [htext, trim_append_blank _ (TypeSegment.blank_of_java ty.wellFormed_last.trail)]
  simp only [SplitFaithfully, hargs, splitJavaGenericBase_plain hnone, htrim, Option.some.injEq,
    Prod.mk.injEq, and_true]

section Arguments

variable {args : List (List Char)} (hargs : ty.last.args = some args)

include hargs

theorem sealed_arguments {arg : List Char} (harg : arg ∈ args) : Sealed 0 arg ∧ trim arg ≠ [] := by
  have hmem := List.mem_append_right ty.front (List.mem_singleton_self ty.last)
  obtain ⟨hs, c, hc, hcBlank⟩ := (ty.arguments ty.last hmem args hargs arg harg).sealed
  refine ⟨hs, fun hnil => ?_⟩
  have hcount := count_trim hcBlank arg
  rw [hnil, List.count_nil] at hcount
  exact (List.count_pos_iff.mpr hc).ne hcount

theorem sealed_inside : Sealed 1 ([','].intercalate args) :=
  Sealed.intercalate Int.one_pos fun _ harg => (sealed_arguments hargs harg).1.mono (by decide)

theorem args_of_inside : splitJavaGenericArgs (trim ([','].intercalate args)) = args.map trim :=
  splitJavaGenericArgs_intercalate (fun _ harg => sealed_arguments hargs harg)
    fun hnil => ty.wellFormed_last.args (hnil ▸ hargs)

theorem text_of_args (houters : ∀ s ∈ ty.front, s.args = none) :
    ty.text = nameText ty.front ty.last ++ '<' :: ([','].intercalate args ++ '>' :: ty.last.trail) := by
  rw [text_of_simple_front houters, TypeSegment.argsText, hargs]
  simp

/-- Where the name has one byte for each character, it is split off whole. -/
theorem split_of_bytes (houters : ∀ s ∈ ty.front, s.args = none)
    (hbytes : byteLength (nameText ty.front ty.last) = (nameText ty.front ty.last).length) :
    splitJavaGenericBase ty.text =
      some (trim (nameText ty.front ty.last), some (trim ([','].intercalate args))) := by
  rw [text_of_args hargs houters, splitJavaGenericBase_bytes ty.lt_not_mem_nameText (sealed_inside hargs) hbytes]

/-- Where it has more, the arguments would have as many closing brackets as the text they are taken from. -/
theorem bytes_of_faithful (houters : ∀ s ∈ ty.front, s.args = none) (h : ty.SplitFaithfully) :
    byteLength (nameText ty.front ty.last) = (nameText ty.front ty.last).length := by
  simp only [SplitFaithfully, hargs] at h
  obtain ⟨argsText, hsplit, hright⟩ := h
  by_contra hlen
  have hlt := lt_of_le_of_ne (length_le_byteLength _) (Ne.symm hlen)
  have hclosed : '>' ∉ ty.last.trail := fun h =>
    (TypeSegment.plain_of_blank ty.wellFormed_last.trail '>' h).2.1 rfl
  rw [text_of_args hargs houters] at hsplit
  have hfewer := splitJavaGenericBase_skips ty.lt_not_mem_nameText (sealed_inside hargs) hclosed hlt hsplit
  have hcount := sum_count_splitJavaGenericArgs (c := '>') (by decide) (by decide) argsText
  have hcount' := sum_count_splitJavaGenericArgs (c := '>') (by decide) (by decide)
    (trim ([','].intercalate args))
  rw [args_of_inside hargs, count_trim (by decide)] at hcount'
  rw [hright, hcount'] at hcount
  omega

end Arguments

theorem bytes_iff (ty : ClassTypeText) :
    byteLength (nameText ty.front ty.last) = (nameText ty.front ty.last).length ↔
      ∀ s ∈ ty.front ++ [ty.last], ∀ c ∈ s.name, c.utf8Size = 1 := by
  rw [byteLength_eq_length_iff]
  exact nameText_bytes_iff ty.segments

theorem PlainlyNamed.splitFaithfully (h : ty.PlainlyNamed) : ty.SplitFaithfully := by
  have htrim := (trim_nameText_iff ty.segments).mpr ⟨h.behind, h.before⟩
  cases hargs : ty.last.args with
  | none => exact (faithful_iff_of_no_args h.outers hargs).mpr htrim
  | some args =>
    have hlen := ty.bytes_iff.mpr (h.bytes (by rw [hargs]; exact Option.some_ne_none args))
    simp only [SplitFaithfully, hargs]
    exact ⟨_, by rw [split_of_bytes hargs h.outers hlen, htrim, qualifiedName], args_of_inside hargs⟩

/-- A class type is split into its name and its own arguments exactly where no outer name has arguments,
no blank stands inside of the name, and a name with arguments has one byte for each character. -/
theorem split_faithfully_iff (ty : ClassTypeText) : ty.SplitFaithfully ↔ ty.PlainlyNamed := by
  refine ⟨fun h => ?_, PlainlyNamed.splitFaithfully⟩
  rcases exists_first_generic ty.front with houters | ⟨before, s, after, args, hfront, hbefore, hargs⟩
  swap
  · exact absurd h (not_faithful_of_generic_front hfront hbefore hargs)
  cases hargs : ty.last.args with
  | none =>
    obtain ⟨hbehind, hbefore⟩ := (trim_nameText_iff ty.segments).mp ((faithful_iff_of_no_args houters hargs).mp h)
    exact ⟨houters, hbehind, hbefore, fun hsome => absurd hargs hsome⟩
  | some args =>
    have hlen := bytes_of_faithful hargs houters h
    simp only [SplitFaithfully, hargs, split_of_bytes hargs houters hlen] at h
    obtain ⟨argsText, hsplit, -⟩ := h
    obtain ⟨hbehind, hbefore⟩ := (trim_nameText_iff ty.segments).mp (Prod.mk.inj (Option.some.inj hsplit)).1
    exact ⟨houters, hbehind, hbefore, fun _ => ty.bytes_iff.mp hlen⟩

/-! ## An inner type of a parameterised outer type -/

/-- A name without blanks. -/
def tightSegment (name : List Char) (args : Option (List (List Char))) : TypeSegment :=
  ⟨[], name, [], args, []⟩

theorem wellFormed_tightSegment {name : List Char} {args : Option (List (List Char))}
    (hne : name ≠ []) (hname : name.all isIdentifierChar = true) (hargs : args ≠ some []) :
    (tightSegment name args).WellFormed :=
  ⟨fun _ h => absurd h List.not_mem_nil, fun _ h => absurd h List.not_mem_nil,
    fun _ h => absurd h List.not_mem_nil, ⟨hne, List.all_eq_true.mp hname⟩, hargs⟩

theorem isTypeText_name {name : List Char} (hne : name ≠ []) (hname : name.all isIdentifierChar = true) :
    IsTypeText .argument name := by
  have hcls := IsTypeText.cls [] (tightSegment name none)
    (fun s hs => List.mem_singleton.mp hs ▸ wellFormed_tightSegment hne hname (by simp))
    (fun s hs args hargs => by
      rw [List.mem_singleton.mp hs] at hargs
      cases hargs)
  have htext : classTypeText [] (tightSegment name none) = name := by
    simp [classTypeText, TypeSegment.text, TypeSegment.argsText, tightSegment]
  exact .reference name (htext ▸ hcls)

/-- `Outer<A>.Inner<B>` -/
def innerOfGeneric : ClassTypeText where
  front := [tightSegment ['O', 'u', 't', 'e', 'r'] (some [['A']])]
  last := tightSegment ['I', 'n', 'n', 'e', 'r'] (some [['B']])
  segments s hs := by
    rcases List.mem_cons.mp hs with rfl | hs
    · exact wellFormed_tightSegment (by decide) (by decide) (by decide)
    · rw [List.mem_singleton.mp hs]
      exact wellFormed_tightSegment (by decide) (by decide) (by decide)
  arguments s hs args hargs arg harg := by
    rcases List.mem_cons.mp hs with rfl | hs
    · obtain rfl := Option.some.inj hargs
      rw [List.mem_singleton.mp harg]
      exact isTypeText_name (by decide) (by decide)
    · rw [List.mem_singleton.mp hs] at hargs
      obtain rfl := Option.some.inj hargs
      rw [List.mem_singleton.mp harg]
      exact isTypeText_name (by decide) (by decide)

/-- What follows the first closing bracket is lost. -/
theorem inner_type_lost :
    innerOfGeneric.text = "Outer<A>.Inner<B>".toList ∧
      splitJavaGenericBase innerOfGeneric.text = some ("Outer".toList, some ['A']) ∧
      ¬ innerOfGeneric.SplitFaithfully := by
  have hsplit : splitJavaGenericBase innerOfGeneric.text = some ("Outer".toList, some ['A']) := by decide
  refine ⟨by decide, hsplit, ?_⟩
  rintro ⟨argsText, hfaithful, -⟩
  rw [hsplit] at hfaithful
  exact absurd (Prod.mk.inj (Option.some.inj hfaithful)).1 (by decide)

end ClassTypeText

end JavaAnalyzer.Language
