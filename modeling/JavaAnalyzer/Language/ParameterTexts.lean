import JavaAnalyzer.Language.FormalParameters

/-! # Texts of parameters

What the texts of types and parameters begin with, end in and are made of. -/

namespace JavaAnalyzer.Language
set_option autoImplicit false
open Text TextLines

/-! ## Ends of texts -/

theorem Gap.blank (b : Gap) : Blank b.1 :=
  TypeSegment.blank_of_java b.2

theorem solid_of_identifierChars {word : List Char} (h : ∀ c ∈ word, isIdentifierChar c) (hne : word ≠ []) :
    Solid word where
  ne_nil := hne
  head c hc := (isIdentifierChar_cases (h c (List.mem_of_mem_head? hc))).1
  last c hc := (isIdentifierChar_cases (h c (List.mem_of_mem_getLast? hc))).1

theorem PrimitiveType.word_chars (p : PrimitiveType) : ∀ c ∈ p.word.toList, isIdentifierChar c :=
  List.all_eq_true.mp (by cases p <;> decide +kernel)

theorem PrimitiveType.word_ne_nil (p : PrimitiveType) : p.word.toList ≠ [] := by
  cases p <;> decide +kernel

theorem ElementType.solid : (e : ElementType) → Solid e.text
  | primitive p => solid_of_identifierChars p.word_chars p.word_ne_nil
  | reference _ solid _ => solid

/-- The text of a tight dimension. -/
theorem Dimension.text_eq (d : Dimension) (h : d.inner.1 = []) : d.text = d.lead.1 ++ ['[', ']'] := by
  rw [text, h]
  rfl

theorem solid_dims {element : List Char} (h : Solid element) (dims : List Dimension) :
    Solid (element ++ dims.flatMap Dimension.text) := by
  rcases dims.eq_nil_or_concat with rfl | ⟨front, d, rfl⟩
  · rwa [List.flatMap_nil, List.append_nil]
  · have hend : Solid [']'] := solid_singleton (by decide)
    have hsolid := h.append (front.flatMap Dimension.text ++ (d.lead.1 ++ '[' :: d.inner.1)) hend
    simpa [Dimension.text] using hsolid

theorem SourceType.solid (t : SourceType) : Solid t.text :=
  solid_dims t.element.solid t.dims

theorem solid_dots : Solid ['.', '.', '.'] :=
  (solid_singleton (c := '.') (by decide)).append ['.'] (solid_singleton (c := '.') (by decide))

namespace FormalParameter

theorem solid_type (p : FormalParameter) : Solid (p.type.text ++ dotsText p.dots) := by
  cases p.dots with
  | none => simpa [dotsText] using p.type.solid
  | some gap => simpa [dotsText] using p.type.solid.append gap.1 solid_dots

theorem solid_typeText (p : FormalParameter) : Solid p.typeText := by
  rw [typeText]
  cases hmods : p.modifiers with
  | nil => exact p.solid_type
  | cons m mods =>
    have hfirst : ∃ c rest, m.text = c :: rest ∧ isWhitespace c = false := by
      cases m with
      | final gap => exact ⟨'f', _, rfl, by decide⟩
      | annotationUse lead name _ _ args gap => exact ⟨'@', _, rfl, by decide⟩
    obtain ⟨c, rest, hm, hc⟩ := hfirst
    have happend := (solid_singleton hc).append (rest ++ mods.flatMap ParameterModifier.text) p.solid_type
    simpa [hm] using happend

end FormalParameter

/-! ## The first word of a type -/

/-- No name goes on here. -/
def WordEnds (s : List Char) : Prop :=
  ∀ c ∈ s.head?, isIdentifierChar c = false

theorem wordEnds_nil : WordEnds [] :=
  fun _ hc => absurd hc (by simp)

theorem wordEnds_cons {c : Char} (hc : isIdentifierChar c = false) (s : List Char) : WordEnds (c :: s) :=
  fun d hd => by rwa [← Option.some.inj (Option.mem_def.mp hd)]

theorem isIdentifierChar_of_blank {c : Char} (h : isJavaBlank c = true) : isIdentifierChar c = false := by
  by_contra hc
  rw [Bool.not_eq_false] at hc
  exact ne_of_test (isJavaBlank_cases h).1 (isIdentifierChar_cases hc).1 rfl

theorem WordEnds.blank_append {b s : List Char} (hb : ∀ c ∈ b, isJavaBlank c) (hs : WordEnds s) :
    WordEnds (b ++ s) := by
  cases b with
  | nil => exact hs
  | cons c b => exact wordEnds_cons (isIdentifierChar_of_blank (hb c List.mem_cons_self)) _

/-- The text begins with a name that is not `final`. -/
def StartsWithName (s : List Char) : Prop :=
  ∃ word rest, s = word ++ rest ∧ word ≠ [] ∧ (∀ c ∈ word, isIdentifierChar c) ∧ WordEnds rest ∧
    word ≠ "final".toList

theorem StartsWithName.append {s t : List Char} (hs : StartsWithName s) (ht : WordEnds t) :
    StartsWithName (s ++ t) := by
  obtain ⟨word, rest, rfl, hne, hword, hrest, hfinal⟩ := hs
  refine ⟨word, rest ++ t, by rw [List.append_assoc], hne, hword, ?_, hfinal⟩
  cases rest with
  | nil => exact ht
  | cons c rest => exact wordEnds_cons (hrest c rfl) _

theorem takeWhile_word {word rest : List Char} (hword : ∀ c ∈ word, isIdentifierChar c) (hrest : WordEnds rest) :
    (word ++ rest).takeWhile isIdentifierChar = word := by
  rw [List.takeWhile_append_of_pos hword]
  cases rest with
  | nil => rw [List.takeWhile_nil, List.append_nil]
  | cons c rest =>
    have hstop : ¬ isIdentifierChar c = true := by rw [hrest c rfl]; exact Bool.false_ne_true
    rw [List.takeWhile_cons_of_neg hstop, List.append_nil]

/-- Such a text has no modifiers in front. -/
theorem StartsWithName.bare {s : List Char} (h : StartsWithName s) : Bare s := by
  obtain ⟨word, rest, rfl, hne, hword, hrest, hfinal⟩ := h
  obtain ⟨c, word', rfl⟩ := List.exists_cons_of_ne_nil hne
  have hc := hword c List.mem_cons_self
  refine ⟨?_, ?_, ?_⟩
  · exact List.dropWhile_cons_of_neg (by rw [(isIdentifierChar_cases hc).1]; exact Bool.false_ne_true)
  · rintro ⟨more, hmore⟩
    have htake := takeWhile_word hword hrest
    rw [← hmore] at htake
    have hwords : ("final ".toList ++ more).takeWhile isIdentifierChar = "final".toList :=
      @takeWhile_word "final".toList (' ' :: more)
        (List.all_eq_true.mp (by decide +kernel)) (wordEnds_cons (by decide) _)
    exact hfinal (htake.symm.trans hwords)
  · intro hat
    obtain rfl := Option.some.inj hat
    exact absurd hc (by decide)

theorem ne_final_of_unreserved {word : List Char} (h : String.ofList word ∉ reservedWords) :
    word ≠ "final".toList := by
  rintro rfl
  exact h (by decide)

theorem TypeSegment.startsWithName {s : TypeSegment} (h : s.WellFormed) (hlead : s.lead = [])
    (hname : String.ofList s.name ∉ reservedWords) : StartsWithName s.text := by
  refine ⟨s.name, s.gap ++ (s.argsText ++ s.trail), ?_, h.name.1, h.name.2, ?_, ne_final_of_unreserved hname⟩
  · rw [text, hlead]
    simp only [List.nil_append, List.append_assoc]
  · refine WordEnds.blank_append h.gap ?_
    rw [argsText]
    split
    · rw [List.nil_append, ← List.append_nil s.trail]
      exact WordEnds.blank_append h.trail wordEnds_nil
    · exact wordEnds_cons (by decide) _

/-- No white space stands in front of the first segment of a text without any at its ends. -/
theorem TypeSegment.lead_eq_nil {s : TypeSegment} {t : List Char} (h : s.WellFormed) (ht : Solid t)
    (hhead : s.text.head? = t.head?) : s.lead = [] := by
  cases hlead : s.lead with
  | nil => rfl
  | cons c lead =>
    have hc : c ∈ s.text.head? := by simp [text, hlead]
    have hblank := (isJavaBlank_cases (h.lead c (hlead ▸ List.mem_cons_self))).1
    exact absurd rfl (ne_of_test hblank (ht.head c (hhead ▸ hc)))

theorem ElementType.startsWithName : (e : ElementType) → StartsWithName e.text
  | primitive p =>
    ⟨p.word.toList, [], (List.append_nil _).symm, p.word_ne_nil, p.word_chars, wordEnds_nil, by
      cases p <;> decide +kernel⟩
  | reference ty solid unreserved => by
    obtain ⟨front, last, segments, arguments⟩ := ty
    cases front with
    | nil =>
      have hs := segments last (by simp)
      have htext : last.text = classTypeText [] last := by simp [classTypeText]
      have hstarts := TypeSegment.startsWithName hs (TypeSegment.lead_eq_nil hs solid (by rw [htext]; rfl))
        (unreserved last (by simp))
      rw [htext] at hstarts
      exact hstarts
    | cons s front =>
      have hs := segments s (by simp)
      have htext : classTypeText (s :: front) last =
          s.text ++ '.' :: (front.flatMap (fun s => s.text ++ ['.']) ++ last.text) := by
        simp [classTypeText]
      have hhead : s.text.head? = (classTypeText (s :: front) last).head? := by
        rw [htext, List.head?_append_of_ne_nil _ hs.text_ne_nil]
      have hstarts := TypeSegment.startsWithName hs (TypeSegment.lead_eq_nil hs solid hhead)
        (unreserved s (by simp))
      have happend := hstarts.append
        (wordEnds_cons (by decide) (front.flatMap (fun s => s.text ++ ['.']) ++ last.text) (c := '.'))
      rw [← htext] at happend
      exact happend

theorem Dimension.wordEnds (d : Dimension) (s : List Char) : WordEnds (d.text ++ s) := by
  rw [text, List.append_assoc]
  exact WordEnds.blank_append d.lead.2 (wordEnds_cons (by decide) _)

theorem SourceType.startsWithName (t : SourceType) : StartsWithName t.text := by
  refine t.element.startsWithName.append ?_
  cases t.dims with
  | nil => exact wordEnds_nil
  | cons d dims => exact d.wordEnds _

theorem FormalParameter.startsWithName (p : FormalParameter) :
    StartsWithName (p.type.text ++ dotsText p.dots) := by
  refine p.type.startsWithName.append ?_
  cases p.dots with
  | none => exact wordEnds_nil
  | some gap => exact WordEnds.blank_append gap.2 (wordEnds_cons (by decide) _)

/-! ## Last characters -/

/-- A text that ends in no bracket and no dot. -/
def Undimensioned (s : List Char) : Prop :=
  ∀ c ∈ s.getLast?, c ≠ ']' ∧ c ≠ '.'

theorem TypeSegment.WellFormed.undimensioned {s : TypeSegment} (h : s.WellFormed) : Undimensioned s.text := by
  have hblank : ∀ {c}, isJavaBlank c = true → c ≠ ']' ∧ c ≠ '.' := fun hc =>
    ⟨ne_of_test hc (by decide), (isJavaBlank_cases hc).2.2⟩
  intro c hc
  rw [text, List.getLast?_append, Option.mem_def, Option.or_eq_some_iff] at hc
  rcases hc with hc | ⟨-, hc⟩
  · exact hblank (h.trail c (List.mem_of_mem_getLast? hc))
  rw [List.getLast?_append, Option.or_eq_some_iff] at hc
  rcases hc with hc | ⟨-, hc⟩
  · rw [argsText] at hc
    split at hc
    · cases hc
    · rw [← List.cons_append, List.getLast?_concat] at hc
      obtain rfl := Option.some.inj hc
      decide
  rw [List.getLast?_append, Option.or_eq_some_iff] at hc
  rcases hc with hc | ⟨-, hc⟩
  · exact hblank (h.gap c (List.mem_of_mem_getLast? hc))
  rw [List.getLast?_append_of_ne_nil _ h.name.1] at hc
  have hname := h.name.2 c (List.mem_of_mem_getLast? hc)
  exact ⟨ne_of_test hname (by decide), (isIdentifierChar_cases hname).2.2.2.2⟩

theorem ElementType.undimensioned : (e : ElementType) → Undimensioned e.text
  | primitive p => fun c hc => by
    have hchar := p.word_chars c (List.mem_of_mem_getLast? hc)
    exact ⟨ne_of_test hchar (by decide), (isIdentifierChar_cases hchar).2.2.2.2⟩
  | reference ty _ _ => fun c hc => by
    have hlast := ty.wellFormed_last
    refine hlast.undimensioned c ?_
    rw [text, ClassTypeText.text, classTypeText, List.getLast?_append_of_ne_nil _ hlast.text_ne_nil] at hc
    exact hc

/-! ## Ampersands -/

theorem amp_not_mem_of_blank {b : List Char} (h : ∀ c ∈ b, isJavaBlank c) : '&' ∉ b :=
  fun hmem => absurd (h '&' hmem) (by decide)

theorem amp_not_mem_of_name {name : List Char} (h : ∀ c ∈ name, isIdentifierChar c) : '&' ∉ name :=
  fun hmem => absurd (h '&' hmem) (by decide)

/-- One of some words without an ampersand. -/
theorem amp_not_mem_word {words : List String} {word : List Char} (hword : String.ofList word ∈ words)
    (hplain : words.all (fun word => !word.toList.contains '&') = true) : '&' ∉ word := by
  have hall := List.all_eq_true.mp hplain _ hword
  rw [String.toList_ofList] at hall
  simpa using hall

theorem amp_not_mem_intercalate {pieces : List (List Char)} (h : ∀ piece ∈ pieces, '&' ∉ piece) :
    '&' ∉ [','].intercalate pieces := by
  induction pieces with
  | nil => exact List.not_mem_nil
  | cons piece pieces ih =>
    have hpiece := h piece List.mem_cons_self
    cases pieces with
    | nil => rwa [List.intercalate_singleton]
    | cons next pieces =>
      have hrest := ih fun other hother => h other (List.mem_cons_of_mem piece hother)
      rw [List.intercalate_cons_cons]
      simp [hpiece, hrest]

theorem TypeSegment.amp_not_mem {s : TypeSegment} (h : s.WellFormed)
    (hargs : ∀ args ∈ s.args, ∀ arg ∈ args, '&' ∉ arg) : '&' ∉ s.text := by
  have hargsText : '&' ∉ s.argsText := by
    rw [argsText]
    split
    · exact List.not_mem_nil
    · rename_i args hsome
      have hinside := amp_not_mem_intercalate (hargs args hsome)
      simpa using hinside
  have hlead := amp_not_mem_of_blank h.lead
  have hgap := amp_not_mem_of_blank h.gap
  have htrail := amp_not_mem_of_blank h.trail
  have hname := amp_not_mem_of_name h.name.2
  simp [text, hlead, hgap, htrail, hname, hargsText]

theorem amp_not_mem_classTypeText {front : List TypeSegment} {last : TypeSegment}
    (h : ∀ s ∈ front ++ [last], '&' ∉ s.text) : '&' ∉ classTypeText front last := by
  intro hmem
  rcases List.mem_append.mp hmem with hmem | hmem
  · obtain ⟨s, hs, hmem⟩ := List.mem_flatMap.mp hmem
    rcases List.mem_append.mp hmem with hmem | hmem
    · exact h s (List.mem_append_left _ hs) hmem
    · exact absurd hmem (by decide)
  · exact h last (List.mem_append_right _ (List.mem_singleton_self last)) hmem

theorem IsTypeText.amp_not_mem {kind : TypeTextKind} {t : List Char} (h : IsTypeText kind t) : '&' ∉ t := by
  induction h with
  | cls front last hsegments hargs ih =>
    exact amp_not_mem_classTypeText fun s hs => TypeSegment.amp_not_mem (hsegments s hs) (ih s hs)
  | primitiveArray lead name gap inner trail hb hname =>
    have hblank := amp_not_mem_of_blank hb
    have hname := amp_not_mem_word hname (by decide)
    simp only [List.mem_append, not_or] at hblank
    simp [hblank, hname]
  | array element inner trail hb _ ih =>
    have hblank := amp_not_mem_of_blank hb
    simp only [List.mem_append, not_or] at hblank
    simp [hblank, ih]
  | wildcard lead trail hb =>
    have hblank := amp_not_mem_of_blank hb
    simp only [List.mem_append, not_or] at hblank
    simp [hblank]
  | bounded lead gap word space bound hb hword _ _ ih =>
    have hblank := amp_not_mem_of_blank hb
    have hword := amp_not_mem_word hword (by decide)
    simp only [List.mem_append, not_or] at hblank
    simp [hblank, hword, ih]
  | reference t _ ih => exact ih

theorem ElementType.amp_not_mem : (e : ElementType) → '&' ∉ e.text
  | primitive p => amp_not_mem_of_name p.word_chars
  | reference ty _ _ => amp_not_mem_classTypeText fun s hs =>
    TypeSegment.amp_not_mem (ty.segments s hs) fun args hsome arg harg =>
      (ty.arguments s hs args hsome arg harg).amp_not_mem

/-! ## The ends of a list -/

theorem FormalParameter.ne_nil (p : FormalParameter) : p.text ≠ [] := by
  intro hnil
  simp only [text, List.append_eq_nil_iff] at hnil
  exact p.name.ne_nil hnil.1.1.2

theorem FormalParameter.head_typeText (p : FormalParameter) : ∀ c ∈ p.typeText.head?, c ≠ '(' := by
  intro c hc
  rw [typeText] at hc
  cases hmods : p.modifiers with
  | nil =>
    obtain ⟨word, rest, hword, hne, hchars, -⟩ := p.startsWithName
    rw [hmods, List.flatMap_nil, List.nil_append, hword, List.head?_append_of_ne_nil _ hne] at hc
    exact ne_of_test (hchars c (List.mem_of_mem_head? hc)) (by decide)
  | cons m mods =>
    rw [hmods] at hc
    cases m with
    | final gap =>
      obtain rfl : 'f' = c := Option.some.inj hc
      decide
    | annotationUse lead name _ _ args gap =>
      obtain rfl : '@' = c := Option.some.inj hc
      decide

theorem FormalParameter.head_text (p : FormalParameter) : ∀ c ∈ p.text.head?, c ≠ '(' := by
  intro c hc
  rw [text, List.append_assoc, List.append_assoc, List.append_assoc, List.append_assoc, List.head?_append,
    Option.mem_def, Option.or_eq_some_iff] at hc
  rcases hc with hc | ⟨-, hc⟩
  · exact ne_of_test (p.lead.2 c (List.mem_of_mem_head? hc)) (by decide)
  · rw [List.head?_append_of_ne_nil _ p.solid_typeText.ne_nil] at hc
    exact p.head_typeText c hc

theorem FormalParameter.last_text {p : FormalParameter} (hdims : p.dims = []) :
    ∀ c ∈ p.text.getLast?, c ≠ ')' := by
  intro c hc
  rw [text, hdims, List.flatMap_nil, List.append_nil, List.getLast?_append, Option.mem_def,
    Option.or_eq_some_iff] at hc
  rcases hc with hc | ⟨-, hc⟩
  · exact ne_of_test (p.trail.2 c (List.mem_of_mem_getLast? hc)) (by decide)
  · rw [List.getLast?_append_of_ne_nil _ p.name.ne_nil] at hc
    exact ne_of_test (p.name.chars c (List.mem_of_mem_getLast? hc)) (by decide)

theorem head_intercalate {pieces : List (List Char)} (hne : ∀ piece ∈ pieces, piece ≠ []) {c : Char}
    (hc : c ∈ ([','].intercalate pieces).head?) : ∃ piece ∈ pieces, c ∈ piece.head? := by
  cases pieces with
  | nil => cases hc
  | cons piece pieces =>
    refine ⟨piece, List.mem_cons_self, ?_⟩
    cases pieces with
    | nil => rwa [List.intercalate_singleton] at hc
    | cons next pieces =>
      rwa [List.intercalate_cons_cons, List.append_assoc,
        List.head?_append_of_ne_nil _ (hne piece List.mem_cons_self)] at hc

theorem last_intercalate {pieces : List (List Char)} (hne : ∀ piece ∈ pieces, piece ≠ []) {c : Char}
    (hc : c ∈ ([','].intercalate pieces).getLast?) : ∃ piece ∈ pieces, c ∈ piece.getLast? := by
  induction pieces with
  | nil => cases hc
  | cons piece pieces ih =>
    cases pieces with
    | nil =>
      rw [List.intercalate_singleton] at hc
      exact ⟨piece, List.mem_cons_self, hc⟩
    | cons next pieces =>
      have hnext := hne next (by simp)
      have hrest : [','].intercalate (next :: pieces) ≠ [] := by
        cases pieces with
        | nil => rwa [List.intercalate_singleton]
        | cons other pieces =>
          rw [List.intercalate_cons_cons]
          simp
      rw [List.intercalate_cons_cons, List.getLast?_append_of_ne_nil _ hrest] at hc
      obtain ⟨other, hother, hc⟩ := ih (fun piece hpiece => hne piece (List.mem_cons_of_mem _ hpiece)) hc
      exact ⟨other, List.mem_cons_of_mem _ hother, hc⟩

namespace FormalParameters

variable {ps : FormalParameters}

theorem inner_of_ne_nil (h : ps.params ≠ []) :
    ps.inner = [','].intercalate (ps.params.map FormalParameter.text) := by
  rw [inner]
  split
  · exact absurd ‹_› h
  · rfl

theorem inner_ends (hdims : ∀ p ∈ ps.params, p.dims = []) :
    (∀ c ∈ ps.inner.head?, c ≠ '(') ∧ ∀ c ∈ ps.inner.getLast?, c ≠ ')' := by
  have hne : ∀ piece ∈ ps.params.map FormalParameter.text, piece ≠ [] := by
    intro piece hpiece
    obtain ⟨p, -, rfl⟩ := List.mem_map.mp hpiece
    exact p.ne_nil
  by_cases h : ps.params = []
  · have hinner : ps.inner = ps.gap.1 := by rw [inner, h]
    rw [hinner]
    exact ⟨fun c hc => ne_of_test (ps.gap.2 c (List.mem_of_mem_head? hc)) (by decide),
      fun c hc => ne_of_test (ps.gap.2 c (List.mem_of_mem_getLast? hc)) (by decide)⟩
  · rw [inner_of_ne_nil h]
    constructor
    · intro c hc
      obtain ⟨piece, hpiece, hc⟩ := head_intercalate hne hc
      obtain ⟨p, -, rfl⟩ := List.mem_map.mp hpiece
      exact p.head_text c hc
    · intro c hc
      obtain ⟨piece, hpiece, hc⟩ := last_intercalate hne hc
      obtain ⟨p, hp, rfl⟩ := List.mem_map.mp hpiece
      exact FormalParameter.last_text (hdims p hp) c hc

end FormalParameters

end JavaAnalyzer.Language
