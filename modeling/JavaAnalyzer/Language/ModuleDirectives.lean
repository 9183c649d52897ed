import JavaAnalyzer.Language.ModuleLayouts

/-! # Reading directives back

What the directive readers make of a directive as it is written: a comment leaves its `/` in what is read, and white
space inside a name cuts it, so each shows. -/

namespace JavaAnalyzer.Language
set_option autoImplicit false
open Semantic Text Words

/-! ## White space and comments -/

namespace Trivia

theorem blank_text {t : Trivia} (h : t.isBlank = true) : Blank t.text := by
  cases t with
  | blank c hc =>
    intro d hd
    rw [List.mem_singleton.mp hd]
    exact (isJavaBlank_cases hc).1
  | blockComment text hc => cases h
  | lineComment text stop hc => cases h

theorem text_of_comment {t : Trivia} (h : t.isBlank = false) : ∃ rest, t.text = '/' :: rest := by
  cases t with
  | blank c hc => cases h
  | blockComment text hc => exact ⟨_, rfl⟩
  | lineComment text stop hc => exact ⟨_, rfl⟩

theorem getLast_text (t : Trivia) : ∃ front c, t.text = front ++ [c] ∧ c ≠ ';' := by
  cases t with
  | blank c hc => exact ⟨[], c, rfl, ne_of_test hc (by decide)⟩
  | blockComment text hc =>
    exact ⟨"/*".toList ++ text ++ ['*'], '/', by simp [Trivia.text], by decide⟩
  | lineComment text stop hc =>
    refine ⟨"//".toList ++ text, stop, rfl, ?_⟩
    rcases hc.2.2 with rfl | rfl <;> decide

end Trivia

namespace Spacing

variable {s : Spacing}

theorem text_cons (t : Trivia) (s : Spacing) : Spacing.text (t :: s) = t.text ++ s.text :=
  List.flatMap_cons

theorem Plain.blank (h : s.Plain) : Blank s.text := by
  intro c hc
  obtain ⟨t, ht, hmem⟩ := List.mem_flatMap.mp hc
  exact Trivia.blank_text (h t ht) c hmem

/-- Up to the first comment there are blanks only. -/
theorem exists_slash (h : ¬s.Plain) : ∃ b rest, s.text = b ++ '/' :: rest ∧ Blank b := by
  induction s with
  | nil => exact absurd (fun t ht => absurd ht List.not_mem_nil) h
  | cons t s ih =>
    cases ht : t.isBlank with
    | false =>
      obtain ⟨rest, hrest⟩ := Trivia.text_of_comment ht
      exact ⟨[], rest ++ Spacing.text s, by rw [text_cons, hrest]; rfl, blank_nil⟩
    | true =>
      have hs : ¬Plain s := fun hs => h fun t' ht' => by
        rcases List.mem_cons.mp ht' with rfl | hmem
        · exact ht
        · exact hs t' hmem
      obtain ⟨b, rest, hrest, hb⟩ := ih hs
      refine ⟨t.text ++ b, rest, by rw [text_cons, hrest, List.append_assoc], fun c hc => ?_⟩
      rcases List.mem_append.mp hc with hc | hc
      · exact Trivia.blank_text ht c hc
      · exact hb c hc

theorem plain_iff : s.Plain ↔ '/' ∉ s.text := by
  constructor
  · intro h hmem
    exact absurd (h.blank '/' hmem) (by decide)
  · intro h
    by_contra hcon
    obtain ⟨b, rest, heq, -⟩ := exists_slash hcon
    exact h (by rw [heq]; simp)

/-- A text of white space and comments starts with a blank or with a slash. -/
theorem head_text (h : s ≠ []) : ∃ c rest, s.text = c :: rest ∧ (isWhitespace c = true ∨ c = '/') := by
  obtain ⟨t, s, rfl⟩ := List.exists_cons_of_ne_nil h
  cases t with
  | blank c hc => exact ⟨c, Spacing.text s, rfl, .inl (isJavaBlank_cases hc).1⟩
  | blockComment text hc => exact ⟨'/', _, by rw [text_cons]; rfl, .inr rfl⟩
  | lineComment text stop hc => exact ⟨'/', _, by rw [text_cons]; rfl, .inr rfl⟩

theorem text_eq_nil_iff : s.text = [] ↔ s = [] := by
  constructor
  · intro h
    by_contra hne
    obtain ⟨c, rest, heq, -⟩ := head_text hne
    rw [heq] at h
    cases h
  · rintro rfl
    rfl

theorem plain_space : Spacing.Plain [.space] := fun t ht => by
  rw [List.mem_singleton.mp ht]
  rfl

theorem plain_nil : Spacing.Plain [] :=
  fun _ ht => absurd ht List.not_mem_nil

end Spacing

/-! ## Names -/

namespace LaidName

variable {n : LaidName}

theorem word_chars (w : JavaWord) {c : Char} (hc : c ∈ w.text) :
    isWhitespace c = false ∧ c ≠ '/' ∧ c ≠ ',' ∧ c ≠ '.' := by
  have hchar := w.chars c hc
  obtain ⟨hblank, -, -, hcomma, hdot⟩ := isIdentifierChar_cases hchar
  exact ⟨hblank, ne_of_test hchar (by decide), hcomma, hdot⟩

theorem name_chars {c : Char} (hc : c ∈ n.name) : isWhitespace c = false ∧ c ≠ '/' ∧ c ≠ ',' := by
  rcases List.mem_append.mp hc with hc | hc
  · obtain ⟨hblank, hslash, hcomma, -⟩ := word_chars n.head hc
    exact ⟨hblank, hslash, hcomma⟩
  · obtain ⟨part, -, hmem⟩ := List.mem_flatMap.mp hc
    rcases List.mem_cons.mp hmem with rfl | hmem
    · decide
    · obtain ⟨hblank, hslash, hcomma, -⟩ := word_chars part.2.2 hmem
      exact ⟨hblank, hslash, hcomma⟩

theorem name_free : ∀ c ∈ n.name, isWhitespace c = false :=
  fun _ hc => (name_chars hc).1

theorem name_ne_nil : n.name ≠ [] := fun h =>
  n.head.ne_nil (List.append_eq_nil_iff.mp h).1

theorem text_of_joined (h : n.Joined) : n.text = n.name := by
  have htail : ∀ tail : List (Spacing × Spacing × JavaWord), (∀ part ∈ tail, part.1 = [] ∧ part.2.1 = []) →
      tailText tail = tailName tail := by
    intro tail hall
    refine List.flatMap_congr fun part hpart => ?_
    obtain ⟨hbefore, hbehind⟩ := hall part hpart
    rw [hbefore, hbehind]
    rfl
  rw [text, name, htail n.tail h]

/-- A text that goes on with white space or a comment does not go on with another character. -/
theorem eq_nil_of_text_append {s : Spacing} {x y : List Char} {c : Char} (hc : isWhitespace c = false)
    (hslash : c ≠ '/') (heq : s.text ++ x = c :: y) : s = [] := by
  by_contra hne
  obtain ⟨d, rest, htext, hd⟩ := Spacing.head_text hne
  rw [htext, List.cons_append] at heq
  obtain ⟨rfl, -⟩ := List.cons.inj heq
  rcases hd with hd | hd
  · rw [hc] at hd
    cases hd
  · exact hslash hd

theorem joined_of_append_eq {x y : List Char} (h : n.text ++ x = n.name ++ y) : n.Joined := by
  have htail : ∀ tail : List (Spacing × Spacing × JavaWord), tailText tail ++ x = tailName tail ++ y →
      ∀ part ∈ tail, part.1 = [] ∧ part.2.1 = [] := by
    intro tail heq
    induction tail with
    | nil => exact fun part hpart => absurd hpart List.not_mem_nil
    | cons part tail ih =>
      rw [tailText, tailName, List.flatMap_cons, List.flatMap_cons] at heq
      simp only [List.append_assoc, List.cons_append] at heq
      have hbefore := eq_nil_of_text_append (by decide) (by decide) heq
      rw [hbefore] at heq
      obtain ⟨c, rest, hword⟩ := List.exists_cons_of_ne_nil part.2.2.ne_nil
      have hc := word_chars part.2.2 (hword ▸ List.mem_cons_self)
      have heq' := (List.cons.inj heq).2
      have hbehind : part.2.1 = [] := by
        rw [hword, List.cons_append, List.cons_append] at heq'
        exact eq_nil_of_text_append hc.1 hc.2.1 heq'
      rw [hbehind] at heq'
      have hrest := ih (List.append_cancel_left heq')
      intro part' hpart'
      rcases List.mem_cons.mp hpart' with rfl | hmem
      · exact ⟨hbefore, hbehind⟩
      · exact hrest part' hmem
  rw [text, name, List.append_assoc, List.append_assoc] at h
  exact htail n.tail (List.append_cancel_left h)

theorem joined_iff : n.Joined ↔ n.text = n.name := by
  constructor
  · exact text_of_joined
  · intro h
    exact joined_of_append_eq (x := []) (y := []) (by rw [h])

theorem joined_join (n : LaidName) : n.join.Joined := fun part hpart => by
  obtain ⟨part', -, rfl⟩ := List.mem_map.mp hpart
  exact ⟨rfl, rfl⟩

theorem name_join (n : LaidName) : n.join.name = n.name := by
  rw [name, name, join, tailName, tailName, List.flatMap_map]

/-- No comments stand around the dots. -/
def Plain (n : LaidName) : Prop :=
  ∀ part ∈ n.tail, part.1.Plain ∧ part.2.1.Plain

theorem Joined.plain (h : n.Joined) : n.Plain := fun part hpart => by
  obtain ⟨hbefore, hbehind⟩ := h part hpart
  rw [hbefore, hbehind]
  exact ⟨Spacing.plain_nil, Spacing.plain_nil⟩

theorem plain_iff : n.Plain ↔ '/' ∉ n.text := by
  constructor
  · intro h hmem
    rcases List.mem_append.mp hmem with hmem | hmem
    · exact (word_chars n.head hmem).2.1 rfl
    · obtain ⟨part, hpart, hmem⟩ := List.mem_flatMap.mp hmem
      obtain ⟨hbefore, hbehind⟩ := h part hpart
      rcases List.mem_append.mp hmem with hmem | hmem
      · exact Spacing.plain_iff.mp hbefore hmem
      · rcases List.mem_cons.mp hmem with heq | hmem
        · exact absurd heq (by decide)
        · rcases List.mem_append.mp hmem with hmem | hmem
          · exact Spacing.plain_iff.mp hbehind hmem
          · exact (word_chars part.2.2 hmem).2.1 rfl
  · intro h part hpart
    have hpart' : '/' ∉ part.1.text ++ '.' :: (part.2.1.text ++ part.2.2.text) := fun hmem =>
      h (List.mem_append_right _ (List.mem_flatMap.mpr ⟨part, hpart, hmem⟩))
    simp only [List.mem_append, List.mem_cons, not_or] at hpart'
    exact ⟨Spacing.plain_iff.mpr hpart'.1, Spacing.plain_iff.mpr hpart'.2.2.1⟩

theorem comma_not_mem (h : n.Plain) : ',' ∉ n.text := by
  intro hmem
  rcases List.mem_append.mp hmem with hmem | hmem
  · exact (word_chars n.head hmem).2.2.1 rfl
  · obtain ⟨part, hpart, hmem⟩ := List.mem_flatMap.mp hmem
    obtain ⟨hbefore, hbehind⟩ := h part hpart
    rcases List.mem_append.mp hmem with hmem | hmem
    · exact absurd (hbefore.blank ',' hmem) (by decide)
    · rcases List.mem_cons.mp hmem with heq | hmem
      · exact absurd heq (by decide)
      · rcases List.mem_append.mp hmem with hmem | hmem
        · exact absurd (hbehind.blank ',' hmem) (by decide)
        · exact (word_chars part.2.2 hmem).2.2.1 rfl

theorem solid_word (w : JavaWord) : Solid w.text :=
  solid_of_free w.ne_nil fun _ hc => (word_chars w hc).1

theorem solid_text : Solid n.text := by
  have htail : ∀ (tail : List (Spacing × Spacing × JavaWord)) (front : List Char), Solid front →
      Solid (front ++ tailText tail) := by
    intro tail
    induction tail with
    | nil =>
      intro front hfront
      rwa [tailText, List.flatMap_nil, List.append_nil]
    | cons part tail ih =>
      intro front hfront
      have hpart := hfront.append (part.1.text ++ '.' :: part.2.1.text) (solid_word part.2.2)
      have heq : front ++ tailText (part :: tail) =
          front ++ (part.1.text ++ '.' :: part.2.1.text) ++ part.2.2.text ++ tailText tail := by
        rw [tailText, List.flatMap_cons, tailText]
        simp only [List.append_assoc, List.cons_append]
      rw [heq]
      exact ih _ hpart
  exact htail n.tail _ (solid_word n.head)

end LaidName

/-! ## The body of a directive -/

theorem trimEndMatches_append_singleton {x : List Char} {d c : Char} (hd : d ≠ c) :
    trimEndMatches c (x ++ [d] ++ [c]) = x ++ [d] := by
  rw [trimEndMatches, List.rdropWhile_concat_pos _ _ _ (by simp), List.rdropWhile_concat_neg _ _ _ (by simpa using hd)]

/-- The keyword and the semicolon are taken off. -/
theorem directiveBody_eq {keyword : String} {body : List Char} (hkeyword : Solid keyword.toList)
    (hlast : ∃ front c, keyword.toList ++ body = front ++ [c] ∧ c ≠ ';') :
    directiveBody keyword (trim (keyword.toList ++ (body ++ [';']))) = some (trim body) := by
  obtain ⟨front, c, heq, hc⟩ := hlast
  have htext : trim (keyword.toList ++ (body ++ [';'])) = keyword.toList ++ body ++ [';'] := by
    have hsolid := (hkeyword.append body (solid_singleton (by decide : isWhitespace ';' = false))).trim_eq
    rwa [List.append_assoc] at hsolid ⊢
  have htrim : trim (keyword.toList ++ body ++ [';']) = keyword.toList ++ body ++ [';'] := by
    rw [← htext, trim_trim]
  rw [directiveBody, htext, htrim, heq, trimEndMatches_append_singleton hc, ← heq,
    List.dropPrefix?_append_of_beq _ (by simp)]
  rfl

theorem solid_keyword (kind : ClauseKind) : Solid kind.keyword.toList := by
  cases kind <;> exact solid_of_free (by simp [ClauseKind.keyword]) (by simp [ClauseKind.keyword, isWhitespace])

theorem solid_requires : Solid "requires".toList :=
  solid_of_free (by simp) (by simp [isWhitespace])

/-- Whatever stands before the semicolon, it does not end with one. -/
theorem last_of_spacing {x : List Char} {s : Spacing} (hx : ∃ front c, x = front ++ [c] ∧ c ≠ ';') :
    ∃ front c, x ++ s.text = front ++ [c] ∧ c ≠ ';' := by
  rcases List.eq_nil_or_concat s with rfl | ⟨s, t, rfl⟩
  · obtain ⟨front, c, rfl, hc⟩ := hx
    exact ⟨front, c, by rw [Spacing.text, List.flatMap_nil, List.append_nil], hc⟩
  · obtain ⟨front, c, heq, hc⟩ := t.getLast_text
    refine ⟨x ++ s.flatMap Trivia.text ++ front, c, ?_, hc⟩
    rw [Spacing.text, List.concat_eq_append, List.flatMap_append, List.flatMap_singleton, heq]
    simp only [List.append_assoc]

theorem last_of_name (x : List Char) (n : LaidName) : ∃ front c, x ++ n.text = front ++ [c] ∧ c ≠ ';' := by
  have hword : ∀ w : JavaWord, ∃ front c, w.text = front ++ [c] ∧ c ≠ ';' := fun w => by
    rcases List.eq_nil_or_concat w.text with hnil | ⟨front, c, hw⟩
    · exact absurd hnil w.ne_nil
    · rw [List.concat_eq_append] at hw
      have hchar := w.chars c (by rw [hw]; simp)
      exact ⟨front, c, hw, ne_of_test hchar (by decide)⟩
  rw [LaidName.text]
  rcases List.eq_nil_or_concat n.tail with hnil | ⟨tail, part, htail⟩
  · obtain ⟨front, c, hw, hc⟩ := hword n.head
    exact ⟨x ++ front, c, by rw [hnil, hw]; simp [LaidName.tailText], hc⟩
  · obtain ⟨front, c, hw, hc⟩ := hword part.2.2
    refine ⟨x ++ n.head.text ++ LaidName.tailText tail ++ part.1.text ++ '.' :: (part.2.1.text ++ front), c, ?_, hc⟩
    rw [htail, List.concat_eq_append, LaidName.tailText, List.flatMap_append, List.flatMap_singleton, hw,
      LaidName.tailText]
    simp only [List.append_assoc, List.cons_append]

/-! ## `requires` -/

namespace LaidRequires

variable {d : LaidRequires}

theorem parse_text : parseRequiresDirective (trim (LaidDirective.requires d).text) =
    ((words d.body).find? fun token => !isRequiresModifier token).map fun moduleName =>
      ⟨moduleName, (words d.body).contains "static".toList, (words d.body).contains "transitive".toList⟩ := by
  have hlast : ∃ front c, "requires".toList ++ d.body = front ++ [c] ∧ c ≠ ';' := by
    have hname := @last_of_spacing _ d.stop
      (last_of_name ("requires".toList ++ modifiersText d.modifiers ++ d.lead.text) d.module)
    rw [body]
    simpa only [List.append_assoc] using hname
  have htext : (LaidDirective.requires d).text = "requires".toList ++ (d.body ++ [';']) := rfl
  rw [parseRequiresDirective, htext, directiveBody_eq solid_requires hlast, Option.bind_some, words_trim]

theorem modifier_word_free (m : RequiresModifier) :
    m.word.toList ≠ [] ∧ ∀ c ∈ m.word.toList, isWhitespace c = false := by
  cases m <;> simp [RequiresModifier.word, isWhitespace]

theorem isRequiresModifier_word (m : RequiresModifier) : isRequiresModifier m.word.toList = true := by
  cases m <;> decide +kernel

theorem isRequiresModifier_iff {w : List Char} :
    isRequiresModifier w = true ↔ ∃ m : RequiresModifier, w = m.word.toList := by
  constructor
  · intro h
    rw [isRequiresModifier, List.contains_iff_mem, List.mem_cons, List.mem_singleton] at h
    rcases h with rfl | rfl
    · exact ⟨.static, rfl⟩
    · exact ⟨.transitive, rfl⟩
  · rintro ⟨m, rfl⟩
    exact isRequiresModifier_word m

/-- A word with a character of another kind is no modifier. -/
theorem not_modifier_of_mem {w : List Char} {c : Char} (hc : c = '/' ∨ c = '.') (hmem : c ∈ w) :
    (!isRequiresModifier w) = true := by
  cases hw : isRequiresModifier w with
  | false => rfl
  | true =>
    obtain ⟨m, rfl⟩ := isRequiresModifier_iff.mp hw
    rcases hc with rfl | rfl <;> cases m <;> exact absurd hmem (by simp [RequiresModifier.word])

variable {modifiers : List (Spacing × RequiresModifier)} {lead : Spacing}

theorem modifiersText_cons (m : Spacing × RequiresModifier) (modifiers : List (Spacing × RequiresModifier)) :
    modifiersText (m :: modifiers) = m.1.text ++ (m.2.word.toList ++ modifiersText modifiers) := by
  rw [modifiersText, List.flatMap_cons, List.append_assoc, modifiersText]

theorem head_modifiersText (happart : (∀ m ∈ modifiers, m.1 ≠ []) ∧ lead ≠ []) (y : List Char) :
    ∃ c rest, modifiersText modifiers ++ (lead.text ++ y) = c :: rest ∧ (isWhitespace c = true ∨ c = '/') := by
  cases modifiers with
  | nil =>
    obtain ⟨c, rest, htext, hc⟩ := Spacing.head_text happart.2
    exact ⟨c, rest ++ y, by rw [htext]; rfl, hc⟩
  | cons m modifiers =>
    obtain ⟨c, rest, htext, hc⟩ := Spacing.head_text (happart.1 m List.mem_cons_self)
    exact ⟨c, _, by rw [modifiersText_cons, htext]; simp only [List.cons_append]; rfl, hc⟩

/-- Without comments in front of it the name follows the modifiers, each a word. -/
theorem words_modifiersText (happart : (∀ m ∈ modifiers, m.1 ≠ []) ∧ lead ≠ [])
    (hplain : (∀ m ∈ modifiers, m.1.Plain) ∧ lead.Plain) (y : List Char) :
    words (modifiersText modifiers ++ (lead.text ++ y)) = (modifiers.map fun m => m.2.word.toList) ++ words y := by
  induction modifiers with
  | nil => exact words_blank_append hplain.2.blank y
  | cons m modifiers ih =>
    have happart' : (∀ m ∈ modifiers, m.1 ≠ []) ∧ lead ≠ [] :=
      ⟨fun m' hm' => happart.1 m' (List.mem_cons_of_mem _ hm'), happart.2⟩
    have hplain' : (∀ m ∈ modifiers, m.1.Plain) ∧ lead.Plain :=
      ⟨fun m' hm' => hplain.1 m' (List.mem_cons_of_mem _ hm'), hplain.2⟩
    have hhead : ∀ c ∈ (modifiersText modifiers ++ (lead.text ++ y)).head?, isWhitespace c = true := by
      intro c hc
      cases modifiers with
      | nil =>
        obtain ⟨d, rest, htext, -⟩ := Spacing.head_text happart.2
        rw [modifiersText, List.flatMap_nil, List.nil_append, htext] at hc
        obtain rfl := Option.some.inj hc
        exact hplain.2.blank d (by rw [htext]; exact List.mem_cons_self)
      | cons m' modifiers =>
        obtain ⟨d, rest, htext, -⟩ := Spacing.head_text (happart'.1 m' List.mem_cons_self)
        rw [modifiersText_cons, htext] at hc
        obtain rfl := Option.some.inj hc
        exact (hplain'.1 m' List.mem_cons_self).blank d (by rw [htext]; exact List.mem_cons_self)
    rw [modifiersText_cons, List.append_assoc, List.append_assoc,
      words_blank_append (hplain.1 m List.mem_cons_self).blank, words_append_of_head _ hhead, ih happart' hplain',
      words_of_free (modifier_word_free m.2).1 (modifier_word_free m.2).2]
    rfl

/-- Up to the first comment there are modifiers only. -/
theorem exists_slash (happart : (∀ m ∈ modifiers, m.1 ≠ []) ∧ lead ≠ [])
    (hnot : ¬((∀ m ∈ modifiers, m.1.Plain) ∧ lead.Plain)) (y : List Char) :
    ∃ x z, modifiersText modifiers ++ (lead.text ++ y) = x ++ '/' :: z ∧ '/' ∉ x ∧
      ∀ w ∈ words x, isRequiresModifier w = true := by
  have hblank : ∀ b, Blank b → '/' ∉ b ∧ ∀ w ∈ words b, isRequiresModifier w = true := fun b hb => by
    refine ⟨fun hmem => absurd (hb '/' hmem) (by decide), fun w hw => ?_⟩
    rw [words_of_blank hb] at hw
    exact absurd hw List.not_mem_nil
  induction modifiers with
  | nil =>
    have hlead : ¬lead.Plain := fun h => hnot ⟨fun m hm => absurd hm List.not_mem_nil, h⟩
    obtain ⟨b, rest, htext, hb⟩ := Spacing.exists_slash hlead
    exact ⟨b, rest ++ y, by rw [htext]; simp [modifiersText], hblank b hb⟩
  | cons m modifiers ih =>
    by_cases hm : m.1.Plain
    · have happart' : (∀ m ∈ modifiers, m.1 ≠ []) ∧ lead ≠ [] :=
        ⟨fun m' hm' => happart.1 m' (List.mem_cons_of_mem _ hm'), happart.2⟩
      obtain ⟨x, z, htext, hslash, hx⟩ := ih happart' fun h =>
        hnot ⟨List.forall_mem_cons.mpr ⟨hm, h.1⟩, h.2⟩
      have hhead : ∀ c ∈ x.head?, isWhitespace c = true := by
        intro c hc
        cases x with
        | nil => cases hc
        | cons d x =>
          obtain rfl := Option.some.inj hc
          obtain ⟨e, rest, hfirst, he⟩ := head_modifiersText happart' y
          rw [hfirst, List.cons_append] at htext
          obtain ⟨rfl, -⟩ := List.cons.inj htext
          rcases he with he | rfl
          · exact he
          · exact absurd List.mem_cons_self hslash
      refine ⟨m.1.text ++ (m.2.word.toList ++ x), z, ?_, ?_, ?_⟩
      · rw [modifiersText_cons, List.append_assoc, List.append_assoc, htext]
        simp only [List.append_assoc]
      · rw [List.mem_append, List.mem_append, not_or, not_or]
        refine ⟨(hblank _ hm.blank).1, fun hmem => ?_, hslash⟩
        have hword := not_modifier_of_mem (.inl rfl) hmem
        rw [isRequiresModifier_word] at hword
        cases hword
      · rw [words_blank_append hm.blank, words_append_of_head _ hhead,
          words_of_free (modifier_word_free m.2).1 (modifier_word_free m.2).2]
        intro w hw
        rcases List.mem_append.mp hw with hw | hw
        · rw [List.mem_singleton.mp hw]
          exact isRequiresModifier_word m.2
        · exact hx w hw
    · obtain ⟨b, rest, htext, hb⟩ := Spacing.exists_slash hm
      exact ⟨b, _, by rw [modifiersText_cons, htext]; simp only [List.append_assoc, List.cons_append]; rfl, hblank b hb⟩

variable {n : LaidName} {stop : Spacing}

theorem tail_of_not_mem (h : '.' ∉ n.name) : n.tail = [] := by
  cases htail : n.tail with
  | nil => rfl
  | cons part tail =>
    refine absurd ?_ h
    rw [LaidName.name, htail, LaidName.tailName, List.flatMap_cons]
    simp

/-- Of all names only that of the module `transitive` is a modifier; `static` is reserved. -/
theorem name_not_modifier (hname : n.name ≠ "transitive".toList) : isRequiresModifier n.name = false := by
  by_contra hcon
  obtain ⟨m, hm⟩ := isRequiresModifier_iff.mp (by simpa using hcon)
  cases m with
  | transitive => exact hname hm
  | static =>
    have htail := tail_of_not_mem (n := n) (by rw [hm]; simp [RequiresModifier.word])
    rw [LaidName.name, htail, LaidName.tailName, List.flatMap_nil, List.append_nil] at hm
    refine n.head.unreserved ?_
    rw [hm, RequiresModifier.word, String.ofList_toList]
    decide +kernel

/-- A text that goes on behind its first word goes on with a blank. -/
theorem first_word (x : List Char) : ∃ w rest, x = w ++ rest ∧ (∀ c ∈ w, isWhitespace c = false) ∧
    (∀ c ∈ rest.head?, isWhitespace c = true) ∧ words x = wordOf w ++ words rest := by
  refine ⟨_, _, List.takeWhile_append_dropWhile.symm, fun c hc => ?_, fun c hc => ?_, words_front x⟩
  · simpa using List.mem_takeWhile_imp hc
  · have hhead := List.head?_dropWhile_not (fun c => !isWhitespace c) x
    rw [Option.mem_def.mp hc] at hhead
    simpa using hhead

theorem startsPlain_iff : stop.StartsPlain ↔ ∀ c ∈ stop.text.head?, isWhitespace c = true := by
  cases stop with
  | nil => exact iff_of_true (fun t ht => by cases ht) fun c hc => by cases hc
  | cons t stop =>
    cases ht : t.isBlank with
    | true =>
      refine iff_of_true (fun t' ht' => by cases ht'; exact ht) fun c hc => ?_
      cases t with
      | blank d hd =>
        obtain rfl := Option.some.inj hc
        exact (isJavaBlank_cases hd).1
      | blockComment text h => cases ht
      | lineComment text stop h => cases ht
    | false =>
      obtain ⟨rest, hrest⟩ := Trivia.text_of_comment ht
      refine iff_of_false (fun h => ?_) fun h => ?_
      · have hblank := h t rfl
        rw [ht] at hblank
        cases hblank
      · have hslash := h '/' (by rw [Spacing.text_cons, hrest]; rfl)
        exact absurd hslash (by decide)

theorem head_tailText (tail : List (Spacing × Spacing × JavaWord)) (stop : Spacing) :
    ∀ c ∈ (LaidName.tailText tail ++ stop.text).head?, isWhitespace c = true ∨ c = '/' ∨ c = '.' := by
  have hspacing : ∀ (s : Spacing) (y : List Char), s ≠ [] → ∀ c ∈ (s.text ++ y).head?,
      isWhitespace c = true ∨ c = '/' ∨ c = '.' := fun s y hs c hc => by
    obtain ⟨d, rest, htext, hd⟩ := Spacing.head_text hs
    rw [htext] at hc
    obtain rfl := Option.some.inj hc
    exact hd.imp_right .inl
  intro c hc
  cases tail with
  | nil =>
    by_cases hs : stop = []
    · rw [hs] at hc
      cases hc
    · exact hspacing stop [] hs c (by rwa [List.append_nil])
  | cons part tail =>
    rw [LaidName.tailText, List.flatMap_cons, List.append_assoc, List.append_assoc] at hc
    by_cases hs : part.1 = []
    · rw [hs] at hc
      obtain rfl := Option.some.inj hc
      exact .inr (.inr rfl)
    · exact hspacing part.1 _ hs c hc

/-- A modifier in front of what is read is the whole first identifier. -/
theorem head_of_first_modifier {w rest y : List Char} (heq : n.head.text ++ y = w ++ rest)
    (hy : ∀ c ∈ y.head?, isWhitespace c = true ∨ c = '/' ∨ c = '.') (hfree : ∀ c ∈ w, isWhitespace c = false)
    (hrest : ∀ c ∈ rest.head?, isWhitespace c = true) (hw : isRequiresModifier w = true) :
    w = n.head.text ∧ y = rest := by
  rcases List.append_eq_append_iff.mp heq with ⟨more, rfl, rfl⟩ | ⟨more, hhead, rfl⟩
  · cases more with
    | nil => exact ⟨List.append_nil _, rfl⟩
    | cons c more =>
      have hmem : c ∈ n.head.text ++ c :: more := by simp
      rcases hy c rfl with hc | hc
      · rw [hfree c hmem] at hc
        cases hc
      · have hnot := not_modifier_of_mem hc hmem
        rw [hw] at hnot
        cases hnot
  · cases more with
    | nil => exact ⟨by rw [hhead, List.append_nil], rfl⟩
    | cons c more =>
      have hc := (LaidName.word_chars n.head (c := c) (by rw [hhead]; simp)).1
      rw [hrest c rfl] at hc
      cases hc

theorem exists_mark {tail : List (Spacing × Spacing × JavaWord)} (hne : tail ≠ []) (y : List Char) :
    ∃ b c z, LaidName.tailText tail ++ y = b ++ c :: z ∧ Blank b ∧ (c = '/' ∨ c = '.') := by
  obtain ⟨part, tail, rfl⟩ := List.exists_cons_of_ne_nil hne
  rw [LaidName.tailText, List.flatMap_cons]
  by_cases hs : part.1.Plain
  · exact ⟨part.1.text, '.', _, by simp only [List.append_assoc, List.cons_append]; rfl, hs.blank, .inr rfl⟩
  · obtain ⟨b, z, htext, hb⟩ := Spacing.exists_slash hs
    exact ⟨b, '/', _, by rw [htext]; simp only [List.append_assoc, List.cons_append]; rfl, hb, .inl rfl⟩

theorem name_cons (n : LaidName) : ∃ c rest, n.head.text = c :: rest ∧ isWhitespace c = false ∧ c ≠ '/' ∧ c ≠ '.' := by
  obtain ⟨c, rest, hhead⟩ := List.exists_cons_of_ne_nil n.head.ne_nil
  obtain ⟨hblank, hslash, -, hdot⟩ := LaidName.word_chars n.head (hhead ▸ List.mem_cons_self)
  exact ⟨c, rest, hhead, hblank, hslash, hdot⟩

/-- Behind a modifier that begins a longer name, what is read does not begin as the name does. -/
theorem find_ne_of_first_modifier (hname : n.name ≠ "transitive".toList) {w rest : List Char}
    (heq : n.text ++ stop.text = w ++ rest) (hfree : ∀ c ∈ w, isWhitespace c = false)
    (hrest : ∀ c ∈ rest.head?, isWhitespace c = true) (hw : isRequiresModifier w = true) :
    (wordOf w ++ words rest).find? (fun token => !isRequiresModifier token) ≠ some n.name := by
  rw [LaidName.text, List.append_assoc] at heq
  obtain ⟨rfl, rfl⟩ := head_of_first_modifier heq (head_tailText n.tail stop) hfree hrest hw
  have hlonger : n.tail ≠ [] := fun htail => by
    have hnot := name_not_modifier hname
    rw [LaidName.name, htail, LaidName.tailName, List.flatMap_nil, List.append_nil, hw] at hnot
    cases hnot
  obtain ⟨b, c, z, htext, hb, hc⟩ := exists_mark hlonger stop.text
  have hfirst : isWhitespace c = false := by rcases hc with rfl | rfl <;> decide
  intro h
  rw [wordOf, if_neg n.head.ne_nil, List.singleton_append, List.find?_cons_of_neg (by simpa using hw), htext,
    words_blank_append hb, words_cons_of_free hfirst,
    List.find?_cons_of_pos (p := fun token => !isRequiresModifier token)
      (not_modifier_of_mem hc List.mem_cons_self)] at h
  obtain ⟨d, more, hhead, -, hslash, hdot⟩ := name_cons n
  rw [LaidName.name, hhead, List.cons_append] at h
  obtain ⟨rfl, -⟩ := List.cons.inj (Option.some.inj h)
  rcases hc with rfl | rfl
  · exact hslash rfl
  · exact hdot rfl

/-- The name behind the modifiers is read exactly where no dot has anything around it and the name stands alone. -/
theorem find_name_iff (hname : n.name ≠ "transitive".toList) :
    (words (n.text ++ stop.text)).find? (fun token => !isRequiresModifier token) = some n.name ↔
      n.Joined ∧ stop.StartsPlain := by
  constructor
  · intro h
    obtain ⟨w, rest, heq, hfree, hrest, hwords⟩ := first_word (n.text ++ stop.text)
    rw [hwords] at h
    by_cases hw : isRequiresModifier w = true
    · exact absurd h (find_ne_of_first_modifier hname heq hfree hrest hw)
    · have hne : w ≠ [] := by
        rintro rfl
        obtain ⟨c, more, hhead, hblank, -⟩ := name_cons n
        have hc := hrest c (by rw [← List.nil_append rest, ← heq, LaidName.text, hhead]; rfl)
        rw [hblank] at hc
        cases hc
      rw [wordOf, if_neg hne, List.singleton_append, List.find?_cons_of_pos (by simpa using hw)] at h
      obtain rfl := Option.some.inj h
      have hjoined := LaidName.joined_of_append_eq heq
      refine ⟨hjoined, startsPlain_iff.mpr ?_⟩
      rw [LaidName.text_of_joined hjoined] at heq
      rwa [List.append_cancel_left heq]
  · rintro ⟨hjoined, hstop⟩
    rw [LaidName.text_of_joined hjoined, words_append_of_head _ (startsPlain_iff.mp hstop),
      words_of_free LaidName.name_ne_nil LaidName.name_free, List.singleton_append,
      List.find?_cons_of_pos (by rw [name_not_modifier hname]; rfl)]

/-- What the words mean. -/
def declared (d : LaidRequires) : JavaModuleRequires where
  moduleName := d.module.name
  isStatic := (d.modifiers.map fun m => m.2.word.toList).contains "static".toList
  isTransitive := (d.modifiers.map fun m => m.2.word.toList).contains "transitive".toList

/-- There are no comments in front of the name, nothing around its dots and nothing but white space directly behind it;
what is farther behind has no modifier that the directive lacks among its words. Where the name is no name for the
reader, there are no comments. -/
def Clean (d : LaidRequires) : Prop :=
  ((∀ m ∈ d.modifiers, m.1.Plain) ∧ d.lead.Plain) ∧
    if d.module.name = "transitive".toList then d.stop.Plain
    else (d.module.Joined ∧ d.stop.StartsPlain) ∧
      ∀ m : RequiresModifier, m.word.toList ∈ words d.stop.text →
        m.word.toList ∈ d.modifiers.map fun m => m.2.word.toList

theorem parse_of_slash (hnot : ¬((∀ m ∈ d.modifiers, m.1.Plain) ∧ d.lead.Plain)) :
    ∃ r, parseRequiresDirective (trim (LaidDirective.requires d).text) = some r ∧ '/' ∈ r.moduleName := by
  obtain ⟨x, z, htext, -, hx⟩ := exists_slash d.apart hnot (d.module.text ++ d.stop.text)
  obtain ⟨w, hw, hmem⟩ := @find_words_around (fun token => !isRequiresModifier token) x '/' (by decide) z
    (fun w hw => by rw [hx w hw]; rfl) fun w hmem => not_modifier_of_mem (.inl rfl) hmem
  have hbody : d.body = x ++ '/' :: z := htext
  refine ⟨_, by rw [parse_text, hbody, hw, Option.map_some], hmem⟩

theorem contains_of_joined (hplain : (∀ m ∈ d.modifiers, m.1.Plain) ∧ d.lead.Plain) (m : RequiresModifier)
    (hname : d.module.name ≠ "transitive".toList) (h : d.module.Joined ∧ d.stop.StartsPlain) :
    (words d.body).contains m.word.toList = (d.modifiers.map fun m => m.2.word.toList).contains m.word.toList ↔
      (m.word.toList ∈ words d.stop.text → m.word.toList ∈ d.modifiers.map fun m => m.2.word.toList) := by
  have hne : m.word.toList ≠ d.module.name := fun heq => by
    have hnot := name_not_modifier hname
    rw [← heq, isRequiresModifier_word] at hnot
    cases hnot
  rw [body, words_modifiersText d.apart hplain, LaidName.text_of_joined h.1,
    words_append_of_head _ (startsPlain_iff.mp h.2), words_of_free LaidName.name_ne_nil LaidName.name_free,
    Bool.eq_iff_iff, List.contains_iff_mem, List.contains_iff_mem, List.mem_append, List.mem_append, List.mem_singleton]
  tauto

theorem find_modifiers (modifiers : List (Spacing × RequiresModifier)) :
    (modifiers.map fun m => m.2.word.toList).find? (fun token => !isRequiresModifier token) = none := by
  rw [List.find?_eq_none]
  intro w hw
  obtain ⟨m, -, rfl⟩ := List.mem_map.mp hw
  rw [isRequiresModifier_word]
  exact Bool.false_ne_true

theorem parse_squeeze : parseRequiresDirective (trim (LaidDirective.requires d.squeeze).text) =
    if d.module.name = "transitive".toList then none else some d.declared := by
  have hplain : (∀ m ∈ d.squeeze.modifiers, m.1.Plain) ∧ d.squeeze.lead.Plain := by
    refine ⟨fun m hm => ?_, Spacing.plain_space⟩
    obtain ⟨m', -, rfl⟩ := List.mem_map.mp hm
    exact Spacing.plain_space
  have hmodifiers : (d.squeeze.modifiers.map fun m => m.2.word.toList) = d.modifiers.map fun m => m.2.word.toList := by
    rw [squeeze, List.map_map]
    rfl
  have hwords : words d.squeeze.body = (d.modifiers.map fun m => m.2.word.toList) ++ [d.module.name] := by
    rw [body, words_modifiersText d.squeeze.apart hplain, hmodifiers]
    have hname : d.squeeze.module.text ++ d.squeeze.stop.text = d.module.name := by
      rw [squeeze, LaidName.text_of_joined (LaidName.joined_join _), LaidName.name_join]
      exact List.append_nil _
    rw [hname, words_of_free LaidName.name_ne_nil LaidName.name_free]
  rw [parse_text, hwords, List.find?_append, find_modifiers, Option.none_or]
  split
  · rename_i hname
    rw [hname, List.find?_cons_of_neg (by decide +kernel), List.find?_nil, Option.map_none]
  · rename_i hname
    have hnot := name_not_modifier hname
    have hflag : ∀ m : RequiresModifier, ((d.modifiers.map fun m => m.2.word.toList) ++ [d.module.name]).contains
        m.word.toList = (d.modifiers.map fun m => m.2.word.toList).contains m.word.toList := fun m => by
      have hne : m.word.toList ≠ d.module.name := fun heq => by
        rw [← heq, isRequiresModifier_word] at hnot
        cases hnot
      rw [Bool.eq_iff_iff, List.contains_iff_mem, List.contains_iff_mem, List.mem_append, List.mem_singleton]
      exact or_iff_left hne
    rw [List.find?_cons_of_pos (by rw [hnot]; rfl), Option.map_some]
    exact congrArg some (congrArg₂ (JavaModuleRequires.mk _) (hflag .static) (hflag .transitive))

theorem find_body (hplain : (∀ m ∈ d.modifiers, m.1.Plain) ∧ d.lead.Plain) :
    (words d.body).find? (fun token => !isRequiresModifier token) =
      (words (d.module.text ++ d.stop.text)).find? fun token => !isRequiresModifier token := by
  rw [body, words_modifiersText d.apart hplain, List.find?_append, find_modifiers, Option.none_or]

/-- The module `transitive` is read, as another one, exactly where a comment follows. -/
theorem find_transitive_iff (hname : n.name = "transitive".toList) :
    (words (n.text ++ stop.text)).find? (fun token => !isRequiresModifier token) = none ↔ stop.Plain := by
  have htail : n.tail = [] := tail_of_not_mem (by rw [hname]; simp)
  have htext : n.text = "transitive".toList := by
    rw [← hname, LaidName.text_of_joined fun part hpart => absurd (htail ▸ hpart) List.not_mem_nil]
  have hmodifier : isRequiresModifier "transitive".toList = true := isRequiresModifier_word .transitive
  have hword : ∀ b, Blank b → words ("transitive".toList ++ b) = ["transitive".toList] := fun b hb => by
    rw [words_append_blank _ hb]
    exact words_of_free (modifier_word_free .transitive).1 (modifier_word_free .transitive).2
  constructor
  · intro h
    by_contra hstop
    obtain ⟨b, z, hslash, hb⟩ := Spacing.exists_slash hstop
    obtain ⟨w, hw, -⟩ := @find_words_around (fun token => !isRequiresModifier token) ("transitive".toList ++ b) '/'
      (by decide) z (fun w hw => by
        rw [hword b hb, List.mem_singleton] at hw
        rw [hw, hmodifier]
        rfl) fun w hmem => not_modifier_of_mem (.inl rfl) hmem
    rw [htext, hslash, ← List.append_assoc, hw] at h
    exact Option.some_ne_none _ h
  · intro h
    rw [htext, hword _ h.blank, List.find?_cons_of_neg (by rw [hmodifier]; exact Bool.false_ne_true), List.find?_nil]

/-- A directive is read as its words are exactly where its layout is clean. -/
theorem parse_eq_iff : parseRequiresDirective (trim (LaidDirective.requires d).text) =
    parseRequiresDirective (trim (LaidDirective.requires d.squeeze).text) ↔ d.Clean := by
  rw [parse_squeeze]
  by_cases hplain : (∀ m ∈ d.modifiers, m.1.Plain) ∧ d.lead.Plain
  · rw [Clean, and_iff_right hplain]
    split
    · rename_i hname
      rw [parse_text, find_body hplain, Option.map_eq_none_iff, find_transitive_iff hname]
    · rename_i hname
      rw [parse_text, Option.map_eq_some_iff, find_body hplain]
      constructor
      · rintro ⟨token, htoken, heq⟩
        have htoken' : token = d.module.name := congrArg JavaModuleRequires.moduleName heq
        rw [htoken', find_name_iff hname] at htoken
        refine ⟨htoken, fun m => (contains_of_joined hplain m hname htoken).mp ?_⟩
        cases m with
        | static => exact congrArg JavaModuleRequires.isStatic heq
        | transitive => exact congrArg JavaModuleRequires.isTransitive heq
      · rintro ⟨hname', hflags⟩
        refine ⟨d.module.name, (find_name_iff hname).mpr hname', ?_⟩
        exact congrArg₂ (JavaModuleRequires.mk _)
          ((contains_of_joined hplain .static hname hname').mpr (hflags .static))
          ((contains_of_joined hplain .transitive hname hname').mpr (hflags .transitive))
  · obtain ⟨r, hr, hslash⟩ := parse_of_slash hplain
    rw [hr]
    refine iff_of_false ?_ fun h => hplain h.1
    split
    · exact Option.some_ne_none _
    · intro h
      have hname := congrArg JavaModuleRequires.moduleName (Option.some.inj h)
      rw [hname] at hslash
      exact (LaidName.name_chars hslash).2.1 rfl

/-- In any layout a module is read for the directive, unless it is named `transitive`. -/
theorem parse_isSome (hname : d.module.name ≠ "transitive".toList) :
    (parseRequiresDirective (trim (LaidDirective.requires d).text)).isSome = true := by
  by_cases hplain : (∀ m ∈ d.modifiers, m.1.Plain) ∧ d.lead.Plain
  · have hmark : ∀ c, c = '/' ∨ c = '.' → c ∈ d.module.text ++ d.stop.text →
        ∃ w ∈ words (d.module.text ++ d.stop.text), (!isRequiresModifier w) = true := fun c hc hmem => by
      obtain ⟨w, hw, hcw⟩ := (exists_mem_words_iff (by rcases hc with rfl | rfl <;> decide)).mpr hmem
      exact ⟨w, hw, not_modifier_of_mem hc hcw⟩
    have hfound : ∃ w ∈ words (d.module.text ++ d.stop.text), (!isRequiresModifier w) = true := by
      by_cases hstop : d.stop.Plain
      · by_cases htail : d.module.tail = []
        · have hjoined : d.module.Joined := fun part hpart => absurd (htail ▸ hpart) List.not_mem_nil
          refine ⟨d.module.name, ?_, by rw [name_not_modifier hname]; rfl⟩
          rw [LaidName.text_of_joined hjoined, words_append_blank _ hstop.blank,
            words_of_free LaidName.name_ne_nil LaidName.name_free]
          exact List.mem_cons_self
        · obtain ⟨part, tail, htail⟩ := List.exists_cons_of_ne_nil htail
          refine hmark '.' (.inr rfl) ?_
          rw [LaidName.text, htail, LaidName.tailText, List.flatMap_cons]
          simp
      · obtain ⟨b, z, hslash, -⟩ := Spacing.exists_slash hstop
        exact hmark '/' (.inl rfl) (by rw [hslash]; simp)
    rw [parse_text, Option.isSome_map, find_body hplain, List.find?_isSome]
    exact hfound
  · obtain ⟨r, hr, -⟩ := parse_of_slash hplain
    rw [hr]
    rfl

end LaidRequires

end JavaAnalyzer.Language
