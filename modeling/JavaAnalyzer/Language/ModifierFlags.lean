import JavaAnalyzer.Language.Members

/-! # Flags and modifier keywords

The modifiers of a declaration are keywords and annotations in any order, with blanks and comments in
between. The flags are taken from all of that text, so a keyword's flag is also set by an annotation that
contains the word. -/

namespace JavaAnalyzer.Language
set_option autoImplicit false

/-! ## Words in a text -/

theorem containsText_iff {needle s : List Char} : containsText needle s = true ↔ needle <:+: s := by
  rw [containsText, List.any_eq_true, List.infix_iff_prefix_suffix]
  simp only [List.mem_tails, List.isPrefixOf_iff_prefix, and_comm]

/-- The texts do not meet in two letters. -/
def Apart (s t : List Char) : Prop :=
  ∀ c ∈ s.getLast?, ∀ d ∈ t.head?, ¬ (c.isAlpha ∧ d.isAlpha)

theorem apart_of_nonalpha_left {s t : List Char} {c : Char} (hc : c.isAlpha = false) :
    Apart (s ++ [c]) t := by
  intro d hd e _ h
  rw [List.getLast?_concat] at hd
  obtain rfl := Option.some.inj hd
  rw [hc] at h
  exact absurd h.1 Bool.false_ne_true

theorem apart_of_nonalpha_right {s t : List Char} {c : Char} (hc : c.isAlpha = false) :
    Apart s (c :: t) := by
  intro d _ e he h
  obtain rfl := Option.some.inj he
  rw [hc] at h
  exact absurd h.2 Bool.false_ne_true

theorem infix_append_iff_of_apart {word s t : List Char} (hword : ∀ c ∈ word, c.isAlpha)
    (hapart : Apart s t) : word <:+: s ++ t ↔ word <:+: s ∨ word <:+: t := by
  rw [List.infix_append_iff_ne_nil]
  refine ⟨?_, fun h => h.elim .inl fun h => .inr (.inl h)⟩
  rintro (h | h | ⟨front, back, hfront, hback, rfl, hs, ht⟩)
  · exact .inl h
  · exact .inr h
  · -- The word would lie across the place where the texts meet.
    have hlast : s.getLast? = some (front.getLast hfront) := by
      obtain ⟨s', rfl⟩ := hs
      rw [List.getLast?_append_of_ne_nil _ hfront, List.getLast?_eq_some_getLast hfront]
    have hhead : t.head? = some (back.head hback) := by
      obtain ⟨t', rfl⟩ := ht
      rw [List.head?_append_of_ne_nil _ hback, List.head?_eq_some_head hback]
    exact absurd ⟨hword _ (List.mem_append_left _ (List.getLast_mem hfront)),
      hword _ (List.mem_append_right _ (List.head_mem hback))⟩ (hapart _ hlast _ hhead)

theorem infix_cons_iff_of_nonalpha {word t : List Char} {c : Char} (hword : ∀ c ∈ word, c.isAlpha)
    (hne : word ≠ []) (hc : c.isAlpha = false) : word <:+: c :: t ↔ word <:+: t := by
  refine ⟨fun h => ?_, List.infix_cons⟩
  rcases List.infix_cons_iff.mp h with hprefix | h
  · obtain ⟨d, rest, rfl⟩ := List.exists_cons_of_ne_nil hne
    have hd := hword d List.mem_cons_self
    rw [(List.cons_prefix_cons.mp hprefix).1, hc] at hd
    exact absurd hd Bool.false_ne_true
  · exact h

/-! ## Modifiers -/

/-- The keywords of a `modifiers` node. -/
inductive Modifier where
  | publicWord
  | protectedWord
  | privateWord
  | abstractWord
  | staticWord
  | finalWord
  | strictfpWord
  | defaultWord
  | synchronizedWord
  | nativeWord
  | transientWord
  | volatileWord
  | sealedWord
  | nonSealedWord
deriving DecidableEq, Repr

namespace Modifier

def all : List Modifier :=
  [publicWord, protectedWord, privateWord, abstractWord, staticWord, finalWord, strictfpWord, defaultWord,
    synchronizedWord, nativeWord, transientWord, volatileWord, sealedWord, nonSealedWord]

def text : Modifier → String
  | publicWord => "public"
  | protectedWord => "protected"
  | privateWord => "private"
  | abstractWord => "abstract"
  | staticWord => "static"
  | finalWord => "final"
  | strictfpWord => "strictfp"
  | defaultWord => "default"
  | synchronizedWord => "synchronized"
  | nativeWord => "native"
  | transientWord => "transient"
  | volatileWord => "volatile"
  | sealedWord => "sealed"
  | nonSealedWord => "non-sealed"

/-- The flag of a keyword that has one. -/
def flag : Modifier → Option UInt16
  | publicWord => some accPublic
  | protectedWord => some accProtected
  | privateWord => some accPrivate
  | abstractWord => some accAbstract
  | staticWord => some accStatic
  | finalWord => some accFinal
  | _ => none

end Modifier

/-- A part of the modifiers: a keyword, an annotation, or the blanks and comments in between. -/
inductive ModifierPiece where
  | keyword (word : Modifier)
  | anno (name : List Char) (arguments : Option (List Char))
  | gap (text : List Char)
deriving DecidableEq, Repr

namespace ModifierPiece

def text : ModifierPiece → List Char
  | keyword word => word.text.toList
  | anno name none => '@' :: name
  | anno name (some arguments) => '@' :: name ++ '(' :: arguments ++ [')']
  | gap text => text

/-- The texts of a piece that are no keywords. -/
def strayTexts : ModifierPiece → List (List Char)
  | keyword _ => []
  | anno name arguments => name :: arguments.toList
  | gap text => [text]

def textOf (pieces : List ModifierPiece) : List Char :=
  pieces.flatMap text

/-- Where a piece ends, no letter meets a letter. -/
def Separated : List ModifierPiece → Prop
  | [] => True
  | piece :: pieces => Apart piece.text (textOf pieces) ∧ Separated pieces

end ModifierPiece

/-- The text of a `modifiers` node. -/
structure ModifiersText where
  pieces : List ModifierPiece
  separated : ModifierPiece.Separated pieces

namespace ModifiersText

def text (modifiers : ModifiersText) : String :=
  String.ofList (ModifierPiece.textOf modifiers.pieces)

/-- The keyword is one of the tokens. -/
def Has (modifiers : ModifiersText) (word : Modifier) : Prop :=
  .keyword word ∈ modifiers.pieces

/-- The word stands in an annotation's name or arguments, or in a comment. -/
def Mentions (modifiers : ModifiersText) (word : Modifier) : Prop :=
  ∃ stray ∈ modifiers.pieces.flatMap ModifierPiece.strayTexts, word.text.toList <:+: stray

end ModifiersText

/-! ## Where a word occurs -/

namespace Modifier

theorem mem_all (word : Modifier) : word ∈ all := by
  cases word <;> decide

theorem isAlpha_of_flag {word : Modifier} (h : word.flag.isSome) :
    ∀ c ∈ word.text.toList, c.isAlpha := by
  have hall : word.text.toList.all Char.isAlpha = true := by
    cases word with
    | publicWord | protectedWord | privateWord | abstractWord | staticWord | finalWord => decide
    | _ => cases h
  exact List.all_eq_true.mp hall

/-- No keyword contains one that has a flag, except itself. -/
theorem text_infix_iff {word other : Modifier} (h : word.flag.isSome) :
    word.text.toList <:+: other.text.toList ↔ other = word := by
  have hall : ∀ other ∈ all, containsText word.text.toList other.text.toList = decide (other = word) := by
    cases word with
    | publicWord | protectedWord | privateWord | abstractWord | staticWord | finalWord => decide +kernel
    | _ => cases h
  rw [← containsText_iff, hall other other.mem_all, decide_eq_true_iff]

end Modifier

namespace ModifierPiece

/-- A piece contains a word that has a flag as its keyword, or beside the keywords. -/
theorem infix_text_iff {word : Modifier} (h : word.flag.isSome) (piece : ModifierPiece) :
    word.text.toList <:+: piece.text ↔
      piece = .keyword word ∨ ∃ stray ∈ piece.strayTexts, word.text.toList <:+: stray := by
  have hword := Modifier.isAlpha_of_flag h
  have hne : word.text.toList ≠ [] := by
    have hall : ∀ word ∈ Modifier.all, word.text.toList ≠ [] := by decide +kernel
    exact hall word word.mem_all
  have hcons := fun c t => infix_cons_iff_of_nonalpha (t := t) (c := c) hword hne
  cases piece with
  | keyword other =>
    simp only [text, strayTexts, List.not_mem_nil, false_and, exists_false, or_false, keyword.injEq]
    exact Modifier.text_infix_iff h
  | gap t => simp [text, strayTexts]
  | anno name arguments =>
    cases arguments with
    | none => simp [text, strayTexts, hcons '@' name (by decide)]
    | some arguments =>
      have hclose : word.text.toList <:+: arguments ++ [')'] ↔ word.text.toList <:+: arguments := by
        rw [infix_append_iff_of_apart hword (apart_of_nonalpha_right (by decide)),
          hcons ')' [] (by decide)]
        exact or_iff_left fun hnil => hne (List.eq_nil_of_infix_nil hnil)
      have htext : (anno name (some arguments)).text = '@' :: (name ++ '(' :: (arguments ++ [')'])) := by
        simp only [text, List.cons_append, List.append_assoc]
      rw [htext, hcons '@' _ (by decide), infix_append_iff_of_apart hword
        (apart_of_nonalpha_right (by decide)), hcons '(' _ (by decide), hclose]
      simp [strayTexts]

theorem infix_textOf_iff {word : Modifier} (h : word.flag.isSome) {pieces : List ModifierPiece}
    (hseparated : Separated pieces) :
    word.text.toList <:+: textOf pieces ↔ .keyword word ∈ pieces ∨
      ∃ stray ∈ pieces.flatMap strayTexts, word.text.toList <:+: stray := by
  induction pieces with
  | nil =>
    have hall : ∀ word ∈ Modifier.all, ¬ containsText word.text.toList [] := by decide +kernel
    simpa [textOf, containsText_iff] using hall word word.mem_all
  | cons piece pieces ih =>
    obtain ⟨hapart, hrest⟩ := hseparated
    have htext : textOf (piece :: pieces) = piece.text ++ textOf pieces := List.flatMap_cons ..
    rw [htext, infix_append_iff_of_apart (Modifier.isAlpha_of_flag h) hapart,
      infix_text_iff h, ih hrest, List.flatMap_cons]
    simp only [List.mem_cons, List.mem_append, or_and_right, exists_or, eq_comm (a := piece)]
    exact or_or_or_comm

end ModifierPiece

/-! ## The flags -/

/-- A flag is set exactly where the text contains the keyword. -/
theorem parseJavaModifiers_flag_iff {word : Modifier} {flag : UInt16} (h : word.flag = some flag)
    (text : String) :
    parseJavaModifiers text &&& flag ≠ 0 ↔ word.text.toList <:+: text.toList := by
  rw [← containsText_iff]
  simp only [parseJavaModifiers, flagsOfWords, List.foldl_cons, List.foldl_nil]
  cases word with
  | publicWord | protectedWord | privateWord | abstractWord | staticWord | finalWord =>
    obtain rfl := Option.some.inj h
    simp only [Modifier.text]
    generalize containsText "public".toList text.toList = b1
    generalize containsText "private".toList text.toList = b2
    generalize containsText "protected".toList text.toList = b3
    generalize containsText "static".toList text.toList = b4
    generalize containsText "final".toList text.toList = b5
    generalize containsText "abstract".toList text.toList = b6
    revert b1 b2 b3 b4 b5 b6
    decide
  | _ => cases h

theorem ModifiersText.flag_iff (modifiers : ModifiersText) {word : Modifier} {flag : UInt16}
    (h : word.flag = some flag) :
    parseJavaModifiers modifiers.text &&& flag ≠ 0 ↔ modifiers.Has word ∨ modifiers.Mentions word := by
  rw [parseJavaModifiers_flag_iff h, text, String.toList_ofList,
    ModifierPiece.infix_textOf_iff (Option.isSome_of_eq_some h) modifiers.separated]
  rfl

/-- The flags are those of the keywords exactly where no annotation or comment contains a flagged
keyword that is not among the modifiers itself. -/
theorem modifier_flags_right_iff (modifiers : ModifiersText) :
    (∀ word flag, Modifier.flag word = some flag →
        (parseJavaModifiers modifiers.text &&& flag ≠ 0 ↔ modifiers.Has word)) ↔
      ∀ word, (Modifier.flag word).isSome → modifiers.Mentions word → modifiers.Has word := by
  constructor
  · intro h word hflag hmentions
    obtain ⟨flag, hflag⟩ := Option.isSome_iff_exists.mp hflag
    exact (h word flag hflag).mp ((modifiers.flag_iff hflag).mpr (.inr hmentions))
  · intro h word flag hflag
    rw [modifiers.flag_iff hflag]
    exact or_iff_left_of_imp (h word (Option.isSome_of_eq_some hflag))

/-- `@SuppressWarnings("static-access") public` -/
def suppressedModifiers : ModifiersText where
  pieces := [.anno "SuppressWarnings".toList (some "\"static-access\"".toList), .gap [' '],
    .keyword .publicWord]
  separated := by
    refine ⟨apart_of_nonalpha_left (c := ')') (by decide), ?_⟩
    exact ⟨apart_of_nonalpha_left (s := []) (by decide), by simp [Apart, ModifierPiece.textOf],
      trivial⟩

/-- The word in the annotation's argument makes the member static. -/
theorem suppressed_modifiers_static :
    parseJavaModifiers suppressedModifiers.text &&& accStatic ≠ 0 ∧
      ¬ suppressedModifiers.Has .staticWord := by
  refine ⟨by decide +kernel, ?_⟩
  rw [ModifiersText.Has, suppressedModifiers]
  decide +kernel

end JavaAnalyzer.Language
