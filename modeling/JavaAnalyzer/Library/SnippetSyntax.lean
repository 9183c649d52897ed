import Mathlib.Data.List.Chain

/-! # Snippets

The snippet syntax of the language server protocol: a text with tab stops, placeholders and variables. A dollar sign, a
closing brace and a backslash can be escaped; a dollar sign that begins nothing stands for itself. Choices and variables
in braces are left out. -/

namespace JavaAnalyzer.SnippetSyntax
set_option autoImplicit false

inductive Part where
  | text (c : Char)
  | tabstop (number : ℕ)
  | placeholder (number : ℕ) (content : List Part)
  | name (chars : List Char)

/-- A letter, digit or underscore. -/
def isWordChar (c : Char) : Bool :=
  c.isAlphanum || c = '_'

/-- The list does not begin with such an element. -/
def NotNext (p : Char → Prop) (s : List Char) : Prop :=
  ∀ c, s.head? = some c → ¬ p c

/-- The parts of a text, up to the brace that closes the placeholder that the text stands in, or to its end. -/
inductive Reads : Bool → List Char → List Part → List Char → Prop
  | nil {inside : Bool} : Reads inside [] [] []
  | close {s : List Char} : Reads true ('}' :: s) [] ('}' :: s)
  | text {inside : Bool} {c : Char} {s rest : List Char} {parts : List Part} (hdollar : c ≠ '$') (hback : c ≠ '\\')
      (hclose : c = '}' → inside = false) (h : Reads inside s parts rest) :
      Reads inside (c :: s) (.text c :: parts) rest
  | escaped {inside : Bool} {c : Char} {s rest : List Char} {parts : List Part} (hc : c ∈ ['$', '}', '\\'])
      (h : Reads inside s parts rest) : Reads inside ('\\' :: c :: s) (.text c :: parts) rest
  | backslash {inside : Bool} {s rest : List Char} {parts : List Part} (hs : NotNext (· ∈ ['$', '}', '\\']) s)
      (h : Reads inside s parts rest) : Reads inside ('\\' :: s) (.text '\\' :: parts) rest
  | dollar {inside : Bool} {s rest : List Char} {parts : List Part} (hs : NotNext (fun c => c = '{' ∨ isWordChar c) s)
      (h : Reads inside s parts rest) : Reads inside ('$' :: s) (.text '$' :: parts) rest
  | tabstop {inside : Bool} {digits s rest : List Char} {parts : List Part} (hne : digits ≠ [])
      (hdigits : ∀ d ∈ digits, d.isDigit = true) (hs : NotNext (fun c => c.isDigit = true) s)
      (h : Reads inside s parts rest) :
      Reads inside ('$' :: (digits ++ s)) (.tabstop (Nat.ofDigitChars 10 digits 0) :: parts) rest
  | name {inside : Bool} {c : Char} {chars s rest : List Char} {parts : List Part} (hc : c.isDigit = false)
      (hname : ∀ d ∈ c :: chars, isWordChar d = true) (hs : NotNext (fun c => isWordChar c = true) s)
      (h : Reads inside s parts rest) : Reads inside ('$' :: (c :: chars ++ s)) (.name (c :: chars) :: parts) rest
  | placeholder {inside : Bool} {digits body s rest : List Char} {content parts : List Part} (hne : digits ≠ [])
      (hdigits : ∀ d ∈ digits, d.isDigit = true) (hcontent : Reads true body content ('}' :: s))
      (h : Reads inside s parts rest) :
      Reads inside ('$' :: '{' :: (digits ++ ':' :: body))
        (.placeholder (Nat.ofDigitChars 10 digits 0) content :: parts) rest
  | bracedTabstop {inside : Bool} {digits s rest : List Char} {parts : List Part} (hne : digits ≠ [])
      (hdigits : ∀ d ∈ digits, d.isDigit = true) (h : Reads inside s parts rest) :
      Reads inside ('$' :: '{' :: (digits ++ '}' :: s)) (.tabstop (Nat.ofDigitChars 10 digits 0) :: parts) rest

theorem NotNext.cons_iff {p : Char → Prop} {c : Char} {s : List Char} : NotNext p (c :: s) ↔ ¬ p c :=
  ⟨fun h => h c rfl, fun h d hd => Option.some.inj hd ▸ h⟩

/-! ## Readings are unique -/

/-- A longest stretch is the only one. -/
theorem stretch_unique {p : Char → Prop} {front front' s s' : List Char} (hfront : ∀ c ∈ front, p c)
    (hfront' : ∀ c ∈ front', p c) (hs : NotNext p s) (hs' : NotNext p s') (h : front ++ s = front' ++ s') :
    front = front' ∧ s = s' := by
  induction front generalizing front' with
  | nil =>
    cases front' with
    | nil => exact ⟨rfl, h⟩
    | cons c front' =>
      rw [List.nil_append] at h
      exact absurd (hfront' c List.mem_cons_self) (hs c (by rw [h]; rfl))
  | cons c front ih =>
    cases front' with
    | nil =>
      rw [List.nil_append] at h
      exact absurd (hfront c List.mem_cons_self) (hs' c (by rw [← h]; rfl))
    | cons d front' =>
      obtain ⟨rfl, htail⟩ := List.cons.inj h
      obtain ⟨rfl, hrest⟩ := ih (fun d hd => hfront d (List.mem_cons_of_mem _ hd))
        (fun d hd => hfront' d (List.mem_cons_of_mem _ hd)) htail
      exact ⟨rfl, hrest⟩

/-- What a dollar sign begins, told from what follows. -/
inductive Begins where
  | nothing
  | braces
  | number
  | name
deriving DecidableEq

def begins : List Char → Begins
  | [] => .nothing
  | c :: _ => if c = '{' then .braces else if c.isDigit then .number else if isWordChar c then .name else .nothing

theorem isWordChar_of_isDigit {c : Char} (h : c.isDigit = true) : isWordChar c = true := by
  simp [isWordChar, Char.isAlphanum, h]

theorem begins_nothing_iff {s : List Char} :
    begins s = .nothing ↔ NotNext (fun c => c = '{' ∨ isWordChar c) s := by
  cases s with
  | nil => exact ⟨fun _ c hc => absurd hc (by simp), fun _ => rfl⟩
  | cons c s =>
    rw [NotNext.cons_iff, not_or, begins]
    constructor
    · intro h
      split_ifs at h with hbrace hdigit hword
      exact ⟨hbrace, hword⟩
    · rintro ⟨hbrace, hword⟩
      rw [if_neg hbrace, if_neg fun h => hword (isWordChar_of_isDigit h), if_neg hword]

theorem begins_number {digits s : List Char} (hne : digits ≠ []) (hdigits : ∀ d ∈ digits, d.isDigit = true) :
    begins (digits ++ s) = .number := by
  cases digits with
  | nil => exact absurd rfl hne
  | cons d digits =>
    have hd := hdigits d List.mem_cons_self
    rw [List.cons_append, begins, if_neg (fun h => by rw [h] at hd; exact absurd hd (by decide)), if_pos hd]

theorem begins_name {c : Char} {s : List Char} (hc : c.isDigit = false) (hword : isWordChar c = true) :
    begins (c :: s) = .name := by
  rw [begins, if_neg (fun h => by rw [h] at hword; exact absurd hword (by decide)), if_neg (by simp [hc]), if_pos hword]

/-- What a dollar sign is read as. -/
def AfterDollar (inside : Bool) (s : List Char) (parts : List Part) (rest : List Char) : Begins → Prop
  | .nothing => ∃ behind, parts = .text '$' :: behind ∧ Reads inside s behind rest
  | .number => ∃ digits s' behind, s = digits ++ s' ∧ (∀ d ∈ digits, d.isDigit = true) ∧
      NotNext (fun c => c.isDigit = true) s' ∧ parts = .tabstop (Nat.ofDigitChars 10 digits 0) :: behind ∧
        Reads inside s' behind rest
  | .name => ∃ chars s' behind, s = chars ++ s' ∧ (∀ d ∈ chars, isWordChar d = true) ∧
      NotNext (fun c => isWordChar c = true) s' ∧ parts = .name chars :: behind ∧ Reads inside s' behind rest
  | .braces => ∃ digits s' behind, (∀ d ∈ digits, d.isDigit = true) ∧ Reads inside s' behind rest ∧
      ((∃ body content, s = '{' :: (digits ++ ':' :: body) ∧ Reads true body content ('}' :: s') ∧
        parts = .placeholder (Nat.ofDigitChars 10 digits 0) content :: behind) ∨
      s = '{' :: (digits ++ '}' :: s') ∧ parts = .tabstop (Nat.ofDigitChars 10 digits 0) :: behind)

theorem Reads.afterDollar {inside : Bool} {s rest : List Char} {parts : List Part}
    (h : Reads inside ('$' :: s) parts rest) : AfterDollar inside s parts rest (begins s) := by
  generalize hu : '$' :: s = u at h
  cases h with
  | nil => cases hu
  | close => exact absurd (List.cons.inj hu).1 (by decide)
  | text hdollar _ _ _ => exact absurd (List.cons.inj hu).1.symm hdollar
  | escaped _ _ => exact absurd (List.cons.inj hu).1 (by decide)
  | backslash _ _ => exact absurd (List.cons.inj hu).1 (by decide)
  | dollar hs h =>
    obtain rfl := (List.cons.inj hu).2
    rw [begins_nothing_iff.mpr hs]
    exact ⟨_, rfl, h⟩
  | tabstop hne hdigits hs h =>
    obtain rfl := (List.cons.inj hu).2
    rw [begins_number hne hdigits]
    exact ⟨_, _, _, rfl, hdigits, hs, rfl, h⟩
  | name hc hname hs h =>
    obtain rfl := (List.cons.inj hu).2
    rw [List.cons_append, begins_name hc (hname _ List.mem_cons_self)]
    exact ⟨_, _, _, rfl, hname, hs, rfl, h⟩
  | placeholder hne hdigits hcontent h =>
    obtain rfl := (List.cons.inj hu).2
    exact ⟨_, _, _, hdigits, h, .inl ⟨_, _, rfl, hcontent, rfl⟩⟩
  | bracedTabstop hne hdigits h =>
    obtain rfl := (List.cons.inj hu).2
    exact ⟨_, _, _, hdigits, h, .inr ⟨rfl, rfl⟩⟩

theorem colon_not_next {s : List Char} : NotNext (fun c => c.isDigit = true) (':' :: s) :=
  NotNext.cons_iff.mpr (by decide)

theorem brace_not_next {s : List Char} : NotNext (fun c => c.isDigit = true) ('}' :: s) :=
  NotNext.cons_iff.mpr (by decide)

theorem Reads.unique {inside : Bool} {s rest : List Char} {parts : List Part} (h : Reads inside s parts rest) :
    ∀ {parts' : List Part} {rest' : List Char}, Reads inside s parts' rest' → parts = parts' ∧ rest = rest' := by
  induction h with
  | nil =>
    intro parts' rest' h'
    cases h'
    exact ⟨rfl, rfl⟩
  | close =>
    intro parts' rest' h'
    cases h' with
    | close => exact ⟨rfl, rfl⟩
    | text _ _ hclose _ => exact absurd (hclose rfl) (by decide)
  | text hdollar hback hclose h ih =>
    intro parts' rest' h'
    cases h' with
    | text _ _ _ h' =>
      obtain ⟨rfl, rfl⟩ := ih h'
      exact ⟨rfl, rfl⟩
    | close => exact absurd (hclose rfl) (by decide)
    | escaped _ _ => exact absurd rfl hback
    | backslash _ _ => exact absurd rfl hback
    | _ => exact absurd rfl hdollar
  | escaped hc h ih =>
    intro parts' rest' h'
    cases h' with
    | text _ hback _ _ => exact absurd rfl hback
    | escaped _ h' =>
      obtain ⟨rfl, rfl⟩ := ih h'
      exact ⟨rfl, rfl⟩
    | backslash hs _ => exact absurd hc (NotNext.cons_iff.mp hs)
  | backslash hs h ih =>
    intro parts' rest' h'
    cases h' with
    | text _ hback _ _ => exact absurd rfl hback
    | escaped hc _ => exact absurd hc (NotNext.cons_iff.mp hs)
    | backslash _ h' =>
      obtain ⟨rfl, rfl⟩ := ih h'
      exact ⟨rfl, rfl⟩
  | dollar hs h ih =>
    intro parts' rest' h'
    have hafter := h'.afterDollar
    rw [begins_nothing_iff.mpr hs] at hafter
    obtain ⟨behind, rfl, hbehind⟩ := hafter
    obtain ⟨rfl, rfl⟩ := ih hbehind
    exact ⟨rfl, rfl⟩
  | tabstop hne hdigits hs h ih =>
    intro parts' rest' h'
    have hafter := h'.afterDollar
    rw [begins_number hne hdigits] at hafter
    obtain ⟨digits', s', behind, heq, hdigits', hs', rfl, hbehind⟩ := hafter
    obtain ⟨rfl, rfl⟩ := stretch_unique hdigits hdigits' hs hs' heq
    obtain ⟨rfl, rfl⟩ := ih hbehind
    exact ⟨rfl, rfl⟩
  | name hc hname hs h ih =>
    intro parts' rest' h'
    have hafter := h'.afterDollar
    rw [List.cons_append, begins_name hc (hname _ List.mem_cons_self)] at hafter
    obtain ⟨chars', s', behind, heq, hname', hs', rfl, hbehind⟩ := hafter
    obtain ⟨rfl, rfl⟩ := stretch_unique hname hname' hs hs' heq
    obtain ⟨rfl, rfl⟩ := ih hbehind
    exact ⟨rfl, rfl⟩
  | placeholder hne hdigits hcontent h ihcontent ih =>
    intro parts' rest' h'
    obtain ⟨digits', s', behind, hdigits', hbehind, hbody | hbody⟩ := h'.afterDollar
    · obtain ⟨body', content', heq, hcontent', rfl⟩ := hbody
      obtain ⟨rfl, hrest⟩ := stretch_unique hdigits hdigits' colon_not_next colon_not_next (List.cons.inj heq).2
      obtain rfl := (List.cons.inj hrest).2
      obtain ⟨rfl, hclosed⟩ := ihcontent hcontent'
      obtain rfl := (List.cons.inj hclosed).2
      obtain ⟨rfl, rfl⟩ := ih hbehind
      exact ⟨rfl, rfl⟩
    · have hrest := (stretch_unique hdigits hdigits' colon_not_next brace_not_next (List.cons.inj hbody.1).2).2
      exact absurd (List.cons.inj hrest).1 (by decide)
  | bracedTabstop hne hdigits h ih =>
    intro parts' rest' h'
    obtain ⟨digits', s', behind, hdigits', hbehind, hbody | hbody⟩ := h'.afterDollar
    · obtain ⟨body', content', heq, hcontent', rfl⟩ := hbody
      have hrest := (stretch_unique hdigits hdigits' brace_not_next colon_not_next (List.cons.inj heq).2).2
      exact absurd (List.cons.inj hrest).1 (by decide)
    · obtain ⟨heq, rfl⟩ := hbody
      obtain ⟨rfl, hrest⟩ := stretch_unique hdigits hdigits' brace_not_next brace_not_next (List.cons.inj heq).2
      obtain rfl := (List.cons.inj hrest).2
      obtain ⟨rfl, rfl⟩ := ih hbehind
      exact ⟨rfl, rfl⟩

/-! ## Reading texts -/

/-- Texts that say what they are inside a placeholder as well. -/
def Plain (s : List Char) : Prop :=
  ∀ c ∈ s, c ≠ '$' ∧ c ≠ '\\' ∧ c ≠ '}'

theorem isDigit_of_mem_digits {number : ℕ} : ∀ d ∈ Nat.toDigits 10 number, d.isDigit = true :=
  fun _ hd => Nat.isDigit_of_mem_toDigits (by decide) (by decide) hd

section Texts

variable {inside : Bool} {s rest : List Char} {parts : List Part}

theorem Reads.plain {front : List Char} (hfront : Plain front) (h : Reads inside s parts rest) :
    Reads inside (front ++ s) (front.map .text ++ parts) rest := by
  induction front with
  | nil => exact h
  | cons c front ih =>
    obtain ⟨hdollar, hback, hclose⟩ := hfront c List.mem_cons_self
    exact .text hdollar hback (fun heq => absurd heq hclose) (ih fun d hd => hfront d (List.mem_cons_of_mem _ hd))

theorem Reads.stop (number : ℕ) (hs : NotNext (fun c => c.isDigit = true) s) (h : Reads inside s parts rest) :
    Reads inside ('$' :: (Nat.toDigits 10 number ++ s)) (.tabstop number :: parts) rest := by
  have hread := @Reads.tabstop inside (Nat.toDigits 10 number) _ _ _ Nat.toDigits_ne_nil isDigit_of_mem_digits hs h
  rwa [Nat.ofDigitChars_toDigits (by decide) (by decide)] at hread

/-- A placeholder, from its number and its content. -/
def slotText (slot : ℕ × List Char) : List Char :=
  '$' :: '{' :: (Nat.toDigits 10 slot.1 ++ ':' :: (slot.2 ++ ['}']))

def slotPart (slot : ℕ × List Char) : Part :=
  .placeholder slot.1 (slot.2.map .text)

theorem Reads.slot {slot : ℕ × List Char} (hcontent : Plain slot.2) (h : Reads inside s parts rest) :
    Reads inside (slotText slot ++ s) (slotPart slot :: parts) rest := by
  have hinner : Reads true (slot.2 ++ '}' :: s) (slot.2.map .text) ('}' :: s) := by
    simpa using Reads.plain hcontent (@Reads.close s)
  have hread := @Reads.placeholder inside (Nat.toDigits 10 slot.1) _ _ _ _ _ Nat.toDigits_ne_nil isDigit_of_mem_digits
    hinner h
  rw [Nat.ofDigitChars_toDigits (by decide) (by decide)] at hread
  simpa [slotText, slotPart] using hread

theorem reads_char_iff {c : Char} (hdollar : c ≠ '$') (hback : c ≠ '\\') (hclose : c ≠ '}') :
    Reads inside (c :: s) (.text c :: parts) rest ↔ Reads inside s parts rest := by
  constructor
  · intro h
    cases h with
    | text _ _ _ h => exact h
    | escaped _ _ => exact absurd rfl hback
    | backslash _ _ => exact absurd rfl hback
    | dollar _ _ => exact absurd rfl hdollar
  · exact .text hdollar hback fun heq => absurd heq hclose

theorem reads_dollar_iff : Reads inside ('$' :: s) (.text '$' :: parts) rest ↔
    NotNext (fun c => c = '{' ∨ isWordChar c) s ∧ Reads inside s parts rest := by
  constructor
  · intro h
    have hafter := h.afterDollar
    cases hbegins : begins s with
    | nothing =>
      rw [hbegins] at hafter
      obtain ⟨behind, heq, hbehind⟩ := hafter
      obtain rfl := (List.cons.inj heq).2
      exact ⟨begins_nothing_iff.mp hbegins, hbehind⟩
    | number =>
      rw [hbegins] at hafter
      obtain ⟨_, _, _, -, -, -, heq, -⟩ := hafter
      cases heq
    | name =>
      rw [hbegins] at hafter
      obtain ⟨_, _, _, -, -, -, heq, -⟩ := hafter
      cases heq
    | braces =>
      rw [hbegins] at hafter
      obtain ⟨_, _, _, -, -, ⟨_, _, -, -, heq⟩ | ⟨-, heq⟩⟩ := hafter <;> cases heq
  · exact fun h => .dollar h.1 h.2

/-- A text without braces and backslashes is read as it is before another text exactly if no dollar sign in it begins
anything. -/
theorem reads_text_iff {front : List Char} (hfront : ∀ c ∈ front, c ≠ '{' ∧ c ≠ '}' ∧ c ≠ '\\')
    (hs : NotNext (fun c => c = '{' ∨ isWordChar c) s) :
    Reads inside (front ++ s) (front.map .text ++ parts) rest ↔
      front.IsChain (fun c d => c = '$' → isWordChar d = false) ∧ Reads inside s parts rest := by
  induction front with
  | nil => simp
  | cons c front ih =>
    have htail : ∀ d ∈ front, d ≠ '{' ∧ d ≠ '}' ∧ d ≠ '\\' := fun d hd => hfront d (List.mem_cons_of_mem _ hd)
    obtain ⟨-, hclose, hback⟩ := hfront c List.mem_cons_self
    rw [List.isChain_cons, List.cons_append, List.map_cons, List.cons_append, and_assoc, ← ih htail]
    by_cases hdollar : c = '$'
    · subst hdollar
      rw [reads_dollar_iff]
      refine and_congr_left fun _ => ?_
      cases front with
      | nil => simp [hs]
      | cons d front => simp [NotNext.cons_iff, (htail d List.mem_cons_self).1]
    · rw [reads_char_iff hdollar hback hclose]
      exact (and_iff_right fun _ _ hc => absurd hc hdollar).symm

end Texts

end JavaAnalyzer.SnippetSyntax
