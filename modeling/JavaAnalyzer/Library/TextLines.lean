import Mathlib

/-! # Lines of a text

A text is cut into lines after its line breaks, the pair of a carriage return and a line feed being one
break. Which single characters break a line differs from one reader to another, so it is a parameter.
A place in a text is a line and a column in UTF-16 units; a reader either insists that the column is
one of the line (`columnAt`) or walks until it has met enough units (`columnWalk`). Two readers agree
on a place as long as only what breaks a line for both stands before it. -/

namespace JavaAnalyzer.TextLines
set_option autoImplicit false

def utf16Length (c : Char) : ℕ :=
  if c.val < 0x10000 then 1 else 2

/-! ## Cutting -/

/-- The character joins the first line. -/
def prepend (c : Char) : List (List Char) → List (List Char)
  | [] => [[c]]
  | line :: rest => (c :: line) :: rest

/-- The lines, each with its break; after the last break a line more begins. -/
def lines (isBreak : Char → Bool) : List Char → List (List Char)
  | [] => [[]]
  | '\r' :: '\n' :: rest => ['\r', '\n'] :: lines isBreak rest
  | c :: rest => if isBreak c then [c] :: lines isBreak rest else prepend c (lines isBreak rest)

theorem prepend_flatten (c : Char) (ls : List (List Char)) :
    (prepend c ls).flatten = c :: ls.flatten := by
  cases ls <;> rfl

theorem lines_flatten (isBreak : Char → Bool) (text : List Char) :
    (lines isBreak text).flatten = text := by
  fun_induction lines isBreak text with
  | case1 => rfl
  | case2 rest ih => rw [List.flatten_cons, ih]; rfl
  | case3 c rest _ _ ih => rw [List.flatten_cons, ih]; rfl
  | case4 c rest _ _ ih => rw [prepend_flatten, ih]

theorem exists_lines_eq (isBreak : Char → Bool) (text : List Char) :
    ∃ first rest, lines isBreak text = first :: rest := by
  fun_cases lines isBreak text with
  | case1 => exact ⟨_, _, rfl⟩
  | case2 => exact ⟨_, _, rfl⟩
  | case3 => exact ⟨_, _, rfl⟩
  | case4 c rest =>
    cases h : lines isBreak rest with
    | nil => exact ⟨_, _, rfl⟩
    | cons => exact ⟨_, _, rfl⟩

/-! ## Places -/

def lineStart (ls : List (List Char)) (line : ℕ) : ℕ :=
  (ls.take line).flatten.length

/-- A place in a line, counted from the beginning of the text. -/
def atLine (isBreak : Char → Bool) (text : List Char) (line : ℕ) (column : List Char → Option ℕ) :
    Option ℕ :=
  (lines isBreak text)[line]?.bind fun l =>
    (column l).map fun n => lineStart (lines isBreak text) line + n

/-- The characters before the column, which must lie before the line's break. -/
def columnAt (isBreak : Char → Bool) : List Char → ℕ → Option ℕ
  | _, 0 => some 0
  | [], _ + 1 => none
  | c :: rest, units + 1 =>
    if isBreak c then none
    else if utf16Length c ≤ units + 1 then
      (columnAt isBreak rest (units + 1 - utf16Length c)).map (· + 1)
    else none

/-- The characters walked over until as many units as the column has are met, or the line ends. -/
def columnWalk : List Char → ℕ → ℕ
  | [], _ => 0
  | c :: rest, units => if units = 0 then 0 else columnWalk rest (units - utf16Length c) + 1

theorem columnWalk_zero (line : List Char) : columnWalk line 0 = 0 := by
  cases line <;> rfl

theorem columnWalk_le_length (line : List Char) (units : ℕ) :
    columnWalk line units ≤ line.length := by
  fun_induction columnWalk line units with
  | case1 => exact Nat.le_refl 0
  | case2 => exact Nat.zero_le _
  | case3 c rest units _ ih =>
    rw [List.length_cons]
    omega

theorem columnWalk_mono (line : List Char) {few many : ℕ} (h : few ≤ many) :
    columnWalk line few ≤ columnWalk line many := by
  induction line generalizing few many with
  | nil => exact Nat.le_refl 0
  | cons c rest ih =>
    by_cases hfew : few = 0
    · rw [hfew, columnWalk_zero]
      exact Nat.zero_le _
    · have hmany : many ≠ 0 := by omega
      have hrest := ih (Nat.sub_le_sub_right h (utf16Length c))
      simp only [columnWalk, if_neg hfew, if_neg hmany]
      omega

/-! ## One line more -/

section Cons

variable {isBreak : Char → Bool} {c : Char} {rest : List Char} {column : List Char → Option ℕ}

theorem atLine_zero (text : List Char) {first : List Char} {others : List (List Char)}
    (h : lines isBreak text = first :: others) : atLine isBreak text 0 column = column first := by
  rw [atLine, h]
  cases hcolumn : column first <;> simp [lineStart, hcolumn]

/-- A line before the one looked at moves its place by the line's length. -/
theorem atLine_succ_of_lines {text others : List Char} {first : List Char}
    (h : lines isBreak text = first :: lines isBreak others) (line : ℕ) :
    atLine isBreak text (line + 1) column =
      (atLine isBreak others line column).map (· + first.length) := by
  have hstart : lineStart (first :: lines isBreak others) (line + 1) =
      lineStart (lines isBreak others) line + first.length := by
    simp only [lineStart, List.take_succ_cons, List.flatten_cons, List.length_append]
    omega
  rw [atLine, atLine, h, List.getElem?_cons_succ, hstart]
  cases (lines isBreak others)[line]? with
  | none => rfl
  | some l =>
    cases hl : column l with
    | none => simp [hl]
    | some n =>
      simp only [Option.bind_some, hl, Option.map_some, Option.some.injEq]
      omega

theorem lines_break (hc : isBreak c = true) (hpair : ∀ more, c = '\r' → rest = '\n' :: more → False) :
    lines isBreak (c :: rest) = [c] :: lines isBreak rest := by
  rw [lines, if_pos hc]
  exact hpair

theorem lines_plain (hc : isBreak c = false) (hpair : ∀ more, c = '\r' → rest = '\n' :: more → False) :
    lines isBreak (c :: rest) = prepend c (lines isBreak rest) := by
  rw [lines, if_neg (by simp [hc])]
  exact hpair

theorem atLine_plain_zero (hc : isBreak c = false) (hpair : ∀ more, c = '\r' → rest = '\n' :: more → False) :
    atLine isBreak (c :: rest) 0 column = atLine isBreak rest 0 fun l => column (c :: l) := by
  obtain ⟨first, others, hrest⟩ := exists_lines_eq isBreak rest
  have hlines : lines isBreak (c :: rest) = (c :: first) :: others := by
    rw [lines_plain hc hpair, hrest]
    rfl
  rw [atLine_zero _ hlines, atLine_zero _ hrest]

theorem atLine_plain_succ (hc : isBreak c = false) (hpair : ∀ more, c = '\r' → rest = '\n' :: more → False)
    (line : ℕ) :
    atLine isBreak (c :: rest) (line + 1) column =
      (atLine isBreak rest (line + 1) column).map (· + 1) := by
  obtain ⟨first, others, hrest⟩ := exists_lines_eq isBreak rest
  have hlines : lines isBreak (c :: rest) = (c :: first) :: others := by
    rw [lines_plain hc hpair, hrest]
    rfl
  have hstart : lineStart ((c :: first) :: others) (line + 1) =
      lineStart (first :: others) (line + 1) + 1 := by
    simp only [lineStart, List.take_succ_cons, List.flatten_cons, List.length_append,
      List.length_cons]
    omega
  rw [atLine, atLine, hlines, hrest, List.getElem?_cons_succ, List.getElem?_cons_succ, hstart]
  cases others[line]? with
  | none => rfl
  | some l =>
    cases hl : column l with
    | none => simp [hl]
    | some n =>
      simp only [Option.bind_some, hl, Option.map_some, Option.some.injEq]
      omega

end Cons

/-! ## Two readers of one place -/

section Readers

variable {few many : Char → Bool}

/-- A break takes no column but the first, and there both readers stand at the line's beginning. -/
theorem columnAt_break {c : Char} (hc : few c = true) {rest : List Char} {units n : ℕ}
    (h : columnAt few (c :: rest) units = some n) : units = 0 ∧ n = 0 := by
  cases units with
  | zero =>
    cases h
    exact ⟨rfl, rfl⟩
  | succ units =>
    rw [columnAt, if_pos hc] at h
    cases h

/-- A line that is only a break: on it both readers stand at its beginning, below it they move by it. -/
theorem walk_of_break {c : Char} (hc : few c = true) {text others tail : List Char} {line units n : ℕ}
    (hfew : lines few text = (c :: tail) :: lines few others)
    (hmany : lines many text = (c :: tail) :: lines many others) (htext : text = c :: tail ++ others)
    (ih : ∀ line m, atLine few others line (columnAt few · units) = some m →
      (∀ c ∈ others.take m, many c = true → few c = true) →
        atLine many others line (fun l => some (columnWalk l units)) = some m)
    (h : atLine few text line (columnAt few · units) = some n)
    (hplain : ∀ c ∈ text.take n, many c = true → few c = true) :
    atLine many text line (fun l => some (columnWalk l units)) = some n := by
  cases line with
  | zero =>
    rw [atLine_zero _ hfew] at h
    obtain ⟨hunits, hn⟩ := columnAt_break hc h
    rw [atLine_zero _ hmany, hunits, hn, columnWalk_zero]
  | succ line =>
    rw [atLine_succ_of_lines hfew] at h
    obtain ⟨m, hm, hn⟩ := Option.map_eq_some_iff.mp h
    have hothers : ∀ c ∈ others.take m, many c = true → few c = true := by
      intro c hc
      refine hplain c ?_
      rw [htext, ← hn, List.take_append, Nat.add_sub_cancel]
      exact List.mem_append_right _ hc
    rw [atLine_succ_of_lines hmany, ih line m hm hothers]
    exact congrArg some hn

/-- A character before the place breaks no line for one reader, so it breaks none for the other. -/
theorem plain_of_take_succ {c : Char} (hc : few c = false) {rest : List Char} {n : ℕ}
    (hplain : ∀ d ∈ (c :: rest).take (n + 1), many d = true → few d = true) :
    many c = false ∧ ∀ d ∈ rest.take n, many d = true → few d = true := by
  rw [List.take_succ_cons] at hplain
  refine ⟨?_, fun d hd => hplain d (List.mem_cons_of_mem _ hd)⟩
  by_contra hmany
  have hbreak := hplain c List.mem_cons_self (by simpa using hmany)
  rw [hc] at hbreak
  cases hbreak

/-- On the line itself both readers pass a plain character and use up its width. -/
theorem walk_plain_zero {c : Char} {rest : List Char} (hc : few c = false)
    (hpair : ∀ more, c = '\r' → rest = '\n' :: more → False) {units n : ℕ}
    (ih : ∀ units m, atLine few rest 0 (columnAt few · units) = some m →
      (∀ c ∈ rest.take m, many c = true → few c = true) →
        atLine many rest 0 (fun l => some (columnWalk l units)) = some m)
    (h : atLine few (c :: rest) 0 (columnAt few · units) = some n)
    (hplain : ∀ d ∈ (c :: rest).take n, many d = true → few d = true) :
    atLine many (c :: rest) 0 (fun l => some (columnWalk l units)) = some n := by
  obtain ⟨first, others, hlines⟩ := exists_lines_eq few rest
  rw [atLine_plain_zero hc hpair, atLine_zero _ hlines] at h
  cases units with
  | zero =>
    obtain ⟨first', others', hlines'⟩ := exists_lines_eq many (c :: rest)
    rw [atLine_zero _ hlines', columnWalk_zero]
    exact h
  | succ units =>
    rw [columnAt, if_neg (by simp [hc])] at h
    by_cases hfits : utf16Length c ≤ units + 1
    · rw [if_pos hfits] at h
      obtain ⟨m, hm, rfl⟩ := Option.map_eq_some_iff.mp h
      obtain ⟨hmany, hothers⟩ := plain_of_take_succ hc hplain
      have hm' : atLine few rest 0 (columnAt few · (units + 1 - utf16Length c)) = some m := by
        rw [atLine_zero _ hlines]
        exact hm
      have hwalk := ih (units + 1 - utf16Length c) m hm' hothers
      obtain ⟨first', others', hlines'⟩ := exists_lines_eq many rest
      rw [atLine_zero _ hlines', Option.some.injEq] at hwalk
      rw [atLine_plain_zero hmany hpair, atLine_zero _ hlines', ← hwalk]
      rfl
    · rw [if_neg hfits] at h
      cases h

/-- The reader that walks comes to the place of the reader that insists, when nothing before the place
breaks a line for the first alone. -/
theorem walk_eq_of_columnAt (hcr : few '\r' = true) (hsub : ∀ c, few c = true → many c = true)
    (text : List Char) (line units n : ℕ)
    (h : atLine few text line (columnAt few · units) = some n)
    (hplain : ∀ c ∈ text.take n, many c = true → few c = true) :
    atLine many text line (fun l => some (columnWalk l units)) = some n := by
  fun_induction lines few text generalizing line units n with
  | case1 =>
    cases line with
    | succ line => cases h
    | zero =>
      rw [@atLine_zero _ _ [] [] [] rfl] at h
      rw [@atLine_zero _ _ [] [] [] rfl]
      cases units with
      | zero => exact h
      | succ units => cases h
  | case2 rest ih =>
    exact walk_of_break hcr (lines.eq_2 few rest) (lines.eq_2 many rest) rfl
      (fun line => ih line units) h hplain
  | case3 c rest hpair hc ih =>
    exact walk_of_break hc (lines_break hc hpair) (lines_break (hsub c hc) hpair) rfl
      (fun line => ih line units) h hplain
  | case4 c rest hpair hc ih =>
    have hc : few c = false := by simpa using hc
    cases line with
    | zero => exact walk_plain_zero hc hpair (ih 0) h hplain
    | succ line =>
      rw [atLine_plain_succ hc hpair] at h
      obtain ⟨m, hm, rfl⟩ := Option.map_eq_some_iff.mp h
      obtain ⟨hmany, hothers⟩ := plain_of_take_succ hc hplain
      rw [atLine_plain_succ hmany hpair, ih (line + 1) units m hm hothers]
      rfl

end Readers

/-! ## The order of places -/

theorem lineStart_mono (ls : List (List Char)) {line line' : ℕ} (h : line ≤ line') :
    lineStart ls line ≤ lineStart ls line' := by
  have hbegins : (ls.take line).flatten <+: (ls.take line').flatten :=
    (List.take_prefix_take_left h).flatten
  exact hbegins.length_le

theorem lineStart_succ {ls : List (List Char)} {line : ℕ} {l : List Char}
    (h : ls[line]? = some l) : lineStart ls (line + 1) = lineStart ls line + l.length := by
  rw [lineStart, List.take_add_one, h]
  simp [lineStart]

/-- The text up to a place in a line is the lines before it and the line up to the place. -/
theorem take_lineStart_add {ls : List (List Char)} {line n : ℕ} {l : List Char}
    (h : ls[line]? = some l) (hn : n ≤ l.length) :
    ls.flatten.take (lineStart ls line + n) = (ls.take line).flatten ++ l.take n := by
  obtain ⟨hin, hget⟩ := List.getElem?_eq_some_iff.mp h
  have hsplit : ls.flatten = (ls.take line).flatten ++ (l ++ (ls.drop (line + 1)).flatten) := by
    conv_lhs => rw [← List.take_append_drop line ls, List.drop_eq_getElem_cons hin, hget,
      List.flatten_append, List.flatten_cons]
  rw [hsplit, lineStart, List.take_length_add_append, List.take_append_of_le_length hn]

theorem lineStart_le_length (isBreak : Char → Bool) (text : List Char) (line : ℕ) :
    lineStart (lines isBreak text) line ≤ text.length := by
  have hbegins : ((lines isBreak text).take line).flatten <+: (lines isBreak text).flatten :=
    (List.take_prefix line _).flatten
  rw [lines_flatten] at hbegins
  exact hbegins.length_le

/-- Where a place that the walk finds lies in its line. -/
theorem walk_eq_some_iff {isBreak : Char → Bool} {text : List Char} {line units n : ℕ} :
    atLine isBreak text line (fun l => some (columnWalk l units)) = some n ↔
      ∃ l, (lines isBreak text)[line]? = some l ∧
        lineStart (lines isBreak text) line + columnWalk l units = n := by
  simp [atLine, Option.bind_eq_some_iff]

theorem walk_le_length {isBreak : Char → Bool} {text : List Char} {line units n : ℕ}
    (h : atLine isBreak text line (fun l => some (columnWalk l units)) = some n) :
    n ≤ text.length := by
  obtain ⟨l, hl, hn⟩ := walk_eq_some_iff.mp h
  have hcolumn := columnWalk_le_length l units
  have hend := lineStart_le_length isBreak text (line + 1)
  rw [lineStart_succ hl] at hend
  omega

/-- A place that is not after another one is not found behind it. -/
theorem walk_mono {isBreak : Char → Bool} {text : List Char} {line line' units units' n n' : ℕ}
    (horder : line < line' ∨ line = line' ∧ units ≤ units')
    (h : atLine isBreak text line (fun l => some (columnWalk l units)) = some n)
    (h' : atLine isBreak text line' (fun l => some (columnWalk l units')) = some n') : n ≤ n' := by
  obtain ⟨l, hl, hn⟩ := walk_eq_some_iff.mp h
  obtain ⟨l', hl', hn'⟩ := walk_eq_some_iff.mp h'
  cases horder with
  | inl hline =>
    have hcolumn := columnWalk_le_length l units
    have hstart := lineStart_mono (lines isBreak text) (Nat.succ_le_of_lt hline)
    rw [Nat.succ_eq_add_one, lineStart_succ hl] at hstart
    omega
  | inr hcolumn =>
    obtain ⟨hline, hunits⟩ := hcolumn
    subst hline
    rw [hl, Option.some.injEq] at hl'
    subst hl'
    have hmono := columnWalk_mono l hunits
    omega

/-! ## Bytes -/

def byteLength (text : List Char) : ℕ :=
  (text.map Char.utf8Size).sum

/-- The characters before a byte, which must be the first of a character or the end. -/
def charAtByte : List Char → ℕ → Option ℕ
  | _, 0 => some 0
  | [], _ + 1 => none
  | c :: rest, byte + 1 =>
    if byte + 1 < c.utf8Size then none
    else (charAtByte rest (byte + 1 - c.utf8Size)).map (· + 1)

theorem charAtByte_zero (text : List Char) : charAtByte text 0 = some 0 := by
  cases text <;> rfl

theorem byteLength_cons (c : Char) (text : List Char) :
    byteLength (c :: text) = c.utf8Size + byteLength text := by
  simp [byteLength]

theorem byteLength_append (front back : List Char) :
    byteLength (front ++ back) = byteLength front + byteLength back := by
  simp [byteLength]

theorem charAtByte_append (front back : List Char) :
    charAtByte (front ++ back) (byteLength front) = some front.length := by
  induction front with
  | nil => simp [byteLength, charAtByte]
  | cons c front ih =>
    have hsize := c.utf8Size_pos
    obtain ⟨byte, hbyte⟩ : ∃ byte, byteLength (c :: front) = byte + 1 :=
      ⟨byteLength (c :: front) - 1, by rw [byteLength_cons]; omega⟩
    have hrest : byte + 1 - c.utf8Size = byteLength front := by
      rw [← hbyte, byteLength_cons]
      omega
    have hfits : ¬ byte + 1 < c.utf8Size := by
      rw [← hbyte, byteLength_cons]
      omega
    rw [hbyte, List.cons_append, charAtByte, if_neg hfits, hrest, ih]
    rfl

theorem charAtByte_take (text : List Char) {n : ℕ} (h : n ≤ text.length) :
    charAtByte text (byteLength (text.take n)) = some n := by
  have := charAtByte_append (text.take n) (text.drop n)
  rwa [List.take_append_drop, List.length_take, Nat.min_eq_left h] at this

end JavaAnalyzer.TextLines
