import JavaAnalyzer.Library.Text
import JavaAnalyzer.Library.TextLines

/-! # The place behind a text

Where one stands behind a text, counted in two ways: as rows of line feeds and columns of bytes, and as
lines of any breaks and columns of any width. The second way is the inverse of finding a line's column in
`TextLines`. The two ways agree exactly when no break but the line feed ends a line and the last line's
characters are as wide as their bytes. -/

namespace JavaAnalyzer.TextPlaces
set_option autoImplicit false
open TextLines Text

/-! ## Behind the last line feed -/

section AfterLast

variable {c : Char}

theorem afterLast_of_notMem {text : List Char} (h : c ∉ text) : afterLast c text = text := by
  have hall : ∀ d ∈ text.reverse, decide (d ≠ c) = true := by
    intro d hd
    have hd : d ∈ text := List.mem_reverse.mp hd
    exact decide_eq_true fun heq => h (heq ▸ hd)
  rw [afterLast, List.takeWhile_eq_self_iff.mpr hall, List.reverse_reverse]

theorem exists_last {text : List Char} (h : c ∈ text) :
    ∃ front back, text = front ++ c :: back ∧ c ∉ back := by
  obtain ⟨back, front, heq, hback⟩ := List.eq_append_cons_of_mem (List.mem_reverse.mpr h)
  refine ⟨front.reverse, back.reverse, ?_, fun hmem => hback (List.mem_reverse.mp hmem)⟩
  have hrev := congrArg List.reverse heq
  rw [List.reverse_reverse] at hrev
  rw [hrev]
  simp

theorem afterLast_append_cons (front back : List Char) (h : c ∉ back) :
    afterLast c (front ++ c :: back) = back := by
  have hall : ∀ d ∈ back.reverse, decide (d ≠ c) = true := by
    intro d hd
    have hd : d ∈ back := List.mem_reverse.mp hd
    exact decide_eq_true fun heq => h (heq ▸ hd)
  rw [afterLast, List.reverse_append, List.reverse_cons, List.append_assoc,
    List.takeWhile_append_of_pos hall]
  simp

theorem afterLast_append_of_mem {back : List Char} (front : List Char) (h : c ∈ back) :
    afterLast c (front ++ back) = afterLast c back := by
  obtain ⟨pre, post, hback, hpost⟩ := exists_last h
  rw [hback, ← List.append_assoc, afterLast_append_cons _ _ hpost, afterLast_append_cons _ _ hpost]

theorem afterLast_append_of_notMem (front : List Char) {back : List Char} (h : c ∉ back) :
    afterLast c (front ++ back) = afterLast c front ++ back := by
  by_cases hfront : c ∈ front
  · obtain ⟨pre, post, heq, hpost⟩ := exists_last hfront
    have hboth : c ∉ post ++ back := by
      rw [List.mem_append, not_or]
      exact ⟨hpost, h⟩
    rw [heq, List.append_assoc, List.cons_append, afterLast_append_cons _ _ hboth,
      afterLast_append_cons _ _ hpost]
  · have hboth : c ∉ front ++ back := by
      rw [List.mem_append, not_or]
      exact ⟨hfront, h⟩
    rw [afterLast_of_notMem hboth, afterLast_of_notMem hfront]

end AfterLast

/-! ## Two ways to count -/

/-- The lines ended before the end of the text, and the width of what stands behind the last break. -/
def place (isBreak : Char → Bool) (width : Char → ℕ) : List Char → ℕ × ℕ
  | [] => (0, 0)
  | '\r' :: '\n' :: rest => ((place isBreak width rest).1 + 1, (place isBreak width rest).2)
  | c :: rest =>
    if isBreak c then ((place isBreak width rest).1 + 1, (place isBreak width rest).2)
    else if (place isBreak width rest).1 = 0 then (0, width c + (place isBreak width rest).2)
    else place isBreak width rest

/-- The line feeds, and the bytes behind the last one. -/
def bytePlace (text : List Char) : ℕ × ℕ :=
  (text.count '\n', byteLength (afterLast '\n' text))

/-- The text without the carriage returns that a line feed follows. -/
def withoutPairs : List Char → List Char
  | [] => []
  | '\r' :: '\n' :: rest => '\n' :: withoutPairs rest
  | c :: rest => c :: withoutPairs rest

/-- Every break in the text is a line feed, or the carriage return before one. -/
def OnlyLineFeeds (isBreak : Char → Bool) (text : List Char) : Prop :=
  ∀ c ∈ withoutPairs text, isBreak c = true → c = '\n'

/-- All that stands behind the last line feed is of one byte a character. -/
def LastLineAscii (text : List Char) : Prop :=
  ∀ c ∈ afterLast '\n' text, c.utf8Size = 1

/-! ## The place is where the column is found -/

section Found

variable {isBreak : Char → Bool}

theorem utf16Length_pos (c : Char) : 0 < utf16Length c := by
  unfold utf16Length
  split <;> omega

/-- A text that is not cut inside a pair has no pair at the cut. -/
theorem pair_append {c : Char} {rest back : List Char}
    (hcut : ∀ more, c = '\r' → rest = '\n' :: more → False)
    (hpair : ∀ pre more, c :: rest = pre ++ ['\r'] → back = '\n' :: more → False) :
    ∀ more, c = '\r' → rest ++ back = '\n' :: more → False := by
  intro more hc hmore
  cases rest with
  | nil => exact hpair [] more (by rw [hc]; rfl) hmore
  | cons d rest =>
    rw [List.cons_append, List.cons.injEq] at hmore
    exact hcut rest hc (by rw [hmore.1])

theorem columnAt_eq_zero {l : List Char} {units : ℕ} :
    columnAt isBreak l units = some 0 ↔ units = 0 := by
  constructor
  · intro h
    fun_cases columnAt isBreak l units with
    | case1 => rfl
    | case2 => simp [columnAt] at h
    | case3 c rest units hc =>
      rw [columnAt, if_pos hc] at h
      cases h
    | case4 c rest units hc hfits =>
      rw [columnAt, if_neg hc, if_pos hfits] at h
      simp at h
    | case5 c rest units hc hfits =>
      rw [columnAt, if_neg hc, if_neg hfits] at h
      cases h
  · intro h
    rw [h, columnAt]

theorem atLine_succ_ne_zero {text others first : List Char}
    (h : lines isBreak text = first :: lines isBreak others) (hfirst : first ≠ [])
    {column : List Char → Option ℕ} (line : ℕ) :
    atLine isBreak text (line + 1) column ≠ some 0 := by
  rw [atLine_succ_of_lines h]
  intro hmap
  obtain ⟨m, -, hm⟩ := Option.map_eq_some_iff.mp hmap
  exact hfirst (List.length_eq_zero_iff.mp (by omega))

theorem atLine_eq_zero {text : List Char} {line units : ℕ} :
    atLine isBreak text line (columnAt isBreak · units) = some 0 ↔ line = 0 ∧ units = 0 := by
  cases line with
  | zero =>
    obtain ⟨first, others, hlines⟩ := exists_lines_eq isBreak text
    rw [atLine_zero _ hlines, columnAt_eq_zero]
    simp
  | succ line =>
    refine ⟨fun h => ?_, fun h => by simp at h⟩
    exfalso
    fun_cases lines isBreak text with
    | case1 => cases h
    | case2 rest =>
      exact atLine_succ_ne_zero (lines.eq_2 isBreak rest) (by simp) line h
    | case3 c rest hpair hc =>
      exact atLine_succ_ne_zero (lines_break hc hpair) (by simp) line h
    | case4 c rest hpair hc =>
      rw [atLine_plain_succ (by simpa using hc) hpair] at h
      simp at h

/-- Behind a line that is only a break the place is found one line further down. -/
theorem found_behind_break {c : Char} (hc : isBreak c = true) {tail front back text : List Char}
    (hlines : lines isBreak text = (c :: tail) :: lines isBreak (front ++ back))
    (ih : ∀ line units,
      atLine isBreak (front ++ back) line (columnAt isBreak · units) = some front.length ↔
        place isBreak utf16Length front = (line, units)) (line units : ℕ) :
    atLine isBreak text line (columnAt isBreak · units) = some (c :: tail ++ front).length ↔
      ((place isBreak utf16Length front).1 + 1, (place isBreak utf16Length front).2) =
        (line, units) := by
  cases line with
  | zero =>
    rw [atLine_zero _ hlines]
    constructor
    · intro h
      obtain ⟨-, hlength⟩ := columnAt_break hc h
      simp at hlength
    · intro h
      simp at h
  | succ line =>
    have hplace : ((place isBreak utf16Length front).1 + 1, (place isBreak utf16Length front).2) =
        (line + 1, units) ↔ place isBreak utf16Length front = (line, units) := by
      rw [Prod.ext_iff, Prod.ext_iff]
      simp
    rw [atLine_succ_of_lines hlines, hplace, ← ih line units, List.length_append]
    cases atLine isBreak (front ++ back) line (columnAt isBreak · units) with
    | none => simp
    | some m =>
      simp only [Option.map_some, Option.some.injEq]
      omega

theorem map_succ_eq_length {c : Char} {front : List Char} {found : Option ℕ} :
    found.map (· + 1) = some (c :: front).length ↔ found = some front.length := by
  cases found <;> simp

section Plain

variable {c : Char} (hc : isBreak c = false) {front back : List Char}
  (hpair : ∀ more, c = '\r' → front ++ back = '\n' :: more → False)
  (ih : ∀ line units,
    atLine isBreak (front ++ back) line (columnAt isBreak · units) = some front.length ↔
      place isBreak utf16Length front = (line, units))

include hc hpair ih

/-- Behind a character of the first line a later line is found where it was. -/
theorem found_behind_plain_succ (line units : ℕ) :
    atLine isBreak (c :: (front ++ back)) (line + 1) (columnAt isBreak · units) =
        some (c :: front).length ↔
      (if (place isBreak utf16Length front).1 = 0 then
        (0, utf16Length c + (place isBreak utf16Length front).2)
      else place isBreak utf16Length front) = (line + 1, units) := by
  rw [atLine_plain_succ hc hpair, map_succ_eq_length, ih (line + 1) units]
  by_cases hzero : (place isBreak utf16Length front).1 = 0
  · rw [if_pos hzero, Prod.ext_iff, Prod.ext_iff, hzero]
    simp
  · rw [if_neg hzero]

/-- Behind a character of the first line a place of that line is found as much further as it is wide. -/
theorem found_behind_plain_zero (units : ℕ) :
    atLine isBreak (c :: (front ++ back)) 0 (columnAt isBreak · units) = some (c :: front).length ↔
      (if (place isBreak utf16Length front).1 = 0 then
        (0, utf16Length c + (place isBreak utf16Length front).2)
      else place isBreak utf16Length front) = (0, units) := by
  have hwide := utf16Length_pos c
  obtain ⟨first, others, hlines⟩ := exists_lines_eq isBreak (front ++ back)
  rw [atLine_plain_zero hc hpair, atLine_zero _ hlines]
  cases units with
  | zero =>
    rw [columnAt, List.length_cons]
    by_cases hzero : (place isBreak utf16Length front).1 = 0
    · rw [if_pos hzero]
      simp
      omega
    · rw [if_neg hzero, Prod.ext_iff]
      simp [hzero]
  | succ units =>
    rw [columnAt, if_neg (by simp [hc])]
    by_cases hfits : utf16Length c ≤ units + 1
    · have hrest := ih 0 (units + 1 - utf16Length c)
      rw [atLine_zero _ hlines] at hrest
      rw [if_pos hfits, map_succ_eq_length, hrest]
      by_cases hzero : (place isBreak utf16Length front).1 = 0
      · rw [if_pos hzero, Prod.ext_iff, Prod.ext_iff]
        simp only [hzero, true_and]
        omega
      · rw [if_neg hzero, Prod.ext_iff, Prod.ext_iff]
        simp [hzero]
    · rw [if_neg hfits]
      by_cases hzero : (place isBreak utf16Length front).1 = 0
      · rw [if_pos hzero, Prod.ext_iff]
        simp only [reduceCtorEq, true_and, false_iff]
        omega
      · rw [if_neg hzero, Prod.ext_iff]
        simp [hzero]

theorem found_behind_plain (line units : ℕ) :
    atLine isBreak (c :: (front ++ back)) line (columnAt isBreak · units) =
        some (c :: front).length ↔
      (if (place isBreak utf16Length front).1 = 0 then
        (0, utf16Length c + (place isBreak utf16Length front).2)
      else place isBreak utf16Length front) = (line, units) := by
  cases line with
  | zero => exact found_behind_plain_zero hc hpair ih units
  | succ line => exact found_behind_plain_succ hc hpair ih line units

end Plain

/-- A place of the text is found behind the part of the text that it is the place of. -/
theorem atLine_iff_place (hcr : isBreak '\r' = true) (front back : List Char)
    (hpair : ∀ pre more, front = pre ++ ['\r'] → back = '\n' :: more → False) (line units : ℕ) :
    atLine isBreak (front ++ back) line (columnAt isBreak · units) = some front.length ↔
      place isBreak utf16Length front = (line, units) := by
  fun_induction place isBreak utf16Length front generalizing line units with
  | case1 =>
    rw [List.length_nil, atLine_eq_zero, Prod.ext_iff]
    exact and_congr eq_comm eq_comm
  | case2 rest ih =>
    have hrest := ih fun pre more hpre => hpair ('\r' :: '\n' :: pre) more (by rw [hpre]; rfl)
    exact found_behind_break hcr (lines.eq_2 isBreak (rest ++ back)) hrest line units
  | case3 c rest hcut hc ih =>
    have hrest := ih fun pre more hpre => hpair (c :: pre) more (by rw [hpre]; rfl)
    exact found_behind_break hc (lines_break hc (pair_append hcut hpair)) hrest line units
  | case4 c rest hcut hc hzero ih =>
    have hrest := ih fun pre more hpre => hpair (c :: pre) more (by rw [hpre]; rfl)
    have hfound := found_behind_plain (by simpa using hc) (pair_append hcut hpair) hrest line units
    rwa [if_pos hzero] at hfound
  | case5 c rest hcut hc hzero ih =>
    have hrest := ih fun pre more hpre => hpair (c :: pre) more (by rw [hpre]; rfl)
    have hfound := found_behind_plain (by simpa using hc) (pair_append hcut hpair) hrest line units
    rwa [if_neg hzero] at hfound

end Found

/-! ## Where the two ways agree -/

section Agree

variable {isBreak : Char → Bool} {width : Char → ℕ}

theorem utf8Size_cases (c : Char) :
    c.utf8Size = 1 ∧ utf16Length c = 1 ∨ c.utf8Size = 2 ∧ utf16Length c = 1 ∨
      c.utf8Size = 3 ∧ utf16Length c = 1 ∨ c.utf8Size = 4 ∧ utf16Length c = 2 := by
  simp only [Char.utf8Size, utf16Length, UInt32.le_iff_toNat_le, UInt32.lt_iff_toNat_lt,
    UInt32.toNat_ofNatLT, UInt32.toNat_ofNat]
  split_ifs <;> omega

theorem utf16Length_le_utf8Size (c : Char) : utf16Length c ≤ c.utf8Size := by
  have hcases := utf8Size_cases c
  omega

theorem utf16Length_eq_utf8Size_iff (c : Char) : utf16Length c = c.utf8Size ↔ c.utf8Size = 1 := by
  have hcases := utf8Size_cases c
  omega

theorem length_le_byteLength (text : List Char) : text.length ≤ byteLength text := by
  induction text with
  | nil => exact Nat.le_refl 0
  | cons c rest ih =>
    have hc := Char.utf8Size_pos c
    rw [byteLength_cons, List.length_cons]
    omega

theorem byteLength_lt_iff {text front other : List Char} (hfront : front <+: text) (hother : other <+: text) :
    byteLength front < byteLength other ↔ front.length < other.length := by
  rcases List.prefix_or_prefix_of_prefix hfront hother with ⟨more, rfl⟩ | ⟨more, rfl⟩
  · have hmore := length_le_byteLength more
    rw [byteLength_append, List.length_append]
    cases more with
    | nil => simp [byteLength]
    | cons c more =>
      rw [List.length_cons] at hmore ⊢
      omega
  · rw [byteLength_append, List.length_append]
    omega

theorem byteLength_eq_length_iff (text : List Char) :
    byteLength text = text.length ↔ ∀ c ∈ text, c.utf8Size = 1 := by
  induction text with
  | nil => simp [byteLength]
  | cons c rest ih =>
    have hc := Char.utf8Size_pos c
    have hle := length_le_byteLength rest
    rw [byteLength_cons, List.length_cons, List.forall_mem_cons, ← ih]
    omega

theorem unit_sum_le_byteLength (text : List Char) : (text.map utf16Length).sum ≤ byteLength text := by
  induction text with
  | nil => exact Nat.le_refl 0
  | cons c rest ih =>
    have hc := utf16Length_le_utf8Size c
    rw [byteLength_cons, List.map_cons, List.sum_cons]
    omega

/-- A text is as wide as its bytes exactly when all its characters are of one byte. -/
theorem byteLength_eq_unit_sum_iff (text : List Char) :
    byteLength text = (text.map utf16Length).sum ↔ ∀ c ∈ text, c.utf8Size = 1 := by
  induction text with
  | nil => simp [byteLength]
  | cons c rest ih =>
    have hc := utf16Length_le_utf8Size c
    have hrest := unit_sum_le_byteLength rest
    rw [byteLength_cons, List.map_cons, List.sum_cons, List.forall_mem_cons, ← ih,
      ← utf16Length_eq_utf8Size_iff]
    omega

theorem afterLast_cons_lineFeed (text : List Char) :
    afterLast '\n' ('\n' :: text) = afterLast '\n' text := by
  by_cases h : '\n' ∈ text
  · exact afterLast_append_of_mem ['\n'] h
  · rw [afterLast_of_notMem h]
    exact afterLast_append_cons [] text h

theorem afterLast_cons_of_mem {text : List Char} (c : Char) (h : '\n' ∈ text) :
    afterLast '\n' (c :: text) = afterLast '\n' text :=
  afterLast_append_of_mem [c] h

variable (width) in
/-- A line feed ends a line in either way of counting. -/
theorem count_le_place (hlf : isBreak '\n' = true) (text : List Char) :
    text.count '\n' ≤ (place isBreak width text).1 ∧
      (text.count '\n' = (place isBreak width text).1 ↔ OnlyLineFeeds isBreak text) := by
  fun_induction place isBreak width text with
  | case1 => simp [OnlyLineFeeds, withoutPairs]
  | case2 rest ih =>
    obtain ⟨hle, heq⟩ := ih
    have hcount : List.count '\n' ('\r' :: '\n' :: rest) = rest.count '\n' + 1 := by
      simp
    have honly : OnlyLineFeeds isBreak ('\r' :: '\n' :: rest) ↔ OnlyLineFeeds isBreak rest := by
      simp [OnlyLineFeeds, withoutPairs]
    rw [hcount, honly, ← heq]
    dsimp only
    omega
  | case3 c rest hpair hc ih =>
    obtain ⟨hle, heq⟩ := ih
    have honly : OnlyLineFeeds isBreak (c :: rest) ↔ c = '\n' ∧ OnlyLineFeeds isBreak rest := by
      rw [OnlyLineFeeds, withoutPairs.eq_3 _ _ hpair, List.forall_mem_cons]
      simp [OnlyLineFeeds, hc]
    rw [honly, ← heq]
    by_cases hfeed : c = '\n'
    · rw [hfeed, List.count_cons_self, eq_self_iff_true, true_and]
      dsimp only
      omega
    · have hnot : ¬ (c = '\n' ∧ rest.count '\n' = (place isBreak width rest).1) := fun h => hfeed h.1
      rw [List.count_cons_of_ne hfeed, iff_false_right hnot]
      dsimp only
      omega
  | case4 c rest hpair hc hzero ih =>
    obtain ⟨hle, heq⟩ := ih
    have hfeed : c ≠ '\n' := fun h => hc (h ▸ hlf)
    have honly : OnlyLineFeeds isBreak (c :: rest) ↔ OnlyLineFeeds isBreak rest := by
      rw [OnlyLineFeeds, withoutPairs.eq_3 _ _ hpair, List.forall_mem_cons]
      simp [OnlyLineFeeds, hc]
    rw [honly, ← heq, List.count_cons_of_ne hfeed, hzero]
    rw [hzero] at hle
    exact ⟨hle, Iff.rfl⟩
  | case5 c rest hpair hc hzero ih =>
    have hfeed : c ≠ '\n' := fun h => hc (h ▸ hlf)
    have honly : OnlyLineFeeds isBreak (c :: rest) ↔ OnlyLineFeeds isBreak rest := by
      rw [OnlyLineFeeds, withoutPairs.eq_3 _ _ hpair, List.forall_mem_cons]
      simp [OnlyLineFeeds, hc]
    rw [honly, List.count_cons_of_ne hfeed]
    exact ih

/-- With no other breaks the last line begins behind the last line feed. -/
theorem place_snd_of_onlyLineFeeds (hlf : isBreak '\n' = true) {text : List Char}
    (h : OnlyLineFeeds isBreak text) :
    (place isBreak width text).2 = ((afterLast '\n' text).map width).sum := by
  fun_induction place isBreak width text with
  | case1 => rfl
  | case2 rest ih =>
    have hrest : OnlyLineFeeds isBreak rest := fun c hc => h c (List.mem_cons_of_mem _ hc)
    rw [afterLast_cons_of_mem '\r' List.mem_cons_self, afterLast_cons_lineFeed]
    exact ih hrest
  | case3 c rest hpair hc ih =>
    rw [OnlyLineFeeds, withoutPairs.eq_3 _ _ hpair, List.forall_mem_cons] at h
    rw [h.1 hc, afterLast_cons_lineFeed]
    exact ih h.2
  | case4 c rest hpair hc hzero ih =>
    rw [OnlyLineFeeds, withoutPairs.eq_3 _ _ hpair, List.forall_mem_cons] at h
    have hnone : rest.count '\n' = 0 := by
      have := (count_le_place width hlf rest).1
      omega
    have hrest : '\n' ∉ rest := List.count_eq_zero.mp hnone
    have hfeed : c ≠ '\n' := fun heq => hc (heq ▸ hlf)
    have hboth : '\n' ∉ c :: rest := by
      rw [List.mem_cons, not_or]
      exact ⟨hfeed.symm, hrest⟩
    have hlast := ih h.2
    rw [afterLast_of_notMem hrest] at hlast
    rw [afterLast_of_notMem hboth, List.map_cons, List.sum_cons, hlast]
  | case5 c rest hpair hc hzero ih =>
    rw [OnlyLineFeeds, withoutPairs.eq_3 _ _ hpair, List.forall_mem_cons] at h
    have hsome : rest.count '\n' ≠ 0 := by
      rwa [((count_le_place width hlf rest).2.mpr h.2)]
    have hmem : '\n' ∈ rest := by
      by_contra hnot
      exact hsome (List.count_eq_zero.mpr hnot)
    rw [afterLast_cons_of_mem c hmem]
    exact ih h.2

/-- Rows and bytes are lines and units exactly when no break but the line feed has come and the last
line is of one byte a character. -/
theorem bytePlace_eq_place_iff (hlf : isBreak '\n' = true) (text : List Char) :
    bytePlace text = place isBreak utf16Length text ↔
      OnlyLineFeeds isBreak text ∧ LastLineAscii text := by
  obtain ⟨-, hrows⟩ := count_le_place utf16Length hlf text
  rw [bytePlace, Prod.ext_iff, LastLineAscii, ← byteLength_eq_unit_sum_iff]
  constructor
  · intro h
    obtain ⟨hrow, hcolumn⟩ := h
    have honly := hrows.mp hrow
    exact ⟨honly, hcolumn.trans (place_snd_of_onlyLineFeeds hlf honly)⟩
  · intro h
    obtain ⟨honly, hascii⟩ := h
    exact ⟨hrows.mpr honly, hascii.trans (place_snd_of_onlyLineFeeds hlf honly).symm⟩

end Agree

/-! ## A word behind a text -/

section Word

variable {isBreak : Char → Bool} {width : Char → ℕ}

theorem place_append (hlf : isBreak '\n' = true) (front : List Char) {word : List Char}
    (hword : ∀ c ∈ word, isBreak c = false) :
    place isBreak width (front ++ word) =
      ((place isBreak width front).1, (place isBreak width front).2 + (word.map width).sum) := by
  have hfeed : '\n' ∉ word := fun hmem => by simp [hword _ hmem] at hlf
  have hhead : ∀ more, word = '\n' :: more → False := fun more h => hfeed (h ▸ List.mem_cons_self)
  fun_induction place isBreak width front with
  | case1 =>
    rw [List.nil_append]
    induction word with
    | nil => rfl
    | cons c rest ih =>
      have hc : isBreak c = false := hword c List.mem_cons_self
      have hnot : '\n' ∉ rest := fun hmem => hfeed (List.mem_cons_of_mem _ hmem)
      have hrest := ih (fun d hd => hword d (List.mem_cons_of_mem _ hd)) hnot
        fun more h => hnot (h ▸ List.mem_cons_self)
      have hcut : ∀ more, c = '\r' → rest = '\n' :: more → False := fun more _ h =>
        hnot (h ▸ List.mem_cons_self)
      rw [place.eq_3 _ _ _ _ hcut, if_neg (by simp [hc]), hrest, if_pos rfl, List.map_cons, List.sum_cons]
      simp only [Nat.zero_add]
  | case2 rest ih => rw [List.cons_append, List.cons_append, place, ih]
  | case3 c rest hpair hc ih =>
    rw [List.cons_append, place.eq_3 _ _ _ _ (pair_append hpair fun pre more _ => hhead more),
      if_pos hc, ih]
  | case4 c rest hpair hc hzero ih =>
    rw [List.cons_append, place.eq_3 _ _ _ _ (pair_append hpair fun pre more _ => hhead more),
      if_neg hc, ih, if_pos hzero, Nat.add_assoc]
  | case5 c rest hpair hc hzero ih =>
    rw [List.cons_append, place.eq_3 _ _ _ _ (pair_append hpair fun pre more _ => hhead more),
      if_neg hc, ih, if_neg hzero]

theorem bytePlace_append (front : List Char) {word : List Char} (hword : '\n' ∉ word) :
    bytePlace (front ++ word) =
      ((bytePlace front).1, (bytePlace front).2 + byteLength word) := by
  rw [bytePlace, bytePlace, List.count_append, List.count_eq_zero.mpr hword,
    afterLast_append_of_notMem front hword, byteLength_append]
  rfl

theorem lastLineAscii_append (front : List Char) {word : List Char} (hword : '\n' ∉ word) :
    LastLineAscii (front ++ word) ↔ LastLineAscii front ∧ ∀ c ∈ word, c.utf8Size = 1 := by
  rw [LastLineAscii, afterLast_append_of_notMem front hword, List.forall_mem_append, LastLineAscii]

/-- A word's beginning and end have one place in either way of counting. -/
def PlainUpTo (isBreak : Char → Bool) (front word : List Char) : Prop :=
  OnlyLineFeeds isBreak front ∧ LastLineAscii (front ++ word)

theorem word_agree_iff (hlf : isBreak '\n' = true) (front : List Char) {word : List Char}
    (hword : ∀ c ∈ word, isBreak c = false) :
    bytePlace front = place isBreak utf16Length front ∧
        bytePlace (front ++ word) = place isBreak utf16Length (front ++ word) ↔
      PlainUpTo isBreak front word := by
  have hfeed : '\n' ∉ word := fun hmem => by simp [hword _ hmem] at hlf
  have hstart := bytePlace_eq_place_iff hlf front
  rw [PlainUpTo, lastLineAscii_append front hfeed, ← byteLength_eq_unit_sum_iff, bytePlace_append front hfeed,
    place_append hlf front hword]
  constructor
  · intro h
    obtain ⟨hfront, hboth⟩ := h
    obtain ⟨honly, hlast⟩ := hstart.mp hfront
    rw [hfront, Prod.mk.injEq] at hboth
    exact ⟨honly, hlast, Nat.add_left_cancel hboth.2⟩
  · intro h
    obtain ⟨honly, hlast, hwide⟩ := h
    have hfront := hstart.mpr ⟨honly, hlast⟩
    exact ⟨hfront, by rw [hfront, hwide]⟩

/-- Of two texts that begin alike and have equally many line feeds, one ends in the other's last line. -/
theorem exists_same_row {front text : List Char} (h : front <+: text)
    (hrow : front.count '\n' = text.count '\n') :
    ∃ more, text = front ++ more ∧ '\n' ∉ more := by
  obtain ⟨more, hmore⟩ := h
  refine ⟨more, hmore.symm, List.count_eq_zero.mp ?_⟩
  rw [← hmore, List.count_append] at hrow
  omega

theorem eq_of_bytePlace_eq {front text : List Char} (h : front <+: text)
    (hplace : bytePlace front = bytePlace text) : front = text := by
  obtain ⟨more, htext, hmore⟩ := exists_same_row h (congrArg Prod.fst hplace)
  rw [htext, bytePlace_append front hmore, Prod.ext_iff] at hplace
  have hnone : byteLength more = 0 := by
    have := hplace.2
    dsimp only at this
    omega
  cases more with
  | nil => rw [htext, List.append_nil]
  | cons c rest =>
    have hsize := c.utf8Size_pos
    rw [byteLength_cons] at hnone
    omega

/-- A text has one beginning at a given row and column of bytes. -/
theorem eq_of_same_bytePlace {text front other : List Char} (hfront : front <+: text)
    (hother : other <+: text) (hplace : bytePlace front = bytePlace other) : front = other := by
  cases List.prefix_or_prefix_of_prefix hfront hother with
  | inl h => exact eq_of_bytePlace_eq h hplace
  | inr h => exact (eq_of_bytePlace_eq h hplace.symm).symm

/-- The bytes of a stretch around a word are the units of the word exactly when the stretch is the word
itself and the word is plain. -/
theorem stretch_agree_iff (hlf : isBreak '\n' = true) {start front word stop : List Char}
    (hword : ∀ c ∈ word, isBreak c = false) (hstart : start <+: front)
    (hstop : front ++ word <+: stop) :
    bytePlace start = place isBreak utf16Length front ∧
        bytePlace stop = place isBreak utf16Length (front ++ word) ↔
      start = front ∧ stop = front ++ word ∧ PlainUpTo isBreak front word := by
  constructor
  · intro h
    obtain ⟨hbegin, hend⟩ := h
    have hfeed : '\n' ∉ word := fun hmem => by simp [hword _ hmem] at hlf
    -- The rows: `start` is not below `front`, `stop` is not above it, and lines are at least rows.
    have hrowStart : start.count '\n' = (place isBreak utf16Length front).1 :=
      congrArg Prod.fst hbegin
    have hrowStop : stop.count '\n' = (place isBreak utf16Length front).1 := by
      rw [place_append hlf front hword] at hend
      exact congrArg Prod.fst hend
    have hbelow : start.count '\n' ≤ front.count '\n' := hstart.sublist.count_le _
    have hword' : (front ++ word).count '\n' = front.count '\n' := by
      rw [List.count_append, List.count_eq_zero.mpr hfeed, Nat.add_zero]
    have habove : front.count '\n' ≤ stop.count '\n' := by
      rw [← hword']
      exact hstop.sublist.count_le _
    obtain ⟨hle, heq⟩ := count_le_place utf16Length hlf front
    have honly : OnlyLineFeeds isBreak front := heq.mp (by omega)
    have honlyBoth : OnlyLineFeeds isBreak (front ++ word) := by
      refine (count_le_place utf16Length hlf _).2.mp ?_
      rw [place_append hlf front hword, hword']
      exact heq.mpr honly
    -- The columns: what stands behind the word on its row adds bytes, and bytes are at least units.
    obtain ⟨more, hmore, hnot⟩ := exists_same_row hstop (by omega)
    have hcolumn := congrArg Prod.snd hend
    rw [place_snd_of_onlyLineFeeds hlf honlyBoth, hmore, bytePlace_append _ hnot, bytePlace] at hcolumn
    have hunits := unit_sum_le_byteLength (afterLast '\n' (front ++ word))
    have hascii : LastLineAscii (front ++ word) := by
      refine (byteLength_eq_unit_sum_iff _).mp ?_
      dsimp only at hcolumn
      omega
    have hboth := (bytePlace_eq_place_iff hlf (front ++ word)).mpr ⟨honlyBoth, hascii⟩
    have hfront := (bytePlace_eq_place_iff hlf front).mpr
      ⟨honly, ((lastLineAscii_append front hfeed).mp hascii).1⟩
    exact ⟨eq_of_bytePlace_eq hstart (hbegin.trans hfront.symm),
      (eq_of_bytePlace_eq hstop (hboth.trans hend.symm)).symm, honly, hascii⟩
  · intro h
    obtain ⟨rfl, rfl, hplain⟩ := h
    exact (word_agree_iff hlf start hword).mpr hplain

end Word

/-! ## Lines without their breaks -/

/-- `str::lines`: only a line feed, or the pair, ends a line, and no empty line follows the last one. -/
def strLines : List Char → List (List Char)
  | [] => []
  | '\r' :: '\n' :: rest => [] :: strLines rest
  | c :: rest => if c = '\n' then [] :: strLines rest else prepend c (strLines rest)

/-- One character more on the first line. -/
theorem exists_front_behind {c : Char} (hc : c ≠ '\n') {text : List Char}
    (ih : ∀ {row : ℕ} {before rest : List Char}, (strLines text)[row]? = some (before ++ rest) →
      ∃ front back, text = front ++ (rest ++ back) ∧ front.count '\n' = row ∧
        afterLast '\n' front = before)
    {row : ℕ} {before rest : List Char}
    (h : (prepend c (strLines text))[row]? = some (before ++ rest)) :
    ∃ front back, c :: text = front ++ (rest ++ back) ∧ front.count '\n' = row ∧
      afterLast '\n' front = before := by
  cases hlines : strLines text with
  | nil =>
    rw [hlines, prepend] at h
    cases row with
    | succ row => cases h
    | zero =>
      rw [List.getElem?_cons_zero, Option.some.injEq] at h
      cases before with
      | nil => exact ⟨[], text, by rw [← List.nil_append rest, ← h]; rfl, rfl, rfl⟩
      | cons d before =>
        rw [List.cons_append, List.cons.injEq] at h
        obtain ⟨rfl, hnil⟩ := h
        obtain ⟨rfl, rfl⟩ := List.append_eq_nil_iff.mp hnil.symm
        have hnot : '\n' ∉ [c] := by simpa using fun h => hc h.symm
        exact ⟨[c], text, rfl, List.count_eq_zero.mpr hnot, afterLast_of_notMem hnot⟩
  | cons line others =>
    rw [hlines, prepend] at h
    cases row with
    | succ row =>
      rw [List.getElem?_cons_succ, ← List.getElem?_cons_succ (a := line), ← hlines] at h
      obtain ⟨front, back, rfl, hrow, hlast⟩ := ih h
      have hmem : '\n' ∈ front := List.count_pos_iff.mp (by omega)
      refine ⟨c :: front, back, rfl, ?_, ?_⟩
      · rw [List.count_cons_of_ne hc, hrow]
      · rw [afterLast_cons_of_mem c hmem, hlast]
    | zero =>
      rw [List.getElem?_cons_zero, Option.some.injEq] at h
      cases before with
      | nil =>
        have hline : (strLines text)[0]? = some ([] ++ line) := by
          rw [hlines, List.getElem?_cons_zero, List.nil_append]
        obtain ⟨front, back, htext, hrow, hlast⟩ := ih hline
        rw [afterLast_of_notMem (List.count_eq_zero.mp hrow)] at hlast
        rw [hlast, List.nil_append] at htext
        refine ⟨[], back, ?_, rfl, rfl⟩
        rw [List.nil_append, ← List.nil_append rest, ← h, htext]
        rfl
      | cons d before =>
        rw [List.cons_append, List.cons.injEq] at h
        obtain ⟨rfl, rfl⟩ := h
        have hline : (strLines text)[0]? = some (before ++ rest) := by
          rw [hlines, List.getElem?_cons_zero]
        obtain ⟨front, back, rfl, hrow, hlast⟩ := ih hline
        have hfront := List.count_eq_zero.mp hrow
        have hnot : '\n' ∉ c :: front := by
          rw [List.mem_cons, not_or]
          exact ⟨fun h => hc h.symm, hfront⟩
        refine ⟨c :: front, back, rfl, List.count_eq_zero.mpr hnot, ?_⟩
        rw [afterLast_of_notMem hnot, ← hlast, afterLast_of_notMem hfront]

/-- A part of a line lies in the text, on the line's row and behind what the line has before it. -/
theorem exists_front_of_strLines {text : List Char} {row : ℕ} {before rest : List Char}
    (h : (strLines text)[row]? = some (before ++ rest)) :
    ∃ front back, text = front ++ (rest ++ back) ∧ front.count '\n' = row ∧
      afterLast '\n' front = before := by
  fun_induction strLines text generalizing row before rest with
  | case1 => cases h
  | case2 text ih =>
    cases row with
    | zero =>
      rw [List.getElem?_cons_zero, Option.some.injEq] at h
      obtain ⟨rfl, rfl⟩ := List.append_eq_nil_iff.mp h.symm
      exact ⟨[], '\r' :: '\n' :: text, rfl, rfl, rfl⟩
    | succ row =>
      rw [List.getElem?_cons_succ] at h
      obtain ⟨front, back, rfl, hrow, hlast⟩ := ih h
      refine ⟨'\r' :: '\n' :: front, back, rfl, ?_, ?_⟩
      · rw [← hrow]
        simp
      · rw [afterLast_cons_of_mem '\r' List.mem_cons_self, afterLast_cons_lineFeed, hlast]
  | case3 text hpair ih =>
    cases row with
    | zero =>
      rw [List.getElem?_cons_zero, Option.some.injEq] at h
      obtain ⟨rfl, rfl⟩ := List.append_eq_nil_iff.mp h.symm
      exact ⟨[], '\n' :: text, rfl, rfl, rfl⟩
    | succ row =>
      rw [List.getElem?_cons_succ] at h
      obtain ⟨front, back, rfl, hrow, hlast⟩ := ih h
      refine ⟨'\n' :: front, back, rfl, ?_, ?_⟩
      · rw [← hrow, List.count_cons_self]
      · rw [afterLast_cons_lineFeed, hlast]
  | case4 c text hpair hc ih => exact exists_front_behind hc ih h

end JavaAnalyzer.TextPlaces
