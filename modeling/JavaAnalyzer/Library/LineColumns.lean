import JavaAnalyzer.Library.TextPlaces

/-! # Characters, lines and columns

The line that a character of the text stands in, and how far the walk over a line goes for a column: up to
the characters whose units reach it, and for a column behind the line up to the line's end, break included. -/

namespace JavaAnalyzer.TextLines
set_option autoImplicit false
open TextPlaces

/-! ## Columns -/

def utf16Units (text : List Char) : ℕ :=
  (text.map utf16Length).sum

theorem utf16Length_le (c : Char) : utf16Length c ≤ 2 := by
  unfold utf16Length
  split <;> decide

@[simp] theorem utf16Units_nil : utf16Units [] = 0 := rfl

@[simp] theorem utf16Units_cons (c : Char) (text : List Char) :
    utf16Units (c :: text) = utf16Length c + utf16Units text := by
  simp [utf16Units]

@[simp] theorem utf16Units_append (front back : List Char) :
    utf16Units (front ++ back) = utf16Units front + utf16Units back := by
  simp [utf16Units]

/-- The walk stays before a character unless the column is behind it, and never leaves the line. -/
theorem columnWalk_le_iff {line : List Char} {units n : ℕ} (h : n ≤ line.length) :
    columnWalk line units ≤ n ↔ units ≤ utf16Units (line.take n) ∨ n = line.length := by
  induction line generalizing units n with
  | nil =>
    obtain rfl : n = 0 := Nat.le_zero.mp h
    exact iff_of_true (Nat.le_refl 0) (.inr rfl)
  | cons c line ih =>
    have hpos := utf16Length_pos c
    rw [columnWalk]
    split_ifs with hunits
    · exact iff_of_true (Nat.zero_le n) (.inl (by omega))
    · cases n with
      | zero => simpa using hunits
      | succ n =>
        rw [Nat.add_le_add_iff_right, ih (Nat.le_of_succ_le_succ h), List.take_succ_cons, utf16Units_cons,
          List.length_cons]
        omega

theorem utf16Units_take_succ {text : List Char} {n : ℕ} (h : n < text.length) :
    utf16Units (text.take (n + 1)) = utf16Units (text.take n) + utf16Length text[n] := by
  rw [List.take_succ_eq_append_getElem h, utf16Units_append, utf16Units_cons, utf16Units_nil, Nat.add_zero]

theorem columnWalk_utf16Units {text : List Char} {n : ℕ} (h : n ≤ text.length) :
    columnWalk text (utf16Units (text.take n)) = n := by
  refine le_antisymm ((columnWalk_le_iff h).mpr (.inl le_rfl)) (not_lt.mp fun hlt => ?_)
  obtain ⟨m, rfl⟩ : ∃ m, n = m + 1 := ⟨n - 1, by omega⟩
  have hm : m < text.length := h
  rcases (columnWalk_le_iff hm.le).mp (Nat.le_of_lt_succ hlt) with hunits | hend
  · have hpos := utf16Length_pos text[m]
    rw [utf16Units_take_succ hm] at hunits
    omega
  · exact hm.ne hend

/-- A column that is short of a place by more than one character does not reach it. -/
theorem columnWalk_lt {text : List Char} {units n : ℕ} (hn : n ≤ text.length)
    (h : units + 2 ≤ utf16Units (text.take n)) : columnWalk text units < n := by
  cases n with
  | zero => exact absurd h (by simp)
  | succ m =>
    refine Nat.lt_succ_of_le ((columnWalk_le_iff (Nat.le_of_lt hn)).mpr (.inl ?_))
    have hlast := utf16Length_le text[m]
    rw [utf16Units_take_succ hn] at h
    omega

/-! ## The line of a character -/

/-- The line that the character stands in; the last one for the end of the text. -/
def lineOfChar : List (List Char) → ℕ → ℕ
  | [], _ => 0
  | [_], _ => 0
  | l :: next :: rest, n => if n < l.length then 0 else lineOfChar (next :: rest) (n - l.length) + 1

/-- The character lies in the line, and at its end only in the last one. -/
def StandsIn (ls : List (List Char)) (line n : ℕ) : Prop :=
  ∃ l, ls[line]? = some l ∧ lineStart ls line ≤ n ∧ n ≤ lineStart ls line + l.length ∧
    (line + 1 < ls.length → n < lineStart ls line + l.length)

theorem lineStart_zero (ls : List (List Char)) : lineStart ls 0 = 0 := rfl

theorem lineStart_cons_succ (l : List Char) (ls : List (List Char)) (line : ℕ) :
    lineStart (l :: ls) (line + 1) = l.length + lineStart ls line := by
  simp [lineStart]

theorem standsIn_cons_succ {l : List Char} {ls : List (List Char)} {line n : ℕ} (h : StandsIn ls line n) :
    StandsIn (l :: ls) (line + 1) (l.length + n) := by
  obtain ⟨found, hfound, hstart, hend, hlast⟩ := h
  refine ⟨found, hfound, ?_, ?_, fun hmore => ?_⟩
  · rw [lineStart_cons_succ]
    omega
  · rw [lineStart_cons_succ]
    omega
  · rw [lineStart_cons_succ]
    have hless := hlast (by simpa using hmore)
    omega

theorem standsIn_lineOfChar {ls : List (List Char)} {n : ℕ} (hne : ls ≠ []) (h : n ≤ ls.flatten.length) :
    StandsIn ls (lineOfChar ls n) n := by
  fun_induction lineOfChar ls n with
  | case1 => exact absurd rfl hne
  | case2 l n => exact ⟨l, rfl, Nat.zero_le n, by simpa [lineStart] using h, fun hmore => absurd hmore (by simp)⟩
  | case3 l next rest n hlt =>
    refine ⟨l, rfl, Nat.zero_le n, ?_, fun _ => ?_⟩ <;> rw [lineStart_zero] <;> omega
  | case4 l next rest n hlt ih =>
    have hrest : n - l.length ≤ (next :: rest).flatten.length := by
      rw [List.flatten_cons, List.length_append] at h
      omega
    have hstands := @standsIn_cons_succ l _ _ _ (ih (List.cons_ne_nil _ _) hrest)
    rwa [Nat.add_sub_cancel' (not_lt.mp hlt)] at hstands

theorem StandsIn.lt_next {ls : List (List Char)} {line n : ℕ} (h : StandsIn ls line n) (hmore : line + 1 < ls.length) :
    n < lineStart ls (line + 1) := by
  obtain ⟨l, hl, -, -, hlast⟩ := h
  rw [lineStart_succ hl]
  exact hlast hmore

theorem StandsIn.mono {ls : List (List Char)} {line line' n n' : ℕ} (h : StandsIn ls line n) (h' : StandsIn ls line' n')
    (hle : n ≤ n') : line ≤ line' := by
  by_contra hlt
  obtain ⟨l, hl, hstart, -⟩ := h
  have hin := (List.getElem?_eq_some_iff.mp hl).1
  have hnext := h'.lt_next (hin.trans_le' (Nat.succ_le_of_lt (not_le.mp hlt)))
  have hmono := lineStart_mono ls (Nat.succ_le_of_lt (not_le.mp hlt))
  exact absurd (hnext.trans_le (hmono.trans (hstart.trans hle))) (Nat.lt_irrefl n')

/-- A character stands in one line only. -/
theorem StandsIn.unique {ls : List (List Char)} {line line' n : ℕ} (h : StandsIn ls line n) (h' : StandsIn ls line' n) :
    line = line' :=
  le_antisymm (h.mono h' le_rfl) (h'.mono h le_rfl)

/-! ## Lines without their breaks -/

def lineContent (isBreak : Char → Bool) : List Char → List Char
  | [] => []
  | ['\r', '\n'] => []
  | [c] => if isBreak c then [] else [c]
  | c :: rest => c :: lineContent isBreak rest

section Content

variable {isBreak : Char → Bool}

theorem lineContent_begins (line : List Char) : lineContent isBreak line <+: line := by
  fun_induction lineContent isBreak line with
  | case1 => exact List.nil_prefix
  | case2 => exact List.nil_prefix
  | case3 => exact List.nil_prefix
  | case4 => exact List.prefix_rfl
  | case5 c rest _ _ ih => exact (List.prefix_cons_inj c).mpr ih

theorem lineContent_eq_take (line : List Char) :
    lineContent isBreak line = line.take (lineContent isBreak line).length :=
  List.prefix_iff_eq_take.mp (lineContent_begins line)

theorem lineContent_eq_iff {line : List Char} :
    lineContent isBreak line = line ↔ (lineContent isBreak line).length = line.length :=
  ⟨congrArg List.length, (lineContent_begins line).eq_of_length⟩

theorem lineContent_cons {c : Char} {first : List Char} (hc : isBreak c = false)
    (hpair : ∀ more, c = '\r' → first = '\n' :: more → False) :
    lineContent isBreak (c :: first) = c :: lineContent isBreak first := by
  cases first with
  | nil => simp [lineContent, hc]
  | cons d first => rw [lineContent]; all_goals simp_all

/-- A line that is only a break is not the last one. -/
theorem lineContent_eq_self_break {first : List Char} {others : List (List Char)} {line : List Char} {i : ℕ}
    (hne : others ≠ []) (hfirst : lineContent isBreak first = []) (hne' : first ≠ [])
    (ih : ∀ {i line}, others[i]? = some line → (lineContent isBreak line = line ↔ i + 1 = others.length))
    (h : (first :: others)[i]? = some line) :
    lineContent isBreak line = line ↔ i + 1 = (first :: others).length := by
  cases i with
  | zero =>
    cases h
    have hmore := List.length_pos_iff.mpr hne
    rw [hfirst, List.length_cons]
    exact iff_of_false hne'.symm (by omega)
  | succ i =>
    rw [ih h, List.length_cons]
    omega

/-- A line has its break, unless it is the last one. -/
theorem lineContent_eq_self_iff {text line : List Char} {i : ℕ} (h : (lines isBreak text)[i]? = some line) :
    lineContent isBreak line = line ↔ i + 1 = (lines isBreak text).length := by
  have hne : ∀ text, lines isBreak text ≠ [] := by
    intro text hnil
    obtain ⟨first, others, heq⟩ := exists_lines_eq isBreak text
    rw [hnil] at heq
    cases heq
  fun_induction lines isBreak text generalizing i line with
  | case1 =>
    cases i with
    | zero =>
      cases h
      exact iff_of_true rfl rfl
    | succ i => cases h
  | case2 rest ih => exact lineContent_eq_self_break (hne rest) rfl (List.cons_ne_nil _ _) ih h
  | case3 c rest hpair hc ih =>
    refine lineContent_eq_self_break (hne rest) ?_ (List.cons_ne_nil _ _) ih h
    rw [lineContent, if_pos hc]
  | case4 c rest hpair hc ih =>
    obtain ⟨first, others, hrest⟩ := exists_lines_eq isBreak rest
    rw [hrest] at h ih
    rw [hrest, prepend, List.length_cons, ← List.length_cons]
    cases i with
    | zero =>
      obtain rfl : c :: first = line := by simpa [prepend] using h
      have hflat := lines_flatten isBreak rest
      rw [hrest, List.flatten_cons] at hflat
      have hself : lineContent isBreak first = first ↔ 0 + 1 = (first :: others).length := ih rfl
      rw [lineContent_cons (by simpa using hc) fun more hcr hfirst => hpair _ hcr (by rw [← hflat, hfirst]; rfl),
        List.cons.injEq, hself]
      exact and_iff_right rfl
    | succ i => exact ih h

/-- Every line but the last has characters. -/
theorem lineStart_lt_succ {text : List Char} {i : ℕ} (h : i + 1 < (lines isBreak text).length) :
    lineStart (lines isBreak text) i < lineStart (lines isBreak text) (i + 1) := by
  have hget := List.getElem?_eq_getElem (Nat.lt_of_succ_lt h)
  have hcontent := mt (lineContent_eq_self_iff hget).mp h.ne
  have hne : (lines isBreak text)[i] ≠ [] := fun hnil => hcontent (by rw [hnil]; rfl)
  have hpos := List.length_pos_iff.mpr hne
  rw [lineStart_succ hget]
  omega

theorem le_lineStart {text : List Char} {i : ℕ} (h : i < (lines isBreak text).length) :
    i ≤ lineStart (lines isBreak text) i := by
  induction i with
  | zero => exact Nat.zero_le _
  | succ i ih => exact (ih (Nat.lt_of_succ_lt h)).trans_lt (lineStart_lt_succ h)

end Content

/-! ## Rows -/

section Rows

variable {isBreak : Char → Bool} {text : List Char}

/-- A line feed ends its line. -/
theorem lineFeed_notMem_dropLast (hlf : isBreak '\n' = true) {l : List Char} (hl : l ∈ lines isBreak text) :
    '\n' ∉ l.dropLast := by
  fun_induction lines isBreak text generalizing l with
  | case1 =>
    obtain rfl := List.mem_singleton.mp hl
    exact List.not_mem_nil
  | case2 rest ih =>
    rcases List.mem_cons.mp hl with rfl | hl
    · decide
    · exact ih hl
  | case3 c rest hpair hc ih =>
    rcases List.mem_cons.mp hl with rfl | hl
    · exact List.not_mem_nil
    · exact ih hl
  | case4 c rest hpair hc ih =>
    obtain ⟨first, others, hrest⟩ := exists_lines_eq isBreak rest
    rw [hrest] at hl ih
    rcases List.mem_cons.mp hl with rfl | hl
    · have hfeed : '\n' ≠ c := fun heq => hc (heq ▸ hlf)
      have hfirst := ih List.mem_cons_self
      cases first with
      | nil => exact List.not_mem_nil
      | cons d first =>
        rw [List.dropLast_cons_cons, List.mem_cons, not_or]
        exact ⟨hfeed, hfirst⟩
    · exact ih (List.mem_cons_of_mem _ hl)

theorem count_lineFeed_of_last {l : List Char} (h : '\n' ∉ l.dropLast) :
    l.count '\n' = if '\n' ∈ l then 1 else 0 := by
  split_ifs with hmem
  · have hne : l ≠ [] := List.ne_nil_of_mem hmem
    rw [← List.dropLast_append_getLast hne, List.mem_append, or_iff_right h, List.mem_singleton] at hmem
    rw [← List.dropLast_append_getLast hne, List.count_append, List.count_eq_zero.mpr h, ← hmem]
    rfl
  · exact List.count_eq_zero.mpr hmem

/-- There are as many line feeds as lines exactly when every line has one. -/
theorem count_flatten_lines {ls : List (List Char)} (h : ∀ l ∈ ls, '\n' ∉ l.dropLast) :
    ls.flatten.count '\n' ≤ ls.length ∧ (ls.flatten.count '\n' = ls.length ↔ ∀ l ∈ ls, '\n' ∈ l) := by
  induction ls with
  | nil => simp
  | cons l ls ih =>
    obtain ⟨hle, heq⟩ := ih fun k hk => h k (List.mem_cons_of_mem l hk)
    have hfirst := count_lineFeed_of_last (h l List.mem_cons_self)
    rw [List.flatten_cons, List.count_append, List.length_cons, List.forall_mem_cons, ← heq]
    split_ifs at hfirst with hmem
    · simp only [hmem, true_and]
      omega
    · simp only [hmem, false_and, iff_false]
      omega

theorem byteLength_afterLast_lt {back : List Char} (h : '\n' ∈ back) :
    byteLength (Text.afterLast '\n' back) < byteLength back := by
  obtain ⟨pre, post, rfl, hpost⟩ := exists_last h
  have hpos := Char.utf8Size_pos '\n'
  rw [afterLast_append_cons _ _ hpost, byteLength_append, byteLength_cons]
  omega

theorem afterLast_flatten_lines {ls : List (List Char)} (h : ∀ l ∈ ls, '\n' ∉ l.dropLast) (hall : ∀ l ∈ ls, '\n' ∈ l) :
    Text.afterLast '\n' ls.flatten = [] := by
  rcases List.eq_nil_or_concat' ls with rfl | ⟨front, l, rfl⟩
  · rfl
  · have hl : l ∈ front ++ [l] := List.mem_append_right _ List.mem_cons_self
    have hne : l ≠ [] := List.ne_nil_of_mem (hall l hl)
    have hlast := hall l hl
    rw [← List.dropLast_append_getLast hne, List.mem_append, or_iff_right (h l hl), List.mem_singleton] at hlast
    rw [List.flatten_append, List.flatten_singleton, afterLast_append_of_mem _ (hall l hl),
      ← List.dropLast_append_getLast hne, ← hlast]
    exact afterLast_append_cons _ _ List.not_mem_nil

/-- A place in a line has the line's number for its row, and its bytes in the line for its column, exactly when every line
above ends in a line feed and the place is not behind one of its own line. -/
theorem bytePlace_line_iff {ls : List (List Char)} {back : List Char} (h : ∀ l ∈ ls, '\n' ∉ l.dropLast) :
    bytePlace (ls.flatten ++ back) = (ls.length, byteLength back) ↔ (∀ l ∈ ls, '\n' ∈ l) ∧ '\n' ∉ back := by
  obtain ⟨-, hrows⟩ := count_flatten_lines h
  constructor
  · intro hplace
    have hback : '\n' ∉ back := by
      intro hmem
      have hcolumn := congrArg Prod.snd hplace
      rw [bytePlace, afterLast_append_of_mem _ hmem] at hcolumn
      exact (byteLength_afterLast_lt hmem).ne hcolumn
    rw [bytePlace_append _ hback] at hplace
    exact ⟨hrows.mp (congrArg Prod.fst hplace), hback⟩
  · rintro ⟨hall, hback⟩
    rw [bytePlace_append _ hback, bytePlace, hrows.mpr hall, afterLast_flatten_lines h hall]
    exact congrArg (Prod.mk _) (Nat.zero_add _)

end Rows

end JavaAnalyzer.TextLines
