import JavaAnalyzer.Language.RopeUtils
import JavaAnalyzer.Library.LineColumns

/-! # Positions and offsets

`rope_byte_offset_to_line_col` of `language/rope_utils.rs`, and `rope_line_col_to_offset` behind it. -/

namespace JavaAnalyzer.Language
set_option autoImplicit false
open TextLines TextPlaces

namespace Rope

def lenBytes (rope : Rope) : ℕ :=
  byteLength rope.chars

def charToLine (isBreak : Char → Bool) (rope : Rope) (char : ℕ) : ℕ :=
  lineOfChar (lines isBreak rope.chars) char

def lineToChar (isBreak : Char → Bool) (rope : Rope) (line : ℕ) : ℕ :=
  lineStart (lines isBreak rope.chars) line

def slice (rope : Rope) (start stop : ℕ) : List Char :=
  (rope.chars.take stop).drop start

end Rope

/-- `as u32` -/
def asU32 (n : ℕ) : ℕ :=
  n % 2 ^ 32

def ropeByteOffsetToLineCol (isBreak : Char → Bool) (rope : Rope) (offset : ℕ) : Option (ℕ × ℕ) :=
  (rope.byteToChar (min offset rope.lenBytes)).map fun charIdx =>
    let lineIdx := rope.charToLine isBreak charIdx
    let lineCharStart := rope.lineToChar isBreak lineIdx
    let character := utf16Units (rope.slice lineCharStart charIdx)
    (asU32 lineIdx, asU32 character)

/-! ## Bytes of the text -/

section Bytes

variable {text : List Char} {m n : ℕ}

theorem byteLength_take_lt_iff (hm : m ≤ text.length) (hn : n ≤ text.length) :
    byteLength (text.take m) < byteLength (text.take n) ↔ m < n := by
  rw [byteLength_lt_iff (List.take_prefix m text) (List.take_prefix n text), List.length_take_of_le hm,
    List.length_take_of_le hn]

theorem byteLength_take_le_iff (hm : m ≤ text.length) (hn : n ≤ text.length) :
    byteLength (text.take m) ≤ byteLength (text.take n) ↔ m ≤ n := by
  rw [← not_lt, byteLength_take_lt_iff hn hm, not_lt]

theorem byteLength_take_inj (hm : m ≤ text.length) (hn : n ≤ text.length) :
    byteLength (text.take m) = byteLength (text.take n) ↔ m = n := by
  rw [le_antisymm_iff, byteLength_take_le_iff hm hn, byteLength_take_le_iff hn hm, ← le_antisymm_iff]

end Bytes

/-! ## There and back -/

/-- The line and the column are numbers of 32 bits. -/
def Fits (isBreak : Char → Bool) (rope : Rope) (char : ℕ) : Prop :=
  rope.charToLine isBreak char < 2 ^ 32 ∧
    utf16Units (rope.slice (rope.lineToChar isBreak (rope.charToLine isBreak char)) char) < 2 ^ 32

section RoundTrip

variable {isBreak : Char → Bool} {rope : Rope} {line n : ℕ} {l : List Char}

theorem standsIn_charToLine (h : n ≤ rope.chars.length) :
    StandsIn (lines isBreak rope.chars) (rope.charToLine isBreak n) n := by
  obtain ⟨first, others, hlines⟩ := exists_lines_eq isBreak rope.chars
  refine standsIn_lineOfChar (by simp [hlines]) ?_
  rwa [lines_flatten]

theorem slice_eq_take (hl : (lines isBreak rope.chars)[line]? = some l) (h : n ≤ l.length) :
    rope.slice (rope.lineToChar isBreak line) (rope.lineToChar isBreak line + n) = l.take n := by
  have htake := take_lineStart_add hl h
  rw [lines_flatten] at htake
  rw [Rope.slice, Rope.lineToChar, htake, lineStart, List.drop_left]

theorem ropeByteOffsetToLineCol_eq (h : n ≤ rope.chars.length) :
    ropeByteOffsetToLineCol isBreak rope (byteLength (rope.chars.take n)) =
      some (asU32 (rope.charToLine isBreak n),
        asU32 (utf16Units (rope.slice (rope.lineToChar isBreak (rope.charToLine isBreak n)) n))) := by
  have hwhole : byteLength (rope.chars.take n) ≤ rope.lenBytes := by
    have hle := (byteLength_take_le_iff h le_rfl).mpr h
    rwa [List.take_length] at hle
  rw [ropeByteOffsetToLineCol, Nat.min_eq_left hwhole, Rope.byteToChar_of_charAtByte (charAtByte_take rope.chars h)]
  rfl

theorem lineCol_finds_iff {character : ℕ} (h : n ≤ rope.chars.length) :
    ropeLineColToOffset isBreak rope line character = some (byteLength (rope.chars.take n)) ↔
      ∃ l, (lines isBreak rope.chars)[line]? = some l ∧
        rope.lineToChar isBreak line + columnWalk l character = n := by
  rw [ropeLineColToOffset_eq, Option.map_eq_some_iff]
  constructor
  · rintro ⟨m, hm, hbytes⟩
    obtain rfl := (byteLength_take_inj (walk_le_length hm) h).mp hbytes
    exact walk_eq_some_iff.mp hm
  · rintro hfound
    exact ⟨n, walk_eq_some_iff.mpr hfound, rfl⟩

/-- Of a position cut off to 32 bits, both numbers were of 32 bits if it is still found. -/
theorem fits_of_finds {m : ℕ} (hl : (lines isBreak rope.chars)[line]? = some l) (hm : m ≤ l.length)
    (h : ∃ cut, (lines isBreak rope.chars)[asU32 line]? = some cut ∧
      rope.lineToChar isBreak (asU32 line) + columnWalk cut (asU32 (utf16Units (l.take m))) =
        rope.lineToChar isBreak line + m) : line < 2 ^ 32 ∧ utf16Units (l.take m) < 2 ^ 32 := by
  obtain ⟨cut, hcut, hfound⟩ := h
  have hin := (List.getElem?_eq_some_iff.mp hl).1
  have hfits : line < 2 ^ 32 := by
    by_contra hbig
    have hless : asU32 line + 1 < line := by
      have hmod := Nat.mod_lt line (Nat.two_pow_pos 32)
      rw [asU32]
      omega
    have hnext : lineStart (lines isBreak rope.chars) (asU32 line + 1) < lineStart (lines isBreak rope.chars) line :=
      (lineStart_lt_succ (Nat.lt_of_le_of_lt hless hin)).trans_le (lineStart_mono _ hless)
    have hwalk := columnWalk_le_length cut (asU32 (utf16Units (l.take m)))
    rw [lineStart_succ hcut] at hnext
    rw [Rope.lineToChar, Rope.lineToChar] at hfound
    omega
  have hline : asU32 line = line := Nat.mod_eq_of_lt hfits
  rw [hline] at hfound hcut
  obtain rfl : l = cut := by simpa [hl] using hcut
  refine ⟨hfits, ?_⟩
  by_contra hbig
  have hless : asU32 (utf16Units (l.take m)) + 2 ≤ utf16Units (l.take m) := by
    have hmod := Nat.mod_lt (utf16Units (l.take m)) (Nat.two_pow_pos 32)
    rw [asU32]
    omega
  have hwalk := columnWalk_lt hm hless
  omega

/-- From an offset to its position and back. -/
theorem round_trip_iff (h : n ≤ rope.chars.length) :
    ((ropeByteOffsetToLineCol isBreak rope (byteLength (rope.chars.take n))).bind fun position =>
        ropeLineColToOffset isBreak rope position.1 position.2) = some (byteLength (rope.chars.take n)) ↔
      Fits isBreak rope n := by
  obtain ⟨l, hl, hstart, hend, -⟩ := @standsIn_charToLine isBreak rope n h
  rw [ropeByteOffsetToLineCol_eq h, Option.bind_some, lineCol_finds_iff h, Fits]
  generalize rope.charToLine isBreak n = line at *
  obtain ⟨m, rfl⟩ := Nat.exists_eq_add_of_le hstart
  have hm : m ≤ l.length := Nat.le_of_add_le_add_left hend
  have hslice : rope.slice (rope.lineToChar isBreak line) (lineStart (lines isBreak rope.chars) line + m) = l.take m :=
    slice_eq_take hl hm
  rw [hslice]
  constructor
  · exact fits_of_finds hl hm
  · rintro ⟨hline, hunits⟩
    rw [show asU32 line = line from Nat.mod_eq_of_lt hline,
      show asU32 (utf16Units (l.take m)) = utf16Units (l.take m) from Nat.mod_eq_of_lt hunits]
    exact ⟨l, hl, by rw [columnWalk_utf16Units hm]; rfl⟩

end RoundTrip

/-! ## In order -/

section Order

variable {isBreak : Char → Bool} {rope : Rope} {m n : ℕ}

/-- The units before the character on its line. -/
def columnOf (isBreak : Char → Bool) (rope : Rope) (char : ℕ) : ℕ :=
  utf16Units (rope.slice (rope.lineToChar isBreak (rope.charToLine isBreak char)) char)

theorem charToLine_mono (hle : m ≤ n) (hn : n ≤ rope.chars.length) :
    rope.charToLine isBreak m ≤ rope.charToLine isBreak n :=
  (standsIn_charToLine (hle.trans hn)).mono (standsIn_charToLine hn) hle

/-- On one line a later character has no smaller column. -/
theorem columnOf_mono (hle : m ≤ n) (hline : rope.charToLine isBreak m = rope.charToLine isBreak n) :
    columnOf isBreak rope m ≤ columnOf isBreak rope n := by
  rw [columnOf, columnOf, hline, Rope.slice, Rope.slice]
  obtain ⟨back, hback⟩ := List.take_prefix_take_left (l := rope.chars) hle
  rw [← hback, List.drop_append, utf16Units_append]
  exact Nat.le_add_right _ _

theorem utf16Units_slice_le (rope : Rope) (start stop : ℕ) :
    utf16Units (rope.slice start stop) ≤ byteLength (rope.chars.take stop) := by
  have hunits := unit_sum_le_byteLength (rope.slice start stop)
  have hbytes := byteLength_append ((rope.chars.take stop).take start) (rope.slice start stop)
  rw [Rope.slice, List.take_append_drop] at hbytes
  rw [utf16Units]
  rw [Rope.slice] at hunits ⊢
  omega

theorem charToLine_le (hn : n ≤ rope.chars.length) : rope.charToLine isBreak n ≤ byteLength (rope.chars.take n) := by
  obtain ⟨l, hl, hstart, -⟩ := @standsIn_charToLine isBreak rope n hn
  have hline := le_lineStart (List.getElem?_eq_some_iff.mp hl).1
  have hbytes := length_le_byteLength (rope.chars.take n)
  rw [List.length_take_of_le hn] at hbytes
  omega

/-- The character that a byte of the text belongs to. -/
theorem charOfByte_spec {text : List Char} {byte : ℕ} (h : byte ≤ byteLength text) :
    ∃ n ≤ text.length, Rope.charOfByte text byte = some n ∧ byteLength (text.take n) ≤ byte ∧
      (n < text.length → byte < byteLength (text.take (n + 1))) := by
  fun_induction Rope.charOfByte text byte with
  | case1 text =>
    refine ⟨0, Nat.zero_le _, rfl, Nat.le_refl 0, fun hpos => ?_⟩
    cases text with
    | nil => exact absurd hpos (Nat.lt_irrefl 0)
    | cons c rest =>
      rw [List.take_succ_cons, byteLength_cons]
      exact Nat.add_pos_left (Char.utf8Size_pos c) _
  | case2 => exact absurd h (Nat.not_succ_le_zero _)
  | case3 c rest byte hlt =>
    refine ⟨0, Nat.zero_le _, rfl, Nat.zero_le _, fun _ => ?_⟩
    rw [List.take_succ_cons, byteLength_cons]
    omega
  | case4 c rest byte hlt ih =>
    rw [byteLength_cons] at h
    obtain ⟨n, hn, hfound, hstart, hend⟩ := ih (by omega)
    refine ⟨n + 1, Nat.succ_le_succ hn, by rw [hfound]; rfl, ?_, fun hmore => ?_⟩
    · rw [List.take_succ_cons, byteLength_cons]
      omega
    · rw [List.take_succ_cons, byteLength_cons]
      have hless := hend (Nat.lt_of_succ_lt_succ hmore)
      omega

theorem byteToChar_mono {byte byte' : ℕ} (hm : rope.byteToChar byte = some m) (hn : rope.byteToChar byte' = some n)
    (hle : byte ≤ byte') (hin : byte' ≤ rope.lenBytes) : m ≤ n := by
  obtain ⟨m', hm', hfound, hstart, -⟩ := charOfByte_spec (hle.trans hin)
  obtain ⟨n', hn', hfound', -, hend⟩ := charOfByte_spec hin
  rw [Rope.byteToChar, hfound, Option.some.injEq] at hm
  rw [Rope.byteToChar, hfound', Option.some.injEq] at hn
  subst hm hn
  by_contra hlt
  have hmore : n' < rope.chars.length := (not_le.mp hlt).trans_le hm'
  have hless := hend hmore
  have hbytes : byteLength (rope.chars.take (n' + 1)) ≤ byteLength (rope.chars.take m') :=
    (byteLength_take_le_iff hmore hm').mpr (not_le.mp hlt)
  omega

end Order

/-! ## Columns behind the line -/

/-- The offset is one of the line, at most behind what stands before its break. -/
def OnLine (isBreak : Char → Bool) (rope : Rope) (line offset : ℕ) : Prop :=
  rope.lineToByte isBreak line ≤ offset ∧
    offset ≤ rope.lineToByte isBreak line + byteLength (lineContent isBreak (rope.line isBreak line))

section Clamping

variable {isBreak : Char → Bool} {rope : Rope} {line character : ℕ} {l : List Char}

theorem line_eq (hl : (lines isBreak rope.chars)[line]? = some l) : rope.line isBreak line = l := by
  rw [Rope.line, List.getD_eq_getElem?_getD, hl, Option.getD_some]

theorem lineCol_eq (hl : (lines isBreak rope.chars)[line]? = some l) :
    ropeLineColToOffset isBreak rope line character =
      some (rope.lineToByte isBreak line + byteLength (l.take (columnWalk l character))) := by
  have hin : ¬ line ≥ rope.lenLines isBreak := not_le.mpr (List.getElem?_eq_some_iff.mp hl).1
  rw [ropeLineColToOffset, if_neg hin, line_eq hl, walkLine_eq, Nat.zero_add, Nat.sub_zero]

theorem onLine_iff (hl : (lines isBreak rope.chars)[line]? = some l) :
    OnLine isBreak rope line (rope.lineToByte isBreak line + byteLength (l.take (columnWalk l character))) ↔
      character ≤ utf16Units (lineContent isBreak l) ∨ lineContent isBreak l = l := by
  have hcontent := (@lineContent_begins isBreak l).length_le
  rw [OnLine, line_eq hl, and_iff_right (Nat.le_add_right _ _), Nat.add_le_add_iff_left]
  conv_lhs => rw [lineContent_eq_take l]
  rw [byteLength_take_le_iff (columnWalk_le_length l character) hcontent, columnWalk_le_iff hcontent,
    ← lineContent_eq_take, ← lineContent_eq_iff]

theorem charToLine_eq_iff {n : ℕ} (h : n ≤ rope.chars.length) :
    rope.charToLine isBreak n = line ↔ StandsIn (lines isBreak rope.chars) line n :=
  ⟨fun heq => heq ▸ standsIn_charToLine h, fun hstands => (standsIn_charToLine h).unique hstands⟩

/-- The rope has the offset in the line unless the walk went over the line and its whole break. -/
theorem charToLine_found_iff (hl : (lines isBreak rope.chars)[line]? = some l) :
    (rope.byteToChar (rope.lineToByte isBreak line + byteLength (l.take (columnWalk l character)))).map
        (rope.charToLine isBreak) = some line ↔
      character ≤ utf16Units l.dropLast ∨ lineContent isBreak l = l := by
  have hwalk := columnWalk_le_length l character
  have hn : lineStart (lines isBreak rope.chars) line + columnWalk l character ≤ rope.chars.length :=
    walk_le_length (walk_eq_some_iff.mpr ⟨l, hl, rfl⟩)
  have hoffset := (lineCol_finds_iff hn).mpr ⟨l, hl, rfl⟩
  rw [lineCol_eq hl, Option.some.injEq] at hoffset
  rw [hoffset, Rope.byteToChar_of_charAtByte (charAtByte_take rope.chars hn), Option.map_some, Option.some.injEq,
    charToLine_eq_iff hn, lineContent_eq_self_iff hl]
  have hstands : StandsIn (lines isBreak rope.chars) line
      (lineStart (lines isBreak rope.chars) line + columnWalk l character) ↔
        (line + 1 < (lines isBreak rope.chars).length → columnWalk l character < l.length) := by
    rw [StandsIn, hl]
    simp only [Option.some.injEq, exists_eq_left', Nat.add_lt_add_iff_left]
    exact ⟨fun h => h.2.2, fun h => ⟨Nat.le_add_right _ _, Nat.add_le_add_left hwalk _, h⟩⟩
  have hin := (List.getElem?_eq_some_iff.mp hl).1
  rw [hstands]
  by_cases hlast : line + 1 = (lines isBreak rope.chars).length
  · exact iff_of_true (fun hmore => absurd hlast hmore.ne) (.inr hlast)
  · have hmore : line + 1 < (lines isBreak rope.chars).length := lt_of_le_of_ne hin hlast
    have hne : l ≠ [] := by
      rintro rfl
      exact hlast ((lineContent_eq_self_iff hl).mp rfl)
    have hpos := List.length_pos_iff.mpr hne
    rw [forall_prop_of_true hmore, or_iff_left hlast, List.dropLast_eq_take, ← Nat.le_sub_one_iff_lt hpos,
      columnWalk_le_iff (Nat.sub_le _ _), or_iff_left (by omega)]

end Clamping

/-- An offset comes back from its position as long as its line and its column are of 32 bits. A column that is not behind
the line, or on a line without a break, gives an offset of the line; any other gives one in or behind the break. -/
theorem rope_positions_iff (isBreak : Char → Bool) (rope : Rope) :
    (∀ n ≤ rope.chars.length,
      (((ropeByteOffsetToLineCol isBreak rope (byteLength (rope.chars.take n))).bind fun position =>
          ropeLineColToOffset isBreak rope position.1 position.2) = some (byteLength (rope.chars.take n)) ↔
        Fits isBreak rope n)) ∧
      ∀ line l, (lines isBreak rope.chars)[line]? = some l → ∀ character,
        ∃ offset, ropeLineColToOffset isBreak rope line character = some offset ∧
          (OnLine isBreak rope line offset ↔
            character ≤ utf16Units (lineContent isBreak l) ∨ lineContent isBreak l = l) ∧
          ((rope.byteToChar offset).map (rope.charToLine isBreak) = some line ↔
            character ≤ utf16Units l.dropLast ∨ lineContent isBreak l = l) :=
  ⟨fun _ h => round_trip_iff h, fun _ _ hl _ => ⟨_, lineCol_eq hl, onLine_iff hl, charToLine_found_iff hl⟩⟩

/-- The column behind the five of `hello` gives the beginning of the next line. -/
theorem column_behind_line :
    ropeLineColToOffset (· == '\n') (.fromStr "hello\nworld".toList) 0 6 = some 6 ∧
      ¬ OnLine (· == '\n') (.fromStr "hello\nworld".toList) 0 6 ∧
      ropeByteOffsetToLineCol (· == '\n') (.fromStr "hello\nworld".toList) 6 = some (1, 0) := by
  refine ⟨by decide, fun h => absurd h.2 (by decide), by decide⟩

end JavaAnalyzer.Language
