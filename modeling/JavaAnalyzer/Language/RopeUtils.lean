import JavaAnalyzer.Library.TextLines

/-! # Ropes

A rope is the characters it holds. The library that provides it is not part of the repository: which
single characters it takes as line breaks (a feature of the library) is the parameter `isBreak`, and
what it panics on is `none`. `rope_line_col_to_offset` is the one of `language/rope_utils.rs`. -/

namespace JavaAnalyzer.Language
set_option autoImplicit false
open TextLines

structure Rope where
  chars : List Char
deriving DecidableEq, Repr

namespace Rope

def fromStr (text : List Char) : Rope := ⟨text⟩

def lenLines (isBreak : Char → Bool) (rope : Rope) : ℕ :=
  (lines isBreak rope.chars).length

def lineToByte (isBreak : Char → Bool) (rope : Rope) (line : ℕ) : ℕ :=
  byteLength ((lines isBreak rope.chars).take line).flatten

def line (isBreak : Char → Bool) (rope : Rope) (line : ℕ) : List Char :=
  (lines isBreak rope.chars).getD line []

/-- The character that the byte belongs to. -/
def charOfByte : List Char → ℕ → Option ℕ
  | _, 0 => some 0
  | [], _ + 1 => none
  | c :: rest, byte + 1 =>
    if byte + 1 < c.utf8Size then some 0
    else (charOfByte rest (byte + 1 - c.utf8Size)).map (· + 1)

def byteToChar (rope : Rope) (byte : ℕ) : Option ℕ :=
  charOfByte rope.chars byte

def remove (rope : Rope) (start stop : ℕ) : Option Rope :=
  if start ≤ stop ∧ stop ≤ rope.chars.length then
    some ⟨rope.chars.take start ++ rope.chars.drop stop⟩
  else none

def insert (rope : Rope) (start : ℕ) (text : List Char) : Option Rope :=
  if start ≤ rope.chars.length then
    some ⟨rope.chars.take start ++ text ++ rope.chars.drop start⟩
  else none

end Rope

/-- The walk over one line: the bytes met so far when the units reach the column. -/
def walkLine (character : ℕ) : List Char → ℕ → ℕ → ℕ
  | [], _, byteOffset => byteOffset
  | ch :: rest, utf16Units, byteOffset =>
    if utf16Units ≥ character then byteOffset
    else walkLine character rest (utf16Units + utf16Length ch) (byteOffset + ch.utf8Size)

def ropeLineColToOffset (isBreak : Char → Bool) (rope : Rope) (line character : ℕ) : Option ℕ :=
  if line ≥ rope.lenLines isBreak then none
  else some (rope.lineToByte isBreak line + walkLine character (rope.line isBreak line) 0 0)

/-! ## In characters -/

theorem Rope.byteToChar_of_charAtByte {rope : Rope} {byte n : ℕ}
    (h : charAtByte rope.chars byte = some n) : rope.byteToChar byte = some n := by
  rw [Rope.byteToChar]
  revert h
  fun_induction Rope.charOfByte rope.chars byte generalizing n with
  | case1 text =>
    intro h
    rwa [charAtByte_zero] at h
  | case2 =>
    intro h
    cases h
  | case3 c rest byte hlt =>
    intro h
    rw [charAtByte, if_pos hlt] at h
    cases h
  | case4 c rest byte hlt ih =>
    intro h
    rw [charAtByte, if_neg hlt] at h
    obtain ⟨m, hm, hn⟩ := Option.map_eq_some_iff.mp h
    rw [ih hm]
    exact congrArg some hn

theorem walkLine_eq (character : ℕ) (line : List Char) (utf16Units byteOffset : ℕ) :
    walkLine character line utf16Units byteOffset =
      byteOffset + byteLength (line.take (columnWalk line (character - utf16Units))) := by
  fun_induction walkLine character line utf16Units byteOffset with
  | case1 => rfl
  | case2 ch rest utf16Units byteOffset hmet =>
    rw [Nat.sub_eq_zero_of_le hmet, columnWalk_zero]
    rfl
  | case3 ch rest utf16Units byteOffset hmet ih =>
    have hleft : character - utf16Units ≠ 0 := by omega
    rw [ih, columnWalk, if_neg hleft, List.take_succ_cons, byteLength_cons, ← Nat.sub_sub]
    omega

/-- The offset found is that of the characters before the place where the walk ends. -/
theorem ropeLineColToOffset_eq (isBreak : Char → Bool) (rope : Rope) (line character : ℕ) :
    ropeLineColToOffset isBreak rope line character =
      (atLine isBreak rope.chars line fun l => some (columnWalk l character)).map fun n =>
        byteLength (rope.chars.take n) := by
  unfold ropeLineColToOffset
  cases hline : (lines isBreak rope.chars)[line]? with
  | none =>
    have hout : line ≥ rope.lenLines isBreak := List.getElem?_eq_none_iff.mp hline
    rw [if_pos hout, atLine, hline]
    rfl
  | some l =>
    obtain ⟨hin, -⟩ := List.getElem?_eq_some_iff.mp hline
    have hnot : ¬ line ≥ rope.lenLines isBreak := Nat.not_le.mpr hin
    have hl : rope.line isBreak line = l := by
      rw [Rope.line, List.getD_eq_getElem?_getD, hline]
      rfl
    have htake := take_lineStart_add hline (columnWalk_le_length l character)
    rw [lines_flatten] at htake
    rw [if_neg hnot, atLine, hline, Option.bind_some, Option.map_some, Option.map_some, hl,
      walkLine_eq, Nat.zero_add, Nat.sub_zero, htake, byteLength_append]
    rfl

end JavaAnalyzer.Language
