import Mathlib

/-! # Comments in the lexical grammar

A Java text is read character by character, Unicode escapes first, and then as comments, literals and
everything else. What a place of the text is inside of depends on the text before it. -/

namespace JavaAnalyzer.Language.JavaLexer
set_option autoImplicit false

/-! ## Unicode escapes -/

/-- How much of a Unicode escape has been read. A backslash behind a backslash starts none. -/
inductive EscapeState where
  | plain
  | backslash
  | marker (digits : List Char)
deriving DecidableEq, Repr

def isHexDigit (c : Char) : Bool :=
  c.isDigit || ('a' ≤ c && c ≤ 'f') || ('A' ≤ c && c ≤ 'F')

def hexValue (c : Char) : ℕ :=
  if c.isDigit then c.toNat - '0'.toNat
  else if 'a' ≤ c then c.toNat - 'a'.toNat + 10
  else c.toNat - 'A'.toNat + 10

def escaped (digits : List Char) : Char :=
  Char.ofNat (digits.foldl (fun value c => 16 * value + hexValue c) 0)

/-- A character that starts no escape goes through as it is. -/
def startStep (c : Char) : EscapeState × List Char :=
  if c = '\\' then (.backslash, []) else (.plain, [c])

/-- The characters that come out with the next one. An escape with too few digits is an error; it comes to
nothing here. -/
def EscapeState.step : EscapeState → Char → EscapeState × List Char
  | .plain, c => startStep c
  | .backslash, c => if c = 'u' then (.marker [], []) else (.plain, ['\\', c])
  | .marker digits, c =>
    if c = 'u' ∧ digits = [] then (.marker [], [])
    else if isHexDigit c then
      if digits.length = 3 then (.plain, [escaped (digits ++ [c])]) else (.marker (digits ++ [c]), [])
    else startStep c

/-! ## Input elements -/

/-- What has been begun and not ended. -/
inductive LexState where
  | code
  | slash
  | lineComment
  | blockComment
  | blockStar
  | quote
  | quotes
  | string
  | stringEscape
  | character
  | characterEscape
  | textBlock (quotes : ℕ)
  | textBlockEscape
deriving DecidableEq, Repr

namespace LexState

def inLineComment (s : LexState) : Bool :=
  s = lineComment

def inBlockComment (s : LexState) : Bool :=
  s = blockComment ∨ s = blockStar

def inComment (s : LexState) : Bool :=
  s.inLineComment || s.inBlockComment

def isLineTerminator (c : Char) : Bool :=
  c = '\n' ∨ c = '\r'

def codeStep (c : Char) : LexState :=
  if c = '/' then slash else if c = '"' then quote else if c = '\'' then character else code

/-- A literal that is not closed ends with its line. -/
def stringStep (c : Char) : LexState :=
  if c = '"' ∨ isLineTerminator c then code else if c = '\\' then stringEscape else string

def step : LexState → Char → LexState
  | code, c => codeStep c
  | slash, c => if c = '/' then lineComment else if c = '*' then blockComment else codeStep c
  | lineComment, c => if isLineTerminator c then code else lineComment
  | blockComment, c => if c = '*' then blockStar else blockComment
  | blockStar, c => if c = '/' then code else if c = '*' then blockStar else blockComment
  | quote, c => if c = '"' then quotes else stringStep c
  | quotes, c => if c = '"' then textBlock 0 else codeStep c
  | string, c => stringStep c
  | stringEscape, c => if isLineTerminator c then code else string
  | character, c =>
    if c = '\'' ∨ isLineTerminator c then code else if c = '\\' then characterEscape else character
  | characterEscape, c => if isLineTerminator c then code else character
  | textBlock n, c =>
    if c = '"' then (if n = 2 then code else textBlock (n + 1))
    else if c = '\\' then textBlockEscape else textBlock 0
  | textBlockEscape, _ => textBlock 0

end LexState

/-! ## The lexer -/

structure Lexer where
  escape : EscapeState
  state : LexState
deriving DecidableEq, Repr

namespace Lexer

def start : Lexer :=
  ⟨.plain, .code⟩

def step (l : Lexer) (c : Char) : Lexer :=
  ⟨(l.escape.step c).1, (l.escape.step c).2.foldl LexState.step l.state⟩

end Lexer

/-- What the place behind the text is inside of. -/
def lexed (text : List Char) : Lexer :=
  text.foldl Lexer.step .start

theorem lexed_snoc (text : List Char) (c : Char) : lexed (text ++ [c]) = (lexed text).step c := by
  rw [lexed, List.foldl_append]
  rfl

/-- Inside of a line comment, behind its slashes and up to the end of its line. -/
def InLineComment (text : List Char) : Prop :=
  (lexed text).state.inLineComment

/-- Inside of a block comment, behind its opener and before the end of its closer. -/
def InBlockComment (text : List Char) : Prop :=
  (lexed text).state.inBlockComment

def InComment (text : List Char) : Prop :=
  (lexed text).state.inComment

instance (text : List Char) : Decidable (InComment text) :=
  inferInstanceAs (Decidable (_ = true))

theorem inComment_iff (text : List Char) : InComment text ↔ InLineComment text ∨ InBlockComment text := by
  rw [InComment, LexState.inComment, Bool.or_eq_true]
  rfl

example : ¬ InComment "s = \"/* //\";".toList ∧ InComment "/* \"*/ '\"' // a".toList ∧
    ¬ InComment "\"\"\"\n// \"\" /*\"\"\";".toList ∧ InComment "\\u002f* a".toList := by
  decide

/-! ## What one character does -/

/-- One character comes out at most, or a backslash before it. -/
theorem EscapeState.step_out (e : EscapeState) (c : Char) :
    (e.step c).2 = [] ∨ (∃ d, (e.step c).2 = [d]) ∨ ∃ d, (e.step c).2 = ['\\', d] := by
  have hstart : (startStep c).2 = [] ∨ (∃ d, (startStep c).2 = [d]) ∨ ∃ d, (startStep c).2 = ['\\', d] := by
    unfold startStep
    split_ifs
    · exact .inl rfl
    · exact .inr (.inl ⟨c, rfl⟩)
  cases e with
  | plain => exact hstart
  | backslash =>
    rw [step]
    split_ifs
    · exact .inl rfl
    · exact .inr (.inr ⟨c, rfl⟩)
  | marker digits =>
    rw [step]
    split_ifs
    · exact .inl rfl
    · exact .inr (.inl ⟨_, rfl⟩)
    · exact .inl rfl
    · exact hstart

/-- The characters that open and close comments are no part of an escape. -/
theorem EscapeState.step_plain (e : EscapeState) {c : Char} (hbackslash : c ≠ '\\') (hu : c ≠ 'u')
    (hhex : isHexDigit c = false) :
    e.step c = (.plain, if e = .backslash then ['\\', c] else [c]) := by
  cases e with
  | plain => rw [step, startStep, if_neg hbackslash, if_neg (by simp)]
  | backslash => rw [step, if_neg hu, if_pos rfl]
  | marker digits =>
    rw [step, if_neg (fun h => hu h.1), if_neg (by simp [hhex]), startStep, if_neg hbackslash, if_neg (by simp)]

namespace LexState

theorem step_backslash_code {s : LexState} (h : s.inComment = false) : (s.step '\\').inComment = false := by
  cases s <;> first | rfl | simp [inComment, inLineComment, inBlockComment] at h

theorem step_backslash_line {s : LexState} (h : s.inLineComment = true) : s.step '\\' = lineComment := by
  obtain rfl := of_decide_eq_true h
  rfl

theorem step_backslash_block {s : LexState} (h : s.inBlockComment = true) : s.step '\\' = blockComment := by
  rcases of_decide_eq_true h with rfl | rfl <;> rfl

theorem step_backslash_ne_slash (s : LexState) : s.step '\\' ≠ slash := by
  cases s <;> simp [step, codeStep, stringStep, isLineTerminator]

theorem step_star_code {s : LexState} (h : s.inComment = false) : (s.step '*').inLineComment = false := by
  cases s <;> first | rfl | simp [inComment, inLineComment, inBlockComment] at h

theorem step_slash_code {s : LexState} (h : s.inComment = false) : (s.step '/').inBlockComment = false := by
  cases s <;> first | rfl | simp [inComment, inLineComment, inBlockComment] at h

/-- A star opens a comment behind a slash only. -/
theorem eq_slash_of_step_star {s : LexState} (h : s.step '*' = blockComment) : s = slash := by
  cases s <;> first | rfl | simp [step, codeStep, stringStep, isLineTerminator] at h

/-- A slash closes a block comment behind a star that is not its opener's. -/
theorem eq_blockComment_of_step_slash {s : LexState} (h : (s.step '/').inBlockComment = true) :
    s = blockComment := by
  cases s <;> first | rfl | cases h

theorem step_line {s : LexState} (h : s.inLineComment = true) (c : Char) :
    (s.step c).inBlockComment = false := by
  obtain rfl := of_decide_eq_true h
  rw [step]
  split_ifs <;> rfl

theorem step_block {s : LexState} (h : s.inBlockComment = true) (c : Char) : (s.step c).inLineComment = false := by
  rcases of_decide_eq_true h with rfl | rfl
  · rw [step]
    split_ifs <;> rfl
  · rw [step]
    split_ifs <;> rfl

end LexState

namespace Lexer
open LexState

variable (l : Lexer)

/-- The state after a character that is no part of an escape: a backslash that was waiting goes first. -/
theorem step_plain {c : Char} (hbackslash : c ≠ '\\') (hu : c ≠ 'u') (hhex : isHexDigit c = false) :
    l.step c = ⟨.plain, ((if l.escape = .backslash then l.state.step '\\' else l.state).step c)⟩ := by
  rw [step, l.escape.step_plain hbackslash hu hhex]
  split_ifs <;> rfl

/-- A line comment does not become a block comment. -/
theorem step_of_line (h : l.state.inLineComment = true) (c : Char) :
    (l.step c).state.inBlockComment = false := by
  have hline : l.state.inBlockComment = false := by
    obtain heq := of_decide_eq_true h
    rw [heq]
    rfl
  rcases l.escape.step_out c with hout | ⟨d, hout⟩ | ⟨d, hout⟩ <;> rw [step, hout]
  · exact hline
  · exact LexState.step_line h d
  · rw [List.foldl_cons, step_backslash_line h]
    exact LexState.step_line (by decide : lineComment.inLineComment = true) d

theorem step_of_block (h : l.state.inBlockComment = true) (c : Char) :
    (l.step c).state.inLineComment = false := by
  have hblock : l.state.inLineComment = false := by
    rcases of_decide_eq_true h with heq | heq <;> rw [heq] <;> rfl
  rcases l.escape.step_out c with hout | ⟨d, hout⟩ | ⟨d, hout⟩ <;> rw [step, hout]
  · exact hblock
  · exact LexState.step_block h d
  · rw [List.foldl_cons, step_backslash_block h]
    exact LexState.step_block (by decide : blockComment.inBlockComment = true) d

/-- A line comment ends at the line feed. -/
theorem step_lineFeed (h : l.state.inLineComment = true) : (l.step '\n').state.inComment = false := by
  rw [l.step_plain (by decide) (by decide) (by decide), step_backslash_line h, of_decide_eq_true h, ite_self]
  rfl

theorem step_star (h : l.state.inComment = false) : (l.step '*').state.inLineComment = false := by
  rw [l.step_plain (by decide) (by decide) (by decide)]
  split_ifs
  · exact step_star_code (step_backslash_code h)
  · exact step_star_code h

theorem step_slash (h : l.state.inComment = false) : (l.step '/').state.inBlockComment = false := by
  rw [l.step_plain (by decide) (by decide) (by decide)]
  split_ifs
  · exact step_slash_code (step_backslash_code h)
  · exact step_slash_code h

/-- Behind a star and a slash a block comment is open only if they follow the slash of its opener. -/
theorem code_of_star_slash (h : ((l.step '*').step '/').state.inBlockComment = true) :
    l.state.inComment = false := by
  have hstar := l.step_plain (c := '*') (by decide) (by decide) (by decide)
  rw [hstar, step_plain _ (by decide) (by decide) (by decide)] at h
  have hopened := eq_slash_of_step_star (eq_blockComment_of_step_slash h)
  split_ifs at hopened with hbackslash
  · exact absurd hopened (step_backslash_ne_slash _)
  · rw [hopened]
    rfl

end Lexer

end JavaAnalyzer.Language.JavaLexer
