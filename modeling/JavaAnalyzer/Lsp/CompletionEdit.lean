import JavaAnalyzer.Library.TextPlaces
import JavaAnalyzer.Library.TextSearch
import JavaAnalyzer.Lsp.DocumentSync

/-! # The edits of a completion

`make_text_edit` and `make_member_access_cast_additional_edits` of `lsp/handlers/completion.rs`, and
`make_import_text_edit` of `completion/import_completion.rs`: which stretch of the cursor's line a
candidate replaces. The line is one of `str::lines` and is cut at the position's column as if that counted
bytes; `none` is a panic of the slice. -/

namespace JavaAnalyzer.Lsp
set_option autoImplicit false
open TextLines TextPlaces TextSearch Text

/-! ## The edits -/

/-- Unicode's tables, which `char::is_alphabetic` and `char::is_alphanumeric` ask. -/
structure CharClasses where
  isAlphabetic : Char → Bool
  isNumeric : Char → Bool

def CharClasses.isAlphanumeric (classes : CharClasses) (c : Char) : Bool :=
  classes.isAlphabetic c || classes.isNumeric c

inductive ReplacementMode
  | identifier
  | memberSegment
  | packagePath
  | importPath
  | accessModifierPrefix
  | clientDefault
deriving DecidableEq, Repr

structure TextEdit where
  range : Range
  newText : List Char
deriving DecidableEq, Repr

/-- A character that ends the token stands here. -/
def stopsToken (isToken : Char → Bool) : List Char → Bool
  | [] => false
  | c :: _ => !isToken c

/-- What `make_access_modifier_text_edit`, `make_package_path_text_edit` and
`make_member_segment_text_edit` have in common; a line that is not there gives no edit. -/
def makeTokenTextEdit (isToken : Char → Bool) (insertText source : List Char) (position : Position) :
    Option (Option TextEdit) :=
  match (strLines source)[position.line]? with
  | none => some none
  | some line =>
    match upToByte line position.character with
    | none => none
    | some beforeCursor =>
      let startChar := ((lastByte (stopsToken isToken) beforeCursor).map (· + 1)).getD 0
      some (some
        { range := { start := { line := position.line, character := startChar }, stop := position }
          newText := insertText })

section Modes

variable (classes : CharClasses)

def isAccessModifierChar (c : Char) : Bool := classes.isAlphabetic c

def isPackagePathChar (c : Char) : Bool :=
  classes.isAlphanumeric c || c == '.' || c == '_'

def isMemberSegmentChar (c : Char) : Bool :=
  classes.isAlphanumeric c || c == '_'

def makeAccessModifierTextEdit := makeTokenTextEdit (isAccessModifierChar classes)

def makePackagePathTextEdit := makeTokenTextEdit (isPackagePathChar classes)

def makeMemberSegmentTextEdit := makeTokenTextEdit (isMemberSegmentChar classes)

def makeIdentifierTextEdit := makeMemberSegmentTextEdit classes

end Modes

def importKeyword : List Char := ['i', 'm', 'p', 'o', 'r', 't']

def startsImport (line : List Char) : Bool :=
  importKeyword.isPrefixOf (trimStart line)

/-- The line of the keyword: the cursor's, or the nearest one above it. -/
def importLineIdx (lines : List (List Char)) (currentLine : List Char) (line : ℕ) : Option ℕ :=
  if startsImport currentLine then some line
  else (List.range line).reverse.find? fun i => startsImport (lines.getD i [])

/-- Behind the keyword and one more byte, or behind the blanks of a line below the keyword's. -/
def importStartChar (lines : List (List Char)) (currentLine : List Char) (line : ℕ) : Option ℕ :=
  (importLineIdx lines currentLine line).bind fun importLine =>
    if importLine = line then (firstByte importKeyword.isPrefixOf currentLine).map (· + 7)
    else some (byteLength currentLine - byteLength (trimStart currentLine))

def importEndChar (currentLine : List Char) : ℕ :=
  ((firstByte [';'].isPrefixOf currentLine).orElse fun _ =>
    firstByte ['/', '/'].isPrefixOf currentLine).getD (byteLength currentLine)

def makeImportTextEdit (insertText source : List Char) (position : Position) : Option TextEdit :=
  let lines := strLines source
  (lines[position.line]?).bind fun currentLine =>
    (importStartChar lines currentLine position.line).map fun startChar =>
      { range :=
          { start := { line := position.line, character := startChar }
            stop := { line := position.line, character := importEndChar currentLine } }
        newText := insertText }

def makeTextEdit (classes : CharClasses) (replacement : ReplacementMode)
    (insertionText source : List Char) (position : Position) : Option (Option TextEdit) :=
  match replacement with
  | .identifier => makeIdentifierTextEdit classes insertionText source position
  | .memberSegment => makeMemberSegmentTextEdit classes insertionText source position
  | .packagePath => makePackagePathTextEdit classes insertionText source position
  | .importPath => some (makeImportTextEdit insertionText source position)
  | .accessModifierPrefix => makeAccessModifierTextEdit classes insertionText source position
  | .clientDefault => some none

def insertAt (position : Position) (newText : List Char) : TextEdit where
  range := { start := position, stop := position }
  newText := newText

def makeMemberAccessCastAdditionalEdits (source : List Char) (position : Position)
    (receiverExpr castType : List Char) : Option (Option (List TextEdit)) :=
  match (strLines source)[position.line]? with
  | none => some none
  | some line =>
    match upToByte line position.character with
    | none => none
    | some beforeCursor =>
      let needle := trim receiverExpr ++ ['.']
      some ((lastByte needle.isPrefixOf beforeCursor).map fun receiverStart =>
        let receiverEnd := receiverStart + byteLength (trim receiverExpr)
        [insertAt { line := position.line, character := receiverStart } (['(', '('] ++ castType ++ [')', ' ']),
          insertAt { line := position.line, character := receiverEnd } [')']])

/-! ## Places of the text -/

/-- The protocol's position behind the characters. -/
def positionBehind (front : List Char) : Position where
  line := (place isLineBreak utf16Length front).1
  character := (place isLineBreak utf16Length front).2

/-- A place of the text that is not inside a pair of line breaks. -/
structure Cursor (text : List Char) where
  before : List Char
  after : List Char
  eq : text = before ++ after
  uncut : ∀ pre more, before = pre ++ ['\r'] → after = '\n' :: more → False

def Cursor.position {text : List Char} (cursor : Cursor text) : Position :=
  positionBehind cursor.before

theorem positionBehind_append (front : List Char) {word : List Char}
    (hword : ∀ c ∈ word, isLineBreak c = false) :
    (positionBehind (front ++ word)).line = (positionBehind front).line ∧
      (positionBehind (front ++ word)).character =
        (positionBehind front).character + (word.map utf16Length).sum := by
  have hplace := @place_append isLineBreak utf16Length rfl front word hword
  rw [positionBehind, hplace]
  exact ⟨rfl, rfl⟩

section Token

variable (isToken : Char → Bool)

/-- A token character of the line. -/
def inToken (c : Char) : Bool := isToken c && !isLineBreak c

/-- The token characters before the place, as far as they go without a break. -/
def tokenBefore (before : List Char) : List Char :=
  (before.reverse.takeWhile (inToken isToken)).reverse

def beforeToken (before : List Char) : List Char :=
  (before.reverse.dropWhile (inToken isToken)).reverse

variable {isToken}

theorem beforeToken_append (before : List Char) :
    beforeToken isToken before ++ tokenBefore isToken before = before := by
  rw [beforeToken, tokenBefore, ← List.reverse_append, List.takeWhile_append_dropWhile,
    List.reverse_reverse]

theorem tokenBefore_plain (before : List Char) :
    ∀ c ∈ tokenBefore isToken before, isLineBreak c = false := by
  intro c hc
  have hin := List.mem_takeWhile_imp (List.mem_reverse.mp hc)
  have hboth := (Bool.and_eq_true _ _).mp hin
  simpa using hboth.2

end Token

/-! ## The edit of a token -/

/-- The token's range, and nothing else. -/
def tokenEdit (isToken : Char → Bool) {text : List Char} (cursor : Cursor text)
    (insertText : List Char) : TextEdit where
  range := { start := positionBehind (beforeToken isToken cursor.before), stop := cursor.position }
  newText := insertText

/-- Behind the first byte of the last character that ends the token, or from the beginning where there
is none, the bytes are so many. -/
def BytesBehindStop (isToken : Char → Bool) (cut : List Char) (bytes : ℕ) : Prop :=
  (∀ c ∈ cut, isToken c = true) ∧ byteLength cut = bytes ∨
    ∃ lead c run, cut = lead ++ c :: run ∧ isToken c = false ∧ (∀ d ∈ run, isToken d = true) ∧
      c.utf8Size - 1 + byteLength run = bytes

/-- The line at the position's number begins with as many bytes as the position has units, and the token
counted back in these bytes is as long as the token in units. -/
def TokenCutRight (isToken : Char → Bool) {text : List Char} (cursor : Cursor text) : Prop :=
  ∃ line, (strLines text)[cursor.position.line]? = some line ∧
    ∃ cut, cut <+: line ∧ byteLength cut = cursor.position.character ∧
      BytesBehindStop isToken cut ((tokenBefore isToken cursor.before).map utf16Length).sum

theorem stopsToken_behind {isToken : Char → Bool} {cut front : List Char} :
    LastBehind (stopsToken isToken) cut front ↔
      ∃ c run, cut = front ++ c :: run ∧ isToken c = false ∧ ∀ d ∈ run, isToken d = true := by
  constructor
  · intro h
    obtain ⟨⟨back, hcut, hback⟩, hmost⟩ := h
    cases back with
    | nil => cases hback
    | cons c run =>
      refine ⟨c, run, hcut, by simpa [stopsToken] using hback, fun d hd => ?_⟩
      by_contra hnot
      obtain ⟨pre, post, hrun⟩ := List.append_of_mem hd
      have hlater : HitsBehind (stopsToken isToken) cut (front ++ c :: pre) := by
        refine ⟨d :: post, by rw [hcut, hrun, List.append_assoc]; rfl, ?_⟩
        simpa [stopsToken] using hnot
      have hle := hmost _ hlater
      rw [List.length_append, List.length_cons] at hle
      omega
  · intro h
    obtain ⟨c, run, hcut, hc, hrun⟩ := h
    refine ⟨⟨c :: run, hcut, by simp [stopsToken, hc]⟩, fun other hother => ?_⟩
    obtain ⟨back, hback, hhit⟩ := hother
    by_contra hlonger
    obtain ⟨mid, hmid⟩ : front <+: other := List.prefix_of_prefix_length_le ⟨_, hcut.symm⟩
      ⟨_, hback.symm⟩ (by omega)
    rw [hback, ← hmid, List.append_assoc, List.append_cancel_left_eq] at hcut
    cases mid with
    | nil =>
      rw [← hmid, List.append_nil] at hlonger
      exact hlonger (Nat.le_refl _)
    | cons e mid =>
      rw [List.cons_append, List.cons.injEq] at hcut
      cases back with
      | nil => cases hhit
      | cons d post =>
        have hd : isToken d = true := hrun d (by rw [← hcut.2]; simp)
        rw [stopsToken, hd] at hhit
        cases hhit

theorem not_stopsToken_behind {isToken : Char → Bool} {cut : List Char} :
    (∀ front, ¬ HitsBehind (stopsToken isToken) cut front) ↔ ∀ c ∈ cut, isToken c = true := by
  constructor
  · intro h c hc
    by_contra hnot
    obtain ⟨pre, post, hcut⟩ := List.append_of_mem hc
    exact h pre ⟨c :: post, hcut, by simpa [stopsToken] using hnot⟩
  · intro h front hhit
    obtain ⟨back, hcut, hback⟩ := hhit
    cases back with
    | nil => cases hback
    | cons c run =>
      rw [stopsToken, h c (by rw [hcut]; simp)] at hback
      cases hback

/-- The column at which the token is found in the cut. -/
theorem startChar_iff {isToken : Char → Bool} {cut : List Char} {bytes : ℕ}
    (hle : bytes ≤ byteLength cut) :
    ((lastByte (stopsToken isToken) cut).map (· + 1)).getD 0 = byteLength cut - bytes ↔
      BytesBehindStop isToken cut bytes := by
  obtain ⟨hnone, hsome⟩ := @lastByte_iff (stopsToken isToken) cut
  cases hlast : lastByte (stopsToken isToken) cut with
  | none =>
    have hall := not_stopsToken_behind.mp (hnone.mp hlast)
    have hno : ∀ lead c run, cut = lead ++ c :: run → isToken c = true := fun lead c run hcut =>
      hall c (by rw [hcut]; simp)
    constructor
    · intro h
      refine Or.inl ⟨hall, ?_⟩
      rw [Option.map_none, Option.getD_none] at h
      omega
    · intro h
      rw [Option.map_none, Option.getD_none]
      cases h with
      | inl h => omega
      | inr h =>
        obtain ⟨lead, c, run, hcut, hc, -⟩ := h
        rw [hno lead c run hcut] at hc
        cases hc
  | some byte =>
    obtain ⟨front, hfront, rfl⟩ := (hsome byte).mp hlast
    obtain ⟨c, run, hcut, hc, hrun⟩ := stopsToken_behind.mp hfront
    have hbytes : byteLength cut = byteLength front + (c.utf8Size + byteLength run) := by
      rw [hcut, byteLength_append, byteLength_cons]
    have hsize := c.utf8Size_pos
    rw [Option.map_some, Option.getD_some]
    constructor
    · intro h
      exact Or.inr ⟨front, c, run, hcut, hc, hrun, by omega⟩
    · intro h
      cases h with
      | inl h =>
        have hc' := h.1 c (by rw [hcut]; simp)
        rw [hc'] at hc
        cases hc
      | inr h =>
        obtain ⟨lead, d, tail, hcut', hd, htail, hsum⟩ := h
        have hsame := hfront.unique (stopsToken_behind.mpr ⟨d, tail, hcut', hd, htail⟩)
        rw [hcut, hsame, List.append_cancel_left_eq, List.cons.injEq] at hcut'
        rw [← hcut'.1, ← hcut'.2] at hsum
        omega

/-- The edit is the token's exactly when the cut is right. -/
theorem makeTokenTextEdit_iff (isToken : Char → Bool) {text : List Char} (cursor : Cursor text)
    (insertText : List Char) :
    makeTokenTextEdit isToken insertText text cursor.position =
        some (some (tokenEdit isToken cursor insertText)) ↔
      TokenCutRight isToken cursor := by
  have hplain : ∀ c ∈ tokenBefore isToken cursor.before, isLineBreak c = false :=
    tokenBefore_plain cursor.before
  have happend := positionBehind_append (beforeToken isToken cursor.before) hplain
  rw [beforeToken_append] at happend
  obtain ⟨hline, hcharacter⟩ := happend
  unfold makeTokenTextEdit TokenCutRight
  cases hfound : (strLines text)[cursor.position.line]? with
  | none => simp
  | some line =>
    simp only [Option.some.injEq, exists_eq_left', ← and_assoc, ← upToByte_eq_some_iff]
    cases hcut : upToByte line cursor.position.character with
    | none => simp
    | some cut =>
      obtain ⟨-, hbytes⟩ := upToByte_eq_some_iff.mp hcut
      have hstart : tokenEdit isToken cursor insertText =
          { range :=
              { start :=
                  { line := cursor.position.line
                    character := byteLength cut -
                      ((tokenBefore isToken cursor.before).map utf16Length).sum }
                stop := cursor.position }
            newText := insertText } := by
        rw [tokenEdit, hbytes, Cursor.position, hline, hcharacter, Nat.add_sub_cancel]
      rw [hstart]
      simp only [Option.some.injEq, TextEdit.mk.injEq, Range.mk.injEq, Position.mk.injEq, true_and,
        and_true, exists_eq_left']
      refine startChar_iff ?_
      rw [hbytes, Cursor.position, hcharacter]
      exact Nat.le_add_left _ _

/-! ## The edit of an import's path -/

/-- Blanks, or the word `static` between blanks. -/
def IsImportGap (gap : List Char) : Prop :=
  gap ≠ [] ∧ (∀ c ∈ gap, isWhitespace c = true) ∨
    ∃ front back, gap = front ++ ['s', 't', 'a', 't', 'i', 'c'] ++ back ∧ front ≠ [] ∧ back ≠ [] ∧
      ∀ c ∈ front ++ back, isWhitespace c = true

/-- A semicolon or a comment begins here. -/
def endsPath (text : List Char) : Bool :=
  [';'].isPrefixOf text || ['/', '/'].isPrefixOf text || ['/', '*'].isPrefixOf text

/-- An import of the text with the cursor in its path, which goes up to the semicolon, a comment or, while
it has neither, the end of a line. -/
structure ImportStatement (text : List Char) where
  before : List Char
  gap : List Char
  typed : List Char
  untyped : List Char
  after : List Char
  eq : text = before ++ importKeyword ++ gap ++ typed ++ untyped ++ after
  isGap : IsImportGap gap
  nonempty : typed ++ untyped ≠ []
  noBlankFirst : ∀ c ∈ (typed ++ untyped).head?, isWhitespace c = false
  noBlankLast : ∀ c ∈ (typed ++ untyped).getLast?, isWhitespace c = false
  unended : ∀ front, HitsBehind endsPath (typed ++ untyped ++ after) front →
    (typed ++ untyped).length ≤ front.length
  ended : after = [] ∨ endsPath after = true ∨ ∃ c ∈ after.head?, isLineBreak c = true

namespace ImportStatement

variable {text : List Char}

/-- The text up to the path. -/
def front (statement : ImportStatement text) : List Char :=
  statement.before ++ importKeyword ++ statement.gap

def path (statement : ImportStatement text) : List Char :=
  statement.typed ++ statement.untyped

def position (statement : ImportStatement text) : Position :=
  positionBehind (statement.front ++ statement.typed)

/-- The path's range, and nothing else. -/
def pathEdit (statement : ImportStatement text) (insertText : List Char) : TextEdit where
  range :=
    { start := positionBehind statement.front
      stop := positionBehind (statement.front ++ statement.path) }
  newText := insertText

end ImportStatement

/-- The line begins with the keyword, which seven bytes go to, or a line above does and the path is taken
to begin behind the blanks. -/
def PathStartsAt (lines : List (List Char)) (row : ℕ) (line : List Char) (bytes : ℕ) : Prop :=
  startsImport line = true ∧ byteLength (line.takeWhile isWhitespace) + 7 = bytes ∨
    startsImport line = false ∧ (∃ i < row, startsImport (lines.getD i []) = true) ∧
      byteLength (line.takeWhile isWhitespace) = bytes

/-- The first semicolon stands here, or the first line comment of a line without one, or its end. -/
def PathEndsAt (line : List Char) (bytes : ℕ) : Prop :=
  (∃ front, FirstBehind [';'].isPrefixOf line front ∧ byteLength front = bytes) ∨
    (∀ front, ¬ HitsBehind [';'].isPrefixOf line front) ∧
      ((∃ front, FirstBehind ['/', '/'].isPrefixOf line front ∧ byteLength front = bytes) ∨
        (∀ front, ¬ HitsBehind ['/', '/'].isPrefixOf line front) ∧ byteLength line = bytes)

/-- The path lies on the cursor's line, between the bytes that the line is searched for. -/
def PathCutRight {text : List Char} (statement : ImportStatement text) : Prop :=
  ∃ line, (strLines text)[statement.position.line]? = some line ∧
    (positionBehind statement.front).line = statement.position.line ∧
    (positionBehind (statement.front ++ statement.path)).line = statement.position.line ∧
    PathStartsAt (strLines text) statement.position.line line
      (positionBehind statement.front).character ∧
    PathEndsAt line (positionBehind (statement.front ++ statement.path)).character

/-- What a search finds, or what is done where it finds nothing. -/
theorem getD_search_iff {hits : List Char → Bool} {line : List Char} {other bytes : ℕ} :
    (firstByte hits line).getD other = bytes ↔
      (∃ front, FirstBehind hits line front ∧ byteLength front = bytes) ∨
        (∀ front, ¬ HitsBehind hits line front) ∧ other = bytes := by
  obtain ⟨hnone, hsome⟩ := @firstByte_iff hits line
  rw [← hsome, ← hnone]
  cases firstByte hits line <;> simp

theorem pathEndsAt_iff (line : List Char) (bytes : ℕ) :
    importEndChar line = bytes ↔ PathEndsAt line bytes := by
  have horElse : importEndChar line =
        (firstByte [';'].isPrefixOf line).getD
          ((firstByte ['/', '/'].isPrefixOf line).getD (byteLength line)) := by
    unfold importEndChar
    cases firstByte [';'].isPrefixOf line <;> rfl
  rw [horElse, getD_search_iff, getD_search_iff, PathEndsAt]

theorem byteLength_indent (line : List Char) :
    byteLength line - byteLength (trimStart line) = byteLength (line.takeWhile isWhitespace) := by
  have hsplit : line.takeWhile isWhitespace ++ trimStart line = line :=
    List.takeWhile_append_dropWhile
  have hbytes := congrArg byteLength hsplit
  rw [byteLength_append] at hbytes
  omega

/-- A line that begins with the keyword has it first behind its blanks. -/
theorem firstByte_importKeyword {line : List Char} (h : startsImport line = true) :
    firstByte importKeyword.isPrefixOf line =
      some (byteLength (line.takeWhile isWhitespace)) := by
  have hsplit : line.takeWhile isWhitespace ++ trimStart line = line :=
    List.takeWhile_append_dropWhile
  refine (firstByte_iff line).2 _ |>.mpr ⟨_, ⟨⟨_, hsplit.symm, h⟩, fun other hother => ?_⟩, rfl⟩
  obtain ⟨back, hline, hhit⟩ := hother
  by_contra hshorter
  -- An occurrence inside the blanks would begin with one.
  obtain ⟨mid, hmid⟩ : other <+: line.takeWhile isWhitespace := List.prefix_of_prefix_length_le
    ⟨_, hline.symm⟩ (List.takeWhile_prefix _) (by omega)
  cases mid with
  | nil =>
    rw [← hmid, List.append_nil] at hshorter
    exact hshorter (Nat.le_refl _)
  | cons c mid =>
    have hblank : isWhitespace c = true :=
      List.mem_takeWhile_imp (by rw [← hmid]; simp)
    have hback := hsplit.trans hline
    rw [← hmid, List.append_assoc, List.append_cancel_left_eq] at hback
    obtain ⟨rest, hrest⟩ := List.isPrefixOf_iff_prefix.mp hhit
    rw [← hback, List.cons_append, importKeyword, List.cons_append, List.cons.injEq] at hrest
    rw [← hrest.1] at hblank
    revert hblank
    decide

theorem importLineIdx_below {lines : List (List Char)} {line : List Char} {row : ℕ}
    (h : startsImport line = false) :
    (importLineIdx lines line row = none ↔ ¬ ∃ i < row, startsImport (lines.getD i []) = true) ∧
      ∀ i, importLineIdx lines line row = some i → i < row := by
  rw [importLineIdx, if_neg (by simp [h])]
  refine ⟨?_, fun i hi => ?_⟩
  · rw [List.find?_eq_none]
    simp
  · have hmem := List.mem_of_find?_eq_some hi
    simpa using hmem

theorem importStartChar_iff (lines : List (List Char)) (line : List Char) (row bytes : ℕ) :
    importStartChar lines line row = some bytes ↔ PathStartsAt lines row line bytes := by
  unfold importStartChar PathStartsAt
  by_cases hstarts : startsImport line = true
  · rw [importLineIdx, if_pos hstarts, Option.bind_some, if_pos rfl, firstByte_importKeyword hstarts]
    simp [hstarts]
  · have hstarts : startsImport line = false := by simpa using hstarts
    obtain ⟨hnone, hbelow⟩ := @importLineIdx_below lines line row hstarts
    cases hfound : importLineIdx lines line row with
    | none =>
      have habove := hnone.mp hfound
      simp only [hstarts, habove]
      simp
    | some i =>
      have hlt := hbelow i hfound
      have habove : ∃ i < row, startsImport (lines.getD i []) = true := by
        by_contra hnot
        rw [hnone.mpr hnot] at hfound
        cases hfound
      rw [Option.bind_some, if_neg (Nat.ne_of_lt hlt), byteLength_indent]
      simp only [hstarts, habove]
      simp

theorem makeImportTextEdit_iff {text : List Char} (statement : ImportStatement text)
    (insertText : List Char) :
    makeImportTextEdit insertText text statement.position = some (statement.pathEdit insertText) ↔
      PathCutRight statement := by
  unfold makeImportTextEdit PathCutRight
  dsimp only
  cases hline : (strLines text)[statement.position.line]? with
  | none => simp
  | some line =>
    simp only [Option.some.injEq, exists_eq_left', Option.bind_some, Option.map_eq_some_iff]
    rw [← importStartChar_iff, ← pathEndsAt_iff]
    constructor
    · intro h
      obtain ⟨start, hstart, hedit⟩ := h
      simp only [ImportStatement.pathEdit, TextEdit.mk.injEq, Range.mk.injEq, and_true] at hedit
      obtain ⟨hfirst, hlast⟩ := hedit
      rw [← hfirst, ← hlast]
      exact ⟨rfl, rfl, hstart, rfl⟩
    · intro h
      obtain ⟨hfirst, hlast, hstart, hend⟩ := h
      refine ⟨_, hstart, ?_⟩
      rw [hend]
      simp only [ImportStatement.pathEdit, TextEdit.mk.injEq, Range.mk.injEq, and_true]
      constructor
      · rw [← hfirst]
      · rw [← hlast]

/-! ## The edits around a receiver -/

/-- A member access of the text with the cursor in its member. -/
structure CompletedAccess (text : List Char) where
  front : List Char
  receiver : List Char
  /-- What stands between the receiver and the dot. -/
  gap : List Char
  typed : List Char
  cursor : Cursor text
  before_eq : cursor.before = front ++ receiver ++ gap ++ '.' :: typed
  receiverExpr : List Char
  trim_eq : trim receiverExpr = receiver

/-- A cast before the receiver, and its parenthesis behind it. -/
def CompletedAccess.castEdits {text : List Char} (access : CompletedAccess text)
    (castType : List Char) : List TextEdit :=
  [insertAt (positionBehind access.front) (['(', '('] ++ castType ++ [')', ' ']),
    insertAt (positionBehind (access.front ++ access.receiver)) [')']]

/-- In as many bytes of the line as the position has units, the receiver and a dot stand last where the
receiver is, and the receiver is as long in bytes as in units. -/
def CastCutRight {text : List Char} (access : CompletedAccess text) : Prop :=
  ∃ line, (strLines text)[access.cursor.position.line]? = some line ∧
    ∃ cut, cut <+: line ∧ byteLength cut = access.cursor.position.character ∧
      ∃ lead, LastBehind (access.receiver ++ ['.']).isPrefixOf cut lead ∧
        positionBehind access.front =
          { line := access.cursor.position.line, character := byteLength lead } ∧
        positionBehind (access.front ++ access.receiver) =
          { line := access.cursor.position.line
            character := byteLength lead + byteLength access.receiver }

theorem makeMemberAccessCastAdditionalEdits_iff {text : List Char} (access : CompletedAccess text)
    (castType : List Char) :
    makeMemberAccessCastAdditionalEdits text access.cursor.position access.receiverExpr castType =
        some (some (access.castEdits castType)) ↔
      CastCutRight access := by
  unfold makeMemberAccessCastAdditionalEdits CastCutRight
  rw [access.trim_eq]
  cases hline : (strLines text)[access.cursor.position.line]? with
  | none => simp
  | some line =>
    simp only [Option.some.injEq, exists_eq_left', ← and_assoc, ← upToByte_eq_some_iff]
    cases hcut : upToByte line access.cursor.position.character with
    | none => simp
    | some cut =>
      obtain ⟨-, hsome⟩ := @lastByte_iff (access.receiver ++ ['.']).isPrefixOf cut
      simp only [Option.some.injEq, exists_eq_left', Option.map_eq_some_iff, hsome]
      constructor
      · intro h
        obtain ⟨byte, ⟨lead, hlead, rfl⟩, hedits⟩ := h
        simp only [CompletedAccess.castEdits, insertAt, List.cons.injEq, TextEdit.mk.injEq,
          Range.mk.injEq, and_true, and_self] at hedits
        exact ⟨lead, ⟨hlead, hedits.1.symm⟩, hedits.2.symm⟩
      · intro h
        obtain ⟨lead, ⟨hlead, hstart⟩, hend⟩ := h
        refine ⟨_, ⟨lead, hlead, rfl⟩, ?_⟩
        rw [CompletedAccess.castEdits, hstart, hend]

/-! ## All edits -/

/-- The modes that replace the token before the cursor. -/
inductive TokenMode
  | identifier
  | memberSegment
  | packagePath
  | accessModifierPrefix

def TokenMode.replacement : TokenMode → ReplacementMode
  | .identifier => .identifier
  | .memberSegment => .memberSegment
  | .packagePath => .packagePath
  | .accessModifierPrefix => .accessModifierPrefix

/-- The token characters of the mode. -/
def TokenMode.isToken (classes : CharClasses) : TokenMode → Char → Bool
  | .identifier => isMemberSegmentChar classes
  | .memberSegment => isMemberSegmentChar classes
  | .packagePath => isPackagePathChar classes
  | .accessModifierPrefix => isAccessModifierChar classes

def latinClasses : CharClasses where
  isAlphabetic c := c.isAlpha || c == 'é'
  isNumeric := Char.isDigit

/-- The cursor at the end of a text. -/
def endOf (text : List Char) : Cursor text where
  before := text
  after := []
  eq := (List.append_nil text).symm
  uncut := fun _ _ _ h => (by cases h)

def twoImports : List Char :=
  importKeyword ++ [' ', 'A', ';'] ++ importKeyword ++ [' ', 'B', ';']

/-- Two imports on one line, the cursor in the second. -/
def secondImport : ImportStatement twoImports where
  before := importKeyword ++ [' ', 'A', ';']
  gap := [' ']
  typed := ['B']
  untyped := []
  after := [';']
  eq := rfl
  isGap := Or.inl ⟨by decide, List.forall_mem_singleton.mpr (by decide)⟩
  nonempty := by decide
  noBlankFirst := fun c hc => by
    cases hc
    decide
  noBlankLast := fun c hc => by
    cases hc
    decide
  unended := by
    intro front hfront
    cases front with
    | nil => exact absurd (hitsBehind_nil.mp hfront) (by decide)
    | cons c front => exact Nat.succ_le_succ (Nat.zero_le _)
  ended := Or.inr (Or.inl (by decide))

def twoReceivers : List Char := ['a', '.', 'x', '+', 'a', ' ', '.', 'f']

/-- The same receiver twice, the second time with a blank before the dot. -/
def spacedAccess : CompletedAccess twoReceivers where
  front := ['a', '.', 'x', '+']
  receiver := ['a']
  gap := [' ']
  typed := ['f']
  cursor := endOf _
  before_eq := rfl
  receiverExpr := ['a']
  trim_eq := by decide

end JavaAnalyzer.Lsp
