import JavaAnalyzer.Language.JavaLexer
import JavaAnalyzer.Library.TextSearch
import JavaAnalyzer.Library.TextPlaces

/-! # The cursor in a comment

`is_cursor_in_comment` of `language/java/utils.rs` looks for the last comment markers before the cursor,
whatever they stand in, and then for two slashes outside of the quotes of the cursor's line, read from its
start. -/

namespace JavaAnalyzer.Language
set_option autoImplicit false
open TextLines TextSearch TextPlaces Text JavaLexer

/-! ## The two scans -/

/-- The flags of the loop over a line. -/
structure LineScan where
  inString : Bool
  inChar : Bool
  escaped : Bool
deriving DecidableEq, Repr

namespace LineScan

def start : LineScan :=
  ⟨false, false, false⟩

def step (scan : LineScan) (c : Char) : LineScan :=
  if scan.escaped then { scan with escaped := false }
  else if c = '\\' then { scan with escaped := true }
  else if c = '"' ∧ scan.inChar = false then { scan with inString := !scan.inString }
  else if c = '\'' ∧ scan.inString = false then { scan with inChar := !scan.inChar }
  else scan

def unquoted (scan : LineScan) : Bool :=
  !scan.escaped && !scan.inString && !scan.inChar

end LineScan

def isInLineCommentFrom : LineScan → List Char → Bool
  | _, [] => false
  | scan, c :: rest =>
    if scan.unquoted ∧ c = '/' ∧ rest.head? = some '/' then true
    else isInLineCommentFrom (scan.step c) rest

def isInLineComment (line : List Char) : Bool :=
  isInLineCommentFrom .start line

/-- The last `/*` comes after the last `*/`, or there is no `*/`. -/
def lastMarkerOpens (before : List Char) : Bool :=
  match lastByte (List.isPrefixOf ['/', '*']) before, lastByte (List.isPrefixOf ['*', '/']) before with
  | some _, none => true
  | some opener, some closer => closer < opener
  | none, _ => false

/-- None for an offset inside of a character or behind the text, where the slice panics. -/
def isCursorInComment (source : List Char) (offset : ℕ) : Option Bool :=
  (upToByte source offset).map fun before =>
    if lastMarkerOpens before then true else isInLineComment (afterLast '\n' before)

/-! ## What the scans look for -/

/-- The quotes of the line are closed behind this front of it. -/
def Unquoted (front : List Char) : Prop :=
  (front.foldl LineScan.step .start).unquoted

/-- The text has a `/*` with no `*/` behind its slash. -/
def UnclosedOpener (before : List Char) : Prop :=
  ∃ front back, before = front ++ '/' :: '*' :: back ∧ ¬ ['*', '/'] <:+: '*' :: back

/-- There is a `//` outside of the quotes of the last line. -/
def UnquotedSlashes (before : List Char) : Prop :=
  ∃ front back, afterLast '\n' before = front ++ '/' :: '/' :: back ∧ Unquoted front

/-- A `/*` ends here. -/
def EndsOpener (before : List Char) : Prop :=
  ['/', '*'] <:+ before

/-- A `//` outside of the quotes of the last line ends here. -/
def EndsUnquotedSlashes (before : List Char) : Prop :=
  ∃ front, afterLast '\n' before = front ++ ['/', '/'] ∧ Unquoted front

theorem isInLineCommentFrom_iff (scan : LineScan) (line : List Char) :
    isInLineCommentFrom scan line = true ↔
      ∃ front back, line = front ++ '/' :: '/' :: back ∧ (front.foldl LineScan.step scan).unquoted := by
  induction line generalizing scan with
  | nil => simp [isInLineCommentFrom]
  | cons c rest ih =>
    rw [isInLineCommentFrom]
    split_ifs with hslashes
    · obtain ⟨hscan, rfl, hhead⟩ := hslashes
      obtain ⟨back, rfl⟩ := List.head?_eq_some_iff.mp hhead
      exact iff_of_true rfl ⟨[], back, rfl, hscan⟩
    · rw [ih]
      constructor
      · rintro ⟨front, back, rfl, hfront⟩
        exact ⟨c :: front, back, rfl, hfront⟩
      · rintro ⟨front, back, heq, hfront⟩
        cases front with
        | nil =>
          obtain ⟨rfl, rfl⟩ := List.cons.inj heq
          exact absurd ⟨hfront, rfl, rfl⟩ hslashes
        | cons d front =>
          obtain ⟨rfl, rfl⟩ := List.cons.inj heq
          exact ⟨front, back, rfl, hfront⟩

theorem isInLineComment_iff (before : List Char) :
    isInLineComment (afterLast '\n' before) = true ↔ UnquotedSlashes before :=
  isInLineCommentFrom_iff .start _

theorem hitsBehind_isPrefixOf {needle text front : List Char} :
    HitsBehind (List.isPrefixOf needle) text front ↔ ∃ back, text = front ++ (needle ++ back) := by
  constructor
  · rintro ⟨back, rfl, hback⟩
    obtain ⟨rest, rfl⟩ := List.isPrefixOf_iff_prefix.mp hback
    exact ⟨rest, rfl⟩
  · rintro ⟨back, rfl⟩
    exact ⟨needle ++ back, rfl, List.isPrefixOf_iff_prefix.mpr (List.prefix_append _ _)⟩

/-- No place of a `*/` is behind the opener's. -/
theorem unclosedOpener_iff_places (before : List Char) :
    UnclosedOpener before ↔ ∃ opener, HitsBehind (List.isPrefixOf ['/', '*']) before opener ∧
      ∀ closer, HitsBehind (List.isPrefixOf ['*', '/']) before closer → closer.length ≤ opener.length := by
  constructor
  · rintro ⟨front, back, rfl, hback⟩
    refine ⟨front, hitsBehind_isPrefixOf.mpr ⟨back, rfl⟩, fun closer hcloser => ?_⟩
    obtain ⟨rest, hrest⟩ := hitsBehind_isPrefixOf.mp hcloser
    by_contra hlength
    have hfront : front ++ ['/'] <+: front ++ '/' :: '*' :: back := ⟨'*' :: back, by simp⟩
    have hprefix : front ++ ['/'] <+: closer := by
      refine List.prefix_of_prefix_length_le hfront ⟨_, hrest.symm⟩ ?_
      rw [List.length_append, List.length_singleton]
      omega
    obtain ⟨more, rfl⟩ := hprefix
    refine hback ⟨more, rest, ?_⟩
    simpa using hrest.symm
  · rintro ⟨opener, hopener, hclosers⟩
    obtain ⟨back, rfl⟩ := hitsBehind_isPrefixOf.mp hopener
    refine ⟨opener, back, rfl, ?_⟩
    rintro ⟨more, rest, hrest⟩
    have hcloser := hclosers (opener ++ '/' :: more)
      (hitsBehind_isPrefixOf.mpr ⟨rest, by simp [← hrest]⟩)
    rw [List.length_append, List.length_cons] at hcloser
    omega

theorem front_prefix_of_hits {hits : List Char → Bool} {text front : List Char}
    (h : HitsBehind hits text front) : front <+: text := by
  obtain ⟨back, rfl, -⟩ := h
  exact List.prefix_append front back

/-- One place has one marker. -/
theorem opener_ne_closer {before opener closer : List Char}
    (hopener : HitsBehind (List.isPrefixOf ['/', '*']) before opener)
    (hcloser : HitsBehind (List.isPrefixOf ['*', '/']) before closer) : closer.length ≠ opener.length := by
  obtain ⟨back, rfl⟩ := hitsBehind_isPrefixOf.mp hopener
  obtain ⟨rest, hrest⟩ := hitsBehind_isPrefixOf.mp hcloser
  intro hlength
  have hback := (List.append_inj hrest hlength.symm).2
  exact absurd (List.cons.inj hback).1 (by decide)

theorem lastMarkerOpens_iff (before : List Char) : lastMarkerOpens before = true ↔ UnclosedOpener before := by
  have hopener := @lastByte_spec (List.isPrefixOf ['/', '*']) before
  have hcloser := @lastByte_spec (List.isPrefixOf ['*', '/']) before
  rw [unclosedOpener_iff_places, lastMarkerOpens]
  cases hopen : lastByte (List.isPrefixOf ['/', '*']) before with
  | none =>
    rw [hopen] at hopener
    refine iff_of_false Bool.false_ne_true ?_
    rintro ⟨opener, hhit, -⟩
    exact hopener opener hhit
  | some openByte =>
    rw [hopen] at hopener
    obtain ⟨opener, hlastOpener, rfl⟩ := hopener
    cases hclose : lastByte (List.isPrefixOf ['*', '/']) before with
    | none =>
      rw [hclose] at hcloser
      exact iff_of_true rfl ⟨opener, hlastOpener.1, fun closer h => absurd h (hcloser closer)⟩
    | some closeByte =>
      rw [hclose] at hcloser
      obtain ⟨closer, hlastCloser, rfl⟩ := hcloser
      rw [decide_eq_true_iff, byteLength_lt_iff (front_prefix_of_hits hlastCloser.1)
        (front_prefix_of_hits hlastOpener.1)]
      constructor
      · exact fun hlt => ⟨opener, hlastOpener.1, fun other h => (hlastCloser.2 other h).trans hlt.le⟩
      · rintro ⟨other, hother, hclosers⟩
        have hle := (hclosers closer hlastCloser.1).trans (hlastOpener.2 other hother)
        exact lt_of_le_of_ne hle (opener_ne_closer hlastOpener.1 hlastCloser.1)

/-! ## One character more -/

theorem EndsOpener.unclosed {before : List Char} (h : EndsOpener before) : UnclosedOpener before := by
  obtain ⟨front, rfl⟩ := h
  refine ⟨front, [], rfl, fun h => ?_⟩
  have hlength := h.length_le
  simp at hlength

theorem EndsUnquotedSlashes.seen {before : List Char} (h : EndsUnquotedSlashes before) :
    UnquotedSlashes before := by
  obtain ⟨front, heq, hfront⟩ := h
  exact ⟨front, [], heq, hfront⟩

theorem unclosedOpener_snoc (before : List Char) (c : Char) :
    UnclosedOpener (before ++ [c]) ↔
      EndsOpener (before ++ [c]) ∨ (UnclosedOpener before ∧ ¬ ['*', '/'] <:+ before ++ [c]) := by
  constructor
  · rintro ⟨front, back, heq, hback⟩
    rcases List.eq_nil_or_concat back with rfl | ⟨back, d, rfl⟩
    · exact .inl ⟨front, heq.symm⟩
    · have hsplit : before ++ [c] = (front ++ '/' :: '*' :: back) ++ [d] := by simpa using heq
      obtain ⟨rfl, hd⟩ := List.append_inj' hsplit rfl
      cases hd
      refine .inr ⟨⟨front, back, rfl, fun h => hback ?_⟩, fun h => hback ?_⟩
      · exact h.trans (by simpa using (List.prefix_append ('*' :: back) [c]).isInfix)
      · refine (List.suffix_of_suffix_length_le h ⟨front ++ ['/'], by simp⟩ ?_).isInfix
        simp
  · rintro (hends | ⟨⟨front, back, rfl, hback⟩, hcloser⟩)
    · exact hends.unclosed
    · refine ⟨front, back ++ [c], by simp, fun h => ?_⟩
      have hsplit : ['*', '/'] <:+: ('*' :: back) ++ [c] := by simpa using h
      rcases List.infix_concat_iff.mp hsplit with hsuffix | hinfix
      · refine hcloser (hsuffix.trans ⟨front ++ ['/'], by simp⟩)
      · exact hback hinfix

theorem afterLast_lineFeed (before : List Char) : afterLast '\n' (before ++ ['\n']) = [] :=
  afterLast_append_cons before [] List.not_mem_nil

theorem afterLast_snoc (before : List Char) {c : Char} (hc : c ≠ '\n') :
    afterLast '\n' (before ++ [c]) = afterLast '\n' before ++ [c] :=
  afterLast_append_of_notMem before (by simpa using hc.symm)

theorem afterLast_suffix (before : List Char) : afterLast '\n' before <:+ before := by
  rw [afterLast, ← List.reverse_prefix, List.reverse_reverse]
  exact List.takeWhile_prefix _

theorem EndsUnquotedSlashes.suffix {before : List Char} (h : EndsUnquotedSlashes before) :
    ['/', '/'] <:+ before := by
  obtain ⟨front, hfront, -⟩ := h
  exact List.IsSuffix.trans ⟨front, hfront.symm⟩ (afterLast_suffix before)

theorem EndsUnquotedSlashes.last_eq {before : List Char} {c : Char} (h : EndsUnquotedSlashes (before ++ [c])) :
    c = '/' := by
  obtain ⟨front, hfront⟩ := h.suffix
  have hsplit : (front ++ ['/']) ++ ['/'] = before ++ [c] := by simpa using hfront
  exact (List.cons.inj (List.append_inj' hsplit rfl).2).1.symm

theorem not_endsUnquotedSlashes_closer (before : List Char) : ¬ EndsUnquotedSlashes (before ++ ['*', '/']) := by
  intro h
  obtain ⟨front, hfront⟩ := h.suffix
  exact absurd (List.append_inj' hfront rfl).2 (by decide)

theorem not_endsUnquotedSlashes_lineFeed (before : List Char) : ¬ EndsUnquotedSlashes (before ++ ['\n']) := by
  exact fun h => absurd h.last_eq (by decide)

theorem unquotedSlashes_snoc (before : List Char) (c : Char) :
    UnquotedSlashes (before ++ [c]) ↔
      EndsUnquotedSlashes (before ++ [c]) ∨ (UnquotedSlashes before ∧ c ≠ '\n') := by
  by_cases hc : c = '\n'
  · subst hc
    refine iff_of_false ?_ ?_
    · rintro ⟨front, back, hfront, -⟩
      rw [afterLast_lineFeed] at hfront
      simp at hfront
    · rintro (h | ⟨-, h⟩)
      · exact not_endsUnquotedSlashes_lineFeed before h
      · exact h rfl
  · rw [UnquotedSlashes, EndsUnquotedSlashes, UnquotedSlashes, afterLast_snoc before hc]
    constructor
    · rintro ⟨front, back, heq, hfront⟩
      rcases List.eq_nil_or_concat back with rfl | ⟨back, d, rfl⟩
      · exact .inl ⟨front, heq, hfront⟩
      · have hsplit : afterLast '\n' before ++ [c] = (front ++ '/' :: '/' :: back) ++ [d] := by simpa using heq
        exact .inr ⟨⟨front, back, (List.append_inj' hsplit rfl).1, hfront⟩, hc⟩
    · rintro (⟨front, heq, hfront⟩ | ⟨⟨front, back, heq, hfront⟩, -⟩)
      · exact ⟨front, [], heq, hfront⟩
      · exact ⟨front, back ++ [c], by simp [heq], hfront⟩

/-- Behind a `*/` no opener is unclosed. -/
theorem not_unclosedOpener_of_closer (before : List Char) : ¬ UnclosedOpener (before ++ ['*', '/']) := by
  have hsplit : before ++ ['*', '/'] = (before ++ ['*']) ++ ['/'] := by simp
  rw [hsplit, unclosedOpener_snoc]
  rintro (⟨front, hfront⟩ | ⟨-, hcloser⟩)
  · have hlast : (front ++ ['/']) ++ ['*'] = (before ++ ['*']) ++ ['/'] := by simpa using hfront
    exact absurd (List.cons.inj (List.append_inj' hlast rfl).2).1 (by decide)
  · exact hcloser ⟨before, by simp⟩

/-! ## Whole texts -/

/-- The code's answer is the lexer's at every offset. -/
def CommentsFollowLexer (source : List Char) : Prop :=
  ∀ offset before, upToByte source offset = some before →
    isCursorInComment source offset = some (decide (InComment before))

/-- Every marker that the scans look for is one of a comment, and every comment has such a marker. -/
structure MarkersOfComments (source : List Char) : Prop where
  openers : ∀ before, before <+: source → EndsOpener before ∨ EndsUnquotedSlashes before → InComment before
  begins : ∀ before c, before ++ [c] <+: source → ¬ InComment before → InComment (before ++ [c]) →
    EndsOpener (before ++ [c]) ∨ EndsUnquotedSlashes (before ++ [c])
  closers : ∀ before, before <+: source → InBlockComment before → ¬ ['*', '/'] <:+ before
  ends : ∀ before c, before ++ [c] <+: source → InComment before → ¬ InComment (before ++ [c]) →
    ¬ UnclosedOpener (before ++ [c]) ∧ ¬ UnquotedSlashes (before ++ [c])

theorem isCursorInComment_eq {source before : List Char} {offset : ℕ} (h : upToByte source offset = some before) :
    isCursorInComment source offset = some (decide (InComment before)) ↔
      (UnclosedOpener before ∨ UnquotedSlashes before ↔ InComment before) := by
  rw [isCursorInComment, h, Option.map_some, Option.some.injEq, Bool.eq_iff_iff, decide_eq_true_iff,
    Bool.if_true_left, Bool.or_eq_true, decide_eq_true_iff, lastMarkerOpens_iff, isInLineComment_iff]

/-- The property, without offsets. -/
theorem commentsFollowLexer_iff_places (source : List Char) :
    CommentsFollowLexer source ↔
      ∀ before, before <+: source → (UnclosedOpener before ∨ UnquotedSlashes before ↔ InComment before) := by
  constructor
  · intro h before hbefore
    have hcut : upToByte source (byteLength before) = some before := upToByte_eq_some_iff.mpr ⟨hbefore, rfl⟩
    exact (isCursorInComment_eq hcut).mp (h _ _ hcut)
  · intro h offset before hcut
    exact (isCursorInComment_eq hcut).mpr (h before (upToByte_eq_some_iff.mp hcut).1)

/-- What holds at every place of a text with these markers: each kind of comment is seen by its own scan. -/
structure ScansAgree (before : List Char) : Prop where
  line : InLineComment before → UnquotedSlashes before
  block : InBlockComment before → UnclosedOpener before
  code : ¬ InComment before → ¬ UnclosedOpener before ∧ ¬ UnquotedSlashes before

theorem ScansAgree.iff {before : List Char} (h : ScansAgree before) :
    UnclosedOpener before ∨ UnquotedSlashes before ↔ InComment before := by
  constructor
  · intro hseen
    by_contra hcode
    exact hseen.elim (h.code hcode).1 (h.code hcode).2
  · intro hcomment
    rcases (inComment_iff before).mp hcomment with hline | hblock
    · exact .inr (h.line hline)
    · exact .inl (h.block hblock)

theorem scansAgree_nil : ScansAgree [] where
  line h := by cases h
  block h := by cases h
  code _ := by
    constructor
    · rintro ⟨front, back, heq, -⟩
      simp at heq
    · rintro ⟨front, back, heq, -⟩
      simp [afterLast] at heq

section Step

variable {source before : List Char} {c : Char}

theorem not_inComment_state (h : ¬ InComment before) : (lexed before).state.inComment = false :=
  Bool.eq_false_iff.mpr h

/-- A line comment begins at no star. -/
theorem not_star_of_line_begins (hcode : ¬ InComment before) (hline : InLineComment (before ++ [c])) :
    ¬ EndsOpener (before ++ [c]) := by
  rintro ⟨front, hfront⟩
  have hc : c = '*' := by
    have hsplit : (front ++ ['/']) ++ ['*'] = before ++ [c] := by simpa using hfront
    exact (List.cons.inj (List.append_inj' hsplit rfl).2).1.symm
  subst hc
  rw [InLineComment, lexed_snoc, Lexer.step_star _ (not_inComment_state hcode)] at hline
  cases hline

theorem not_slash_of_block_begins (hcode : ¬ InComment before) (hblock : InBlockComment (before ++ [c])) :
    ¬ EndsUnquotedSlashes (before ++ [c]) := by
  intro hends
  obtain rfl := hends.last_eq
  rw [InBlockComment, lexed_snoc, Lexer.step_slash _ (not_inComment_state hcode)] at hblock
  cases hblock

theorem line_of_line_snoc (hcomment : InComment before) (hline : InLineComment (before ++ [c])) :
    InLineComment before := by
  rcases (inComment_iff before).mp hcomment with h | h
  · exact h
  · rw [InLineComment, lexed_snoc, Lexer.step_of_block _ h] at hline
    cases hline

theorem block_of_block_snoc (hcomment : InComment before) (hblock : InBlockComment (before ++ [c])) :
    InBlockComment before := by
  rcases (inComment_iff before).mp hcomment with h | h
  · rw [InBlockComment, lexed_snoc, Lexer.step_of_line _ h] at hblock
    cases hblock
  · exact h

theorem ne_lineFeed_of_line (hline : InLineComment before) (hcomment : InComment (before ++ [c])) : c ≠ '\n' := by
  rintro rfl
  rw [InComment, lexed_snoc, Lexer.step_lineFeed _ hline] at hcomment
  cases hcomment

/-- The step of the induction over the text. -/
theorem ScansAgree.snoc (h : ScansAgree before) (hmarkers : MarkersOfComments source)
    (hsource : before ++ [c] <+: source) : ScansAgree (before ++ [c]) where
  line hline := by
    have hcomment := (inComment_iff _).mpr (.inl hline)
    rw [unquotedSlashes_snoc]
    by_cases hbefore : InComment before
    · have hlineBefore := line_of_line_snoc hbefore hline
      exact .inr ⟨h.line hlineBefore, ne_lineFeed_of_line hlineBefore hcomment⟩
    · exact .inl ((hmarkers.begins _ _ hsource hbefore hcomment).resolve_left
        (not_star_of_line_begins hbefore hline))
  block hblock := by
    have hcomment := (inComment_iff _).mpr (.inr hblock)
    rw [unclosedOpener_snoc]
    by_cases hbefore : InComment before
    · exact .inr ⟨h.block (block_of_block_snoc hbefore hblock), hmarkers.closers _ hsource hblock⟩
    · exact .inl ((hmarkers.begins _ _ hsource hbefore hcomment).resolve_right
        (not_slash_of_block_begins hbefore hblock))
  code hcode := by
    by_cases hbefore : InComment before
    · exact hmarkers.ends _ _ hsource hbefore hcode
    · obtain ⟨hopener, hslashes⟩ := h.code hbefore
      rw [unclosedOpener_snoc, unquotedSlashes_snoc]
      constructor
      · rintro (hends | ⟨hopens, -⟩)
        · exact hcode (hmarkers.openers _ hsource (.inl hends))
        · exact hopener hopens
      · rintro (hends | ⟨hseen, -⟩)
        · exact hcode (hmarkers.openers _ hsource (.inr hends))
        · exact hslashes hseen

end Step

theorem MarkersOfComments.scansAgree {source : List Char} (h : MarkersOfComments source) {before : List Char}
    (hbefore : before <+: source) : ScansAgree before := by
  induction before using List.reverseRecOn with
  | nil => exact scansAgree_nil
  | append_singleton before c ih => exact (ih ((List.prefix_append before [c]).trans hbefore)).snoc h hbefore

/-- The star before has opened the comment: at the place before the star neither scan sees one, and neither
does behind the slash. -/
theorem no_closer_inside {source before : List Char}
    (h : ∀ before, before <+: source → (UnclosedOpener before ∨ UnquotedSlashes before ↔ InComment before))
    (hbefore : before <+: source) (hblock : InBlockComment before) : ¬ ['*', '/'] <:+ before := by
  rintro ⟨front, rfl⟩
  have hsplit : front ++ ['*', '/'] = (front ++ ['*']) ++ ['/'] := by simp
  have hcode : ¬ InComment front := by
    rw [InBlockComment, hsplit, lexed_snoc, lexed_snoc] at hblock
    exact Bool.eq_false_iff.mp (Lexer.code_of_star_slash _ hblock)
  have hfront := (h front ((List.prefix_append front _).trans hbefore)).not.mpr hcode
  rcases (h _ hbefore).mpr ((inComment_iff _).mpr (.inr hblock)) with hopener | hslashes
  · exact not_unclosedOpener_of_closer front hopener
  · rw [hsplit, unquotedSlashes_snoc, ← hsplit] at hslashes
    rcases hslashes with hends | ⟨hslashes, -⟩
    · exact not_endsUnquotedSlashes_closer front hends
    · rw [unquotedSlashes_snoc] at hslashes
      rcases hslashes with hends | ⟨hslashes, -⟩
      · exact absurd hends.last_eq (by decide)
      · exact hfront (.inr hslashes)

theorem markersOfComments_of_places {source : List Char}
    (h : ∀ before, before <+: source → (UnclosedOpener before ∨ UnquotedSlashes before ↔ InComment before)) :
    MarkersOfComments source where
  openers before hbefore hends :=
    (h before hbefore).mp (hends.imp EndsOpener.unclosed EndsUnquotedSlashes.seen)
  begins before c hsource hcode hcomment := by
    have hbefore := (h before ((List.prefix_append before [c]).trans hsource)).not.mpr hcode
    rw [not_or] at hbefore
    have hseen := (h _ hsource).mpr hcomment
    rw [unclosedOpener_snoc, unquotedSlashes_snoc] at hseen
    exact hseen.imp (fun h => h.resolve_right fun h => hbefore.1 h.1)
      (fun h => h.resolve_right fun h => hbefore.2 h.1)
  closers before hbefore hblock := no_closer_inside h hbefore hblock
  ends before c hsource _ hcode := not_or.mp ((h _ hsource).not.mpr hcode)

/-- The cursor is seen in a comment exactly where it is in one, at every offset of the text, if and only if
each marker that the scans look for is one of a comment and each comment has one. -/
theorem comments_follow_lexer_iff (source : List Char) :
    CommentsFollowLexer source ↔ MarkersOfComments source := by
  rw [commentsFollowLexer_iff_places]
  exact ⟨markersOfComments_of_places, fun h before hbefore => (h.scansAgree hbefore).iff⟩

/-- The opener in the string counts. -/
theorem opener_in_string_counts :
    isCursorInComment "s = \"/*\";".toList 9 = some true ∧ ¬ InComment "s = \"/*\";".toList ∧
      ¬ CommentsFollowLexer "s = \"/*\";".toList := by
  have hcode : ¬ InComment "s = \"/*\";".toList := by decide
  have hseen : isCursorInComment "s = \"/*\";".toList 9 = some true := by decide
  refine ⟨hseen, hcode, fun h => ?_⟩
  have hanswer := h 9 "s = \"/*\";".toList (by decide)
  rw [hseen, Option.some.injEq] at hanswer
  exact hcode (of_decide_eq_true hanswer.symm)

end JavaAnalyzer.Language
