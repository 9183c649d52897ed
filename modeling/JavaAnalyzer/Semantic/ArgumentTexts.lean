import JavaAnalyzer.Library.ScannedSplit

/-! # Argument lists as texts

`resolve_member` of `semantic/types/symbol_resolver.rs` takes the arguments of a call out of the text between its
parentheses, and `infer_method_argument_target_hint` of `language/java/location/hints.rs` does so too, with the index of
the argument that holds the cursor. Both split at the commas outside of brackets, and count `<` and `>` among these. -/

namespace JavaAnalyzer.Semantic
set_option autoImplicit false
open Text ScannedSplit

/-! ## The resolver -/

def isOpener (c : Char) : Bool :=
  c == '(' || c == '<' || c == '[' || c == '{'

def isCloser (c : Char) : Bool :=
  c == ')' || c == '>' || c == ']' || c == '}'

def bracket (c : Char) : ℤ :=
  if isOpener c then 1 else if isCloser c then -1 else 0

/-- The loop of `split_args`: it counts brackets, below zero too, and cuts at a comma where the count is zero. -/
def splitArgsScan : Scanner ℤ where
  step depth c := depth + bracket c
  cuts depth c := c == ',' && depth == 0

def splitArgs (s : List Char) : List (List Char) :=
  trimmed (splitArgsScan.pieces 0 s)

def trimStartMatches (c : Char) (s : List Char) : List Char :=
  s.dropWhile (· == c)

def trimEndMatches (c : Char) (s : List Char) : List Char :=
  s.rdropWhile (· == c)

/-- What `resolve_member` makes of the arguments: how many there are, and their texts. -/
def resolveMemberArguments (args : List Char) : ℕ × List (List Char) :=
  let argText := trimEndMatches ')' (trimStartMatches '(' (trim args))
  let argTexts := splitArgs argText
  let argCount := if (trim argText).isEmpty then 0 else argTexts.length
  (argCount, argTexts)

/-! ## The hints -/

/-- A loop over the characters with the depth and the character before: the `>` of an arrow is no bracket, and the depth
does not go below zero. -/
def topLevelScan : Scanner (ℕ × Option Char) where
  step s c :=
    (if isOpener c then s.1 + 1
      else if c == '>' && s.2 == some '-' then s.1
      else if isCloser c then s.1 - 1
      else s.1, some c)
  cuts s c := c == ',' && s.1 == 0

def countTopLevelCommas (s : List Char) : ℕ :=
  topLevelScan.count (0, none) s

def splitTopLevelArgs (s : List Char) : List (List Char) :=
  trimmed (topLevelScan.pieces (0, none) s)

/-- Where the tree has the argument list that the cursor is in, and the parts of its call. -/
structure Invocation where
  object : Option (List Char)
  name : Option (List Char)
  argListStart : ℕ
  argListEnd : ℕ

structure FunctionalMethodCallHint where
  receiverExpr : List Char
  methodName : List Char
  argIndex : ℕ
  argTexts : List (List Char)

def argumentIndexAtCursor (source : List Char) (offset : ℕ) (call : Invocation) : ℕ :=
  let start := call.argListStart + 1
  let stop := min (call.argListEnd - 1) offset
  if stop ≤ start then 0 else countTopLevelCommas ((source.take stop).drop start)

def splitArgumentTexts (source : List Char) (call : Invocation) : List (List Char) :=
  let start := call.argListStart + 1
  let stop := call.argListEnd - 1
  if stop ≤ start then [] else splitTopLevelArgs ((source.take stop).drop start)

def inferMethodArgumentTargetHint (source : List Char) (offset : ℕ) (call : Invocation) :
    Option FunctionalMethodCallHint :=
  let methodName := call.name.getD []
  if methodName.isEmpty then none
  else
    some
      { receiverExpr := (call.object.filter fun s => !(trim s).isEmpty).getD "this".toList
        methodName := methodName
        argIndex := argumentIndexAtCursor source offset call
        argTexts := splitArgumentTexts source call }

/-! ## Argument lists -/

/-- The arguments of a call, each with the blanks around it. Only the one chunk of an empty list has nothing in it. -/
structure ArgumentList where
  chunks : List (List Char)
  nonempty : chunks ≠ []
  onlyBlank : ∀ chunk ∈ chunks, trim chunk = [] → chunks = [chunk]

namespace ArgumentList

variable (list : ArgumentList)

/-- What stands between the parentheses. -/
def inside : List Char :=
  [','].intercalate list.chunks

def texts : List (List Char) :=
  trimmed list.chunks

/-- Up to a place in an argument. -/
def upTo (i : ℕ) (front : List Char) : List Char :=
  (list.chunks.take i).flatMap (· ++ [',']) ++ front

theorem upTo_prefix {i : ℕ} {front back : List Char} (h : list.chunks[i]? = some (front ++ back)) :
    list.upTo i front <+: list.inside :=
  prefix_intercalate ',' h

end ArgumentList

/-! ## Brackets in the arguments -/

/-- How many brackets a text leaves open. -/
def bracketDepth (text : List Char) : ℤ :=
  (text.map bracket).sum

/-- The brackets of a text for the hints, with the character before it: the `>` of an arrow is none. -/
def hintBrackets : Option Char → List Char → List ℤ
  | _, [] => []
  | prev, c :: text => (if c == '>' && prev == some '-' then 0 else bracket c) :: hintBrackets (some c) text

/-- From no place on does the text open more brackets than it closes. -/
def AllClosed (text : List Char) : Prop :=
  ∀ brackets, brackets <:+ hintBrackets none text → brackets.sum ≤ 0

namespace ArgumentList

variable (list : ArgumentList)

/-- The brackets come out even in each argument but the last one, and before no comma inside an argument. -/
def EvenAtCommas : Prop :=
  (∀ chunk ∈ list.chunks.dropLast, bracketDepth chunk = 0) ∧
    ∀ chunk ∈ list.chunks, ∀ front back, chunk = front ++ ',' :: back → bracketDepth front ≠ 0

/-- All is closed in each argument but the last one, and before no comma inside an argument. -/
def ClosedAtCommas : Prop :=
  (∀ chunk ∈ list.chunks.dropLast, AllClosed chunk) ∧
    ∀ chunk ∈ list.chunks, ∀ front back, chunk = front ++ ',' :: back → ¬AllClosed front

/-- The parentheses of the call have no other ones right behind or before them. -/
def ApartFromParens : Prop :=
  list.inside.head? ≠ some '(' ∧ list.inside.getLast? ≠ some ')'

end ArgumentList

section Scans

variable {σ : Type} {scan : Scanner σ} {start : σ} {chunks : List (List Char)}

theorem bracketDepth_cons (c : Char) (text : List Char) :
    bracketDepth (c :: text) = bracket c + bracketDepth text := by
  simp [bracketDepth]

theorem splitArgsScan_run (depth : ℤ) (text : List Char) :
    splitArgsScan.run depth text = depth + bracketDepth text := by
  induction text generalizing depth with
  | nil => simp [Scanner.run, bracketDepth]
  | cons c text ih =>
    rw [bracketDepth_cons, ← add_assoc]
    exact ih (depth + bracket c)

/-- A scan that cuts at commas only, at some states. -/
theorem uncut_comma_iff (hcuts : ∀ s c, scan.cuts s c = true → c = ',') {chunk : List Char} :
    scan.Uncut start chunk ↔
      ∀ front back, chunk = front ++ ',' :: back → scan.cuts (scan.run start front) ',' = false := by
  rw [uncut_iff]
  refine ⟨fun h front back => h front ',' back, fun h front c back hchunk => ?_⟩
  by_contra hcut
  obtain rfl := hcuts _ c (by simpa using hcut)
  exact hcut (h front back hchunk)

theorem splitArgsScan_comma : ∀ s c, splitArgsScan.cuts s c = true → c = ',' := by
  intro s c h
  exact beq_iff_eq.mp ((Bool.and_eq_true _ _).mp h).1

theorem topLevelScan_comma : ∀ s c, topLevelScan.cuts s c = true → c = ',' := by
  intro s c h
  exact beq_iff_eq.mp ((Bool.and_eq_true _ _).mp h).1

theorem evenAtCommas_iff (list : ArgumentList) : splitArgsScan.CutsBetween ',' 0 list.chunks ↔ list.EvenAtCommas := by
  have halike : Alike splitArgsScan Eq := ⟨fun c h => by rw [h], fun c h => by rw [h]⟩
  have hcut : ∀ text, splitArgsScan.cuts (splitArgsScan.run 0 text) ',' = true ↔ bracketDepth text = 0 := by
    intro text
    rw [splitArgsScan_run, zero_add]
    simp [splitArgsScan]
  rw [@cutsBetween_iff _ _ _ ',' _ halike 0 ?_ _ rfl, ArgumentList.EvenAtCommas]
  · simp only [hcut, uncut_comma_iff splitArgsScan_comma, ← Bool.not_eq_true, ne_eq]
  · intro s hs
    obtain rfl : s = 0 := by simpa [splitArgsScan] using hs
    rfl

/-- States of the same depth, with a dash before in both or in neither. -/
def SameLevel (s t : ℕ × Option Char) : Prop :=
  s.1 = t.1 ∧ (s.2 == some '-') = (t.2 == some '-')

/-- One step of the scan goes by the bracket, but not below zero. -/
theorem topLevelScan_step (depth : ℕ) (prev : Option Char) (c : Char) :
    topLevelScan.step (depth, prev) c =
      ((depth + if c == '>' && prev == some '-' then 0 else bracket c).toNat, some c) := by
  refine Prod.ext ?_ rfl
  simp only [topLevelScan, bracket]
  split_ifs with hopen harrow hclose
  · obtain rfl := beq_iff_eq.mp ((Bool.and_eq_true _ _).mp harrow).1
    cases hopen
  all_goals omega

/-- The scan of the hints ends at the top when nothing is open from any place on. -/
theorem topLevelScan_top_iff (depth : ℕ) (prev : Option Char) (text : List Char) :
    (topLevelScan.run (depth, prev) text).1 = 0 ↔
      depth + (hintBrackets prev text).sum ≤ 0 ∧
        ∀ brackets, brackets <:+ hintBrackets prev text → brackets.sum ≤ 0 := by
  induction text generalizing depth prev with
  | nil => simp [Scanner.run, hintBrackets]
  | cons c text ih =>
    have hrun : topLevelScan.run (depth, prev) (c :: text) =
        topLevelScan.run (topLevelScan.step (depth, prev) c) text := rfl
    rw [hrun, topLevelScan_step, ih, hintBrackets, List.sum_cons]
    set weight : ℤ := if c == '>' && prev == some '-' then 0 else bracket c
    constructor
    · rintro ⟨hsum, hall⟩
      have hrest := hall _ List.suffix_rfl
      refine ⟨by omega, fun brackets hsuffix => ?_⟩
      rcases List.suffix_cons_iff.mp hsuffix with rfl | hsuffix
      · rw [List.sum_cons]
        omega
      · exact hall brackets hsuffix
    · rintro ⟨hsum, hall⟩
      have hrest := hall _ (List.suffix_cons _ _)
      exact ⟨by omega, fun brackets hsuffix => hall brackets (hsuffix.trans (List.suffix_cons _ _))⟩

theorem closedAtCommas_iff (list : ArgumentList) :
    topLevelScan.CutsBetween ',' (0, none) list.chunks ↔ list.ClosedAtCommas := by
  have halike : Alike topLevelScan SameLevel := by
    refine ⟨fun c h => ⟨?_, rfl⟩, fun c h => ?_⟩
    · simp only [topLevelScan, h.1, h.2]
    · simp only [topLevelScan, h.1]
  have hcut : ∀ text, topLevelScan.cuts (topLevelScan.run (0, none) text) ',' = true ↔ AllClosed text := by
    intro text
    have htop := topLevelScan_top_iff 0 none text
    have hstart : ((0 : ℕ) : ℤ) + (hintBrackets none text).sum ≤ 0 ↔ (hintBrackets none text).sum ≤ 0 := by
      rw [Nat.cast_zero, zero_add]
    rw [hstart, and_iff_right_of_imp fun h => h _ List.suffix_rfl] at htop
    rw [AllClosed, ← htop]
    simp [topLevelScan]
  rw [@cutsBetween_iff _ _ _ ',' _ halike (0, none) ?_ _ ⟨rfl, rfl⟩, ArgumentList.ClosedAtCommas]
  · simp only [hcut, uncut_comma_iff topLevelScan_comma, ← Bool.not_eq_true, ne_eq]
  · intro s hs
    have hzero : s.1 = 0 := by simpa [topLevelScan] using hs
    exact ⟨by simp [topLevelScan, isOpener, isCloser, hzero], by simp [topLevelScan]⟩

end Scans

/-! ## The parentheses of the call -/

section Resolver

/-- Splitting and trimming lose no character but commas and blanks. -/
theorem sum_count_splitArgs {c : Char} (hcomma : c ≠ ',') (hc : isWhitespace c = false) (text : List Char) :
    ((splitArgs text).map (List.count c)).sum = text.count c := by
  rw [splitArgs, sum_count_trimmed hc, ← count_intercalate_of_ne hcomma,
    intercalate_pieces (fun s c => splitArgsScan_comma s c)]

theorem trimStartMatches_concat (text : List Char) :
    trimStartMatches '(' (text ++ [')']) = trimStartMatches '(' text ++ [')'] := by
  rw [trimStartMatches, trimStartMatches, List.dropWhile_append]
  split_ifs with hempty
  · rw [List.isEmpty_iff.mp hempty]
    rfl
  · rfl

theorem trimMatches_concat (text : List Char) :
    trimEndMatches ')' (trimStartMatches '(' (text ++ [')'])) = trimEndMatches ')' (trimStartMatches '(' text) := by
  rw [trimStartMatches_concat, trimEndMatches, List.rdropWhile_concat_pos _ _ _ (by decide)]
  rfl

theorem argText_call {b b' : List Char} (hb : Blank b) (hb' : Blank b') (inside : List Char) :
    trimEndMatches ')' (trimStartMatches '(' (trim (b ++ '(' :: (inside ++ ')' :: b')))) =
      trimEndMatches ')' (trimStartMatches '(' inside) := by
  have hsolid : Solid (['('] ++ inside ++ [')']) :=
    (solid_singleton (by decide)).append inside (solid_singleton (by decide))
  have hcall : b ++ '(' :: (inside ++ ')' :: b') = b ++ (['('] ++ inside ++ [')']) ++ b' := by simp
  have hstart : trimStartMatches '(' (['('] ++ inside ++ [')']) = trimStartMatches '(' (inside ++ [')']) := rfl
  rw [hcall, trim_append_blank _ hb', trim_blank_append hb, hsolid.trim_eq, hstart, trimMatches_concat]

theorem trimMatches_sublist (text : List Char) :
    (trimEndMatches ')' (trimStartMatches '(' text)).Sublist text :=
  (List.rdropWhile_prefix _ _).sublist.trans (List.dropWhile_suffix _).sublist

/-- A text with other parentheses at its ends loses some of them. -/
theorem apart_of_counts {text : List Char}
    (h : ∀ c, c = '(' ∨ c = ')' → (trimEndMatches ')' (trimStartMatches '(' text)).count c = text.count c) :
    text.head? ≠ some '(' ∧ text.getLast? ≠ some ')' := by
  constructor
  · intro hhead
    obtain ⟨rest, rfl⟩ := List.head?_eq_some_iff.mp hhead
    have hstart : trimStartMatches '(' ('(' :: rest) = trimStartMatches '(' rest := rfl
    have hcount := h '(' (Or.inl rfl)
    have hle := (trimMatches_sublist rest).count_le '('
    rw [hstart, List.count_cons_self] at hcount
    omega
  · intro hlast
    obtain ⟨init, rfl⟩ := List.getLast?_eq_some_iff.mp hlast
    have hcount := h ')' (Or.inr rfl)
    have hle := (trimMatches_sublist init).count_le ')'
    rw [trimMatches_concat, List.count_append, List.count_singleton_self] at hcount
    omega

theorem trimMatches_eq_self {text : List Char} (hhead : text.head? ≠ some '(') (hlast : text.getLast? ≠ some ')') :
    trimEndMatches ')' (trimStartMatches '(' text) = text := by
  have hstart : trimStartMatches '(' text = text := by
    cases text with
    | nil => rfl
    | cons c rest => exact List.dropWhile_cons_of_neg (by simpa using hhead)
  rw [hstart]
  refine List.rdropWhile_eq_self_iff.mpr fun hne hclose => hlast ?_
  rw [List.getLast?_eq_getLast_of_ne_nil hne, beq_iff_eq.mp hclose]

/-- The argument count is the number of the texts. -/
theorem resolveMemberArguments_count (args : List Char) :
    (resolveMemberArguments args).1 = (resolveMemberArguments args).2.length := by
  rw [resolveMemberArguments]
  split_ifs with hempty
  · have hcounts : ∀ text, trim text = [] → splitArgs text = [] := by
      intro text hblank
      have hcomma : ∀ front back, text = front ++ ',' :: back →
          splitArgsScan.cuts (splitArgsScan.run 0 front) ',' = false := by
        rintro front back rfl
        have hcount := count_trim (c := ',') (by decide) (front ++ ',' :: back)
        rw [hblank, List.count_nil, List.count_append, List.count_cons_self] at hcount
        omega
      rw [splitArgs, pieces_uncut ((uncut_comma_iff splitArgsScan_comma).mpr hcomma), trimmed, List.map_singleton,
        hblank]
      rfl
    rw [hcounts _ (List.isEmpty_iff.mp hempty)]
    rfl
  · rfl

end Resolver

/-! ## The two callers -/

namespace ArgumentList

variable (list : ArgumentList)

/-- The call's argument text, with blanks around it. -/
def rendered (before after : List Char) : List Char :=
  before ++ '(' :: (list.inside ++ ')' :: after)

/-- A call of a method whose argument list begins at the given place. -/
def callOf (object : Option (List Char)) (name : List Char) (start : ℕ) : Invocation where
  object := object
  name := some name
  argListStart := start
  argListEnd := start + list.inside.length + 2

/-- The resolver has the number of the arguments and their texts. -/
def CountedByResolver : Prop :=
  ∀ before after, Blank before → Blank after →
    resolveMemberArguments (list.rendered before after) = (list.texts.length, list.texts)

/-- With the cursor in an argument, the hint has the texts of the arguments and the index of that one. -/
def CountedByHints : Prop :=
  ∀ before after object name, name ≠ [] → ∀ (i : ℕ) front back, list.chunks[i]? = some (front ++ back) →
    ∃ hint, inferMethodArgumentTargetHint (list.rendered before after)
        (before.length + 1 + (list.upTo i front).length) (list.callOf object name before.length) = some hint ∧
      hint.argTexts = list.texts ∧ hint.argIndex = i

theorem countedByResolver_iff : list.CountedByResolver ↔ list.ApartFromParens ∧ list.EvenAtCommas := by
  have htexts : splitArgs list.inside = list.texts ↔ list.EvenAtCommas := by
    rw [← evenAtCommas_iff]
    exact trimmed_pieces_iff (by decide) splitArgsScan_comma list.nonempty list.onlyBlank
  constructor
  · intro h
    have hcall := congrArg Prod.snd (h [] [] blank_nil blank_nil)
    rw [rendered, resolveMemberArguments] at hcall
    dsimp only at hcall
    rw [argText_call blank_nil blank_nil] at hcall
    have hapart : list.ApartFromParens := by
      refine apart_of_counts fun c hc => ?_
      have hcomma : c ≠ ',' := by rcases hc with rfl | rfl <;> decide
      have hsolid : isWhitespace c = false := by rcases hc with rfl | rfl <;> decide
      rw [← sum_count_splitArgs hcomma hsolid, hcall, texts, sum_count_trimmed hsolid, inside,
        count_intercalate_of_ne hcomma]
    rw [trimMatches_eq_self hapart.1 hapart.2] at hcall
    exact ⟨hapart, htexts.mp hcall⟩
  · rintro ⟨hapart, heven⟩ before after hbefore hafter
    have hsnd : (resolveMemberArguments (list.rendered before after)).2 = list.texts := by
      rw [rendered, resolveMemberArguments]
      dsimp only
      rw [argText_call hbefore hafter, trimMatches_eq_self hapart.1 hapart.2, htexts.mpr heven]
    refine Prod.ext ?_ hsnd
    rw [resolveMemberArguments_count, hsnd]

/-- The part of the source from the parenthesis on. -/
theorem slice_rendered (before after : List Char) {upTo : List Char} (h : upTo <+: list.inside) :
    ((list.rendered before after).take (before.length + 1 + upTo.length)).drop (before.length + 1) = upTo := by
  obtain ⟨rest, hrest⟩ := h
  have htext : list.rendered before after = (before ++ ['(']) ++ (upTo ++ (rest ++ ')' :: after)) := by
    rw [rendered, ← hrest]
    simp
  have hlen : before.length + 1 = (before ++ ['(']).length := by simp
  rw [htext, hlen, List.take_length_add_append, List.drop_left, List.take_left]

theorem splitArgumentTexts_call (before after : List Char) (object : Option (List Char)) (name : List Char) :
    splitArgumentTexts (list.rendered before after) (list.callOf object name before.length) =
      splitTopLevelArgs list.inside := by
  have hstop : before.length + list.inside.length + 2 - 1 = before.length + 1 + list.inside.length := by omega
  rw [splitArgumentTexts, callOf]
  dsimp only
  rw [hstop, slice_rendered list before after List.prefix_rfl]
  split_ifs with hempty
  · have hnil : list.inside = [] := List.eq_nil_of_length_eq_zero (by omega)
    rw [hnil]
    rfl
  · rfl

theorem argumentIndexAtCursor_call (before after : List Char) (object : Option (List Char)) (name : List Char)
    {upTo : List Char} (h : upTo <+: list.inside) :
    argumentIndexAtCursor (list.rendered before after) (before.length + 1 + upTo.length)
      (list.callOf object name before.length) = countTopLevelCommas upTo := by
  have hle := h.length_le
  have hstop : min (before.length + list.inside.length + 2 - 1) (before.length + 1 + upTo.length) =
      before.length + 1 + upTo.length := by omega
  rw [argumentIndexAtCursor, callOf]
  dsimp only
  rw [hstop, slice_rendered list before after h]
  split_ifs with hempty
  · have hnil : upTo = [] := List.eq_nil_of_length_eq_zero (by omega)
    rw [hnil]
    rfl
  · rfl

theorem countedByHints_iff : list.CountedByHints ↔ list.ClosedAtCommas := by
  have htexts : splitTopLevelArgs list.inside = list.texts ↔ list.ClosedAtCommas := by
    rw [← closedAtCommas_iff]
    exact trimmed_pieces_iff (by decide) topLevelScan_comma list.nonempty list.onlyBlank
  constructor
  · intro h
    obtain ⟨chunk, rest, hchunks⟩ := List.exists_cons_of_ne_nil list.nonempty
    obtain ⟨hint, hsome, hargs, -⟩ := h [] [] none ['f'] (List.cons_ne_nil _ _) 0 [] chunk (by rw [hchunks]; rfl)
    obtain rfl := Option.some.inj hsome
    rw [← htexts, ← hargs]
    exact (splitArgumentTexts_call list [] [] none ['f']).symm
  · intro h before after object name hname i front back hi
    have hempty : (name.isEmpty : Bool) = false := by simpa using hname
    refine ⟨_, by rw [inferMethodArgumentTargetHint]; exact if_neg (by simp [callOf, hempty]), ?_, ?_⟩
    · exact (splitArgumentTexts_call list before after object name).trans (htexts.mpr h)
    · refine (argumentIndexAtCursor_call list before after object name (list.upTo_prefix hi)).trans ?_
      exact count_intercalate ((closedAtCommas_iff list).mpr h) hi

/-- Arguments are counted right exactly where the parentheses of the call stand apart from others and the brackets,
less-than and greater-than signs among them, are closed where an argument ends and open at the commas inside one. -/
theorem argument_lists_iff :
    list.CountedByResolver ∧ list.CountedByHints ↔
      list.ApartFromParens ∧ list.EvenAtCommas ∧ list.ClosedAtCommas := by
  rw [countedByResolver_iff, countedByHints_iff, and_assoc]

/-- `foo(bar(x))` -/
def nestedCall : ArgumentList where
  chunks := ["bar(x)".toList]
  nonempty := by decide
  onlyBlank := by decide

/-- `foo(a < b, c)` -/
def comparison : ArgumentList where
  chunks := ["a < b".toList, " c".toList]
  nonempty := by decide
  onlyBlank := by decide

/-- The argument `bar(x)` loses its parenthesis, and a less-than sign makes one argument of two. -/
theorem arguments_miscounted : ¬nestedCall.CountedByResolver ∧ ¬comparison.CountedByHints := by
  constructor
  · intro h
    exact absurd (h [] [] blank_nil blank_nil) (by decide)
  · intro h
    obtain ⟨hint, hsome, hargs, -⟩ := h [] [] none ['f'] (by decide) 0 [] "a < b".toList rfl
    obtain rfl := Option.some.inj hsome
    exact absurd hargs (by decide)

end ArgumentList

end JavaAnalyzer.Semantic
