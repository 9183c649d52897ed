import JavaAnalyzer.Semantic.ArgumentTexts
import JavaAnalyzer.Semantic.TypeName

/-! # Member chains

`parse_chain_from_expr` of `completion/parser.rs`: a scanner with a depth of parentheses and one of angle brackets takes
a chain of member accesses apart. It reads brackets wherever they stand, in literals and comparisons too, so the
segments come back exactly for the chains of `Fits` (`parse_chain_iff`). -/

namespace JavaAnalyzer.Completion
set_option autoImplicit false
open Text TextLines ScannedSplit Semantic

/-! ## The scanner -/

structure ChainSegment where
  name : List Char
  argCount : Option ℕ
  argTypes : List TypeName
  argTexts : List (List Char)

namespace ChainSegment

def ofVariable (name : List Char) : ChainSegment :=
  ⟨name, none, [], []⟩

def methodWithTypes (name : List Char) (argCount : ℕ) (argTypes : List TypeName) (argTexts : List (List Char)) :
    ChainSegment :=
  ⟨name, some argCount, argTypes, argTexts⟩

end ChainSegment

/-- The text behind the bracket that closes the first one, from a depth on. -/
def behindClosing : ℤ → List Char → Option (List Char)
  | _, [] => none
  | depth, c :: text =>
    if c = '<' then behindClosing (depth + 1) text
    else if c = '>' then if depth - 1 = 0 then some text else behindClosing (depth - 1) text
    else behindClosing depth text

def extractMethodName (head : List Char) : List Char :=
  let trimmed := trim head
  if trimmed.head? ≠ some '<' then trimmed
  else
    match behindClosing 0 trimmed with
    | some rest => trimStart rest
    | none => trimmed

/-- What the loop holds. The text from `arg_start` up to the character at hand is `arg`. -/
structure ChainScan where
  current : List Char
  parenDepth : ℕ
  angleDepth : ℕ
  inMethod : Bool
  arg : List Char
  argTexts : List (List Char)

namespace ChainScan

variable (scan : ChainScan)

def start : ChainScan :=
  ⟨[], 0, 0, false, [], []⟩

def push (c : Char) : ChainScan :=
  { scan with
    current := if scan.parenDepth = 0 then scan.current ++ [c] else scan.current
    arg := scan.arg ++ [c] }

/-- The variable that the text before a separator names, if there is one. -/
def variableBefore (current : List Char) : Option ChainSegment :=
  if (trim current).isEmpty then none else some (.ofVariable (trim current))

def methodSegment : ChainSegment :=
  let argTexts := if (trim scan.arg).isEmpty then scan.argTexts else scan.argTexts ++ [trim scan.arg]
  .methodWithTypes (extractMethodName scan.current) argTexts.length [] argTexts

/-- The segment that a character completes, and how the loop goes on. -/
def step (c : Char) : Option ChainSegment × ChainScan :=
  if c = '<' then (none, { scan.push c with angleDepth := scan.angleDepth + 1 })
  else if c = '>' then (none, { scan.push c with angleDepth := scan.angleDepth - 1 })
  else if c = '(' then
    if scan.parenDepth = 0 then (none, { scan with parenDepth := 1, inMethod := true, arg := [], argTexts := [] })
    else (none, { scan with parenDepth := scan.parenDepth + 1, arg := scan.arg ++ [c] })
  else if c = ')' then
    if scan.parenDepth - 1 = 0 ∧ scan.inMethod = true then
      (some scan.methodSegment, ⟨[], 0, scan.angleDepth, false, scan.arg ++ [c], []⟩)
    else (none, { scan with parenDepth := scan.parenDepth - 1, arg := scan.arg ++ [c] })
  else if c = ',' ∧ scan.parenDepth = 1 ∧ scan.inMethod = true ∧ scan.angleDepth = 0 then
    (none, { scan with arg := [], argTexts := scan.argTexts ++ [trim scan.arg] })
  else if c = '.' ∧ scan.parenDepth = 0 ∧ scan.angleDepth = 0 then
    (if scan.inMethod then none else variableBefore scan.current, { scan with current := [], arg := scan.arg ++ [c] })
  else if c = '[' ∧ scan.parenDepth = 0 ∧ scan.angleDepth = 0 ∧ scan.inMethod = false then
    (variableBefore scan.current, { scan with current := ['['], arg := scan.arg ++ [c] })
  else if c = ']' ∧ scan.parenDepth = 0 ∧ scan.angleDepth = 0 ∧ scan.inMethod = false ∧
      scan.current.head? = some '[' then
    (some (.ofVariable (scan.current ++ [']'])), { scan with current := [], arg := scan.arg ++ [c] })
  else (none, scan.push c)

def finish : Option ChainSegment :=
  if scan.parenDepth = 0 ∧ scan.inMethod = false then variableBefore scan.current else none

/-- The segments from a place on. -/
def run : ChainScan → List Char → List ChainSegment
  | scan, [] => scan.finish.toList
  | scan, c :: text => (scan.step c).1.toList ++ run (scan.step c).2 text

end ChainScan

def parseChainFromExpr (expr : List Char) : List ChainSegment :=
  ChainScan.start.run expr

/-! ## Chains -/

/-- A segment of a chain: a name, a call with its arguments, or an index with the text between the brackets. -/
inductive ChainLink where
  | ident (name : List Char)
  | call (name : List Char) (args : ArgumentList)
  | index (inside : List Char)

/-- A name has no blanks and none of the characters that the scanner looks at. -/
structure IsChainName (name : List Char) : Prop where
  ne_nil : name ≠ []
  plain : ∀ c ∈ name, isWhitespace c = false ∧ c ∉ ['<', '>', '(', ')', ',', '.', '[', ']']

namespace ChainLink

def WellNamed : ChainLink → Prop
  | ident name => IsChainName name
  | call name _ => IsChainName name
  | index _ => True

def text : ChainLink → List Char
  | ident name => name
  | call name args => name ++ '(' :: (args.inside ++ [')'])
  | index inside => '[' :: (inside ++ [']'])

/-- The separator before a segment that is not the first. -/
def separator : ChainLink → List Char
  | index _ => []
  | _ => ['.']

def segment : ChainLink → ChainSegment
  | ident name => .ofVariable name
  | call name args => .methodWithTypes name args.texts.length [] args.texts
  | index inside => .ofVariable ('[' :: (inside ++ [']']))

end ChainLink

def renderBehind (links : List ChainLink) : List Char :=
  links.flatMap fun link => link.separator ++ link.text

def renderChain : List ChainLink → List Char
  | [] => []
  | link :: links => link.text ++ renderBehind links

/-! ## Where the brackets stand -/

def angleStep (angle : ℕ) (c : Char) : ℕ :=
  if c = '<' then angle + 1 else if c = '>' then angle - 1 else angle

/-- The depth in angle brackets behind a text, which does not go below zero. -/
def anglesBehind (angle : ℕ) (text : List Char) : ℕ :=
  text.foldl angleStep angle

/-- The parentheses of a text close one another, and as many as were open before it. -/
def ParensClose : ℕ → List Char → Prop
  | depth, [] => depth = 0
  | depth, c :: text =>
    if c = '(' then ParensClose (depth + 1) text
    else if c = ')' then 0 < depth ∧ ParensClose (depth - 1) text
    else ParensClose depth text

/-- The depths in parentheses and in angle brackets. The scanner cuts at commas outside of both. -/
def argScan : Scanner (ℕ × ℕ) where
  step depths c :=
    (if c = '(' then depths.1 + 1 else if c = ')' then depths.1 - 1 else depths.1, angleStep depths.2 c)
  cuts depths c := c == ',' && depths.1 == 0 && depths.2 == 0

/-- The scanner ends an index, or takes it for something else, at these characters outside of angle brackets. -/
def indexScan : Scanner ℕ where
  step := angleStep
  cuts angle c := (c == '.' || c == '[' || c == ']') && angle == 0

/-- The chains that are read as they are written, from a depth in angle brackets on. Every segment with a dot before it
stands outside of angle brackets. The parentheses of a call close one another, and the commas outside of parentheses and
angle brackets are those between its arguments. An index has no parentheses, and no dots and brackets outside of angle
brackets; unless it is the last segment, its angle brackets are closed behind it. -/
def Fits : ℕ → List ChainLink → Prop
  | _, [] => True
  | angle, .ident _ :: links => angle = 0 ∧ Fits 0 links
  | angle, .call _ args :: links =>
    angle = 0 ∧ (ParensClose 0 args.inside ∧ argScan.CutsBetween ',' (0, 0) args.chunks) ∧
      Fits (anglesBehind 0 args.inside) links
  | angle, .index inside :: links =>
    (('(' ∉ inside ∧ ')' ∉ inside) ∧ indexScan.Uncut angle inside) ∧
      (links ≠ [] → anglesBehind angle inside = 0) ∧ Fits (anglesBehind angle inside) links

/-! ## The scanner outside of parentheses -/

namespace ChainScan

/-- The segments of a text outside of parentheses, with the text before it that no segment has yet. -/
def outside (current : List Char) (angle : ℕ) (text : List Char) : List ChainSegment :=
  run ⟨current, 0, angle, false, [], []⟩ text

/-- The segments of a text between the parentheses of a call. -/
def inside (current : List Char) (depth angle : ℕ) (arg : List Char) (argTexts : List (List Char))
    (text : List Char) : List ChainSegment :=
  run ⟨current, depth + 1, angle, true, arg, argTexts⟩ text

theorem run_outside (current : List Char) (angle : ℕ) (arg : List Char) (argTexts : List (List Char))
    (text : List Char) : run ⟨current, 0, angle, false, arg, argTexts⟩ text = outside current angle text := by
  have hsame : ∀ (text current : List Char) (angle : ℕ) (arg arg' : List Char) (argTexts argTexts' : List (List Char)),
      run ⟨current, 0, angle, false, arg, argTexts⟩ text = run ⟨current, 0, angle, false, arg', argTexts'⟩ text := by
    intro text
    induction text with
    | nil =>
      intros
      rfl
    | cons c text ih =>
      intro current angle arg arg' argTexts argTexts'
      rw [run, run]
      simp only [step, push, Bool.false_eq_true, and_false, false_and, if_false]
      split_ifs
      all_goals first | rfl | exact congrArg _ (ih _ _ _ _ _ _)
  exact hsame _ _ _ _ _ _ _

section Outside

variable (current : List Char) (angle : ℕ) (text : List Char)

theorem outside_nil : outside current angle [] = (variableBefore current).toList :=
  rfl

theorem outside_plain {c : Char} (hc : c ∉ ['<', '>', '(', ')', '.', '[', ']']) :
    outside current angle (c :: text) = outside (current ++ [c]) angle text := by
  simp only [List.mem_cons, List.not_mem_nil, or_false, not_or] at hc
  rw [outside, run]
  simp only [step, push, hc, false_and, if_false, if_true, Nat.zero_ne_one, and_false, Option.toList_none,
    List.nil_append]
  exact run_outside _ _ _ _ _

theorem outside_lt : outside current angle ('<' :: text) = outside (current ++ ['<']) (angle + 1) text :=
  run_outside (current ++ ['<']) (angle + 1) ['<'] [] text

theorem outside_gt : outside current angle ('>' :: text) = outside (current ++ ['>']) (angle - 1) text :=
  run_outside (current ++ ['>']) (angle - 1) ['>'] [] text

theorem outside_open : outside current angle ('(' :: text) = inside current 0 angle [] [] text :=
  rfl

theorem outside_close : outside current angle (')' :: text) = outside current angle text :=
  run_outside current angle [')'] [] text

theorem outside_dot :
    outside current 0 ('.' :: text) = (variableBefore current).toList ++ outside [] 0 text :=
  congrArg _ (run_outside _ _ _ _ _)

theorem outside_bracket :
    outside current 0 ('[' :: text) = (variableBefore current).toList ++ outside ['['] 0 text :=
  congrArg _ (run_outside _ _ _ _ _)

theorem outside_closeBracket : outside ('[' :: current) 0 (']' :: text) =
    .ofVariable ('[' :: (current ++ [']'])) :: outside [] 0 text :=
  congrArg _ (run_outside _ _ _ _ _)

variable {angle}

/-- Within angle brackets a dot or a bracket is text. -/
theorem outside_deep (hangle : angle ≠ 0) {c : Char} (hc : c = '.' ∨ c = '[' ∨ c = ']') :
    outside current angle (c :: text) = outside (current ++ [c]) angle text := by
  rw [outside, run]
  rcases hc with rfl | rfl | rfl
  all_goals
    simp only [step, push, hangle, and_false, false_and, if_false, if_true, Char.reduceEq, Option.toList_none,
      List.nil_append]
    exact run_outside _ _ _ _ _

end Outside

/-! ## The scanner in a call -/

/-- The argument texts that the pieces of a call give: the last piece gives none if it is blank. -/
def collected : List (List Char) → List (List Char)
  | [] => []
  | [last] => if (trim last).isEmpty then [] else [trim last]
  | piece :: next :: rest => trim piece :: collected (next :: rest)

/-- The segment of a call. -/
def callSegment (current : List Char) (argTexts : List (List Char)) : ChainSegment :=
  .methodWithTypes (extractMethodName current) argTexts.length [] argTexts

section Inside

variable (current : List Char) {depth : ℕ} (angle : ℕ) (arg : List Char) (argTexts : List (List Char))
  (text : List Char)

theorem inside_nil (depth : ℕ) : inside current depth angle arg argTexts [] = [] :=
  rfl

theorem inside_close : inside current 0 angle arg argTexts (')' :: text) =
    callSegment current (argTexts ++ collected [arg]) :: outside [] angle text := by
  have hrun : inside current 0 angle arg argTexts (')' :: text) =
      (ChainScan.mk current 1 angle true arg argTexts).methodSegment :: outside [] angle text :=
    congrArg _ (run_outside _ _ _ _ _)
  rw [hrun, methodSegment, callSegment, collected]
  split_ifs
  · rw [List.append_nil]
  · rfl

theorem inside_cons {c : Char} (hc : ¬ (c = ')' ∧ depth = 0)) : inside current depth angle arg argTexts (c :: text) =
    if argScan.cuts (depth, angle) c = true then
      inside current (argScan.step (depth, angle) c).1 (argScan.step (depth, angle) c).2 [] (argTexts ++ [trim arg])
        text
    else
      inside current (argScan.step (depth, angle) c).1 (argScan.step (depth, angle) c).2 (arg ++ [c]) argTexts
        text := by
  rw [inside, run]
  by_cases hlt : c = '<'
  · subst hlt
    rfl
  by_cases hgt : c = '>'
  · subst hgt
    rfl
  by_cases hopen : c = '('
  · subst hopen
    rfl
  by_cases hclose : c = ')'
  · subst hclose
    obtain ⟨depth, rfl⟩ := Nat.exists_eq_succ_of_ne_zero fun hzero => hc ⟨rfl, hzero⟩
    rfl
  by_cases hcut : c = ',' ∧ depth = 0 ∧ angle = 0
  · obtain ⟨rfl, rfl, rfl⟩ := hcut
    rfl
  · have hnot : argScan.cuts (depth, angle) c = false := by
      simpa [argScan, ← not_and_or, and_assoc] using hcut
    have hstep : argScan.step (depth, angle) c = (depth, angle) := by
      simp only [argScan, angleStep, hlt, hgt, hopen, hclose, if_false]
    rw [hnot, if_neg Bool.false_ne_true, hstep]
    simp only [step, push, hlt, hgt, hopen, hclose, if_false, Nat.succ_ne_zero, false_and, and_false,
      Nat.add_eq_right, true_and, Option.toList_none, List.nil_append]
    rw [if_neg hcut]
    rfl

theorem parensClose_cons {c : Char} {w : List Char} (h : ParensClose depth (c :: w)) :
    ¬ (c = ')' ∧ depth = 0) ∧ ParensClose (argScan.step (depth, angle) c).1 w := by
  rw [ParensClose] at h
  simp only [argScan]
  split_ifs at h ⊢ with hopen hclose
  · exact ⟨fun hc => absurd (hopen.symm.trans hc.1) (by decide), h⟩
  · exact ⟨fun hc => absurd hc.2 h.1.ne', h.2⟩
  · exact ⟨fun hc => hclose hc.1, h⟩

/-- A text whose parentheses close is read up to its end, and cut into the pieces of the scan. -/
theorem inside_parensClose {w piece : List Char} {more : List (List Char)} (h : ParensClose depth w)
    (hpieces : argScan.pieces (depth, angle) w = piece :: more) :
    inside current depth angle arg argTexts (w ++ ')' :: text) =
      callSegment current (argTexts ++ collected ((arg ++ piece) :: more)) ::
        outside [] (anglesBehind angle w) text := by
  induction w generalizing depth angle arg argTexts piece more with
  | nil =>
    obtain rfl : depth = 0 := h
    obtain ⟨rfl, rfl⟩ := List.cons.inj hpieces
    rw [List.nil_append, List.append_nil, inside_close]
    rfl
  | cons c w ih =>
    obtain ⟨hc, hrest⟩ := parensClose_cons angle h
    obtain ⟨piece', more', hpieces'⟩ := exists_pieces argScan (argScan.step (depth, angle) c) w
    rw [List.cons_append, inside_cons _ _ _ _ _ hc]
    rw [Scanner.pieces] at hpieces
    split_ifs at hpieces ⊢ with hcut
    · obtain ⟨rfl, rfl⟩ := List.cons.inj hpieces
      rw [ih (argScan.step (depth, angle) c).2 [] (argTexts ++ [trim arg]) hrest hpieces', hpieces', List.append_nil,
        List.nil_append, collected, List.append_assoc]
      rfl
    · rw [hpieces', prepend] at hpieces
      obtain ⟨rfl, rfl⟩ := List.cons.inj hpieces
      rw [ih (argScan.step (depth, angle) c).2 (arg ++ [c]) argTexts hrest hpieces', List.append_assoc]
      rfl

/-- A text closes a call somewhere, or the call gives no segment. -/
theorem exists_parensClose (depth : ℕ) (text : List Char) :
    (∃ w rest, text = w ++ ')' :: rest ∧ ParensClose depth w) ∨
      ∀ current angle arg argTexts, inside current depth angle arg argTexts text = [] := by
  induction text generalizing depth with
  | nil => exact .inr fun current angle arg argTexts => inside_nil current angle arg argTexts depth
  | cons c text ih =>
    by_cases hc : c = ')' ∧ depth = 0
    · obtain ⟨rfl, rfl⟩ := hc
      exact .inl ⟨[], text, rfl, rfl⟩
    · have hstep : ∀ w, ParensClose (argScan.step (depth, 0) c).1 w → ParensClose depth (c :: w) := by
        intro w hw
        simp only [argScan] at hw
        rw [ParensClose]
        split_ifs at hw ⊢ with hopen hclose
        · exact hw
        · exact ⟨Nat.pos_of_ne_zero fun hzero => hc ⟨hclose, hzero⟩, hw⟩
        · exact hw
      rcases ih (argScan.step (depth, 0) c).1 with ⟨w, rest, rfl, hw⟩ | hnone
      · exact .inl ⟨c :: w, rest, rfl, hstep w hw⟩
      · right
        intro current angle arg argTexts
        have hdepth : (argScan.step (depth, angle) c).1 = (argScan.step (depth, 0) c).1 := rfl
        rw [inside_cons _ _ _ _ _ hc, hdepth]
        split_ifs
        · exact hnone _ _ _ _
        · exact hnone _ _ _ _

theorem filter_collected (pieces : List (List Char)) : (collected pieces).filter (· ≠ []) = trimmed pieces := by
  induction pieces with
  | nil => rfl
  | cons piece rest ih =>
    cases rest with
    | nil =>
      rw [collected, trimmed, List.map_singleton]
      by_cases hblank : trim piece = []
      · simp [hblank]
      · simp [hblank]
    | cons next rest =>
      have hmap : (piece :: next :: rest).map trim = trim piece :: (next :: rest).map trim := rfl
      rw [collected, List.filter_cons, ih, trimmed, trimmed, hmap, List.filter_cons]

theorem collected_chunks (args : ArgumentList) : collected args.chunks = args.texts := by
  have hsolid : ∀ chunks : List (List Char), (∀ chunk ∈ chunks, trim chunk ≠ []) →
      collected chunks = chunks.map trim := by
    intro chunks h
    induction chunks with
    | nil => rfl
    | cons chunk rest ih =>
      cases rest with
      | nil => rw [collected, if_neg (by simpa using h chunk (List.mem_singleton_self chunk)), List.map_singleton]
      | cons next rest =>
        rw [collected, ih fun other hother => h other (List.mem_cons_of_mem _ hother)]
        rfl
  by_cases hblank : ∃ chunk ∈ args.chunks, trim chunk = []
  · obtain ⟨chunk, hmem, hempty⟩ := hblank
    rw [ArgumentList.texts, args.onlyBlank chunk hmem hempty]
    simp [collected, trimmed, hempty]
  · have hall : ∀ chunk ∈ args.chunks, trim chunk ≠ [] := fun chunk hmem hempty => hblank ⟨chunk, hmem, hempty⟩
    rw [hsolid _ hall, ArgumentList.texts, trimmed, List.filter_eq_self.mpr]
    intro text htext
    obtain ⟨chunk, hmem, rfl⟩ := List.mem_map.mp htext
    simpa using hall chunk hmem

theorem trimmed_of_collected {pieces chunks : List (List Char)} (h : collected pieces = trimmed chunks) :
    trimmed pieces = trimmed chunks := by
  rw [← filter_collected, h, trimmed, List.filter_filter]
  simp only [Bool.and_self]

theorem eq_of_closing {w w' rest rest' : List Char} (hcount : w.count ')' = w'.count ')')
    (h : w ++ ')' :: rest = w' ++ ')' :: rest') : w = w' := by
  rcases List.append_eq_append_iff.mp h with ⟨x, rfl, hx⟩ | ⟨x, rfl, hx⟩
  · cases x with
    | nil => rw [List.append_nil]
    | cons c x =>
      rw [List.cons_append, List.cons.injEq] at hx
      rw [← hx.1, List.count_append, List.count_cons_self] at hcount
      omega
  · cases x with
    | nil => rw [List.append_nil]
    | cons c x =>
      rw [List.cons_append, List.cons.injEq] at hx
      rw [← hx.1, List.count_append, List.count_cons_self] at hcount
      omega

theorem argScan_cuts {depths : ℕ × ℕ} {c : Char} (h : argScan.cuts depths c = true) : c = ',' := by
  simp only [argScan, Bool.and_eq_true, beq_iff_eq] at h
  exact h.1.1

/-- The segment of a call is read off its arguments exactly when the parentheses of these close one another and the
commas outside of brackets are the ones between them. -/
theorem inside_call_iff (args : ArgumentList) (segments : List ChainSegment) :
    inside current 0 angle [] [] (args.inside ++ ')' :: text) = callSegment current args.texts :: segments ↔
      (ParensClose 0 args.inside ∧ argScan.CutsBetween ',' (0, angle) args.chunks) ∧
        outside [] (anglesBehind angle args.inside) text = segments := by
  constructor
  · intro h
    rcases exists_parensClose 0 (args.inside ++ ')' :: text) with ⟨w, rest, hsplit, hw⟩ | hnone
    · obtain ⟨piece, more, hpieces⟩ := exists_pieces argScan (0, angle) w
      have hread := inside_parensClose current angle [] [] rest hw hpieces
      rw [List.nil_append, List.nil_append, ← hpieces, ← hsplit, h, List.cons.injEq] at hread
      have htexts : args.texts = collected (argScan.pieces (0, angle) w) := congrArg ChainSegment.argTexts hread.1
      have htrimmed := trimmed_of_collected htexts.symm
      have hcount : w.count ')' = args.inside.count ')' := by
        have hjoin := intercalate_pieces (fun _ _ => argScan_cuts) (0, angle) w
        have hne : (')' : Char) ≠ ',' := by decide
        rw [← hjoin, ArgumentList.inside, count_intercalate_of_ne hne, count_intercalate_of_ne hne,
          ← sum_count_trimmed (by decide), htrimmed, sum_count_trimmed (by decide)]
      obtain rfl := eq_of_closing hcount hsplit.symm
      obtain rfl := (List.cons.inj (List.append_cancel_left hsplit)).2
      refine ⟨⟨hw, ?_⟩, hread.2.symm⟩
      exact (trimmed_pieces_iff (by decide) (fun _ _ => argScan_cuts) args.nonempty args.onlyBlank).mp htrimmed
    · exact absurd ((hnone current angle [] []).symm.trans h).symm (List.cons_ne_nil _ _)
  · rintro ⟨⟨hclose, hcuts⟩, rfl⟩
    have hpieces := pieces_intercalate args.nonempty hcuts
    obtain ⟨piece, more, hchunks⟩ := List.exists_cons_of_ne_nil args.nonempty
    have hread := inside_parensClose current angle [] [] text hclose (hpieces.trans hchunks)
    rw [List.nil_append, List.nil_append, ← hchunks, collected_chunks] at hread
    exact hread

end Inside

/-! ## The first segment of a text -/

section First

variable (current : List Char) (angle : ℕ) (text : List Char)

/-- What a character outside of parentheses does. -/
theorem outside_cons_cases (c : Char) :
    (c = '(' ∧ outside current angle (c :: text) = inside current 0 angle [] [] text) ∨
    (c = ')' ∧ outside current angle (c :: text) = outside current angle text) ∨
    (angle = 0 ∧ (c = '.' ∨ c = '[') ∧ ∃ next, (next = [] ∨ next = ['[']) ∧
      outside current angle (c :: text) = (variableBefore current).toList ++ outside next 0 text) ∨
    (angle = 0 ∧ c = ']' ∧ ∃ rest, current = '[' :: rest ∧
      outside current angle (c :: text) = .ofVariable (current ++ [']']) :: outside [] 0 text) ∨
    ((c ≠ '(' ∧ c ≠ ')') ∧ (angle = 0 → c ≠ '.' ∧ c ≠ '[' ∧ (c = ']' → current.head? ≠ some '[')) ∧
      outside current angle (c :: text) = outside (current ++ [c]) (angleStep angle c) text) := by
  by_cases hopen : c = '('
  · exact .inl ⟨hopen, hopen ▸ outside_open current angle text⟩
  by_cases hclose : c = ')'
  · exact .inr (.inl ⟨hclose, hclose ▸ outside_close current angle text⟩)
  by_cases hlt : c = '<'
  · subst hlt
    exact .inr (.inr (.inr (.inr ⟨⟨hopen, hclose⟩, fun _ => by simp, outside_lt current angle text⟩)))
  by_cases hgt : c = '>'
  · subst hgt
    exact .inr (.inr (.inr (.inr ⟨⟨hopen, hclose⟩, fun _ => by simp, outside_gt current angle text⟩)))
  have hstep : angleStep angle c = angle := by rw [angleStep, if_neg hlt, if_neg hgt]
  by_cases hmark : c = '.' ∨ c = '[' ∨ c = ']'
  · by_cases hangle : angle = 0
    · subst hangle
      rcases hmark with rfl | rfl | rfl
      · exact .inr (.inr (.inl ⟨rfl, .inl rfl, [], .inl rfl, outside_dot current text⟩))
      · exact .inr (.inr (.inl ⟨rfl, .inr rfl, _, .inr rfl, outside_bracket current text⟩))
      · by_cases hhead : current.head? = some '['
        · obtain ⟨rest, rfl⟩ : ∃ rest, current = '[' :: rest := by
            cases current with
            | nil => cases hhead
            | cons d rest => exact ⟨rest, by rw [Option.some.inj hhead]⟩
          exact .inr (.inr (.inr (.inl ⟨rfl, rfl, rest, rfl, outside_closeBracket rest text⟩)))
        · have hpush : outside current 0 (']' :: text) = outside (current ++ [']']) 0 text := by
            rw [outside, run]
            simp only [step, push, hhead, and_false, false_and, if_false, if_true, Char.reduceEq, Option.toList_none,
              List.nil_append]
            exact run_outside _ _ _ _ _
          exact .inr (.inr (.inr (.inr ⟨⟨hopen, hclose⟩, fun _ => ⟨by decide, by decide, fun _ => hhead⟩, hpush⟩)))
    · rw [hstep]
      have hpush := outside_deep current text hangle hmark
      exact .inr (.inr (.inr (.inr ⟨⟨hopen, hclose⟩, fun h => absurd h hangle, hpush⟩)))
  · rw [hstep]
    simp only [not_or] at hmark
    refine .inr (.inr (.inr (.inr ⟨⟨hopen, hclose⟩, fun _ => ⟨hmark.1, hmark.2.1, fun h => absurd h hmark.2.2⟩, ?_⟩)))
    exact outside_plain current angle text (by simp [hlt, hgt, hopen, hclose, hmark])

/-- In a call the first segment is the call itself. -/
theorem inside_first {depth : ℕ} {arg : List Char} {argTexts : List (List Char)} {segment : ChainSegment}
    (h : segment ∈ (inside current depth angle arg argTexts text).head?) :
    segment.name = extractMethodName current ∧ segment.argCount ≠ none := by
  rcases exists_parensClose depth text with ⟨w, rest, rfl, hw⟩ | hnone
  · obtain ⟨piece, more, hpieces⟩ := exists_pieces argScan (depth, angle) w
    rw [inside_parensClose current angle arg argTexts rest hw hpieces, List.head?_cons, Option.mem_some_iff] at h
    rw [← h]
    exact ⟨rfl, Option.some_ne_none _⟩
  · rw [hnone] at h
    cases h

variable {current angle text}

/-- A property of the text before a segment goes over to the name of the segment. -/
theorem first_name {P Q : List Char → Prop} (hpush : ∀ s c, c ≠ ')' → P s → P (s ++ [c]))
    (hcall : ∀ s, P s → Q (extractMethodName s)) (htrim : ∀ s, P s → trim s ≠ [] → Q (trim s))
    (hclose : ∀ s, P s → Q (s ++ [']'])) (hblank : ∀ s, P s → trim s = [] → P [] ∧ P ['['])
    (hcurrent : P current) {segment : ChainSegment} (h : segment ∈ (outside current angle text).head?) :
    Q segment.name := by
  have hbefore : ∀ {s : List Char} {segments : List ChainSegment} {segment : ChainSegment}, P s →
      segment ∈ ((variableBefore s).toList ++ segments).head? →
        (trim s = [] ∧ segment ∈ segments.head?) ∨ Q segment.name := by
    intro s segments segment hs h
    by_cases hempty : trim s = []
    · rw [variableBefore, hempty, List.isEmpty_nil, if_pos rfl] at h
      exact .inl ⟨hempty, h⟩
    · rw [variableBefore, if_neg (by simpa using hempty), Option.toList_some, List.singleton_append, List.head?_cons,
        Option.mem_some_iff] at h
      right
      rw [← h]
      exact htrim s hs hempty
  induction text generalizing current angle with
  | nil =>
    rw [outside_nil, ← List.append_nil (variableBefore current).toList] at h
    rcases hbefore hcurrent h with ⟨-, hnone⟩ | hname
    · cases hnone
    · exact hname
  | cons c text ih =>
    rcases outside_cons_cases current angle text c with ⟨-, heq⟩ | ⟨-, heq⟩ | ⟨-, -, next, hnext, heq⟩ |
      ⟨-, -, rest, -, heq⟩ | ⟨⟨-, hc⟩, -, heq⟩
    · rw [heq] at h
      rw [(inside_first current angle text h).1]
      exact hcall current hcurrent
    · rw [heq] at h
      exact ih hcurrent h
    · rw [heq] at h
      rcases hbefore hcurrent h with ⟨hempty, hlater⟩ | hname
      · obtain ⟨hnil, hopen⟩ := hblank current hcurrent hempty
        rcases hnext with rfl | rfl
        · exact ih hnil hlater
        · exact ih hopen hlater
      · exact hname
    · rw [heq, List.head?_cons, Option.mem_some_iff] at h
      rw [← h]
      exact hclose current hcurrent
    · rw [heq] at h
      exact ih (hpush current c hc hcurrent) h

end First

end ChainScan

/-! ## Names -/

open ChainScan

theorem prefix_trim {front s : List Char} (hfront : Solid front) (h : front <+: s) : front <+: trim s := by
  obtain ⟨back, rfl⟩ := h
  have hstart : trimStart (front ++ back) = front ++ back := by
    obtain ⟨c, rest, rfl⟩ := List.exists_cons_of_ne_nil hfront.ne_nil
    exact List.dropWhile_cons_of_neg (by rw [hfront.head c rfl]; exact Bool.false_ne_true)
  obtain ⟨b, b', heq, hb, hb'⟩ := exists_trim (front ++ back)
  have hbegin : trim (front ++ back) <+: front ++ back := trim_front hstart
  rcases List.prefix_or_prefix_of_prefix (List.prefix_append front back) hbegin with hextends | ⟨x, hx⟩
  · exact hextends
  · -- What the trimmed text leaves of the front is blank, and the front does not end in a blank.
    have hnil : b = [] := by
      by_contra hne
      obtain ⟨c, rest, rfl⟩ := List.exists_cons_of_ne_nil hne
      obtain ⟨d, others, rfl⟩ := List.exists_cons_of_ne_nil hfront.ne_nil
      have hsame : d = c := by
        rw [List.append_assoc, List.cons_append, List.cons_append] at heq
        exact (List.cons.inj heq).1
      have hblank := hb c List.mem_cons_self
      rw [← hsame, hfront.head d rfl] at hblank
      cases hblank
    rw [hnil, List.nil_append] at heq
    have hback : x ++ back = b' := by
      refine @List.append_cancel_left _ (trim (front ++ back)) _ _ ?_
      rw [← List.append_assoc, hx, ← heq]
    cases x using List.reverseRecOn with
    | nil =>
      rw [List.append_nil] at hx
      rw [hx]
    | append_singleton x c =>
      have hlast := hfront.last c (by rw [← hx, ← List.append_assoc, List.getLast?_concat]; rfl)
      have hblank := hb' c (by rw [← hback]; simp)
      rw [hlast] at hblank
      cases hblank

theorem extractMethodName_of_head {head : List Char} (h : (trim head).head? ≠ some '<') :
    extractMethodName head = trim head := by
  rw [extractMethodName, if_pos h]

theorem behindClosing_suffix {depth : ℤ} {text rest : List Char} (h : behindClosing depth text = some rest) :
    rest <:+ text := by
  induction text generalizing depth with
  | nil => cases h
  | cons c text ih =>
    rw [behindClosing] at h
    split_ifs at h
    · exact (ih h).trans (List.suffix_cons c text)
    · exact Option.some.inj h ▸ List.suffix_cons c text
    · exact (ih h).trans (List.suffix_cons c text)
    · exact (ih h).trans (List.suffix_cons c text)

theorem trim_subset (s : List Char) : trim s ⊆ s := by
  obtain ⟨b, b', heq, -, -⟩ := exists_trim s
  intro c hc
  rw [heq]
  exact List.mem_append_left _ (List.mem_append_right _ hc)

theorem extractMethodName_subset (head : List Char) : extractMethodName head ⊆ head := by
  rw [extractMethodName]
  split_ifs
  · exact trim_subset head
  · split
    · rename_i rest hrest
      intro c hc
      exact trim_subset head ((behindClosing_suffix hrest).subset ((trimStart_suffix rest).subset hc))
    · exact trim_subset head

theorem IsChainName.solid {name : List Char} (h : IsChainName name) : Solid name where
  ne_nil := h.ne_nil
  head _ hc := (h.plain _ (List.mem_of_mem_head? hc)).1
  last _ hc := (h.plain _ (List.mem_of_mem_getLast? hc)).1

theorem IsChainName.not_mem {name : List Char} (h : IsChainName name) {c : Char}
    (hc : c ∈ ['<', '>', '(', ')', ',', '.', '[', ']']) : c ∉ name :=
  fun hmem => (h.plain c hmem).2 hc

theorem IsChainName.extractMethodName_eq {name : List Char} (h : IsChainName name) :
    extractMethodName name = name := by
  have hhead : (trim name).head? ≠ some '<' := by
    rw [h.solid.trim_eq]
    exact fun heq => h.not_mem (by simp) (List.mem_of_mem_head? heq)
  rw [extractMethodName_of_head hhead, h.solid.trim_eq]

theorem variableBefore_solid {name : List Char} (h : Solid name) : variableBefore name = some (.ofVariable name) := by
  rw [variableBefore, h.trim_eq, if_neg (by simpa using h.ne_nil)]

/-- A name is read whole. -/
theorem outside_name {name : List Char} (hname : ∀ c ∈ name, c ∉ ['<', '>', '(', ')', ',', '.', '[', ']'])
    (current : List Char) (angle : ℕ) (text : List Char) :
    outside current angle (name ++ text) = outside (current ++ name) angle text := by
  induction name generalizing current with
  | nil => rw [List.nil_append, List.append_nil]
  | cons c name ih =>
    have hc := hname c List.mem_cons_self
    rw [List.cons_append, outside_plain, ih fun d hd => hname d (List.mem_cons_of_mem c hd), List.append_assoc,
      List.singleton_append]
    simp only [List.mem_cons, List.not_mem_nil, or_false, not_or] at hc ⊢
    exact ⟨hc.1, hc.2.1, hc.2.2.1, hc.2.2.2.1, hc.2.2.2.2.2⟩

/-- What stands before a separator that the scanner takes for text goes into the next name. -/
theorem first_extends {front text : List Char} {angle : ℕ} (hsolid : Solid front) (hhead : front.head? ≠ some '<')
    {segment : ChainSegment} (h : segment ∈ (outside front angle text).head?) : front <+: segment.name := by
  refine first_name (P := fun s => front <+: s) (Q := fun s => front <+: s) ?_ ?_ ?_ ?_ ?_ (List.prefix_refl front) h
  · exact fun s c _ hs => hs.trans (List.prefix_append s [c])
  · intro s hs
    have htrim := prefix_trim hsolid hs
    rw [extractMethodName_of_head]
    · exact htrim
    · obtain ⟨back, hback⟩ := htrim
      rwa [← hback, List.head?_append_of_ne_nil _ hsolid.ne_nil]
  · exact fun s hs _ => prefix_trim hsolid hs
  · exact fun s hs => hs.trans (List.prefix_append s [']'])
  · intro s hs hempty
    have hnil := prefix_trim hsolid hs
    rw [hempty, List.prefix_nil] at hnil
    exact absurd hnil hsolid.ne_nil

/-- No name has a parenthesis. -/
theorem first_paren {current text : List Char} {angle : ℕ} (hcurrent : ')' ∉ current) {segment : ChainSegment}
    (h : segment ∈ (outside current angle text).head?) : ')' ∉ segment.name := by
  refine first_name (P := fun s => ')' ∉ s) (Q := fun s => ')' ∉ s) ?_ ?_ ?_ ?_ ?_ hcurrent h
  · intro s c hc hs
    simpa [hs] using hc.symm
  · exact fun s hs hmem => hs (extractMethodName_subset s hmem)
  · exact fun s hs _ hmem => hs (trim_subset s hmem)
  · intro s hs
    simpa using hs
  · exact fun s _ _ => ⟨List.not_mem_nil, by simp⟩

/-! ## When a chain is read as it is written -/

theorem head?_of_eq_cons {segments others : List ChainSegment} {segment : ChainSegment}
    (h : segments = segment :: others) : segment ∈ segments.head? := by
  rw [h]
  rfl

/-- The first segment is no shorter name than the text before a separator that ends one. -/
theorem variableBefore_ne {current name : List Char} {segments others : List ChainSegment}
    (hcurrent : trim current ≠ []) (hlen : current.length < name.length) :
    (variableBefore current).toList ++ segments ≠ .ofVariable name :: others := by
  rw [variableBefore, if_neg (by simpa using hcurrent), Option.toList_some, List.singleton_append]
  intro h
  have hname : trim current = name := congrArg ChainSegment.name (List.cons.inj h).1
  have hle := trim_length_le current
  rw [hname] at hle
  omega

/-- The text of an index is read up to its closing bracket. -/
theorem outside_index_iff (inside : List Char) {before : List Char} (hbefore : ')' ∉ before) (angle : ℕ)
    (text : List Char) (segments : List ChainSegment) :
    outside ('[' :: before) angle (inside ++ ']' :: text) =
        .ofVariable ('[' :: (before ++ inside ++ [']'])) :: segments ↔
      (('(' ∉ inside ∧ ')' ∉ inside) ∧ indexScan.Uncut angle inside) ∧
        outside ('[' :: (before ++ inside)) (anglesBehind angle inside) (']' :: text) =
          .ofVariable ('[' :: (before ++ inside ++ [']'])) :: segments := by
  induction inside generalizing before angle with
  | nil => simp [Scanner.Uncut, anglesBehind]
  | cons c inside ih =>
    have hcurrent : ')' ∉ '[' :: before := by simpa using hbefore
    have hblank : trim ('[' :: before) ≠ [] := by
      have hextends := prefix_trim (solid_singleton (c := '[') (by decide)) ⟨before, rfl⟩
      exact fun hnil => List.not_mem_nil (hnil ▸ hextends.subset (List.mem_singleton_self '['))
    have hcuts : indexScan.Uncut angle (c :: inside) ↔
        ((c == '.' || c == '[' || c == ']') && angle == 0) = false ∧
          indexScan.Uncut (angleStep angle c) inside := Iff.rfl
    rw [List.cons_append, hcuts]
    rcases outside_cons_cases ('[' :: before) angle (inside ++ ']' :: text) c with ⟨rfl, heq⟩ | ⟨rfl, heq⟩ |
      ⟨rfl, hc, next, -, heq⟩ | ⟨rfl, rfl, -, -, heq⟩ | ⟨⟨hopen, hclose⟩, hc, heq⟩
    · refine iff_of_false (fun h => ?_) fun h => h.1.1.1 List.mem_cons_self
      rw [heq] at h
      exact (inside_first _ _ _ (head?_of_eq_cons h)).2 rfl
    · refine iff_of_false (fun h => ?_) fun h => h.1.1.2 List.mem_cons_self
      rw [heq] at h
      exact first_paren hcurrent (head?_of_eq_cons h) (by simp [ChainSegment.ofVariable])
    · refine iff_of_false ?_ fun h => ?_
      · rw [heq]
        refine variableBefore_ne hblank ?_
        simp only [List.length_cons, List.length_append]
        omega
      · have hcut := h.1.2.1
        rcases hc with rfl | rfl
        · exact absurd hcut (by decide)
        · exact absurd hcut (by decide)
    · refine iff_of_false (fun h => ?_) fun h => absurd h.1.2.1 (by decide)
      rw [heq] at h
      have hname := congrArg List.length (congrArg ChainSegment.name (List.cons.inj h).1)
      simp only [ChainSegment.ofVariable, List.length_cons, List.length_append, List.length_nil] at hname
      omega
    · have hplain : ((c == '.' || c == '[' || c == ']') && angle == 0) = false := by
        by_contra hcut
        simp only [Bool.not_eq_false, Bool.and_eq_true, Bool.or_eq_true, beq_iff_eq] at hcut
        obtain ⟨hdot, hbracket, hend⟩ := hc hcut.2
        rcases hcut.1 with (hmark | hmark) | hmark
        · exact hdot hmark
        · exact hbracket hmark
        · exact hend hmark rfl
      have hbefore' : ')' ∉ before ++ [c] := by simpa [hbefore] using hclose.symm
      have hstep := ih hbefore' (angleStep angle c)
      have hjoin : before ++ [c] ++ inside = before ++ c :: inside := by simp
      rw [hjoin] at hstep
      rw [heq, List.cons_append, hstep, hplain]
      simp only [List.mem_cons, not_or, hopen.symm, hclose.symm, ne_eq, not_false_eq_true, true_and, anglesBehind,
        List.foldl_cons]

theorem solid_index (inside : List Char) : Solid ('[' :: (inside ++ [']'])) :=
  (solid_singleton (by decide)).append inside (solid_singleton (by decide))

theorem renderBehind_index (inside : List Char) (links : List ChainLink) :
    renderBehind (.index inside :: links) = '[' :: (inside ++ ']' :: renderBehind links) := by
  simp [renderBehind, ChainLink.separator, ChainLink.text]

theorem renderBehind_dotted {link : ChainLink} (hdot : link.separator = ['.']) (links : List ChainLink) :
    renderBehind (link :: links) = '.' :: (link.text ++ renderBehind links) := by
  rw [renderBehind, List.flatMap_cons, hdot, List.append_assoc, List.singleton_append, ← renderBehind]

theorem text_call (name : List Char) (args : ArgumentList) (text : List Char) :
    (ChainLink.call name args).text ++ text = name ++ '(' :: (args.inside ++ ')' :: text) := by
  simp [ChainLink.text]

/-- A segment behind an index that angle brackets leave open goes into the name of the index. -/
theorem unclosed_index_lost (inside : List Char) {angle : ℕ} (hangle : angle ≠ 0) (link : ChainLink)
    (links : List ChainLink) (segments : List ChainSegment) :
    outside ('[' :: (inside ++ [']'])) angle (renderBehind (link :: links)) ≠
      .ofVariable ('[' :: (inside ++ [']'])) :: segments := by
  obtain ⟨c, rest, hc, hmark, hrender⟩ : ∃ c rest, isWhitespace c = false ∧ (c = '.' ∨ c = '[' ∨ c = ']') ∧
      renderBehind (link :: links) = c :: rest := by
    cases link with
    | ident name => exact ⟨'.', _, by decide, .inl rfl, renderBehind_dotted rfl links⟩
    | call name args => exact ⟨'.', _, by decide, .inl rfl, renderBehind_dotted rfl links⟩
    | index inside => exact ⟨'[', _, by decide, .inr (.inl rfl), renderBehind_index inside links⟩
  intro h
  rw [hrender, outside_deep _ _ hangle hmark] at h
  have hsolid := (solid_index inside).append [] (solid_singleton hc)
  rw [List.append_nil] at hsolid
  have hextends := (first_extends hsolid (by simp) (head?_of_eq_cons h)).length_le
  simp only [ChainSegment.ofVariable, List.length_cons, List.length_append, List.length_nil] at hextends
  omega

/-- Behind a call that leaves angle brackets open, the dot goes into the next name. -/
theorem dot_lost {angle : ℕ} (hangle : angle ≠ 0) {segment : ChainSegment} (hname : IsChainName segment.name)
    (text : List Char) (segments : List ChainSegment) : outside [] angle ('.' :: text) ≠ segment :: segments := by
  intro h
  rw [outside_deep _ _ hangle (.inl rfl), List.nil_append] at h
  have hextends := first_extends (solid_singleton (by decide)) (by simp) (head?_of_eq_cons h)
  exact hname.not_mem (by simp) (hextends.subset (List.mem_singleton_self '.'))

section Chains

variable {links : List ChainLink}
  (hclear : ∀ angle, outside [] angle (renderBehind links) = links.map ChainLink.segment ↔ Fits angle links)
  (hpending : ∀ name, IsChainName name →
    (outside name 0 (renderBehind links) = .ofVariable name :: links.map ChainLink.segment ↔ Fits 0 links))

include hclear

theorem index_iff (inside : List Char) (angle : ℕ) :
    outside ['['] angle (inside ++ ']' :: renderBehind links) =
        (ChainLink.index inside :: links).map ChainLink.segment ↔
      Fits angle (.index inside :: links) := by
  have hread := @outside_index_iff inside [] List.not_mem_nil angle (renderBehind links)
    (links.map ChainLink.segment)
  rw [List.nil_append] at hread
  rw [List.map_cons, ChainLink.segment, hread, Fits]
  refine and_congr_right fun _ => ?_
  by_cases hdeep : anglesBehind angle inside = 0
  · rw [hdeep, outside_closeBracket, List.cons.injEq, hclear 0]
    simp
  · rw [outside_deep _ _ hdeep (.inr (.inr rfl)), List.cons_append]
    cases links with
    | nil => simp [renderBehind, outside_nil, variableBefore_solid (solid_index inside), Fits]
    | cons link links =>
      refine iff_of_false (unclosed_index_lost inside hdeep link links _) fun h => ?_
      exact hdeep (h.1 (List.cons_ne_nil link links))

include hpending

theorem text_iff {link : ChainLink} (hlink : link.WellNamed) :
    outside [] 0 (link.text ++ renderBehind links) = (link :: links).map ChainLink.segment ↔
      Fits 0 (link :: links) := by
  cases link with
  | ident name =>
    rw [ChainLink.text, outside_name fun c hc => (hlink.plain c hc).2, List.nil_append, List.map_cons,
      ChainLink.segment, hpending name hlink, Fits, eq_self, true_and]
  | call name args =>
    have hsegment : (ChainLink.call name args).segment = callSegment name args.texts := by
      rw [ChainLink.segment, callSegment, hlink.extractMethodName_eq]
    rw [text_call, outside_name fun c hc => (hlink.plain c hc).2, List.nil_append, outside_open, List.map_cons,
      hsegment, inside_call_iff, hclear, Fits, eq_self, true_and]
  | index inside =>
    have htext : (ChainLink.index inside).text ++ renderBehind links =
        '[' :: (inside ++ ']' :: renderBehind links) := by
      simp [ChainLink.text]
    rw [htext, outside_bracket]
    exact index_iff hclear inside 0

end Chains

theorem behind_iff {links : List ChainLink} (hnamed : ∀ link ∈ links, link.WellNamed) :
    (∀ angle, outside [] angle (renderBehind links) = links.map ChainLink.segment ↔ Fits angle links) ∧
      ∀ name, IsChainName name →
        (outside name 0 (renderBehind links) = .ofVariable name :: links.map ChainLink.segment ↔ Fits 0 links) := by
  induction links with
  | nil =>
    refine ⟨fun angle => iff_of_true rfl trivial, fun name hname => iff_of_true ?_ trivial⟩
    rw [renderBehind, List.flatMap_nil, outside_nil, variableBefore_solid hname.solid]
    rfl
  | cons link links ih =>
    obtain ⟨hclear, hpending⟩ := ih fun other hother => hnamed other (List.mem_cons_of_mem link hother)
    have hlink := hnamed link List.mem_cons_self
    have htext := text_iff hclear hpending hlink
    by_cases hdot : link.separator = ['.']
    · constructor
      · intro angle
        by_cases hangle : angle = 0
        · rw [hangle, renderBehind_dotted hdot, outside_dot]
          exact htext
        · have hname : IsChainName link.segment.name := by
            cases link with
            | ident name => exact hlink
            | call name args => exact hlink
            | index inside => cases hdot
          rw [renderBehind_dotted hdot]
          refine iff_of_false (dot_lost hangle hname _ _) fun h => ?_
          cases link with
          | ident name => exact hangle h.1
          | call name args => exact hangle h.1
          | index inside => cases hdot
      · intro name hname
        rw [renderBehind_dotted hdot, outside_dot, variableBefore_solid hname.solid, Option.toList_some,
          List.singleton_append, List.cons.injEq, htext]
        simp
    · obtain ⟨inside, rfl⟩ : ∃ inside, link = .index inside := by
        cases link with
        | ident name => exact absurd rfl hdot
        | call name args => exact absurd rfl hdot
        | index inside => exact ⟨inside, rfl⟩
      constructor
      · intro angle
        have hopen : outside [] angle ('[' :: (inside ++ ']' :: renderBehind links)) =
            outside ['['] angle (inside ++ ']' :: renderBehind links) := by
          by_cases hangle : angle = 0
          · rw [hangle, outside_bracket]
            rfl
          · exact outside_deep _ _ hangle (.inr (.inl rfl))
        rw [renderBehind_index, hopen]
        exact index_iff hclear inside angle
      · intro name hname
        rw [renderBehind_index, outside_bracket, variableBefore_solid hname.solid, Option.toList_some,
          List.singleton_append, List.cons.injEq, index_iff hclear inside 0]
        simp

/-- A chain is read as it is written exactly when its brackets stand as `Fits` says. -/
theorem parse_chain_iff (links : List ChainLink) (hnamed : ∀ link ∈ links, link.WellNamed) :
    parseChainFromExpr (renderChain links) = links.map ChainLink.segment ↔ Fits 0 links := by
  cases links with
  | nil => exact iff_of_true rfl trivial
  | cons link links =>
    obtain ⟨hclear, hpending⟩ := behind_iff fun other hother => hnamed other (List.mem_cons_of_mem link hother)
    exact text_iff hclear hpending (hnamed link List.mem_cons_self)

theorem isChainName_of_all {name : List Char} (hne : name ≠ []) (h : name.all (fun c => decide
    (isWhitespace c = false ∧ c ∉ ['<', '>', '(', ')', ',', '.', '[', ']'])) = true) : IsChainName name where
  ne_nil := hne
  plain c hc := of_decide_eq_true (List.all_eq_true.mp h c hc)

/-- `rows.get(a, f(b, c))[0]` -/
theorem rows_read_as_written :
    let args : ArgumentList := ⟨["a".toList, " f(b, c)".toList], by decide, by decide⟩
    let links : List ChainLink := [.ident "rows".toList, .call "get".toList args, .index "0".toList]
    parseChainFromExpr (renderChain links) = links.map ChainLink.segment := by
  intro args links
  refine (parse_chain_iff links ?_).mpr ?_
  · exact List.forall_mem_cons.mpr ⟨isChainName_of_all (by decide) (by decide),
      List.forall_mem_cons.mpr ⟨isChainName_of_all (by decide) (by decide), List.forall_mem_singleton.mpr trivial⟩⟩
  · simp [links, args, Fits, ArgumentList.inside, ParensClose, Scanner.CutsBetween, Scanner.Uncut, argScan, indexScan,
      angleStep, Scanner.run, anglesBehind]

/-- Texts whose literals and brackets are closed, as those of expressions are. -/
inductive Balanced : List Char → Prop
  | nil : Balanced []
  | char {c : Char} {text : List Char} (hc : c ∉ ['(', ')', '[', ']', '{', '}', '"', '\'']) (h : Balanced text) :
      Balanced (c :: text)
  | literal {quote : Char} {inside text : List Char} (hquote : quote = '"' ∨ quote = '\'')
      (hinside : quote ∉ inside ∧ '\\' ∉ inside) (h : Balanced text) : Balanced (quote :: (inside ++ quote :: text))
  | brackets {opener closer : Char} {inside text : List Char}
      (hpair : (opener, closer) ∈ [('(', ')'), ('[', ']'), ('{', '}')]) (hinside : Balanced inside)
      (h : Balanced text) : Balanced (opener :: (inside ++ closer :: text))

namespace ChainLink

/-- The arguments of a call and the text of an index are those of expressions. -/
def BalancedTexts : ChainLink → Prop
  | ident _ => True
  | call _ args => ∀ chunk ∈ args.chunks, Balanced chunk
  | index inside => Balanced inside

end ChainLink

/-- `log.info(":)")`: the parenthesis in the literal ends the call. -/
theorem literal_parenthesis_ends_call : ¬ ∀ links : List ChainLink, (∀ link ∈ links, link.WellNamed) →
    (∀ link ∈ links, link.BalancedTexts) → parseChainFromExpr (renderChain links) = links.map ChainLink.segment := by
  intro hall
  let args : ArgumentList := ⟨["\":)\"".toList], by decide, by decide⟩
  have hnamed : ∀ link ∈ [ChainLink.ident "log".toList, .call "info".toList args], link.WellNamed :=
    List.forall_mem_cons.mpr ⟨isChainName_of_all (by decide) (by decide),
      List.forall_mem_singleton.mpr (isChainName_of_all (by decide) (by decide))⟩
  have hbalanced : ∀ link ∈ [ChainLink.ident "log".toList, .call "info".toList args], link.BalancedTexts := by
    have hliteral : Balanced "\":)\"".toList := @Balanced.literal '"' ":)".toList [] (.inl rfl) (by decide) .nil
    simpa [ChainLink.BalancedTexts, args] using hliteral
  have hcount := congrArg List.length (hall _ hnamed hbalanced)
  exact absurd hcount (by decide)

end JavaAnalyzer.Completion
