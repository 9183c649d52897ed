import JavaAnalyzer.Library.TextPlaces
import JavaAnalyzer.Lsp.DocumentSync

/-! # The ranges that a definition is shown at

Where a definition's location gets its range: `source_range_from_node` for what the index publishes,
`find_symbol_range` for a syntax tree, and the searches of `lsp/handlers/goto_definition.rs` that look for
the name in the lines of the text. All of them count rows by line feeds and columns by bytes. Which node
declares a symbol is found out by walking the syntax tree; here it is a `Target`, the node with its field
`name`. -/

namespace JavaAnalyzer.Lsp
set_option autoImplicit false
open TextLines TextPlaces Text

/-! ## Names and nodes -/

/-- A Java identifier: some characters, none of which breaks a line. -/
structure Name where
  chars : List Char
  nonempty : chars ≠ []
  plain : ∀ c ∈ chars, isLineBreak c = false

/-- A stretch of the text, as the syntax tree has it. -/
structure Node (text : List Char) where
  before : List Char
  body : List Char
  after : List Char
  eq : text = before ++ (body ++ after)

def pointBehind (front : List Char) : Point where
  row := front.count '\n'
  column := byteLength (afterLast '\n' front)

namespace Node

variable {text : List Char}

def startPosition (node : Node text) : Point := pointBehind node.before

def endPosition (node : Node text) : Point := pointBehind (node.before ++ node.body)

end Node

def sourceRangeFromNode {text : List Char} (node : Node text) : Range where
  start := { line := node.startPosition.row, character := node.startPosition.column }
  stop := { line := node.endPosition.row, character := node.endPosition.column }

/-- The stretch that is a declared name. -/
structure NameNode (text : List Char) where
  before : List Char
  name : Name
  after : List Char
  eq : text = before ++ (name.chars ++ after)

def NameNode.node {text : List Char} (name : NameNode text) : Node text where
  before := name.before
  body := name.name.chars
  after := name.after
  eq := name.eq

/-- The range delimits the name, in UTF-16 units. -/
def Range.Delimits (range : Range) {text : List Char} (name : NameNode text) : Prop :=
  range.start.offset text = some name.before.length ∧
    range.stop.offset text = some (name.before ++ name.name.chars).length

/-- The node that `find_symbol_range` comes to, with its field `name`, and the name that it declares. -/
structure Target (text : List Char) where
  node : Node text
  nameField : Option (Node text)
  declared : NameNode text
  starts : node.before <+: declared.before
  ends : declared.before ++ declared.name.chars <+: node.before ++ node.body
  nameField_eq : ∀ field ∈ nameField, field = declared.node

/-- `child_by_field_name("name").unwrap_or(target_node)` -/
def Target.focusNode {text : List Char} (target : Target text) : Node text :=
  target.nameField.getD target.node

def findSymbolRange {text : List Char} (target : Target text) : Range :=
  sourceRangeFromNode target.focusNode

/-! ## The searches in the lines -/

def isIdentByte (c : Char) : Bool :=
  c.isAlphanum || c == '_'

def beforeOk (before : List Char) : Bool :=
  !before.getLast?.any isIdentByte

def afterOk (after : List Char) : Bool :=
  !after.head?.any isIdentByte

def startsParen (after : List Char) : Bool :=
  (trimStart after).head? == some '('

/-- The loop over the occurrences of a word in a line: what stands before the first one that is accepted,
given what stands before and behind it. The search goes on one byte behind the beginning of one that is
not, which is a panic (`none`) where that byte is inside a character. -/
def seekWord (accept : List Char → List Char → Bool) (word : List Char) :
    List Char → List Char → Option (Option (List Char))
  | before, [] =>
    if word.isPrefixOf [] then if accept before [] then some (some before) else none else some none
  | before, c :: rest =>
    if word.isPrefixOf (c :: rest) then
      if accept before ((c :: rest).drop word.length) then some (some before)
      else if c.utf8Size = 1 then seekWord accept word (before ++ [c]) rest
      else none
    else seekWord accept word (before ++ [c]) rest

/-- A search for a word's declaration in a line: whether the line is looked at, which occurrence ends the
search, and what is asked of that one. -/
structure LineSearch where
  looksAt : List Char → Bool
  accept : List Char → List Char → Bool
  check : List Char → List Char → Bool

/-- A column is the bytes before it, so what stands before the word is what is found. -/
def LineSearch.find (search : LineSearch) (word line : List Char) : Option (Option (List Char)) :=
  if search.looksAt line then
    (seekWord search.accept word [] line).map fun found =>
      found.filter fun before => search.check before (line.drop (before.length + word.length))
  else some none

def containsAny (words : List String) (line : List Char) : Bool :=
  words.any fun word => decide (word.toList <:+: line)

def endsWithAny (words : List String) (text : List Char) : Bool :=
  words.any fun word => word.toList.isSuffixOf text

/-- The occurrences that `find_word_boundary` accepts. -/
def wordBoundary (before after : List Char) : Bool :=
  beforeOk before && afterOk after

def findTypeDecl : LineSearch where
  looksAt line := containsAny ["class ", "interface ", "enum ", "@interface "] (trimStart line)
  accept := wordBoundary
  check before _ := endsWithAny ["class", "interface", "enum"] (trimEnd before)

def findMethodDecl (name : List Char) : LineSearch where
  looksAt line :=
    decide (name <:+: line) &&
      containsAny ["public ", "private ", "protected ", "static ", "final ", "abstract ",
        "synchronized ", "native ", "void ", "int ", "long ", "double ", "float ", "boolean ",
        "byte ", "short ", "char "] (trimStart line)
  accept before after := beforeOk before && startsParen after
  check _ _ := true

def findFieldDecl : LineSearch where
  looksAt line :=
    containsAny ["public ", "private ", "protected ", "static ", "final ", "int ", "long ",
      "double ", "float ", "boolean ", "byte ", "short ", "char ", "String ", "Object "]
      (trimStart line)
  accept := wordBoundary
  check _ after := !startsParen after

/-- What stands before the variable's name ends like a type. -/
def endsLikeType (before : List Char) : Bool :=
  endsWithAny ["..."] before ||
    before.getLast?.any fun last => last.isAlphanum || last == '>' || last == ']' || last == '_'

def findVarDeclCol : LineSearch where
  looksAt line :=
    let trimmed := trim line
    !(trimmed.isEmpty || ["//", "/*", "*", "import ", "package ", "@"].any fun word =>
      word.toList.isPrefixOf trimmed)
  accept before after :=
    beforeOk before && afterOk after && !startsParen after && endsLikeType (trimEnd before)
  check _ _ := true

/-- The range in a line, from the bytes before the word and its own. -/
def rangeInLine (row : ℕ) (before word : List Char) : Range where
  start := { line := row, character := byteLength before }
  stop := { line := row, character := byteLength before + byteLength word }

/-- The lines one after another, up to the first one in which the search finds something. -/
def findInLines (search : LineSearch) (word : List Char) :
    List (List Char) → ℕ → Option (Option Range)
  | [], _ => some none
  | line :: rest, row =>
    match search.find word line with
    | none => none
    | some (some before) => some (some (rangeInLine row before word))
    | some none => findInLines search word rest (row + 1)

inductive NavigationDeclKind
  | type
  | method
  | field
deriving DecidableEq, Repr

def NavigationDeclKind.search (name : List Char) : NavigationDeclKind → LineSearch
  | .type => findTypeDecl
  | .method => findMethodDecl name
  | .field => findFieldDecl

def findDeclarationRange (content name : List Char) (kind : NavigationDeclKind) :
    Option (Option Range) :=
  findInLines (kind.search name) name (strLines content) 0

def findLocalVarDecl (content varName : List Char) : Option (Option Range) :=
  findInLines findVarDeclCol varName (strLines content) 0

/-! ## What a search in a line comes to -/

def OccursAt (word line before after : List Char) : Prop :=
  line = before ++ (word ++ after)

section Seek

variable (accept : List Char → List Char → Bool) (word line : List Char)

/-- Of the occurrences behind `n` characters, the first one accepted. -/
def FirstAccepted (n : ℕ) (before : List Char) : Prop :=
  ∃ after, OccursAt word line before after ∧ accept before after = true ∧ n ≤ before.length ∧
    ∀ b a, OccursAt word line b a → n ≤ b.length → accept b a = true → before.length ≤ b.length

/-- Behind `n` characters an occurrence is rejected before one is accepted. -/
def RejectsFirst (n : ℕ) : Prop :=
  ∃ before after, OccursAt word line before after ∧ accept before after = false ∧
    n ≤ before.length ∧
    ∀ b a, OccursAt word line b a → n ≤ b.length → accept b a = true → before.length < b.length

/-- The byte behind the beginning of the word begins a character. -/
def StartsOneByte (word : List Char) : Prop :=
  ∀ c ∈ word.head?, c.utf8Size = 1

variable {accept word line}

theorem OccursAt.at_length {pre rest before after : List Char} (hline : line = pre ++ rest)
    (h : OccursAt word line before after) (hlength : before.length = pre.length) :
    before = pre ∧ rest = word ++ after := by
  rw [OccursAt, hline] at h
  obtain ⟨hpre, hrest⟩ := List.append_inj h hlength.symm
  exact ⟨hpre.symm, hrest⟩

theorem occursAt_here {pre rest : List Char} (hline : line = pre ++ rest)
    (h : word.isPrefixOf rest = true) : OccursAt word line pre (rest.drop word.length) := by
  obtain ⟨after, hafter⟩ := List.isPrefixOf_iff_prefix.mp h
  rw [OccursAt, hline, ← hafter, List.drop_left]

theorem firstAccepted_here {pre after : List Char} (hoccurs : OccursAt word line pre after)
    (haccept : accept pre after = true) :
    (∀ before, FirstAccepted accept word line pre.length before ↔ before = pre) ∧
      ¬ RejectsFirst accept word line pre.length := by
  refine ⟨fun before => ⟨fun h => ?_, fun h => ?_⟩, fun h => ?_⟩
  · obtain ⟨after', hoccurs', -, hle, hfirst⟩ := h
    have hlength := Nat.le_antisymm (hfirst pre after hoccurs (Nat.le_refl _) haccept) hle
    exact (OccursAt.at_length hoccurs hoccurs' hlength).1
  · rw [h]
    exact ⟨after, hoccurs, haccept, Nat.le_refl _, fun _ _ _ hle _ => hle⟩
  · obtain ⟨before, after', -, -, hle, hfirst⟩ := h
    exact Nat.not_lt.mpr hle (hfirst pre after hoccurs (Nat.le_refl _) haccept)

theorem rejectsFirst_here {pre after : List Char} (hoccurs : OccursAt word line pre after)
    (haccept : accept pre after = false) : RejectsFirst accept word line pre.length := by
  refine ⟨pre, after, hoccurs, haccept, Nat.le_refl _, fun b a hb hle hab => ?_⟩
  refine Nat.lt_of_le_of_ne hle fun heq => ?_
  obtain ⟨rfl, hrest⟩ := OccursAt.at_length hoccurs hb heq.symm
  rw [List.append_cancel_left hrest, hab] at haccept
  cases haccept

theorem firstAccepted_succ {n : ℕ}
    (hnone : ∀ b a, OccursAt word line b a → b.length = n → accept b a = false)
    (before : List Char) :
    FirstAccepted accept word line n before ↔ FirstAccepted accept word line (n + 1) before := by
  have hbehind : ∀ b a, OccursAt word line b a → accept b a = true → n ≤ b.length →
      n + 1 ≤ b.length := by
    intro b a hb hab hle
    refine Nat.lt_of_le_of_ne hle fun heq => ?_
    rw [hnone b a hb heq.symm] at hab
    cases hab
  constructor
  · intro h
    obtain ⟨after, hoccurs, haccept, hle, hfirst⟩ := h
    exact ⟨after, hoccurs, haccept, hbehind _ _ hoccurs haccept hle,
      fun b a hb hn => hfirst b a hb (by omega)⟩
  · intro h
    obtain ⟨after, hoccurs, haccept, hle, hfirst⟩ := h
    exact ⟨after, hoccurs, haccept, by omega,
      fun b a hb hn hab => hfirst b a hb (hbehind b a hb hab hn) hab⟩

theorem rejectsFirst_succ {n : ℕ} (hnone : ∀ b a, OccursAt word line b a → b.length ≠ n) :
    RejectsFirst accept word line n ↔ RejectsFirst accept word line (n + 1) := by
  have hbehind : ∀ b a, OccursAt word line b a → n ≤ b.length → n + 1 ≤ b.length := fun b a hb hle =>
    Nat.lt_of_le_of_ne hle (hnone b a hb).symm
  constructor
  · intro h
    obtain ⟨before, after, hoccurs, haccept, hle, hfirst⟩ := h
    exact ⟨before, after, hoccurs, haccept, hbehind _ _ hoccurs hle,
      fun b a hb hn => hfirst b a hb (by omega)⟩
  · intro h
    obtain ⟨before, after, hoccurs, haccept, hle, hfirst⟩ := h
    exact ⟨before, after, hoccurs, haccept, by omega,
      fun b a hb hn => hfirst b a hb (hbehind b a hb hn)⟩

theorem length_lt_of_occursAt (hword : word ≠ []) {before after : List Char}
    (h : OccursAt word line before after) : before.length < line.length := by
  have hpos := List.length_pos_iff.mpr hword
  rw [h, List.length_append, List.length_append]
  omega

/-- The word's own first character is the one that it is found at. -/
theorem startsOneByte_iff (hword : word ≠ []) {c : Char} {rest : List Char}
    (h : word <+: c :: rest) : StartsOneByte word ↔ c.utf8Size = 1 := by
  cases word with
  | nil => exact absurd rfl hword
  | cons d tail =>
    obtain ⟨hd, -⟩ := List.cons_prefix_cons.mp h
    simp [StartsOneByte, hd]

/-- The search panics when it has to pass an occurrence that begins with more than one byte, and finds
the first occurrence accepted otherwise. -/
theorem seekWord_spec (hword : word ≠ []) {pre rest : List Char} (hline : line = pre ++ rest) :
    (seekWord accept word pre rest = none ↔
      ¬ StartsOneByte word ∧ RejectsFirst accept word line pre.length) ∧
    ∀ before, seekWord accept word pre rest = some (some before) ↔
      ¬ (¬ StartsOneByte word ∧ RejectsFirst accept word line pre.length) ∧
        FirstAccepted accept word line pre.length before := by
  fun_induction seekWord accept word pre rest with
  | case1 pre hprefix => exact absurd (by simpa using hprefix) hword
  | case2 pre hprefix => exact absurd (by simpa using hprefix) hword
  | case3 pre hprefix =>
    have hend : line.length = pre.length := by rw [hline, List.append_nil]
    have hrejects : ¬ RejectsFirst accept word line pre.length := by
      intro h
      obtain ⟨before, after, hoccurs, -, hle, -⟩ := h
      have hlt := length_lt_of_occursAt hword hoccurs
      omega
    have haccepted : ∀ before, ¬ FirstAccepted accept word line pre.length before := by
      intro before h
      obtain ⟨after, hoccurs, -, hle, -⟩ := h
      have hlt := length_lt_of_occursAt hword hoccurs
      omega
    simp [hrejects, haccepted]
  | case4 pre c rest hprefix haccept =>
    have hoccurs := occursAt_here hline hprefix
    obtain ⟨haccepted, hrejects⟩ := firstAccepted_here hoccurs haccept
    simp [hrejects, haccepted, eq_comm]
  | case5 pre c rest hprefix haccept hbyte ih =>
    have hstarts := (startsOneByte_iff hword (List.isPrefixOf_iff_prefix.mp hprefix)).mpr hbyte
    have hoccurs := occursAt_here hline hprefix
    obtain ⟨hpanic, hfound⟩ := ih (by rw [hline, List.append_assoc]; rfl)
    have hnone : ∀ b a, OccursAt word line b a → b.length = pre.length → accept b a = false := by
      intro b a hb hlength
      obtain ⟨rfl, hrest⟩ := OccursAt.at_length hoccurs hb hlength
      rw [← List.append_cancel_left hrest]
      simpa using haccept
    refine ⟨?_, fun before => ?_⟩
    · rw [hpanic]
      simp [hstarts]
    · rw [hfound, firstAccepted_succ hnone, List.length_append]
      simp [hstarts]
  | case6 pre c rest hprefix haccept hbyte =>
    have hstarts := (not_congr (startsOneByte_iff hword (List.isPrefixOf_iff_prefix.mp hprefix))).mpr
      hbyte
    have hrejects := rejectsFirst_here (occursAt_here hline hprefix) (by simpa using haccept)
    simp [hstarts, hrejects]
  | case7 pre c rest hprefix ih =>
    obtain ⟨hpanic, hfound⟩ := ih (by rw [hline, List.append_assoc]; rfl)
    have hnone : ∀ b a, OccursAt word line b a → b.length ≠ pre.length := by
      intro b a hb hlength
      obtain ⟨-, hrest⟩ := OccursAt.at_length hline hb hlength
      exact hprefix (List.isPrefixOf_iff_prefix.mpr ⟨a, hrest.symm⟩)
    have hnone' : ∀ b a, OccursAt word line b a → b.length = pre.length → accept b a = false :=
      fun b a hb hlength => absurd hlength (hnone b a hb)
    refine ⟨?_, fun before => ?_⟩
    · rw [hpanic, rejectsFirst_succ hnone, List.length_append]
      rfl
    · rw [hfound, firstAccepted_succ hnone', rejectsFirst_succ hnone, List.length_append]
      rfl

end Seek

/-! ## What a search in the text comes to -/

section Lines

variable (search : LineSearch) (word : List Char)

/-- The line declares the word behind `before`. -/
def LineSearch.DeclaresAt (line before : List Char) : Prop :=
  search.looksAt line = true ∧ FirstAccepted search.accept word line 0 before ∧
    search.check before (line.drop (before.length + word.length)) = true

/-- The search in the line has to pass an occurrence. -/
def LineSearch.Passes (line : List Char) : Prop :=
  search.looksAt line = true ∧ RejectsFirst search.accept word line 0

/-- No line before the row declares the word. -/
def LineSearch.NoneBefore (lines : List (List Char)) (row : ℕ) : Prop :=
  ∀ i < row, ∀ line, lines[i]? = some line → ∀ before, ¬ search.DeclaresAt word line before

/-- The row is the first one that declares the word. -/
def LineSearch.DeclaresOn (lines : List (List Char)) (row : ℕ) (before : List Char) : Prop :=
  ∃ line, lines[row]? = some line ∧ search.DeclaresAt word line before ∧
    search.NoneBefore word lines row

/-- An occurrence has to be passed on a line that no declaration comes before. -/
def LineSearch.PassesOn (lines : List (List Char)) : Prop :=
  ∃ row line, lines[row]? = some line ∧ search.Passes word line ∧ search.NoneBefore word lines row

variable {search word}

theorem LineSearch.find_spec (hword : word ≠ []) (line : List Char) :
    (search.find word line = none ↔ ¬ StartsOneByte word ∧ search.Passes word line) ∧
    ∀ before, search.find word line = some (some before) ↔
      ¬ (¬ StartsOneByte word ∧ search.Passes word line) ∧ search.DeclaresAt word line before := by
  obtain ⟨hpanic, hfound⟩ := @seekWord_spec search.accept word line hword [] line rfl
  unfold LineSearch.find LineSearch.Passes LineSearch.DeclaresAt
  by_cases hlooks : search.looksAt line = true
  · rw [if_pos hlooks, Option.map_eq_none_iff, hpanic]
    refine ⟨by simp [hlooks], fun before => ?_⟩
    rw [Option.map_eq_some_iff]
    constructor
    · intro h
      obtain ⟨found, hseek, hfilter⟩ := h
      obtain ⟨hsome, hcheck⟩ := Option.filter_eq_some_iff.mp hfilter
      rw [hsome] at hseek
      obtain ⟨hnot, hfirst⟩ := (hfound before).mp hseek
      exact ⟨fun h => hnot ⟨h.1, h.2.2⟩, hlooks, hfirst, hcheck⟩
    · intro h
      obtain ⟨hnot, -, hfirst, hcheck⟩ := h
      exact ⟨some before, (hfound before).mpr ⟨fun h => hnot ⟨h.1, hlooks, h.2⟩, hfirst⟩,
        Option.filter_eq_some_iff.mpr ⟨rfl, hcheck⟩⟩
  · rw [if_neg hlooks]
    simp [hlooks]

theorem LineSearch.noneBefore_succ {line : List Char} {rest : List (List Char)} {row : ℕ} :
    search.NoneBefore word (line :: rest) (row + 1) ↔
      (∀ before, ¬ search.DeclaresAt word line before) ∧ search.NoneBefore word rest row := by
  constructor
  · intro h
    exact ⟨h 0 (Nat.succ_pos row) line rfl, fun i hi => h (i + 1) (Nat.succ_lt_succ hi)⟩
  · intro h i hi other hother
    cases i with
    | zero =>
      cases hother
      exact h.1
    | succ i => exact h.2 i (Nat.lt_of_succ_lt_succ hi) other hother

theorem LineSearch.noneBefore_zero (lines : List (List Char)) : search.NoneBefore word lines 0 :=
  fun _ hi => absurd hi (Nat.not_lt_zero _)

theorem LineSearch.passesOn_cons {line : List Char} {rest : List (List Char)} :
    search.PassesOn word (line :: rest) ↔ search.Passes word line ∨
      (∀ before, ¬ search.DeclaresAt word line before) ∧ search.PassesOn word rest := by
  constructor
  · intro h
    obtain ⟨row, other, hother, hpasses, hnone⟩ := h
    cases row with
    | zero =>
      cases hother
      exact Or.inl hpasses
    | succ row =>
      obtain ⟨hfirst, hrest⟩ := LineSearch.noneBefore_succ.mp hnone
      exact Or.inr ⟨hfirst, row, other, hother, hpasses, hrest⟩
  · intro h
    cases h with
    | inl hpasses => exact ⟨0, line, rfl, hpasses, LineSearch.noneBefore_zero _⟩
    | inr h =>
      obtain ⟨hfirst, row, other, hother, hpasses, hrest⟩ := h
      exact ⟨row + 1, other, hother, hpasses, LineSearch.noneBefore_succ.mpr ⟨hfirst, hrest⟩⟩

theorem LineSearch.declaresOn_zero {line : List Char} {rest : List (List Char)}
    {before : List Char} :
    search.DeclaresOn word (line :: rest) 0 before ↔ search.DeclaresAt word line before := by
  constructor
  · intro h
    obtain ⟨other, hother, hdeclares, -⟩ := h
    cases hother
    exact hdeclares
  · intro h
    exact ⟨line, rfl, h, LineSearch.noneBefore_zero _⟩

theorem LineSearch.declaresOn_succ {line : List Char} {rest : List (List Char)} {row : ℕ}
    {before : List Char} :
    search.DeclaresOn word (line :: rest) (row + 1) before ↔
      (∀ b, ¬ search.DeclaresAt word line b) ∧ search.DeclaresOn word rest row before := by
  constructor
  · intro h
    obtain ⟨other, hother, hdeclares, hnone⟩ := h
    obtain ⟨hfirst, hrest⟩ := LineSearch.noneBefore_succ.mp hnone
    exact ⟨hfirst, other, hother, hdeclares, hrest⟩
  · intro h
    obtain ⟨hfirst, other, hother, hdeclares, hrest⟩ := h
    exact ⟨other, hother, hdeclares, LineSearch.noneBefore_succ.mpr ⟨hfirst, hrest⟩⟩

/-- The search panics on the first line where it must, and finds the first declaration otherwise. -/
theorem findInLines_spec (hword : word ≠ []) (lines : List (List Char)) (row : ℕ) :
    (findInLines search word lines row = none ↔
      ¬ StartsOneByte word ∧ search.PassesOn word lines) ∧
    ∀ range, findInLines search word lines row = some (some range) ↔
      ¬ (¬ StartsOneByte word ∧ search.PassesOn word lines) ∧
        ∃ i before, search.DeclaresOn word lines i before ∧
          range = rangeInLine (row + i) before word := by
  fun_induction findInLines search word lines row with
  | case1 row =>
    have hpasses : ¬ search.PassesOn word [] := by
      intro h
      obtain ⟨_, _, hline, -⟩ := h
      cases hline
    have hdeclares : ∀ i before, ¬ search.DeclaresOn word [] i before := by
      intro i before h
      obtain ⟨_, hline, -⟩ := h
      cases hline
    simp [hpasses, hdeclares]
  | case2 line rest row hfind =>
    obtain ⟨hstarts, hpasses⟩ := (LineSearch.find_spec hword line).1.mp hfind
    have hon : search.PassesOn word (line :: rest) := LineSearch.passesOn_cons.mpr (Or.inl hpasses)
    simp [hstarts, hon]
  | case3 line rest row before hfind =>
    obtain ⟨hnot, hdeclares⟩ := ((LineSearch.find_spec hword line).2 before).mp hfind
    have hon : search.PassesOn word (line :: rest) ↔ search.Passes word line := by
      rw [LineSearch.passesOn_cons]
      exact ⟨fun h => h.resolve_right fun h => h.1 before hdeclares, Or.inl⟩
    rw [hon]
    refine ⟨by simpa using hnot, fun range => ⟨fun h => ?_, fun h => ?_⟩⟩
    · cases h
      exact ⟨hnot, 0, before, LineSearch.declaresOn_zero.mpr hdeclares, rfl⟩
    · obtain ⟨-, i, found, hfound, rfl⟩ := h
      cases i with
      | zero =>
        have hsame := ((LineSearch.find_spec hword line).2 found).mpr
          ⟨hnot, LineSearch.declaresOn_zero.mp hfound⟩
        rw [hfind] at hsame
        cases hsame
        rfl
      | succ i => exact absurd hdeclares ((LineSearch.declaresOn_succ.mp hfound).1 before)
  | case4 line rest row hfind ih =>
    obtain ⟨hpanic, hfound⟩ := ih
    have hnot : ¬ (¬ StartsOneByte word ∧ search.Passes word line) := by
      intro h
      rw [(LineSearch.find_spec hword line).1.mpr h] at hfind
      cases hfind
    have hnone : ∀ before, ¬ search.DeclaresAt word line before := by
      intro before h
      rw [((LineSearch.find_spec hword line).2 before).mpr ⟨hnot, h⟩] at hfind
      cases hfind
    have hon : ¬ StartsOneByte word ∧ search.PassesOn word (line :: rest) ↔
        ¬ StartsOneByte word ∧ search.PassesOn word rest := by
      rw [LineSearch.passesOn_cons]
      exact ⟨fun h => ⟨h.1, (h.2.resolve_left fun hp => hnot ⟨h.1, hp⟩).2⟩,
        fun h => ⟨h.1, Or.inr ⟨hnone, h.2⟩⟩⟩
    rw [hon]
    refine ⟨hpanic, fun range => ?_⟩
    rw [hfound]
    refine and_congr_right fun _ => ⟨fun h => ?_, fun h => ?_⟩
    · obtain ⟨i, before, hdeclares, rfl⟩ := h
      exact ⟨i + 1, before, LineSearch.declaresOn_succ.mpr ⟨hnone, hdeclares⟩,
        by rw [Nat.add_assoc, Nat.add_comm 1 i]⟩
    · obtain ⟨i, before, hdeclares, rfl⟩ := h
      cases i with
      | zero => exact absurd (LineSearch.declaresOn_zero.mp hdeclares) (hnone before)
      | succ i =>
        exact ⟨i, before, (LineSearch.declaresOn_succ.mp hdeclares).2,
          by rw [Nat.add_assoc, Nat.add_comm 1 i]⟩

end Lines

/-! ## Which ranges are right -/

section Ranges

variable {text : List Char}

def Range.ofPlaces (start stop : ℕ × ℕ) : Range where
  start := { line := start.1, character := start.2 }
  stop := { line := stop.1, character := stop.2 }

theorem sourceRangeFromNode_eq (node : Node text) :
    sourceRangeFromNode node = .ofPlaces (bytePlace node.before) (bytePlace (node.before ++ node.body)) :=
  rfl

theorem delimits_iff_place (range : Range) (name : NameNode text) :
    range.Delimits name ↔
      place isLineBreak utf16Length name.before = (range.start.line, range.start.character) ∧
        place isLineBreak utf16Length (name.before ++ name.name.chars) =
          (range.stop.line, range.stop.character) := by
  have hstart : ∀ pre more, name.before = pre ++ ['\r'] →
      name.name.chars ++ name.after = '\n' :: more → False := by
    intro pre more _ hmore
    obtain ⟨c, rest, hchars⟩ := List.exists_cons_of_ne_nil name.name.nonempty
    rw [hchars, List.cons_append, List.cons.injEq] at hmore
    have hplain := name.name.plain c (by rw [hchars]; exact List.mem_cons_self)
    rw [hmore.1] at hplain
    cases hplain
  have hstop : ∀ pre more, name.before ++ name.name.chars = pre ++ ['\r'] →
      name.after = '\n' :: more → False := by
    intro pre more hpre _
    have hlast := congrArg List.getLast? hpre
    rw [List.getLast?_append_of_ne_nil _ name.name.nonempty, List.getLast?_concat] at hlast
    have hplain := name.name.plain '\r' (List.mem_of_getLast? hlast)
    cases hplain
  have hbegin := @atLine_iff_place isLineBreak rfl name.before (name.name.chars ++ name.after) hstart
    range.start.line range.start.character
  have hend := @atLine_iff_place isLineBreak rfl (name.before ++ name.name.chars) name.after hstop
    range.stop.line range.stop.character
  rw [← name.eq] at hbegin
  rw [List.append_assoc, ← name.eq] at hend
  exact and_congr hbegin hend

theorem Node.ext_of_eq {node other : Node text} (hbefore : node.before = other.before)
    (hbody : node.body = other.body) : node = other := by
  obtain ⟨before, body, after, heq⟩ := node
  obtain ⟨before', body', after', heq'⟩ := other
  dsimp only at hbefore hbody
  subst hbefore hbody
  rw [heq, List.append_cancel_left_eq, List.append_cancel_left_eq] at heq'
  subst heq'
  rfl

/-- The bytes of a node around a name are the name's range exactly when the node is the plain name. -/
theorem sourceRangeFromNode_delimits_iff {node : Node text} {name : NameNode text}
    (hstarts : node.before <+: name.before)
    (hends : name.before ++ name.name.chars <+: node.before ++ node.body) :
    (sourceRangeFromNode node).Delimits name ↔
      node = name.node ∧ PlainUpTo isLineBreak name.before name.name.chars := by
  have hagree := stretch_agree_iff rfl name.name.plain hstarts hends
  rw [delimits_iff_place, sourceRangeFromNode_eq]
  dsimp only [Range.ofPlaces]
  rw [Prod.mk.eta, Prod.mk.eta, @eq_comm _ (place _ _ name.before), @eq_comm _ (place _ _ (_ ++ _)),
    hagree]
  constructor
  · intro h
    obtain ⟨hbefore, hboth, hplain⟩ := h
    rw [hbefore, List.append_cancel_left_eq] at hboth
    exact ⟨Node.ext_of_eq hbefore hboth, hplain⟩
  · intro h
    obtain ⟨rfl, hplain⟩ := h
    exact ⟨rfl, rfl, hplain⟩

/-- The name is the one that the search finds first in the text. -/
def LineSearch.Declares (search : LineSearch) (name : NameNode text) : Prop :=
  search.DeclaresOn name.name.chars (strLines text) (name.before.count '\n')
    (afterLast '\n' name.before)

/-- The search does not panic, and a range that it finds is that of a name declared. -/
def LineSearch.Right (search : LineSearch) (text : List Char) (name : Name)
    (result : Option (Option Range)) : Prop :=
  ∃ found, result = some found ∧ ∀ range, found = some range →
    ∃ node : NameNode text, node.name = name ∧ search.Declares node ∧ range.Delimits node

theorem rangeInLine_eq (name : NameNode text) :
    rangeInLine (name.before.count '\n') (afterLast '\n' name.before) name.name.chars =
      sourceRangeFromNode name.node := by
  have hfeed : '\n' ∉ name.name.chars := fun hmem => by
    have hplain := name.name.plain _ hmem
    cases hplain
  rw [sourceRangeFromNode_eq, NameNode.node, bytePlace_append _ hfeed]
  rfl

/-- What is found on a row is a name of the text. -/
theorem exists_name_of_declaresOn {search : LineSearch} {name : Name} {row : ℕ} {before : List Char}
    (h : search.DeclaresOn name.chars (strLines text) row before) :
    ∃ node : NameNode text, node.name = name ∧ node.before.count '\n' = row ∧
      afterLast '\n' node.before = before := by
  obtain ⟨line, hline, ⟨-, ⟨after, hoccurs, -⟩, -⟩, -⟩ := h
  rw [hoccurs] at hline
  obtain ⟨front, back, htext, hrow, hlast⟩ := exists_front_of_strLines hline
  exact ⟨⟨front, name, after ++ back, by rw [htext, List.append_assoc]⟩, rfl, hrow, hlast⟩

/-- Names of one text at one place of rows and bytes stand behind the same text. -/
theorem before_eq_of_range_eq {name other : NameNode text}
    (h : sourceRangeFromNode name.node = sourceRangeFromNode other.node) :
    name.before = other.before := by
  have hplace : bytePlace name.before = bytePlace other.before := by
    have hline := congrArg (fun range => range.start.line) h
    have hcharacter := congrArg (fun range => range.start.character) h
    exact Prod.ext hline hcharacter
  exact eq_of_same_bytePlace ⟨_, name.eq.symm⟩ ⟨_, other.eq.symm⟩ hplace

theorem found_of_declares {search : LineSearch} {name : Name} {result : Option (Option Range)}
    {panics : Prop} (hfound : ∀ range, result = some (some range) ↔ ¬ panics ∧
      ∃ i before, search.DeclaresOn name.chars (strLines text) i before ∧
        range = rangeInLine (0 + i) before name.chars) (hnot : ¬ panics)
    {node : NameNode text} (hname : node.name = name) (h : search.Declares node) :
    result = some (some (sourceRangeFromNode node.node)) := by
  subst hname
  refine (hfound _).mpr ⟨hnot, _, _, h, ?_⟩
  rw [Nat.zero_add, rangeInLine_eq]

/-- A search in the text is right exactly when it has no occurrence to pass that begins with more than
one byte, and the name that it finds is plain. -/
theorem findInLines_right_iff (search : LineSearch) (text : List Char) (name : Name) :
    search.Right text name (findInLines search name.chars (strLines text) 0) ↔
      ¬ (¬ StartsOneByte name.chars ∧ search.PassesOn name.chars (strLines text)) ∧
        ∀ node : NameNode text, node.name = name → search.Declares node →
          PlainUpTo isLineBreak node.before name.chars := by
  obtain ⟨hpanic, hfound⟩ := @findInLines_spec search name.chars name.nonempty (strLines text) 0
  constructor
  · intro h
    obtain ⟨found, hresult, hright⟩ := h
    have hnot : ¬ (¬ StartsOneByte name.chars ∧ search.PassesOn name.chars (strLines text)) := by
      intro hpasses
      rw [hpanic.mpr hpasses] at hresult
      cases hresult
    refine ⟨hnot, fun node hname hdeclares => ?_⟩
    have hrange := found_of_declares hfound hnot hname hdeclares
    rw [hresult, Option.some.injEq] at hrange
    obtain ⟨other, hother, hdeclaresOther, hdelimits⟩ := hright _ hrange
    have hrangeOther := found_of_declares hfound hnot hother hdeclaresOther
    rw [hresult, hrange, Option.some.injEq, Option.some.injEq] at hrangeOther
    rw [hrangeOther] at hdelimits
    have hplain := ((sourceRangeFromNode_delimits_iff (List.prefix_refl _)
      (List.prefix_refl _)).mp hdelimits).2
    rwa [hother, ← before_eq_of_range_eq hrangeOther] at hplain
  · intro h
    obtain ⟨hnot, hplain⟩ := h
    cases hresult : findInLines search name.chars (strLines text) 0 with
    | none => exact absurd (hpanic.mp hresult) hnot
    | some found =>
      refine ⟨found, rfl, fun range hrange => ?_⟩
      rw [hrange] at hresult
      obtain ⟨-, row, before, hdeclares, rfl⟩ := (hfound range).mp hresult
      obtain ⟨node, rfl, rfl, rfl⟩ := exists_name_of_declaresOn hdeclares
      refine ⟨node, rfl, hdeclares, ?_⟩
      rw [Nat.zero_add, rangeInLine_eq]
      exact (sourceRangeFromNode_delimits_iff (List.prefix_refl _) (List.prefix_refl _)).mpr
        ⟨rfl, hplain node rfl hdeclares⟩

/-- The definition ranges of a text: what is published is right for plain names, `find_symbol_range`
where moreover the node found has a field for its name or is the name, and a search in the text where it
does not panic and finds a plain name. -/
theorem definition_ranges_right (text : List Char) :
    (∀ name : NameNode text, (sourceRangeFromNode name.node).Delimits name ↔
      PlainUpTo isLineBreak name.before name.name.chars) ∧
    (∀ target : Target text, (findSymbolRange target).Delimits target.declared ↔
      (target.nameField.isSome = true ∨ target.node = target.declared.node) ∧
        PlainUpTo isLineBreak target.declared.before target.declared.name.chars) ∧
    (∀ (name : Name) (kind : NavigationDeclKind),
      (kind.search name.chars).Right text name (findDeclarationRange text name.chars kind) ↔
        ¬ (¬ StartsOneByte name.chars ∧
          (kind.search name.chars).PassesOn name.chars (strLines text)) ∧
        ∀ node : NameNode text, node.name = name → (kind.search name.chars).Declares node →
          PlainUpTo isLineBreak node.before name.chars) ∧
    (∀ name : Name, findVarDeclCol.Right text name (findLocalVarDecl text name.chars) ↔
      ¬ (¬ StartsOneByte name.chars ∧ findVarDeclCol.PassesOn name.chars (strLines text)) ∧
        ∀ node : NameNode text, node.name = name → findVarDeclCol.Declares node →
          PlainUpTo isLineBreak node.before name.chars) := by
  refine ⟨fun name => ?_, fun target => ?_, fun name kind => findInLines_right_iff _ text name,
    fun name => findInLines_right_iff _ text name⟩
  · rw [sourceRangeFromNode_delimits_iff (List.prefix_refl _) (List.prefix_refl _)]
    simp
  · rw [findSymbolRange, Target.focusNode]
    cases hfield : target.nameField with
    | none =>
      rw [Option.getD_none, sourceRangeFromNode_delimits_iff target.starts target.ends]
      simp
    | some field =>
      rw [Option.getD_some, target.nameField_eq field hfield,
        sourceRangeFromNode_delimits_iff (List.prefix_refl _) (List.prefix_refl _)]
      simp

end Ranges

/-! ## Ranges beside the name -/

def letterA : Name where
  chars := ['A']
  nonempty := by decide
  plain := by simp [isLineBreak]

def accentedName : Name where
  chars := ['é']
  nonempty := by decide
  plain := by simp [isLineBreak]

def commentedClass : List Char :=
  ['/', '*', 'é', '*', '/', 'c', 'l', 'a', 's', 's', ' ', 'A', ' ', '{', '}']

def commentedClassName : NameNode commentedClass where
  before := ['/', '*', 'é', '*', '/', 'c', 'l', 'a', 's', 's', ' ']
  name := letterA
  after := [' ', '{', '}']
  eq := rfl

def fieldDeclaration : List Char := ['i', 'n', 't', ' ', 'A', ';']

/-- The node of a field declaration, which has no field `name`. -/
def fieldTarget : Target fieldDeclaration where
  node := { before := [], body := fieldDeclaration, after := [], eq := rfl }
  nameField := none
  declared := { before := ['i', 'n', 't', ' '], name := letterA, after := [';'], eq := rfl }
  starts := by decide
  ends := by decide
  nameField_eq := by simp

/-- A letter of two bytes before the class moves its range, a field's range is its whole declaration,
and looking for a variable whose name ends another word is a panic. -/
theorem definition_range_beside :
    ¬ (sourceRangeFromNode commentedClassName.node).Delimits commentedClassName ∧
    ¬ (findSymbolRange fieldTarget).Delimits fieldTarget.declared ∧
    findLocalVarDecl ['a', 'é', '=', '1', ';'] accentedName.chars = none := by
  refine ⟨fun h => ?_, fun h => ?_, by decide⟩
  · exact absurd h.1 (by decide)
  · exact absurd h.1 (by decide)

end JavaAnalyzer.Lsp
