import JavaAnalyzer.Completion.ImportLines
import JavaAnalyzer.Lsp.CompletionEdit

/-! # The import that a completion adds

`candidate_to_lsp` of `lsp/converters.rs` adds an import for a class that the source does not name yet: a line of text
behind the last line that begins with `import `, else behind the last one that begins with `package `. The lines are
those of the text, whatever stands on them, so where the new line lands depends on the comments and literals too. -/

namespace JavaAnalyzer.Lsp
set_option autoImplicit false
open TextLines TextPlaces Splice Text Completion

/-! ## The edit -/

/-- The loop over the numbered lines: the last package line and the last import line. -/
def headingLines (source : List Char) : Option ℕ × Option ℕ :=
  (strLines source).zipIdx.foldl
    (fun found entry =>
      (noteLast (startsWith packageWord) found.1 entry, noteLast (startsWith importWord) found.2 entry))
    (none, none)

def findImportInsertLine (source : List Char) : ℕ :=
  match headingLines source with
  | (_, some l) => l + 1
  | (some l, none) => l + 1
  | (none, none) => 0

def makeImportText (imp : String) (source : List Char) : List Char :=
  if (strLines source).any (startsWith importWord) then importWord ++ imp.toList ++ [';', '\n']
  else '\n' :: (importWord ++ imp.toList ++ [';', '\n'])

/-- The `additional_text_edits` of the item. -/
def candidateToLsp (requiredImport : Option String) (source : List Char) : Option (List TextEdit) :=
  (requiredImport.filter fun imp => !isAlreadyInSource imp source).map fun imp =>
    [insertAt { line := findImportInsertLine source, character := 0 } (makeImportText imp source)]

/-- The editor takes a position that the text does not have for its end. -/
def editorOffset (text : List Char) (position : Position) : ℕ :=
  (position.offset text).getD text.length

def TextEdit.applied (edit : TextEdit) (text : List Char) : List Char :=
  let start := editorOffset text edit.range.start
  splice text start (editorOffset text edit.range.stop - start) edit.newText

/-! ## Sources -/

def isJavaBlank (c : Char) : Bool :=
  c == ' ' || c == '\t' || c == '\x0c' || isLineBreak c

/-- What may stand between two declarations. -/
inductive Trivia where
  | blank (c : Char) (h : isJavaBlank c = true)
  | lineComment (body : List Char) (h : ∀ c ∈ body, isLineBreak c = false)
  | blockComment (body : List Char) (h : ¬['*', '/'] <:+: body ++ ['*'])

namespace Trivia

def text : Trivia → List Char
  | .blank c _ => [c]
  | .lineComment body _ => '/' :: '/' :: body
  | .blockComment body _ => '/' :: '*' :: body ++ ['*', '/']

def textOf (trivia : List Trivia) : List Char :=
  trivia.flatMap text

/-- A comment to the end of the line is the last of these. -/
def LeftOpen (trivia : List Trivia) : Prop :=
  ∃ body h, trivia.getLast? = some (.lineComment body h)

/-- Behind a comment to the end of the line the line ends. -/
def LinesEnd (back : List Char) : List Trivia → Prop
  | [] => True
  | .lineComment _ _ :: rest => (∀ c ∈ (textOf rest ++ back).head?, isLineBreak c = true) ∧ LinesEnd back rest
  | _ :: rest => LinesEnd back rest

end Trivia

/-- A source: its text up to the semicolon behind its package declaration and imports, what stands between these and
the first declaration of a type, and the rest. -/
structure JavaSource where
  header : List Char
  gap : List Trivia
  types : List Char
  header_ends : header ≠ [] → header.getLast? = some ';'
  gap_ends : Trivia.LinesEnd types gap
  types_begin : ∀ c ∈ types.head?, isWhitespace c = false ∧ c ≠ '/'
  types_word : ¬importWord <+: types ∧ ¬packageWord <+: types

namespace JavaSource

open Trivia

variable (source : JavaSource)

def text : List Char :=
  source.header ++ (textOf source.gap ++ source.types)

/-- The new import takes effect and breaks nothing: the source then has it, and it stands between the heading and the
first type, between comments and not in one. -/
structure TakesEffect (fqn : String) (edit : TextEdit) : Prop where
  known : isAlreadyInSource fqn (edit.applied source.text) = true
  lies : ∃ before behind, source.gap = before ++ behind ∧
    editorOffset source.text edit.range.start = (source.header ++ textOf before).length ∧
    edit.applied source.text =
      source.header ++ textOf before ++ edit.newText ++ (textOf behind ++ source.types) ∧
    (LeftOpen before → edit.newText.head? = some '\n')

/-- The text up to the end of the line, as the editor counts lines, goes as far as into the gap. -/
def EndsInGap (n : ℕ) (front : List Char) : Prop :=
  front = ((lines isLineBreak source.text).take (n + 1)).flatten ∧
    ∃ before behind, source.gap = before ++ behind ∧ front = source.header ++ textOf before

/-- The place for an import: the heading ends where the last line that begins as an import, or else as a package
declaration, does. -/
inductive HasImportPlace : Prop where
  | behindImport (n : ℕ) (front : List Char) : LastAt (startsWith importWord) (strLines source.text) n →
      source.EndsInGap n front → Blank (afterLast '\n' front) → HasImportPlace
  | behindPackage (n : ℕ) (front : List Char) : (∀ line ∈ strLines source.text, startsWith importWord line = false) →
      LastAt (startsWith packageWord) (strLines source.text) n → source.EndsInGap n front → HasImportPlace
  | first : (∀ line ∈ strLines source.text, startsWith importWord line = false) →
      (∀ line ∈ strLines source.text, startsWith packageWord line = false) → source.header = [] → HasImportPlace

end JavaSource

/-! ## What the edit is -/

theorem headingLines_eq (source : List Char) : headingLines source =
    (lastIndex (startsWith packageWord) (strLines source), lastIndex (startsWith importWord) (strLines source)) :=
  foldl_noteLast _ _

theorem editorOffset_line (text : List Char) (n : ℕ) :
    editorOffset text { line := n, character := 0 } = ((lines isLineBreak text).take n).flatten.length := by
  rw [editorOffset, Position.offset, atLine]
  cases hline : (lines isLineBreak text)[n]? with
  | none =>
    have hall : (lines isLineBreak text).take n = lines isLineBreak text :=
      List.take_of_length_le (List.getElem?_eq_none_iff.mp hline)
    rw [Option.bind_none, Option.getD_none, hall, lines_flatten]
  | some l =>
    cases l <;> rfl

theorem applied_insertAt (position : Position) (newText : List Char) {front back : List Char}
    (h : editorOffset (front ++ back) position = front.length) :
    (insertAt position newText).applied (front ++ back) = front ++ newText ++ back := by
  rw [TextEdit.applied, insertAt]
  dsimp only
  rw [Nat.sub_self, h]
  exact splice_append front back newText

theorem makeImportText_eq (fqn : ClassName) (source : List Char) : makeImportText fqn.text source =
    if (strLines source).any (startsWith importWord) then fqn.importStatement ++ ['\n']
    else '\n' :: fqn.importStatement ++ ['\n'] := by
  simp [makeImportText, ClassName.importStatement, ClassName.chars]

/-! ## The gap -/

namespace Trivia

theorem isWhitespace_of_isJavaBlank {c : Char} (h : isJavaBlank c = true) : isWhitespace c = true := by
  simp only [isJavaBlank, isLineBreak, Bool.or_eq_true, beq_iff_eq] at h
  rcases h with ((rfl | rfl) | rfl) | rfl | rfl <;> decide

theorem textOf_append (trivia more : List Trivia) : textOf (trivia ++ more) = textOf trivia ++ textOf more :=
  List.flatMap_append

/-- What stands in front of a place in the gap on its line is blank, or has the end of the heading or a comment. -/
theorem mark_of_not_blank {header : List Char} (hheader : header ≠ [] → header.getLast? = some ';')
    (trivia : List Trivia) (h : ¬Blank (afterLast '\n' (header ++ textOf trivia))) :
    ∃ c ∈ afterLast '\n' (header ++ textOf trivia), c = ';' ∨ c = '/' := by
  induction trivia using List.reverseRecOn with
  | nil =>
    rw [show textOf [] = [] from rfl, List.append_nil] at h ⊢
    have hne : header ≠ [] := by
      rintro rfl
      exact h blank_nil
    obtain ⟨front, rfl⟩ := List.getLast?_eq_some_iff.mp (hheader hne)
    rw [afterLast_append_of_notMem front (by decide)]
    exact ⟨';', by simp, .inl rfl⟩
  | append_singleton trivia t ih =>
    have hsplit : header ++ textOf (trivia ++ [t]) = header ++ textOf trivia ++ t.text := by
      rw [textOf_append, List.append_assoc, show textOf [t] = t.text from List.append_nil _]
    rw [hsplit] at h ⊢
    cases t with
    | blank c hc =>
      by_cases hfeed : c = '\n'
      · subst hfeed
        exact absurd (by rw [Trivia.text, afterLast_append_cons _ [] List.not_mem_nil]; exact blank_nil) h
      · have hnot : '\n' ∉ [c] := by simpa using fun h => hfeed h.symm
        rw [Trivia.text, afterLast_append_of_notMem _ hnot] at h ⊢
        have hbefore : ¬Blank (afterLast '\n' (header ++ textOf trivia)) := fun hblank => h fun d hd => by
          rcases List.mem_append.mp hd with hd | hd
          · exact hblank d hd
          · rw [List.mem_singleton.mp hd]
            exact isWhitespace_of_isJavaBlank hc
        obtain ⟨d, hd, hmark⟩ := ih hbefore
        exact ⟨d, List.mem_append_left _ hd, hmark⟩
    | lineComment body hbody =>
      have hnot : '\n' ∉ (lineComment body hbody).text := by
        rw [Trivia.text, List.mem_cons, List.mem_cons]
        rintro (h | h | h)
        · cases h
        · cases h
        · exact absurd (hbody _ h) (by decide)
      rw [afterLast_append_of_notMem _ hnot]
      exact ⟨'/', by simp [Trivia.text], .inr rfl⟩
    | blockComment body hbody =>
      have hsplit : header ++ textOf trivia ++ (blockComment body hbody).text =
          header ++ textOf trivia ++ ('/' :: '*' :: body) ++ ['*', '/'] := by
        simp [Trivia.text]
      rw [hsplit, afterLast_append_of_notMem _ (by decide)]
      exact ⟨'/', by simp, .inr rfl⟩

/-- The rest of the gap and the types behind it begin with no import. -/
theorem not_word_front {word types : List Char} (hword : ∀ c ∈ word.head?, isWhitespace c = false ∧ c ≠ '/')
    (hne : word ≠ []) (hbegin : ∀ c ∈ types.head?, isWhitespace c = false) (htypes : ¬word <+: types)
    (trivia : List Trivia) : ¬word <+: trimStart (textOf trivia ++ types) := by
  obtain ⟨d, rest, rfl⟩ := List.exists_cons_of_ne_nil hne
  have hslash : ∀ text, ¬(d :: rest) <+: trimStart ('/' :: text) := by
    intro text h
    rw [trimStart, List.dropWhile_cons_of_neg (by decide)] at h
    exact (hword d rfl).2 (List.cons_prefix_cons.mp h).1
  induction trivia with
  | nil =>
    intro h
    have hsame : trimStart types = types := by
      cases types with
      | nil => rfl
      | cons c types => exact List.dropWhile_cons_of_neg (by simp [hbegin c rfl])
    rw [show textOf [] ++ types = types from rfl, hsame] at h
    exact htypes h
  | cons t trivia ih =>
    rw [show textOf (t :: trivia) = t.text ++ textOf trivia from rfl, List.append_assoc]
    cases t with
    | blank c hc =>
      rw [trimStart_blank_append fun d hd => by
        rw [List.mem_singleton.mp hd]
        exact isWhitespace_of_isJavaBlank hc]
      exact ih
    | lineComment body => exact hslash _
    | blockComment body => exact hslash _

end Trivia

/-! ## Whether the new line is read -/

section Known

variable {fqn : ClassName}

theorem known_of_line {source line : List Char} (hline : line ∈ strLines source)
    (h : importOf line = some fqn.text) : isAlreadyInSource fqn.text source = true := by
  rw [isAlreadyInSource, Bool.not_eq_true', ← Bool.not_eq_true]
  intro hneeded
  have hall := (isImportNeeded_iff.mp hneeded).2.2.1
  exact (hall fqn.text (List.mem_filterMap.mpr ⟨line, hline, h⟩)).1 rfl

theorem line_of_statement {before : List Char} (hbefore : '\n' ∉ before) :
    '\n' ∉ before ++ fqn.importStatement ∧ (before ++ fqn.importStatement).getLast? ≠ some '\r' := by
  refine ⟨fun h => ?_, ?_⟩
  · rcases List.mem_append.mp h with h | h
    · exact hbefore h
    · exact fqn.lineFeed_not_mem_importStatement h
  · rw [ClassName.importStatement, ← List.append_assoc, List.getLast?_concat]
    decide

/-- The lines of the source once it has the statement. -/
theorem strLines_statement {front before : List Char} (hfront : Closed front) (hbefore : '\n' ∉ before)
    (back : List Char) : strLines (front ++ before ++ (fqn.importStatement ++ ['\n']) ++ back) =
      strLines front ++ (before ++ fqn.importStatement) :: strLines back := by
  obtain ⟨hfeed, hlast⟩ := @line_of_statement fqn _ hbefore
  rw [← strLines_closed_line hfront hfeed hlast]
  simp only [List.append_assoc, List.singleton_append]

theorem known_of_blank {front : List Char} (h : Blank (afterLast '\n' front)) (back : List Char) :
    isAlreadyInSource fqn.text (front ++ (fqn.importStatement ++ ['\n']) ++ back) = true := by
  obtain ⟨first, hsplit, hclosed, hfeed⟩ := exists_closed_front front
  have hlines := @strLines_statement fqn _ _ hclosed hfeed back
  rw [← hsplit] at hlines
  refine known_of_line ?_ (ClassName.importOf_statement h)
  rw [hlines]
  simp

theorem known_behind_lineFeed (front back : List Char) :
    isAlreadyInSource fqn.text (front ++ ('\n' :: fqn.importStatement ++ ['\n']) ++ back) = true := by
  have hblank : Blank (afterLast '\n' (front ++ ['\n'])) := by
    rw [afterLast_append_cons front [] List.not_mem_nil]
    exact blank_nil
  have hknown := @known_of_blank fqn _ hblank back
  rwa [List.append_assoc front ['\n'], List.singleton_append, ← List.cons_append] at hknown

theorem mem_trimStart {text : List Char} {c : Char} (h : c ∈ text) (hc : isWhitespace c = false) :
    c ∈ trimStart text := by
  have hsplit : text.takeWhile isWhitespace ++ trimStart text = text := List.takeWhile_append_dropWhile
  rw [← hsplit, List.mem_append] at h
  refine h.resolve_left fun hblank => ?_
  exact Bool.false_ne_true (hc.symm.trans (List.mem_takeWhile_imp hblank))

theorem word_of_packageOf {line : List Char} (h : (packageOf line).isSome = true) : packageWord <+: trim line := by
  obtain ⟨e, he⟩ := Option.isSome_iff_exists.mp h
  obtain ⟨text, htext, -⟩ := Option.map_eq_some_iff.mp (Option.filter_eq_some_iff.mp he).1
  obtain ⟨rest, hrest, -⟩ := behindWord_eq_some htext
  exact ⟨rest, hrest.symm⟩

theorem word_of_importOf {line : List Char} {imp : String} (h : importOf line = some imp) :
    importWord <+: trim line := by
  obtain ⟨text, htext, -⟩ := Option.map_eq_some_iff.mp (Option.filter_eq_some_iff.mp h).1
  obtain ⟨rest, hrest, -⟩ := behindWord_eq_some htext
  exact ⟨rest, hrest.symm⟩

variable {source : JavaSource} {before behind : List Trivia}

/-- The line on which the rest of the gap begins has no import and no package. -/
theorem nothing_on_first_line {line : List Char} {others : List (List Char)}
    (h : strLines (Trivia.textOf behind ++ source.types) = line :: others) :
    importOf line = none ∧ packageOf line = none := by
  have hbegin : ∀ c ∈ source.types.head?, isWhitespace c = false := fun c hc => (source.types_begin c hc).1
  have hfront := first_line_front h
  constructor
  · rw [Option.eq_none_iff_forall_ne_some]
    intro imp himp
    refine Trivia.not_word_front ?_ (by decide) hbegin source.types_word.1 behind
      (front_trimStart_of_front (word_of_importOf himp) (by decide) hfront)
    intro c hc
    rw [Option.mem_some.mp hc.symm]
    decide
  · rw [← Option.not_isSome_iff_eq_none]
    intro hsome
    refine Trivia.not_word_front ?_ (by decide) hbegin source.types_word.2 behind
      (front_trimStart_of_front (word_of_packageOf hsome) (by decide) hfront)
    intro c hc
    rw [Option.mem_some.mp hc.symm]
    decide

/-- The package read first is the same, or it is read off the line of the statement. -/
theorem package_of_crowded {front others : List (List Char)} {line crowded first : List Char}
    {rest : List (List Char)} (hrest : rest = [] ∨ ∃ more, rest = first :: more ∧ packageOf first = none)
    (hothers : others = rest.tail) (hline : (packageOf line).isSome = true → (packageOf crowded).isSome = true)
    {e : String} (h : (front ++ crowded :: rest).findSome? packageOf = some e) :
    (front ++ line :: others).findSome? packageOf = some e ∨ packageOf crowded = some e := by
  rw [List.findSome?_append, List.findSome?_cons] at h ⊢
  cases hfront : front.findSome? packageOf with
  | some e' =>
    rw [hfront] at h
    exact .inl h
  | none =>
    rw [hfront, Option.none_or] at h
    cases hcrowded : packageOf crowded with
    | some e' =>
      rw [hcrowded] at h
      exact .inr h
    | none =>
      have hnone : packageOf line = none := by
        rw [← Option.not_isSome_iff_eq_none]
        intro hsome
        have hboth := hline hsome
        rw [hcrowded] at hboth
        cases hboth
      rw [hcrowded] at h
      rw [Option.none_or, hnone, hothers]
      left
      rcases hrest with rfl | ⟨more, rfl, hfirst⟩
      · exact h
      · rw [List.findSome?_cons, hfirst] at h
        exact h

/-- A statement that shares its line with the heading or a comment is not read. -/
theorem not_known_of_crowded (hgap : source.gap = before ++ behind)
    (hneeded : isAlreadyInSource fqn.text source.text = false)
    (h : ¬Blank (afterLast '\n' (source.header ++ Trivia.textOf before))) :
    isAlreadyInSource fqn.text (source.header ++ Trivia.textOf before ++ (fqn.importStatement ++ ['\n']) ++
      (Trivia.textOf behind ++ source.types)) = false := by
  obtain ⟨mark, hmark, hchar⟩ := Trivia.mark_of_not_blank source.header_ends before h
  have htext : source.text = source.header ++ Trivia.textOf before ++ (Trivia.textOf behind ++ source.types) := by
    rw [JavaSource.text, hgap, Trivia.textOf_append]
    simp only [List.append_assoc]
  rw [htext] at hneeded
  have hfirst := fun line others => @nothing_on_first_line source behind line others
  generalize source.header ++ Trivia.textOf before = front at *
  generalize Trivia.textOf behind ++ source.types = back at *
  obtain ⟨lead, hsplit, hclosed, hfeed⟩ := exists_closed_front front
  -- The lines of the source with the statement and without it.
  have hafter := @strLines_statement fqn _ _ hclosed hfeed back
  have hbefore := strLines_append hclosed (afterLast '\n' front ++ back)
  rw [← List.append_assoc] at hbefore
  rw [← hsplit] at hafter hbefore
  obtain ⟨line, others, hline⟩ := List.exists_cons_of_ne_nil
    (@strLines_ne_nil (afterLast '\n' front ++ back) (by
      intro hnil
      rw [(List.append_eq_nil_iff.mp hnil).1] at h
      exact h blank_nil))
  have hothers : others = (strLines back).tail := by
    rw [← tail_strLines_append hfeed back, hline, List.tail_cons]
  rw [hline] at hbefore
  -- A package that was read on this line still is.
  have hpackage : (packageOf line).isSome = true →
      (packageOf (afterLast '\n' front ++ fqn.importStatement)).isSome = true := by
    intro hsome
    have hword := front_trimStart_of_front (word_of_packageOf hsome) (by decide) (first_line_front hline)
    rw [trimStart_append h] at hword
    have hblank : isWhitespace mark = false := by rcases hchar with rfl | rfl <;> decide
    have hnot : mark ∉ packageWord := by rcases hchar with rfl | rfl <;> decide
    exact ClassName.packageOf_crowded h (front_of_front_mark hword (mem_trimStart hmark hblank) hnot)
  have hrest : strLines back = [] ∨ ∃ more, strLines back = (strLines back).headD [] :: more ∧
      packageOf ((strLines back).headD []) = none := by
    cases hback : strLines back with
    | nil => exact .inl rfl
    | cons first more => exact .inr ⟨more, rfl, (hfirst first more hback).2⟩
  rw [isAlreadyInSource, Bool.not_eq_false', isImportNeeded_iff] at hneeded ⊢
  rw [extractImportsFromSource, extractPackageFromSource, hbefore] at hneeded
  rw [extractImportsFromSource, extractPackageFromSource, hafter]
  obtain ⟨hdot, hlang, himports, henclosing⟩ := hneeded
  refine ⟨hdot, hlang, fun imp himp => ?_, fun e he => ?_⟩
  · obtain ⟨l, hl, hread⟩ := List.mem_filterMap.mp himp
    rcases List.mem_append.mp hl with hl | hl
    · exact himports imp (List.mem_filterMap.mpr ⟨l, List.mem_append_left _ hl, hread⟩)
    rcases List.mem_cons.mp hl with rfl | hl
    · exact ClassName.not_covered_of_crowded h hread
    · cases hback : strLines back with
      | nil =>
        rw [hback] at hl
        exact absurd hl List.not_mem_nil
      | cons first more =>
        rw [hback] at hl
        rcases List.mem_cons.mp hl with rfl | hl
        · rw [(hfirst l more hback).1] at hread
          cases hread
        · refine himports imp (List.mem_filterMap.mpr ⟨l, List.mem_append_right _ (List.mem_cons_of_mem _ ?_), hread⟩)
          rwa [hothers, hback]
  · rcases package_of_crowded hrest hothers hpackage (Option.mem_def.mp he) with hsame | hcrowded
    · exact henclosing e hsame
    · exact ClassName.not_same_package_of_crowded h hcrowded

end Known

/-! ## When the import takes effect -/

namespace JavaSource

open Trivia

variable {source : JavaSource} {before behind : List Trivia}

theorem text_of_gap (hgap : source.gap = before ++ behind) :
    source.text = source.header ++ textOf before ++ (textOf behind ++ source.types) := by
  rw [text, hgap, textOf_append]
  simp only [List.append_assoc]

/-- Where the editor's line begins, if that is a place in the gap. -/
theorem offset_iff (hgap : source.gap = before ++ behind) (n : ℕ) :
    editorOffset source.text { line := n, character := 0 } = (source.header ++ textOf before).length ↔
      source.header ++ textOf before = ((lines isLineBreak source.text).take n).flatten := by
  rw [editorOffset_line]
  constructor
  · intro h
    have hfront : ((lines isLineBreak source.text).take n).flatten <+: source.text := by
      have hprefix := (List.take_prefix n (lines isLineBreak source.text)).flatten
      rwa [lines_flatten] at hprefix
    refine (List.prefix_of_prefix_length_le ⟨_, (text_of_gap hgap).symm⟩ hfront h.ge).eq_of_length h.symm
  · intro h
    rw [← h]

variable {fqn : ClassName}

/-- What is to be shown of a place in the gap. -/
theorem takesEffect_of_offset (hgap : source.gap = before ++ behind) {n : ℕ} {newText : List Char}
    (hoffset : editorOffset source.text { line := n, character := 0 } = (source.header ++ textOf before).length)
    (hknown : isAlreadyInSource fqn.text
      (source.header ++ textOf before ++ newText ++ (textOf behind ++ source.types)) = true)
    (hopen : LeftOpen before → newText.head? = some '\n') :
    source.TakesEffect fqn.text (insertAt { line := n, character := 0 } newText) := by
  have happlied : (insertAt { line := n, character := 0 } newText).applied source.text =
      source.header ++ textOf before ++ newText ++ (textOf behind ++ source.types) := by
    rw [text_of_gap hgap] at hoffset ⊢
    exact applied_insertAt _ _ hoffset
  exact ⟨by rwa [happlied], before, behind, hgap, hoffset, happlied, hopen⟩

/-- A comment to the end of the line is not blank. -/
theorem not_leftOpen_of_blank (h : Blank (afterLast '\n' (source.header ++ textOf before))) : ¬LeftOpen before := by
  rintro ⟨body, hbody, hlast⟩
  obtain ⟨trivia, rfl⟩ := List.getLast?_eq_some_iff.mp hlast
  have hsplit : source.header ++ textOf (trivia ++ [.lineComment body hbody]) =
      source.header ++ textOf trivia ++ '/' :: '/' :: body := by
    simp [textOf, Trivia.text]
  have hnot : '\n' ∉ '/' :: '/' :: body := by
    rw [List.mem_cons, List.mem_cons]
    rintro (h | h | h)
    · cases h
    · cases h
    · exact absurd (hbody _ h) (by decide)
  rw [hsplit, afterLast_append_of_notMem _ hnot] at h
  exact absurd (h '/' (by simp)) (by decide)

end JavaSource

section Lines

variable {source : List Char}

theorem findImportInsertLine_import {n : ℕ} (h : LastAt (startsWith importWord) (strLines source) n) :
    findImportInsertLine source = n + 1 := by
  rw [findImportInsertLine, headingLines_eq, lastIndex_eq_some.mpr h]

theorem findImportInsertLine_package {n : ℕ} (himport : ∀ line ∈ strLines source, startsWith importWord line = false)
    (h : LastAt (startsWith packageWord) (strLines source) n) : findImportInsertLine source = n + 1 := by
  rw [findImportInsertLine, headingLines_eq, lastIndex_eq_none.mpr himport, lastIndex_eq_some.mpr h]

theorem findImportInsertLine_none (himport : ∀ line ∈ strLines source, startsWith importWord line = false)
    (hpackage : ∀ line ∈ strLines source, startsWith packageWord line = false) : findImportInsertLine source = 0 := by
  rw [findImportInsertLine, headingLines_eq, lastIndex_eq_none.mpr himport, lastIndex_eq_none.mpr hpackage]

theorem makeImportText_some {fqn : ClassName} {n : ℕ} (h : LastAt (startsWith importWord) (strLines source) n) :
    makeImportText fqn.text source = fqn.importStatement ++ ['\n'] := by
  obtain ⟨⟨line, hline, hstarts⟩, -⟩ := h
  rw [makeImportText_eq, if_pos (List.any_eq_true.mpr ⟨line, List.mem_of_getElem? hline, hstarts⟩)]

theorem makeImportText_none {fqn : ClassName} (h : ∀ line ∈ strLines source, startsWith importWord line = false) :
    makeImportText fqn.text source = '\n' :: fqn.importStatement ++ ['\n'] := by
  rw [makeImportText_eq, if_neg]
  intro hany
  obtain ⟨line, hline, hstarts⟩ := List.any_eq_true.mp hany
  rw [h line hline] at hstarts
  cases hstarts

/-- The three cases of the loop. -/
theorem heading_cases (source : List Char) :
    (∃ n, LastAt (startsWith importWord) (strLines source) n) ∨
      (∀ line ∈ strLines source, startsWith importWord line = false) ∧
        ((∃ n, LastAt (startsWith packageWord) (strLines source) n) ∨
          ∀ line ∈ strLines source, startsWith packageWord line = false) := by
  have hcases : ∀ word, (∃ n, LastAt (startsWith word) (strLines source) n) ∨
      ∀ line ∈ strLines source, startsWith word line = false := by
    intro word
    cases hindex : lastIndex (startsWith word) (strLines source) with
    | none => exact .inr (lastIndex_eq_none.mp hindex)
    | some n => exact .inl ⟨n, lastIndex_eq_some.mp hindex⟩
  rcases hcases importWord with himport | himport
  · exact .inl himport
  · exact .inr ⟨himport, hcases packageWord⟩

end Lines

theorem edit_of_candidateToLsp {fqn : String} {source : List Char} {edit : TextEdit}
    (h : candidateToLsp (some fqn) source = some [edit]) : isAlreadyInSource fqn source = false ∧
      edit = insertAt { line := findImportInsertLine source, character := 0 } (makeImportText fqn source) := by
  obtain ⟨imp, himp, hedit⟩ := Option.map_eq_some_iff.mp h
  obtain ⟨heq, hneeded⟩ := Option.filter_eq_some_iff.mp himp
  obtain rfl := Option.some.inj heq
  exact ⟨by simpa using hneeded, (List.cons.inj hedit).1.symm⟩

/-- The import that a completion adds takes effect exactly when there is a place for it. -/
theorem import_takes_effect_iff (source : JavaSource) (fqn : ClassName) {edit : TextEdit}
    (h : candidateToLsp (some fqn.text) source.text = some [edit]) :
    source.TakesEffect fqn.text edit ↔ source.HasImportPlace := by
  obtain ⟨hneeded, rfl⟩ := edit_of_candidateToLsp h
  constructor
  · rintro ⟨hknown, before, behind, hgap, hoffset, happlied, -⟩
    rw [happlied] at hknown
    rcases heading_cases source.text with ⟨n, himport⟩ | ⟨himport, ⟨n, hpackage⟩ | hpackage⟩
    · rw [insertAt, findImportInsertLine_import himport] at hoffset
      refine .behindImport n _ himport ⟨(JavaSource.offset_iff hgap _).mp hoffset, before, behind, hgap, rfl⟩ ?_
      by_contra hcrowded
      rw [insertAt, makeImportText_some himport, not_known_of_crowded hgap hneeded hcrowded] at hknown
      cases hknown
    · rw [insertAt, findImportInsertLine_package himport hpackage] at hoffset
      exact .behindPackage n _ himport hpackage
        ⟨(JavaSource.offset_iff hgap _).mp hoffset, before, behind, hgap, rfl⟩
    · rw [insertAt, findImportInsertLine_none himport hpackage] at hoffset
      have hnil := (JavaSource.offset_iff hgap _).mp hoffset
      exact .first himport hpackage (List.append_eq_nil_iff.mp hnil).1
  · rintro (⟨n, front, himport, ⟨hfront, before, behind, hgap, heq⟩, hblank⟩ |
      ⟨n, front, himport, hpackage, hfront, before, behind, hgap, heq⟩ | ⟨himport, hpackage, hheader⟩)
    · rw [heq] at hfront hblank
      rw [findImportInsertLine_import himport, makeImportText_some himport]
      exact JavaSource.takesEffect_of_offset hgap ((JavaSource.offset_iff hgap _).mpr hfront)
        (known_of_blank hblank _) fun hopen => absurd hopen (JavaSource.not_leftOpen_of_blank hblank)
    · rw [heq] at hfront
      rw [findImportInsertLine_package himport hpackage, makeImportText_none himport]
      exact JavaSource.takesEffect_of_offset hgap ((JavaSource.offset_iff hgap _).mpr hfront)
        (known_behind_lineFeed _ _) fun _ => rfl
    · rw [findImportInsertLine_none himport hpackage, makeImportText_none himport]
      have hgap : source.gap = [] ++ source.gap := rfl
      refine JavaSource.takesEffect_of_offset hgap ((JavaSource.offset_iff hgap _).mpr ?_)
        (known_behind_lineFeed _ _) fun _ => rfl
      rw [hheader]
      rfl

/-- The class `b.D`. -/
def otherClass : ClassName :=
  ⟨"b.D", by decide, fun c hc => of_decide_eq_true (List.all_eq_true.mp (by decide +kernel :
    "b.D".toList.all (fun c => decide (isWhitespace c = false ∧ c ≠ ';' ∧ c ≠ '*')) = true) c hc)⟩

/-- A source whose heading is a package declaration on a line of its own, with a class behind it. -/
def packageSource (rest : List Char) : JavaSource where
  header := "package a;".toList
  gap := [.blank '\n' rfl]
  types := 'c' :: rest
  header_ends _ := by decide
  gap_ends := trivial
  types_begin c hc := by
    obtain rfl := Option.some.inj hc
    decide
  types_word := ⟨fun h => absurd (List.cons_prefix_cons.mp h).1 (by decide),
    fun h => absurd (List.cons_prefix_cons.mp h).1 (by decide)⟩

def textBlockSource : JavaSource :=
  packageSource "lass C \x7b\n String s = \"\"\"\n import x\n \"\"\";\n\x7d\n".toList

/-- The line of the text block takes the import. -/
theorem import_into_text_block : ¬∀ (source : JavaSource) (fqn : ClassName) (edit : TextEdit),
    candidateToLsp (some fqn.text) source.text = some [edit] → source.TakesEffect fqn.text edit := by
  intro h
  have hedit : candidateToLsp (some otherClass.text) textBlockSource.text =
      some [insertAt { line := 4, character := 0 } "import b.D;\n".toList] := by decide +kernel
  obtain ⟨-, before, behind, hgap, hoffset, -⟩ := h _ otherClass _ hedit
  have hplace : editorOffset textBlockSource.text { line := 4, character := 0 } = 47 := by decide +kernel
  have hlength := congrArg List.length (JavaSource.text_of_gap hgap)
  have hgapLength : (textBlockSource.header ++ Trivia.textOf textBlockSource.gap).length = 11 := by decide +kernel
  rw [hgap, Trivia.textOf_append, ← List.append_assoc, List.length_append] at hgapLength
  rw [insertAt, hplace] at hoffset
  omega

def plainSource : JavaSource :=
  packageSource "lass C \x7b\x7d".toList

theorem import_behind_package : plainSource.TakesEffect otherClass.text
    (insertAt { line := 1, character := 0 } "\nimport b.D;\n".toList) :=
  (import_takes_effect_iff plainSource otherClass (by decide +kernel)).mpr
    (.behindPackage 0 "package a;\n".toList (by decide +kernel) (lastIndex_eq_some.mp (by decide +kernel))
      ⟨by decide +kernel, [.blank '\n' rfl], [], rfl, by decide +kernel⟩)

end JavaAnalyzer.Lsp
