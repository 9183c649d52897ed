import JavaAnalyzer.Library.LineColumns
import JavaAnalyzer.Lsp.DefinitionRange

/-! # The edits that the tree is told of

Each ranged change of `did_change` tells the syntax tree where it begins, where the old text ends and where the new
one does. Rows and columns of the old ends come from the rope's lines; tree-sitter counts rows by line feeds. -/

namespace JavaAnalyzer.Lsp
set_option autoImplicit false
open TextLines TextPlaces Splice Text JavaAnalyzer.Language

/-- The edit of a change, as `contentChange` makes it. -/
def inputEdit (isBreak : Char → Bool) (rope : Rope) (range : Range) (inserted : List Char) (startByte oldEndByte : ℕ) :
    InputEdit :=
  let startPosition : Point :=
    { row := range.start.line, column := startByte - rope.lineToByte isBreak range.start.line }
  { startByte := startByte
    oldEndByte := oldEndByte
    newEndByte := startByte + byteLength inserted
    startPosition := startPosition
    oldEndPosition := { row := range.stop.line, column := oldEndByte - rope.lineToByte isBreak range.stop.line }
    newEndPosition := pointAfterInsertBytes startPosition.row startPosition.column inserted }

/-- The rows and columns of the edit are those of its bytes. -/
def InputEdit.Describes (edit : InputEdit) (old new : List Char) (start stop newStop : ℕ) : Prop :=
  edit.startPosition = pointBehind (old.take start) ∧ edit.oldEndPosition = pointBehind (old.take stop) ∧
    edit.newEndPosition = pointBehind (new.take newStop)

/-- Every line above the position ends in a line feed, and the position is not behind one of its own line. -/
def Position.FollowsLineFeeds (isBreak : Char → Bool) (text : List Char) (position : Position) : Prop :=
  (∀ l ∈ (lines isBreak text).take position.line, '\n' ∈ l) ∧
    ∀ l, (lines isBreak text)[position.line]? = some l → '\n' ∈ l → position.character ≤ utf16Units l.dropLast

section Points

variable {isBreak : Char → Bool}

theorem pointBehind_eq_iff {front : List Char} {row column : ℕ} :
    (⟨row, column⟩ : Point) = pointBehind front ↔ bytePlace front = (row, column) := by
  rw [pointBehind, Point.mk.injEq, bytePlace, Prod.mk.injEq]
  exact and_congr eq_comm eq_comm

/-- The inserted text moves a point as it moves the place. -/
theorem pointAfterInsertBytes_eq (front inserted : List Char) :
    pointAfterInsertBytes (pointBehind front).row (pointBehind front).column inserted =
      pointBehind (front ++ inserted) := by
  rw [pointAfterInsertBytes]
  split_ifs with hempty hfeed
  · rw [List.isEmpty_iff.mp hempty, List.append_nil]
  · have hmem : '\n' ∈ inserted := by simpa using hfeed
    have hcolumn : byteLength (inserted.reverse.takeWhile (· != '\n')) = byteLength (afterLast '\n' inserted) := by
      rw [afterLast, byteLength, byteLength, List.map_reverse, List.sum_reverse]
      simp only [bne, beq_eq_decide, ne_eq, decide_not]
    rw [pointBehind, pointBehind, afterLast_append_of_mem front hmem, List.count_append, hcolumn]
  · have hnot : '\n' ∉ inserted := by simpa using hfeed
    rw [pointBehind, pointBehind, afterLast_append_of_notMem front hnot, List.count_append,
      List.count_eq_zero.mpr hnot, byteLength_append]
    rfl

/-- The walk passes the line feed of its line when the column is behind what stands before it. -/
theorem lineFeed_walked_iff (hlf : isBreak '\n' = true) {text l : List Char} {line character : ℕ}
    (hl : (lines isBreak text)[line]? = some l) :
    '\n' ∉ l.take (columnWalk l character) ↔ ('\n' ∈ l → character ≤ utf16Units l.dropLast) := by
  have hlast := lineFeed_notMem_dropLast hlf (List.mem_of_getElem? hl)
  by_cases hmem : '\n' ∈ l
  · have hpos := List.length_pos_of_mem hmem
    rw [forall_prop_of_true hmem, List.dropLast_eq_take]
    have hwalk := @columnWalk_le_iff l character _ (Nat.sub_le l.length 1)
    rw [or_iff_left (by omega)] at hwalk
    rw [← hwalk]
    constructor
    · intro hnot
      by_contra hle
      rw [List.take_of_length_le (by omega)] at hnot
      exact hnot hmem
    · intro hle hfeed
      rw [List.dropLast_eq_take] at hlast
      exact hlast ((List.take_prefix_take_left hle).subset hfeed)
  · exact iff_of_true (fun h => hmem (List.mem_of_mem_take h)) fun h => absurd h hmem

/-- Where the walk ends, rows and columns of the rope are those of the text. -/
theorem walked_point_iff (hlf : isBreak '\n' = true) {rope : Rope} {position : Position} {n : ℕ}
    (h : position.walked isBreak rope.chars = some n) :
    (⟨position.line, byteLength (rope.chars.take n) - rope.lineToByte isBreak position.line⟩ : Point) =
        pointBehind (rope.chars.take n) ↔
      position.FollowsLineFeeds isBreak rope.chars := by
  obtain ⟨l, hl, rfl⟩ := walk_eq_some_iff.mp h
  have htake := take_lineStart_add hl (columnWalk_le_length l position.character)
  rw [lines_flatten] at htake
  have hcolumn : byteLength (((lines isBreak rope.chars).take position.line).flatten ++
      l.take (columnWalk l position.character)) - rope.lineToByte isBreak position.line =
        byteLength (l.take (columnWalk l position.character)) := by
    rw [byteLength_append, Rope.lineToByte, Nat.add_sub_cancel_left]
  have hrow : ((lines isBreak rope.chars).take position.line).length = position.line :=
    List.length_take_of_le (List.getElem?_eq_some_iff.mp hl).1.le
  have hfeeds : ∀ k ∈ (lines isBreak rope.chars).take position.line, '\n' ∉ k.dropLast :=
    fun k hk => lineFeed_notMem_dropLast hlf (List.mem_of_mem_take hk)
  have hplace := @bytePlace_line_iff _ (l.take (columnWalk l position.character)) hfeeds
  rw [hrow, lineFeed_walked_iff hlf hl] at hplace
  rw [htake, hcolumn, pointBehind_eq_iff, hplace, Position.FollowsLineFeeds, hl]
  simp only [Option.some.injEq, forall_eq']

end Points

section Change

variable {Tree : Type} {libraries : Libraries Tree} {lang : Language Tree} {source : SourceFile Tree} {newVersion : ℤ}

theorem replaceRange_le {text inserted next : List Char} {start stop : ℕ} (hstart : start ≤ text.length)
    (hstop : stop ≤ text.length)
    (h : replaceRange text (byteLength (text.take start)) (byteLength (text.take stop)) inserted = some next) :
    start ≤ stop := by
  rw [replaceRange, charAtByte_take text hstart, charAtByte_take text hstop] at h
  by_contra hle
  simp [hle] at h

/-- What a change does that is neither skipped nor a panic. -/
theorem contentChange_applied {state next : Editing Tree} (hstate : state.Parallel)
    {ch : TextDocumentContentChangeEvent} {range : Range} (hrange : ch.range = some range) {start stop : ℕ}
    (hstart : range.start.walked libraries.isRopeBreak state.text = some start)
    (hstop : range.stop.walked libraries.isRopeBreak state.text = some stop)
    (h : contentChange libraries lang source newVersion state ch = some (.editing next)) :
    start ≤ stop ∧ stop ≤ state.text.length ∧ next.Parallel ∧
      next.text = splice state.text start (stop - start) ch.text ∧
      next.tree = libraries.editTree state.tree (inputEdit libraries.isRopeBreak state.rope range ch.text
        (byteLength (state.text.take start)) (byteLength (state.text.take stop))) := by
  unfold contentChange at h
  rw [hrange] at h
  dsimp only at h
  rw [ropeLineColToOffset_walked, ropeLineColToOffset_walked, hstate, hstart, hstop] at h
  have hin := walk_le_length hstop
  obtain ⟨text, htext, h⟩ := Option.bind_eq_some_iff.mp h
  have hle := replaceRange_le (walk_le_length hstart) hin htext
  have hchar : ∀ n ≤ state.text.length, state.rope.byteToChar (byteLength (state.text.take n)) = some n := by
    intro n hn
    apply Rope.byteToChar_of_charAtByte
    rw [hstate]
    exact charAtByte_take _ hn
  obtain ⟨startChar, hstartChar, h⟩ := Option.bind_eq_some_iff.mp h
  obtain ⟨oldEndChar, hstopChar, h⟩ := Option.bind_eq_some_iff.mp h
  obtain rfl : start = startChar := by simpa [hchar start (walk_le_length hstart)] using hstartChar
  obtain rfl : stop = oldEndChar := by simpa [hchar stop hin] using hstopChar
  obtain ⟨removed, hremoved, h⟩ := Option.bind_eq_some_iff.mp h
  obtain ⟨rope, hrope, h⟩ := Option.bind_eq_some_iff.mp h
  have hspliced := rope_replace_chars ch.text hle (hin.trans_eq (congrArg List.length hstate).symm)
  rw [hremoved, Option.bind_some, hrope, Option.some.injEq] at hspliced
  cases h
  rw [replaceRange_chars ch.text hle hin] at htext
  cases htext
  refine ⟨hle, hin, ?_, rfl, rfl⟩
  rw [Editing.Parallel, hspliced, hstate]

theorem contentChange_parallel {state next : Editing Tree} (hstate : state.Parallel)
    {ch : TextDocumentContentChangeEvent}
    (h : contentChange libraries lang source newVersion state ch = some (.editing next)) : next.Parallel := by
  cases hrange : ch.range with
  | none =>
    rw [contentChange_whole hrange] at h
    cases h
  | some range =>
    cases hstart : range.start.walked libraries.isRopeBreak state.text with
    | none =>
      rw [contentChange, hrange] at h
      dsimp only at h
      rw [ropeLineColToOffset_walked, hstate, hstart] at h
      cases h
      exact hstate
    | some start =>
      cases hstop : range.stop.walked libraries.isRopeBreak state.text with
      | none =>
        rw [contentChange, hrange] at h
        dsimp only at h
        rw [ropeLineColToOffset_walked, ropeLineColToOffset_walked, hstate, hstart, hstop] at h
        cases h
        exact hstate
      | some stop => exact (contentChange_applied hstate hrange hstart hstop h).2.2.1

theorem contentChanges_editing {changes : List TextDocumentContentChangeEvent} {state next : Editing Tree}
    (hstate : state.Parallel)
    (h : contentChanges libraries lang source newVersion state changes = some (.editing next)) : next.Parallel := by
  induction changes generalizing state with
  | nil =>
    cases h
    exact hstate
  | cons ch rest ih =>
    rw [contentChanges] at h
    split at h
    · cases h
    · cases h
    · rename_i step hstep
      exact ih (contentChange_parallel hstate hstep) h

/-- In every run of changes, an applied change tells the tree the bytes of its ends, and their rows and columns exactly
when each end of its range comes behind lines that end in line feeds only, and is not behind one of its own line. -/
theorem tree_edit_iff (hlf : libraries.isRopeBreak '\n' = true) {tree : Tree}
    {before : List TextDocumentContentChangeEvent} {state next : Editing Tree}
    (hrun : contentChanges libraries lang source newVersion (source.editing tree) before = some (.editing state))
    {ch : TextDocumentContentChangeEvent} {range : Range} (hrange : ch.range = some range) {start stop : ℕ}
    (hstart : range.start.walked libraries.isRopeBreak state.text = some start)
    (hstop : range.stop.walked libraries.isRopeBreak state.text = some stop)
    (happlied : contentChange libraries lang source newVersion state ch = some (.editing next)) :
    let edit := inputEdit libraries.isRopeBreak state.rope range ch.text (byteLength (state.text.take start))
      (byteLength (state.text.take stop))
    next.tree = libraries.editTree state.tree edit ∧
      edit.newEndByte = byteLength (next.text.take (start + ch.text.length)) ∧
      (edit.Describes state.text next.text start stop (start + ch.text.length) ↔
        range.start.FollowsLineFeeds libraries.isRopeBreak state.text ∧
          range.stop.FollowsLineFeeds libraries.isRopeBreak state.text) := by
  have hfirst : (source.editing tree).Parallel := source.rope_chars
  have hstate : state.Parallel := contentChanges_editing hfirst hrun
  obtain ⟨hle, hin, -, htext, htree⟩ := contentChange_applied hstate hrange hstart hstop happlied
  have hnew : next.text.take (start + ch.text.length) = state.text.take start ++ ch.text := by
    have hlen : (state.text.take start).length = start := List.length_take_of_le (hle.trans hin)
    rw [htext, splice]
    exact List.take_left' (by rw [List.length_append, hlen])
  refine ⟨htree, by rw [hnew, byteLength_append]; rfl, ?_⟩
  rw [← hstate] at hstart hstop
  have hbegin := walked_point_iff hlf hstart
  have hend := walked_point_iff hlf hstop
  rw [hstate] at hbegin hend
  rw [InputEdit.Describes, ← hbegin, ← hend, hnew]
  constructor
  · exact fun h => ⟨h.1, h.2.1⟩
  · rintro ⟨hfirst, hlast⟩
    refine ⟨hfirst, hlast, ?_⟩
    rw [← pointAfterInsertBytes_eq, ← hfirst]
    rfl

end Change

instance (edit : InputEdit) (old new : List Char) (start stop newStop : ℕ) :
    Decidable (edit.Describes old new start stop newStop) :=
  inferInstanceAs (Decidable (_ ∧ _ ∧ _))

/-- `a` and `b` with a break between them. -/
def twoLines (lineBreak : Char) : SourceFile Unit :=
  .new "file:///A.java" "java" 1 ['a', lineBreak, 'b'] (some ())

/-- The `b` is taken out. -/
def deleteSecond : TextDocumentContentChangeEvent where
  range := some { start := { line := 1, character := 0 }, stop := { line := 1, character := 1 } }
  text := []

/-- The edit says that the `b` begins the second row, where the text has it in the first. -/
theorem carriage_return_counted :
    (contentChanges plainLibraries plainLanguage (twoLines '\r') 2 ((twoLines '\r').editing ()) [deleteSecond]).map
        Progress.text = some ['a', '\r'] ∧
      ¬ (inputEdit isUnicodeLineBreak (twoLines '\r').rope ⟨⟨1, 0⟩, ⟨1, 1⟩⟩ [] 2 3).Describes ['a', '\r', 'b']
        ['a', '\r'] 2 3 2 := by
  decide

/-- Behind a line feed it does begin the second row. -/
theorem line_feed_counted :
    let edit := inputEdit isUnicodeLineBreak (twoLines '\n').rope ⟨⟨1, 0⟩, ⟨1, 1⟩⟩ [] 2 3
    () = plainLibraries.editTree () edit ∧ edit.newEndByte = 2 ∧
      (edit.Describes ['a', '\n', 'b'] ['a', '\n'] 2 3 2 ↔
        Position.FollowsLineFeeds isUnicodeLineBreak ['a', '\n', 'b'] ⟨1, 0⟩ ∧
          Position.FollowsLineFeeds isUnicodeLineBreak ['a', '\n', 'b'] ⟨1, 1⟩) :=
  @tree_edit_iff Unit plainLibraries plainLanguage (twoLines '\n') 2 rfl () [] ((twoLines '\n').editing ())
    ⟨['a', '\n'], ⟨['a', '\n']⟩, ()⟩ rfl deleteSecond _ rfl 2 3 (by decide) (by decide) rfl

end JavaAnalyzer.Lsp
