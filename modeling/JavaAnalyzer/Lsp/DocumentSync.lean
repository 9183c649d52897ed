import JavaAnalyzer.Language.RopeUtils
import JavaAnalyzer.Library.Splice

/-! # Incremental document sync

`did_change` of `lsp/server.rs`: the content changes of a notification are made one after another, each
on the text as the ones before it left it, on the document's text and on the rope beside it, and the
syntax tree is told of each. The parser and the tree are tree-sitter's and the rope is ropey's: what the
repository uses of them are the fields of `Language` and `Libraries`. -/

namespace JavaAnalyzer.Lsp
set_option autoImplicit false
open TextLines Splice JavaAnalyzer.Language

/-! ## What the protocol says of a change -/

structure Position where
  line : ℕ
  character : ℕ
deriving DecidableEq, Repr

structure Range where
  start : Position
  stop : Position
deriving DecidableEq, Repr

structure TextDocumentContentChangeEvent where
  range : Option Range
  text : List Char
deriving DecidableEq, Repr

/-- A line ends with a line feed, a carriage return, or the one after the other. -/
def isLineBreak (c : Char) : Bool :=
  c == '\n' || c == '\r'

/-- The characters before a position of the text. -/
def Position.offset (text : List Char) (position : Position) : Option ℕ :=
  atLine isLineBreak text position.line (columnAt isLineBreak · position.character)

def Position.NotAfter (position other : Position) : Prop :=
  position.line < other.line ∨ position.line = other.line ∧ position.character ≤ other.character

instance (position other : Position) : Decidable (position.NotAfter other) := by
  unfold Position.NotAfter
  infer_instance

/-- The text after a change, if the change's range is one of the text. -/
def TextDocumentContentChangeEvent.apply (text : List Char) (ch : TextDocumentContentChangeEvent) :
    Option (List Char) :=
  match ch.range with
  | none => some ch.text
  | some range =>
    if range.start.NotAfter range.stop then
      (range.start.offset text).bind fun start =>
        (range.stop.offset text).map fun stop => splice text start (stop - start) ch.text
    else none

/-- The text after the changes in order. -/
def applyChanges (text : List Char) : List TextDocumentContentChangeEvent → Option (List Char)
  | [] => some text
  | ch :: rest => (ch.apply text).bind fun next => applyChanges next rest

/-! ## The document and its source -/

structure Point where
  row : ℕ
  column : ℕ
deriving DecidableEq, Repr

structure InputEdit where
  startByte : ℕ
  oldEndByte : ℕ
  newEndByte : ℕ
  startPosition : Point
  oldEndPosition : Point
  newEndPosition : Point
deriving DecidableEq, Repr

/-- A registered language: its parser, which may reuse an old tree. -/
structure Language (Tree : Type) where
  parse : List Char → Option Tree → Option Tree

structure Libraries (Tree : Type) where
  isRopeBreak : Char → Bool
  editTree : Tree → InputEdit → Tree

/-- The rope is built from the text, so a source whose rope holds another text does not exist. -/
structure SourceFile (Tree : Type) where
  uri : String
  languageId : String
  version : ℤ
  text : List Char
  rope : Rope
  tree : Option Tree
  rope_eq : rope = Rope.fromStr text

def SourceFile.new {Tree : Type} (uri languageId : String) (version : ℤ) (text : List Char)
    (tree : Option Tree) : SourceFile Tree where
  uri := uri
  languageId := languageId
  version := version
  text := text
  rope := Rope.fromStr text
  tree := tree
  rope_eq := rfl

structure Document (Tree : Type) where
  source : SourceFile Tree

def Document.updateSource {Tree : Type} (doc : Document Tree) (source : SourceFile Tree) :
    Document Tree :=
  { doc with source := source }

/-! ## The changes -/

def pointAfterInsertBytes (startRow startColBytes : ℕ) (inserted : List Char) : Point :=
  if inserted.isEmpty then { row := startRow, column := startColBytes }
  else if inserted.contains '\n' then
    { row := startRow + inserted.count '\n'
      column := byteLength (inserted.reverse.takeWhile (· != '\n')) }
  else { row := startRow, column := startColBytes + byteLength inserted }

/-- `String::replace_range`, which panics unless both bytes begin a character, in this order. -/
def replaceRange (text : List Char) (startByte stopByte : ℕ) (replacement : List Char) :
    Option (List Char) := do
  let start ← charAtByte text startByte
  let stop ← charAtByte text stopByte
  if start ≤ stop then some (text.take start ++ replacement ++ text.drop stop) else none

section DidChange

variable {Tree : Type} (libraries : Libraries Tree) (lang : Language Tree)

/-- What the loop changes. -/
structure Editing (Tree : Type) where
  text : List Char
  rope : Rope
  tree : Tree

/-- The loop goes on, or a change of the whole document has put a source in place and ended it. -/
inductive Progress (Tree : Type)
  | editing (state : Editing Tree)
  | replaced (source : SourceFile Tree)

/-- One change; `none` is a panic. -/
def contentChange (source : SourceFile Tree) (newVersion : ℤ) (state : Editing Tree)
    (ch : TextDocumentContentChangeEvent) : Option (Progress Tree) :=
  match ch.range with
  | none =>
    some (.replaced
      (SourceFile.new source.uri source.languageId newVersion ch.text (lang.parse ch.text none)))
  | some range =>
    match ropeLineColToOffset libraries.isRopeBreak state.rope range.start.line
        range.start.character with
    | none => some (.editing state)
    | some startByte =>
      match ropeLineColToOffset libraries.isRopeBreak state.rope range.stop.line
          range.stop.character with
      | none => some (.editing state)
      | some oldEndByte => do
        let startLineByte := state.rope.lineToByte libraries.isRopeBreak range.start.line
        let endLineByte := state.rope.lineToByte libraries.isRopeBreak range.stop.line
        let startPosition : Point :=
          { row := range.start.line, column := startByte - startLineByte }
        let oldEndPosition : Point :=
          { row := range.stop.line, column := oldEndByte - endLineByte }
        let text ← replaceRange state.text startByte oldEndByte ch.text
        let startChar ← state.rope.byteToChar startByte
        let oldEndChar ← state.rope.byteToChar oldEndByte
        let removed ← state.rope.remove startChar oldEndChar
        let rope ← removed.insert startChar ch.text
        let edit : InputEdit :=
          { startByte := startByte
            oldEndByte := oldEndByte
            newEndByte := startByte + byteLength ch.text
            startPosition := startPosition
            oldEndPosition := oldEndPosition
            newEndPosition :=
              pointAfterInsertBytes startPosition.row startPosition.column ch.text }
        some (.editing { text := text, rope := rope, tree := libraries.editTree state.tree edit })

/-- The changes one after another, up to the first one of the whole document. -/
def contentChanges (source : SourceFile Tree) (newVersion : ℤ) :
    Editing Tree → List TextDocumentContentChangeEvent → Option (Progress Tree)
  | state, [] => some (.editing state)
  | state, ch :: rest =>
    match contentChange libraries lang source newVersion state ch with
    | none => none
    | some (.replaced replacement) => some (.replaced replacement)
    | some (.editing next) => contentChanges source newVersion next rest

def baseTree (source : SourceFile Tree) : Option Tree :=
  match source.tree with
  | some tree => some tree
  | none => lang.parse source.text none

def SourceFile.editing (source : SourceFile Tree) (tree : Tree) : Editing Tree :=
  { text := source.text, rope := source.rope, tree := tree }

/-- The source that the document gets; the inner `none` is a document without a tree. -/
def changedSource (source : SourceFile Tree) (newVersion : ℤ)
    (changes : List TextDocumentContentChangeEvent) : Option (Option (SourceFile Tree)) :=
  match baseTree lang source with
  | none => some none
  | some tree =>
    match contentChanges libraries lang source newVersion (source.editing tree) changes with
    | none => none
    | some (.replaced replacement) => some (some replacement)
    | some (.editing state) =>
      some (some (SourceFile.new source.uri source.languageId newVersion state.text
        (lang.parse state.text (some state.tree))))

end DidChange

structure DidChangeTextDocumentParams where
  uri : String
  version : ℤ
  contentChanges : List TextDocumentContentChangeEvent

/-- The documents after the notification, and the reindex that it schedules. -/
def didChange {Tree : Type} (libraries : Libraries Tree) (registry : String → Option (Language Tree))
    (documents : String → Option (Document Tree)) (params : DidChangeTextDocumentParams) :
    Option ((String → Option (Document Tree)) × Option (String × ℤ)) :=
  match documents params.uri with
  | none => some (documents, none)
  | some doc =>
    match registry doc.source.languageId with
    | none => some (documents, none)
    | some lang =>
      match changedSource libraries lang doc.source params.version params.contentChanges with
      | none => none
      | some none => some (documents, none)
      | some (some source) =>
        some (Function.update documents params.uri (some (doc.updateSource source)),
          some (params.uri, params.version))

/-! ## One change -/

section Change

variable {Tree : Type} {libraries : Libraries Tree} {lang : Language Tree} {source : SourceFile Tree}
  {newVersion : ℤ}

/-- The place where the walk along the rope ends. -/
def Position.walked (isBreak : Char → Bool) (text : List Char) (position : Position) : Option ℕ :=
  atLine isBreak text position.line fun l => some (columnWalk l position.character)

theorem ropeLineColToOffset_walked (isBreak : Char → Bool) (rope : Rope) (position : Position) :
    ropeLineColToOffset isBreak rope position.line position.character =
      (position.walked isBreak rope.chars).map fun n => byteLength (rope.chars.take n) :=
  ropeLineColToOffset_eq isBreak rope position.line position.character

/-- The text and the rope hold the same characters. -/
def Editing.Parallel (state : Editing Tree) : Prop :=
  state.rope.chars = state.text

theorem SourceFile.rope_chars (source : SourceFile Tree) : source.rope.chars = source.text := by
  rw [source.rope_eq]
  rfl

theorem replaceRange_chars {text : List Char} (replacement : List Char) {start stop : ℕ}
    (hle : start ≤ stop) (hstop : stop ≤ text.length) :
    replaceRange text (byteLength (text.take start)) (byteLength (text.take stop)) replacement =
      some (splice text start (stop - start) replacement) := by
  have hstart := charAtByte_take text (Nat.le_trans hle hstop)
  have hsum : start + (stop - start) = stop := by omega
  simp [replaceRange, hstart, charAtByte_take text hstop, hle, splice, hsum]

theorem rope_replace_chars {rope : Rope} (replacement : List Char) {start stop : ℕ}
    (hle : start ≤ stop) (hstop : stop ≤ rope.chars.length) :
    (rope.remove start stop).bind (fun removed => removed.insert start replacement) =
      some ⟨splice rope.chars start (stop - start) replacement⟩ := by
  have hstart : start ≤ rope.chars.length := Nat.le_trans hle hstop
  have hsum : start + (stop - start) = stop := by omega
  have hlength : (rope.chars.take start).length = start := by
    rw [List.length_take, Nat.min_eq_left hstart]
  have htake : (rope.chars.take start ++ rope.chars.drop stop).take start =
      rope.chars.take start := List.take_left' hlength
  have hdrop : (rope.chars.take start ++ rope.chars.drop stop).drop start =
      rope.chars.drop stop := List.drop_left' hlength
  have hfits : start ≤ (rope.chars.take start ++ rope.chars.drop stop).length := by
    rw [List.length_append, hlength]
    omega
  rw [Rope.remove, if_pos ⟨hle, hstop⟩, Option.bind_some, Rope.insert, if_pos hfits, htake, hdrop,
    splice, hsum]

variable (libraries lang source newVersion) in
/-- A change of a range is skipped, or splices the text and the rope at the same characters. -/
theorem contentChange_ranged {state : Editing Tree} (hstate : state.Parallel)
    {ch : TextDocumentContentChangeEvent} {range : Range} (hrange : ch.range = some range)
    (horder : range.start.NotAfter range.stop) :
    ∃ next, contentChange libraries lang source newVersion state ch = some (.editing next) ∧
      next.Parallel ∧
      ∀ start stop, range.start.walked libraries.isRopeBreak state.text = some start →
        range.stop.walked libraries.isRopeBreak state.text = some stop →
          start ≤ stop ∧ next.text = splice state.text start (stop - start) ch.text := by
  unfold contentChange
  rw [hrange]
  dsimp only
  rw [ropeLineColToOffset_walked, ropeLineColToOffset_walked, hstate]
  cases hstart : range.start.walked libraries.isRopeBreak state.text with
  | none => exact ⟨state, rfl, hstate, fun _ _ h => (by cases h)⟩
  | some start =>
    cases hstop : range.stop.walked libraries.isRopeBreak state.text with
    | none => exact ⟨state, rfl, hstate, fun _ _ _ h => (by cases h)⟩
    | some stop =>
      have hle : start ≤ stop := walk_mono horder hstart hstop
      have hlength : stop ≤ state.text.length := walk_le_length hstop
      have hstartChar : state.rope.byteToChar (byteLength (state.text.take start)) = some start := by
        apply Rope.byteToChar_of_charAtByte
        rw [hstate]
        exact charAtByte_take _ (Nat.le_trans hle hlength)
      have hstopChar : state.rope.byteToChar (byteLength (state.text.take stop)) = some stop := by
        apply Rope.byteToChar_of_charAtByte
        rw [hstate]
        exact charAtByte_take _ hlength
      have hrope := rope_replace_chars ch.text hle (by rw [hstate]; exact hlength)
      obtain ⟨removed, hremove, hinsert⟩ := Option.bind_eq_some_iff.mp hrope
      have htext := replaceRange_chars ch.text hle hlength
      simp only [Option.map_some, htext, hstartChar, hstopChar, hremove, hinsert, bind,
        Option.bind_some]
      refine ⟨_, rfl, ?_, ?_⟩
      · rw [Editing.Parallel, hstate]
      · intro start' stop' hstart' hstop'
        cases hstart'
        cases hstop'
        exact ⟨hle, rfl⟩

end Change

/-! ## Where the two readings of a position agree -/

theorem Position.offset_le_length {text : List Char} {position : Position} {n : ℕ}
    (h : position.offset text = some n) : n ≤ text.length :=
  walk_le_length (walk_eq_of_columnAt rfl (fun _ => id) text position.line position.character n h
    fun _ _ => id)

/-- The rope has the position at the byte where the protocol has it. -/
def Position.SamePlace (isBreak : Char → Bool) (text : List Char) (position : Position) : Prop :=
  ropeLineColToOffset isBreak (Rope.fromStr text) position.line position.character =
    (position.offset text).map fun n => byteLength (text.take n)

theorem Position.SamePlace.walked {isBreak : Char → Bool} {text : List Char} {position : Position}
    (h : position.SamePlace isBreak text) {n : ℕ} (hn : position.offset text = some n) :
    position.walked isBreak text = some n := by
  rw [Position.SamePlace, ropeLineColToOffset_walked, hn, Option.map_some] at h
  obtain ⟨m, hm, hbytes⟩ := Option.map_eq_some_iff.mp h
  have hchars : charAtByte text (byteLength (text.take m)) = some m :=
    charAtByte_take text (walk_le_length hm)
  have hbytes : byteLength (text.take m) = byteLength (text.take n) := hbytes
  rw [hbytes, charAtByte_take text (Position.offset_le_length hn), Option.some.injEq] at hchars
  rw [hchars]
  exact hm

example : ¬ Position.SamePlace (fun c => isLineBreak c || c == '\x0c') ['\x0c', '\n', 'a']
    { line := 1, character := 0 } := by
  unfold Position.SamePlace
  decide

/-- Every range, on the text that the changes before it leave, begins and ends for the rope where it
does for the protocol. -/
def SamePlaces (isBreak : Char → Bool) :
    List Char → List TextDocumentContentChangeEvent → Prop
  | _, [] => True
  | text, ch :: rest =>
    (∀ range, ch.range = some range →
      range.start.SamePlace isBreak text ∧ range.stop.SamePlace isBreak text) ∧
    ∀ next, ch.apply text = some next → SamePlaces isBreak next rest

/-! ## All the changes -/

section Changes

variable {Tree : Type} {libraries : Libraries Tree} {lang : Language Tree} {source : SourceFile Tree}
  {newVersion : ℤ}

def Progress.Parallel : Progress Tree → Prop
  | .editing state => state.Parallel
  | .replaced replacement => replacement.rope.chars = replacement.text

def Progress.text : Progress Tree → List Char
  | .editing state => state.text
  | .replaced replacement => replacement.text

def Ordered (changes : List TextDocumentContentChangeEvent) : Prop :=
  ∀ ch ∈ changes, ∀ range, ch.range = some range → range.start.NotAfter range.stop

theorem apply_ranged {text next : List Char} {ch : TextDocumentContentChangeEvent} {range : Range}
    (hrange : ch.range = some range) (h : ch.apply text = some next) :
    range.start.NotAfter range.stop ∧ ∃ start stop, range.start.offset text = some start ∧
      range.stop.offset text = some stop ∧ next = splice text start (stop - start) ch.text := by
  rw [TextDocumentContentChangeEvent.apply, hrange] at h
  dsimp only at h
  split at h
  · obtain ⟨start, hstart, h⟩ := Option.bind_eq_some_iff.mp h
    obtain ⟨stop, hstop, h⟩ := Option.map_eq_some_iff.mp h
    exact ⟨‹_›, start, stop, hstart, hstop, h.symm⟩
  · cases h

theorem ordered_of_applyChanges {changes : List TextDocumentContentChangeEvent}
    {text expected : List Char} (h : applyChanges text changes = some expected) : Ordered changes := by
  induction changes generalizing text with
  | nil =>
    intro ch hch
    cases hch
  | cons ch rest ih =>
    obtain ⟨next, hnext, hrest⟩ := Option.bind_eq_some_iff.mp h
    intro other hother range hrange
    cases List.mem_cons.mp hother with
    | inl heq =>
      subst heq
      exact (apply_ranged hrange hnext).1
    | inr hmem => exact ih hrest other hmem range hrange

theorem contentChange_whole {state : Editing Tree} {ch : TextDocumentContentChangeEvent}
    (h : ch.range = none) : contentChange libraries lang source newVersion state ch =
      some (.replaced
        (SourceFile.new source.uri source.languageId newVersion ch.text (lang.parse ch.text none))) := by
  rw [contentChange, h]

variable (libraries lang source newVersion) in
theorem contentChanges_parallel {changes : List TextDocumentContentChangeEvent}
    (hordered : Ordered changes) {state : Editing Tree} (hstate : state.Parallel) :
    ∃ progress, contentChanges libraries lang source newVersion state changes = some progress ∧
      progress.Parallel := by
  induction changes generalizing state with
  | nil => exact ⟨.editing state, rfl, hstate⟩
  | cons ch rest ih =>
    cases hrange : ch.range with
    | none =>
      rw [contentChanges, contentChange_whole hrange]
      exact ⟨_, rfl, rfl⟩
    | some range =>
      have horder := hordered ch List.mem_cons_self range hrange
      obtain ⟨next, hnext, hparallel, -⟩ := contentChange_ranged libraries lang source
        newVersion hstate hrange horder
      rw [contentChanges, hnext]
      exact ih (fun other hother => hordered other (List.mem_cons_of_mem _ hother)) hparallel

variable (libraries lang source newVersion) in
theorem contentChanges_whole {front : List TextDocumentContentChangeEvent}
    (rest : List TextDocumentContentChangeEvent) {whole : TextDocumentContentChangeEvent}
    (hwhole : whole.range = none)
    (hfront : ∀ ch ∈ front, ch.range.isSome = true) (hordered : Ordered front)
    {state : Editing Tree} (hstate : state.Parallel) :
    contentChanges libraries lang source newVersion state (front ++ whole :: rest) =
      some (.replaced (SourceFile.new source.uri source.languageId newVersion whole.text
        (lang.parse whole.text none))) := by
  induction front generalizing state with
  | nil => rw [List.nil_append, contentChanges, contentChange_whole hwhole]
  | cons ch front ih =>
    obtain ⟨range, hrange⟩ := Option.isSome_iff_exists.mp (hfront ch List.mem_cons_self)
    have horder := hordered ch List.mem_cons_self range hrange
    obtain ⟨next, hnext, hparallel, -⟩ := contentChange_ranged libraries lang source
      newVersion hstate hrange horder
    rw [List.cons_append, contentChanges, hnext]
    exact ih (fun other hother => hfront other (List.mem_cons_of_mem _ hother))
      (fun other hother => hordered other (List.mem_cons_of_mem _ hother)) hparallel

/-- Changes of ranges that are in the same places for the rope leave the text that the protocol
prescribes. -/
theorem contentChanges_ranged {changes : List TextDocumentContentChangeEvent}
    (hranged : ∀ ch ∈ changes, ch.range.isSome = true) {state : Editing Tree}
    (hstate : state.Parallel) (hplaces : SamePlaces libraries.isRopeBreak state.text changes)
    {expected : List Char} (h : applyChanges state.text changes = some expected) :
    ∃ last, contentChanges libraries lang source newVersion state changes = some (.editing last) ∧
      last.text = expected := by
  induction changes generalizing state with
  | nil =>
    cases h
    exact ⟨state, rfl, rfl⟩
  | cons ch rest ih =>
    obtain ⟨range, hrange⟩ := Option.isSome_iff_exists.mp (hranged ch List.mem_cons_self)
    obtain ⟨text, htext, hrest⟩ := Option.bind_eq_some_iff.mp h
    obtain ⟨horder, start, stop, hstart, hstop, heq⟩ := apply_ranged hrange htext
    obtain ⟨next, hnext, hparallel, hspliced⟩ := contentChange_ranged libraries lang source
      newVersion hstate hrange horder
    obtain ⟨hsame, hlater⟩ := hplaces
    obtain ⟨hsameStart, hsameStop⟩ := hsame range hrange
    obtain ⟨-, hnextText⟩ := hspliced start stop (hsameStart.walked hstart) (hsameStop.walked hstop)
    have hstep : next.text = text := hnextText.trans heq.symm
    rw [contentChanges, hnext]
    refine ih (fun other hother => hranged other (List.mem_cons_of_mem _ hother)) hparallel ?_ ?_
    · rw [hstep]
      exact hlater text htext
    · rw [hstep]
      exact hrest

theorem applyChanges_whole {front rest : List TextDocumentContentChangeEvent}
    {whole : TextDocumentContentChangeEvent} (hwhole : whole.range = none)
    {text expected : List Char}
    (h : applyChanges text (front ++ whole :: rest) = some expected) :
    applyChanges whole.text rest = some expected := by
  induction front generalizing text with
  | nil =>
    obtain ⟨next, hnext, hrest⟩ := Option.bind_eq_some_iff.mp h
    rw [TextDocumentContentChangeEvent.apply, hwhole] at hnext
    cases hnext
    exact hrest
  | cons ch front ih =>
    obtain ⟨next, -, hrest⟩ := Option.bind_eq_some_iff.mp h
    exact ih hrest

end Changes

/-! ## The notification -/

/-- The changes after the first one of the whole document leave its text as it is, or there is no such
change and every range is in the same place for the rope and for the protocol. -/
def AllCount (isBreak : Char → Bool) (text : List Char)
    (changes : List TextDocumentContentChangeEvent) : Prop :=
  match changes.dropWhile fun ch => ch.range.isSome with
  | [] => SamePlaces isBreak text changes
  | whole :: rest => applyChanges whole.text rest = some whole.text

/-- With the first change of the whole document, or without one. -/
theorem exists_split (changes : List TextDocumentContentChangeEvent) :
    (∀ ch ∈ changes, ch.range.isSome = true) ∧
        changes.dropWhile (fun ch => ch.range.isSome) = [] ∨
      ∃ front whole rest, changes = front ++ whole :: rest ∧
        (∀ ch ∈ front, ch.range.isSome = true) ∧ whole.range = none ∧
        changes.dropWhile (fun ch => ch.range.isSome) = whole :: rest := by
  induction changes with
  | nil => exact Or.inl ⟨fun _ h => (by cases h), rfl⟩
  | cons ch changes ih =>
    cases hrange : ch.range with
    | none =>
      refine Or.inr ⟨[], ch, changes, rfl, fun _ h => (by cases h), hrange, ?_⟩
      rw [List.dropWhile_cons_of_neg (by simp [hrange])]
    | some range =>
      have hdrop : (ch :: changes).dropWhile (fun ch => ch.range.isSome) =
          changes.dropWhile fun ch => ch.range.isSome := by
        rw [List.dropWhile_cons_of_pos (by simp [hrange])]
      rw [hdrop]
      cases ih with
      | inl h =>
        obtain ⟨hranged, hnone⟩ := h
        refine Or.inl ⟨?_, hnone⟩
        intro other hother
        cases List.mem_cons.mp hother with
        | inl heq => rw [heq, hrange]; rfl
        | inr hmem => exact hranged other hmem
      | inr h =>
        obtain ⟨front, whole, rest, heq, hranged, hwhole, hfound⟩ := h
        refine Or.inr ⟨ch :: front, whole, rest, by rw [heq]; rfl, ?_, hwhole, hfound⟩
        intro other hother
        cases List.mem_cons.mp hother with
        | inl heq => rw [heq, hrange]; rfl
        | inr hmem => exact hranged other hmem

section Notification

variable {Tree : Type} {libraries : Libraries Tree} {lang : Language Tree}

/-- The changed document has a source, and what the loop leaves is its text. -/
theorem changedSource_eq {source : SourceFile Tree} {newVersion : ℤ}
    {changes : List TextDocumentContentChangeEvent} {tree : Tree}
    (htree : baseTree lang source = some tree) {progress : Progress Tree}
    (h : contentChanges libraries lang source newVersion (source.editing tree) changes =
      some progress) :
    ∃ changed, changedSource libraries lang source newVersion changes = some (some changed) ∧
      changed.text = progress.text := by
  cases progress with
  | editing state =>
    refine ⟨SourceFile.new source.uri source.languageId newVersion state.text
      (lang.parse state.text (some state.tree)), ?_, rfl⟩
    simp only [changedSource, htree, h]
  | replaced replacement =>
    refine ⟨replacement, ?_, rfl⟩
    simp only [changedSource, htree, h]

/-- The text is the one that the protocol prescribes when all changes count and, if a change is of the
whole document, only then. -/
theorem changedSource_text (libraries : Libraries Tree) {source : SourceFile Tree}
    (newVersion : ℤ) {changes : List TextDocumentContentChangeEvent} {tree : Tree}
    (htree : baseTree lang source = some tree) {expected : List Char}
    (h : applyChanges source.text changes = some expected) :
    ∃ changed, changedSource libraries lang source newVersion changes = some (some changed) ∧
      (AllCount libraries.isRopeBreak source.text changes → changed.text = expected) ∧
      ((∃ ch ∈ changes, ch.range = none) → changed.text = expected →
        AllCount libraries.isRopeBreak source.text changes) := by
  have hstate : (source.editing tree).Parallel := source.rope_chars
  have hordered := ordered_of_applyChanges h
  cases exists_split changes with
  | inl hsplit =>
    obtain ⟨hranged, hdrop⟩ := hsplit
    obtain ⟨progress, hprogress, -⟩ :=
      contentChanges_parallel libraries lang source newVersion hordered hstate
    obtain ⟨changed, hchanged, htext⟩ := changedSource_eq htree hprogress
    refine ⟨changed, hchanged, ?_, ?_⟩
    · intro hall
      rw [AllCount, hdrop] at hall
      obtain ⟨last, hlast, hexpected⟩ := contentChanges_ranged hranged hstate hall h
      rw [hlast, Option.some.injEq] at hprogress
      rw [htext, ← hprogress]
      exact hexpected
    · intro hwhole _
      obtain ⟨ch, hch, hnone⟩ := hwhole
      have hsome := hranged ch hch
      rw [hnone] at hsome
      cases hsome
  | inr hsplit =>
    obtain ⟨front, whole, rest, hchanges, hranged, hwhole, hdrop⟩ := hsplit
    have hfront : Ordered front := by
      intro ch hch
      exact hordered ch (by rw [hchanges]; exact List.mem_append_left _ hch)
    have hprogress := contentChanges_whole libraries lang source newVersion rest hwhole
      hranged hfront hstate
    rw [← hchanges] at hprogress
    obtain ⟨changed, hchanged, htext⟩ := changedSource_eq htree hprogress
    have htext : changed.text = whole.text := htext
    rw [hchanges] at h
    have hrest := applyChanges_whole hwhole h
    refine ⟨changed, hchanged, ?_, ?_⟩
    · intro hall
      rw [AllCount, hdrop] at hall
      have hall : applyChanges whole.text rest = some whole.text := hall
      rw [hall, Option.some.injEq] at hrest
      exact htext.trans hrest
    · intro _ heq
      rw [AllCount, hdrop]
      show applyChanges whole.text rest = some whole.text
      rw [hrest, ← heq, htext]

theorem didChange_eq {libraries : Libraries Tree} {registry : String → Option (Language Tree)}
    {documents : String → Option (Document Tree)} {params : DidChangeTextDocumentParams}
    {doc : Document Tree} (hdoc : documents params.uri = some doc)
    (hlang : registry doc.source.languageId = some lang) {changed : SourceFile Tree}
    (h : changedSource libraries lang doc.source params.version params.contentChanges =
      some (some changed)) :
    didChange libraries registry documents params =
      some (Function.update documents params.uri (some { source := changed }),
        some (params.uri, params.version)) := by
  simp only [didChange, hdoc, hlang, h, Document.updateSource]

/-- The changes of a notification for an open document are made in order: the text and the rope are the
same after every one of them, and the text left is the one that the protocol prescribes when all changes
count. With a change of the whole document it is so only then. -/
theorem did_change_applies_all (libraries : Libraries Tree)
    (registry : String → Option (Language Tree)) (documents : String → Option (Document Tree))
    (params : DidChangeTextDocumentParams) (doc : Document Tree)
    (hdoc : documents params.uri = some doc) (hlang : registry doc.source.languageId = some lang)
    (hparse : ∀ text, (lang.parse text none).isSome = true) (expected : List Char)
    (hvalid : applyChanges doc.source.text params.contentChanges = some expected) :
    ∃ changed, didChange libraries registry documents params =
        some (Function.update documents params.uri (some { source := changed }),
          some (params.uri, params.version)) ∧
      changed.rope.chars = changed.text ∧
      (∀ tree front, baseTree lang doc.source = some tree → front <+: params.contentChanges →
        ∃ progress, contentChanges libraries lang doc.source params.version
            (doc.source.editing tree) front = some progress ∧ progress.Parallel) ∧
      (AllCount libraries.isRopeBreak doc.source.text params.contentChanges →
        changed.text = expected) ∧
      ((∃ ch ∈ params.contentChanges, ch.range = none) → changed.text = expected →
        AllCount libraries.isRopeBreak doc.source.text params.contentChanges) := by
  have hbase : ∃ tree, baseTree lang doc.source = some tree := by
    unfold baseTree
    cases doc.source.tree with
    | some tree => exact ⟨tree, rfl⟩
    | none => exact Option.isSome_iff_exists.mp (hparse doc.source.text)
  obtain ⟨tree, htree⟩ := hbase
  obtain ⟨changed, hchanged, hall, honly⟩ := changedSource_text libraries params.version htree
    hvalid
  refine ⟨changed, didChange_eq hdoc hlang hchanged, changed.rope_chars, ?_, hall, honly⟩
  intro tree front _ hfront
  have hordered : Ordered front := fun ch hch =>
    ordered_of_applyChanges hvalid ch (hfront.subset hch)
  exact contentChanges_parallel libraries lang doc.source params.version hordered
    doc.source.rope_chars

end Notification

/-! ## Two changes -/

/-- The rope library's own line breaks. -/
def isUnicodeLineBreak (c : Char) : Bool :=
  [0x0A, 0x0B, 0x0C, 0x0D, 0x85, 0x2028, 0x2029].contains c.val.toNat

def plainLibraries : Libraries Unit where
  isRopeBreak := isUnicodeLineBreak
  editTree tree _ := tree

def plainLanguage : Language Unit where
  parse _ _ := some ()

def openDocument : Document Unit where
  source := SourceFile.new "file:///A.java" "java" 1 ['a'] (some ())

def openDocuments (uri : String) : Option (Document Unit) :=
  if uri = "file:///A.java" then some openDocument else none

/-- The whole text is replaced, and then a character is put before it. -/
def replaceAndInsert : DidChangeTextDocumentParams where
  uri := "file:///A.java"
  version := 2
  contentChanges :=
    [{ range := none, text := ['b'] },
      { range := some { start := { line := 0, character := 0 }, stop := { line := 0, character := 0 } }
        text := ['c'] }]

/-- A character is put behind the text, and then the whole text is replaced. -/
def insertAndReplace : DidChangeTextDocumentParams where
  uri := "file:///A.java"
  version := 2
  contentChanges :=
    [{ range := some { start := { line := 0, character := 1 }, stop := { line := 0, character := 1 } }
       text := ['\n', 'c'] },
      { range := none, text := ['b'] }]

theorem insert_then_replace_applied : ∃ changed,
    didChange plainLibraries (fun _ => some plainLanguage) openDocuments insertAndReplace =
        some (Function.update openDocuments "file:///A.java" (some { source := changed }),
          some ("file:///A.java", 2)) ∧ changed.text = ['b'] := by
  obtain ⟨changed, hchanged, -, -, hall, -⟩ := did_change_applies_all plainLibraries
    (fun _ => some plainLanguage) openDocuments insertAndReplace openDocument rfl rfl
    (fun _ => rfl) ['b'] (by decide)
  exact ⟨changed, hchanged, hall rfl⟩

/-- The character put before the new text is lost. -/
theorem change_after_replacement_lost :
    applyChanges openDocument.source.text replaceAndInsert.contentChanges = some ['c', 'b'] ∧
    ∃ changed,
      didChange plainLibraries (fun _ => some plainLanguage) openDocuments replaceAndInsert =
          some (Function.update openDocuments "file:///A.java" (some { source := changed }),
            some ("file:///A.java", 2)) ∧ changed.text = ['b'] ∧ changed.text ≠ ['c', 'b'] := by
  refine ⟨by decide, SourceFile.new "file:///A.java" "java" 2 ['b'] (some ()), rfl, rfl, ?_⟩
  decide

end JavaAnalyzer.Lsp
