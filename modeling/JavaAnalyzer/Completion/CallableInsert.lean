import Mathlib.Data.Nat.Digits.Defs
import JavaAnalyzer.Completion.Candidate
import JavaAnalyzer.Library.SnippetSyntax

/-! # Inserted calls

What a client makes of the insertions of `with_callable_insert` and `with_generics_callable_insert`, which reach it by
`insertion_to_lsp` of `lsp/converters.rs`. -/

namespace JavaAnalyzer.Completion
set_option autoImplicit false
open SnippetSyntax Text

/-! ## The client -/

inductive InsertTextFormat where
  | plainText
  | snippet
deriving DecidableEq, Repr

def insertionToLsp (insertion : CompletionInsertion) (label : String) : Option InsertTextFormat × Option String :=
  match insertion.mode with
  | .snippet => (some .snippet, some insertion.text)
  | .plainText => if insertion.text = label then (none, none) else (none, some insertion.text)

/-- The parts of an item's text for a client. An item without a text is inserted by its label, and one without a format
verbatim. -/
def ClientReads (label : String) (item : Option InsertTextFormat × Option String) (parts : List Part) : Prop :=
  match item.1 with
  | some .snippet => Reads false (item.2.getD label).toList parts []
  | _ => parts = (item.2.getD label).toList.map .text

theorem clientReads_iff (insertion : CompletionInsertion) (label : String) (parts : List Part) :
    ClientReads label (insertionToLsp insertion label) parts ↔
      match insertion.mode with
      | .snippet => Reads false insertion.text.toList parts []
      | .plainText => parts = insertion.text.toList.map .text := by
  rw [ClientReads, insertionToLsp]
  cases insertion.mode with
  | snippet => rfl
  | plainText =>
    dsimp only
    split_ifs with hlabel
    · rw [hlabel]
      rfl
    · rfl

theorem ClientReads.unique {label : String} {item : Option InsertTextFormat × Option String} {parts parts' : List Part}
    (h : ClientReads label item parts) (h' : ClientReads label item parts') : parts = parts' := by
  obtain ⟨format, text⟩ := item
  cases format with
  | none => exact Eq.trans h (Eq.symm h')
  | some format =>
    cases format with
    | plainText => exact Eq.trans h (Eq.symm h')
    | snippet => exact (Reads.unique h h').1

/-! ## Calls -/

def isTabstop : Part → Bool
  | .tabstop _ => true
  | _ => false

def stop? : Part → Option ℕ
  | .tabstop number => some number
  | .placeholder number _ => some number
  | _ => none

/-- Placeholders with commas between them. -/
def slotParts (slots : List (ℕ × List Char)) : List Part :=
  [Part.text ',', .text ' '].intercalate (slots.map fun slot => [slotPart slot])

/-- The type arguments and the arguments of a call: with the tab stops left out, the opening parenthesis, one
placeholder for each parameter, with commas between them, and the closing parenthesis. -/
def CallShape (typeArgs : List Char) (count : ℕ) (behind : List Part) : Prop :=
  ∃ slots : List (ℕ × List Char), slots.length = count ∧
    (behind.filter fun part => !isTabstop part) =
      (typeArgs ++ ['(']).map .text ++ slotParts slots ++ [.text ')']

/-- The stops are numbered from 1 on, from left to right, and the final one is last. -/
structure NumberedStops (behind : List Part) : Prop where
  stops : ∃ count, behind.filterMap stop? = List.range' 1 count ++ [0]
  last : behind.getLast? = some (.tabstop 0)

/-- What the client inserts for the candidate is the name with a call behind it. -/
def ExpandsToCall (typeArgs : List Char) (callableName : String) (count : ℕ) (c : CompletionCandidate) : Prop :=
  ∃ parts, (∀ parts', ClientReads c.label (insertionToLsp c.insertion c.label) parts' ↔ parts' = parts) ∧
    ∃ behind, parts = callableName.toList.map .text ++ behind ∧ CallShape typeArgs count behind ∧
      (c.insertion.mode = .snippet → NumberedStops behind)

theorem expandsToCall_iff {typeArgs : List Char} {callableName : String} {count : ℕ} {c : CompletionCandidate} :
    ExpandsToCall typeArgs callableName count c ↔
      ∃ behind, ClientReads c.label (insertionToLsp c.insertion c.label) (callableName.toList.map .text ++ behind) ∧
        CallShape typeArgs count behind ∧ (c.insertion.mode = .snippet → NumberedStops behind) := by
  constructor
  · rintro ⟨_, hreads, behind, rfl, hshape⟩
    exact ⟨behind, (hreads _).mpr rfl, hshape⟩
  · rintro ⟨behind, hreads, hshape⟩
    exact ⟨_, fun parts' => ⟨fun h => h.unique hreads, fun h => h ▸ hreads⟩, behind, rfl, hshape⟩

/-! ## Argument slots -/

section Slots

variable {inside : Bool} {s rest : List Char} {parts : List Part}

theorem reads_slots {slots : List (ℕ × List Char)} (hslots : ∀ slot ∈ slots, Plain slot.2)
    (h : Reads inside s parts rest) :
    Reads inside ([',', ' '].intercalate (slots.map slotText) ++ s) (slotParts slots ++ parts) rest := by
  induction slots with
  | nil => exact h
  | cons slot slots ih =>
    have hrest := ih fun slot hslot => hslots slot (List.mem_cons_of_mem _ hslot)
    cases slots with
    | nil => simpa [slotParts] using Reads.slot (hslots slot List.mem_cons_self) h
    | cons slot' slots =>
      have hcomma : Plain [',', ' '] := by simp [Plain]
      have hread := Reads.slot (hslots slot List.mem_cons_self) (Reads.plain hcomma hrest)
      simpa [slotParts, List.intercalate_cons_cons] using hread

theorem filter_slots (slots : List (ℕ × List Char)) :
    ((slotParts slots).filter fun part => !isTabstop part) = slotParts slots := by
  induction slots with
  | nil => rfl
  | cons slot slots ih =>
    cases slots with
    | nil => simp [slotParts, slotPart, isTabstop]
    | cons slot' slots =>
      simp only [slotParts, List.map_cons, List.intercalate_cons_cons, List.filter_append] at ih ⊢
      rw [ih]
      rfl

theorem stops_slots (slots : List (ℕ × List Char)) :
    (slotParts slots).filterMap stop? = slots.map Prod.fst := by
  induction slots with
  | nil => rfl
  | cons slot slots ih =>
    cases slots with
    | nil => simp [slotParts, slotPart, stop?]
    | cons slot' slots =>
      simp only [slotParts, List.map_cons, List.intercalate_cons_cons, List.filterMap_append] at ih ⊢
      rw [ih]
      rfl

end Slots

/-- The slots of `with_callable_insert`. -/
def paramSlots (paramNames : List String) : List (ℕ × List Char) :=
  paramNames.zipIdx.map fun p => (p.2 + 1, (sanitizePlaceholderName p.1 p.2).toList)

theorem paramSlots_length (paramNames : List String) : (paramSlots paramNames).length = paramNames.length := by
  rw [paramSlots, List.length_map, List.length_zipIdx]

theorem paramSlots_numbers (paramNames : List String) :
    (paramSlots paramNames).map Prod.fst = List.range' 1 paramNames.length := by
  have hnumbers : (paramSlots paramNames).map Prod.fst = (paramNames.zipIdx.map Prod.snd).map (1 + ·) := by
    rw [paramSlots, List.map_map, List.map_map]
    exact List.map_congr_left fun p _ => Nat.add_comm p.2 1
  rw [hnumbers, List.zipIdx_map_snd, List.map_add_range']

theorem plain_of_isWordChar {s : List Char} (h : ∀ c ∈ s, isWordChar c = true) : Plain s := by
  intro c hc
  have hword := h c hc
  refine ⟨?_, ?_, ?_⟩ <;> rintro rfl <;> exact absurd hword (by decide)

theorem isWordChar_sanitized (name : List Char) :
    ∀ c ∈ name.map fun ch => if ch.isAlphanum || ch = '_' then ch else '_', isWordChar c = true := by
  intro c hc
  obtain ⟨ch, -, rfl⟩ := List.mem_map.mp hc
  split_ifs with hch
  · exact hch
  · rfl

theorem sanitize_plain (name : String) (index : ℕ) : Plain (sanitizePlaceholderName name index).toList := by
  refine plain_of_isWordChar fun c hc => ?_
  rw [sanitizePlaceholderName] at hc
  have hkept := isWordChar_sanitized (trim name.toList)
  split at hc
  · rw [String.toList_append, List.mem_append] at hc
    rcases hc with hc | hc
    · fin_cases hc <;> rfl
    · rw [Nat.toString_eq_repr, Nat.toList_repr] at hc
      exact isWordChar_of_isDigit (isDigit_of_mem_digits c hc)
  · rename_i d out heq
    rw [heq] at hkept
    rw [String.toList_ofList] at hc
    split_ifs at hc
    · rcases List.mem_cons.mp hc with rfl | hc
      · rfl
      · exact hkept c hc
    · exact hkept c hc

theorem placeholderText_toList (number : ℕ) (name : String) :
    (placeholderText number name).toList = slotText (number, name.toList) := by
  simp [placeholderText, slotText, Nat.toString_eq_repr]

theorem callableArgs_toList (paramNames : List String) :
    (", ".intercalate (callableArgs paramNames)).toList =
      [',', ' '].intercalate ((paramSlots paramNames).map slotText) := by
  rw [String.toList_intercalate, callableArgs, paramSlots, List.map_map, List.map_map]
  refine congrArg _ (List.map_congr_left fun p _ => ?_)
  exact placeholderText_toList ..

/-! ## The insertions -/

/-- No dollar sign stands directly before an ASCII letter, a digit or an underscore. -/
def NoVariable (name : String) : Prop :=
  name.toList.IsChain fun c d => c = '$' → isWordChar d = false

section Insert

variable {c : CompletionCandidate} {callableName : String} {paramNames : List String}

theorem reads_name_iff {s : List Char} {behind : List Part}
    (hname : ∀ ch ∈ callableName.toList, ch ≠ '{' ∧ ch ≠ '}' ∧ ch ≠ '\\')
    (hs : NotNext (fun ch => ch = '{' ∨ isWordChar ch) s) :
    Reads false (callableName.toList ++ s) (callableName.toList.map .text ++ behind) [] ↔
      NoVariable callableName ∧ Reads false s behind [] :=
  reads_text_iff hname hs

theorem paren_not_next {s : List Char} : NotNext (fun ch => ch = '{' ∨ isWordChar ch) ('(' :: s) :=
  NotNext.cons_iff.mpr (by decide)

theorem angle_not_next {s : List Char} : NotNext (fun ch => ch = '{' ∨ isWordChar ch) ('<' :: s) :=
  NotNext.cons_iff.mpr (by decide)

/-- Without parameters the insertion is no snippet. -/
theorem callable_no_params (c : CompletionCandidate) (callableName : String) :
    ExpandsToCall [] callableName 0 (c.withCallableInsert callableName [] false) := by
  have hmode : (c.withCallableInsert callableName [] false).insertion.mode = .plainText := rfl
  have htext : (c.withCallableInsert callableName [] false).insertion.text = callableName ++ "()" := rfl
  refine expandsToCall_iff.mpr ⟨[.text '(', .text ')'], ?_, ⟨[], rfl, rfl⟩, fun h => ?_⟩
  · rw [clientReads_iff, hmode, htext, String.toList_append, List.map_append]
    rfl
  · rw [hmode] at h
    cases h

theorem callable_text (hparams : paramNames ≠ []) :
    (c.withCallableInsert callableName paramNames false).insertion.mode = .snippet ∧
      (c.withCallableInsert callableName paramNames false).insertion.text.toList = callableName.toList ++ '(' ::
        ([',', ' '].intercalate ((paramSlots paramNames).map slotText) ++ [')', '$', '0']) := by
  rw [CompletionCandidate.withCallableInsert, if_neg Bool.false_ne_true, if_neg (by simpa using hparams)]
  refine ⟨rfl, ?_⟩
  dsimp only [CompletionCandidate.withInsertMode, CompletionCandidate.withInsertText]
  simp only [String.toList_append, callableArgs_toList, List.append_assoc]
  rfl

theorem callable_inserts_iff (hname : ∀ ch ∈ callableName.toList, ch ≠ '{' ∧ ch ≠ '}' ∧ ch ≠ '\\')
    (hparams : paramNames ≠ []) :
    ExpandsToCall [] callableName paramNames.length (c.withCallableInsert callableName paramNames false) ↔
      NoVariable callableName := by
  obtain ⟨hmode, htext⟩ := @callable_text c callableName paramNames hparams
  rw [expandsToCall_iff]
  simp only [clientReads_iff, hmode, htext, reads_name_iff hname paren_not_next]
  constructor
  · rintro ⟨_, ⟨hplain, -⟩, -⟩
    exact hplain
  · intro hplain
    have hend : Reads false [')', '$', '0'] [.text ')', .tabstop 0] [] :=
      .text (by decide) (by decide) (by decide) (.stop 0 (fun _ h => by cases h) .nil)
    have hslots : ∀ slot ∈ paramSlots paramNames, Plain slot.2 := by
      intro slot hslot
      obtain ⟨p, -, rfl⟩ := List.mem_map.mp hslot
      exact sanitize_plain p.1 p.2
    refine ⟨.text '(' :: (slotParts (paramSlots paramNames) ++ [.text ')', .tabstop 0]), ⟨hplain, ?_⟩, 
      ⟨paramSlots paramNames, ?_, ?_⟩, fun _ => ⟨?_, ?_⟩⟩
    · exact .text (by decide) (by decide) (by decide) (reads_slots hslots hend)
    · exact paramSlots_length paramNames
    · rw [List.filter_cons_of_pos rfl, List.filter_append, filter_slots]
      rfl
    · refine ⟨paramNames.length, ?_⟩
      rw [List.filterMap_cons_none rfl, List.filterMap_append, stops_slots, paramSlots_numbers]
      rfl
    · rw [List.getLast?_cons, List.getLast?_append]
      rfl

theorem generics_no_params_iff (hname : ∀ ch ∈ callableName.toList, ch ≠ '{' ∧ ch ≠ '}' ∧ ch ≠ '\\') :
    ExpandsToCall ['<', '>'] callableName 0 (c.withGenericsCallableInsert callableName [] false) ↔
      NoVariable callableName := by
  have hmode : (c.withGenericsCallableInsert callableName [] false).insertion.mode = .snippet := rfl
  have htext : (c.withGenericsCallableInsert callableName [] false).insertion.text.toList =
      callableName.toList ++ ['<', '$', '1', '>', '(', ')', '$', '0'] := String.toList_append ..
  rw [expandsToCall_iff]
  simp only [clientReads_iff, hmode, htext, reads_name_iff hname angle_not_next]
  constructor
  · rintro ⟨_, ⟨hplain, -⟩, -⟩
    exact hplain
  · intro hplain
    have hend : Reads false ['(', ')', '$', '0'] [.text '(', .text ')', .tabstop 0] [] :=
      .text (by decide) (by decide) (by decide) (.text (by decide) (by decide) (by decide)
        (.stop 0 (fun _ h => by cases h) .nil))
    have hstop : Reads false ['$', '1', '>', '(', ')', '$', '0']
        [.tabstop 1, .text '>', .text '(', .text ')', .tabstop 0] [] :=
      .stop 1 (NotNext.cons_iff.mpr (by decide)) (.text (by decide) (by decide) (by decide) hend)
    exact ⟨_, ⟨hplain, .text (by decide) (by decide) (by decide) hstop⟩, ⟨[], rfl, rfl⟩, fun _ => ⟨⟨1, rfl⟩, rfl⟩⟩

theorem first_stop {s : List Char} {behind : List Part} (h : Reads false ('<' :: '$' :: '0' :: '>' :: s) behind []) :
    ∃ behind', behind = .text '<' :: .tabstop 0 :: behind' := by
  cases h with
  | text _ _ _ h =>
    have hzero : ∀ d ∈ ['0'], d.isDigit = true := List.forall_mem_singleton.mpr rfl
    have hafter := h.afterDollar
    have hbegins : begins ('0' :: '>' :: s) = .number := @begins_number ['0'] ('>' :: s) (List.cons_ne_nil _ _) hzero
    rw [hbegins] at hafter
    obtain ⟨digits, s', behind', heq, hdigits, hs', rfl, -⟩ := hafter
    obtain ⟨rfl, -⟩ := stretch_unique hdigits hzero hs' (NotNext.cons_iff.mpr (by decide)) heq.symm
    exact ⟨behind', rfl⟩

/-- With parameters the final stop is the one between the angle brackets. -/
theorem generics_params_not_call (hname : ∀ ch ∈ callableName.toList, ch ≠ '{' ∧ ch ≠ '}' ∧ ch ≠ '\\')
    (hparams : paramNames ≠ []) : ¬ ExpandsToCall ['<', '>'] callableName paramNames.length
      (c.withGenericsCallableInsert callableName paramNames false) := by
  have hinsert : (c.withGenericsCallableInsert callableName paramNames false).insertion.mode = .snippet ∧
      ∃ s, (c.withGenericsCallableInsert callableName paramNames false).insertion.text.toList =
        callableName.toList ++ '<' :: '$' :: '0' :: '>' :: s := by
    rw [CompletionCandidate.withGenericsCallableInsert, if_neg Bool.false_ne_true, if_neg (by simpa using hparams)]
    refine ⟨rfl, '(' :: ((", ".intercalate (genericsCallableArgs paramNames)).toList ++ [')', '$', '1']), ?_⟩
    dsimp only [CompletionCandidate.withInsertMode, CompletionCandidate.withInsertText]
    simp only [String.toList_append, List.append_assoc]
    rfl
  obtain ⟨hmode, s, htext⟩ := hinsert
  rw [expandsToCall_iff]
  simp only [clientReads_iff, hmode, htext, reads_name_iff hname angle_not_next]
  rintro ⟨behind, ⟨-, hreads⟩, ⟨slots, hlen, hshape⟩, hstops⟩
  obtain ⟨behind', rfl⟩ := first_stop hreads
  obtain ⟨⟨count, hnumbers⟩, -⟩ := hstops trivial
  cases count with
  | zero =>
    have hnone : behind'.filterMap stop? = [] := (List.cons.inj hnumbers).2
    have hslots := congrArg (List.filterMap stop?) hshape
    rw [List.filterMap_append, List.filterMap_append, stops_slots] at hslots
    have hempty : slots.map Prod.fst = [] := by
      rw [List.filter_cons_of_pos rfl, List.filter_cons_of_neg (by decide), List.filterMap_cons_none rfl,
        List.filterMap_eq_nil_iff.mpr fun part hpart =>
          List.filterMap_eq_nil_iff.mp hnone part (List.mem_of_mem_filter hpart)] at hslots
      exact (List.append_eq_nil_iff.mp (List.append_eq_nil_iff.mp hslots.symm).1).2
    rw [List.map_eq_nil_iff] at hempty
    rw [hempty] at hlen
    exact hparams (List.eq_nil_of_length_eq_zero hlen.symm)
  | succ count => cases hnumbers

/-- The insertion of a call comes out as the call if there are no parameters or the name has no dollar sign that begins
a variable or a stop, and that of a generic call if both hold. -/
theorem inserted_calls_expand_iff (c : CompletionCandidate) (paramNames : List String)
    (hname : ∀ ch ∈ callableName.toList, ch ≠ '{' ∧ ch ≠ '}' ∧ ch ≠ '\\') :
    (ExpandsToCall [] callableName paramNames.length (c.withCallableInsert callableName paramNames false) ↔
      paramNames = [] ∨ NoVariable callableName) ∧
    (ExpandsToCall ['<', '>'] callableName paramNames.length
        (c.withGenericsCallableInsert callableName paramNames false) ↔
      paramNames = [] ∧ NoVariable callableName) := by
  by_cases hparams : paramNames = []
  · subst hparams
    exact ⟨⟨fun _ => .inl rfl, fun _ => callable_no_params c callableName⟩,
      (generics_no_params_iff hname).trans (and_iff_right rfl).symm⟩
  · exact ⟨(callable_inserts_iff hname hparams).trans (or_iff_right hparams).symm,
      fun h => absurd h (generics_params_not_call hname hparams), fun h => absurd h.1 hparams⟩

end Insert

/-- `List.of` with a parameter. -/
theorem generic_call_not_expanded : ¬ ExpandsToCall ['<', '>'] "of" 1
    ((CompletionCandidate.new "of" "of" (.staticMethod "(Ljava/lang/Object;)Ljava/util/List;" "java/util/List")
      "member").withGenericsCallableInsert "of" ["e1"] false) :=
  generics_params_not_call (by simp) (List.cons_ne_nil _ _)

/-- `print(s, n)` -/
theorem print_call_expands : ExpandsToCall [] "print" 2
    ((CompletionCandidate.new "print" "print" (.method "(Ljava/lang/String;I)V" "A") "member").withCallableInsert
      "print" ["s", "n"] false) :=
  (inserted_calls_expand_iff _ ["s", "n"] (by simp)).1.mpr (.inr (by simp [NoVariable]))

end JavaAnalyzer.Completion
