import JavaAnalyzer.Library.Interleaving
import JavaAnalyzer.Library.TrackedQueries

/-! # Which memoised queries follow the index

The queries of `salsa_queries` on a source file. Salsa watches the text and the language of the file; the
workspace index is read past it (`db.workspace_index()`), and the version of the index is an argument of two
queries only, whose answers nobody looks at. Parsing, extraction and resolution are taken as they are
(`Parts`), and so are the queries that only they call. The trees that are kept beside the database are kept
under the hash of the text, which is taken to be injective, so a tree is that of the text. All queries here
ask for the root context of the index, so that is all of the index they see. -/

namespace JavaAnalyzer.SalsaQueries
set_option autoImplicit false
open Interleaving TrackedQueries

abbrev FileId := String

/-- The fields of a `SourceFile` that are set after it was created. -/
inductive Field where
  | content
  | languageId
deriving DecidableEq

inductive SymbolKind where
  | «class»
  | method
  | field
  | localVariable
  | parameter
  | unknown
deriving DecidableEq, Repr

structure ResolvedSymbolData where
  kind : SymbolKind
  targetInternalName : String
  memberName : Option String
  descriptor : Option String
deriving DecidableEq, Repr

inductive AccessReceiverKindData where
  | unknown
  | expression
  | type (classInternalName : String)
deriving DecidableEq, Repr

/-- The locations that `resolve_java_symbol` looks at. -/
inductive CursorLocationData where
  | expression (expr : String)
  | memberAccess (receiverKind : AccessReceiverKindData) (receiverExpr memberPrefix : String)
      (arguments : Option String)
  | «import» (path : String)
  | elsewhere
deriving DecidableEq, Repr

/-- `other` are the queries that the parts call and that are not modelled. -/
inductive TrackedQuery (Other : Type) where
  | cachedIndexViewMetadata (workspaceVersion : UInt64)
  | cachedNameTable (workspaceVersion : UInt64)
  | extractPackage (file : FileId)
  | extractImports (file : FileId)
  | extractClasses (file : FileId)
  | extractJavaCompletionContext (file : FileId) (line character : ℕ)
  | isJavaLocalVariable (file : FileId) (symbolName : String) (offset : ℕ)
  | extractJavaEnclosingMethod (file : FileId) (offset : ℕ)
  | extractJavaFlowTypeOverrides (file : FileId) (cursorOffset : ℕ)
  | resolveJavaExpressionSymbol (file : FileId) (symbolName : String) (offset : ℕ)
  | resolveJavaMemberSymbol (file : FileId) (receiverExpr memberName : String)
      (arguments : Option String) (offset : ℕ)
  | resolveJavaSymbol (file : FileId) (line character : ℕ)
  | computeJavaInlayHints (file : FileId) (startLine startChar endLine endChar : ℕ)
  | other (name : Other)
deriving DecidableEq

/-- How deep the calls of the other queries go. -/
structure Levels (Other : Type) where
  level : Other → ℕ
  levels : ℕ
  level_lt : ∀ name, level name < levels

section

variable {Other : Type} (depth : Levels Other)

/-- Nothing calls `extract_classes`, so it may be the highest. -/
def TrackedQuery.rank : TrackedQuery Other → ℕ
  | .cachedIndexViewMetadata _ | .cachedNameTable _ | .extractPackage _ | .extractImports _ => 0
  | .other name => depth.level name + 1
  | .extractJavaCompletionContext .. | .isJavaLocalVariable .. => depth.levels + 1
  | .extractJavaEnclosingMethod .. | .extractJavaFlowTypeOverrides .. => depth.levels + 1
  | .resolveJavaExpressionSymbol .. | .resolveJavaMemberSymbol .. => depth.levels + 2
  | .resolveJavaSymbol .. | .computeJavaInlayHints .. => depth.levels + 3
  | .extractClasses _ => depth.levels + 4

variable (Data Root : Type)

/-- `Data` are the answers that no modelled query looks into. The result of `extract_classes` is a digest of
the classes that it has extracted; here it is the classes. -/
def TrackedQuery.Answer : TrackedQuery Other → Type
  | .cachedIndexViewMetadata _ | .cachedNameTable _ | .other _ => Data
  | .extractPackage _ => Option String
  | .extractImports _ => List String
  | .extractClasses _ => List Data
  | .extractJavaCompletionContext .. => CursorLocationData
  | .isJavaLocalVariable .. => Bool
  | .extractJavaEnclosingMethod .. => Option Data
  | .extractJavaFlowTypeOverrides .. | .computeJavaInlayHints .. => List Data
  | .resolveJavaExpressionSymbol .. | .resolveJavaMemberSymbol .. => Option ResolvedSymbolData
  | .resolveJavaSymbol .. => Option ResolvedSymbolData

abbrev signature : Signature where
  Input := FileId × Field
  Val := String
  Stamp := UInt64
  World := Root
  Query := TrackedQuery Other
  Answer := TrackedQuery.Answer Data
  rank := TrackedQuery.rank depth

instance [DecidableEq Data] (q : TrackedQuery Other) :
    DecidableEq (TrackedQuery.Answer Data q) := by
  cases q <;> unfold TrackedQuery.Answer <;> infer_instance

structure Parts (Tree : Type) where
  lineColToOffset : String → ℕ → ℕ → Option ℕ
  /-- `parse_tree`, by the text and the language. -/
  parseTree : String → String → Option Tree
  indexViewMetadata : Root → Data
  nameTableMetadata : Root → Data
  packageOf : String → String → Option String
  importsOf : String → String → List String
  /-- `parse_java_classes_with_index_view`, by the names of the index. -/
  javaClasses : FileId → Tree → String → Root → List Data
  kotlinClasses : FileId → String → List Data
  /-- What `extract_java_enclosing_method` makes of the tree, the package, the imports and the view. -/
  methodAt : Tree → String → ℕ → Option String → List String → Root → Option Data
  overridesAt : Tree → String → ℕ → Root → List Data
  completionContext : FileId → ℕ → ℕ → Body (signature depth Data Root) (depth.levels + 1)
    CursorLocationData
  localVariable : FileId → String → ℕ → Body (signature depth Data Root) (depth.levels + 1) Bool
  collectJavaInlayHints : FileId → Tree → String → Root → ℕ → ℕ →
    Body (signature depth Data Root) (depth.levels + 3) (List Data)
  /-- `extract_java_semantic_context_at_offset` -/
  semanticContext : FileId → ℕ → Root →
    Body (signature depth Data Root) (depth.levels + 2) (Option Data)
  /-- The enrichment of a context whose location is set, and `SymbolResolver::resolve`. -/
  resolve : Root → Data → CursorLocationData → Option ResolvedSymbolData
  other : (name : Other) → Body (signature depth Data Root) (depth.level name + 1) Data

variable {Data Root Tree : Type} {depth : Levels Other} {n : ℕ} {α : Type}

/-! ## The bodies -/

/-- `get_index_view_for_context` -/
def getIndexViewForContext (h : 0 < n) (next : Root → Body (signature depth Data Root) n α) :
    Body (signature depth Data Root) n α :=
  .touch (fun version => .cachedIndexViewMetadata version) (fun _ => h) (.world next)

/-- `get_name_table_for_context` -/
def getNameTableForContext (h : 0 < n) (next : Root → Body (signature depth Data Root) n α) :
    Body (signature depth Data Root) n α :=
  .touch (fun version => .cachedNameTable version) (fun _ => h) (.world next)

variable (parts : Parts depth Data Root Tree)

def computeExtractedClasses (file : FileId) (content languageId : String) (h : 0 < n) :
    Body (signature depth Data Root) n (List Data) :=
  if languageId = "java" then
    getNameTableForContext h fun names =>
      match parts.parseTree content languageId with
      | none => .ret []
      | some tree => .ret (parts.javaClasses file tree content names)
  else if languageId = "kotlin" then .ret (parts.kotlinClasses file content)
  else .ret []

def extractJavaEnclosingMethod (file : FileId) (offset : ℕ) :
    Body (signature depth Data Root) (depth.levels + 1) (Option Data) :=
  .input (file, .content) fun content =>
    .input (file, .languageId) fun languageId =>
      match parts.parseTree content languageId with
      | none => .ret none
      | some tree =>
        .call (.extractPackage file) (Nat.succ_pos _) fun package =>
          .call (.extractImports file) (Nat.succ_pos _) fun imports =>
            getIndexViewForContext (Nat.succ_pos _) fun view =>
              .ret (parts.methodAt tree content offset package imports view)

def extractJavaFlowTypeOverrides (file : FileId) (cursorOffset : ℕ) :
    Body (signature depth Data Root) (depth.levels + 1) (List Data) :=
  .input (file, .content) fun content =>
    .input (file, .languageId) fun languageId =>
      if languageId ≠ "java" then .ret []
      else
        match parts.parseTree content languageId with
        | none => .ret []
        | some tree =>
          getIndexViewForContext (Nat.succ_pos _) fun view =>
            .ret (parts.overridesAt tree content cursorOffset view)

/-- The view is the one of `root_index_view`. -/
def computeJavaInlayHints (file : FileId) (startLine startChar endLine endChar : ℕ) :
    Body (signature depth Data Root) (depth.levels + 3) (List Data) :=
  .input (file, .content) fun content =>
    match parts.lineColToOffset content startLine startChar,
      parts.lineColToOffset content endLine endChar with
    | some startOffset, some endOffset =>
      .input (file, .languageId) fun languageId =>
        match parts.parseTree content languageId with
        | none => .ret []
        | some tree =>
          .world fun view => parts.collectJavaInlayHints file tree content view startOffset endOffset
    | _, _ => .ret []

def resolveJavaSymbolWithResolver (file : FileId) (offset : ℕ) (location : CursorLocationData) :
    Body (signature depth Data Root) (depth.levels + 2) (Option ResolvedSymbolData) :=
  .world fun view =>
    (parts.semanticContext file offset view).map fun ctx? =>
      ctx?.bind fun ctx => parts.resolve view ctx location

def resolveJavaExpressionSymbol (file : FileId) (symbolName : String) (offset : ℕ) :
    Body (signature depth Data Root) (depth.levels + 2) (Option ResolvedSymbolData) :=
  .call (.isJavaLocalVariable file symbolName offset) (Nat.lt_succ_self _) fun (isLocal : Bool) =>
    if isLocal then .ret (some ⟨.localVariable, "", some symbolName, none⟩)
    else resolveJavaSymbolWithResolver parts file offset (.expression symbolName)

def resolveJavaMemberSymbol (file : FileId) (receiverExpr memberName : String)
    (arguments : Option String) (offset : ℕ) :
    Body (signature depth Data Root) (depth.levels + 2) (Option ResolvedSymbolData) :=
  resolveJavaSymbolWithResolver parts file offset
    (.memberAccess .unknown receiverExpr memberName arguments)

def resolveJavaSymbol (file : FileId) (line character : ℕ) :
    Body (signature depth Data Root) (depth.levels + 3) (Option ResolvedSymbolData) :=
  .input (file, .content) fun content =>
    match parts.lineColToOffset content line character with
    | none => .ret none
    | some offset =>
      .call (.extractJavaCompletionContext file line character) (by show _ + 1 < _ + 3; omega)
        fun location =>
          match location with
          | .expression expr =>
            .call (.resolveJavaExpressionSymbol file expr offset) (Nat.lt_succ_self _) .ret
          | .memberAccess (.type className) _ memberPrefix _ =>
            .ret (some ⟨.class, className, some memberPrefix, none⟩)
          | .memberAccess _ receiverExpr memberPrefix arguments =>
            .call (.resolveJavaMemberSymbol file receiverExpr memberPrefix arguments offset)
              (Nat.lt_succ_self _) .ret
          | .import path => .ret (some ⟨.class, path.replace "." "/", none, none⟩)
          | .elsewhere => .ret none

def bodies : Bodies (signature depth Data Root)
  | .cachedIndexViewMetadata _ => .world fun root => .ret (parts.indexViewMetadata root)
  | .cachedNameTable _ => .world fun root => .ret (parts.nameTableMetadata root)
  | .extractPackage file =>
    .input (file, .languageId) fun languageId =>
      .input (file, .content) fun content => .ret (parts.packageOf languageId content)
  | .extractImports file =>
    .input (file, .languageId) fun languageId =>
      .input (file, .content) fun content => .ret (parts.importsOf languageId content)
  | .extractClasses file =>
    .input (file, .content) fun content =>
      .input (file, .languageId) fun languageId =>
        computeExtractedClasses parts file content languageId (Nat.succ_pos _)
  | .extractJavaCompletionContext file line character => parts.completionContext file line character
  | .isJavaLocalVariable file symbolName offset => parts.localVariable file symbolName offset
  | .extractJavaEnclosingMethod file offset => extractJavaEnclosingMethod parts file offset
  | .extractJavaFlowTypeOverrides file offset => extractJavaFlowTypeOverrides parts file offset
  | .resolveJavaExpressionSymbol file symbolName offset =>
    resolveJavaExpressionSymbol parts file symbolName offset
  | .resolveJavaMemberSymbol file receiverExpr memberName arguments offset =>
    resolveJavaMemberSymbol parts file receiverExpr memberName arguments offset
  | .resolveJavaSymbol file line character => resolveJavaSymbol parts file line character
  | .computeJavaInlayHints file startLine startChar endLine endChar =>
    computeJavaInlayHints parts file startLine startChar endLine endChar
  | .other name => parts.other name

/-! ## The classes of a text -/

/-- The classes of a text with an index. -/
def classesOf (file : FileId) (content languageId : String) (names : Root) : List Data :=
  if languageId = "java" then
    match parts.parseTree content languageId with
    | none => []
    | some tree => parts.javaClasses file tree content names
  else if languageId = "kotlin" then parts.kotlinClasses file content
  else []

section

variable {parts} {now : Present (signature depth Data Root)}

theorem eval_computeExtractedClasses (file : FileId) (content languageId : String) (h : 0 < n)
    (callee : (q : TrackedQuery Other) → q.rank depth < n → q.Answer Data) :
    (computeExtractedClasses parts file content languageId h).eval now callee =
      classesOf parts file content languageId now.world := by
  unfold computeExtractedClasses classesOf
  split
  · unfold getNameTableForContext
    simp only [Body.eval]
    cases parts.parseTree content languageId <;> rfl
  · split <;> rfl

theorem not_calls_computeExtractedClasses (file : FileId) (content languageId : String) (h : 0 < n)
    (p : TrackedQuery Other) :
    ¬ (computeExtractedClasses parts file content languageId h).Calls (bodies parts) now p := by
  unfold computeExtractedClasses
  split
  · unfold getNameTableForContext
    simp only [Body.Calls]
    cases parts.parseTree content languageId <;> exact id
  · split <;> exact id

/-- Other languages than Java do not ask the index. -/
theorem classesOf_congr {file : FileId} {content languageId : String} {names names' : Root}
    (h : languageId = "java" → names = names') :
    classesOf parts file content languageId names = classesOf parts file content languageId names' := by
  unfold classesOf
  split
  case isTrue hjava => rw [h hjava]
  case isFalse => rfl

theorem fresh_extractClasses (file : FileId) :
    fresh (bodies parts) now (.extractClasses file) =
      classesOf parts file (now.inputs (file, .content)) (now.inputs (file, .languageId))
        now.world := by
  rw [fresh_eq]
  exact eval_computeExtractedClasses ..

end

/-- The classes of the text under the present index. -/
def freshClasses (now : Present (signature depth Data Root)) (file : FileId) : List Data :=
  (computeExtractedClasses parts file (now.inputs (file, .content)) (now.inputs (file, .languageId))
    Nat.one_pos).eval now fun p _ => fresh (bodies parts) now p

/-! ## The database -/

/-- The classes that were extracted last, by the text and the language. No answer is taken from `origin`,
the index that they were extracted with. -/
structure ClassExtractionSnapshot (Data Root : Type) where
  source : String
  languageId : String
  classes : List Data
  origin : Root

structure State (Other Data Root : Type) (depth : Levels Other) where
  now : Present (signature depth Data Root)
  memos : Memos (signature depth Data Root)
  classExtractions : FileId → Option (ClassExtractionSnapshot Data Root)

inductive Action (Other Root : Type) where
  | setContent (file : FileId) (content : String)
  | setLanguageId (file : FileId) (languageId : String)
  | updateIndex (version : UInt64) (root : Root)
  | query (q : TrackedQuery Other)
  | getExtractedClasses (file : FileId)

namespace State

variable (s : State Other Data Root depth)

def content (file : FileId) : String :=
  s.now.inputs (file, .content)

def languageId (file : FileId) : String :=
  s.now.inputs (file, .languageId)

/-- Nothing was asked yet. -/
def initial (now : Present (signature depth Data Root)) : State Other Data Root depth :=
  ⟨now, fun _ => none, fun _ => none⟩

def setField (file : FileId) (field : Field) (value : String) : State Other Data Root depth :=
  { s with now := { s.now with inputs := Function.update s.now.inputs (file, field) value } }

def updateIndex (version : UInt64) (root : Root) : State Other Data Root depth :=
  { s with now := ⟨s.now.inputs, version, root⟩ }

/-- `store_class_extraction` -/
def storeClassExtraction (file : FileId) (classes : List Data) : State Other Data Root depth :=
  { s with
    classExtractions :=
      Function.update s.classExtractions file
        (some ⟨s.content file, s.languageId file, classes, s.now.world⟩) }

/-- `cached_class_extraction`, where the text and the language are those of the snapshot. -/
def cachedClassExtraction (file : FileId) : Option (ClassExtractionSnapshot Data Root) :=
  (s.classExtractions file).filter fun snapshot =>
    snapshot.source = s.content file ∧ snapshot.languageId = s.languageId file

variable [DecidableEq Data] [DecidableEq Other]

/-- When the body of `extract_classes` is run, it stores what it has extracted. -/
def query : (q : TrackedQuery Other) → TrackedQuery.Answer Data q × State Other Data Root depth
  | .extractClasses file =>
    let fetched := fetch (bodies parts) s.now (.extractClasses file) s.memos
    let next := { s with memos := fetched.2 }
    if reuses (bodies parts) s.now (.extractClasses file) s.memos then (fetched.1, next)
    else (fetched.1, next.storeClassExtraction file fetched.1)
  | q =>
    let fetched := fetch (bodies parts) s.now q s.memos
    (fetched.1, { s with memos := fetched.2 })

def getExtractedClasses (file : FileId) : List Data × State Other Data Root depth :=
  match s.cachedClassExtraction file with
  | some snapshot => (snapshot.classes, s)
  | none =>
    let ran := (computeExtractedClasses parts file (s.content file) (s.languageId file) Nat.one_pos).run
      s.now (fun p _ => fetch (bodies parts) s.now p) s.memos
    (ran.1, { s with memos := ran.2.2 }.storeClassExtraction file ran.1)

end State

variable [DecidableEq Data] [DecidableEq Other]

def step (s : State Other Data Root depth) : Action Other Root → Option (State Other Data Root depth)
  | .setContent file content => some (s.setField file .content content)
  | .setLanguageId file languageId => some (s.setField file .languageId languageId)
  | .updateIndex version root => some (s.updateIndex version root)
  | .query q => some (s.query parts q).2
  | .getExtractedClasses file => some (s.getExtractedClasses parts file).2

/-! ## Freshness -/

/-- The answer is what the body gives on the present texts and the present index. -/
def Fresh (s : State Other Data Root depth) : Action Other Root → Prop
  | .query q => (s.query parts q).1 = fresh (bodies parts) s.now q
  | .getExtractedClasses file =>
    (s.getExtractedClasses parts file).1 = freshClasses parts s.now file
  | _ => True

/-- No memo that the answer is made of has read another index, unless a field that it read has changed; and
the classes of a Java file that are kept for the present text were extracted with the present index. -/
def IndexFollowed (s : State Other Data Root depth) : Action Other Root → Prop
  | .query q => Settled (bodies parts) s.now s.memos q
  | .getExtractedClasses file =>
    ∀ snapshot, s.cachedClassExtraction file = some snapshot → s.languageId file = "java" →
      snapshot.origin = s.now.world
  | _ => True

/-- Memos are traces, and the classes that are kept are those of their text with their index. -/
structure State.Sound (s : State Other Data Root depth) : Prop where
  traced : Traced (bodies parts) s.memos
  extracted : ∀ file snapshot, s.classExtractions file = some snapshot →
    snapshot.classes = classesOf parts file snapshot.source snapshot.languageId snapshot.origin

variable {parts} {s : State Other Data Root depth}

theorem State.query_fst (q : TrackedQuery Other) :
    (s.query parts q).1 = (fetch (bodies parts) s.now q s.memos).1 := by
  cases q with
  | extractClasses file =>
    unfold State.query
    dsimp only
    split <;> rfl
  | _ => rfl

omit [DecidableEq Data] [DecidableEq Other] in
theorem State.Sound.storeClassExtraction (h : s.Sound parts) {file : FileId} {classes : List Data}
    (hclasses : classes = classesOf parts file (s.content file) (s.languageId file) s.now.world) :
    (s.storeClassExtraction file classes).Sound parts where
  traced := h.traced
  extracted := by
    intro other snapshot hsnapshot
    dsimp only [State.storeClassExtraction] at hsnapshot
    by_cases heq : other = file
    · subst heq
      rw [Function.update_self, Option.some.injEq] at hsnapshot
      subst hsnapshot
      exact hclasses
    · rw [Function.update_of_ne heq] at hsnapshot
      exact h.extracted other snapshot hsnapshot

theorem State.Sound.fetched (h : s.Sound parts) (q : TrackedQuery Other) :
    State.Sound parts { s with memos := (fetch (bodies parts) s.now q s.memos).2 } where
  traced := (fetch_served q h.traced).traced
  extracted := h.extracted

theorem State.Sound.query (h : s.Sound parts) (q : TrackedQuery Other) :
    (s.query parts q).2.Sound parts := by
  cases q with
  | extractClasses file =>
    unfold State.query
    dsimp only
    split
    case isTrue => exact h.fetched _
    case isFalse hreuses =>
      refine (h.fetched _).storeClassExtraction ?_
      rw [fetch_of_not_reuses h.traced (eq_false_of_ne_true hreuses)
        fun p hp => absurd hp (not_calls_computeExtractedClasses file _ _ _ p)]
      exact fresh_extractClasses file
  | _ => exact h.fetched _

/-- What `get_extracted_classes` extracts when no classes are kept for the text. -/
theorem State.Sound.ran (h : s.Sound parts) (file : FileId) :
    let ran := (computeExtractedClasses parts file (s.content file) (s.languageId file)
      Nat.one_pos).run s.now (fun p _ => fetch (bodies parts) s.now p) s.memos
    Traced (bodies parts) ran.2.2 ∧
      ran.1 = classesOf parts file (s.content file) (s.languageId file) s.now.world := by
  intro ran
  have hcallee : ∀ (p : TrackedQuery Other) (_ : p.rank depth < 1) memos,
      Traced (bodies parts) memos →
        Served (bodies parts) s.now memos p (fetch (bodies parts) s.now p memos) :=
    fun p _ memos htraced => fetch_served p htraced
  obtain ⟨htraced, -, -, -, hfresh⟩ := Body.run_spec hcallee
    (computeExtractedClasses parts file (s.content file) (s.languageId file) Nat.one_pos) s.memos
    h.traced
  refine ⟨htraced, ?_⟩
  rw [← eval_computeExtractedClasses]
  exact hfresh fun p hp => absurd hp (not_calls_computeExtractedClasses file _ _ _ p)

theorem State.Sound.getExtractedClasses (h : s.Sound parts) (file : FileId) :
    (s.getExtractedClasses parts file).2.Sound parts := by
  unfold State.getExtractedClasses
  cases s.cachedClassExtraction file with
  | some snapshot => exact h
  | none =>
    obtain ⟨htraced, hclasses⟩ := h.ran file
    have hnext : State.Sound parts
        { s with
          memos := ((computeExtractedClasses parts file (s.content file) (s.languageId file)
            Nat.one_pos).run s.now (fun p _ => fetch (bodies parts) s.now p) s.memos).2.2 } :=
      ⟨htraced, h.extracted⟩
    exact hnext.storeClassExtraction hclasses

theorem State.Sound.getExtractedClasses_fst (h : s.Sound parts) (file : FileId)
    (hkept : ∀ snapshot, s.cachedClassExtraction file = some snapshot → s.languageId file = "java" →
      snapshot.origin = s.now.world) :
    (s.getExtractedClasses parts file).1 = freshClasses parts s.now file := by
  rw [freshClasses, eval_computeExtractedClasses]
  unfold State.getExtractedClasses
  cases hcached : s.cachedClassExtraction file with
  | none => exact (h.ran file).2
  | some snapshot =>
    obtain ⟨hsnapshot, hsame⟩ := Option.filter_eq_some_iff.mp hcached
    obtain ⟨hsource, hlanguage⟩ := of_decide_eq_true hsame
    show snapshot.classes = _
    rw [h.extracted file snapshot hsnapshot, hsource, hlanguage]
    exact classesOf_congr fun hjava => hkept snapshot hcached hjava

theorem State.Sound.step {next : State Other Data Root depth} {action : Action Other Root}
    (hnext : SalsaQueries.step parts s action = some next) (h : s.Sound parts) : next.Sound parts := by
  cases action with
  | setContent file content =>
    cases hnext
    exact ⟨h.traced, h.extracted⟩
  | setLanguageId file languageId =>
    cases hnext
    exact ⟨h.traced, h.extracted⟩
  | updateIndex version root =>
    cases hnext
    exact ⟨h.traced, h.extracted⟩
  | query q =>
    cases hnext
    exact h.query q
  | getExtractedClasses file =>
    cases hnext
    exact h.getExtractedClasses file

theorem State.Sound.fresh (h : s.Sound parts) {action : Action Other Root}
    (hfollowed : IndexFollowed parts s action) : Fresh parts s action := by
  cases action with
  | query q =>
    have hsettled : Settled (bodies parts) s.now s.memos q := hfollowed
    show (s.query parts q).1 = _
    rw [State.query_fst]
    exact (fetch_served q h.traced).fresh hsettled
  | getExtractedClasses file => exact h.getExtractedClasses_fst file hfollowed
  | _ => trivial

/-- In every history of edits, index updates and calls, all answers are those of the present texts and the
present index, as long as the answers that are kept follow the index. -/
theorem queries_fresh (parts : Parts depth Data Root Tree) (now : Present (signature depth Data Root))
    (actions : List (Action Other Root))
    (hfollowed : Meets (step parts) (IndexFollowed parts) (State.initial now) actions) :
    Meets (step parts) (Fresh parts) (State.initial now) actions := by
  have hinitial : State.Sound parts (State.initial now) :=
    ⟨traced_empty, fun file snapshot hsnapshot => (by cases hsnapshot)⟩
  have hfresh : ∀ s action, State.Sound parts s → IndexFollowed parts s action →
      Fresh parts s action := fun s action h hcond => h.fresh hcond
  have hstep : ∀ s action next, step parts s action = some next → State.Sound parts s →
      State.Sound parts next := fun s action next hnext h => State.Sound.step hnext h
  exact Meets.imp hfresh hstep actions _ hinitial hfollowed

end

/-! ## A method's parameter type after an index update -/

/-- Nothing but the named queries. -/
def noOthers : Levels Empty where
  level := nofun
  levels := 0
  level_lt := nofun

/-- An index shows its class names, and a method shows the type of its parameter. -/
def parameterParts : Parts noOthers String (List String) Unit where
  lineColToOffset _ _ character := some character
  parseTree _ _ := some ()
  indexViewMetadata _ := ""
  nameTableMetadata _ := ""
  packageOf _ _ := none
  importsOf _ _ := []
  javaClasses _ _ _ _ := ["Test"]
  kotlinClasses _ _ := []
  methodAt _ _ _ _ _ names :=
    some (if "java/lang/StringBuilder" ∈ names then "(Ljava/lang/StringBuilder;)V"
      else "(LStringBuilder;)V")
  overridesAt _ _ _ _ := []
  completionContext _ _ _ := .ret .elsewhere
  localVariable _ _ _ := .ret false
  collectJavaInlayHints _ _ _ _ _ _ := .ret []
  semanticContext _ _ _ := .ret none
  resolve _ _ _ := none
  other := nofun

def testFile : FileId := "Test.java"

/-- One Java file, and an index without classes. -/
def testNow : Present (signature noOthers String (List String)) where
  inputs
    | (_, .content) => "class Test { void demo(StringBuilder builder) { } }"
    | (_, .languageId) => "java"
  stamp := 0
  world := []

def enclosingMethod : Action Empty (List String) :=
  .query (.extractJavaEnclosingMethod testFile 48)

def indexJdk : Action Empty (List String) :=
  .updateIndex 1 ["java/lang/StringBuilder"]

theorem queries_fresh_once :
    Meets (step parameterParts) (Fresh parameterParts) (State.initial testNow)
      [indexJdk, enclosingMethod, .getExtractedClasses testFile] := by
  refine queries_fresh parameterParts testNow _ ?_
  refine .cons trivial rfl (.cons ?_ rfl (.cons ?_ rfl trivial))
  · exact fun p _ memo hmemo => (by cases hmemo)
  · exact fun snapshot hsnapshot => (by cases hsnapshot)

/-- The method was asked for before the classes were there, and is given again without them. -/
theorem method_not_refreshed :
    ¬ Meets (step parameterParts) (Fresh parameterParts) (State.initial testNow)
      [enclosingMethod, indexJdk, enclosingMethod] := by
  intro h
  obtain ⟨-, h⟩ := h
  obtain ⟨-, h⟩ := h _ rfl
  obtain ⟨hfresh, -⟩ := h _ rfl
  have hanswer : some "(LStringBuilder;)V" = some "(Ljava/lang/StringBuilder;)V" := hfresh
  revert hanswer
  decide

end JavaAnalyzer.SalsaQueries
