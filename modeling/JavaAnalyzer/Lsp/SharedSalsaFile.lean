import JavaAnalyzer.Lsp.SemanticContextCache

/-! # The salsa file that the requests on a document share

A request takes a snapshot of the document, brings the document's salsa file to the snapshot's text, and
extracts and builds from that file (`PreparedRequest` of `lsp/request_context.rs`,
`get_or_update_salsa_file_for_snapshot` of `workspace.rs`). Each of these takes the database lock for
itself, so another request may bring the file to another text in between. The queries are functions of the
content of the file, of the request's analysis and of what the request has computed before. -/

namespace JavaAnalyzer.Lsp.SharedSalsaFile
set_option autoImplicit false
open Index Interleaving MemoTable

structure Snapshot (Text : Type) where
  version : ℤ
  text : Text

/-- The index a request was prepared with. -/
structure RequestScope where
  workspaceVersion : UInt64
  analysis : AnalysisContextKey

structure Queries (Text Class Data Context : Type) where
  /-- `extract_salsa_classes_for_index_context` -/
  extractClasses : RequestScope → Text → List Class
  /-- `extract_completion_context_salsa_at_offset` -/
  extractContext : Text → ℕ → Option Char → Data
  /-- `build_semantic_context_salsa` with the overlay classes in the view, and the inferred package. -/
  buildContext : RequestScope → List Class → Text → Data → Context

/-- Where `semantic_context` is in a prepared request. -/
inductive ContextStage (Data Context : Type) where
  | idle
  | missed (offset : ℕ) (trigger : Option Char)
  | extracted (offset : ℕ) (trigger : Option Char) (data : Data)
  | built (offset : ℕ) (trigger : Option Char) (ctx : Context)

inductive Phase (Class Data Context : Type) where
  | taken
  | outOfSync (file : ℕ)
  | unregistered
  | created (file : ℕ)
  | synced (file : ℕ)
  | prepared (file : ℕ) (overlay : List Class) (stage : ContextStage Data Context)

structure Request (Text Class Data Context : Type) where
  snapshot : Snapshot Text
  scope : RequestScope
  phase : Phase Class Data Context
  /-- The contexts that the request was given. -/
  contexts : List (SemanticContextCacheKey × Context)

/-- What the requests share. Salsa files have numbers in the order in which they were created, and one of
them may be registered for the document. -/
structure Shared (Text Context : Type) where
  document : Snapshot Text
  semanticContextCache : Table SemanticContextCacheKey SemanticContextCacheKey Context
  files : List Text
  registered : Option ℕ

structure State (Text Class Data Context : Type) where
  shared : Shared Text Context
  requests : ℕ → Option (Request Text Class Data Context)

inductive RequestStep where
  | compare
  | update
  | create
  | register
  | extractOverlay
  | lookUp (offset : ℕ) (trigger : Option Char)
  | extract
  | build
  | store
  /-- The request is cancelled, or there is nothing to extract at the offset. -/
  | abandon

inductive Action (Text : Type) where
  | edit (version : ℤ) (text : Text)
  | takeSnapshot (request : ℕ) (scope : RequestScope)
  | advance (request : ℕ) (step : RequestStep)

section

variable {Text Class Data Context : Type} (q : Queries Text Class Data Context)

/-- The context that a key stands for in a text. -/
def Queries.contextOf (text : Text) (key : SemanticContextCacheKey) : Context :=
  let scope : RequestScope := ⟨key.scope.workspaceVersion, key.scope.analysis⟩
  q.buildContext scope (q.extractClasses scope text) text
    (q.extractContext text key.offset key.trigger)

namespace Request

variable (req : Request Text Class Data Context)

def cacheKey (overlay : List Class) (offset : ℕ) (trigger : Option Char) : SemanticContextCacheKey where
  scope :=
    { documentVersion := req.snapshot.version
      workspaceVersion := req.scope.workspaceVersion
      analysis := req.scope.analysis
      overlayClassCount := overlay.length }
  offset := offset
  trigger := trigger

def moveTo (phase : Phase Class Data Context) : Request Text Class Data Context :=
  { req with phase := phase }

/-- The request is given a context. -/
def receive (file : ℕ) (overlay : List Class) (key : SemanticContextCacheKey) (ctx : Context) :
    Request Text Class Data Context :=
  { req with
    phase := .prepared file overlay .idle
    contexts := (key, ctx) :: req.contexts }

end Request

/-- The document is open, and its salsa file has a content when it is registered already. -/
def State.opened (document : Snapshot Text) (content : Option Text) :
    State Text Class Data Context where
  shared :=
    { document := document
      semanticContextCache := []
      files := content.toList
      registered := content.map fun _ => 0 }
  requests _ := none

namespace Shared

variable [DecidableEq Text] (s : Shared Text Context)

/-- The first lookup of `get_or_update_salsa_file_for_snapshot`. -/
def compare (text : Text) : Phase Class Data Context :=
  match s.registered with
  | none => .unregistered
  | some file => if s.files[file]? = some text then .synced file else .outOfSync file

/-- Stored only while the document is at the key's version. -/
def cacheSemanticContext (key : SemanticContextCacheKey) (ctx : Context) : Shared Text Context :=
  if s.document.version = key.scope.documentVersion then
    { s with
      semanticContextCache := put semanticContextCacheLimit s.semanticContextCache ⟨key, ctx, key⟩ }
  else s

/-- A parse tree is seeded only beside its own text, so seeding is not a step. -/
def advance (req : Request Text Class Data Context) (step : RequestStep) :
    Option (Shared Text Context × Request Text Class Data Context) :=
  match step, req.phase with
  | .compare, .taken => some (s, req.moveTo (s.compare req.snapshot.text))
  | .update, .outOfSync file =>
    some ({ s with files := s.files.set file req.snapshot.text }, req.moveTo (.synced file))
  | .create, .unregistered =>
    some ({ s with files := s.files ++ [req.snapshot.text] }, req.moveTo (.created s.files.length))
  | .register, .created file => some ({ s with registered := some file }, req.moveTo (.synced file))
  | .extractOverlay, .synced file =>
    s.files[file]?.map fun text =>
      (s, req.moveTo (.prepared file (q.extractClasses req.scope text) .idle))
  | .lookUp offset trigger, .prepared file overlay .idle =>
    let key := req.cacheKey overlay offset trigger
    match find s.semanticContextCache key with
    | some entry => some (s, req.receive file overlay key entry.value)
    | none => some (s, req.moveTo (.prepared file overlay (.missed offset trigger)))
  | .extract, .prepared file overlay (.missed offset trigger) =>
    s.files[file]?.map fun text =>
      (s, req.moveTo (.prepared file overlay
        (.extracted offset trigger (q.extractContext text offset trigger))))
  | .build, .prepared file overlay (.extracted offset trigger data) =>
    s.files[file]?.map fun text =>
      (s, req.moveTo (.prepared file overlay
        (.built offset trigger (q.buildContext req.scope overlay text data))))
  | .store, .prepared file overlay (.built offset trigger ctx) =>
    let key := req.cacheKey overlay offset trigger
    some (s.cacheSemanticContext key ctx, req.receive file overlay key ctx)
  | .abandon, .prepared file overlay _ => some (s, req.moveTo (.prepared file overlay .idle))
  | _, _ => none

end Shared

/-- Versions grow from edit to edit, as the protocol has it, and `update_source` clears the cache. -/
def step [DecidableEq Text] (s : State Text Class Data Context) :
    Action Text → Option (State Text Class Data Context)
  | .edit version text =>
    if s.shared.document.version < version then
      some
        { s with
          shared :=
            { s.shared with
              document := ⟨version, text⟩
              semanticContextCache := [] } }
    else none
  | .takeSnapshot request scope =>
    match s.requests request with
    | some _ => none
    | none =>
      some
        { s with
          requests :=
            Function.update s.requests request (some ⟨s.shared.document, scope, .taken, []⟩) }
  | .advance request step =>
    (s.requests request).bind fun req =>
      (s.shared.advance q req step).map fun next =>
        ⟨next.1, Function.update s.requests request (some next.2)⟩

/-! ## What is to hold, and when it does -/

/-- The overlay classes and contexts of a request come from its own snapshot. -/
structure Request.Right (req : Request Text Class Data Context) : Prop where
  overlay : ∀ file overlay stage, req.phase = .prepared file overlay stage →
    overlay = q.extractClasses req.scope req.snapshot.text
  contexts : ∀ used ∈ req.contexts, used.2 = q.contextOf req.snapshot.text used.1

/-- The cache is empty after an edit, so all its contexts are those of the document's version. -/
structure State.Right (s : State Text Class Data Context) : Prop where
  requests : ∀ request req, s.requests request = some req → req.Right q
  cache : ∀ entry ∈ s.shared.semanticContextCache,
    entry.key.scope.documentVersion = s.shared.document.version ∧
      entry.value = q.contextOf s.shared.document.text entry.key

/-- The salsa file that the request reads next. -/
def Phase.reads : Phase Class Data Context → Option ℕ
  | .created file | .synced file => some file
  | .prepared file _ (.missed ..) | .prepared file _ (.extracted ..) => some file
  | _ => none

/-- No request brings the salsa file to its own text while another one is about to read another text from
it, and a request that has to build a context finds its own text in the file. -/
def KeepsFile (s : State Text Class Data Context) : Action Text → Prop
  | .advance request .update =>
    ∀ req file, s.requests request = some req → req.phase = .outOfSync file →
      ∀ other reading, s.requests other = some reading → reading.phase.reads = some file →
        reading.snapshot.text = req.snapshot.text
  | .advance request (.lookUp offset trigger) =>
    ∀ req file overlay, s.requests request = some req → req.phase = .prepared file overlay .idle →
      find s.shared.semanticContextCache (req.cacheKey overlay offset trigger) = none →
        s.shared.files[file]? = some req.snapshot.text
  | _ => True

/-! ## The invariant -/

/-- The file that is read next has the request's text, and what was computed so far is from that text. -/
def Request.PhaseOwn (files : List Text) (req : Request Text Class Data Context) : Prop :=
  match req.phase with
  | .taken | .unregistered => True
  | .outOfSync file => file < files.length
  | .created file | .synced file => files[file]? = some req.snapshot.text
  | .prepared file overlay stage =>
    overlay = q.extractClasses req.scope req.snapshot.text ∧
      match stage with
      | .idle => True
      | .missed .. => files[file]? = some req.snapshot.text
      | .extracted offset trigger data =>
        files[file]? = some req.snapshot.text ∧
          data = q.extractContext req.snapshot.text offset trigger
      | .built offset trigger ctx =>
        ctx = q.contextOf req.snapshot.text (req.cacheKey overlay offset trigger)

structure Request.Own (s : Shared Text Context) (req : Request Text Class Data Context) : Prop where
  version_le : req.snapshot.version ≤ s.document.version
  text_eq : req.snapshot.version = s.document.version → req.snapshot.text = s.document.text
  phase : req.PhaseOwn q s.files
  contexts : ∀ used ∈ req.contexts, used.2 = q.contextOf req.snapshot.text used.1

structure Shared.Own (s : Shared Text Context) : Prop where
  registered_lt : ∀ file, s.registered = some file → file < s.files.length
  cache : ∀ entry ∈ s.semanticContextCache,
    entry.key.scope.documentVersion = s.document.version ∧
      entry.value = q.contextOf s.document.text entry.key

structure State.Own (s : State Text Class Data Context) : Prop where
  shared : s.shared.Own q
  requests : ∀ request req, s.requests request = some req → req.Own q s.shared

variable {q} {s s' : Shared Text Context} {req req' : Request Text Class Data Context}

theorem Request.Own.moveTo (h : req.Own q s) {phase : Phase Class Data Context}
    (hphase : (req.moveTo phase).PhaseOwn q s.files) : (req.moveTo phase).Own q s :=
  ⟨h.version_le, h.text_eq, hphase, h.contexts⟩

theorem Request.Own.right (h : req.Own q s) : req.Right q where
  overlay := by
    intro file overlay stage hphase
    have hown := h.phase
    rw [Request.PhaseOwn, hphase] at hown
    exact hown.1
  contexts := h.contexts

theorem State.Own.right {s : State Text Class Data Context} (h : s.Own q) : s.Right q where
  requests := fun request req hreq => (h.requests request req hreq).right
  cache := h.shared.cache

/-- What another request does to the shared state leaves a request as it was. -/
theorem Request.Own.frame (h : req.Own q s) (hdocument : s'.document = s.document)
    (hlength : s.files.length ≤ s'.files.length)
    (hreads : ∀ file, req.phase.reads = some file → s.files[file]? = some req.snapshot.text →
      s'.files[file]? = some req.snapshot.text) : req.Own q s' := by
  refine ⟨hdocument ▸ h.version_le, hdocument ▸ h.text_eq, ?_, h.contexts⟩
  have hphase := h.phase
  unfold Request.PhaseOwn at hphase ⊢
  cases hat : req.phase with
  | taken | unregistered => trivial
  | outOfSync file =>
    simp only [hat] at hphase ⊢
    omega
  | created file | synced file =>
    simp only [hat] at hphase ⊢
    exact hreads file (by rw [hat]; rfl) hphase
  | prepared file overlay stage =>
    simp only [hat] at hphase ⊢
    refine ⟨hphase.1, ?_⟩
    cases stage with
    | idle => trivial
    | missed offset trigger => exact hreads file (by rw [hat]; rfl) hphase.2
    | extracted offset trigger data =>
      exact ⟨hreads file (by rw [hat]; rfl) hphase.2.1, hphase.2.2⟩
    | built offset trigger ctx => exact hphase.2

theorem State.own_opened (document : Snapshot Text) (content : Option Text) :
    (State.opened document content : State Text Class Data Context).Own q where
  shared :=
    { registered_lt := by
        intro file hfile
        cases content with
        | none => cases hfile
        | some text =>
          cases hfile
          exact Nat.one_pos
      cache := fun entry hentry => (by cases hentry) }
  requests := fun request req hreq => (by cases hreq)

theorem Request.Own.receive (h : req.Own q s) (file : ℕ) {offset : ℕ} {overlay : List Class}
    {trigger : Option Char} {ctx : Context}
    (hoverlay : overlay = q.extractClasses req.scope req.snapshot.text)
    (hctx : ctx = q.contextOf req.snapshot.text (req.cacheKey overlay offset trigger)) :
    (req.receive file overlay (req.cacheKey overlay offset trigger) ctx).Own q s where
  version_le := h.version_le
  text_eq := h.text_eq
  phase := ⟨hoverlay, trivial⟩
  contexts := List.forall_mem_cons.mpr ⟨hctx, h.contexts⟩

/-- A context in the cache is of the document's version; when the request is of that version as well, it
has the document's text. -/
theorem Shared.Own.found (h : s.Own q) (hreq : req.Own q s) {overlay : List Class} {offset : ℕ}
    {trigger : Option Char} {entry : Entry SemanticContextCacheKey SemanticContextCacheKey Context}
    (hfind : find s.semanticContextCache (req.cacheKey overlay offset trigger) = some entry) :
    entry.value = q.contextOf req.snapshot.text (req.cacheKey overlay offset trigger) := by
  obtain ⟨hversion, hvalue⟩ := h.cache entry (mem_of_find hfind)
  have hkey : entry.key = req.cacheKey overlay offset trigger := by
    simpa using List.find?_some hfind
  rw [hkey] at hversion hvalue
  rw [hvalue, hreq.text_eq hversion]

theorem Shared.cacheSemanticContext_frame (key : SemanticContextCacheKey) (ctx : Context) :
    (s.cacheSemanticContext key ctx).document = s.document ∧
      (s.cacheSemanticContext key ctx).files = s.files ∧
        (s.cacheSemanticContext key ctx).registered = s.registered := by
  unfold Shared.cacheSemanticContext
  split <;> exact ⟨rfl, rfl, rfl⟩

theorem Shared.Own.cacheSemanticContext (h : s.Own q) (hreq : req.Own q s) {overlay : List Class}
    {offset : ℕ} {trigger : Option Char} {ctx : Context}
    (hctx : ctx = q.contextOf req.snapshot.text (req.cacheKey overlay offset trigger)) :
    (s.cacheSemanticContext (req.cacheKey overlay offset trigger) ctx).Own q := by
  unfold Shared.cacheSemanticContext
  split
  case isTrue hversion =>
    refine ⟨h.registered_lt, fun entry hentry => ?_⟩
    cases mem_put hentry with
    | inl heq =>
      rw [heq, ← hreq.text_eq hversion.symm]
      exact ⟨hversion.symm, hctx⟩
    | inr hmem => exact h.cache entry hmem
  case isFalse => exact h

/-! ## The steps -/

variable [DecidableEq Text]

/-- Only `update` takes a text out of a salsa file, and it puts its own text there. -/
theorem Shared.advance_frame {step : RequestStep} (hnext : s.advance q req step = some (s', req')) :
    s'.document = s.document ∧ s.files.length ≤ s'.files.length ∧
      ∀ file text, s.files[file]? = some text →
        (step = .update → req.phase = .outOfSync file → text = req.snapshot.text) →
          s'.files[file]? = some text := by
  unfold Shared.advance at hnext
  split at hnext
  case h_2 file hphase =>
    simp only [Option.some.injEq, Prod.mk.injEq] at hnext
    obtain ⟨rfl, -⟩ := hnext
    refine ⟨rfl, (List.length_set ..).ge, fun other text hfile hown => ?_⟩
    by_cases heq : file = other
    · subst heq
      obtain ⟨hlt, -⟩ := List.getElem?_eq_some_iff.mp hfile
      rw [List.getElem?_set_self hlt, hown rfl hphase]
    · rw [List.getElem?_set_ne heq]
      exact hfile
  case h_3 =>
    simp only [Option.some.injEq, Prod.mk.injEq] at hnext
    obtain ⟨rfl, -⟩ := hnext
    refine ⟨rfl, by simp, fun file text hfile _ => ?_⟩
    obtain ⟨hlt, -⟩ := List.getElem?_eq_some_iff.mp hfile
    exact (List.getElem?_append_left hlt).trans hfile
  case h_9 file overlay offset trigger ctx hphase =>
    simp only [Option.some.injEq, Prod.mk.injEq] at hnext
    obtain ⟨rfl, -⟩ := hnext
    obtain ⟨hdocument, hfiles, -⟩ := s.cacheSemanticContext_frame (req.cacheKey overlay offset trigger) ctx
    rw [hdocument, hfiles]
    exact ⟨rfl, le_rfl, fun _ _ hfile _ => hfile⟩
  case h_6 =>
    dsimp only at hnext
    split at hnext <;>
    · cases hnext
      exact ⟨rfl, le_rfl, fun _ _ hfile _ => hfile⟩
  case h_1 | h_4 | h_10 =>
    cases hnext
    exact ⟨rfl, le_rfl, fun _ _ hfile _ => hfile⟩
  case h_5 | h_7 | h_8 =>
    obtain ⟨text, -, hnext⟩ := Option.map_eq_some_iff.mp hnext
    cases hnext
    exact ⟨rfl, le_rfl, fun _ _ hfile _ => hfile⟩
  case h_11 => cases hnext

theorem Shared.Own.compare (h : s.Own q) (req : Request Text Class Data Context) :
    (req.moveTo (s.compare req.snapshot.text)).PhaseOwn q s.files := by
  unfold Request.PhaseOwn Request.moveTo Shared.compare
  cases hregistered : s.registered with
  | none => trivial
  | some file =>
    by_cases hfile : s.files[file]? = some req.snapshot.text
    · simpa only [if_pos hfile] using hfile
    · simpa only [if_neg hfile] using h.registered_lt file hregistered

/-- A step that reads finds the request's own text. -/
theorem Shared.Own.advance {step : RequestStep} (h : s.Own q) (hreq : req.Own q s)
    (hlookUp : ∀ offset trigger, step = .lookUp offset trigger → ∀ file overlay,
      req.phase = .prepared file overlay .idle →
        find s.semanticContextCache (req.cacheKey overlay offset trigger) = none →
          s.files[file]? = some req.snapshot.text)
    (hnext : s.advance q req step = some (s', req')) : s'.Own q ∧ req'.Own q s' := by
  have hat := hreq.phase
  unfold Request.PhaseOwn at hat
  unfold Shared.advance at hnext
  split at hnext
  case h_1 hphase =>
    cases hnext
    exact ⟨h, hreq.moveTo (h.compare req)⟩
  case h_2 file hphase =>
    cases hnext
    rw [hphase] at hat
    refine ⟨⟨?_, h.cache⟩, ⟨hreq.version_le, hreq.text_eq, ?_, hreq.contexts⟩⟩
    · intro other hother
      rw [List.length_set]
      exact h.registered_lt other hother
    · exact List.getElem?_set_self hat
  case h_3 hphase =>
    cases hnext
    refine ⟨⟨?_, h.cache⟩, ⟨hreq.version_le, hreq.text_eq, ?_, hreq.contexts⟩⟩
    · intro other hother
      have hlt := h.registered_lt other hother
      simp only [List.length_append, List.length_singleton]
      omega
    · exact List.getElem?_concat_length
  case h_4 file hphase =>
    cases hnext
    rw [hphase] at hat
    refine ⟨⟨?_, h.cache⟩, ⟨hreq.version_le, hreq.text_eq, hat, hreq.contexts⟩⟩
    rintro other ⟨⟩
    exact (List.getElem?_eq_some_iff.mp hat).1
  case h_5 file hphase =>
    obtain ⟨text, htext, hnext⟩ := Option.map_eq_some_iff.mp hnext
    cases hnext
    rw [hphase] at hat
    cases htext.symm.trans hat
    exact ⟨h, hreq.moveTo ⟨rfl, trivial⟩⟩
  case h_6 offset trigger file overlay hphase =>
    rw [hphase] at hat
    dsimp only at hnext
    split at hnext
    case h_1 entry hfind =>
      cases hnext
      exact ⟨h, hreq.receive file hat.1 (h.found hreq hfind)⟩
    case h_2 hfind =>
      cases hnext
      have hfile := hlookUp offset trigger rfl file overlay hphase hfind
      exact ⟨h, hreq.moveTo ⟨hat.1, hfile⟩⟩
  case h_7 file overlay offset trigger hphase =>
    obtain ⟨text, htext, hnext⟩ := Option.map_eq_some_iff.mp hnext
    cases hnext
    rw [hphase] at hat
    cases htext.symm.trans hat.2
    exact ⟨h, hreq.moveTo ⟨hat.1, hat.2, rfl⟩⟩
  case h_8 file overlay offset trigger data hphase =>
    obtain ⟨text, htext, hnext⟩ := Option.map_eq_some_iff.mp hnext
    cases hnext
    rw [hphase] at hat
    obtain ⟨hoverlay, hfile, hdata⟩ := hat
    cases htext.symm.trans hfile
    refine ⟨h, hreq.moveTo ⟨hoverlay, ?_⟩⟩
    rw [hdata, hoverlay]
    rfl
  case h_9 file overlay offset trigger ctx hphase =>
    cases hnext
    rw [hphase] at hat
    obtain ⟨hoverlay, hctx⟩ := hat
    obtain ⟨hdocument, hfiles, -⟩ := s.cacheSemanticContext_frame (req.cacheKey overlay offset trigger) ctx
    refine ⟨h.cacheSemanticContext hreq hctx, ?_⟩
    refine (hreq.receive file hoverlay hctx).frame hdocument (by rw [hfiles]) ?_
    intro other _ hother
    rwa [hfiles]
  case h_10 file overlay stage hphase =>
    cases hnext
    rw [hphase] at hat
    exact ⟨h, hreq.moveTo ⟨hat.1, trivial⟩⟩
  case h_11 => cases hnext

section Step

variable {s next : State Text Class Data Context}

omit [DecidableEq Text] in
theorem State.Own.setRequest {shared : Shared Text Context} {request : ℕ}
    (hshared : shared.Own q) (hacting : req.Own q shared)
    (hothers : ∀ other ≠ request, ∀ reading, s.requests other = some reading → reading.Own q shared) :
    State.Own q ⟨shared, Function.update s.requests request (some req)⟩ where
  shared := hshared
  requests := by
    intro other reading hother
    by_cases heq : other = request
    · subst heq
      dsimp only at hother
      rw [Function.update_self] at hother
      cases hother
      exact hacting
    · dsimp only at hother
      rw [Function.update_of_ne heq] at hother
      exact hothers other heq reading hother

theorem State.Own.edit {version : ℤ} {text : Text} (h : s.Own q)
    (hnext : SharedSalsaFile.step q s (.edit version text) = some next) : next.Own q := by
  simp only [SharedSalsaFile.step, Option.ite_none_right_eq_some, Option.some.injEq] at hnext
  obtain ⟨hlt, rfl⟩ := hnext
  refine ⟨⟨h.shared.registered_lt, fun entry hentry => (by cases hentry)⟩, ?_⟩
  intro request req hreq
  have hown := h.requests request req hreq
  have hle := hown.version_le
  exact ⟨hle.trans hlt.le, fun heq => absurd heq (hle.trans_lt hlt).ne, hown.phase, hown.contexts⟩

theorem State.Own.takeSnapshot {request : ℕ} {scope : RequestScope} (h : s.Own q)
    (hnext : SharedSalsaFile.step q s (.takeSnapshot request scope) = some next) : next.Own q := by
  cases hfree : s.requests request with
  | some req => simp [SharedSalsaFile.step, hfree] at hnext
  | none =>
    simp only [SharedSalsaFile.step, hfree, Option.some.injEq] at hnext
    subst hnext
    refine State.Own.setRequest h.shared ?_ fun other _ => h.requests other
    exact ⟨le_rfl, fun _ => rfl, trivial, fun used hused => (by cases hused)⟩

theorem State.Own.advance {request : ℕ} {step : RequestStep} (h : s.Own q)
    (hnext : SharedSalsaFile.step q s (.advance request step) = some next)
    (hkeeps : KeepsFile s (.advance request step)) : next.Own q := by
  obtain ⟨req, hreq, hmap⟩ := Option.bind_eq_some_iff.mp hnext
  obtain ⟨⟨shared, req'⟩, hadvance, rfl⟩ := Option.map_eq_some_iff.mp hmap
  have hown := h.requests request req hreq
  have hlookUp : ∀ offset trigger, step = .lookUp offset trigger → ∀ file overlay,
      req.phase = .prepared file overlay .idle →
        find s.shared.semanticContextCache (req.cacheKey overlay offset trigger) = none →
          s.shared.files[file]? = some req.snapshot.text := by
    rintro offset trigger rfl file overlay hphase
    exact hkeeps req file overlay hreq hphase
  obtain ⟨hshared, hnextOwn⟩ := h.shared.advance hown hlookUp hadvance
  obtain ⟨hdocument, hlength, hfiles⟩ := Shared.advance_frame hadvance
  refine State.Own.setRequest hshared hnextOwn fun other _ reading hother => ?_
  refine (h.requests other reading hother).frame hdocument hlength ?_
  intro file hreads hfile
  refine hfiles file _ hfile ?_
  rintro rfl hphase
  exact hkeeps req file hreq hphase other reading hother hreads

theorem State.Own.step {action : Action Text} (h : s.Own q)
    (hnext : SharedSalsaFile.step q s action = some next) (hkeeps : KeepsFile s action) :
    next.Own q := by
  cases action with
  | edit version text => exact h.edit hnext
  | takeSnapshot request scope => exact h.takeSnapshot hnext
  | advance request step => exact h.advance hnext hkeeps

end Step

end

/-! ## A request that is overtaken -/

/-- What is computed from a text is the text. -/
def textQueries : Queries String String String (String × String) where
  extractClasses _ text := [text]
  extractContext text _ _ := text
  buildContext _ _ text data := (data, text)

def rootScope : RequestScope :=
  ⟨1, ⟨.root, .main, none⟩⟩

def contextSteps : List RequestStep :=
  [.extractOverlay, .lookUp 0 none, .extract, .build, .store]

/-- A request on a document without a salsa file, alone. -/
def aloneRun : List (Action String) :=
  [.takeSnapshot 0 rootScope, .advance 0 .compare, .advance 0 .create, .advance 0 .register] ++
    contextSteps.map (.advance 0)

/-- The first request has its snapshot before the edit, the second one after it; the first one brings the
salsa file back before the second one reads from it. -/
def overtakenRun : List (Action String) :=
  [.takeSnapshot 0 rootScope, .edit 2 "b", .takeSnapshot 1 rootScope, .advance 1 .compare,
    .advance 1 .update, .advance 0 .compare, .advance 0 .update] ++ contextSteps.map (.advance 1)

end JavaAnalyzer.Lsp.SharedSalsaFile
