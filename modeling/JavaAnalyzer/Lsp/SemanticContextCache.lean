import JavaAnalyzer.Index.Scope
import JavaAnalyzer.Library.Interleaving
import JavaAnalyzer.Library.MemoTable

/-! # The semantic contexts of a document

A document keeps the semantic contexts that were built for it, up to 256 of them. Two builders store into
this cache and read from it: `semantic_context` of `lsp/request_context.rs`, for completion and
go-to-definition, and `inlay_context_at_offset` of `language/java/editor_semantics.rs`, for inlay hints.
What they extract and build depends on the text and the index that a request was prepared for, which is
an `Analysis`; the builders themselves are taken as they are. -/

namespace JavaAnalyzer.Lsp
set_option autoImplicit false
open JavaAnalyzer.Index Interleaving MemoTable

/-! ## Contexts -/

/-- What a request was prepared for: `SemanticRequestScope`, by its versions. -/
structure SemanticRequestScope where
  documentVersion : ℤ
  workspaceVersion : UInt64
  analysis : AnalysisContextKey
  overlayClassCount : ℕ
deriving DecidableEq

structure SemanticContextCacheKey where
  scope : SemanticRequestScope
  offset : ℕ
  trigger : Option Char
deriving DecidableEq

/-- The fields that are changed after the context is built, and the others. -/
structure SemanticContext (Members Rest : Type) where
  enclosingInternalName : Option String
  currentClassMembers : Members
  inferredPackage : Option String
  rest : Rest
deriving DecidableEq

def SemanticContext.withInferredPackage {Members Rest : Type} (ctx : SemanticContext Members Rest)
    (pkg : String) : SemanticContext Members Rest :=
  { ctx with inferredPackage := some pkg }

/-- The text and the index of a request, as far as its contexts depend on them. -/
structure Analysis (Data Members Rest : Type) where
  isInComment : ℕ → Bool
  /-- `extract_java_completion_context_at_offset` -/
  extract : ℕ → Option Char → Data
  /-- `build_java_semantic_context` -/
  build : Data → SemanticContext Members Rest
  /-- No context is built with an inferred package. -/
  build_inferredPackage : ∀ data, (build data).inferredPackage = none
  inferredPackage : Option String
  /-- `indexed_source_class_covers_file` -/
  indexedSourceClassCoversFile : Option String → Bool
  noMembers : Members

section

variable {Data Members Rest : Type}

namespace Analysis

variable (a : Analysis Data Members Rest)

/-- What `semantic_context` builds. -/
def semanticContext (offset : ℕ) (trigger : Option Char) : SemanticContext Members Rest :=
  let ctx := a.build (a.extract offset trigger)
  match a.inferredPackage with
  | some pkg => ctx.withInferredPackage pkg
  | none => ctx

/-- `extract_java_semantic_context_at_offset_with_analysis` -/
def inlayContext (offset : ℕ) : Option (SemanticContext Members Rest) :=
  if a.isInComment offset then none else some (a.build (a.extract offset none))

/-- The members are left to the index when it has the class from the same file. -/
def withoutIndexedMembers (ctx : SemanticContext Members Rest) : SemanticContext Members Rest :=
  if a.indexedSourceClassCoversFile ctx.enclosingInternalName then
    { ctx with currentClassMembers := a.noMembers }
  else ctx

end Analysis

/-! ## The document -/

inductive Builder where
  | request
  | inlay
deriving DecidableEq

/-- An entry's origin is the builder that stored it and the key. -/
abbrev ContextTable (Members Rest : Type) :=
  Table SemanticContextCacheKey (Builder × SemanticContextCacheKey) (SemanticContext Members Rest)

def semanticContextCacheLimit : ℕ := 256

/-- The open document, and the caches of the inlay requests that are at work on it. -/
structure DocumentState (Members Rest : Type) where
  version : ℤ
  semanticContextCache : ContextTable Members Rest
  inlays : ℕ → Option (SemanticRequestScope × AList fun _ : ℕ => SemanticContext Members Rest)

namespace DocumentState

variable (doc : DocumentState Members Rest)

def opened (version : ℤ) : DocumentState Members Rest :=
  ⟨version, [], fun _ => none⟩

/-- `update_source` and `set_tree`, which clear the cache. -/
def updateSource (version : ℤ) : DocumentState Members Rest :=
  { doc with version := version, semanticContextCache := [] }

/-- `cached_semantic_context`, which does not count as a use. -/
def cachedSemanticContext (key : SemanticContextCacheKey) : Option (SemanticContext Members Rest) :=
  (find doc.semanticContextCache key).map Entry.value

/-- Stored only while the document is at the key's version. -/
def cacheSemanticContext (builder : Builder) (key : SemanticContextCacheKey)
    (ctx : SemanticContext Members Rest) : DocumentState Members Rest :=
  if doc.version = key.scope.documentVersion then
    { doc with
      semanticContextCache :=
        put semanticContextCacheLimit doc.semanticContextCache ⟨key, ctx, (builder, key)⟩ }
  else doc

end DocumentState

/-! ## Requests -/

inductive ContextCall where
  | updateSource (version : ℤ)
  | semanticContext (scope : SemanticRequestScope) (offset : ℕ) (trigger : Option Char)
  | beginInlay (request : ℕ) (scope : SemanticRequestScope)
  | inlayContextAtOffset (request : ℕ) (offset : ℕ)

variable (env : SemanticRequestScope → Analysis Data Members Rest)

/-- `PreparedRequest::semantic_context` -/
def semanticContext (doc : DocumentState Members Rest) (key : SemanticContextCacheKey) :
    SemanticContext Members Rest × DocumentState Members Rest :=
  match doc.cachedSemanticContext key with
  | some cached => (cached, doc)
  | none =>
    let ctx := (env key.scope).semanticContext key.offset key.trigger
    (ctx, doc.cacheSemanticContext .request key ctx)

/-- `inlay_context_at_offset`, behind the request's own cache. -/
def inlayContext (doc : DocumentState Members Rest) (scope : SemanticRequestScope) (offset : ℕ) :
    Option (SemanticContext Members Rest) × DocumentState Members Rest :=
  let key : SemanticContextCacheKey := ⟨scope, offset, none⟩
  match doc.cachedSemanticContext key with
  | some cached => (some ((env scope).withoutIndexedMembers cached), doc)
  | none =>
    match (env scope).inlayContext offset with
    | none => (none, doc)
    | some rawCtx =>
      (some ((env scope).withoutIndexedMembers rawCtx), doc.cacheSemanticContext .inlay key rawCtx)

/-- The context that a call obtains, and the document after it. -/
def serve (doc : DocumentState Members Rest) :
    ContextCall → Option (SemanticContext Members Rest) × DocumentState Members Rest
  | .updateSource version => (none, doc.updateSource version)
  | .semanticContext scope offset trigger =>
    let served := semanticContext env doc ⟨scope, offset, trigger⟩
    (some served.1, served.2)
  | .beginInlay request scope =>
    (none, { doc with inlays := Function.update doc.inlays request (some (scope, ∅)) })
  | .inlayContextAtOffset request offset =>
    match doc.inlays request with
    | none => (none, doc)
    | some (scope, cache) =>
      match cache.lookup offset with
      | some ctx => (some ctx, doc)
      | none =>
        let served := inlayContext env doc scope offset
        match served.1 with
        | none => (none, served.2)
        | some ctx =>
          (some ctx, { served.2 with
            inlays := Function.update served.2.inlays request (some (scope, cache.insert offset ctx)) })

def serveStep (doc : DocumentState Members Rest) (call : ContextCall) :
    Option (DocumentState Members Rest) :=
  some (serve env doc call).2

/-- The context that the call obtains when nothing is cached. -/
def freshContext (doc : DocumentState Members Rest) (call : ContextCall) :
    Option (SemanticContext Members Rest) :=
  (serve env { doc with
    semanticContextCache := []
    inlays := fun request => (doc.inlays request).map fun inlay => (inlay.1, ∅) } call).1

/-! ## What the cache holds -/

/-- The context that a builder stores under a key. -/
def storedContext (origin : Builder × SemanticContextCacheKey) : SemanticContext Members Rest :=
  match origin.1 with
  | .request => (env origin.2.scope).semanticContext origin.2.offset origin.2.trigger
  | .inlay => (env origin.2.scope).build ((env origin.2.scope).extract origin.2.offset none)

/-- The context that an inlay request builds at the offset. -/
def freshInlay (scope : SemanticRequestScope) (offset : ℕ) : Option (SemanticContext Members Rest) :=
  ((env scope).inlayContext offset).map (env scope).withoutIndexedMembers

/-- Entries are what their builder stores; inlay requests store under no trigger and outside of comments,
and what they keep themselves is what they would build. -/
structure DocumentState.Invariant (doc : DocumentState Members Rest) : Prop where
  sound : Sound Prod.snd (storedContext env) doc.semanticContextCache
  inlay_origin : ∀ entry ∈ doc.semanticContextCache, entry.origin.1 = .inlay →
    entry.origin.2.trigger = none ∧
      (env entry.origin.2.scope).isInComment entry.origin.2.offset = false
  inlay_fresh : ∀ request scope cache, doc.inlays request = some (scope, cache) →
    ∀ offset ctx, cache.lookup offset = some ctx → some ctx = freshInlay env scope offset

/-- The entry that a call finds was stored by the same builder, or the other builder builds the same:
there is no inferred package, and the offset of an inlay hint is in no comment. -/
def SameBuilder (doc : DocumentState Members Rest) : ContextCall → Prop
  | .semanticContext scope offset trigger =>
    ∀ entry, find doc.semanticContextCache ⟨scope, offset, trigger⟩ = some entry →
      entry.origin.1 = .inlay → (env scope).inferredPackage = none
  | .inlayContextAtOffset request offset =>
    ∀ scope cache, doc.inlays request = some (scope, cache) → cache.lookup offset = none →
      ∀ entry, find doc.semanticContextCache ⟨scope, offset, none⟩ = some entry →
        entry.origin.1 = .request →
          (env scope).inferredPackage = none ∧ (env scope).isInComment offset = false
  | _ => True

variable {env} {doc : DocumentState Members Rest}

theorem Analysis.semanticContext_eq_iff (a : Analysis Data Members Rest) (offset : ℕ) :
    a.build (a.extract offset none) = a.semanticContext offset none ↔ a.inferredPackage = none := by
  unfold Analysis.semanticContext
  cases hpkg : a.inferredPackage with
  | none => simp
  | some pkg =>
    simp only [reduceCtorEq, iff_false]
    intro h
    have hinferred := congrArg SemanticContext.inferredPackage h
    rw [a.build_inferredPackage] at hinferred
    cases hinferred

theorem Analysis.withoutIndexedMembers_inferredPackage (a : Analysis Data Members Rest)
    (ctx : SemanticContext Members Rest) :
    (a.withoutIndexedMembers ctx).inferredPackage = ctx.inferredPackage := by
  unfold Analysis.withoutIndexedMembers
  split <;> rfl

/-- The entry found under a key is the one that its builder stores there. -/
theorem DocumentState.Invariant.found (h : doc.Invariant env) {key : SemanticContextCacheKey}
    {entry : Entry SemanticContextCacheKey (Builder × SemanticContextCacheKey)
      (SemanticContext Members Rest)}
    (hfind : find doc.semanticContextCache key = some entry) :
    entry ∈ doc.semanticContextCache ∧ entry.origin.2 = key ∧
      entry.value = storedContext env entry.origin := by
  have hmem := mem_of_find hfind
  obtain ⟨hkey, hvalue⟩ := h.sound entry hmem
  have hfound : entry.key = key := by simpa using List.find?_some hfind
  exact ⟨hmem, hkey.symm.trans hfound, hvalue⟩

theorem DocumentState.Invariant.semanticContext_iff (h : doc.Invariant env)
    (key : SemanticContextCacheKey) :
    (semanticContext env doc key).1 = (env key.scope).semanticContext key.offset key.trigger ↔
      ∀ entry, find doc.semanticContextCache key = some entry → entry.origin.1 = .inlay →
        (env key.scope).inferredPackage = none := by
  unfold Lsp.semanticContext DocumentState.cachedSemanticContext
  cases hfind : find doc.semanticContextCache key with
  | none => simp
  | some entry =>
    obtain ⟨hmem, hkey, hvalue⟩ := h.found hfind
    simp only [Option.map_some, Option.some.injEq, forall_eq']
    rw [hvalue]
    subst hkey
    cases hbuilder : entry.origin.1 with
    | request => simp [storedContext, hbuilder]
    | inlay =>
      obtain ⟨htrigger, -⟩ := h.inlay_origin entry hmem hbuilder
      simp only [storedContext, hbuilder, htrigger, Analysis.semanticContext_eq_iff, true_imp_iff]

theorem DocumentState.Invariant.inlayContext_iff (h : doc.Invariant env)
    (scope : SemanticRequestScope) (offset : ℕ) :
    (inlayContext env doc scope offset).1 = freshInlay env scope offset ↔
      ∀ entry, find doc.semanticContextCache ⟨scope, offset, none⟩ = some entry →
        entry.origin.1 = .request →
          (env scope).inferredPackage = none ∧ (env scope).isInComment offset = false := by
  cases hfind : find doc.semanticContextCache ⟨scope, offset, none⟩ with
  | none =>
    cases hfresh : (env scope).inlayContext offset <;>
      simp [Lsp.inlayContext, DocumentState.cachedSemanticContext, freshInlay, hfind, hfresh]
  | some entry =>
    obtain ⟨hmem, hkey, hvalue⟩ := h.found hfind
    simp only [Lsp.inlayContext, DocumentState.cachedSemanticContext, freshInlay, hfind,
      Option.map_some, Option.some.injEq, forall_eq']
    rw [hvalue]
    cases hbuilder : entry.origin.1 with
    | inlay =>
      obtain ⟨-, hcomment⟩ := h.inlay_origin entry hmem hbuilder
      rw [hkey] at hcomment
      simp [storedContext, hbuilder, hkey, Analysis.inlayContext, hcomment]
    | request =>
      simp only [storedContext, hbuilder, hkey, true_imp_iff, Analysis.inlayContext]
      cases hcomment : (env scope).isInComment offset with
      | true => simp
      | false =>
        simp only [Bool.false_eq_true, if_false, Option.map_some, Option.some.injEq, and_true]
        constructor
        · intro heq
          have hinferred := congrArg SemanticContext.inferredPackage heq
          rw [Analysis.withoutIndexedMembers_inferredPackage,
            Analysis.withoutIndexedMembers_inferredPackage, Analysis.build_inferredPackage] at hinferred
          by_contra hpkg
          obtain ⟨pkg, hpkg⟩ := Option.ne_none_iff_exists'.mp hpkg
          simp [Analysis.semanticContext, hpkg, SemanticContext.withInferredPackage] at hinferred
        · intro hpkg
          rw [(Analysis.semanticContext_eq_iff _ offset).mpr hpkg]

/-! ## The steps -/

theorem DocumentState.invariant_opened (version : ℤ) :
    (DocumentState.opened version : DocumentState Members Rest).Invariant env where
  sound := sound_nil
  inlay_origin := fun _ h => (by cases h)
  inlay_fresh := fun _ _ _ h => (by cases h)

theorem DocumentState.Invariant.updateSource (h : doc.Invariant env) (version : ℤ) :
    (doc.updateSource version).Invariant env where
  sound := sound_nil
  inlay_origin := fun _ h => (by cases h)
  inlay_fresh := h.inlay_fresh

/-- A builder's own context is stored; an inlay request has one only outside of comments. -/
theorem DocumentState.Invariant.cacheSemanticContext (h : doc.Invariant env) (builder : Builder)
    (key : SemanticContextCacheKey) (hinlay : builder = .inlay → key.trigger = none ∧
      (env key.scope).isInComment key.offset = false) :
    (doc.cacheSemanticContext builder key (storedContext env (builder, key))).Invariant env := by
  unfold DocumentState.cacheSemanticContext
  split
  · refine ⟨h.sound.put (builder, key), fun entry hentry => ?_, h.inlay_fresh⟩
    cases mem_put hentry with
    | inl heq => exact heq ▸ hinlay
    | inr hmem => exact h.inlay_origin entry hmem
  · exact h

theorem DocumentState.cacheSemanticContext_inlays (builder : Builder)
    (key : SemanticContextCacheKey) (ctx : SemanticContext Members Rest) :
    (doc.cacheSemanticContext builder key ctx).inlays = doc.inlays := by
  unfold DocumentState.cacheSemanticContext
  split <;> rfl

theorem DocumentState.Invariant.semanticContext (h : doc.Invariant env)
    (key : SemanticContextCacheKey) : (Lsp.semanticContext env doc key).2.Invariant env := by
  unfold Lsp.semanticContext
  cases doc.cachedSemanticContext key with
  | some cached => exact h
  | none => exact h.cacheSemanticContext .request key fun heq => (by cases heq)

theorem DocumentState.Invariant.inlayContext (h : doc.Invariant env)
    (scope : SemanticRequestScope) (offset : ℕ) :
    (Lsp.inlayContext env doc scope offset).2.Invariant env ∧
      (Lsp.inlayContext env doc scope offset).2.inlays = doc.inlays := by
  unfold Lsp.inlayContext
  dsimp only
  cases doc.cachedSemanticContext ⟨scope, offset, none⟩ with
  | some cached => exact ⟨h, rfl⟩
  | none =>
    unfold Analysis.inlayContext
    cases hcomment : (env scope).isInComment offset with
    | true => exact ⟨h, rfl⟩
    | false =>
      exact ⟨h.cacheSemanticContext .inlay ⟨scope, offset, none⟩ fun _ => ⟨rfl, hcomment⟩,
        DocumentState.cacheSemanticContext_inlays _ _ _⟩

/-- An inlay request keeps what it was given, if that was what it builds. -/
theorem DocumentState.Invariant.keepInlay (h : doc.Invariant env) {request : ℕ}
    {scope : SemanticRequestScope} {cache : AList fun _ : ℕ => SemanticContext Members Rest}
    (hcache : ∀ offset ctx, cache.lookup offset = some ctx → some ctx = freshInlay env scope offset) :
    DocumentState.Invariant env
      { doc with inlays := Function.update doc.inlays request (some (scope, cache)) } where
  sound := h.sound
  inlay_origin := h.inlay_origin
  inlay_fresh := by
    intro other scope' cache' hother
    dsimp only at hother
    by_cases heq : other = request
    · rw [heq, Function.update_self, Option.some.injEq, Prod.mk.injEq] at hother
      rw [← hother.1, ← hother.2]
      exact hcache
    · rw [Function.update_of_ne heq] at hother
      exact h.inlay_fresh other scope' cache' hother

theorem freshContext_inlay {request : ℕ} {scope : SemanticRequestScope}
    {cache : AList fun _ : ℕ => SemanticContext Members Rest}
    (hinlay : doc.inlays request = some (scope, cache)) (offset : ℕ) :
    freshContext env doc (.inlayContextAtOffset request offset) = freshInlay env scope offset := by
  simp only [freshContext, serve, hinlay, Option.map_some, AList.lookup_empty]
  cases hfresh : (env scope).inlayContext offset <;>
    simp [Lsp.inlayContext, DocumentState.cachedSemanticContext, freshInlay, hfresh, find]

/-- A call obtains what it would build exactly when it finds no entry of the other builder, or one that
is the same. -/
theorem DocumentState.Invariant.serve_iff (h : doc.Invariant env) (call : ContextCall) :
    (serve env doc call).1 = freshContext env doc call ↔ SameBuilder env doc call := by
  cases call with
  | updateSource version => exact iff_of_true rfl trivial
  | beginInlay request scope => exact iff_of_true rfl trivial
  | semanticContext scope offset trigger =>
    have hfresh : freshContext env doc (.semanticContext scope offset trigger) =
        some ((env scope).semanticContext offset trigger) := rfl
    rw [hfresh, serve, Option.some.injEq]
    exact h.semanticContext_iff ⟨scope, offset, trigger⟩
  | inlayContextAtOffset request offset =>
    cases hinlay : doc.inlays request with
    | none => simp [serve, freshContext, SameBuilder, hinlay]
    | some inlay =>
      obtain ⟨scope, cache⟩ := inlay
      rw [freshContext_inlay hinlay]
      simp only [serve, hinlay, SameBuilder, Option.some.injEq, Prod.mk.injEq, and_imp,
        forall_apply_eq_imp_iff, forall_eq']
      cases hcache : cache.lookup offset with
      | some ctx =>
        exact iff_of_true (h.inlay_fresh request scope cache hinlay offset ctx hcache)
          fun hnone => (by cases hnone)
      | none =>
        simp only [true_imp_iff]
        rw [← h.inlayContext_iff scope offset]
        cases hserved : (Lsp.inlayContext env doc scope offset).1 <;> rfl

theorem DocumentState.Invariant.serve (h : doc.Invariant env) {call : ContextCall}
    (hfresh : (Lsp.serve env doc call).1 = freshContext env doc call) :
    (Lsp.serve env doc call).2.Invariant env := by
  cases call with
  | updateSource version => exact h.updateSource version
  | semanticContext scope offset trigger => exact h.semanticContext ⟨scope, offset, trigger⟩
  | beginInlay request scope => exact h.keepInlay fun offset ctx hlookup => (by cases hlookup)
  | inlayContextAtOffset request offset =>
    cases hinlay : doc.inlays request with
    | none => simpa only [Lsp.serve, hinlay] using h
    | some inlay =>
      obtain ⟨scope, cache⟩ := inlay
      obtain ⟨hnext, hinlays⟩ := h.inlayContext scope offset
      rw [freshContext_inlay hinlay] at hfresh
      simp only [Lsp.serve, hinlay] at hfresh ⊢
      cases hcache : cache.lookup offset with
      | some ctx => exact h
      | none =>
        cases hserved : (Lsp.inlayContext env doc scope offset).1 with
        | none => exact hnext
        | some ctx =>
          simp only [hcache, hserved] at hfresh
          refine hnext.keepInlay fun other ctx' hlookup => ?_
          by_cases heq : other = offset
          · rw [heq, AList.lookup_insert, Option.some.injEq] at hlookup
            rw [heq, ← hlookup]
            exact hfresh
          · rw [AList.lookup_insert_ne heq] at hlookup
            exact h.inlay_fresh request scope cache hinlay other ctx' hlookup

end

/-! ## A completion before an inlay hint -/

/-- A file without a package declaration, in the directory of a package. -/
def undeclaredPackage : Analysis Unit Unit Unit where
  isInComment _ := false
  extract _ _ := ()
  build _ := ⟨none, (), none, ()⟩
  build_inferredPackage _ := rfl
  inferredPackage := some "org.example"
  indexedSourceClassCoversFile _ := false
  noMembers := ()

def firstScope : SemanticRequestScope where
  documentVersion := 1
  workspaceVersion := 1
  analysis := ⟨.root, .main, none⟩
  overlayClassCount := 0

def definitionThenHint : List ContextCall :=
  [.semanticContext firstScope 0 none, .beginInlay 0 firstScope, .inlayContextAtOffset 0 0]

end JavaAnalyzer.Lsp
