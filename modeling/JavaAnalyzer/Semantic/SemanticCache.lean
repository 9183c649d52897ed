import JavaAnalyzer.Library.Dedup
import JavaAnalyzer.Library.Interleaving
import JavaAnalyzer.Library.MemoTable
import JavaAnalyzer.Semantic.TypeName

/-! # The content-hash caches

`SemanticCache` of `workspace.rs` keeps the local variables of methods and the members of classes under a
hash of the method's or the class's own text, and `extract_visible_method_locals_incremental` and
`extract_class_members_incremental` of `salsa_queries/semantic.rs` read it. What the walks over the
syntax tree find is an `Extraction`: it depends on the whole file, on where the method or class stands in
it, and on the index that names are resolved with. -/

namespace JavaAnalyzer.Semantic
set_option autoImplicit false
open Dedup Interleaving MemoTable

inductive LocalVarDeclKind where
  | explicit
  | varSyntax
deriving DecidableEq, Repr

structure LocalVar where
  name : String
  typeInternal : TypeName
  declKind : LocalVarDeclKind
  initExpr : Option String
deriving Repr

structure ScopeRange where
  start : ℕ
  stop : ℕ
deriving DecidableEq, Repr

structure CachedMethodLocal where
  localVar : LocalVar
  declarationStart : ℕ
  visibilityScope : ScopeRange
deriving Repr

/-- The salsa input of a file. -/
structure SourceInput where
  languageId : String
  content : List Char
deriving DecidableEq, Repr

/-- A stretch of a file, and the index that names in it are resolved with. -/
structure Region (View : Type) where
  file : SourceInput
  view : View
  start : ℕ
  stop : ℕ

/-- What the walks over the syntax tree of a file find. -/
structure Extraction (View Member : Type) where
  findEnclosingMethodBounds : SourceInput → ℕ → Option (ℕ × ℕ)
  findEnclosingClassBounds : SourceInput → ℕ → Option (ℕ × ℕ)
  parseMethodLocals : Region View → List CachedMethodLocal
  parseClassMembers : Region View → List Member
  /-- `collect_method_locals` at the root of a file, for a cursor in no method. -/
  collectRootLocals : SourceInput → View → ℕ → List CachedMethodLocal
  extractActiveLambdaParams : SourceInput → View → ℕ → List CachedMethodLocal

/-! ## The locals at a cursor -/

def scopeContainsOffset (scope : ScopeRange) (offset : ℕ) : Bool :=
  scope.start ≤ offset && offset < scope.stop

def filterVisibleLocals (locals : List CachedMethodLocal) (cursorOffset : ℕ) :
    List CachedMethodLocal :=
  locals.filter fun l =>
    l.declarationStart < cursorOffset && scopeContainsOffset l.visibilityScope cursorOffset

/-- The order of the sort: what is declared last comes first. -/
def CachedMethodLocal.Before (a b : CachedMethodLocal) : Prop :=
  b.declarationStart < a.declarationStart ∨ b.declarationStart = a.declarationStart ∧
    (b.visibilityScope.start < a.visibilityScope.start ∨
      b.visibilityScope.start = a.visibilityScope.start ∧
        b.visibilityScope.stop ≤ a.visibilityScope.stop)

instance : DecidableRel CachedMethodLocal.Before := fun a b => by
  unfold CachedMethodLocal.Before
  infer_instance

def normalizeVisibleLocals (vars : List CachedMethodLocal) : List LocalVar :=
  dedupBy LocalVar.name []
    ((vars.insertionSort CachedMethodLocal.Before).map CachedMethodLocal.localVar)

/-- `materialize_method_locals`: what is declared first comes first, without repetitions. -/
def materializeMethodLocals (locals : List CachedMethodLocal) : List LocalVar :=
  (dedupBy (fun l => (l.localVar.name, l.declarationStart, l.visibilityScope.start,
    l.visibilityScope.stop)) [] (locals.insertionSort fun a b => b.Before a)).map
      CachedMethodLocal.localVar

/-! ## The caches -/

/-- `content_hash` is taken of the stretch, or of the empty text when it is not in the file. -/
def Region.text {View : Type} (region : Region View) : List Char :=
  if region.stop ≤ region.file.content.length then
    (region.file.content.drop region.start).take (region.stop - region.start)
  else []

def methodLocalsCacheLimit : ℕ := 512

def classMembersCacheLimit : ℕ := 512

structure SemanticCache (Hash View Member : Type) where
  methodLocals : Table Hash (Region View) (List CachedMethodLocal)
  classMembers : Table Hash (Region View) (List Member)

def SemanticCache.new {Hash View Member : Type} : SemanticCache Hash View Member :=
  ⟨[], []⟩

section

variable {Hash View Member : Type} [DecidableEq Hash] (hash : List Char → Hash)
  (extraction : Extraction View Member)

def contentHash (region : Region View) : Hash :=
  hash region.text

def getOrParseMethodLocals (cache : SemanticCache Hash View Member) (region : Region View) :
    List CachedMethodLocal × SemanticCache Hash View Member :=
  let answer := ask methodLocalsCacheLimit (contentHash hash) extraction.parseMethodLocals
    cache.methodLocals region
  (answer.1, { cache with methodLocals := answer.2 })

/-- What is shown at the cursor of the locals of its method. -/
def visibleLocals (file : SourceInput) (view : View) (cursorOffset : ℕ)
    (locals : List CachedMethodLocal) : List LocalVar :=
  normalizeVisibleLocals (filterVisibleLocals locals cursorOffset ++
    extraction.extractActiveLambdaParams file view cursorOffset)

def extractRootRecoveryLocals (file : SourceInput) (view : View) (cursorOffset : ℕ) :
    List LocalVar :=
  visibleLocals extraction file view cursorOffset
    (extraction.collectRootLocals file view cursorOffset)

def extractVisibleMethodLocalsIncremental (file : SourceInput) (view : View) (cursorOffset : ℕ)
    (cache : SemanticCache Hash View Member) : List LocalVar × SemanticCache Hash View Member :=
  match extraction.findEnclosingMethodBounds file cursorOffset with
  | none => (extractRootRecoveryLocals extraction file view cursorOffset, cache)
  | some (start, stop) =>
    let cached := getOrParseMethodLocals hash extraction cache ⟨file, view, start, stop⟩
    (visibleLocals extraction file view cursorOffset cached.1, cached.2)

def extractMethodLocalsIncremental (file : SourceInput) (view : View) (cursorOffset : ℕ)
    (cache : SemanticCache Hash View Member) : List LocalVar × SemanticCache Hash View Member :=
  match extraction.findEnclosingMethodBounds file cursorOffset with
  | none => ([], cache)
  | some (start, stop) =>
    let cached := getOrParseMethodLocals hash extraction cache ⟨file, view, start, stop⟩
    (materializeMethodLocals cached.1, cached.2)

def extractClassMembersIncremental (file : SourceInput) (view : View) (cursorOffset : ℕ)
    (cache : SemanticCache Hash View Member) : List Member × SemanticCache Hash View Member :=
  match extraction.findEnclosingClassBounds file cursorOffset with
  | none => ([], cache)
  | some (start, stop) =>
    let answer := ask classMembersCacheLimit (contentHash hash) extraction.parseClassMembers
      cache.classMembers ⟨file, view, start, stop⟩
    (answer.1, { cache with classMembers := answer.2 })

/-! ## Histories -/

/-- The files, the index as names are resolved with it, and the caches. -/
structure SemanticState (Hash View Member : Type) where
  files : String → SourceInput
  view : View
  cache : SemanticCache Hash View Member

inductive SemanticAction (View : Type)
  | edit (uri : String) (file : SourceInput)
  | updateIndex (view : View)
  | clearEphemeralCaches
  | visibleMethodLocals (uri : String) (cursorOffset : ℕ)
  | methodLocals (uri : String) (cursorOffset : ℕ)
  | classMembers (uri : String) (cursorOffset : ℕ)

namespace SemanticState

def new (files : String → SourceInput) (view : View) : SemanticState Hash View Member :=
  ⟨files, view, .new⟩

def visibleMethodLocals (s : SemanticState Hash View Member) (uri : String) (cursorOffset : ℕ) :
    List LocalVar × SemanticCache Hash View Member :=
  extractVisibleMethodLocalsIncremental hash extraction (s.files uri) s.view cursorOffset s.cache

def methodLocals (s : SemanticState Hash View Member) (uri : String) (cursorOffset : ℕ) :
    List LocalVar × SemanticCache Hash View Member :=
  extractMethodLocalsIncremental hash extraction (s.files uri) s.view cursorOffset s.cache

def classMembers (s : SemanticState Hash View Member) (uri : String) (cursorOffset : ℕ) :
    List Member × SemanticCache Hash View Member :=
  extractClassMembersIncremental hash extraction (s.files uri) s.view cursorOffset s.cache

def step (s : SemanticState Hash View Member) :
    SemanticAction View → Option (SemanticState Hash View Member)
  | .edit uri file => some { s with files := Function.update s.files uri file }
  | .updateIndex view => some { s with view := view }
  | .clearEphemeralCaches => some { s with cache := .new }
  | .visibleMethodLocals uri cursorOffset =>
    some { s with cache := (s.visibleMethodLocals hash extraction uri cursorOffset).2 }
  | .methodLocals uri cursorOffset =>
    some { s with cache := (s.methodLocals hash extraction uri cursorOffset).2 }
  | .classMembers uri cursorOffset =>
    some { s with cache := (s.classMembers hash extraction uri cursorOffset).2 }

/-- The same files and index, in a workspace that has asked for nothing yet. -/
def emptied (s : SemanticState Hash View Member) : SemanticState Hash View Member :=
  .new s.files s.view

/-! ## When an entry is good for the present file -/

/-- The locals of the method that a cached entry was parsed from look the same at the cursor as those of
the method there. -/
def LocalsCurrent (s : SemanticState Hash View Member) (uri : String) (cursorOffset : ℕ) : Prop :=
  ∀ start stop, extraction.findEnclosingMethodBounds (s.files uri) cursorOffset = some (start, stop) →
    ∀ entry, find s.cache.methodLocals (contentHash hash ⟨s.files uri, s.view, start, stop⟩) =
        some entry →
      visibleLocals extraction (s.files uri) s.view cursorOffset
          (extraction.parseMethodLocals entry.origin) =
        visibleLocals extraction (s.files uri) s.view cursorOffset
          (extraction.parseMethodLocals ⟨s.files uri, s.view, start, stop⟩)

/-- The class that a cached entry was parsed from has the members of the class at the cursor. -/
def MembersCurrent (s : SemanticState Hash View Member) (uri : String) (cursorOffset : ℕ) : Prop :=
  ∀ start stop, extraction.findEnclosingClassBounds (s.files uri) cursorOffset = some (start, stop) →
    ∀ entry, find s.cache.classMembers (contentHash hash ⟨s.files uri, s.view, start, stop⟩) =
        some entry →
      extraction.parseClassMembers entry.origin =
        extraction.parseClassMembers ⟨s.files uri, s.view, start, stop⟩

/-! ## Every history -/

variable {hash extraction}

/-- Every entry is what the extraction finds in its own origin. -/
def Invariant (hash : List Char → Hash) (extraction : Extraction View Member)
    (s : SemanticState Hash View Member) : Prop :=
  Sound (contentHash hash) extraction.parseMethodLocals s.cache.methodLocals ∧
    Sound (contentHash hash) extraction.parseClassMembers s.cache.classMembers

theorem Invariant.getOrParse {s : SemanticState Hash View Member} (h : s.Invariant hash extraction)
    (region : Region View) :
    Invariant hash extraction
      { s with cache := (getOrParseMethodLocals hash extraction s.cache region).2 } :=
  ⟨h.1.ask region, h.2⟩

theorem Invariant.step {s next : SemanticState Hash View Member} (h : s.Invariant hash extraction)
    {a : SemanticAction View} (hnext : s.step hash extraction a = some next) :
    next.Invariant hash extraction := by
  cases a with
  | edit uri file =>
    cases hnext
    exact h
  | updateIndex view =>
    cases hnext
    exact h
  | clearEphemeralCaches =>
    cases hnext
    exact ⟨sound_nil, sound_nil⟩
  | visibleMethodLocals uri cursorOffset =>
    cases hnext
    unfold SemanticState.visibleMethodLocals extractVisibleMethodLocalsIncremental
    split
    · exact h
    · exact h.getOrParse _
  | methodLocals uri cursorOffset =>
    cases hnext
    unfold SemanticState.methodLocals extractMethodLocalsIncremental
    split
    · exact h
    · exact h.getOrParse _
  | classMembers uri cursorOffset =>
    cases hnext
    unfold SemanticState.classMembers extractClassMembersIncremental
    split
    · exact h
    · exact ⟨h.1, h.2.ask _⟩

theorem Invariant.locals_iff {s : SemanticState Hash View Member}
    (h : s.Invariant hash extraction) (uri : String) (cursorOffset : ℕ) :
    (s.visibleMethodLocals hash extraction uri cursorOffset).1 =
        (s.emptied.visibleMethodLocals hash extraction uri cursorOffset).1 ↔
      s.LocalsCurrent hash extraction uri cursorOffset := by
  unfold LocalsCurrent SemanticState.visibleMethodLocals extractVisibleMethodLocalsIncremental
  simp only [emptied, new]
  cases hbounds : extraction.findEnclosingMethodBounds (s.files uri) cursorOffset with
  | none => exact iff_of_true rfl fun _ _ hsome => (by cases hsome)
  | some bounds =>
    obtain ⟨start, stop⟩ := bounds
    refine (h.1.ask_iff ⟨s.files uri, s.view, start, stop⟩
      (visibleLocals extraction (s.files uri) s.view cursorOffset)).trans ?_
    constructor
    · intro hcond _ _ hsome
      cases hsome
      exact hcond
    · intro hcond
      exact hcond start stop rfl

theorem Invariant.members_iff {s : SemanticState Hash View Member}
    (h : s.Invariant hash extraction) (uri : String) (cursorOffset : ℕ) :
    (s.classMembers hash extraction uri cursorOffset).1 =
        (s.emptied.classMembers hash extraction uri cursorOffset).1 ↔
      s.MembersCurrent hash extraction uri cursorOffset := by
  unfold MembersCurrent SemanticState.classMembers extractClassMembersIncremental
  simp only [emptied, new]
  cases hbounds : extraction.findEnclosingClassBounds (s.files uri) cursorOffset with
  | none => exact iff_of_true rfl fun _ _ hsome => (by cases hsome)
  | some bounds =>
    obtain ⟨start, stop⟩ := bounds
    refine (h.2.ask_iff ⟨s.files uri, s.view, start, stop⟩ id).trans ?_
    constructor
    · intro hcond _ _ hsome
      cases hsome
      exact hcond
    · intro hcond
      exact hcond start stop rfl

end SemanticState

end

/-! ## A method that moves -/

/-- The beginnings of the method in the text. -/
def methodStarts (method content : List Char) : List ℕ :=
  (List.range content.length).filter fun start => method.isPrefixOf (content.drop start)

/-- Where the one local of `void m(){int a; }` is found. -/
def plainExtraction : Extraction Unit Unit where
  findEnclosingMethodBounds file cursorOffset :=
    ((methodStarts "void m(){int a; }".toList file.content).find? fun start =>
      start ≤ cursorOffset && cursorOffset < start + 17).map fun start => (start, start + 17)
  findEnclosingClassBounds _ _ := none
  parseMethodLocals region :=
    [⟨⟨"a", .withKind "int" .primitive, .explicit, none⟩, region.start + 13,
      ⟨region.start + 8, region.start + 17⟩⟩]
  parseClassMembers _ := []
  collectRootLocals _ _ _ := []
  extractActiveLambdaParams _ _ _ := []

def plainFile : SourceInput :=
  ⟨"java", "class A{void m(){int a; }}".toList⟩

/-- The same class, below a comment. -/
def movedFile : SourceInput :=
  ⟨"java", "/* ten or more */class A{void m(){int a; }}".toList⟩

/-- The locals are asked for at one place, and later at another place of the same method. -/
def askedTwice : List (SemanticAction Unit) :=
  [.visibleMethodLocals "A.java" 23, .edit "B.java" movedFile]

end JavaAnalyzer.Semantic
