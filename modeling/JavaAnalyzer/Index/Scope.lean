import JavaAnalyzer.Index.ArtifactReader
import JavaAnalyzer.Index.BucketContents

/-! # Scopes

`index/scope.rs` and `index/scope_snapshot.rs`: the identifiers of an analysis context and the layers
that are visible in it. The overlay layers of a snapshot are shared pointers to live buckets, so a
snapshot is taken over the type `β` of what an overlay layer is: pointers in the workspace, buckets
in a view. -/

namespace JavaAnalyzer.Index
set_option autoImplicit false

/-- A bucket with its invariant. -/
structure BucketIndex where
  inner : BucketState
  invariant : inner.Invariant

namespace BucketIndex

def new : BucketIndex :=
  ⟨.new, BucketState.invariant_new⟩

def addClassesWithDeclarations (b : BucketIndex) (classes : List ClassMetadata)
    (declarations : Option SourceDeclarationBatch) : BucketIndex :=
  ⟨b.inner.addClassesWithDeclarations classes declarations,
    b.invariant.addClassesWithDeclarations classes declarations⟩

def addClasses (b : BucketIndex) (classes : List ClassMetadata) : BucketIndex :=
  b.addClassesWithDeclarations classes none

def addArchiveClasses (b : BucketIndex) (classes : List ClassMetadata) : BucketIndex :=
  ⟨b.inner.addArchiveClasses classes, b.invariant.addArchiveClasses classes⟩

def updateSourceWithDeclarations (b : BucketIndex) (origin : ClassOrigin)
    (classes : List ClassMetadata) (declarations : Option SourceDeclarationBatch) :
    BucketIndex × Bool :=
  (⟨(b.inner.updateSourceWithDeclarations origin classes declarations).1,
      b.invariant.updateSourceWithDeclarations origin classes declarations⟩,
    (b.inner.updateSourceWithDeclarations origin classes declarations).2)

def removeByOrigin (b : BucketIndex) (origin : ClassOrigin) : BucketIndex × Bool :=
  (⟨(b.inner.removeByOrigin origin).1, b.invariant.removeByOrigin origin⟩,
    (b.inner.removeByOrigin origin).2)

def getClass (b : BucketIndex) (internalName : String) : Option ClassMetadata :=
  b.inner.getClass internalName

def getClassesBySimpleName (b : BucketIndex) (simpleName : String) : List ClassMetadata :=
  b.inner.getClassesBySimpleName simpleName

def classesInPackage (b : BucketIndex) (pkg : String) : List ClassMetadata :=
  b.inner.classesInPackage pkg

def directInnerClassesByOwner (b : BucketIndex) (ownerInternal : String) : List ClassMetadata :=
  b.inner.directInnerClassesByOwner ownerInternal

def iterAllClasses (b : BucketIndex) : List ClassMetadata :=
  b.inner.iterAllClasses

theorem getClass_internalName {b : BucketIndex} {n : String} {c : ClassMetadata}
    (h : b.getClass n = some c) : c.internalName = n :=
  b.invariant.getClass_internalName h

theorem mem_iterAllClasses {b : BucketIndex} {c : ClassMetadata} :
    c ∈ b.iterAllClasses ↔ b.getClass c.internalName = some c :=
  b.invariant.mem_iterAllClasses_iff

end BucketIndex

/-! ## Identifiers -/

structure ModuleId where
  id : UInt32
deriving DecidableEq, Repr

def ModuleId.root : ModuleId := ⟨0⟩

inductive ClasspathId where
  | main
  | test
deriving DecidableEq, Repr

structure SourceRootId where
  id : UInt32
deriving DecidableEq, Repr

structure AnalysisContextKey where
  moduleId : ModuleId
  classpath : ClasspathId
  sourceRoot : Option SourceRootId
deriving DecidableEq, Repr

/-! ## Layers and snapshots -/

inductive ScopeLayer (β : Type) where
  | overlay (bucket : β)
  | artifact (id : ArtifactId)
deriving DecidableEq, Repr

def ScopeLayer.map {β γ : Type} (f : β → γ) : ScopeLayer β → ScopeLayer γ
  | .overlay b => .overlay (f b)
  | .artifact id => .artifact id

structure ScopeSnapshot (β : Type) where
  key : AnalysisContextKey
  layers : List (ScopeLayer β)
  jarPaths : List String

def ScopeSnapshot.fromLayers {β : Type} (layers : List β) : ScopeSnapshot β where
  key := ⟨.root, .main, none⟩
  layers := layers.map .overlay
  jarPaths := []

def ScopeSnapshot.withPrependedOverlay {β : Type} (s : ScopeSnapshot β) (overlay : β) :
    ScopeSnapshot β :=
  { s with layers := .overlay overlay :: s.layers }

def ScopeSnapshot.map {β γ : Type} (f : β → γ) (s : ScopeSnapshot β) : ScopeSnapshot γ :=
  ⟨s.key, s.layers.map (ScopeLayer.map f), s.jarPaths⟩

end JavaAnalyzer.Index
