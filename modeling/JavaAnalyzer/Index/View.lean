import JavaAnalyzer.Index.Scope
import JavaAnalyzer.Library.RankedMerge

/-! # The index view

Class lookup and the listings of `index/view.rs` over the layers of a scope. A class handle says where
a class is kept, by bucket and name or by artifact and slot. The query caches of the source hold
results of these functions. -/

namespace JavaAnalyzer.Index
set_option autoImplicit false

inductive ClassHandleRef where
  | overlay (bucket : BucketIndex) (internalName : String)
  | artifact (handle : ArtifactClassHandle)

structure IndexView where
  scope : ScopeSnapshot BucketIndex
  artifactReaders : ArtifactReaders

def ClassMetadata.originPrecedence (c : ClassMetadata) : ℕ :=
  match c.origin with
  | .sourceFile _ => 2
  | _ => 1

namespace IndexView

def new (layers : List BucketIndex) : IndexView :=
  ⟨.fromLayers layers, .none⟩

variable (view : IndexView)

def layers : List (ScopeLayer BucketIndex) :=
  view.scope.layers

def artifactReader (id : ArtifactId) : Option ArtifactScopeReader :=
  view.artifactReaders.get id

def withOverlayClasses (classes : List ClassMetadata) : IndexView :=
  if classes.isEmpty then view
  else { view with scope := view.scope.withPrependedOverlay (BucketIndex.new.addClasses classes) }

/-! ## Class handles -/

def resolveClassRef : ClassHandleRef → Option ClassMetadata
  | .overlay bucket internalName => bucket.getClass internalName
  | .artifact handle => (view.artifactReader handle.artifactId).bind fun reader =>
      reader.getClass handle

def classRefInternalName : ClassHandleRef → Option String
  | .overlay _ internalName => some internalName
  | .artifact handle => (view.artifactReader handle.artifactId).bind fun reader =>
      reader.classInternalName handle

def classRefOriginPrecedence : ClassHandleRef → ℕ
  | .overlay bucket internalName =>
    ((bucket.getClass internalName).map ClassMetadata.originPrecedence).getD 0
  | .artifact handle => ((view.artifactReader handle.artifactId).bind fun reader =>
      reader.classOriginPrecedence handle).getD 0

def overlayRef (bucket : BucketIndex) (c : ClassMetadata) : ClassHandleRef :=
  .overlay bucket c.internalName

def resolveClassRefs (refs : List ClassHandleRef) : List ClassMetadata :=
  refs.filterMap view.resolveClassRef

/-! ## Layers -/

def layerGetClassRef (internalName : String) : ScopeLayer BucketIndex → Option ClassHandleRef
  | .overlay bucket => (bucket.getClass internalName).map (overlayRef bucket)
  | .artifact id => ((view.artifactReader id).bind fun reader =>
      reader.getClassHandle internalName).map .artifact

/-- The handles of one layer, from a listing of buckets and the same listing of readers. -/
def layerRefs (ofBucket : BucketIndex → List ClassMetadata)
    (ofReader : ArtifactScopeReader → List ArtifactClassHandle) :
    ScopeLayer BucketIndex → List ClassHandleRef
  | .overlay bucket => (ofBucket bucket).map (overlayRef bucket)
  | .artifact id => ((view.artifactReader id).map fun reader =>
      (ofReader reader).map .artifact).getD []

def layerClassesBySimpleNameRefs (simpleName : String) :
    ScopeLayer BucketIndex → List ClassHandleRef :=
  view.layerRefs (fun bucket => bucket.getClassesBySimpleName simpleName)
    fun reader => reader.classHandlesBySimpleName simpleName

def layerClassesInPackageRefs (pkg : String) : ScopeLayer BucketIndex → List ClassHandleRef :=
  view.layerRefs (fun bucket => bucket.classesInPackage pkg)
    fun reader => reader.classHandlesInPackage (BucketState.slashed pkg)

def layerDirectInnerClassRefs (ownerInternal : String) :
    ScopeLayer BucketIndex → List ClassHandleRef :=
  view.layerRefs (fun bucket => bucket.directInnerClassesByOwner ownerInternal)
    fun reader => reader.directInnerClassHandles ownerInternal

def layerIterAllClassRefs : ScopeLayer BucketIndex → List ClassHandleRef :=
  view.layerRefs BucketIndex.iterAllClasses ArtifactScopeReader.iterAllClassHandles

/-! ## Lookup and listings -/

def shouldReplaceRef (current candidate : ClassHandleRef) : Bool :=
  view.classRefOriginPrecedence current < view.classRefOriginPrecedence candidate

def keepBest (best : Option ClassHandleRef) (candidate : ClassHandleRef) : Option ClassHandleRef :=
  match best with
  | none => some candidate
  | some current => if view.shouldReplaceRef current candidate then some candidate else some current

def getClassRefByInternal (internalName : String) : Option ClassHandleRef :=
  (view.layers.filterMap (view.layerGetClassRef internalName)).foldl view.keepBest none

def getClass (internalName : String) : Option ClassMetadata :=
  (view.getClassRefByInternal internalName).bind view.resolveClassRef

def mergeClassRefs (fetch : ScopeLayer BucketIndex → List ClassHandleRef) : List ClassHandleRef :=
  RankedMerge.merge view.classRefInternalName view.classRefOriginPrecedence
    (view.layers.flatMap fetch)

def getClassesBySimpleName (simpleName : String) : List ClassMetadata :=
  view.resolveClassRefs (view.mergeClassRefs (view.layerClassesBySimpleNameRefs simpleName))

def classesInPackage (pkg : String) : List ClassMetadata :=
  view.resolveClassRefs (view.mergeClassRefs (view.layerClassesInPackageRefs pkg))

def directInnerClassesOf (ownerInternal : String) : List ClassMetadata :=
  view.resolveClassRefs (view.mergeClassRefs (view.layerDirectInnerClassRefs ownerInternal))

def iterAllClasses : List ClassMetadata :=
  view.resolveClassRefs (view.mergeClassRefs view.layerIterAllClassRefs)

end IndexView

end JavaAnalyzer.Index
