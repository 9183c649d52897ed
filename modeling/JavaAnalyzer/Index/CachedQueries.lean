import JavaAnalyzer.Completion.ImportUtils
import JavaAnalyzer.Index.HierarchyReach
import JavaAnalyzer.Index.ViewNavigation
import JavaAnalyzer.Language.StrictTypes
import JavaAnalyzer.Library.SoundCache

/-! # Queries through the caches

The queries of `index/view.rs` with the caches of the view: what each reads from them, and what it puts in,
in the order of the source. -/

namespace JavaAnalyzer.Index
set_option autoImplicit false
open SoundCache

/-- The caches, each with its key. -/
inductive CacheKey where
  | classByInternal (internalName : String)
  | sourceTypeNames (internal : String)
  | classesBySimpleName (simpleName : String)
  | classesInPackage (pkg : String)
  | directInnerClasses (ownerInternal : String)
  | hierarchyOrder (classInternal : String)
  | methodsByName (classInternal methodName : String)
  | fieldsByName (classInternal fieldName : String)
  | declaringMethodOwner (classInternal methodName methodDesc : String)
  | methodRefsByName (classInternal methodName : String)
  | fieldRefsByName (classInternal fieldName : String)
  | declaringMethodOwnerRef (classInternal methodName methodDesc : String)
  | allClasses
  | annotationClasses
deriving DecidableEq, Repr

/-- What a cache holds. The owner of a method is held by its name. -/
def CacheKey.Value : CacheKey → Type
  | classByInternal _ => Option ClassHandleRef
  | sourceTypeNames _ => String
  | classesBySimpleName _ | classesInPackage _ | directInnerClasses _ | hierarchyOrder _ | allClasses
  | annotationClasses => List ClassHandleRef
  | methodsByName .. => List MethodSummary
  | fieldsByName .. => Option FieldSummary
  | declaringMethodOwner .. => Option String
  | methodRefsByName .. => List MethodRef
  | fieldRefsByName .. => Option FieldRef
  | declaringMethodOwnerRef .. => Option TypeRef

/-- A query, over the caches of its view. -/
abbrev Queried (α : Type) := Cached CacheKey.Value α

/-- A closure that looks classes up by name on the same view. -/
inductive ClassLookups (α : Type) where
  | done (answer : α)
  | getClass (internalName : String) (next : Option ClassMetadata → ClassLookups α)

namespace CachedView

variable (view : IndexView)

/-! ## Classes -/

def getClassRefByInternal (internalName : String) : Queried (Option ClassHandleRef) :=
  cached (CacheKey.classByInternal internalName) (pure (view.getClassRefByInternal internalName))

def getClass (internalName : String) : Queried (Option ClassMetadata) := do
  let classRef ← getClassRefByInternal view internalName
  return classRef.bind view.resolveClassRef

def getClassRef (internalName : String) : Queried (Option TypeRef) := do
  let classRef ← getClassRefByInternal view internalName
  return classRef.bind view.typeRefFromClassRef

def classRefFromTypeRef : TypeRef → Queried (Option ClassHandleRef)
  | .source internalName => getClassRefByInternal view internalName
  | .artifact _ handle => return some (.artifact handle)

def materializeClass (typeRef : TypeRef) : Queried (Option ClassMetadata) := do
  let classRef ← classRefFromTypeRef view typeRef
  return classRef.bind view.resolveClassRef

def materializeMethod (methodRef : MethodRef) : Queried (Option MethodSummary) :=
  match methodRef.artifact with
  | some handle => return (view.artifactReader handle.cls.artifactId).bind fun reader =>
      reader.materializeMethod handle
  | none => do
    let owner ← materializeClass view methodRef.owner
    return owner.bind fun owner => owner.methods.find? fun method =>
      method.name = methodRef.name && method.desc = methodRef.descriptor

def materializeField (fieldRef : FieldRef) : Queried (Option FieldSummary) :=
  match fieldRef.artifact with
  | some handle => return (view.artifactReader handle.cls.artifactId).bind fun reader =>
      reader.materializeField handle
  | none => do
    let owner ← materializeClass view fieldRef.owner
    return owner.bind fun owner => owner.fields.find? fun field =>
      field.name = fieldRef.name && field.descriptor = fieldRef.descriptor

def projectTypeNavigationTarget (typeRef : TypeRef) : Queried (Option NavigationTarget) := do
  let classRef ← classRefFromTypeRef view typeRef
  return classRef.bind (view.typeNavigationTarget typeRef)

def projectMethodNavigationTarget (methodRef : MethodRef) : Queried (Option NavigationTarget) := do
  let classRef ← classRefFromTypeRef view methodRef.owner
  return classRef.bind (view.methodNavigationTarget methodRef)

def projectFieldNavigationTarget (fieldRef : FieldRef) : Queried (Option NavigationTarget) := do
  let classRef ← classRefFromTypeRef view fieldRef.owner
  return classRef.bind (view.fieldNavigationTarget fieldRef)

/-- The owners of a class by their names. The one behind the last counted level is looked up all the same. -/
def ownerSegments : ℕ → Option String → List String → Queried (Option (List String))
  | _, none, segments => return some segments
  | 0, some owner, _ => do
    let _ ← getClass view owner
    return none
  | depth + 1, some owner, segments => do
    match ← getClass view owner with
    | none => return none
    | some c => ownerSegments depth c.innerClassOf (c.name :: segments)

def qualifiedSourceName (c : ClassMetadata) : Queried String :=
  if c.innerClassOf.isNone then return c.sourceName
  else do
    match ← ownerSegments view 64 c.innerClassOf [c.name] with
    | some segments => return c.packageText ++ ".".intercalate segments
    | none => return c.fallbackNestedSourceName

def getSourceTypeName (internal : String) : Queried (Option String) :=
  cachedSome (CacheKey.sourceTypeNames internal) do
    match ← getClass view internal with
    | none => return none
    | some c =>
      let name ← qualifiedSourceName view c
      return some name

/-! ## Listings -/

def classesBySimpleNameRefs (simpleName : String) : Queried (List ClassHandleRef) :=
  cached (CacheKey.classesBySimpleName simpleName)
    (pure (view.mergeClassRefs (view.layerClassesBySimpleNameRefs simpleName)))

def getClassesBySimpleName (simpleName : String) : Queried (List ClassMetadata) := do
  let refs ← classesBySimpleNameRefs view simpleName
  return view.resolveClassRefs refs

def classesInPackageRefs (pkg : String) : Queried (List ClassHandleRef) :=
  cached (CacheKey.classesInPackage pkg) (pure (view.mergeClassRefs (view.layerClassesInPackageRefs pkg)))

def classesInPackage (pkg : String) : Queried (List ClassMetadata) := do
  let refs ← classesInPackageRefs view pkg
  return view.resolveClassRefs refs

def topLevelClassesInPackage (pkg : String) : Queried (List ClassMetadata) := do
  let classes ← classesInPackage view pkg
  return classes.filter fun c => c.innerClassOf.isNone

def directInnerClassRefs (ownerInternal : String) : Queried (List ClassHandleRef) :=
  cached (CacheKey.directInnerClasses ownerInternal)
    (pure (view.mergeClassRefs (view.layerDirectInnerClassRefs ownerInternal)))

def directInnerClassesOf (ownerInternal : String) : Queried (List ClassMetadata) := do
  let refs ← directInnerClassRefs view ownerInternal
  return view.resolveClassRefs refs

def getUniqueClassBySimpleName (simpleName : String) : Queried (Option ClassMetadata) := do
  match ← getClassesBySimpleName view simpleName with
  | [only] => return some only
  | _ => return none

def allClassRefs : Queried (List ClassHandleRef) :=
  cached CacheKey.allClasses (pure (view.mergeClassRefs view.layerIterAllClassRefs))

def iterAllClasses : Queried (List ClassMetadata) := do
  let refs ← allClassRefs view
  return view.resolveClassRefs refs

def annotationClassRefs : Queried (List ClassHandleRef) :=
  cached CacheKey.annotationClasses
    (pure (view.mergeClassRefs fun layer => (view.layerIterAllClassRefs layer).filter view.classRefIsAnnotation))

def annotationClasses : Queried (List ClassMetadata) := do
  let refs ← annotationClassRefs view
  return view.resolveClassRefs refs

def importedClasses (imp : String) : Queried (List ClassMetadata) :=
  if Language.isOnDemand imp then classesInPackage view (Language.onDemandPackage imp)
  else do
    let found ← getClass view (BucketState.slashed imp)
    return found.toList

def resolveImports (imports : List String) : Queried (List ClassMetadata) := do
  let classes ← imports.mapM (importedClasses view)
  return Dedup.dedupBy ClassMetadata.internalName [] classes.flatten

def fuzzySearchClasses (matcher : FuzzyMatcher) (hasher : HashOrder ClassMetadata) (query : String) (limit : ℕ) :
    Queried (List ClassMetadata) := do
  let classes ← (view.fuzzyAutocomplete matcher query limit).mapM (getClassesBySimpleName view)
  return hasher.order (RankedMerge.merge (fun c => some c.internalName) ClassMetadata.originPrecedence
    classes.flatten)

/-! ## Nested classes -/

/-- The class of the package whose internal name ends this way, when there is one such class. -/
def resolveInternalHintToClass (internalHint : String) : Queried (Option ClassMetadata) :=
  match Text.beforeLast '/' internalHint.toList with
  | none => return none
  | some pkg => do
    let refs ← classesInPackageRefs view (String.ofList pkg)
    match refs.filter (view.classRefMatchesInternalNameTail
      (String.ofList (Text.afterLast '/' internalHint.toList))) with
    | [only] => return view.resolveClassRef only
    | _ => return none

/-- The owners around a class, up to the first that is not found. -/
def ownerChain : ℕ → ClassMetadata → Queried (List String)
  | 0, _ => return []
  | depth + 1, cur =>
    match cur.innerClassOf with
    | none => return []
    | some owner => do
      match ← getClass view owner with
      | none => return [owner]
      | some c =>
        let owners ← ownerChain depth c
        return owner :: owners

/-- The candidate of the nearest owner, the first one of those with the same owner. -/
def nearestScoped (scopeChain : List String) (package : Option String) (simpleName : String)
    (candidates : List ClassMetadata) : Option ClassMetadata :=
  (candidates.foldl (fun best c =>
    if c.package ≠ package ∨ c.matchesSimpleName simpleName = false then best
    else
      match c.innerClassOf.bind fun owner => scopeChain.idxOf? owner with
      | none => best
      | some pos =>
        match best with
        | some (bestPos, _) => if bestPos ≤ pos then best else some (pos, c)
        | none => some (pos, c)) (none : Option (ℕ × ClassMetadata))).map Prod.snd

/-- The class of this internal name, or of this hint. -/
def scopeStart (enclosingInternal : String) : Queried (Option ClassMetadata) := do
  match ← getClass view enclosingInternal with
  | some c => return some c
  | none => resolveInternalHintToClass view enclosingInternal

def scopedCandidates (package : Option String) (simpleName : String) : Queried (List ClassMetadata) :=
  match package with
  | some pkg => classesInPackage view pkg
  | none => getClassesBySimpleName view simpleName

def resolveScopedInnerClass (enclosingInternal simpleName : String) : Queried (Option ClassMetadata) := do
  match ← scopeStart view enclosingInternal with
  | none => return none
  | some enclosing =>
    let owners ← ownerChain view 65 enclosing
    let candidates ← scopedCandidates view enclosing.package simpleName
    return nearestScoped (enclosing.internalName :: owners) enclosing.package simpleName candidates

def resolveDirectInnerClassRef (ownerInternal simpleName : String) : Queried (Option TypeRef) :=
  match view.resolveDirectInnerClass ownerInternal simpleName with
  | none => return none
  | some c => getClassRef view c.internalName

def resolveOwnerClass (classInternal : String) : Queried (Option ClassMetadata) := do
  let found ← getClass view classInternal
  match found.bind ClassMetadata.innerClassOf with
  | none => return none
  | some owner => getClass view owner

def runLookups {α : Type} : ClassLookups α → Queried α
  | .done answer => return answer
  | .getClass internalName next => do
    let found ← getClass view internalName
    runLookups (next found)

/-- The class that the head of a split resolves to, followed along the rest. -/
def resolveSplit (resolveHead : String → ClassLookups (Option String)) (split : List String × List String) :
    Queried (Option ClassMetadata) := do
  let head ← runLookups view (resolveHead (".".intercalate split.1))
  match head.bind fun owner => view.innerAlong owner split.2 with
  | none => return none
  | some internal => getClass view internal

def resolveQualifiedTypePath (path : String) (resolveHead : String → ClassLookups (Option String)) :
    Queried (Option ClassMetadata) :=
  if (Text.trim path.toList).isEmpty then return none
  else if '/' ∈ Text.trim path.toList then getClass view (String.ofList (Text.trim path.toList))
  else
    let parts := IndexView.dottedParts (Text.trim path.toList)
    (IndexView.splitsFromLongest parts parts.length).findSomeM? (resolveSplit view resolveHead)

/-! ## The hierarchy -/

def hierarchyOrder (classInternal : String) : Queried (List ClassHandleRef) :=
  cached (CacheKey.hierarchyOrder classInternal) do
    let order ← bfs (getClassRefByInternal view) view.queuedParents
      (Worklist.budget view.getClassRefByInternal view.queuedParents view.recordNames [classInternal])
      [classInternal] []
    return order.getD []

def collectInheritedMembers (classInternal : String) : Queried (List MethodSummary × List FieldSummary) := do
  let order ← hierarchyOrder view classInternal
  return (Dedup.dedupBy MethodSummary.shadowKey [] (order.flatMap view.classRefMethods),
    Dedup.dedupBy FieldSummary.name [] (order.flatMap view.classRefFields))

def mro (classInternal : String) : Queried (List ClassMetadata) := do
  let order ← hierarchyOrder view classInternal
  return view.projectHierarchyClasses [] [] order

def lookupMethodsInHierarchyRefs (classInternal methodName : String) : Queried (List MethodRef) :=
  cached (CacheKey.methodRefsByName classInternal methodName) do
    let order ← hierarchyOrder view classInternal
    return (Dedup.dedupBy Prod.fst [] (order.flatMap (view.methodRefCandidates methodName))).map Prod.snd

def lookupFieldInHierarchyRef (classInternal fieldName : String) : Queried (Option FieldRef) :=
  cached (CacheKey.fieldRefsByName classInternal fieldName) do
    let order ← hierarchyOrder view classInternal
    return order.findSome? (view.fieldRefOf fieldName)

def lookupMemberTypeRefInHierarchy (classInternal simpleName : String) : Queried (Option TypeRef) := do
  let order ← hierarchyOrder view classInternal
  order.findSomeM? fun ownerRef =>
    match view.classRefInternalName ownerRef with
    | none => return none
    | some ownerInternal => resolveDirectInnerClassRef view ownerInternal simpleName

def findDeclaringMethodOwnerRef (classInternal methodName methodDesc : String) : Queried (Option TypeRef) :=
  cached (CacheKey.declaringMethodOwnerRef classInternal methodName methodDesc) do
    let order ← hierarchyOrder view classInternal
    return order.findSome? (view.declaringOwnerRefOf methodName methodDesc)

def lookupMethodsInHierarchy (classInternal methodName : String) : Queried (List MethodSummary) :=
  cached (CacheKey.methodsByName classInternal methodName) do
    let members ← collectInheritedMembers view classInternal
    return members.1.filter fun method => method.name = methodName

def lookupFieldInHierarchy (classInternal fieldName : String) : Queried (Option FieldSummary) :=
  cached (CacheKey.fieldsByName classInternal fieldName) do
    let members ← collectInheritedMembers view classInternal
    return members.2.find? fun field => field.name = fieldName

def lookupMemberTypeInHierarchy (classInternal simpleName : String) : Queried (Option ClassMetadata) := do
  match ← lookupMemberTypeRefInHierarchy view classInternal simpleName with
  | none => return none
  | some typeRef => materializeClass view typeRef

/-- The held name is looked up, the found reference is materialised. -/
def findDeclaringMethodOwner (classInternal methodName methodDesc : String) : Queried (Option ClassMetadata) :=
  lookupElse (CacheKey.declaringMethodOwner classInternal methodName methodDesc)
    (fun held : Option String =>
      match held with
      | none => return none
      | some ownerInternal => getClass view ownerInternal) do
    let owner ← findDeclaringMethodOwnerRef view classInternal methodName methodDesc
    store (CacheKey.declaringMethodOwner classInternal methodName methodDesc) (owner.map TypeRef.internalName)
    match owner with
    | none => return none
    | some owner => materializeClass view owner

end CachedView

/-! ## All queries -/

/-- The queries of a view. The package tests and the name table, which no cache is used for, are left out. -/
inductive Query where
  | getClass (internalName : String)
  | getClassRef (internalName : String)
  | materializeClass (typeRef : TypeRef)
  | materializeMethod (methodRef : MethodRef)
  | materializeField (fieldRef : FieldRef)
  | projectTypeNavigationTarget (typeRef : TypeRef)
  | projectMethodNavigationTarget (methodRef : MethodRef)
  | projectFieldNavigationTarget (fieldRef : FieldRef)
  | getSourceTypeName (internal : String)
  | resolveScopedInnerClass (enclosingInternal simpleName : String)
  | getClassesBySimpleName (simpleName : String)
  | classesInPackage (pkg : String)
  | topLevelClassesInPackage (pkg : String)
  | directInnerClassesOf (ownerInternal : String)
  | resolveDirectInnerClass (ownerInternal simpleName : String)
  | resolveDirectInnerClassRef (ownerInternal simpleName : String)
  | resolveOwnerClass (classInternal : String)
  | resolveQualifiedTypePath (path : String) (resolveHead : String → ClassLookups (Option String))
  | resolveImports (imports : List String)
  | collectInheritedMembers (classInternal : String)
  | mro (classInternal : String)
  | lookupMethodsInHierarchyRefs (classInternal methodName : String)
  | lookupFieldInHierarchyRef (classInternal fieldName : String)
  | lookupMemberTypeRefInHierarchy (classInternal simpleName : String)
  | findDeclaringMethodOwnerRef (classInternal methodName methodDesc : String)
  | lookupMethodsInHierarchy (classInternal methodName : String)
  | lookupFieldInHierarchy (classInternal fieldName : String)
  | lookupMemberTypeInHierarchy (classInternal simpleName : String)
  | findDeclaringMethodOwner (classInternal methodName methodDesc : String)
  | getUniqueClassBySimpleName (simpleName : String)
  | fuzzyAutocomplete (query : String) (limit : ℕ)
  | fuzzySearchClasses (query : String) (limit : ℕ)
  | iterAllClasses
  | annotationClasses

namespace Query

def Answer : Query → Type
  | getClass _ | materializeClass _ | resolveScopedInnerClass .. | resolveDirectInnerClass .. | resolveOwnerClass _
  | resolveQualifiedTypePath .. | lookupMemberTypeInHierarchy .. | findDeclaringMethodOwner ..
  | getUniqueClassBySimpleName _ => Option ClassMetadata
  | getClassRef _ | resolveDirectInnerClassRef .. | lookupMemberTypeRefInHierarchy ..
  | findDeclaringMethodOwnerRef .. => Option TypeRef
  | materializeMethod _ => Option MethodSummary
  | materializeField _ | lookupFieldInHierarchy .. => Option FieldSummary
  | projectTypeNavigationTarget _ | projectMethodNavigationTarget _ | projectFieldNavigationTarget _ =>
    Option NavigationTarget
  | getSourceTypeName _ => Option String
  | getClassesBySimpleName _ | classesInPackage _ | topLevelClassesInPackage _ | directInnerClassesOf _
  | resolveImports _ | mro _ | fuzzySearchClasses .. | iterAllClasses | annotationClasses => List ClassMetadata
  | collectInheritedMembers _ => List MethodSummary × List FieldSummary
  | lookupMethodsInHierarchyRefs .. => List MethodRef
  | lookupFieldInHierarchyRef .. => Option FieldRef
  | lookupMethodsInHierarchy .. => List MethodSummary
  | fuzzyAutocomplete .. => List String

def run (view : IndexView) (matcher : FuzzyMatcher) (hasher : HashOrder ClassMetadata) :
    (q : Query) → Queried q.Answer
  | getClass internalName => CachedView.getClass view internalName
  | getClassRef internalName => CachedView.getClassRef view internalName
  | materializeClass typeRef => CachedView.materializeClass view typeRef
  | materializeMethod methodRef => CachedView.materializeMethod view methodRef
  | materializeField fieldRef => CachedView.materializeField view fieldRef
  | projectTypeNavigationTarget typeRef => CachedView.projectTypeNavigationTarget view typeRef
  | projectMethodNavigationTarget methodRef => CachedView.projectMethodNavigationTarget view methodRef
  | projectFieldNavigationTarget fieldRef => CachedView.projectFieldNavigationTarget view fieldRef
  | getSourceTypeName internal => CachedView.getSourceTypeName view internal
  | resolveScopedInnerClass enclosingInternal simpleName =>
    CachedView.resolveScopedInnerClass view enclosingInternal simpleName
  | getClassesBySimpleName simpleName => CachedView.getClassesBySimpleName view simpleName
  | classesInPackage pkg => CachedView.classesInPackage view pkg
  | topLevelClassesInPackage pkg => CachedView.topLevelClassesInPackage view pkg
  | directInnerClassesOf ownerInternal => CachedView.directInnerClassesOf view ownerInternal
  | resolveDirectInnerClass ownerInternal simpleName =>
    (pure (view.resolveDirectInnerClass ownerInternal simpleName) : Queried (Option ClassMetadata))
  | resolveDirectInnerClassRef ownerInternal simpleName =>
    CachedView.resolveDirectInnerClassRef view ownerInternal simpleName
  | resolveOwnerClass classInternal => CachedView.resolveOwnerClass view classInternal
  | resolveQualifiedTypePath path resolveHead => CachedView.resolveQualifiedTypePath view path resolveHead
  | resolveImports imports => CachedView.resolveImports view imports
  | collectInheritedMembers classInternal => CachedView.collectInheritedMembers view classInternal
  | mro classInternal => CachedView.mro view classInternal
  | lookupMethodsInHierarchyRefs classInternal methodName =>
    CachedView.lookupMethodsInHierarchyRefs view classInternal methodName
  | lookupFieldInHierarchyRef classInternal fieldName =>
    CachedView.lookupFieldInHierarchyRef view classInternal fieldName
  | lookupMemberTypeRefInHierarchy classInternal simpleName =>
    CachedView.lookupMemberTypeRefInHierarchy view classInternal simpleName
  | findDeclaringMethodOwnerRef classInternal methodName methodDesc =>
    CachedView.findDeclaringMethodOwnerRef view classInternal methodName methodDesc
  | lookupMethodsInHierarchy classInternal methodName =>
    CachedView.lookupMethodsInHierarchy view classInternal methodName
  | lookupFieldInHierarchy classInternal fieldName => CachedView.lookupFieldInHierarchy view classInternal fieldName
  | lookupMemberTypeInHierarchy classInternal simpleName =>
    CachedView.lookupMemberTypeInHierarchy view classInternal simpleName
  | findDeclaringMethodOwner classInternal methodName methodDesc =>
    CachedView.findDeclaringMethodOwner view classInternal methodName methodDesc
  | getUniqueClassBySimpleName simpleName => CachedView.getUniqueClassBySimpleName view simpleName
  | fuzzyAutocomplete query limit =>
    (pure (view.fuzzyAutocomplete matcher query limit) : Queried (List String))
  | fuzzySearchClasses query limit => CachedView.fuzzySearchClasses view matcher hasher query limit
  | iterAllClasses => CachedView.iterAllClasses view
  | annotationClasses => CachedView.annotationClasses view

end Query

end JavaAnalyzer.Index
