import JavaAnalyzer.Index.CachedQueries
import JavaAnalyzer.Index.HierarchyMembers

/-! # The caches of a view are transparent

Every cache holds what the view without caches gives for its key, so that a query is answered as over empty
caches, whatever queries came before it. -/

namespace JavaAnalyzer.Index
set_option autoImplicit false
open SoundCache

/-- What the caches of a view may hold. -/
def CacheKey.Valid (view : IndexView) : (k : CacheKey) → k.Value → Prop
  | classByInternal internalName, v => v = view.getClassRefByInternal internalName
  | sourceTypeNames internal, v => view.getSourceTypeName internal = some v
  | classesBySimpleName simpleName, v => v = view.mergeClassRefs (view.layerClassesBySimpleNameRefs simpleName)
  | classesInPackage pkg, v => v = view.mergeClassRefs (view.layerClassesInPackageRefs pkg)
  | directInnerClasses ownerInternal, v => v = view.mergeClassRefs (view.layerDirectInnerClassRefs ownerInternal)
  | hierarchyOrder classInternal, v => v = view.hierarchyOrder classInternal
  | methodsByName classInternal methodName, v => v = view.lookupMethodsInHierarchy classInternal methodName
  | fieldsByName classInternal fieldName, v => v = view.lookupFieldInHierarchy classInternal fieldName
  | declaringMethodOwner classInternal methodName methodDesc, v =>
    v = (view.findDeclaringMethodOwnerRef classInternal methodName methodDesc).map TypeRef.internalName
  | methodRefsByName classInternal methodName, v => v = view.lookupMethodsInHierarchyRefs classInternal methodName
  | fieldRefsByName classInternal fieldName, v => v = view.lookupFieldInHierarchyRef classInternal fieldName
  | declaringMethodOwnerRef classInternal methodName methodDesc, v =>
    v = view.findDeclaringMethodOwnerRef classInternal methodName methodDesc
  | allClasses, v => v = view.mergeClassRefs view.layerIterAllClassRefs
  | annotationClasses, v =>
    v = view.mergeClassRefs fun layer => (view.layerIterAllClassRefs layer).filter view.classRefIsAnnotation

/-! ## The owner by its name -/

namespace IndexView

variable {view : IndexView}

theorem internalName_typeRef {classRef : ClassHandleRef} {typeRef : TypeRef}
    (h : view.typeRefFromClassRef classRef = some typeRef) :
    view.classRefInternalName classRef = some typeRef.internalName := by
  cases classRef with
  | overlay bucket internalName =>
    cases h
    rfl
  | artifact handle =>
    obtain ⟨n, hn, rfl⟩ := Option.map_eq_some_iff.mp h
    exact hn

/-- The owner's reference comes from the hierarchy, where each class was found by its own name. So the name
leads to the class that the reference materialises to. -/
theorem materializeClass_owner {classInternal methodName methodDesc : String} {owner : TypeRef}
    (h : view.findDeclaringMethodOwnerRef classInternal methodName methodDesc = some owner) :
    view.materializeClass owner = view.getClass owner.internalName := by
  obtain ⟨classRef, hmem, howner⟩ := List.exists_of_findSome?_eq_some h
  obtain ⟨c, hreads, hfound⟩ := reads_hierarchyOrder hmem
  rw [declaringOwnerRefOf_of_reads hreads] at howner
  split_ifs at howner
  obtain ⟨typeRef, htypeRef, hmaterialize⟩ := typeRef_of_reads hreads hfound
  obtain rfl := Option.some.inj (htypeRef.symm.trans howner)
  have hname : c.internalName = typeRef.internalName :=
    Option.some.inj (hreads.internalName.symm.trans (internalName_typeRef htypeRef))
  rw [hmaterialize, getClass, ← hname, hfound, Option.bind_some, hreads.resolve]

end IndexView

namespace CachedView

variable (view : IndexView)

/-! ## The keyed queries -/

theorem computes_getClassRefByInternal (internalName : String) :
    Computes (CacheKey.Valid view) (getClassRefByInternal view internalName)
      (view.getClassRefByInternal internalName) :=
  (computes_pure _).cached fun _ => Iff.rfl

theorem computes_getClass (internalName : String) :
    Computes (CacheKey.Valid view) (getClass view internalName) (view.getClass internalName) :=
  (computes_getClassRefByInternal view internalName).bind (computes_pure _)

theorem computes_classRefFromTypeRef (typeRef : TypeRef) :
    Computes (CacheKey.Valid view) (classRefFromTypeRef view typeRef) (view.classRefFromTypeRef typeRef) := by
  cases typeRef with
  | source internalName => exact computes_getClassRefByInternal view internalName
  | artifact internalName handle => exact computes_pure _

theorem computes_materializeClass (typeRef : TypeRef) :
    Computes (CacheKey.Valid view) (materializeClass view typeRef) (view.materializeClass typeRef) :=
  (computes_classRefFromTypeRef view typeRef).bind (computes_pure _)

theorem computes_ownerSegments (depth : ℕ) (owner : Option String) (segments : List String) :
    Computes (CacheKey.Valid view) (ownerSegments view depth owner segments)
      (ClassMetadata.ownerSegments view.getClass depth owner segments) := by
  induction depth generalizing owner segments with
  | zero =>
    cases owner with
    | none => exact computes_pure _
    | some owner => exact (computes_getClass view owner).bind (computes_pure none)
  | succ depth ih =>
    cases owner with
    | none => exact computes_pure _
    | some owner =>
      refine (computes_getClass view owner).bind ?_
      rw [ClassMetadata.ownerSegments]
      cases view.getClass owner with
      | none => exact computes_pure none
      | some c => exact ih c.innerClassOf (c.name :: segments)

theorem computes_qualifiedSourceName (c : ClassMetadata) :
    Computes (CacheKey.Valid view) (qualifiedSourceName view c) (c.qualifiedSourceNameWith view.getClass) := by
  unfold qualifiedSourceName ClassMetadata.qualifiedSourceNameWith
  split_ifs
  · exact computes_pure _
  · refine (computes_ownerSegments view 64 c.innerClassOf [c.name]).bind ?_
    cases ClassMetadata.ownerSegments view.getClass 64 c.innerClassOf [c.name] with
    | none => exact computes_pure _
    | some segments => exact computes_pure _

theorem computes_getSourceTypeName (internal : String) :
    Computes (CacheKey.Valid view) (getSourceTypeName view internal) (view.getSourceTypeName internal) := by
  refine Computes.cachedSome ((computes_getClass view internal).bind ?_) fun _ => Iff.rfl
  rw [IndexView.getSourceTypeName]
  cases view.getClass internal with
  | none => exact computes_pure none
  | some c => exact (computes_qualifiedSourceName view c).bind (computes_pure _)

theorem computes_classesBySimpleNameRefs (simpleName : String) :
    Computes (CacheKey.Valid view) (classesBySimpleNameRefs view simpleName)
      (view.mergeClassRefs (view.layerClassesBySimpleNameRefs simpleName)) :=
  (computes_pure _).cached fun _ => Iff.rfl

theorem computes_classesInPackageRefs (pkg : String) :
    Computes (CacheKey.Valid view) (classesInPackageRefs view pkg)
      (view.mergeClassRefs (view.layerClassesInPackageRefs pkg)) :=
  (computes_pure _).cached fun _ => Iff.rfl

theorem computes_directInnerClassRefs (ownerInternal : String) :
    Computes (CacheKey.Valid view) (directInnerClassRefs view ownerInternal)
      (view.mergeClassRefs (view.layerDirectInnerClassRefs ownerInternal)) :=
  (computes_pure _).cached fun _ => Iff.rfl

theorem computes_allClassRefs :
    Computes (CacheKey.Valid view) (allClassRefs view) (view.mergeClassRefs view.layerIterAllClassRefs) :=
  (computes_pure _).cached fun _ => Iff.rfl

theorem computes_annotationClassRefs :
    Computes (CacheKey.Valid view) (annotationClassRefs view)
      (view.mergeClassRefs fun layer => (view.layerIterAllClassRefs layer).filter view.classRefIsAnnotation) :=
  (computes_pure _).cached fun _ => Iff.rfl

theorem computes_hierarchyOrder (classInternal : String) :
    Computes (CacheKey.Valid view) (hierarchyOrder view classInternal) (view.hierarchyOrder classInternal) :=
  Computes.cached ((Computes.bfs view.queuedParents (computes_getClassRefByInternal view) _ _ _).bind
    (computes_pure _)) fun _ => Iff.rfl

theorem computes_collectInheritedMembers (classInternal : String) :
    Computes (CacheKey.Valid view) (collectInheritedMembers view classInternal)
      (view.collectInheritedMembers classInternal) :=
  (computes_hierarchyOrder view classInternal).bind (computes_pure _)

theorem computes_lookupMethodsInHierarchyRefs (classInternal methodName : String) :
    Computes (CacheKey.Valid view) (lookupMethodsInHierarchyRefs view classInternal methodName)
      (view.lookupMethodsInHierarchyRefs classInternal methodName) :=
  Computes.cached ((computes_hierarchyOrder view classInternal).bind (computes_pure _)) fun _ => Iff.rfl

theorem computes_lookupFieldInHierarchyRef (classInternal fieldName : String) :
    Computes (CacheKey.Valid view) (lookupFieldInHierarchyRef view classInternal fieldName)
      (view.lookupFieldInHierarchyRef classInternal fieldName) :=
  Computes.cached ((computes_hierarchyOrder view classInternal).bind (computes_pure _)) fun _ => Iff.rfl

theorem computes_findDeclaringMethodOwnerRef (classInternal methodName methodDesc : String) :
    Computes (CacheKey.Valid view) (findDeclaringMethodOwnerRef view classInternal methodName methodDesc)
      (view.findDeclaringMethodOwnerRef classInternal methodName methodDesc) :=
  Computes.cached ((computes_hierarchyOrder view classInternal).bind (computes_pure _)) fun _ => Iff.rfl

theorem computes_lookupMethodsInHierarchy (classInternal methodName : String) :
    Computes (CacheKey.Valid view) (lookupMethodsInHierarchy view classInternal methodName)
      (view.lookupMethodsInHierarchy classInternal methodName) :=
  Computes.cached ((computes_collectInheritedMembers view classInternal).bind (computes_pure _)) fun _ => Iff.rfl

theorem computes_lookupFieldInHierarchy (classInternal fieldName : String) :
    Computes (CacheKey.Valid view) (lookupFieldInHierarchy view classInternal fieldName)
      (view.lookupFieldInHierarchy classInternal fieldName) :=
  Computes.cached ((computes_collectInheritedMembers view classInternal).bind (computes_pure _)) fun _ => Iff.rfl

theorem computes_findDeclaringMethodOwner (classInternal methodName methodDesc : String) :
    Computes (CacheKey.Valid view) (findDeclaringMethodOwner view classInternal methodName methodDesc)
      (view.findDeclaringMethodOwner classInternal methodName methodDesc) := by
  rw [IndexView.findDeclaringMethodOwner]
  refine Computes.lookupElse (fun held hheld => ?_) ?_
  · -- The held name is that of the reference.
    have hheld : held = (view.findDeclaringMethodOwnerRef classInternal methodName methodDesc).map
      TypeRef.internalName := hheld
    subst hheld
    cases howner : view.findDeclaringMethodOwnerRef classInternal methodName methodDesc with
    | none => exact computes_pure none
    | some owner =>
      rw [Option.bind_some, IndexView.materializeClass_owner howner]
      exact computes_getClass view owner.internalName
  · refine (computes_findDeclaringMethodOwnerRef view classInternal methodName methodDesc).bind ?_
    refine (computes_store rfl).bind ?_
    cases view.findDeclaringMethodOwnerRef classInternal methodName methodDesc with
    | none => exact computes_pure none
    | some owner => exact computes_materializeClass view owner

/-! ## The other queries -/

section Transparent

variable {view}

theorem transparent_getClass (internalName : String) :
    Transparent (CacheKey.Valid view) (getClass view internalName) :=
  (computes_getClass view internalName).transparent

theorem transparent_getClassRef (internalName : String) :
    Transparent (CacheKey.Valid view) (getClassRef view internalName) :=
  (computes_getClassRefByInternal view internalName).transparent.bind fun _ => transparent_pure _

theorem transparent_materializeMethod (methodRef : MethodRef) :
    Transparent (CacheKey.Valid view) (materializeMethod view methodRef) := by
  unfold materializeMethod
  split
  · exact transparent_pure _
  · exact (computes_materializeClass view methodRef.owner).transparent.bind fun _ => transparent_pure _

theorem transparent_materializeField (fieldRef : FieldRef) :
    Transparent (CacheKey.Valid view) (materializeField view fieldRef) := by
  unfold materializeField
  split
  · exact transparent_pure _
  · exact (computes_materializeClass view fieldRef.owner).transparent.bind fun _ => transparent_pure _

theorem transparent_getClassesBySimpleName (simpleName : String) :
    Transparent (CacheKey.Valid view) (getClassesBySimpleName view simpleName) :=
  (computes_classesBySimpleNameRefs view simpleName).transparent.bind fun _ => transparent_pure _

theorem transparent_classesInPackage (pkg : String) :
    Transparent (CacheKey.Valid view) (classesInPackage view pkg) :=
  (computes_classesInPackageRefs view pkg).transparent.bind fun _ => transparent_pure _

theorem transparent_getUniqueClassBySimpleName (simpleName : String) :
    Transparent (CacheKey.Valid view) (getUniqueClassBySimpleName view simpleName) := by
  refine (transparent_getClassesBySimpleName simpleName).bind fun classes => ?_
  split <;> exact transparent_pure _

theorem transparent_resolveImports (imports : List String) :
    Transparent (CacheKey.Valid view) (resolveImports view imports) := by
  refine (Transparent.mapM (fun imp => ?_) imports).bind fun _ => transparent_pure _
  unfold importedClasses
  split_ifs
  · exact transparent_classesInPackage _
  · exact (transparent_getClass _).bind fun _ => transparent_pure _

theorem transparent_fuzzySearchClasses (matcher : FuzzyMatcher) (hasher : HashOrder ClassMetadata) (query : String)
    (limit : ℕ) : Transparent (CacheKey.Valid view) (fuzzySearchClasses view matcher hasher query limit) :=
  (Transparent.mapM transparent_getClassesBySimpleName _).bind fun _ => transparent_pure _

theorem transparent_resolveInternalHintToClass (internalHint : String) :
    Transparent (CacheKey.Valid view) (resolveInternalHintToClass view internalHint) := by
  unfold resolveInternalHintToClass
  split
  · exact transparent_pure _
  · refine (computes_classesInPackageRefs view _).transparent.bind fun refs => ?_
    split <;> exact transparent_pure _

theorem transparent_ownerChain (depth : ℕ) (cur : ClassMetadata) :
    Transparent (CacheKey.Valid view) (ownerChain view depth cur) := by
  induction depth generalizing cur with
  | zero => exact transparent_pure _
  | succ depth ih =>
    unfold ownerChain
    split
    · exact transparent_pure _
    · refine (transparent_getClass _).bind fun found => ?_
      cases found with
      | none => exact transparent_pure _
      | some c => exact (ih c).bind fun _ => transparent_pure _

theorem transparent_scopeStart (enclosingInternal : String) :
    Transparent (CacheKey.Valid view) (scopeStart view enclosingInternal) := by
  refine (transparent_getClass enclosingInternal).bind fun found => ?_
  cases found with
  | none => exact transparent_resolveInternalHintToClass enclosingInternal
  | some c => exact transparent_pure _

theorem transparent_scopedCandidates (package : Option String) (simpleName : String) :
    Transparent (CacheKey.Valid view) (scopedCandidates view package simpleName) := by
  cases package with
  | none => exact transparent_getClassesBySimpleName simpleName
  | some pkg => exact transparent_classesInPackage pkg

theorem transparent_resolveScopedInnerClass (enclosingInternal simpleName : String) :
    Transparent (CacheKey.Valid view) (resolveScopedInnerClass view enclosingInternal simpleName) := by
  refine (transparent_scopeStart enclosingInternal).bind fun enclosing => ?_
  cases enclosing with
  | none => exact transparent_pure _
  | some enclosing =>
    refine (transparent_ownerChain 65 enclosing).bind fun owners => ?_
    exact (transparent_scopedCandidates enclosing.package simpleName).bind fun _ => transparent_pure _

theorem transparent_resolveDirectInnerClassRef (ownerInternal simpleName : String) :
    Transparent (CacheKey.Valid view) (resolveDirectInnerClassRef view ownerInternal simpleName) := by
  unfold resolveDirectInnerClassRef
  split
  · exact transparent_pure _
  · exact transparent_getClassRef _

theorem transparent_resolveOwnerClass (classInternal : String) :
    Transparent (CacheKey.Valid view) (resolveOwnerClass view classInternal) := by
  refine (transparent_getClass classInternal).bind fun found => ?_
  split
  · exact transparent_pure _
  · exact transparent_getClass _

theorem transparent_runLookups {α : Type} (lookups : ClassLookups α) :
    Transparent (CacheKey.Valid view) (runLookups view lookups) := by
  induction lookups with
  | done answer => exact transparent_pure _
  | getClass internalName next ih => exact (transparent_getClass internalName).bind ih

theorem transparent_resolveSplit (resolveHead : String → ClassLookups (Option String))
    (split : List String × List String) :
    Transparent (CacheKey.Valid view) (resolveSplit view resolveHead split) := by
  refine (transparent_runLookups _).bind fun head => ?_
  split
  · exact transparent_pure _
  · exact transparent_getClass _

theorem transparent_resolveQualifiedTypePath (path : String) (resolveHead : String → ClassLookups (Option String)) :
    Transparent (CacheKey.Valid view) (resolveQualifiedTypePath view path resolveHead) := by
  unfold resolveQualifiedTypePath
  split_ifs
  · exact transparent_pure _
  · exact transparent_getClass _
  · exact Transparent.findSomeM? (transparent_resolveSplit resolveHead) _

theorem transparent_lookupMemberTypeRefInHierarchy (classInternal simpleName : String) :
    Transparent (CacheKey.Valid view) (lookupMemberTypeRefInHierarchy view classInternal simpleName) := by
  refine (computes_hierarchyOrder view classInternal).transparent.bind fun order => ?_
  refine Transparent.findSomeM? (fun ownerRef => ?_) _
  split
  · exact transparent_pure _
  · exact transparent_resolveDirectInnerClassRef _ simpleName

theorem transparent_lookupMemberTypeInHierarchy (classInternal simpleName : String) :
    Transparent (CacheKey.Valid view) (lookupMemberTypeInHierarchy view classInternal simpleName) := by
  refine (transparent_lookupMemberTypeRefInHierarchy classInternal simpleName).bind fun found => ?_
  cases found with
  | none => exact transparent_pure _
  | some typeRef => exact (computes_materializeClass view typeRef).transparent

end Transparent

end CachedView

/-! ## Every query -/

theorem Query.transparent_run (view : IndexView) (matcher : FuzzyMatcher) (hasher : HashOrder ClassMetadata)
    (q : Query) : Transparent (CacheKey.Valid view) (q.run view matcher hasher) := by
  open CachedView in
  cases q with
  | getClass => exact transparent_getClass _
  | getClassRef => exact transparent_getClassRef _
  | materializeClass typeRef => exact (computes_materializeClass view typeRef).transparent
  | materializeMethod => exact transparent_materializeMethod _
  | materializeField => exact transparent_materializeField _
  | projectTypeNavigationTarget typeRef =>
    exact (computes_classRefFromTypeRef view typeRef).transparent.bind fun _ => transparent_pure _
  | projectMethodNavigationTarget methodRef =>
    exact (computes_classRefFromTypeRef view methodRef.owner).transparent.bind fun _ => transparent_pure _
  | projectFieldNavigationTarget fieldRef =>
    exact (computes_classRefFromTypeRef view fieldRef.owner).transparent.bind fun _ => transparent_pure _
  | getSourceTypeName internal => exact (computes_getSourceTypeName view internal).transparent
  | resolveScopedInnerClass => exact transparent_resolveScopedInnerClass _ _
  | getClassesBySimpleName => exact transparent_getClassesBySimpleName _
  | classesInPackage => exact transparent_classesInPackage _
  | topLevelClassesInPackage pkg => exact (transparent_classesInPackage pkg).bind fun _ => transparent_pure _
  | directInnerClassesOf ownerInternal =>
    exact (computes_directInnerClassRefs view ownerInternal).transparent.bind fun _ => transparent_pure _
  | resolveDirectInnerClass => exact transparent_pure _
  | resolveDirectInnerClassRef => exact transparent_resolveDirectInnerClassRef _ _
  | resolveOwnerClass => exact transparent_resolveOwnerClass _
  | resolveQualifiedTypePath => exact transparent_resolveQualifiedTypePath _ _
  | resolveImports => exact transparent_resolveImports _
  | collectInheritedMembers classInternal =>
    exact (computes_collectInheritedMembers view classInternal).transparent
  | mro classInternal =>
    exact (computes_hierarchyOrder view classInternal).transparent.bind fun _ => transparent_pure _
  | lookupMethodsInHierarchyRefs classInternal methodName =>
    exact (computes_lookupMethodsInHierarchyRefs view classInternal methodName).transparent
  | lookupFieldInHierarchyRef classInternal fieldName =>
    exact (computes_lookupFieldInHierarchyRef view classInternal fieldName).transparent
  | lookupMemberTypeRefInHierarchy => exact transparent_lookupMemberTypeRefInHierarchy _ _
  | findDeclaringMethodOwnerRef classInternal methodName methodDesc =>
    exact (computes_findDeclaringMethodOwnerRef view classInternal methodName methodDesc).transparent
  | lookupMethodsInHierarchy classInternal methodName =>
    exact (computes_lookupMethodsInHierarchy view classInternal methodName).transparent
  | lookupFieldInHierarchy classInternal fieldName =>
    exact (computes_lookupFieldInHierarchy view classInternal fieldName).transparent
  | lookupMemberTypeInHierarchy => exact transparent_lookupMemberTypeInHierarchy _ _
  | findDeclaringMethodOwner classInternal methodName methodDesc =>
    exact (computes_findDeclaringMethodOwner view classInternal methodName methodDesc).transparent
  | getUniqueClassBySimpleName => exact transparent_getUniqueClassBySimpleName _
  | fuzzyAutocomplete => exact transparent_pure _
  | fuzzySearchClasses => exact transparent_fuzzySearchClasses matcher hasher _ _
  | iterAllClasses => exact (computes_allClassRefs view).transparent.bind fun _ => transparent_pure _
  | annotationClasses => exact (computes_annotationClassRefs view).transparent.bind fun _ => transparent_pure _

/-- Whatever queries a view is asked, one after the other, each is answered as by a view with empty caches. -/
theorem cached_queries_as_fresh (view : IndexView) (matcher : FuzzyMatcher) (hasher : HashOrder ClassMetadata)
    (queries : List Query) :
    answers (Query.run view matcher hasher) .empty queries =
      queries.map fun q => ⟨q, (q.run view matcher hasher .empty).1⟩ :=
  answers_eq (Query.transparent_run view matcher hasher) sound_empty queries

end JavaAnalyzer.Index
