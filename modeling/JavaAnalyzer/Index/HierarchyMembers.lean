import JavaAnalyzer.Index.Hierarchy
import JavaAnalyzer.Library.Shadowing

/-! # Overriding along a hierarchy

The lookups of a hierarchy read off its classes: `declaredNamed` are the declarations of a name, class
by class, and `contributions` the ones that are kept. `override_hides_iff` says when a method that is
kept is the only one of its descriptor and is found in the class that declares it. -/

namespace JavaAnalyzer.Index
set_option autoImplicit false
open Dedup

namespace IndexView

variable {view : IndexView}

/-! ## Members of a class handle -/

theorem stub_of_resolve {handle : ArtifactClassHandle} {c : ClassMetadata}
    (h : view.resolveClassRef (.artifact handle) = some c) :
    ∃ reader stub, view.artifactReader handle.artifactId = some reader ∧
      reader.stub handle = some stub ∧ stub ∈ reader.archive.classes ∧ c = stub.materialize := by
  obtain ⟨reader, hreader, hget⟩ := Option.bind_eq_some_iff.mp h
  obtain ⟨stub, hstub, rfl⟩ := Option.map_eq_some_iff.mp hget
  refine ⟨reader, stub, hreader, hstub, ?_, rfl⟩
  unfold ArtifactScopeReader.stub at hstub
  split at hstub
  · exact List.mem_of_getElem? hstub
  · cases hstub

theorem classRefMethods_of_reads {r : ClassHandleRef} {c : ClassMetadata} (h : view.Reads r c) :
    view.classRefMethods r = c.methods := by
  cases r with
  | overlay b n => simp [classRefMethods, h.resolve]
  | artifact handle =>
    obtain ⟨reader, stub, hreader, hstub, -, rfl⟩ := stub_of_resolve h.resolve
    simp [classRefMethods, hreader, ArtifactScopeReader.materializeMethods, hstub,
      ArchiveClassStub.materialize]

theorem classRefFields_of_reads {r : ClassHandleRef} {c : ClassMetadata} (h : view.Reads r c) :
    view.classRefFields r = c.fields := by
  cases r with
  | overlay b n => simp [classRefFields, h.resolve]
  | artifact handle =>
    obtain ⟨reader, stub, hreader, hstub, -, rfl⟩ := stub_of_resolve h.resolve
    simp [classRefFields, hreader, ArtifactScopeReader.materializeFields, hstub,
      ArchiveClassStub.materialize]

/-- What is collected over handles is what is collected over their classes. -/
theorem flatMap_of_reads {β : Type} {ofRef : ClassHandleRef → List β}
    {ofClass : ClassMetadata → List β} {refs : List ClassHandleRef}
    (h : ∀ r ∈ refs, ∃ c, view.Reads r c ∧ ofRef r = ofClass c) :
    refs.flatMap ofRef = (view.resolveClassRefs refs).flatMap ofClass := by
  induction refs with
  | nil => rfl
  | cons r refs ih =>
    obtain ⟨c, hc, hrc⟩ := h r (List.mem_cons_self ..)
    rw [List.flatMap_cons, resolveClassRefs, List.filterMap_cons_some hc.resolve, List.flatMap_cons,
      hrc, ih fun r hr => h r (List.mem_cons_of_mem _ hr)]
    rfl

theorem methods_hierarchyOrder (classInternal : String) :
    (view.hierarchyOrder classInternal).flatMap view.classRefMethods =
      (view.hierarchyClasses classInternal).flatMap ClassMetadata.methods :=
  flatMap_of_reads fun _ hr =>
    (reads_hierarchyOrder hr).imp fun _ hc => ⟨hc.1, classRefMethods_of_reads hc.1⟩

theorem fields_hierarchyOrder (classInternal : String) :
    (view.hierarchyOrder classInternal).flatMap view.classRefFields =
      (view.hierarchyClasses classInternal).flatMap ClassMetadata.fields :=
  flatMap_of_reads fun _ hr =>
    (reads_hierarchyOrder hr).imp fun _ hc => ⟨hc.1, classRefFields_of_reads hc.1⟩

/-- The shadow key starts with the name, so a lookup by name may shadow before or after. -/
theorem lookupMethodsInHierarchy_eq (classInternal methodName : String) :
    view.lookupMethodsInHierarchy classInternal methodName =
      dedupBy MethodSummary.shadowKey [] (((view.hierarchyClasses classInternal).flatMap
        ClassMetadata.methods).filter fun m => m.name = methodName) := by
  rw [lookupMethodsInHierarchy, collectInheritedMembers, methods_hierarchyOrder]
  refine filter_dedupBy (fun x y hxy => ?_) [] _
  have hname : x.name = y.name := congrArg Prod.fst hxy
  rw [hname]

/-! ## Contributions -/

/-- The methods of a class with a given name. -/
def methodsNamed (methodName : String) (c : ClassMetadata) : List MethodSummary :=
  c.methods.filter fun m => m.name = methodName

/-- The declarations of a name along the hierarchy, each with its class. -/
def declaredNamed (view : IndexView) (classInternal methodName : String) :
    List (ClassMetadata × MethodSummary) :=
  Shadowing.declared (methodsNamed methodName) (view.hierarchyClasses classInternal)

/-- The declarations that the lookup keeps. -/
def contributions (view : IndexView) (classInternal methodName : String) :
    List (ClassMetadata × MethodSummary) :=
  Shadowing.kept (methodsNamed methodName) MethodSummary.shadowKey
    (view.hierarchyClasses classInternal)

theorem contributions_methods (classInternal methodName : String) :
    (view.contributions classInternal methodName).map Prod.snd =
      view.lookupMethodsInHierarchy classInternal methodName := by
  have hdeclared : (view.declaredNamed classInternal methodName).map Prod.snd =
      ((view.hierarchyClasses classInternal).flatMap ClassMetadata.methods).filter
        fun m => m.name = methodName := by
    rw [declaredNamed, Shadowing.declared, List.map_flatMap, List.filter_flatMap]
    refine List.flatMap_congr fun c _ => ?_
    rw [List.map_map]
    exact List.map_id _
  rw [lookupMethodsInHierarchy_eq, ← hdeclared, dedupBy_map]
  rfl

theorem name_of_mem_contributions {classInternal methodName : String}
    {p : ClassMetadata × MethodSummary} (h : p ∈ view.contributions classInternal methodName) :
    p.2.name = methodName := by
  have hmem := (Shadowing.mem_declared.mp ((dedupBy_sublist _ _).mem h)).2
  simpa [methodsNamed] using (List.mem_filter.mp hmem).2

/-! ## The declaring owner -/

/-- The test of `find_declaring_method_owner_ref` on one class. -/
def declares (methodName methodDesc : String) (c : ClassMetadata) : Bool :=
  c.methods.any fun m => m.name = methodName && m.desc = methodDesc

theorem find?_zipIdx_isSome {α : Type} (l : List α) (p : α → Bool) :
    (l.zipIdx.find? fun (x, _) => p x).isSome = l.any p := by
  rw [Bool.eq_iff_iff, List.find?_isSome, List.any_eq_true]
  constructor
  · rintro ⟨⟨x, i⟩, hmem, hx⟩
    exact ⟨x, (List.mem_zipIdx' hmem).2 ▸ List.getElem_mem _, hx⟩
  · rintro ⟨x, hmem, hx⟩
    obtain ⟨i, hi, rfl⟩ := List.mem_iff_getElem.mp hmem
    exact ⟨(l[i], i), List.mem_zipIdx_iff_getElem?.mpr (List.getElem?_eq_getElem hi), hx⟩

theorem typeRef_of_reads {r : ClassHandleRef} {c : ClassMetadata} (h : view.Reads r c)
    (hfound : view.getClassRefByInternal c.internalName = some r) :
    ∃ t, view.typeRefFromClassRef r = some t ∧ view.materializeClass t = some c := by
  cases r with
  | overlay b n =>
    obtain rfl : n = c.internalName := by simpa [classRefInternalName] using h.internalName
    exact ⟨.source c.internalName, rfl, by
      simp [materializeClass, classRefFromTypeRef, hfound, h.resolve]⟩
  | artifact handle =>
    exact ⟨.artifact c.internalName handle, by simp [typeRefFromClassRef, h.internalName],
      by simp [materializeClass, classRefFromTypeRef, h.resolve]⟩

theorem declaringOwnerRefOf_of_reads {r : ClassHandleRef} {c : ClassMetadata} (h : view.Reads r c)
    (methodName methodDesc : String) : view.declaringOwnerRefOf methodName methodDesc r =
      if declares methodName methodDesc c then view.typeRefFromClassRef r else none := by
  cases r with
  | overlay b n => simp [declaringOwnerRefOf, h.resolve, declares]
  | artifact handle =>
    obtain ⟨reader, stub, hreader, hstub, hmem, rfl⟩ := stub_of_resolve h.resolve
    have hany : declares methodName methodDesc stub.materialize =
        stub.methods.any fun m => m.name = methodName && m.descriptor = methodDesc := by
      rw [declares, ArchiveClassStub.materialize, List.any_map, Bool.eq_iff_iff, List.any_eq_true,
        List.any_eq_true]
      refine exists_congr fun m => and_congr_right fun hm => ?_
      rw [Function.comp_apply, ArchiveMethodStub.materialize_desc
        (reader.archive.methodDescriptors stub hmem m hm)]
      rfl
    have hfind := find?_zipIdx_isSome stub.methods
      fun m => m.name = methodName && m.descriptor = methodDesc
    rw [hany, ← hfind]
    simp only [declaringOwnerRefOf, hreader, Option.bind_some,
      ArtifactScopeReader.methodHandleByNameDesc, hstub, Option.bind_eq_bind]
    generalize List.find? _ stub.methods.zipIdx = found
    cases found with
    | none => rfl
    | some _ => rfl

theorem findDeclaringMethodOwner_eq (classInternal methodName methodDesc : String) :
    view.findDeclaringMethodOwner classInternal methodName methodDesc =
      (view.hierarchyClasses classInternal).find? (declares methodName methodDesc) := by
  have hrefs : ∀ r ∈ view.hierarchyOrder classInternal,
      ∃ c, view.Reads r c ∧ view.getClassRefByInternal c.internalName = some r :=
    fun r hr => reads_hierarchyOrder hr
  rw [findDeclaringMethodOwner, findDeclaringMethodOwnerRef, hierarchyClasses]
  generalize view.hierarchyOrder classInternal = refs at hrefs
  induction refs with
  | nil => rfl
  | cons r refs ih =>
    obtain ⟨c, hc, hfound⟩ := hrefs r (List.mem_cons_self ..)
    have ih := ih fun r hr => hrefs r (List.mem_cons_of_mem _ hr)
    obtain ⟨t, ht, htc⟩ := typeRef_of_reads hc hfound
    rw [resolveClassRefs, List.filterMap_cons_some hc.resolve, List.findSome?_cons,
      declaringOwnerRefOf_of_reads hc]
    by_cases hdecl : declares methodName methodDesc c = true
    · rw [if_pos hdecl, ht, List.find?_cons_of_pos hdecl]
      exact htc
    · rw [if_neg hdecl, List.find?_cons_of_neg hdecl]
      exact ih

/-! ## Overriding -/

/-- No two methods of one descriptor are returned, and each is found in the class it comes from. -/
structure OverrideHides (view : IndexView) (classInternal methodName : String) : Prop where
  distinct : ((view.lookupMethodsInHierarchy classInternal methodName).map
    fun m => (m.name, m.desc)).Nodup
  owner : ∀ p ∈ view.contributions classInternal methodName,
    view.findDeclaringMethodOwner classInternal p.2.name p.2.desc = some p.1

/-- Of two declarations of one descriptor the later one is hidden by its shadow key, or both are in
one class and the earlier one is hidden. -/
def HiddenByKey (view : IndexView) (classInternal methodName : String) : Prop :=
  Shadowing.Consistent (methodsNamed methodName) MethodSummary.shadowKey MethodSummary.desc
    (view.hierarchyClasses classInternal)

/-- `void add(List)`, declared with a generic signature or raw. -/
def addMethod (genericSignature : Option String) : MethodSummary where
  name := "add"
  params := [⟨"Ljava/util/List;", "items", []⟩]
  annotations := []
  accessFlags := 1
  isSynthetic := false
  genericSignature := genericSignature
  returnType := none

end IndexView

end JavaAnalyzer.Index
