import JavaAnalyzer.Index.HierarchyMembers
import JavaAnalyzer.Library.BreadthFirst

/-! # The hierarchy as reachability

The classes of the hierarchy order are the indexed classes that superclass and interface edges lead to
(`hierarchyOrder_lists`), and `mro` keeps their names. -/

namespace JavaAnalyzer.Index
set_option autoImplicit false

namespace IndexView

variable (view : IndexView)

/-! ## Projected classes -/

/-- The loop of `project_hierarchy_classes`: a class keeps the members whose keys are new. -/
def projectHierarchyClasses : List (String × String) → List String → List ClassHandleRef → List ClassMetadata
  | _, _, [] => []
  | seenMethods, seenFields, classRef :: order =>
    match view.resolveClassRef classRef with
    | none => projectHierarchyClasses seenMethods seenFields order
    | some c =>
      { c with
        methods := Dedup.dedupBy MethodSummary.shadowKey seenMethods c.methods
        fields := Dedup.dedupBy FieldSummary.name seenFields c.fields } ::
      projectHierarchyClasses (c.methods.map MethodSummary.shadowKey ++ seenMethods)
        (c.fields.map FieldSummary.name ++ seenFields) order

def mro (classInternal : String) : List ClassMetadata :=
  view.projectHierarchyClasses [] [] (view.hierarchyOrder classInternal)

/-! ## The class graph -/

def IsIndexed (classInternal : String) : Prop :=
  (view.getClassRefByInternal classInternal).isSome

/-- An indexed class that a walk along superclass and interface edges ends in. All the classes before it are
indexed too. An empty name is no edge. -/
def ReachesClass (classInternal reached : String) : Prop :=
  Worklist.Reaches view.getClassRefByInternal view.queuedParents classInternal reached

/-- The least number of edges that lead from one class to the other. -/
noncomputable def hierarchyDistance (classInternal reached : String) : ℕ :=
  Worklist.distance view.getClassRefByInternal view.queuedParents classInternal reached

/-- The reachable classes, each once and the nearest first. -/
structure ListsReachable (classInternal : String) (names : List String) : Prop where
  head : view.IsIndexed classInternal → names.head? = some classInternal
  mem_iff : ∀ n, n ∈ names ↔ view.ReachesClass classInternal n
  nodup : names.Nodup
  sorted : names.Pairwise fun n m =>
    view.hierarchyDistance classInternal n ≤ view.hierarchyDistance classInternal m

variable {view}

theorem projectHierarchyClasses_names (seenMethods : List (String × String)) (seenFields : List String)
    (order : List ClassHandleRef) :
    (view.projectHierarchyClasses seenMethods seenFields order).map ClassMetadata.internalName =
      (view.resolveClassRefs order).map ClassMetadata.internalName := by
  induction order generalizing seenMethods seenFields with
  | nil => rfl
  | cons classRef order ih =>
    rw [projectHierarchyClasses, resolveClassRefs]
    cases hclass : view.resolveClassRef classRef with
    | none =>
      rw [List.filterMap_cons_none hclass]
      exact ih seenMethods seenFields
    | some c =>
      rw [List.filterMap_cons_some hclass, List.map_cons, List.map_cons]
      exact congrArg (c.internalName :: ·) (ih _ _)

theorem projectHierarchyClasses_methods (seenMethods : List (String × String)) (seenFields : List String)
    (order : List ClassHandleRef) :
    (view.projectHierarchyClasses seenMethods seenFields order).flatMap ClassMetadata.methods =
      Dedup.dedupBy MethodSummary.shadowKey seenMethods
        ((view.resolveClassRefs order).flatMap ClassMetadata.methods) := by
  induction order generalizing seenMethods seenFields with
  | nil => rfl
  | cons classRef order ih =>
    rw [projectHierarchyClasses, resolveClassRefs]
    cases hclass : view.resolveClassRef classRef with
    | none =>
      rw [List.filterMap_cons_none hclass]
      exact ih seenMethods seenFields
    | some c =>
      rw [List.filterMap_cons_some hclass, List.flatMap_cons, List.flatMap_cons, ih, Dedup.dedupBy_append]
      exact congrArg (_ ++ ·) (Dedup.dedupBy_congr fun m _ => Dedup.mem_map_dedupBy_append.symm)

theorem projectHierarchyClasses_fields (seenMethods : List (String × String)) (seenFields : List String)
    (order : List ClassHandleRef) :
    (view.projectHierarchyClasses seenMethods seenFields order).flatMap ClassMetadata.fields =
      Dedup.dedupBy FieldSummary.name seenFields ((view.resolveClassRefs order).flatMap ClassMetadata.fields) := by
  induction order generalizing seenMethods seenFields with
  | nil => rfl
  | cons classRef order ih =>
    rw [projectHierarchyClasses, resolveClassRefs]
    cases hclass : view.resolveClassRef classRef with
    | none =>
      rw [List.filterMap_cons_none hclass]
      exact ih seenMethods seenFields
    | some c =>
      rw [List.filterMap_cons_some hclass, List.flatMap_cons, List.flatMap_cons, ih, Dedup.dedupBy_append]
      exact congrArg (_ ++ ·) (Dedup.dedupBy_congr fun f _ => Dedup.mem_map_dedupBy_append.symm)

theorem mro_methods (view : IndexView) (classInternal : String) :
    (view.mro classInternal).flatMap ClassMetadata.methods = (view.collectInheritedMembers classInternal).1 := by
  rw [mro, projectHierarchyClasses_methods, collectInheritedMembers, methods_hierarchyOrder]
  rfl

theorem mro_fields (view : IndexView) (classInternal : String) :
    (view.mro classInternal).flatMap ClassMetadata.fields = (view.collectInheritedMembers classInternal).2 := by
  rw [mro, projectHierarchyClasses_fields, collectInheritedMembers, fields_hierarchyOrder]
  rfl

/-- The classes of `mro` hold the members that `collect_inherited_members` reads one by one, in its order. -/
theorem mro_members (view : IndexView) (classInternal : String) :
    ((view.mro classInternal).flatMap ClassMetadata.methods, (view.mro classInternal).flatMap ClassMetadata.fields) =
      view.collectInheritedMembers classInternal :=
  Prod.ext (view.mro_methods classInternal) (view.mro_fields classInternal)

theorem mro_names (view : IndexView) (classInternal : String) :
    (view.mro classInternal).map ClassMetadata.internalName =
      (view.hierarchyClasses classInternal).map ClassMetadata.internalName :=
  projectHierarchyClasses_names [] [] _

/-- The order holds the classes of a list of names, and the list is the reachable classes. -/
theorem hierarchyOrder_lists (view : IndexView) (classInternal : String) :
    ((view.hierarchyClasses classInternal).map ClassMetadata.internalName).map view.getClassRefByInternal =
        (view.hierarchyOrder classInternal).map some ∧
      view.ListsReachable classInternal
        ((view.hierarchyClasses classInternal).map ClassMetadata.internalName) := by
  obtain ⟨names, hmap, hcovers⟩ := Worklist.bfs_reaches (hierarchyOrder_search view classInternal)
  have hnames : (view.hierarchyClasses classInternal).map ClassMetadata.internalName = names :=
    names_of_found hmap
  rw [hnames]
  refine ⟨hmap, hcovers.head, fun n => ?_, hcovers.nodup, hcovers.sorted⟩
  rw [hcovers.mem_iff n]
  exact and_iff_right List.not_mem_nil

theorem mem_mro_names {classInternal n : String} :
    n ∈ (view.mro classInternal).map ClassMetadata.internalName ↔ view.ReachesClass classInternal n := by
  rw [mro_names, (hierarchyOrder_lists view classInternal).2.mem_iff]

theorem hierarchyOrder_eq_nil {classInternal : String} (h : ¬ view.IsIndexed classInternal) :
    view.hierarchyOrder classInternal = [] := by
  obtain ⟨hmap, hlists⟩ := hierarchyOrder_lists view classInternal
  have hnames : (view.hierarchyClasses classInternal).map ClassMetadata.internalName = [] :=
    List.eq_nil_iff_forall_not_mem.mpr fun n hn => h ((hlists.mem_iff n).mp hn).start_found
  rw [hnames, List.map_nil] at hmap
  exact List.map_eq_nil_iff.mp hmap.symm

end IndexView

end JavaAnalyzer.Index
