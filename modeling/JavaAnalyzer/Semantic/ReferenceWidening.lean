import JavaAnalyzer.Index.HierarchyReach
import JavaAnalyzer.Semantic.TypeName

/-! # Reference widening

The subtype test of `semantic/types.rs`. For class types it is reachability in the hierarchy
(`isReferenceWidening_iff`). -/

namespace JavaAnalyzer.Semantic
set_option autoImplicit false
open Index

namespace TypeName

def isPrimitive (t : TypeName) : Bool :=
  t.kind = .primitive

end TypeName

/-- A type without dimensions that erases to an indexed class. -/
structure IndexedType (view : IndexView) where
  type : TypeName
  not_array : type.arrayDims = 0
  not_primitive : type.isPrimitive = false
  indexed : view.IsIndexed type.erasedInternal

section

variable (view : IndexView)

def isReferenceWidening (source target : TypeName) : Bool :=
  if source.arrayDims > 0 || target.arrayDims > 0 then
    target.arrayDims == source.arrayDims ||
      (target.arrayDims == 0 && target.erasedInternal == "java/lang/Object")
  else if source.isPrimitive || target.isPrimitive then false
  else
    let src := source.erasedInternal
    let dst := target.erasedInternal
    src == dst || (view.mro src).any fun c => c.internalName == dst

variable {view}

theorem isReferenceWidening_class {s t : TypeName} (hs : s.arrayDims = 0) (ht : t.arrayDims = 0)
    (hsource : s.isPrimitive = false) (htarget : t.isPrimitive = false) :
    isReferenceWidening view s t = true ↔
      s.erasedInternal = t.erasedInternal ∨ view.ReachesClass s.erasedInternal t.erasedInternal := by
  rw [isReferenceWidening, hs, ht, hsource, htarget, ← IndexView.mem_mro_names]
  simp

theorem isReferenceWidening_iff (s t : IndexedType view) :
    isReferenceWidening view s.type t.type = true ↔
      view.ReachesClass s.type.erasedInternal t.type.erasedInternal := by
  rw [isReferenceWidening_class s.not_array t.not_array s.not_primitive t.not_primitive]
  exact or_iff_right_of_imp fun he => he ▸ .refl s.indexed

end

/-- The hierarchy order ends for every class of every view, and lists the indexed classes that the class
reaches. With it the subtype test is a preorder of the indexed classes. -/
theorem hierarchy_order_reachability (view : IndexView) :
    (∀ classInternal : String,
      view.hierarchySearch classInternal = some (view.hierarchyOrder classInternal) ∧
        (¬ view.IsIndexed classInternal → view.hierarchyOrder classInternal = []) ∧
        ∃ names : List String,
          names.map view.getClassRefByInternal = (view.hierarchyOrder classInternal).map some ∧
          (view.mro classInternal).map ClassMetadata.internalName = names ∧
          view.ListsReachable classInternal names) ∧
      (∀ s : IndexedType view, isReferenceWidening view s.type s.type = true) ∧
      ∀ s t u : IndexedType view, isReferenceWidening view s.type t.type = true →
        isReferenceWidening view t.type u.type = true → isReferenceWidening view s.type u.type = true := by
  refine ⟨fun classInternal => ⟨IndexView.hierarchyOrder_search view classInternal,
    IndexView.hierarchyOrder_eq_nil, ?_⟩, fun s => ?_, fun s t u hst htu => ?_⟩
  · obtain ⟨hmap, hlists⟩ := IndexView.hierarchyOrder_lists view classInternal
    exact ⟨_, hmap, IndexView.mro_names view classInternal, hlists⟩
  · exact (isReferenceWidening_iff s s).mpr (.refl s.indexed)
  · have hreaches := (isReferenceWidening_iff s t).mp hst
    exact (isReferenceWidening_iff s u).mpr (hreaches.trans ((isReferenceWidening_iff t u).mp htu))

end JavaAnalyzer.Semantic
