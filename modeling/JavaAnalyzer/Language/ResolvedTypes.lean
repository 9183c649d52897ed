import JavaAnalyzer.Index.SimpleNameSearch
import JavaAnalyzer.Language.StrictTypes
import JavaAnalyzer.Library.ElementWise

/-! # Strictly resolved types exist

What `resolve_type_name_strict` makes of a type text names only classes that the view has, at every depth of bounds and
type arguments. -/

namespace JavaAnalyzer.Language
set_option autoImplicit false
open JavaAnalyzer.Index Semantic ElementWise

namespace SourceTypeCtx

variable {ctx : SourceTypeCtx}

/-- A type whose classes all exist. The bounds of an intersection are no intersections. -/
inductive AllExist (ctx : SourceTypeCtx) : TypeName → Prop where
  | internal (base : String) (args : List TypeName) (dims : ℕ) (hbase : ctx.classExists base = true)
      (hargs : ∀ arg ∈ args, AllExist ctx arg) : AllExist ctx ⟨base, .internal, args, dims⟩
  | intersection (bounds : List TypeName) (dims : ℕ) (hne : bounds ≠ [])
      (hplain : ∀ bound ∈ bounds, bound.kind = .internal) (hbounds : ∀ bound ∈ bounds, AllExist ctx bound) :
      AllExist ctx ⟨"&", .intersection, bounds, dims⟩
  | wildcard (base : String) (kind : TypeNameKind) (args : List TypeName)
      (hkind : kind ∈ [TypeNameKind.wildcard, .wildcardExtends, .wildcardSuper])
      (hargs : ∀ arg ∈ args, AllExist ctx arg) : AllExist ctx ⟨base, kind, args, 0⟩

theorem AllExist.withArrayDims {ty : TypeName} (h : AllExist ctx ty)
    (hkind : ty.kind = .internal ∨ ty.kind = .intersection) (dims : ℕ) : AllExist ctx (ty.withArrayDims dims) := by
  cases h with
  | internal base args _ hbase hargs => exact .internal base args dims hbase hargs
  | intersection bounds _ hne hplain hbounds => exact .intersection bounds dims hne hplain hbounds
  | wildcard base kind args hmark hargs => rcases hkind with rfl | rfl <;> simp at hmark

/-- A class or an intersection of classes. -/
structure IsClassType (ctx : SourceTypeCtx) (ty : TypeName) : Prop where
  exist : AllExist ctx ty
  kind : ty.kind = .internal ∨ ty.kind = .intersection

theorem IsClassType.erased {ty : TypeName} (h : IsClassType ctx ty) : ctx.classExists ty.erasedInternal = true := by
  obtain ⟨hexist, hkind⟩ := h
  cases hexist with
  | internal base args dims hbase hargs => simpa [TypeName.erasedInternal] using hbase
  | intersection bounds dims hne hplain hbounds =>
    cases bounds with
    | nil => exact absurd rfl hne
    | cons bound bounds =>
      have hbound := hbounds bound List.mem_cons_self
      have hinternal := hplain bound List.mem_cons_self
      rw [TypeName.erasedInternal]
      cases hbound with
      | internal base args dims hbase hargs => simpa [TypeName.erasedInternal] using hbase
      | intersection => cases hinternal
      | wildcard base kind args hmark hargs =>
        subst hinternal
        simp at hmark
  | wildcard base kind args hmark hargs => rcases hkind with rfl | rfl <;> simp at hmark

/-- The bounds of an intersection, flattened. -/
theorem isClassType_intersection {types : List TypeName} (hne : types ≠ []) (h : ∀ ty ∈ types, IsClassType ctx ty) :
    IsClassType ctx (TypeName.intersection types) := by
  have hflat : ∀ bound ∈ types.flatMap fun bound => if bound.isIntersection then bound.args else [bound],
      bound.kind = .internal ∧ AllExist ctx bound := by
    intro bound hbound
    obtain ⟨ty, hty, hmem⟩ := List.mem_flatMap.mp hbound
    obtain ⟨hexist, hkind⟩ := h ty hty
    cases hexist with
    | internal base args dims hbase hargs =>
      obtain rfl : bound = ⟨base, .internal, args, dims⟩ := by simpa [TypeName.isIntersection] using hmem
      exact ⟨rfl, .internal base args dims hbase hargs⟩
    | intersection bounds dims hne hplain hbounds =>
      have hmem : bound ∈ bounds := by simpa [TypeName.isIntersection] using hmem
      exact ⟨hplain bound hmem, hbounds bound hmem⟩
    | wildcard base kind args hmark hargs => rcases hkind with rfl | rfl <;> simp at hmark
  have hnonempty : (types.flatMap fun bound => if bound.isIntersection then bound.args else [bound]) ≠ [] := by
    obtain ⟨ty, hty⟩ := List.exists_mem_of_ne_nil _ hne
    obtain ⟨hexist, hkind⟩ := h ty hty
    intro hnil
    have hnone := List.flatMap_eq_nil_iff.mp hnil ty hty
    cases hexist with
    | internal base args dims hbase hargs => simp [TypeName.isIntersection] at hnone
    | intersection bounds dims hne hplain hbounds => exact hne (by simpa [TypeName.isIntersection] using hnone)
    | wildcard base kind args hmark hargs => rcases hkind with rfl | rfl <;> simp at hmark
  rw [TypeName.intersection]
  generalize (types.flatMap fun bound => if bound.isIntersection then bound.args else [bound]) = bounds
    at hflat hnonempty
  match bounds with
  | [] => exact absurd rfl hnonempty
  | [bound] => exact ⟨(hflat bound List.mem_cons_self).2, Or.inl (hflat bound List.mem_cons_self).1⟩
  | first :: second :: rest =>
    refine ⟨?_, Or.inr rfl⟩
    exact .intersection _ 0 hnonempty (fun bound hbound => (hflat bound hbound).1) fun bound hbound =>
      (hflat bound hbound).2

/-! ## Bases -/

theorem classExists_of_simple {simple internal : String} (h : ctx.resolveSimpleStrict simple = some internal) :
    ctx.classExists internal = true := by
  rw [resolveSimpleStrict_eq] at h
  exact LevelLookup.known_of_lookup h

theorem classExists_of_guard {name internal : String}
    (h : (if ctx.classExists name then some name else none) = some internal) : ctx.classExists internal = true := by
  split_ifs at h with hexists
  cases h
  exact hexists

theorem classExists_of_path {path : String} {resolveHead : String → Option String} {resolved : ClassMetadata}
    (h : ctx.view.resolveQualifiedTypePath path resolveHead = some resolved) :
    ctx.classExists resolved.internalName = true := by
  have hget : ∃ name, ctx.view.getClass name = some resolved := by
    rw [IndexView.resolveQualifiedTypePath] at h
    split_ifs at h
    · exact ⟨_, h⟩
    · obtain ⟨split, -, hsplit⟩ := List.exists_of_findSome?_eq_some h
      obtain ⟨name, -, hname⟩ := Option.bind_eq_some_iff.mp hsplit
      exact ⟨name, hname⟩
  obtain ⟨name, hname⟩ := hget
  rw [classExists, (IndexView.record_of_getClass hname).2, hname]
  rfl

theorem classExists_of_nestedByName {parts : List String} {internal : String}
    (h : ctx.nestedByName parts = some internal) : ctx.classExists internal = true := by
  obtain ⟨split, -, hsplit⟩ := List.exists_of_findSome?_eq_some h
  obtain ⟨owner, -, hcandidate⟩ := Option.bind_eq_some_iff.mp hsplit
  exact classExists_of_guard hcandidate

theorem classExists_of_base {base : List Char} {internal : String}
    (h : ctx.resolveBaseInternal base = some internal) : ctx.classExists internal = true := by
  rw [resolveBaseInternal] at h
  simp only [] at h
  split at h
  · exact classExists_of_guard h
  · split at h
    · split at h
      · rename_i resolved hresolved
        rw [← Option.some.inj h]
        exact classExists_of_path hresolved
      · split at h
        · cases h
        · split at h
          · rename_i hslashed
            rw [← Option.some.inj h]
            exact hslashed
          · exact classExists_of_nestedByName h
    · exact classExists_of_simple h

/-! ## Types and type arguments -/

theorem isClassType_dims {ty : TypeName} (h : IsClassType ctx ty) (dims : ℕ) :
    IsClassType ctx (if 0 < dims then ty.withArrayDims dims else ty) := by
  split_ifs
  · exact ⟨h.exist.withArrayDims h.kind dims, h.kind⟩
  · exact h

theorem isClassType_internal {base : String} {args : List TypeName} (hbase : ctx.classExists base = true)
    (hargs : ∀ arg ∈ args, AllExist ctx arg) : IsClassType ctx (TypeName.internalWithArgs base args) :=
  ⟨.internal base args 0 hbase hargs, .inl rfl⟩

/-- Both functions of the recursion at once. -/
theorem allExist_fuel (fuel : ℕ) :
    (∀ text ty, ctx.resolveTypeNameStrictFuel fuel text = some ty → IsClassType ctx ty) ∧
      ∀ text ty, ctx.resolveTypeArgTypeFuel fuel text = some ty → AllExist ctx ty := by
  induction fuel with
  | zero =>
    refine ⟨fun _ _ h => ?_, fun _ _ h => ?_⟩
    · cases h
    · cases h
  | succ fuel ih =>
    obtain ⟨htype, harg⟩ := ih
    refine ⟨fun text ty h => ?_, fun text ty h => ?_⟩
    · rw [resolveTypeNameStrictFuel] at h
      simp only [] at h
      split at h
      · cases h
      · split at h
        · rename_i hbounds
          obtain ⟨types, htypes, rfl⟩ := Option.map_eq_some_iff.mp h
          have hlength := (mapM_eq_some_iff.mp htypes).length_eq
          have hne : types ≠ [] := fun hnil => by simp [hlength, hnil] at hbounds
          refine isClassType_dims (isClassType_intersection hne fun ty hty => ?_) _
          obtain ⟨bound, -, hbound⟩ := exists_of_mem_mapM htypes hty
          exact htype bound ty hbound
        · obtain ⟨split, -, h⟩ := Option.bind_eq_some_iff.mp h
          obtain ⟨base, hbase, h⟩ := Option.bind_eq_some_iff.mp h
          obtain ⟨plain, hplain, rfl⟩ := Option.map_eq_some_iff.mp h
          have hexists := classExists_of_base hbase
          refine isClassType_dims ?_ _
          cases hargs : split.2 with
          | none =>
            rw [hargs] at hplain
            cases hplain
            exact isClassType_internal hexists nofun
          | some args =>
            rw [hargs] at hplain
            obtain ⟨types, htypes, rfl⟩ := Option.map_eq_some_iff.mp hplain
            split
            · exact isClassType_internal hexists nofun
            · refine isClassType_internal hexists fun ty hty => ?_
              obtain ⟨arg, -, hty⟩ := exists_of_mem_mapM htypes hty
              exact harg arg ty hty
    · rw [resolveTypeArgTypeFuel] at h
      split at h
      · cases h
      · split at h
        · cases h
          exact .wildcard "*" .wildcard [] (by simp) nofun
        · split at h
          · obtain ⟨inner, hinner, rfl⟩ := Option.map_eq_some_iff.mp h
            refine .wildcard "+" .wildcardExtends [inner] (by simp) fun arg hmem => ?_
            exact List.mem_singleton.mp hmem ▸ harg _ inner hinner
          · split at h
            · obtain ⟨inner, hinner, rfl⟩ := Option.map_eq_some_iff.mp h
              refine .wildcard "-" .wildcardSuper [inner] (by simp) fun arg hmem => ?_
              exact List.mem_singleton.mp hmem ▸ harg _ inner hinner
            · obtain ⟨resolved, hresolved, h⟩ := Option.bind_eq_some_iff.mp h
              split_ifs at h
              obtain rfl := Option.some.inj h
              exact (htype _ resolved hresolved).exist

/-- A package of two classes. -/
def listCtx : SourceTypeCtx :=
  ⟨some "p", [], .new [BucketIndex.new.addClasses [.bare (some "p") "List" "p/List" none .unknown,
    .bare (some "p") "A" "p/A" none .unknown]]⟩

end SourceTypeCtx

end JavaAnalyzer.Language
