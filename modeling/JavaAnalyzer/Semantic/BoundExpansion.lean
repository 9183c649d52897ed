import Mathlib.Data.Finset.Card
import JavaAnalyzer.Semantic.TypeParameterBounds

/-! # Expansion of type variables

`expand_type_name_with_type_parameter_bounds` of `semantic/types/generics.rs`, which puts the bounds of a type parameter
in the place of the type variable, and goes on in them. A set of the names that are being expanded goes along. The
recursion has fuel and gives nothing when that does not do. -/

namespace JavaAnalyzer.Semantic
set_option autoImplicit false

/-! ## Lists with a state -/

section Threads

variable {α β σ : Type}

/-- `map` over a list with a function that may change a state and may not come to an end. -/
def threadEach (step : α → σ → Option (β × σ)) : List α → σ → Option (List β × σ)
  | [], s => some ([], s)
  | a :: as, s => (step a s).bind fun p => (threadEach step as p.2).map fun q => (p.1 :: q.1, q.2)

variable {step step' : α → σ → Option (β × σ)}

theorem threadEach_mono (h : ∀ a s p, step a s = some p → step' a s = some p) {as : List α} {s : σ} {q : List β × σ}
    (hq : threadEach step as s = some q) : threadEach step' as s = some q := by
  induction as generalizing s q with
  | nil => exact hq
  | cons a as ih =>
    obtain ⟨p, hp, hrest⟩ := Option.bind_eq_some_iff.mp hq
    obtain ⟨r, hr, rfl⟩ := Option.map_eq_some_iff.mp hrest
    rw [threadEach, h a s p hp, Option.bind_some, ih hr, Option.map_some]

/-- Steps that leave the state as it is leave it as it is together. -/
theorem threadEach_state (h : ∀ a s p, step a s = some p → p.2 = s) {as : List α} {s : σ} {q : List β × σ}
    (hq : threadEach step as s = some q) : q.2 = s := by
  induction as generalizing s q with
  | nil =>
    cases hq
    rfl
  | cons a as ih =>
    obtain ⟨p, hp, hrest⟩ := Option.bind_eq_some_iff.mp hq
    obtain ⟨r, hr, rfl⟩ := Option.map_eq_some_iff.mp hrest
    exact (ih hr).trans (h a s p hp)

theorem threadEach_ends (h : ∀ a s p, step a s = some p → p.2 = s) {as : List α} {s : σ}
    (hends : ∀ a ∈ as, ∃ p, step a s = some p) : ∃ q, threadEach step as s = some q := by
  induction as with
  | nil => exact ⟨_, rfl⟩
  | cons a as ih =>
    obtain ⟨p, hp⟩ := hends a List.mem_cons_self
    obtain ⟨q, hq⟩ := ih fun b hb => hends b (List.mem_cons_of_mem a hb)
    exact ⟨_, by rw [threadEach, hp, Option.bind_some, h a s p hp, hq, Option.map_some]⟩

end Threads

/-! ## The expansion -/

namespace TypeName

theorem inductOn {P : TypeName → Prop} (t : TypeName)
    (mk : ∀ base kind args dims, (∀ a ∈ args, P a) → P ⟨base, kind, args, dims⟩) : P t :=
  @TypeName.rec P (fun args => ∀ a ∈ args, P a) mk (fun _ ha => absurd ha List.not_mem_nil)
    (fun _ _ ha hargs => List.forall_mem_cons.mpr ⟨ha, hargs⟩) t

end TypeName

def isLikelyTypeVarName (name : String) : Bool :=
  match name.toList with
  | [] => false
  | first :: chars => first.isUpper && chars.all fun c => c.isAlphanum || c == '_'

/-- The type may stand for a type variable. -/
def namesTypeVar (ty : TypeName) : Bool :=
  ty.args.isEmpty && (ty.kind = .typeVar || ty.kind = .sourceLike && isLikelyTypeVarName ty.baseInternal)

section Expansion

variable (methodBounds classBounds : TypeParameterBounds)

/-- What a call gives for a type: perhaps an expanded type, and the names that are being expanded then. -/
abbrev Expand := TypeName → Finset String → Option (Option TypeName × Finset String)

/-- Each type expanded, or as it is where nothing comes out. -/
def expandEach (expand : Expand) : List TypeName → Finset String → Option (List TypeName × Finset String) :=
  threadEach fun bound visiting => (expand bound visiting).map fun p => (p.1.getD bound, p.2)

def boundsOf (base : String) : Option (List JvmType) :=
  (methodBounds.lookup base).or (classBounds.lookup base)

/-- The body of `expand_type_name_with_bounds_impl`, with the function for its recursive calls. -/
def expandBody (expand : Expand) : Expand := fun ty visiting =>
  if ty.isIntersection then
    (expandEach expand ty.args visiting).map fun bounds =>
      (some ((TypeName.intersection bounds.1).withArrayDims ty.arrayDims), bounds.2)
  else
    (expandEach expand ty.args visiting).bind fun args =>
      if namesTypeVar ty then
        match boundsOf methodBounds classBounds ty.baseInternal with
        | none => some (none, args.2)
        | some bounds =>
          if ty.baseInternal ∈ args.2 then some (none, args.2)
          else
            (expandEach expand (bounds.map JvmType.toTypeName) (insert ty.baseInternal args.2)).map fun expanded =>
              (if expanded.1.isEmpty then none
                else some ((TypeName.intersection expanded.1).withArrayDims ty.arrayDims),
              expanded.2.erase ty.baseInternal)
      else some (some { ty with args := args.1 }, args.2)

def expandTypeNameWithBoundsImpl : ℕ → Expand
  | 0 => fun _ _ => none
  | fuel + 1 => expandBody methodBounds classBounds (expandTypeNameWithBoundsImpl fuel)

def expandTypeNameWithTypeParameterBounds (fuel : ℕ) (ty : TypeName) (methodSignature classSignature : Option String) :
    Option (Option TypeName) :=
  let methodBounds := (methodSignature.map parseTypeParameterBounds).getD ∅
  let classBounds := (classSignature.map parseTypeParameterBounds).getD ∅
  if methodBounds.keys.isEmpty && classBounds.keys.isEmpty then some none
  else (expandTypeNameWithBoundsImpl methodBounds classBounds fuel ty ∅).map Prod.fst

end Expansion

/-! ## The ways through a call -/

section Paths

variable {methodBounds classBounds : TypeParameterBounds} {expand expand' : Expand} {ty : TypeName}
  {visiting : Finset String}

/-- One constructor for each exit. -/
inductive ExpandPath (methodBounds classBounds : TypeParameterBounds) (expand : Expand) (ty : TypeName)
    (visiting : Finset String) : Option TypeName × Finset String → Prop
  | intersection {bounds : List TypeName × Finset String} (hkind : ty.isIntersection = true)
      (hbounds : expandEach expand ty.args visiting = some bounds) :
      ExpandPath methodBounds classBounds expand ty visiting
        (some ((TypeName.intersection bounds.1).withArrayDims ty.arrayDims), bounds.2)
  | other {args : List TypeName × Finset String} (hkind : ¬ ty.isIntersection = true)
      (hargs : expandEach expand ty.args visiting = some args) (hvar : namesTypeVar ty = false) :
      ExpandPath methodBounds classBounds expand ty visiting (some { ty with args := args.1 }, args.2)
  | unbound {args : List TypeName × Finset String} (hkind : ¬ ty.isIntersection = true)
      (hargs : expandEach expand ty.args visiting = some args) (hvar : namesTypeVar ty = true)
      (hbounds : boundsOf methodBounds classBounds ty.baseInternal = none) :
      ExpandPath methodBounds classBounds expand ty visiting (none, args.2)
  | visited {args : List TypeName × Finset String} {bounds : List JvmType} (hkind : ¬ ty.isIntersection = true)
      (hargs : expandEach expand ty.args visiting = some args) (hvar : namesTypeVar ty = true)
      (hbounds : boundsOf methodBounds classBounds ty.baseInternal = some bounds) (hmem : ty.baseInternal ∈ args.2) :
      ExpandPath methodBounds classBounds expand ty visiting (none, args.2)
  | expanded {args : List TypeName × Finset String} {bounds : List JvmType} {expanded : List TypeName × Finset String}
      (hkind : ¬ ty.isIntersection = true) (hargs : expandEach expand ty.args visiting = some args)
      (hvar : namesTypeVar ty = true) (hbounds : boundsOf methodBounds classBounds ty.baseInternal = some bounds)
      (hmem : ty.baseInternal ∉ args.2)
      (hexpanded : expandEach expand (bounds.map JvmType.toTypeName) (insert ty.baseInternal args.2) = some expanded) :
      ExpandPath methodBounds classBounds expand ty visiting
        (if expanded.1.isEmpty then none else some ((TypeName.intersection expanded.1).withArrayDims ty.arrayDims),
          expanded.2.erase ty.baseInternal)

theorem expandPath_iff {result : Option TypeName × Finset String} :
    ExpandPath methodBounds classBounds expand ty visiting result ↔
      expandBody methodBounds classBounds expand ty visiting = some result := by
  constructor
  · rintro (⟨hkind, hbounds⟩ | ⟨hkind, hargs, hvar⟩ | ⟨hkind, hargs, hvar, hbounds⟩ |
      ⟨hkind, hargs, hvar, hbounds, hmem⟩ | ⟨hkind, hargs, hvar, hbounds, hmem, hexpanded⟩)
    · rw [expandBody, if_pos hkind, hbounds, Option.map_some]
    · rw [expandBody, if_neg hkind, hargs, Option.bind_some, hvar, if_neg Bool.false_ne_true]
    · rw [expandBody, if_neg hkind, hargs, Option.bind_some, hvar, if_pos rfl, hbounds]
    · rw [expandBody, if_neg hkind, hargs, Option.bind_some, hvar, if_pos rfl, hbounds]
      exact if_pos hmem
    · rw [expandBody, if_neg hkind, hargs, Option.bind_some, hvar, if_pos rfl, hbounds]
      dsimp only
      rw [if_neg hmem, hexpanded, Option.map_some]
  · intro h
    by_cases hkind : ty.isIntersection = true
    · rw [expandBody, if_pos hkind] at h
      obtain ⟨bounds, hbounds, rfl⟩ := Option.map_eq_some_iff.mp h
      exact .intersection hkind hbounds
    · rw [expandBody, if_neg hkind] at h
      obtain ⟨args, hargs, h⟩ := Option.bind_eq_some_iff.mp h
      cases hvar : namesTypeVar ty with
      | false =>
        rw [hvar, if_neg Bool.false_ne_true] at h
        cases h
        exact .other hkind hargs hvar
      | true =>
        rw [hvar, if_pos rfl] at h
        cases hbounds : boundsOf methodBounds classBounds ty.baseInternal with
        | none =>
          rw [hbounds] at h
          cases h
          exact .unbound hkind hargs hvar hbounds
        | some bounds =>
          rw [hbounds] at h
          dsimp only at h
          by_cases hmem : ty.baseInternal ∈ args.2
          · rw [if_pos hmem] at h
            cases h
            exact .visited hkind hargs hvar hbounds hmem
          · rw [if_neg hmem] at h
            obtain ⟨expanded, hexpanded, rfl⟩ := Option.map_eq_some_iff.mp h
            exact .expanded hkind hargs hvar hbounds hmem hexpanded

/-- The calls leave the names as they are. -/
def Restores (expand : Expand) : Prop :=
  ∀ ty visiting result, expand ty visiting = some result → result.2 = visiting

theorem Restores.each (h : Restores expand) {types : List TypeName} {q : List TypeName × Finset String}
    (hq : expandEach expand types visiting = some q) : q.2 = visiting := by
  refine threadEach_state (fun bound names p hp => ?_) hq
  obtain ⟨r, hr, rfl⟩ := Option.map_eq_some_iff.mp hp
  exact h bound names r hr

/-- The name that is put in before the bounds are expanded is taken out behind them. -/
theorem Restores.body (h : Restores expand) : Restores (expandBody methodBounds classBounds expand) := by
  intro ty visiting result hresult
  cases expandPath_iff.mpr hresult with
  | intersection hkind hbounds => exact h.each hbounds
  | other hkind hargs hvar => exact h.each hargs
  | unbound hkind hargs hvar hbounds => exact h.each hargs
  | visited hkind hargs hvar hbounds hmem => exact h.each hargs
  | expanded hkind hargs hvar hbounds hmem hexpanded =>
    dsimp only
    rw [h.each hexpanded, Finset.erase_insert hmem, h.each hargs]

theorem expandEach_mono (h : ∀ ty visiting result, expand ty visiting = some result → expand' ty visiting = some result)
    {types : List TypeName} {q : List TypeName × Finset String} (hq : expandEach expand types visiting = some q) :
    expandEach expand' types visiting = some q := by
  refine threadEach_mono (fun bound names p hp => ?_) hq
  obtain ⟨r, hr, rfl⟩ := Option.map_eq_some_iff.mp hp
  rw [h bound names r hr, Option.map_some]

theorem expandBody_mono
    (h : ∀ ty visiting result, expand ty visiting = some result → expand' ty visiting = some result)
    {result : Option TypeName × Finset String}
    (hresult : expandBody methodBounds classBounds expand ty visiting = some result) :
    expandBody methodBounds classBounds expand' ty visiting = some result := by
  refine expandPath_iff.mp ?_
  cases expandPath_iff.mpr hresult with
  | intersection hkind hbounds => exact .intersection hkind (expandEach_mono h hbounds)
  | other hkind hargs hvar => exact .other hkind (expandEach_mono h hargs) hvar
  | unbound hkind hargs hvar hbounds => exact .unbound hkind (expandEach_mono h hargs) hvar hbounds
  | visited hkind hargs hvar hbounds hmem => exact .visited hkind (expandEach_mono h hargs) hvar hbounds hmem
  | expanded hkind hargs hvar hbounds hmem hexpanded =>
    exact .expanded hkind (expandEach_mono h hargs) hvar hbounds hmem (expandEach_mono h hexpanded)

theorem Restores.each_ends (h : Restores expand) {types : List TypeName}
    (hends : ∀ a ∈ types, ∃ p, expand a visiting = some p) : ∃ q, expandEach expand types visiting = some q := by
  refine threadEach_ends (fun bound names p hp => ?_) fun a ha => ?_
  · obtain ⟨r, hr, rfl⟩ := Option.map_eq_some_iff.mp hp
    exact h bound names r hr
  · obtain ⟨p, hp⟩ := hends a ha
    exact ⟨_, by rw [hp, Option.map_some]⟩

/-- A call ends if those for the arguments do, and those for the bounds of a name that is not being expanded. -/
theorem Restores.body_ends (h : Restores expand) (hargs : ∀ a ∈ ty.args, ∃ p, expand a visiting = some p)
    (hbounds : ∀ bounds, boundsOf methodBounds classBounds ty.baseInternal = some bounds → ty.baseInternal ∉ visiting →
      ∀ b ∈ bounds.map JvmType.toTypeName, ∃ p, expand b (insert ty.baseInternal visiting) = some p) :
    ∃ result, expandBody methodBounds classBounds expand ty visiting = some result := by
  simp only [← expandPath_iff]
  obtain ⟨args, hargs⟩ := h.each_ends hargs
  have hvisiting := h.each hargs
  by_cases hkind : ty.isIntersection = true
  · exact ⟨_, .intersection hkind hargs⟩
  cases hvar : namesTypeVar ty with
  | false => exact ⟨_, .other hkind hargs hvar⟩
  | true =>
    cases hfound : boundsOf methodBounds classBounds ty.baseInternal with
    | none => exact ⟨_, .unbound hkind hargs hvar hfound⟩
    | some bounds =>
      by_cases hmem : ty.baseInternal ∈ visiting
      · exact ⟨_, .visited hkind hargs hvar hfound (by rwa [hvisiting])⟩
      · obtain ⟨expanded, hexpanded⟩ := h.each_ends (hbounds bounds hfound hmem)
        exact ⟨_, .expanded hkind hargs hvar hfound (by rwa [hvisiting]) (by rwa [hvisiting])⟩

end Paths

/-! ## The expansion ends -/

section Termination

variable {methodBounds classBounds : TypeParameterBounds}

theorem restores (fuel : ℕ) : Restores (expandTypeNameWithBoundsImpl methodBounds classBounds fuel) := by
  induction fuel with
  | zero => exact nofun
  | succ fuel ih => exact ih.body

theorem expand_succ {fuel : ℕ} {ty : TypeName} {visiting : Finset String} {result : Option TypeName × Finset String}
    (h : expandTypeNameWithBoundsImpl methodBounds classBounds fuel ty visiting = some result) :
    expandTypeNameWithBoundsImpl methodBounds classBounds (fuel + 1) ty visiting = some result := by
  induction fuel generalizing ty visiting result with
  | zero => cases h
  | succ fuel ih => exact expandBody_mono (fun _ _ _ => ih) h

theorem expand_mono {few many : ℕ} (hle : few ≤ many) {ty : TypeName} {visiting : Finset String}
    {result : Option TypeName × Finset String}
    (h : expandTypeNameWithBoundsImpl methodBounds classBounds few ty visiting = some result) :
    expandTypeNameWithBoundsImpl methodBounds classBounds many ty visiting = some result := by
  induction many, hle using Nat.le_induction with
  | base => exact h
  | succ many _ ih => exact expand_succ ih

/-- The call ends with enough fuel. -/
def Ends (methodBounds classBounds : TypeParameterBounds) (ty : TypeName) (visiting : Finset String) : Prop :=
  ∃ fuel result, expandTypeNameWithBoundsImpl methodBounds classBounds fuel ty visiting = some result

/-- One fuel for all types of a list. -/
theorem exists_fuel {types : List TypeName} {visiting : Finset String}
    (h : ∀ ty ∈ types, Ends methodBounds classBounds ty visiting) :
    ∃ fuel, ∀ ty ∈ types, ∃ result,
      expandTypeNameWithBoundsImpl methodBounds classBounds fuel ty visiting = some result := by
  induction types with
  | nil => exact ⟨0, nofun⟩
  | cons ty types ih =>
    obtain ⟨few, result, hresult⟩ := h ty List.mem_cons_self
    obtain ⟨many, hmany⟩ := ih fun a ha => h a (List.mem_cons_of_mem ty ha)
    refine ⟨max few many, List.forall_mem_cons.mpr ⟨⟨result, expand_mono (le_max_left _ _) hresult⟩, fun a ha => ?_⟩⟩
    obtain ⟨p, hp⟩ := hmany a ha
    exact ⟨p, expand_mono (le_max_right _ _) hp⟩

/-- The names with bounds that are not being expanded. -/
def unvisited (methodBounds classBounds : TypeParameterBounds) (visiting : Finset String) : Finset String :=
  (methodBounds.keys ++ classBounds.keys).toFinset \ visiting

theorem unvisited_insert {base : String} {bounds : List JvmType} {visiting : Finset String}
    (hbounds : boundsOf methodBounds classBounds base = some bounds) (hmem : base ∉ visiting) :
    (unvisited methodBounds classBounds (insert base visiting)).card <
      (unvisited methodBounds classBounds visiting).card := by
  have hkey : base ∈ (methodBounds.keys ++ classBounds.keys).toFinset := by
    rw [List.mem_toFinset, List.mem_append]
    rcases Option.or_eq_some_iff.mp hbounds with hmethod | ⟨-, hclass⟩
    · exact .inl (AList.mem_keys.mpr (AList.lookup_isSome.mp (by rw [hmethod]; rfl)))
    · exact .inr (AList.mem_keys.mpr (AList.lookup_isSome.mp (by rw [hclass]; rfl)))
  refine Finset.card_lt_card ⟨Finset.sdiff_subset_sdiff le_rfl (Finset.subset_insert base visiting), fun hsub => ?_⟩
  have hleft := hsub (Finset.mem_sdiff.mpr ⟨hkey, hmem⟩)
  exact (Finset.mem_sdiff.mp hleft).2 (Finset.mem_insert_self base visiting)

/-- One fuel for all bounds of a name that is not being expanded. -/
theorem exists_bounds_fuel {base : String} {visiting : Finset String}
    (h : ∀ bounds, boundsOf methodBounds classBounds base = some bounds → base ∉ visiting →
      ∀ b ∈ bounds.map JvmType.toTypeName, Ends methodBounds classBounds b (insert base visiting)) :
    ∃ fuel, ∀ bounds, boundsOf methodBounds classBounds base = some bounds → base ∉ visiting →
      ∀ b ∈ bounds.map JvmType.toTypeName, ∃ result,
        expandTypeNameWithBoundsImpl methodBounds classBounds fuel b (insert base visiting) = some result := by
  cases hbounds : boundsOf methodBounds classBounds base with
  | none => exact ⟨0, fun _ hfound => by cases hfound⟩
  | some bounds =>
    by_cases hmem : base ∈ visiting
    · exact ⟨0, fun _ _ hnot => absurd hmem hnot⟩
    · obtain ⟨fuel, hfuel⟩ := exists_fuel (h bounds hbounds hmem)
      refine ⟨fuel, fun other hother _ b hb => hfuel b ?_⟩
      rwa [Option.some.inj hother]

/-- On the names that are not being expanded, and for each set of them on the type: its arguments are expanded among the
same names, and the bounds of a type variable among fewer. -/
theorem ends (ty : TypeName) (visiting : Finset String) : Ends methodBounds classBounds ty visiting := by
  induction hcard : (unvisited methodBounds classBounds visiting).card using Nat.strong_induction_on
    generalizing ty visiting with
  | _ names ih =>
  induction ty using TypeName.inductOn with
  | mk base kind args dims ihArgs =>
    have hbounds : ∀ bounds, boundsOf methodBounds classBounds base = some bounds → base ∉ visiting →
        ∀ b ∈ bounds.map JvmType.toTypeName, Ends methodBounds classBounds b (insert base visiting) := by
      intro bounds hfound hmem b _
      have hfewer := unvisited_insert hfound hmem
      rw [hcard] at hfewer
      exact ih _ hfewer b (insert base visiting) rfl
    obtain ⟨few, hfew⟩ := exists_fuel ihArgs
    obtain ⟨many, hmany⟩ := exists_bounds_fuel hbounds
    refine ⟨max few many + 1, (restores (max few many)).body_ends (fun a ha => ?_) fun bounds hfound hmem b hb => ?_⟩
    · obtain ⟨p, hp⟩ := hfew a ha
      exact ⟨p, expand_mono (le_max_left _ _) hp⟩
    · obtain ⟨p, hp⟩ := hmany bounds hfound hmem b hb
      exact ⟨p, expand_mono (le_max_right _ _) hp⟩

end Termination

/-- For all bounds, all types and all names that are being expanded, a call ends, and the names are the same when it
ends; so does the expansion for the bounds of two signatures. -/
theorem expansion_ends :
    (∀ (methodBounds classBounds : TypeParameterBounds) (ty : TypeName) (visiting : Finset String),
      ∃ enough expanded, ∀ fuel, enough ≤ fuel →
        expandTypeNameWithBoundsImpl methodBounds classBounds fuel ty visiting = some (expanded, visiting)) ∧
    (∀ (methodBounds classBounds : TypeParameterBounds) (fuel : ℕ) (ty : TypeName) (visiting after : Finset String)
      (expanded : Option TypeName),
      expandTypeNameWithBoundsImpl methodBounds classBounds fuel ty visiting = some (expanded, after) →
        after = visiting) ∧
    ∀ (ty : TypeName) (methodSignature classSignature : Option String), ∃ enough expanded, ∀ fuel, enough ≤ fuel →
      expandTypeNameWithTypeParameterBounds fuel ty methodSignature classSignature = some expanded := by
  have hends : ∀ (methodBounds classBounds : TypeParameterBounds) (ty : TypeName) (visiting : Finset String),
      ∃ enough expanded, ∀ fuel, enough ≤ fuel →
        expandTypeNameWithBoundsImpl methodBounds classBounds fuel ty visiting = some (expanded, visiting) := by
    intro methodBounds classBounds ty visiting
    obtain ⟨enough, ⟨expanded, after⟩, hresult⟩ := @ends methodBounds classBounds ty visiting
    obtain rfl : after = visiting := restores enough ty visiting _ hresult
    exact ⟨enough, expanded, fun fuel hfuel => expand_mono hfuel hresult⟩
  refine ⟨hends, fun methodBounds classBounds fuel ty visiting after expanded h => restores fuel ty visiting _ h, ?_⟩
  intro ty methodSignature classSignature
  simp only [expandTypeNameWithTypeParameterBounds]
  split_ifs
  · exact ⟨0, none, fun _ _ => rfl⟩
  · obtain ⟨enough, expanded, hexpanded⟩ := hends ((methodSignature.map parseTypeParameterBounds).getD ∅)
      ((classSignature.map parseTypeParameterBounds).getD ∅) ty ∅
    exact ⟨enough, expanded, fun fuel hfuel => by rw [hexpanded fuel hfuel, Option.map_some]⟩

/-- `T extends Comparable<T>`: the inner `T` is left as it is. -/
example : expandTypeNameWithBoundsImpl (AList.insert "T" [.object "java/lang/Comparable" [.typeVar "T"]] ∅) ∅ 3
    (.typeVar "T") ∅ = some (some (.internalWithArgs "java/lang/Comparable" [.typeVar "T"]), ∅) := rfl

end JavaAnalyzer.Semantic
