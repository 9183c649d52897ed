import JavaAnalyzer.Language.TypeTranslations

/-! # Relaxed resolution of source types

`resolve_type_name_relaxed` of `language/java/type_ctx.rs` beside the strict resolution: what is not found
is left out, and the quality says so. A type argument that is left out has no place of its own any more. -/

namespace JavaAnalyzer.Language
set_option autoImplicit false
open JavaAnalyzer.Index Semantic Text ElementWise

inductive TypeResolveQuality where
  | exact
  | partly
deriving DecidableEq, Repr

/-- A type with the quality of its resolution. -/
abbrev RelaxedTypeResolution := TypeName × TypeResolveQuality

/-- The loop over bounds or arguments. -/
def resolveEach (resolve : List Char → Option RelaxedTypeResolution) (texts : List (List Char)) :
    List TypeName × TypeResolveQuality :=
  texts.foldl (fun acc text => match resolve text with
    | some (ty, quality) => (acc.1 ++ [ty], if quality = .partly then .partly else acc.2)
    | none => (acc.1, .partly)) ([], .exact)

namespace SourceTypeCtx

variable (ctx : SourceTypeCtx)

section Step

variable (ofType ofArg : List Char → Option RelaxedTypeResolution)

/-- The body of `resolve_type_name_relaxed_inner`, over what it calls. -/
def relaxedTypeStep (ty : List Char) : Option RelaxedTypeResolution :=
  if (bareType ty).isEmpty then none
  else
    let withDims := fun (t : TypeName) => if 0 < (typeCore ty).1 then t.withArrayDims (typeCore ty).1 else t
    let bounds := splitTopLevelJavaIntersectionBounds (typeCore ty).2
    if 1 < bounds.length then
      let resolved := resolveEach ofType bounds
      if resolved.1.isEmpty then none
      else some (withDims (TypeName.intersection resolved.1), resolved.2)
    else
      (splitJavaGenericBase (typeCore ty).2).bind fun split =>
        (ctx.resolveBaseInternal split.1).map fun baseInternal =>
          match split.2 with
          | some args =>
            let resolved := resolveEach ofArg (splitJavaGenericArgs args)
            (withDims (if resolved.1.isEmpty then TypeName.internal baseInternal
              else TypeName.internalWithArgs baseInternal resolved.1), resolved.2)
          | none => (withDims (TypeName.internal baseInternal), .exact)

/-- The body of `resolve_type_arg_type_relaxed`. -/
def relaxedArgStep (arg : List Char) : Option RelaxedTypeResolution :=
  let arg := trim arg
  let boundOf := fun bound => (ofArg bound).or (ofType bound)
  if arg.isEmpty then none
  else if arg = ['?'] then some (TypeName.wildcard, .exact)
  else if "? extends ".toList.isPrefixOf arg then
    (boundOf (arg.drop "? extends ".length)).map fun inner => (TypeName.wildcardExtends inner.1, inner.2)
  else if "? super ".toList.isPrefixOf arg then
    (boundOf (arg.drop "? super ".length)).map fun inner => (TypeName.wildcardSuper inner.1, inner.2)
  else
    (ofType arg).bind fun resolved => if resolved.1.isIntersection then none else some resolved

end Step

mutual

/-- `resolve_type_name_relaxed_inner`. The modifiers of the text before its dimensions are gone with those
of the text. -/
def resolveTypeNameRelaxedFuel : ℕ → List Char → Option RelaxedTypeResolution
  | 0, _ => none
  | fuel + 1, ty =>
    ctx.relaxedTypeStep (resolveTypeNameRelaxedFuel fuel) (resolveTypeArgTypeRelaxedFuel fuel) ty

def resolveTypeArgTypeRelaxedFuel : ℕ → List Char → Option RelaxedTypeResolution
  | 0, _ => none
  | fuel + 1, arg =>
    relaxedArgStep (resolveTypeNameRelaxedFuel fuel) (resolveTypeArgTypeRelaxedFuel fuel) arg

end

/-- `resolve_type_name_relaxed` -/
def resolveTypeNameRelaxed (ty : List Char) : Option RelaxedTypeResolution :=
  ctx.resolveTypeNameRelaxedFuel (2 * ty.length + 2) ty

def resolveTypeArgTypeRelaxed (arg : List Char) : Option RelaxedTypeResolution :=
  ctx.resolveTypeArgTypeRelaxedFuel (2 * arg.length + 3) arg

end SourceTypeCtx

/-! ## What can be resolved -/

namespace SourceTypeCtx

variable (ctx : SourceTypeCtx)

/-- How many class names of a type text are found: for an intersection those of its bounds. What the
arguments are does not matter. -/
def foundBoundsFuel : ℕ → List Char → ℕ
  | 0, _ => 0
  | fuel + 1, ty =>
    if (bareType ty).isEmpty then 0
    else if 1 < (splitTopLevelJavaIntersectionBounds (typeCore ty).2).length then
      ((splitTopLevelJavaIntersectionBounds (typeCore ty).2).map (foundBoundsFuel fuel)).sum
    else match splitJavaGenericBase (typeCore ty).2 with
      | some split => if (ctx.resolveBaseInternal split.1).isSome then 1 else 0
      | none => 0

/-- An argument that is resolved: a wildcard with a bound that is found, or a type with one name that is. -/
def argumentFoundFuel : ℕ → List Char → Bool
  | 0, _ => false
  | fuel + 1, arg =>
    if (trim arg).isEmpty then false
    else if trim arg = ['?'] then true
    else match wildcardBound (trim arg) with
      | some bound => argumentFoundFuel fuel bound || 0 < ctx.foundBoundsFuel fuel bound
      | none => ctx.foundBoundsFuel fuel (trim arg) = 1

def foundBounds (ty : List Char) : ℕ :=
  ctx.foundBoundsFuel (2 * ty.length + 2) ty

def argumentFound (arg : List Char) : Bool :=
  ctx.argumentFoundFuel (2 * arg.length + 3) arg

/-- The texts of the arguments of a class type. -/
def sourceArguments (ty : List Char) : List (List Char) :=
  match splitJavaGenericBase (typeCore ty).2 with
  | some split => argTexts split.2
  | none => []

/-- Each argument of the type is what the argument in that place of the text is resolved to. -/
def ArgumentsKeepPlaces (ty : List Char) : Prop :=
  ∀ t quality, ctx.resolveTypeNameRelaxed ty = some (t, quality) → ∀ (i : ℕ) (a : TypeName),
    t.args[i]? = some a →
    ((sourceArguments ty)[i]?).bind (fun arg => (ctx.resolveTypeArgTypeRelaxed arg).map Prod.fst) = some a

/-- The name is not found, or no argument that is found comes after one that is not. -/
def ArgumentsFoundFirst (ty : List Char) : Prop :=
  0 < ctx.foundBounds ty →
    (sourceArguments ty).Pairwise fun arg later => ctx.argumentFound later → ctx.argumentFound arg

/-- A property of the class types in a text: of the bounds of an intersection, and of theirs. -/
inductive AtClassTexts (P : List Char → Prop) : List Char → Prop where
  | bounds {ty : List Char} (hmany : 1 < (splitTopLevelJavaIntersectionBounds (typeCore ty).2).length)
      (h : ∀ bound ∈ splitTopLevelJavaIntersectionBounds (typeCore ty).2, AtClassTexts P bound) :
      AtClassTexts P ty
  | single {ty : List Char} (hone : ¬ 1 < (splitTopLevelJavaIntersectionBounds (typeCore ty).2).length)
      (h : P ty) : AtClassTexts P ty

end SourceTypeCtx

/-! ## The loop -/

theorem resolveEach_eq (resolve : List Char → Option RelaxedTypeResolution) (texts : List (List Char)) :
    resolveEach resolve texts = (texts.filterMap fun text => (resolve text).map Prod.fst,
      if texts.all (fun text => (resolve text).any fun r => r.2 = .exact) then .exact else .partly) := by
  have hstep : ∀ (texts : List (List Char)) (acc : List TypeName × TypeResolveQuality),
      texts.foldl (fun acc text => match resolve text with
        | some (ty, quality) => (acc.1 ++ [ty], if quality = .partly then .partly else acc.2)
        | none => (acc.1, .partly)) acc =
      (acc.1 ++ texts.filterMap fun text => (resolve text).map Prod.fst,
        if texts.all (fun text => (resolve text).any fun r => r.2 = .exact) then acc.2 else .partly) := by
    intro texts
    induction texts with
    | nil => intro acc; simp
    | cons text texts ih =>
      intro acc
      rw [List.foldl_cons, ih]
      cases htext : resolve text with
      | none => simp [htext]
      | some r =>
        obtain ⟨ty, quality⟩ := r
        cases quality with
        | exact => simp [htext]
        | partly => simp [htext]
  rw [resolveEach, hstep, List.nil_append]

theorem resolveEach_of_exact {resolve : List Char → Option RelaxedTypeResolution}
    {texts : List (List Char)} {types : List TypeName}
    (h : List.Forall₂ (fun text t => resolve text = some (t, .exact)) texts types) :
    resolveEach resolve texts = (types, .exact) := by
  rw [resolveEach_eq]
  induction h with
  | nil => rfl
  | cons hfirst _ ih =>
    obtain ⟨htypes, hquality⟩ := Prod.mk.inj ih
    rw [List.filterMap_cons_some (b := _) (by rw [hfirst]; rfl), htypes, List.all_cons, hfirst]
    simpa using hquality

theorem resolveEach_congr {resolve resolve' : List Char → Option RelaxedTypeResolution}
    {texts : List (List Char)} (h : ∀ text ∈ texts, resolve text = resolve' text) :
    resolveEach resolve texts = resolveEach resolve' texts := by
  refine List.foldl_ext _ _ _ fun acc text htext => ?_
  rw [h text htext]

theorem bound_length_lt {ty bound : List Char}
    (hmany : 1 < (splitTopLevelJavaIntersectionBounds (typeCore ty).2).length)
    (hbound : bound ∈ splitTopLevelJavaIntersectionBounds (typeCore ty).2) :
    bound.length < ty.length := by
  obtain ⟨piece, hpiece, rfl⟩ := List.mem_map.mp (List.mem_of_mem_filter hbound)
  have hlen := length_add_of_mem_splitTopLevel hpiece
  have hpieces := List.length_filter_le (fun bound => !bound.isEmpty)
    ((splitTopLevel '&' 0 (typeCore ty).2).map trim)
  rw [List.length_map] at hpieces
  have hmany := hmany.trans_le hpieces
  have htrim := trim_length_le piece
  have hcore := typeCore_length_le ty
  omega

namespace SourceTypeCtx

variable (ctx : SourceTypeCtx)

/-! ## The fuel -/

section

variable {ofType ofArg ofType' ofArg' : List Char → Option RelaxedTypeResolution}

/-- The body looks at shorter texts only. -/
theorem relaxedTypeStep_congr {ty : List Char} (htype : ∀ b, b.length < ty.length → ofType b = ofType' b)
    (harg : ∀ arg, arg.length < ty.length → ofArg arg = ofArg' arg) :
    ctx.relaxedTypeStep ofType ofArg ty = ctx.relaxedTypeStep ofType' ofArg' ty := by
  rw [relaxedTypeStep, relaxedTypeStep]
  by_cases hmany : 1 < (splitTopLevelJavaIntersectionBounds (typeCore ty).2).length
  · have hbounds : resolveEach ofType (splitTopLevelJavaIntersectionBounds (typeCore ty).2) =
        resolveEach ofType' (splitTopLevelJavaIntersectionBounds (typeCore ty).2) :=
      resolveEach_congr fun bound hbound => htype bound (bound_length_lt hmany hbound)
    simp only [if_pos hmany, hbounds]
  · simp only [if_neg hmany]
    cases hsplit : splitJavaGenericBase (typeCore ty).2 with
    | none => simp only [Option.bind_none]
    | some split =>
      obtain ⟨name, _ | args⟩ := split
      · simp only [Option.bind_some]
      · have hargs : resolveEach ofArg (splitJavaGenericArgs args) =
            resolveEach ofArg' (splitJavaGenericArgs args) :=
          resolveEach_congr fun arg hmem =>
            harg arg ((argTexts_length_lt hsplit hmem).trans_le (typeCore_length_le ty))
        simp only [Option.bind_some, hargs]

theorem relaxedArgStep_congr {arg : List Char} (htype : ∀ b, b.length ≤ arg.length → ofType b = ofType' b)
    (harg : ∀ b, b.length < arg.length → ofArg b = ofArg' b) :
    relaxedArgStep ofType ofArg arg = relaxedArgStep ofType' ofArg' arg := by
  have htrim := trim_length_le arg
  have hbound : ∀ k, 0 < k → k ≤ (trim arg).length →
      (ofArg ((trim arg).drop k)).or (ofType ((trim arg).drop k)) =
        (ofArg' ((trim arg).drop k)).or (ofType' ((trim arg).drop k)) := by
    intro k hk hle
    have hlen := List.length_drop (i := k) (l := trim arg)
    rw [harg _ (by omega), htype _ (by omega)]
  rw [relaxedArgStep, relaxedArgStep]
  by_cases hextends : "? extends ".toList.isPrefixOf (trim arg)
  · have hle := (List.isPrefixOf_iff_prefix.mp hextends).length_le
    simp only [hextends, if_true, hbound "? extends ".length (by decide) hle]
  by_cases hsuper : "? super ".toList.isPrefixOf (trim arg)
  · have hle := (List.isPrefixOf_iff_prefix.mp hsuper).length_le
    simp only [hextends, hsuper, Bool.false_eq_true, if_false, if_true,
      hbound "? super ".length (by decide) hle]
  · simp only [hextends, hsuper, Bool.false_eq_true, if_false, htype (trim arg) htrim]

end

/-- What is resolved does not depend on the fuel, if there is enough of it for the text. -/
theorem relaxedFuel_stable (n : ℕ) :
    (∀ (m : ℕ) (ty : List Char), 2 * ty.length < n → 2 * ty.length < m →
        ctx.resolveTypeNameRelaxedFuel n ty = ctx.resolveTypeNameRelaxedFuel m ty) ∧
      ∀ (m : ℕ) (arg : List Char), 2 * arg.length + 1 < n → 2 * arg.length + 1 < m →
        ctx.resolveTypeArgTypeRelaxedFuel n arg = ctx.resolveTypeArgTypeRelaxedFuel m arg := by
  induction n with
  | zero => exact ⟨fun m ty h => absurd h (Nat.not_lt_zero _), fun m arg h => absurd h (Nat.not_lt_zero _)⟩
  | succ n ih =>
    obtain ⟨ihType, ihArg⟩ := ih
    constructor
    · intro m ty hn hm
      obtain ⟨m, rfl⟩ : ∃ k, m = k + 1 := ⟨m - 1, by omega⟩
      rw [resolveTypeNameRelaxedFuel, resolveTypeNameRelaxedFuel]
      exact ctx.relaxedTypeStep_congr (fun b hb => ihType m b (by omega) (by omega))
        fun arg harg => ihArg m arg (by omega) (by omega)
    · intro m arg hn hm
      obtain ⟨m, rfl⟩ : ∃ k, m = k + 1 := ⟨m - 1, by omega⟩
      rw [resolveTypeArgTypeRelaxedFuel, resolveTypeArgTypeRelaxedFuel]
      exact relaxedArgStep_congr (fun b hb => ihType m b (by omega) (by omega))
        fun b hb => ihArg m b (by omega) (by omega)

/-! ## What is resolved strictly -/

theorem relaxedTypeStep_of_strict {fuel : ℕ} {ty : List Char} {t : TypeName}
    {ofType ofArg : List Char → Option RelaxedTypeResolution}
    (htype : ∀ b u, ctx.resolveTypeNameStrictFuel fuel b = some u → ofType b = some (u, .exact))
    (harg : ∀ arg u, ctx.resolveTypeArgTypeFuel fuel arg = some u → ofArg arg = some (u, .exact))
    (h : ctx.resolveTypeNameStrictFuel (fuel + 1) ty = some t) :
    ctx.relaxedTypeStep ofType ofArg ty = some (t, .exact) := by
  rw [resolveTypeNameStrictFuel_eq] at h
  rw [relaxedTypeStep]
  by_cases hempty : (bareType ty).isEmpty
  · simp only [hempty, if_true, reduceCtorEq] at h
  rw [if_neg hempty] at h ⊢
  by_cases hmany : 1 < (splitTopLevelJavaIntersectionBounds (typeCore ty).2).length
  · rw [if_pos hmany] at h
    obtain ⟨types, htypes, rfl⟩ := Option.map_eq_some_iff.mp h
    have hforall := mapM_eq_some_iff.mp htypes
    have hsome : types.isEmpty = false := by
      have hlen := hforall.length_eq
      cases types with
      | nil => simp only [List.length_nil] at hlen; omega
      | cons u types => rfl
    simp only [if_pos hmany, resolveEach_of_exact (hforall.imp htype), hsome, Bool.false_eq_true,
      if_false]
  · rw [if_neg hmany] at h
    obtain ⟨⟨name, args⟩, hsplit, h⟩ := Option.bind_eq_some_iff.mp h
    obtain ⟨internal, hinternal, h⟩ := Option.bind_eq_some_iff.mp h
    obtain ⟨plain, hplain, rfl⟩ := Option.map_eq_some_iff.mp h
    cases args with
    | none =>
      obtain rfl := Option.some.inj hplain
      simp only [if_neg hmany, hsplit, Option.bind_some, hinternal, Option.map_some]
    | some args =>
      obtain ⟨types, htypes, rfl⟩ := Option.map_eq_some_iff.mp hplain
      have hargs := resolveEach_of_exact ((mapM_eq_some_iff.mp htypes).imp harg)
      simp only [if_neg hmany, hsplit, Option.bind_some, hinternal, Option.map_some, hargs]

theorem relaxedArgStep_of_strict {fuel : ℕ} {arg : List Char} {t : TypeName}
    {ofType ofArg : List Char → Option RelaxedTypeResolution}
    (htype : ∀ b u, ctx.resolveTypeNameStrictFuel fuel b = some u → ofType b = some (u, .exact))
    (harg : ∀ arg u, ctx.resolveTypeArgTypeFuel fuel arg = some u → ofArg arg = some (u, .exact))
    (h : ctx.resolveTypeArgTypeFuel (fuel + 1) arg = some t) :
    relaxedArgStep ofType ofArg arg = some (t, .exact) := by
  rw [resolveTypeArgTypeFuel] at h
  rw [relaxedArgStep]
  split_ifs at h ⊢ with hempty hplain hextends hsuper
  · rw [Option.some.inj h]
  · obtain ⟨u, hu, rfl⟩ := Option.map_eq_some_iff.mp h
    simp only [harg _ u hu, Option.some_or, Option.map_some]
  · obtain ⟨u, hu, rfl⟩ := Option.map_eq_some_iff.mp h
    simp only [harg _ u hu, Option.some_or, Option.map_some]
  · obtain ⟨u, hu, h⟩ := Option.bind_eq_some_iff.mp h
    split_ifs at h with hshape hprimitive hslash
    obtain rfl := Option.some.inj h
    have hintersection : u.isIntersection = false := by
      rw [Bool.not_eq_true, Bool.or_eq_false_iff] at hshape
      exact hshape.2
    simp only [htype _ u hu, Option.bind_some, hintersection, Bool.false_eq_true, if_false]

theorem relaxedFuel_of_strict (fuel : ℕ) :
    (∀ ty t, ctx.resolveTypeNameStrictFuel fuel ty = some t →
        ctx.resolveTypeNameRelaxedFuel fuel ty = some (t, .exact)) ∧
      ∀ arg t, ctx.resolveTypeArgTypeFuel fuel arg = some t →
        ctx.resolveTypeArgTypeRelaxedFuel fuel arg = some (t, .exact) := by
  induction fuel with
  | zero => exact ⟨fun ty t h => by simp [resolveTypeNameStrictFuel] at h,
      fun arg t h => by simp [resolveTypeArgTypeFuel] at h⟩
  | succ fuel ih =>
    obtain ⟨htype, harg⟩ := ih
    constructor
    · intro ty t h
      rw [resolveTypeNameRelaxedFuel]
      exact ctx.relaxedTypeStep_of_strict htype harg h
    · intro arg t h
      rw [resolveTypeArgTypeRelaxedFuel]
      exact ctx.relaxedArgStep_of_strict htype harg h

theorem resolveTypeNameRelaxed_of_strict {ty : List Char} {t : TypeName}
    (h : ctx.resolveTypeNameStrict ty = some t) : ctx.resolveTypeNameRelaxed ty = some (t, .exact) :=
  (ctx.relaxedFuel_of_strict _).1 ty t h

/-! ## Which names are found -/

/-- A type with as many bounds as names were found. -/
inductive Counts : Option RelaxedTypeResolution → ℕ → Prop where
  | none : Counts none 0
  | some {r : RelaxedTypeResolution} {n : ℕ} (hlen : (boundsOf r.1).length = n) (hpos : 0 < n)
      (hinter : r.1.isIntersection ↔ 1 < n) : Counts (some r) n

theorem Counts.isSome {resolved : Option RelaxedTypeResolution} {n : ℕ} (h : Counts resolved n) :
    resolved.isSome = decide (0 < n) := by
  cases h with
  | none => rfl
  | some _ hpos _ => rw [decide_eq_true hpos]; rfl

theorem boundsOf_withDims (t : TypeName) (dims : ℕ) :
    (boundsOf (if 0 < dims then t.withArrayDims dims else t)).length = (boundsOf t).length ∧
      (if 0 < dims then t.withArrayDims dims else t).isIntersection = t.isIntersection := by
  split
  · refine ⟨?_, rfl⟩
    rw [boundsOf, boundsOf]
    change (if t.isIntersection then t.args else [t.withArrayDims dims]).length = _
    cases t.isIntersection with
    | false => rfl
    | true => rfl
  · exact ⟨rfl, rfl⟩

theorem counts_withDims {t : TypeName} {n : ℕ} (hlen : (boundsOf t).length = n) (hpos : 0 < n)
    (hinter : t.isIntersection ↔ 1 < n) (dims : ℕ) (quality : TypeResolveQuality) :
    Counts (some (if 0 < dims then t.withArrayDims dims else t, quality)) n := by
  obtain ⟨hdims, hkind⟩ := boundsOf_withDims t dims
  exact .some (hdims.trans hlen) hpos (by rw [hkind]; exact hinter)

/-- The bounds of an intersection of types that are counted right. -/
theorem counts_intersection {types : List TypeName}
    (h : ∀ t ∈ types, 0 < (boundsOf t).length ∧ (t.isIntersection ↔ 1 < (boundsOf t).length))
    (hne : types ≠ []) :
    (boundsOf (TypeName.intersection types)).length = (types.flatMap boundsOf).length ∧
      0 < (types.flatMap boundsOf).length ∧
      ((TypeName.intersection types).isIntersection ↔ 1 < (types.flatMap boundsOf).length) := by
  by_cases htwo : 2 ≤ (types.flatMap boundsOf).length
  · rw [intersection_eq htwo]
    exact ⟨rfl, by omega, fun _ => htwo, fun _ => rfl⟩
  · -- One bound is left, so there is one type, and it is no intersection.
    obtain ⟨t, others, rfl⟩ := List.exists_cons_of_ne_nil hne
    obtain ⟨hpos, hinter⟩ := h t List.mem_cons_self
    rw [List.flatMap_cons, List.length_append] at htwo
    have hone : (boundsOf t).length = 1 := by omega
    have hothers : others = [] := by
      by_contra hothers
      obtain ⟨u, rest, rfl⟩ := List.exists_cons_of_ne_nil hothers
      have hu := (h u (List.mem_cons_of_mem _ List.mem_cons_self)).1
      rw [List.flatMap_cons, List.length_append] at htwo
      omega
    have hplain : t.isIntersection = false := by
      rw [← Bool.not_eq_true, hinter, hone]
      exact lt_irrefl 1
    have hbounds : boundsOf t = [t] := by
      rw [boundsOf, hplain]
      rfl
    have hsingle : TypeName.intersection [t] = t := by
      have hflat : ([t].flatMap fun bound => if bound.isIntersection then bound.args else [bound]) =
          [t] := by
        rw [List.flatMap_singleton, hplain]
        rfl
      simp only [TypeName.intersection, hflat]
    rw [hothers, hsingle, List.flatMap_singleton, hbounds]
    exact ⟨rfl, Nat.one_pos, by rw [hplain]; simp⟩

theorem sum_counts {ofType : List Char → Option RelaxedTypeResolution} {count : List Char → ℕ}
    (h : ∀ b, Counts (ofType b) (count b)) (bounds : List (List Char)) :
    (bounds.map count).sum =
      ((bounds.filterMap fun b => (ofType b).map Prod.fst).flatMap boundsOf).length := by
  induction bounds with
  | nil => rfl
  | cons b bounds ih =>
    have hb := h b
    rw [List.map_cons, List.sum_cons, ih]
    generalize count b = n, hresolved : ofType b = resolved at hb
    cases hb with
    | none => rw [List.filterMap_cons_none (by rw [hresolved]; rfl), Nat.zero_add]
    | @some r _ hlen _ _ =>
      rw [List.filterMap_cons_some (b := r.1) (by rw [hresolved]; rfl), List.flatMap_cons,
        List.length_append, hlen]

theorem counts_of_mem {ofType : List Char → Option RelaxedTypeResolution} {count : List Char → ℕ}
    (h : ∀ b, Counts (ofType b) (count b)) {bounds : List (List Char)} {t : TypeName}
    (ht : t ∈ bounds.filterMap fun b => (ofType b).map Prod.fst) :
    0 < (boundsOf t).length ∧ (t.isIntersection ↔ 1 < (boundsOf t).length) := by
  obtain ⟨b, -, hb⟩ := List.mem_filterMap.mp ht
  obtain ⟨r, hr, rfl⟩ := Option.map_eq_some_iff.mp hb
  have hcounts := h b
  rw [hr] at hcounts
  cases hcounts with
  | some hlen hpos hinter =>
    rw [hlen]
    exact ⟨hpos, hinter⟩

theorem relaxedTypeStep_counts {fuel : ℕ} {ofType ofArg : List Char → Option RelaxedTypeResolution}
    (h : ∀ b, Counts (ofType b) (ctx.foundBoundsFuel fuel b)) (ty : List Char) :
    Counts (ctx.relaxedTypeStep ofType ofArg ty) (ctx.foundBoundsFuel (fuel + 1) ty) := by
  rw [relaxedTypeStep, foundBoundsFuel]
  by_cases hempty : (bareType ty).isEmpty
  · rw [if_pos hempty, if_pos hempty]
    exact .none
  rw [if_neg hempty, if_neg hempty]
  by_cases hmany : 1 < (splitTopLevelJavaIntersectionBounds (typeCore ty).2).length
  · have hmem : ∀ t ∈ (splitTopLevelJavaIntersectionBounds (typeCore ty).2).filterMap
        (fun b => (ofType b).map Prod.fst),
        0 < (boundsOf t).length ∧ (t.isIntersection ↔ 1 < (boundsOf t).length) :=
      fun t => counts_of_mem h
    simp only [if_pos hmany, resolveEach_eq, sum_counts h]
    generalize (splitTopLevelJavaIntersectionBounds (typeCore ty).2).filterMap
      (fun b => (ofType b).map Prod.fst) = types at hmem
    by_cases hnil : types = []
    · subst hnil
      exact .none
    · obtain ⟨hlen, hpos, hinter⟩ := counts_intersection hmem hnil
      rw [if_neg (mt List.isEmpty_iff.mp hnil)]
      exact counts_withDims hlen hpos hinter _ _
  · simp only [if_neg hmany]
    cases splitJavaGenericBase (typeCore ty).2 with
    | none => exact .none
    | some split =>
      obtain ⟨name, args⟩ := split
      simp only [Option.bind_some]
      cases ctx.resolveBaseInternal name with
      | none => exact .none
      | some internal =>
        have hclass : ∀ (t : TypeName) (quality : TypeResolveQuality), t.kind = .internal →
            Counts (some (if 0 < (typeCore ty).1 then t.withArrayDims (typeCore ty).1 else t, quality)) 1 := by
          intro t quality hkind
          have hplain : t.isIntersection = false := by rw [TypeName.isIntersection, hkind]; rfl
          have hbounds : (boundsOf t).length = 1 := by rw [boundsOf, hplain]; rfl
          exact counts_withDims hbounds Nat.one_pos (by rw [hplain]; simp) _ _
        cases args with
        | none => exact hclass _ _ rfl
        | some args =>
          simp only [Option.map_some]
          refine hclass _ _ ?_
          split
          · rfl
          · rfl

theorem relaxedFuel_counts (fuel : ℕ) (ty : List Char) :
    Counts (ctx.resolveTypeNameRelaxedFuel fuel ty) (ctx.foundBoundsFuel fuel ty) := by
  induction fuel generalizing ty with
  | zero => exact .none
  | succ fuel ih =>
    rw [resolveTypeNameRelaxedFuel]
    exact ctx.relaxedTypeStep_counts ih ty

theorem relaxedArgFuel_isSome (fuel : ℕ) (arg : List Char) :
    (ctx.resolveTypeArgTypeRelaxedFuel fuel arg).isSome = ctx.argumentFoundFuel fuel arg := by
  induction fuel generalizing arg with
  | zero => rfl
  | succ fuel ih =>
    have hbound : ∀ bound, ((ctx.resolveTypeArgTypeRelaxedFuel fuel bound).or
        (ctx.resolveTypeNameRelaxedFuel fuel bound)).isSome =
        (ctx.argumentFoundFuel fuel bound || decide (0 < ctx.foundBoundsFuel fuel bound)) := fun bound => by
      rw [Option.isSome_or, ih, (ctx.relaxedFuel_counts fuel bound).isSome]
    rw [resolveTypeArgTypeRelaxedFuel, relaxedArgStep, argumentFoundFuel, wildcardBound]
    split_ifs with hempty hplain hextends hsuper
    · rfl
    · rfl
    · simp only [Option.isSome_map, hbound]
    · simp only [Option.isSome_map, hbound]
    · have hcounts := ctx.relaxedFuel_counts fuel (trim arg)
      generalize ctx.resolveTypeNameRelaxedFuel fuel (trim arg) = resolved,
        ctx.foundBoundsFuel fuel (trim arg) = n at hcounts ⊢
      cases hcounts with
      | none => rfl
      | some _ hpos hinter =>
        rw [Option.bind_some]
        split
        · rename_i hkind
          have hmany := hinter.mp hkind
          rw [decide_eq_false (by omega)]
          rfl
        · rename_i hkind
          have hone := mt hinter.mpr hkind
          rw [decide_eq_true (by omega)]
          rfl

/-! ## Places of arguments -/

/-- The arguments of a class type are those of the text that are found. -/
theorem relaxed_args {ty : List Char} {t : TypeName} {quality : TypeResolveQuality}
    (hone : ¬ 1 < (splitTopLevelJavaIntersectionBounds (typeCore ty).2).length)
    (h : ctx.resolveTypeNameRelaxed ty = some (t, quality)) :
    t.args = (sourceArguments ty).filterMap fun arg =>
      (ctx.resolveTypeArgTypeRelaxed arg).map Prod.fst := by
  rw [resolveTypeNameRelaxed, resolveTypeNameRelaxedFuel, relaxedTypeStep] at h
  split at h
  · cases h
  simp only [if_neg hone] at h
  obtain ⟨⟨name, args⟩, hsplit, h⟩ := Option.bind_eq_some_iff.mp h
  obtain ⟨internal, -, h⟩ := Option.map_eq_some_iff.mp h
  have hdims : ∀ u : TypeName,
      (if 0 < (typeCore ty).1 then u.withArrayDims (typeCore ty).1 else u).args = u.args := fun u => by
    split <;> rfl
  rw [sourceArguments, hsplit]
  cases args with
  | none =>
    obtain ⟨rfl, -⟩ := Prod.mk.inj h
    exact hdims _
  | some args =>
    obtain ⟨rfl, -⟩ := Prod.mk.inj h
    have hfuel : resolveEach (ctx.resolveTypeArgTypeRelaxedFuel (2 * ty.length + 1)) (splitJavaGenericArgs args) =
        resolveEach ctx.resolveTypeArgTypeRelaxed (splitJavaGenericArgs args) := by
      refine resolveEach_congr fun arg harg => ?_
      have hlen := (argTexts_length_lt hsplit harg).trans_le (typeCore_length_le ty)
      exact (ctx.relaxedFuel_stable _).2 _ arg (by omega) (by omega)
    rw [hdims, hfuel, resolveEach_eq]
    change (if ((splitJavaGenericArgs args).filterMap _).isEmpty then TypeName.internal internal
      else TypeName.internalWithArgs internal _).args = (splitJavaGenericArgs args).filterMap _
    split
    · rename_i hnil
      exact (List.isEmpty_iff.mp hnil).symm
    · rfl

theorem argumentsKeepPlaces_iff {ty : List Char}
    (hone : ¬ 1 < (splitTopLevelJavaIntersectionBounds (typeCore ty).2).length) :
    ctx.ArgumentsKeepPlaces ty ↔ ctx.ArgumentsFoundFirst ty := by
  have hplaces := filterMap_places_iff (l := sourceArguments ty)
    (f := fun arg => (ctx.resolveTypeArgTypeRelaxed arg).map Prod.fst)
  have hfound : ∀ arg, ((ctx.resolveTypeArgTypeRelaxed arg).map Prod.fst).isSome = ctx.argumentFound arg :=
    fun arg => by rw [Option.isSome_map]; exact ctx.relaxedArgFuel_isSome _ arg
  simp only [hfound] at hplaces
  have hbase := (ctx.relaxedFuel_counts (2 * ty.length + 2) ty).isSome
  constructor
  · intro h hpos
    rw [foundBounds] at hpos
    rw [decide_eq_true hpos] at hbase
    obtain ⟨⟨t, quality⟩, hresolved⟩ := Option.isSome_iff_exists.mp hbase
    refine hplaces.mp fun i a ha => h t quality hresolved i a ?_
    rw [ctx.relaxed_args hone hresolved]
    exact ha
  · intro h t quality hresolved i a ha
    have hpos : 0 < ctx.foundBounds ty := by
      rw [show ctx.resolveTypeNameRelaxedFuel (2 * ty.length + 2) ty = some (t, quality) from hresolved] at hbase
      exact of_decide_eq_true hbase.symm
    rw [ctx.relaxed_args hone hresolved] at ha
    exact hplaces.mpr (h hpos) i a ha

theorem AtClassTexts.imp {P Q : List Char → Prop} {ty : List Char} (h : AtClassTexts P ty)
    (hPQ : ∀ {ty}, ¬ 1 < (splitTopLevelJavaIntersectionBounds (typeCore ty).2).length → P ty → Q ty) :
    AtClassTexts Q ty := by
  induction h with
  | bounds hmany _ ih => exact .bounds hmany ih
  | single hone hP => exact .single hone (hPQ hone hP)

/-- The relaxed resolution has every type that the strict one has. Its arguments keep their places exactly
where those that are found come first. -/
theorem relaxed_refines_strict_iff (ctx : SourceTypeCtx) (ty : List Char) :
    ((∀ t, ctx.resolveTypeNameStrict ty = some t → ctx.resolveTypeNameRelaxed ty = some (t, .exact)) ∧
        AtClassTexts ctx.ArgumentsKeepPlaces ty) ↔
      AtClassTexts ctx.ArgumentsFoundFirst ty := by
  constructor
  · rintro ⟨-, h⟩
    exact h.imp fun hone => (ctx.argumentsKeepPlaces_iff hone).mp
  · intro h
    exact ⟨fun t => ctx.resolveTypeNameRelaxed_of_strict,
      h.imp fun hone => (ctx.argumentsKeepPlaces_iff hone).mpr⟩

/-- A file with the classes `Pair` and `Text` in its index. -/
def pairCtx : SourceTypeCtx where
  package := none
  imports := []
  view := .new [BucketIndex.new.addClasses
    [.bare none "Pair" "Pair" none .unknown, .bare none "Text" "Text" none .unknown]]

/-- The second argument takes the place of the first, which is not found. -/
theorem second_argument_shifts :
    pairCtx.resolveTypeNameRelaxed "Pair<Missing, Text>".toList =
        some (⟨"Pair", .internal, [⟨"Text", .internal, [], 0⟩], 0⟩, .partly) ∧
      ¬ pairCtx.ArgumentsKeepPlaces "Pair<Missing, Text>".toList := by
  have hresolved : pairCtx.resolveTypeNameRelaxed "Pair<Missing, Text>".toList =
      some (⟨"Pair", .internal, [⟨"Text", .internal, [], 0⟩], 0⟩, .partly) := by rfl
  refine ⟨hresolved, fun h => ?_⟩
  have hfirst := h _ _ hresolved 0 _ rfl
  have hmissing : (sourceArguments "Pair<Missing, Text>".toList)[0]? = some "Missing".toList := by rfl
  have hnone : pairCtx.resolveTypeArgTypeRelaxed "Missing".toList = none := by rfl
  rw [hmissing, Option.bind_some, hnone] at hfirst
  cases hfirst

end SourceTypeCtx

end JavaAnalyzer.Language
