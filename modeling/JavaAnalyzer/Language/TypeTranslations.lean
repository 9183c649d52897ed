import JavaAnalyzer.Index.SimpleNameSearch
import JavaAnalyzer.Language.StrictTypes
import JavaAnalyzer.Language.TypeCutting
import JavaAnalyzer.Library.ElementWise

/-! # The three translations of source types

A source type text has a descriptor, a generic signature and, where every name is found, a type. The three
are computed on their own; they agree where the lookup of simple names finds what the lookup of paths does. -/

namespace JavaAnalyzer.Semantic
set_option autoImplicit false

/-- The descriptor of the erasure: of the primary bound, with the dimensions of both. -/
def TypeName.erasedDescriptor : TypeName → List Char
  | ⟨_, .intersection, primary :: _, dims⟩ => List.replicate dims '[' ++ primary.erasedDescriptor
  | ⟨base, .primitive, _, dims⟩ => List.replicate dims '[' ++ primitiveSignature base
  | ⟨base, _, _, dims⟩ => List.replicate dims '[' ++ 'L' :: (base.toList ++ [';'])

end JavaAnalyzer.Semantic

namespace JavaAnalyzer.Language
set_option autoImplicit false
open JavaAnalyzer.Index IndexView Semantic Text TextLines ElementWise

/-! ## Source type texts -/

def isIdentifierChar (c : Char) : Bool :=
  c.isAlphanum || c = '_' || c = '$' || (128 ≤ c.toNat && !isWhitespace c)

/-- Identifiers between dots. -/
def isQualifiedName (name : List Char) : Bool :=
  (name.splitOn '.').all fun segment => !segment.isEmpty && segment.all isIdentifierChar

/-- The text of a type without its modifiers. -/
def bareType (ty : List Char) : List Char :=
  stripLeadingJavaTypeModifiers (trim ty)

/-- The array dimensions of a type text, and the text in front of them. -/
def typeCore (ty : List Char) : ℕ × List Char :=
  stripDimensions (bareType ty)

/-- The texts of the type arguments. -/
def argTexts (args : Option (List Char)) : List (List Char) :=
  (args.map splitJavaGenericArgs).getD []

/-- The bound behind the words of a wildcard. -/
def wildcardBound (arg : List Char) : Option (List Char) :=
  if "? extends ".toList.isPrefixOf arg then some (arg.drop "? extends ".length)
  else if "? super ".toList.isPrefixOf arg then some (arg.drop "? super ".length)
  else none

mutual

/-- A text that names classes, arrays of them and intersections: no wildcard and no variable arity. -/
def isSourceTypeFuel : ℕ → List Char → Bool
  | 0, _ => false
  | fuel + 1, ty =>
    (bareType ty).head? ≠ some '?' && (stripSuffix ['.', '.', '.'] (bareType ty)).isNone &&
    (splitTopLevel '&' 0 (typeCore ty).2).all (fun piece => !(trim piece).isEmpty) &&
      match splitTopLevel '&' 0 (typeCore ty).2 with
      | _ :: _ :: _ => (splitTopLevelJavaIntersectionBounds (typeCore ty).2).all (isSourceTypeFuel fuel)
      | _ =>
        match splitJavaGenericBase (typeCore ty).2 with
        | some (name, args) => isQualifiedName name && (argTexts args).all (isTypeArgumentFuel fuel)
        | none => false

def isTypeArgumentFuel : ℕ → List Char → Bool
  | 0, _ => false
  | fuel + 1, arg =>
    if trim arg = ['?'] then true
    else
      match wildcardBound (trim arg) with
      | some bound => isTypeArgumentFuel fuel bound
      | none => isSourceTypeFuel fuel (trim arg)

end

def isSourceType (ty : List Char) : Bool :=
  isSourceTypeFuel (2 * ty.length + 2) ty

namespace SourceTypeCtx

variable (ctx : SourceTypeCtx)

/-! ## Where the translations agree -/

/-- The class of a name in a signature. -/
def signatureClass (name : List Char) : String :=
  BucketState.slashed (ctx.resolveSimple (String.ofList name))

/-- The lookup of simple names finds the class of a path, and a signature shows it as a class. -/
def readsAlike (name : List Char) : Bool :=
  ctx.resolveBaseInternal name = some (ctx.signatureClass name) && (primitiveLetter name).isNone &&
    !looksLikeTypeVar (ctx.signatureClass name).toList

mutual

/-- Every name in the text, of an intersection in its first bound, reads alike, arguments are not left
out between brackets, and an intersection has no dimensions. -/
def namesReadAlikeFuel : ℕ → List Char → Bool
  | 0, _ => false
  | fuel + 1, ty =>
    match splitTopLevelJavaIntersectionBounds (typeCore ty).2 with
    | bound :: _ :: _ => (typeCore ty).1 = 0 && namesReadAlikeFuel fuel bound
    | _ =>
      match splitJavaGenericBase (typeCore ty).2 with
      | some (name, args) => ctx.readsAlike name && (args.isNone || !(argTexts args).isEmpty) &&
          (argTexts args).all (argumentReadsAlikeFuel fuel)
      | none => false

def argumentReadsAlikeFuel : ℕ → List Char → Bool
  | 0, _ => false
  | fuel + 1, arg =>
    if trim arg = ['?'] then true
    else
      match wildcardBound (trim arg) with
      | some bound => argumentReadsAlikeFuel fuel bound
      | none => namesReadAlikeFuel fuel (trim arg)

end

def namesReadAlike (ty : List Char) : Bool :=
  ctx.namesReadAlikeFuel (2 * ty.length + 2) ty

/-- The text that is erased: the first bound. -/
def erasedText (ty : List Char) : List Char :=
  (splitTopLevelJavaIntersectionBounds (typeCore ty).2).head?.getD (typeCore ty).2

/-- The name of the erased class. -/
def erasedName (ty : List Char) : List Char :=
  trim (((splitJavaGenericBase (erasedText ty)).map Prod.fst).getD (erasedText ty))

/-- The descriptor keeps the dots of a name that is not found, and the dimensions of a bound. -/
def erasureReadsAlike (ty : List Char) : Bool :=
  (stripDimensions (erasedText ty)).1 = 0 && !(ctx.resolveSimple (String.ofList (erasedName ty))).toList.contains '.'

/-- A name ends in a signature where its arguments or the end of the type come. -/
def IsPlainName (name : String) : Prop :=
  ∀ c ∈ name.toList, (c = ';' || c = '<') = false

/-- The condition on the names of a text, for its signature and its descriptor. -/
def translationsReadAlike (ty : List Char) : Bool :=
  ctx.namesReadAlike ty && ctx.erasureReadsAlike ty

/-- The three translations agree on a text of a type. -/
def TranslationsAgree (ty : List Char) (t : TypeName) : Prop :=
  ctx.toDescriptor ty = t.erasedDescriptor ∧ ctx.sourceTypeToSignature ty = t.jvmSignature

/-- The names of the index are plain. -/
def PlainIndex : Prop :=
  ∀ c ∈ ctx.view.records, IsPlainName c.internalName

end SourceTypeCtx

/-! ## What the cut of a source type gives -/

theorem trim_bareType (ty : List Char) : trim (bareType ty) = bareType ty :=
  trim_strip _

theorem typeCore_front (ty : List Char) : (typeCore ty).2 <+: bareType ty :=
  stripDimensions_front (trimStart_of_trim (trim_bareType ty))

theorem bare_typeCore (ty : List Char) : Bare (typeCore ty).2 :=
  (bare_strip _).of_front (typeCore_front ty)

theorem trim_typeCore (ty : List Char) : trim (typeCore ty).2 = (typeCore ty).2 :=
  trim_stripDimensions (trim_bareType ty)

theorem typeCore_length_le (ty : List Char) : (typeCore ty).2.length ≤ ty.length :=
  (typeCore_front ty).length_le.trans ((strip_length_le _).trans (trim_length_le ty))

theorem bareType_of_bare {s : List Char} (h : Bare s) (htrim : trim s = s) : bareType s = s := by
  rw [bareType, htrim, strip_of_bare h htrim]

theorem splitTopLevelJavaIntersectionBounds_eq {s : List Char}
    (h : ∀ piece ∈ splitTopLevel '&' 0 s, trim piece ≠ []) :
    splitTopLevelJavaIntersectionBounds s = (splitTopLevel '&' 0 s).map trim := by
  rw [splitTopLevelJavaIntersectionBounds, List.filter_eq_self]
  intro bound hbound
  obtain ⟨piece, hpiece, rfl⟩ := List.mem_map.mp hbound
  simpa using h piece hpiece

theorem argTexts_length_lt {s name : List Char} {args : Option (List Char)} {arg : List Char}
    (h : splitJavaGenericBase s = some (name, args)) (harg : arg ∈ argTexts args) : arg.length < s.length := by
  have hpiece : ∀ text : List Char, arg ∈ splitJavaGenericArgs text → arg.length ≤ text.length := by
    intro text hmem
    obtain ⟨piece, hpiece, rfl⟩ := List.mem_map.mp (List.mem_of_mem_filter hmem)
    have hlen := length_add_of_mem_splitTopLevel hpiece
    obtain ⟨first, others, hsplit⟩ := exists_splitTopLevel ',' 0 text
    rw [hsplit, List.length_cons] at hlen
    exact (trim_length_le piece).trans (by omega)
  rw [splitJavaGenericBase] at h
  split at h
  · obtain ⟨rfl, rfl⟩ := Prod.mk.inj (Option.some.inj h)
    exact absurd harg (List.not_mem_nil)
  · rename_i start hstart
    obtain ⟨i, -, hcut⟩ := Option.map_eq_some_iff.mp h
    obtain ⟨rfl, rfl⟩ := Prod.mk.inj hcut
    have hlt : start < s.length := (List.idxOf?_eq_some_iff.mp hstart).1
    refine (hpiece _ harg).trans_lt ((trim_length_le _).trans_lt ?_)
    rw [List.length_drop, List.length_take]
    omega

/-- A text of an intersection: its first bound is no intersection and has no modifiers. -/
structure IsIntersectionText (ty bound second : List Char) (others : List (List Char)) : Prop where
  bounds : splitTopLevelJavaIntersectionBounds (typeCore ty).2 = bound :: second :: others
  uncut : Uncut '&' 0 bound
  bare : bareType bound = bound
  shorter : ∀ b ∈ bound :: second :: others, b.length < ty.length

/-- A text of one class, with the arguments between its brackets. -/
structure IsClassText (ty name : List Char) (args : Option (List Char)) : Prop where
  bounds : splitTopLevelJavaIntersectionBounds (typeCore ty).2 = [(typeCore ty).2]
  split : splitJavaGenericBase (typeCore ty).2 = some (name, args)
  qualified : isQualifiedName name = true
  shorter : ∀ arg ∈ argTexts args, arg.length < ty.length

theorem isIntersectionText_of_split {ty first second : List Char} {others : List (List Char)}
    (hsplit : splitTopLevel '&' 0 (typeCore ty).2 = first :: second :: others)
    (hsolid : ∀ piece ∈ splitTopLevel '&' 0 (typeCore ty).2, trim piece ≠ []) :
    IsIntersectionText ty (trim first) (trim second) (others.map trim) := by
  have hfirst : first <+: (typeCore ty).2 := splitTopLevel_first_front hsplit
  have hstart : trimStart first = first := trimStart_of_front (bare_typeCore ty).1 hfirst
  refine
    { bounds := by rw [splitTopLevelJavaIntersectionBounds_eq hsolid, hsplit]; rfl
      uncut := uncut_trim (uncut_of_mem hsplit).1
      bare := bareType_of_bare ((bare_typeCore ty).of_front ((trim_front hstart).trans hfirst)) (trim_trim _)
      shorter := fun b hb => ?_ }
  have hmem : b ∈ (splitTopLevel '&' 0 (typeCore ty).2).map trim := by rw [hsplit]; exact hb
  obtain ⟨piece, hpiece, rfl⟩ := List.mem_map.mp hmem
  have hlen := length_add_of_mem_splitTopLevel hpiece
  rw [hsplit, List.length_cons, List.length_cons] at hlen
  have htrim := trim_length_le piece
  have hcore := typeCore_length_le ty
  omega

theorem IsIntersectionText.first_not_many {ty bound second : List Char} {others : List (List Char)}
    (h : IsIntersectionText ty bound second others) :
    ¬ 1 < (splitTopLevelJavaIntersectionBounds (typeCore bound).2).length := by
  have hfrontOf := typeCore_front bound
  rw [h.bare] at hfrontOf
  have huncut : splitTopLevel '&' 0 (typeCore bound).2 = [(typeCore bound).2] := h.uncut.of_front hfrontOf
  rw [splitTopLevelJavaIntersectionBounds, huncut]
  exact not_lt.mpr (List.length_filter_le _ _)

/-- A source type is no wildcard, of no variable arity, and an intersection or a class. -/
theorem isSourceTypeFuel_cases {fuel : ℕ} {ty : List Char} (h : isSourceTypeFuel (fuel + 1) ty = true) :
    ((bareType ty).head? ≠ some '?' ∧ stripSuffix ['.', '.', '.'] (bareType ty) = none) ∧
      ((∃ bound second others, IsIntersectionText ty bound second others ∧
          ∀ b ∈ bound :: second :: others, isSourceTypeFuel fuel b = true) ∨
        ∃ name args, IsClassText ty name args ∧ ∀ arg ∈ argTexts args, isTypeArgumentFuel fuel arg = true) := by
  rw [isSourceTypeFuel, Bool.and_eq_true, Bool.and_eq_true, Bool.and_eq_true, List.all_eq_true,
    Option.isNone_iff_eq_none, decide_eq_true_iff] at h
  obtain ⟨⟨⟨hwild, harity⟩, hsolid⟩, hshape⟩ := h
  have hsolid : ∀ piece ∈ splitTopLevel '&' 0 (typeCore ty).2, trim piece ≠ [] := fun piece hpiece => by
    simpa using hsolid piece hpiece
  refine ⟨⟨hwild, harity⟩, ?_⟩
  split at hshape
  · rename_i first second others hsplit
    have htext := isIntersectionText_of_split hsplit hsolid
    rw [htext.bounds, List.all_eq_true] at hshape
    exact .inl ⟨_, _, _, htext, hshape⟩
  · rename_i hone
    split at hshape
    · rename_i name args hbase
      rw [Bool.and_eq_true, List.all_eq_true] at hshape
      obtain ⟨first, others, hsplit⟩ := exists_splitTopLevel '&' 0 (typeCore ty).2
      have hothers : others = [] := by
        cases others with
        | nil => rfl
        | cons second others => exact absurd hsplit (hone first second others)
      rw [hothers] at hsplit
      have hlen := sum_splitTopLevel '&' 0 (typeCore ty).2
      have hfrontOf := splitTopLevel_first_front hsplit
      have hfirst : first = (typeCore ty).2 := by
        refine hfrontOf.eq_of_length ?_
        rw [hsplit] at hlen
        simpa using hlen
      refine .inr ⟨name, args, ⟨?_, hbase, hshape.1, fun arg harg => ?_⟩, hshape.2⟩
      · rw [splitTopLevelJavaIntersectionBounds_eq hsolid, hsplit, List.map_singleton, hfirst, trim_typeCore]
      · exact (argTexts_length_lt hbase harg).trans_le (typeCore_length_le ty)
    · exact absurd hshape (by simp)

/-! ## The translations of an intersection -/

/-- The bounds that a type stands for in an intersection. -/
def boundsOf (t : TypeName) : List TypeName :=
  if t.isIntersection then t.args else [t]

theorem intersection_eq {types : List TypeName} (h : 2 ≤ (types.flatMap boundsOf).length) :
    TypeName.intersection types = TypeName.withArgsAndKind "&" .intersection (types.flatMap boundsOf) := by
  have hflat : (types.flatMap fun bound => if bound.isIntersection then bound.args else [bound]) =
      types.flatMap boundsOf := rfl
  rw [TypeName.intersection, hflat]
  split
  · rename_i hnil
    rw [hnil] at h
    exact absurd h (by simp)
  · rename_i hone
    rw [hone] at h
    exact absurd h (by simp)
  · rfl

theorem two_le_flatMap_boundsOf {t u : TypeName} {types : List TypeName} (h : boundsOf t ≠ []) (hu : boundsOf u ≠ []) :
    2 ≤ ((t :: u :: types).flatMap boundsOf).length := by
  rw [List.flatMap_cons, List.flatMap_cons, List.length_append, List.length_append]
  have ht := List.length_pos_iff.mpr h
  have hu := List.length_pos_iff.mpr hu
  omega

theorem withArrayDims_of_pos {t : TypeName} (h : t.arrayDims = 0) (dims : ℕ) :
    (if 0 < dims then t.withArrayDims dims else t) = t.withArrayDims dims := by
  split
  · rfl
  · rename_i hzero
    obtain ⟨base, kind, args, _⟩ := t
    obtain rfl := h
    rw [Nat.eq_zero_of_not_pos hzero]
    rfl

namespace SourceTypeCtx

variable (ctx : SourceTypeCtx)

/-- The resolution over the cut of the text. The text in front of the dimensions has no modifiers left. -/
theorem resolveTypeNameStrictFuel_eq (fuel : ℕ) (ty : List Char) :
    ctx.resolveTypeNameStrictFuel (fuel + 1) ty =
      if (bareType ty).isEmpty then none
      else if 1 < (splitTopLevelJavaIntersectionBounds (typeCore ty).2).length then
        ((splitTopLevelJavaIntersectionBounds (typeCore ty).2).mapM (ctx.resolveTypeNameStrictFuel fuel)).map
          fun types => if 0 < (typeCore ty).1 then (TypeName.intersection types).withArrayDims (typeCore ty).1
            else TypeName.intersection types
      else
        (splitJavaGenericBase (typeCore ty).2).bind fun split =>
          (ctx.resolveBaseInternal split.1).bind fun baseInternal =>
            (match split.2 with
              | some args =>
                ((splitJavaGenericArgs args).mapM (ctx.resolveTypeArgTypeFuel fuel)).map fun (argTypes : List TypeName) =>
                  if argTypes.isEmpty then TypeName.internal baseInternal
                  else TypeName.internalWithArgs baseInternal argTypes
              | none => some (TypeName.internal baseInternal)).map fun (t : TypeName) =>
                if 0 < (typeCore ty).1 then t.withArrayDims (typeCore ty).1 else t := by
  have hbase : stripLeadingJavaTypeModifiers (stripDimensions (stripLeadingJavaTypeModifiers (trim ty))).2 =
      (typeCore ty).2 :=
    strip_of_bare (bare_typeCore ty) (trim_typeCore ty)
  rw [resolveTypeNameStrictFuel]
  simp only [hbase]
  rfl

/-- The type of an intersection of bounds. -/
def intersectionType (bounds : List TypeName) (dims : ℕ) : TypeName :=
  ⟨"&", .intersection, bounds, dims⟩

theorem intersection_withArrayDims {t u : TypeName} (types : List TypeName) (ht : boundsOf t ≠ []) (hu : boundsOf u ≠ [])
    (dims : ℕ) :
    (if 0 < dims then (TypeName.intersection (t :: u :: types)).withArrayDims dims
      else TypeName.intersection (t :: u :: types)) =
      intersectionType ((t :: u :: types).flatMap boundsOf) dims := by
  rw [intersection_eq (two_le_flatMap_boundsOf ht hu)]
  exact withArrayDims_of_pos rfl dims

/-- The type of a class name with its arguments. -/
def classType (internal : String) (args : List TypeName) (dims : ℕ) : TypeName :=
  ⟨internal, .internal, args, dims⟩

theorem resolveTypeNameStrictFuel_class {fuel : ℕ} {ty : List Char} {t : TypeName}
    (hbounds : ¬ 1 < (splitTopLevelJavaIntersectionBounds (typeCore ty).2).length)
    (h : ctx.resolveTypeNameStrictFuel (fuel + 1) ty = some t) :
    ∃ name args internal types, splitJavaGenericBase (typeCore ty).2 = some (name, args) ∧
      ctx.resolveBaseInternal name = some internal ∧
      List.Forall₂ (fun arg u => ctx.resolveTypeArgTypeFuel fuel arg = some u) (argTexts args) types ∧
      t = classType internal types (typeCore ty).1 := by
  rw [resolveTypeNameStrictFuel_eq, if_neg hbounds] at h
  split at h
  · exact absurd h (by simp)
  · obtain ⟨⟨name, args⟩, hsplit, h⟩ := Option.bind_eq_some_iff.mp h
    obtain ⟨internal, hinternal, h⟩ := Option.bind_eq_some_iff.mp h
    obtain ⟨plain, hplain, ht⟩ := Option.map_eq_some_iff.mp h
    refine ⟨name, args, internal, plain.args, hsplit, hinternal, ?_⟩
    rw [← ht]
    cases args with
    | none =>
      obtain rfl := Option.some.inj hplain
      exact ⟨.nil, withArrayDims_of_pos rfl _⟩
    | some args =>
      obtain ⟨types, htypes, rfl⟩ := Option.map_eq_some_iff.mp hplain
      have hforall := mapM_eq_some_iff.mp htypes
      cases types with
      | nil => exact ⟨hforall, withArrayDims_of_pos rfl _⟩
      | cons u types => exact ⟨hforall, withArrayDims_of_pos rfl _⟩

theorem boundsOf_ne_nil {fuel : ℕ} {ty : List Char} {t : TypeName} (h : ctx.resolveTypeNameStrictFuel fuel ty = some t) :
    boundsOf t ≠ [] := by
  induction fuel generalizing ty t with
  | zero => exact absurd h (by simp [resolveTypeNameStrictFuel])
  | succ fuel ih =>
    by_cases hmany : 1 < (splitTopLevelJavaIntersectionBounds (typeCore ty).2).length
    · rw [resolveTypeNameStrictFuel_eq, if_pos hmany] at h
      split at h
      · exact absurd h (by simp)
      · obtain ⟨types, htypes, rfl⟩ := Option.map_eq_some_iff.mp h
        have hforall := mapM_eq_some_iff.mp htypes
        generalize splitTopLevelJavaIntersectionBounds (typeCore ty).2 = bounds at hmany hforall
        obtain _ | ⟨hfirst, _ | ⟨hsecond, hothers⟩⟩ := hforall
        · exact absurd hmany (by simp)
        · exact absurd hmany (by simp)
        · rw [intersection_withArrayDims _ (ih hfirst) (ih hsecond), List.flatMap_cons]
          exact List.append_ne_nil_of_left_ne_nil (ih hfirst) _
    · obtain ⟨name, args, internal, types, -, -, -, rfl⟩ := ctx.resolveTypeNameStrictFuel_class hmany h
      exact List.cons_ne_nil _ _

/-- An intersection has the bounds of all its parts, that of the first part in front. -/
theorem resolveTypeNameStrictFuel_bounds {fuel : ℕ} {ty bound second : List Char} {others : List (List Char)} {t : TypeName}
    (hbounds : splitTopLevelJavaIntersectionBounds (typeCore ty).2 = bound :: second :: others)
    (h : ctx.resolveTypeNameStrictFuel (fuel + 1) ty = some t) :
    ∃ first types, ctx.resolveTypeNameStrictFuel fuel bound = some first ∧
      t = intersectionType (boundsOf first ++ types) (typeCore ty).1 := by
  rw [resolveTypeNameStrictFuel_eq] at h
  split at h
  · exact absurd h (by simp)
  · rw [hbounds, if_pos (by simp)] at h
    obtain ⟨types, htypes, rfl⟩ := Option.map_eq_some_iff.mp h
    obtain _ | ⟨hfirst, _ | ⟨hsecond, hothers⟩⟩ := mapM_eq_some_iff.mp htypes
    exact ⟨_, _, hfirst, intersection_withArrayDims _ (ctx.boundsOf_ne_nil hfirst) (ctx.boundsOf_ne_nil hsecond) _⟩

/-! ## The texts of a class -/

/-- The descriptor of a name. -/
def nameDescriptor (name : List Char) : List Char :=
  match primitiveLetter name with
  | some letter => [letter]
  | none => 'L' :: ((ctx.resolveSimple (String.ofList name)).toList ++ [';'])

theorem toDescriptor_eq {ty : List Char} (harity : stripSuffix ['.', '.', '.'] (bareType ty) = none) :
    ctx.toDescriptor ty = List.replicate (typeCore ty).1 '[' ++ ctx.nameDescriptor (erasedName ty) := by
  have hcore : stripDimensions (trim (bareType ty)) = typeCore ty := by rw [trim_bareType]; rfl
  rw [bareType] at harity hcore
  rw [toDescriptor]
  simp only [harity, Option.getD_none, Option.isSome_none, hcore, Bool.false_eq_true, if_false, Nat.add_zero]
  unfold nameDescriptor erasedName erasedText
  generalize trim _ = name
  rfl

/-- The signature of a name with its arguments. -/
def classSignature (fuel : ℕ) (name : List Char) (args : Option (List Char)) : List Char :=
  match primitiveLetter name with
  | some letter => [letter]
  | none =>
    if looksLikeTypeVar (ctx.signatureClass name).toList then 'T' :: ((ctx.signatureClass name).toList ++ [';'])
    else 'L' :: ((ctx.signatureClass name).toList ++
      if args.isNone then [';']
      else '<' :: ((argTexts args).flatMap (ctx.sourceTypeToSignatureFuel fuel) ++ ['>', ';']))

section Signature

variable {ty : List Char} (hwild : (bareType ty).head? ≠ some '?')
  (harity : stripSuffix ['.', '.', '.'] (bareType ty) = none)

include hwild harity

theorem sourceTypeToSignatureFuel_eq (fuel : ℕ) :
    ctx.sourceTypeToSignatureFuel (fuel + 1) ty =
      match splitTopLevelJavaIntersectionBounds (typeCore ty).2 with
      | bound :: _ :: _ => ctx.sourceTypeToSignatureFuel fuel bound
      | _ => List.replicate (typeCore ty).1 '[' ++
          ctx.classSignature fuel ((splitJavaGenericBase (typeCore ty).2).getD ((typeCore ty).2, none)).1
            ((splitJavaGenericBase (typeCore ty).2).getD ((typeCore ty).2, none)).2 := by
  have hquestion : ∀ rest : List Char, ¬ '?' :: rest <+: bareType ty := by
    intro rest hpre
    obtain ⟨others, hothers⟩ := hpre
    exact hwild (by rw [← hothers]; rfl)
  have hplain : ¬ bareType ty = ['?'] := fun heq => hquestion [] (heq ▸ List.prefix_rfl)
  have hextends : ¬ "? extends ".toList.isPrefixOf (bareType ty) = true := fun h =>
    hquestion _ (List.isPrefixOf_iff_prefix.mp h)
  have hsuper : ¬ "? super ".toList.isPrefixOf (bareType ty) = true := fun h =>
    hquestion _ (List.isPrefixOf_iff_prefix.mp h)
  have hcore : stripDimensions (stripLeadingJavaTypeModifiers (trim ty)) = typeCore ty := rfl
  rw [bareType] at hplain hextends hsuper harity
  rw [sourceTypeToSignatureFuel]
  simp only [if_neg hplain, if_neg hextends, if_neg hsuper, harity, Option.map_none, Option.getD_none,
    Option.isSome_none, Bool.false_eq_true, if_false, Nat.add_zero, hcore]
  generalize (splitJavaGenericBase (typeCore ty).2).getD ((typeCore ty).2, none) = split
  generalize splitTopLevelJavaIntersectionBounds (typeCore ty).2 = bounds
  obtain ⟨name, args⟩ := split
  cases args with
  | none => obtain _ | ⟨bound, _ | ⟨second, others⟩⟩ := bounds <;> rfl
  | some args => obtain _ | ⟨bound, _ | ⟨second, others⟩⟩ := bounds <;> rfl

end Signature

theorem resolveTypeNameStrictFuel_intersection {fuel : ℕ} {ty bound second : List Char} {others : List (List Char)}
    {t : TypeName} (htext : IsIntersectionText ty bound second others)
    (h : ctx.resolveTypeNameStrictFuel (fuel + 1) ty = some t) :
    ∃ first types, ctx.resolveTypeNameStrictFuel fuel bound = some first ∧
      t = intersectionType (first :: types) (typeCore ty).1 := by
  obtain ⟨first, types, hfirst, rfl⟩ := ctx.resolveTypeNameStrictFuel_bounds htext.bounds h
  cases fuel with
  | zero => exact absurd hfirst (by simp [resolveTypeNameStrictFuel])
  | succ fuel =>
    obtain ⟨name, args, internal, types, -, -, -, rfl⟩ := ctx.resolveTypeNameStrictFuel_class htext.first_not_many hfirst
    exact ⟨_, _, hfirst, rfl⟩

/-! ## Type arguments -/

theorem bareType_of_question {arg : List Char} (h : (trim arg).head? = some '?') : bareType arg = trim arg := by
  refine strip_of_bare ⟨trimStart_trim arg, fun hfinal => ?_, fun hat => ?_⟩ (trim_trim arg)
  · obtain ⟨rest, hrest⟩ := hfinal
    rw [← hrest] at h
    exact absurd h (by simp)
  · exact absurd (h.symm.trans hat) (by simp)

theorem sourceTypeToSignatureFuel_trim (fuel : ℕ) (arg : List Char) :
    ctx.sourceTypeToSignatureFuel fuel (trim arg) = ctx.sourceTypeToSignatureFuel fuel arg := by
  cases fuel with
  | zero => rfl
  | succ fuel => rw [sourceTypeToSignatureFuel, sourceTypeToSignatureFuel, trim_trim]

theorem sourceTypeToSignatureFuel_question (fuel : ℕ) {arg : List Char} (h : trim arg = ['?']) :
    ctx.sourceTypeToSignatureFuel (fuel + 1) arg = ['*'] := by
  have hbare : bareType arg = ['?'] := by
    rw [bareType_of_question (by rw [h]; rfl), h]
  rw [bareType] at hbare
  rw [sourceTypeToSignatureFuel]
  simp only [hbare, if_true]

/-- A wildcard with a bound: its type, and the character that a signature has for it. -/
structure IsWildcard (fuel : ℕ) (arg bound : List Char) (letter : Char) (wrap : TypeName → TypeName) : Prop where
  question : trim arg ≠ ['?']
  isBound : wildcardBound (trim arg) = some bound
  shorter : bound.length < arg.length
  wrapped : ∀ u, (wrap u).jvmSignature = letter :: u.jvmSignature
  signature : ctx.sourceTypeToSignatureFuel (fuel + 1) arg = letter :: ctx.sourceTypeToSignatureFuel fuel bound

theorem isWildcard_extends (fuel : ℕ) {arg : List Char} (h : "? extends ".toList.isPrefixOf (trim arg) = true) :
    ctx.IsWildcard fuel arg ((trim arg).drop "? extends ".length) '+' TypeName.wildcardExtends := by
  have hpre := List.isPrefixOf_iff_prefix.mp h
  have hlen : 10 ≤ (trim arg).length := hpre.length_le
  have hquestion : trim arg ≠ ['?'] := fun heq => absurd (heq ▸ hlen) (by decide)
  have hbare : bareType arg = trim arg := bareType_of_question (by
    obtain ⟨rest, hrest⟩ := hpre
    rw [← hrest]
    rfl)
  refine ⟨hquestion, by rw [wildcardBound, if_pos h], ?_, fun u => rfl, ?_⟩
  · have htrim := trim_length_le arg
    rw [List.length_drop, show "? extends ".length = 10 from rfl]
    omega
  · rw [bareType] at hbare
    rw [sourceTypeToSignatureFuel]
    simp only [hbare, if_neg hquestion, if_pos h]

theorem isWildcard_super (fuel : ℕ) {arg : List Char} (h : "? super ".toList.isPrefixOf (trim arg) = true) :
    ctx.IsWildcard fuel arg ((trim arg).drop "? super ".length) '-' TypeName.wildcardSuper := by
  have hpre := List.isPrefixOf_iff_prefix.mp h
  have hlen : 8 ≤ (trim arg).length := hpre.length_le
  have hquestion : trim arg ≠ ['?'] := fun heq => absurd (heq ▸ hlen) (by decide)
  have hextends : ¬ "? extends ".toList.isPrefixOf (trim arg) = true := fun hother =>
    absurd (List.prefix_of_prefix_length_le hpre (List.isPrefixOf_iff_prefix.mp hother) (by decide)) (by decide)
  have hbare : bareType arg = trim arg := bareType_of_question (by
    obtain ⟨rest, hrest⟩ := hpre
    rw [← hrest]
    rfl)
  refine ⟨hquestion, by rw [wildcardBound, if_neg hextends, if_pos h], ?_, fun u => rfl, ?_⟩
  · have htrim := trim_length_le arg
    rw [List.length_drop, show "? super ".length = 8 from rfl]
    omega
  · rw [bareType] at hbare
    rw [sourceTypeToSignatureFuel]
    simp only [hbare, if_neg hquestion, if_neg hextends, if_pos h]

/-- A type argument is a wildcard, a wildcard with a bound, or a class that is no array. -/
theorem resolveTypeArgTypeFuel_cases (n : ℕ) {fuel : ℕ} {arg : List Char} {t : TypeName}
    (h : ctx.resolveTypeArgTypeFuel (fuel + 1) arg = some t) :
    (trim arg = ['?'] ∧ t = TypeName.wildcard) ∨
      (∃ bound letter wrap u, ctx.IsWildcard n arg bound letter wrap ∧
        ctx.resolveTypeArgTypeFuel fuel bound = some u ∧ t = wrap u) ∨
      (trim arg ≠ ['?'] ∧ wildcardBound (trim arg) = none ∧
        ctx.resolveTypeNameStrictFuel fuel (trim arg) = some t ∧ '/' ∈ t.erasedInternal.toList) := by
  rw [resolveTypeArgTypeFuel] at h
  split_ifs at h with hempty hplain hextends hsuper
  · exact .inl ⟨hplain, (Option.some.inj h).symm⟩
  · obtain ⟨u, hu, rfl⟩ := Option.map_eq_some_iff.mp h
    exact .inr (.inl ⟨_, _, _, u, ctx.isWildcard_extends n hextends, hu, rfl⟩)
  · obtain ⟨u, hu, rfl⟩ := Option.map_eq_some_iff.mp h
    exact .inr (.inl ⟨_, _, _, u, ctx.isWildcard_super n hsuper, hu, rfl⟩)
  · obtain ⟨resolved, hresolved, h⟩ := Option.bind_eq_some_iff.mp h
    split_ifs at h with harray hprimitive hslash
    obtain rfl := Option.some.inj h
    exact .inr (.inr ⟨hplain, by rw [wildcardBound, if_neg hextends, if_neg hsuper], hresolved, hslash⟩)

end SourceTypeCtx

end JavaAnalyzer.Language
