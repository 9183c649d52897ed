import JavaAnalyzer.Semantic.Generics

/-! # Primitive type arguments

Which substitutions leave a type without primitive type arguments. A bound of a wildcard counts as an
argument, an element of an array does not. -/

namespace JavaAnalyzer.Semantic
set_option autoImplicit false

namespace JvmType

def isPrimitive : JvmType → Bool
  | .primitive _ => true
  | _ => false

mutual

/-- No type argument and no wildcard bound is primitive, at any depth. -/
def noPrimitiveArgument : JvmType → Bool
  | .object _ args => noPrimitiveArguments args
  | .typeVar _ => true
  | .array inner => noPrimitiveArgument inner
  | .primitive _ => true
  | .wildcard => true
  | .wildcardBound _ inner => !inner.isPrimitive && noPrimitiveArgument inner

def noPrimitiveArguments : List JvmType → Bool
  | [] => true
  | a :: args => !a.isPrimitive && noPrimitiveArgument a && noPrimitiveArguments args

end

/-! ## Places of variables -/

inductive Place where
  | alone
  | argument
  | bound
deriving DecidableEq, Repr

mutual

/-- The variables of a type, each with the place it stands at. -/
def variablePlaces (place : Place) : JvmType → List (String × Place)
  | .object _ args => argumentPlaces args
  | .typeVar name => [(name, place)]
  | .array inner => variablePlaces .alone inner
  | .primitive _ => []
  | .wildcard => []
  | .wildcardBound _ inner => variablePlaces .bound inner

def argumentPlaces : List JvmType → List (String × Place)
  | [] => []
  | a :: args => variablePlaces .argument a ++ argumentPlaces args

end

/-- The type may stand at the place, where type arguments pass through `ofArg` first. -/
def Place.Admits (ofArg : JvmType → JvmType) (t : JvmType) : Place → Prop
  | .alone => True
  | .argument => (ofArg t).isPrimitive = false
  | .bound => t.isPrimitive = false

theorem noPrimitiveArguments_iff {args : List JvmType} :
    noPrimitiveArguments args = true ↔ ∀ a ∈ args, a.isPrimitive = false ∧ a.noPrimitiveArgument = true := by
  induction args with
  | nil => exact iff_of_true rfl nofun
  | cons a args ih =>
    rw [noPrimitiveArguments, Bool.and_eq_true, Bool.and_eq_true, Bool.not_eq_true', ih, List.forall_mem_cons]

theorem mem_argumentPlaces {args : List JvmType} {o : String × Place} :
    o ∈ argumentPlaces args ↔ ∃ a ∈ args, o ∈ variablePlaces .argument a := by
  induction args with
  | nil => exact iff_of_false List.not_mem_nil nofun
  | cons a args ih => rw [argumentPlaces, List.mem_append, ih, List.exists_mem_cons_iff]

/-! ## Substitution at every place -/

section Traversal

variable {ofArg : JvmType → JvmType} {σ : String → JvmType}

theorem Place.admits_of_not_primitive (hkeep : ∀ t : JvmType, t.isPrimitive = false → ofArg t = t) {t : JvmType}
    (h : t.isPrimitive = false) (place : Place) : place.Admits ofArg t := by
  cases place with
  | alone => exact trivial
  | argument => rw [Place.Admits, hkeep t h, h]
  | bound => exact h

/-- What is put together from a type without primitive arguments is one again, and fits its place, exactly when every
variable gets such a type that fits where the variable stands. -/
theorem instWith_noPrimitiveArgument (hkeep : ∀ t : JvmType, t.isPrimitive = false → ofArg t = t)
    (hinside : ∀ t : JvmType, (ofArg t).noPrimitiveArgument = t.noPrimitiveArgument) (t : JvmType)
    (h : t.noPrimitiveArgument = true) (place : Place) (hplace : place.Admits ofArg t) :
    ((instWith ofArg σ t).noPrimitiveArgument = true ∧ place.Admits ofArg (instWith ofArg σ t)) ↔
      ∀ o ∈ variablePlaces place t, (σ o.1).noPrimitiveArgument = true ∧ o.2.Admits ofArg (σ o.1) := by
  induction t using inductOn generalizing place with
  | object name args ih =>
    rw [noPrimitiveArgument, noPrimitiveArguments_iff] at h
    rw [variablePlaces, instWith, instArgs_eq_map,
      and_iff_left (Place.admits_of_not_primitive hkeep rfl place), noPrimitiveArgument, noPrimitiveArguments_iff,
      List.forall_mem_map]
    have hone : ∀ a ∈ args, ((ofArg (instWith ofArg σ a)).isPrimitive = false ∧
        (ofArg (instWith ofArg σ a)).noPrimitiveArgument = true) ↔
        ∀ o ∈ variablePlaces .argument a, (σ o.1).noPrimitiveArgument = true ∧ o.2.Admits ofArg (σ o.1) := by
      intro a ha
      rw [hinside, and_comm]
      exact ih a ha (h a ha).2 .argument (Place.admits_of_not_primitive hkeep (h a ha).1 _)
    constructor
    · intro hargs o ho
      obtain ⟨a, ha, ho⟩ := mem_argumentPlaces.mp ho
      exact (hone a ha).mp (hargs a ha) o ho
    · intro hvars a ha
      exact (hone a ha).mpr fun o ho => hvars o (mem_argumentPlaces.mpr ⟨a, ha, ho⟩)
  | typeVar name => rw [variablePlaces, List.forall_mem_singleton, instWith]
  | array inner ih =>
    rw [variablePlaces, ← ih h .alone trivial, instWith, and_iff_left (Place.admits_of_not_primitive hkeep rfl place)]
    exact (and_iff_left trivial).symm
  | primitive c => exact iff_of_true ⟨rfl, hplace⟩ fun _ ho => absurd ho List.not_mem_nil
  | wildcard => exact iff_of_true ⟨rfl, hplace⟩ fun _ ho => absurd ho List.not_mem_nil
  | wildcardBound c inner ih =>
    rw [noPrimitiveArgument, Bool.and_eq_true, Bool.not_eq_true'] at h
    rw [variablePlaces, ← ih h.2 .bound h.1, instWith, and_iff_left (Place.admits_of_not_primitive hkeep rfl place),
      noPrimitiveArgument, Bool.and_eq_true, Bool.not_eq_true', and_comm]
    rfl

end Traversal

theorem boxPrimitive_of_not_primitive {t : JvmType} (h : t.isPrimitive = false) : t.boxPrimitive = t := by
  cases t with
  | primitive c => cases h
  | _ => rfl

theorem boxPrimitive_noPrimitiveArgument (t : JvmType) :
    t.boxPrimitive.noPrimitiveArgument = t.noPrimitiveArgument := by
  cases t with
  | primitive c => rcases boxPrimitive_primitive c with h | ⟨name, h⟩ <;> rw [h] <;> rfl
  | _ => rfl

end JvmType

open JvmType

/-- Neither result has a primitive type argument exactly when no variable gets a type with one, none that bounds a
wildcard gets a primitive, and none that is a type argument gets one: any for `substitute_type_vars`, one that has no
class for `substitute`. -/
theorem substitution_noPrimitiveArgument (t : JvmType) (h : t.noPrimitiveArgument = true) (typeParams : List String)
    (typeArgs : List JvmType) (bindings : Bindings) :
    ((t.substitute typeParams typeArgs).noPrimitiveArgument = true ∧
        (substituteTypeVars t bindings).noPrimitiveArgument = true) ↔
      (∀ o ∈ variablePlaces .alone t, (argOf typeParams typeArgs o.1).noPrimitiveArgument = true ∧
        o.2.Admits boxPrimitive (argOf typeParams typeArgs o.1)) ∧
      ∀ o ∈ variablePlaces .alone t, (bindings.image o.1).noPrimitiveArgument = true ∧
        o.2.Admits id (bindings.image o.1) := by
  have hboxed := @instWith_noPrimitiveArgument boxPrimitive (argOf typeParams typeArgs)
    (fun _ => boxPrimitive_of_not_primitive) boxPrimitive_noPrimitiveArgument t h .alone trivial
  have hplain := @instWith_noPrimitiveArgument id bindings.image (fun _ _ => rfl) (fun _ => rfl) t h .alone trivial
  rw [← hboxed, ← hplain]
  exact and_congr (and_iff_left trivial).symm (and_iff_left trivial).symm

/-- `Map<? extends T, T[]>` with `T` bound to `String` -/
theorem reference_substituted :
    let t : JvmType := .object "java/util/Map" [.wildcardBound '+' (.typeVar "T"), .array (.typeVar "T")]
    let value : JvmType := .object "java/lang/String" []
    (t.substitute ["T"] [value]).noPrimitiveArgument = true ∧
      (substituteTypeVars t (AList.singleton "T" value)).noPrimitiveArgument = true :=
  (substitution_noPrimitiveArgument _ (by decide) _ _ _).mpr ⟨
    List.forall_mem_cons.mpr ⟨⟨by decide, rfl⟩, List.forall_mem_singleton.mpr ⟨by decide, trivial⟩⟩,
    List.forall_mem_cons.mpr ⟨⟨by decide, rfl⟩, List.forall_mem_singleton.mpr ⟨by decide, trivial⟩⟩⟩

/-- `List<? extends T>` becomes `List<? extends int>` in both. -/
theorem primitive_bound_made : ¬ ∀ t : JvmType, t.noPrimitiveArgument = true → ∀ (typeParams : List String)
    (typeArgs : List JvmType) (bindings : Bindings), (∀ value ∈ typeArgs, value.noPrimitiveArgument = true) →
    (∀ name, (bindings.image name).noPrimitiveArgument = true) →
    (t.substitute typeParams typeArgs).noPrimitiveArgument = true ∧
      (substituteTypeVars t bindings).noPrimitiveArgument = true := by
  intro hall
  have himage : ∀ name, (Bindings.image (AList.singleton "T" (.primitive 'I')) name).noPrimitiveArgument = true := by
    intro name
    by_cases hname : name = "T"
    · subst hname
      decide
    · rw [Bindings.image, AList.lookup_eq_none.mpr fun hmem => hname (List.mem_singleton.mp hmem)]
      rfl
  have hbound := (hall (.object "java/util/List" [.wildcardBound '+' (.typeVar "T")]) (by decide) ["T"]
    [.primitive 'I'] _ (by decide) himage).1
  revert hbound
  decide

end JavaAnalyzer.Semantic
