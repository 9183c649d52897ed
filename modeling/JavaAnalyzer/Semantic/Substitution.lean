import JavaAnalyzer.Semantic.JvmType

/-! # Substitution in signature types

The traversal behind the substitutions of `semantic/types/generics.rs`. `instWith` replaces every
variable at once and passes each type argument it has built through a function: `substitute` boxes
primitives there and `substitute_type_vars` changes nothing. Types are compared `boxed`, with every
primitive type argument replaced by its class. `boxedAt_inst_iff` says that two instances agree exactly
when they agree on every occurrence of a variable. -/

namespace JavaAnalyzer.Semantic
set_option autoImplicit false

namespace JvmType

/-! ## Boxing -/

/-- The class of a primitive type, none for `V`. -/
def boxedName (c : Char) : Option String :=
  match c with
  | 'I' => some "java/lang/Integer"
  | 'J' => some "java/lang/Long"
  | 'D' => some "java/lang/Double"
  | 'F' => some "java/lang/Float"
  | 'Z' => some "java/lang/Boolean"
  | 'B' => some "java/lang/Byte"
  | 'S' => some "java/lang/Short"
  | 'C' => some "java/lang/Character"
  | _ => none

/-- `box_jvm_primitive`. -/
def boxPrimitive : JvmType → JvmType
  | .primitive c =>
    match boxedName c with
    | some name => .object name []
    | none => .primitive c
  | t => t

@[simp] theorem boxPrimitive_object (name : String) (args : List JvmType) :
    (JvmType.object name args).boxPrimitive = .object name args := rfl

@[simp] theorem boxPrimitive_typeVar (name : String) :
    (JvmType.typeVar name).boxPrimitive = .typeVar name := rfl

@[simp] theorem boxPrimitive_array (inner : JvmType) :
    (JvmType.array inner).boxPrimitive = .array inner := rfl

@[simp] theorem boxPrimitive_wildcard : JvmType.wildcard.boxPrimitive = .wildcard := rfl

@[simp] theorem boxPrimitive_wildcardBound (c : Char) (inner : JvmType) :
    (JvmType.wildcardBound c inner).boxPrimitive = .wildcardBound c inner := rfl

theorem boxPrimitive_primitive (c : Char) :
    (JvmType.primitive c).boxPrimitive = .primitive c ∨
      ∃ name, (JvmType.primitive c).boxPrimitive = .object name [] := by
  simp only [boxPrimitive]
  cases boxedName c with
  | none => exact .inl rfl
  | some name => exact .inr ⟨name, rfl⟩

theorem boxPrimitive_idem (t : JvmType) : t.boxPrimitive.boxPrimitive = t.boxPrimitive := by
  cases t with
  | primitive c =>
    rcases boxPrimitive_primitive c with h | ⟨name, h⟩
    · rw [h, h]
    · rw [h, boxPrimitive_object]
  | _ => rfl

/-! ## The traversal -/

mutual

/-- Every variable replaced by `σ`, every type argument passed through `ofArg`. -/
def instWith (ofArg : JvmType → JvmType) (σ : String → JvmType) : JvmType → JvmType
  | .object name args => .object name (instArgs ofArg σ args)
  | .typeVar name => σ name
  | .array inner => .array (instWith ofArg σ inner)
  | .primitive c => .primitive c
  | .wildcard => .wildcard
  | .wildcardBound c inner => .wildcardBound c (instWith ofArg σ inner)

def instArgs (ofArg : JvmType → JvmType) (σ : String → JvmType) : List JvmType → List JvmType
  | [] => []
  | a :: args => ofArg (instWith ofArg σ a) :: instArgs ofArg σ args

end

mutual

/-- The variables of a type, each with whether it stands there as a type argument. -/
def occurrences (isArg : Bool) : JvmType → List (String × Bool)
  | .object _ args => argOccurrences args
  | .typeVar name => [(name, isArg)]
  | .array inner => occurrences false inner
  | .primitive _ => []
  | .wildcard => []
  | .wildcardBound _ inner => occurrences false inner

def argOccurrences : List JvmType → List (String × Bool)
  | [] => []
  | a :: args => occurrences true a ++ argOccurrences args

end

theorem instArgs_eq_map (ofArg : JvmType → JvmType) (σ : String → JvmType) (args : List JvmType) :
    instArgs ofArg σ args = args.map fun a => ofArg (instWith ofArg σ a) := by
  induction args with
  | nil => rfl
  | cons a args ih => rw [instArgs, ih, List.map_cons]

theorem argOccurrences_eq_flatMap (args : List JvmType) :
    argOccurrences args = args.flatMap (occurrences true) := by
  induction args with
  | nil => rfl
  | cons a args ih => rw [argOccurrences, ih, List.flatMap_cons]

/-- The simultaneous substitution. -/
def inst (σ : String → JvmType) (t : JvmType) : JvmType := instWith id σ t

/-- The type with its primitive type arguments boxed. -/
def boxed (t : JvmType) : JvmType := instWith boxPrimitive .typeVar t

/-- The boxed form of a type that stands as a type argument, or does not. -/
def boxedAt (isArg : Bool) (t : JvmType) : JvmType :=
  if isArg then t.boxed.boxPrimitive else t.boxed

section Equations

variable (σ : String → JvmType) (name : String) (args : List JvmType) (inner : JvmType) (c : Char)

@[simp] theorem inst_object : inst σ (.object name args) = .object name (args.map (inst σ)) := by
  rw [inst, instWith, instArgs_eq_map]
  rfl

@[simp] theorem inst_typeVar : inst σ (.typeVar name) = σ name := rfl

@[simp] theorem inst_array : inst σ (.array inner) = .array (inst σ inner) := rfl

@[simp] theorem inst_primitive : inst σ (.primitive c) = .primitive c := rfl

@[simp] theorem inst_wildcard : inst σ .wildcard = .wildcard := rfl

@[simp] theorem inst_wildcardBound :
    inst σ (.wildcardBound c inner) = .wildcardBound c (inst σ inner) := rfl

@[simp] theorem boxed_object :
    boxed (.object name args) = .object name (args.map (boxedAt true)) := by
  rw [boxed, instWith, instArgs_eq_map]
  rfl

@[simp] theorem boxed_typeVar : boxed (.typeVar name) = .typeVar name := rfl

@[simp] theorem boxed_array : boxed (.array inner) = .array (boxed inner) := rfl

@[simp] theorem boxed_primitive : boxed (.primitive c) = .primitive c := rfl

@[simp] theorem boxed_wildcard : boxed .wildcard = .wildcard := rfl

@[simp] theorem boxed_wildcardBound :
    boxed (.wildcardBound c inner) = .wildcardBound c (boxed inner) := rfl

end Equations

/-! ## Comparing instances -/

theorem inst_inst (τ σ : String → JvmType) (t : JvmType) :
    inst τ (inst σ t) = inst (fun x => inst τ (σ x)) t := by
  induction t using inductOn with
  | object name args ih =>
    simp only [inst_object, List.map_map]
    exact congrArg _ (List.map_congr_left ih)
  | typeVar name => rfl
  | array inner ih => simp [ih]
  | primitive c => rfl
  | wildcard => rfl
  | wildcardBound c inner ih => simp [ih]

theorem inst_self (t : JvmType) : inst .typeVar t = t := by
  induction t using inductOn with
  | object name args ih => simpa using List.map_congr_left ih
  | typeVar name => rfl
  | array inner ih => simp [ih]
  | primitive c => rfl
  | wildcard => rfl
  | wildcardBound c inner ih => simp [ih]

theorem inst_wellFormed {σ : String → JvmType} {t : JvmType} (h : t.wellFormed = true)
    (hσ : ∀ x, (JvmType.typeVar x).wellFormed = true → (σ x).wellFormed = true) :
    (inst σ t).wellFormed = true := by
  induction t using inductOn with
  | object name args ih =>
    simp only [wellFormed, Bool.and_eq_true, wellFormedArgs_iff] at h
    simp only [inst_object, wellFormed, Bool.and_eq_true, wellFormedArgs_iff, List.forall_mem_map]
    exact ⟨h.1, fun a ha => ih a ha (h.2 a ha)⟩
  | typeVar name => exact hσ name h
  | array inner ih => exact ih h
  | primitive c => exact h
  | wildcard => rfl
  | wildcardBound c inner ih =>
    simp only [wellFormed, Bool.and_eq_true] at h
    simp only [inst_wildcardBound, wellFormed, Bool.and_eq_true]
    exact ⟨h.1, ih h.2⟩

theorem boxed_boxPrimitive (t : JvmType) : t.boxPrimitive.boxed = t.boxed.boxPrimitive := by
  cases t with
  | primitive c =>
    rcases boxPrimitive_primitive c with h | ⟨name, h⟩
    · simp [h]
    · simp [h]
  | _ => simp

theorem boxed_instWith (σ : String → JvmType) (t : JvmType) :
    (instWith boxPrimitive σ t).boxed = (inst σ t).boxed := by
  induction t using inductOn with
  | object name args ih =>
    rw [instWith, instArgs_eq_map]
    simp only [inst_object, boxed_object, List.map_map]
    refine congrArg _ (List.map_congr_left fun a ha => ?_)
    simp only [Function.comp_apply, boxedAt, if_true, boxed_boxPrimitive, boxPrimitive_idem, ih a ha]
  | typeVar name => rfl
  | array inner ih => simpa [instWith] using ih
  | primitive c => rfl
  | wildcard => rfl
  | wildcardBound c inner ih => simpa [instWith] using ih

theorem boxedAt_eq_typeVar {isArg : Bool} {t : JvmType} {x : String} :
    boxedAt isArg t = .typeVar x ↔ t = .typeVar x := by
  cases t with
  | primitive c =>
    cases isArg with
    | false => simp [boxedAt]
    | true => rcases boxPrimitive_primitive c with h | ⟨name, h⟩ <;> simp [boxedAt, h]
  | _ => cases isArg <;> simp [boxedAt]

/-- Two instances of a type agree up to boxing exactly when they do on every occurrence. -/
theorem boxedAt_inst_iff (σ τ : String → JvmType) (t : JvmType) (isArg : Bool) :
    boxedAt isArg (inst σ t) = boxedAt isArg (inst τ t) ↔
      ∀ o ∈ occurrences isArg t, boxedAt o.2 (σ o.1) = boxedAt o.2 (τ o.1) := by
  induction t using inductOn generalizing isArg with
  | object name args ih =>
    have hobject (ρ : String → JvmType) : boxedAt isArg (inst ρ (.object name args)) =
        .object name (args.map fun a => boxedAt true (inst ρ a)) := by
      cases isArg <;> simp [boxedAt, Function.comp_def]
    rw [hobject, hobject, occurrences, argOccurrences_eq_flatMap]
    simp only [JvmType.object.injEq, true_and, List.map_inj_left, List.mem_flatMap]
    constructor
    · rintro h o ⟨a, ha, ho⟩
      exact (ih a ha true).mp (h a ha) o ho
    · intro h a ha
      exact (ih a ha true).mpr fun o ho => h o ⟨a, ha, ho⟩
  | typeVar name => simp [occurrences]
  | array inner ih =>
    rw [occurrences, ← ih]
    cases isArg <;> simp [boxedAt]
  | primitive c => simp [occurrences]
  | wildcard => simp [occurrences]
  | wildcardBound c inner ih =>
    rw [occurrences, ← ih]
    cases isArg <;> simp [boxedAt]

/-- A substitution leaves a type as it is exactly when it does so with its variables. -/
theorem boxedAt_inst_eq_self {σ : String → JvmType} {t : JvmType} {isArg : Bool} :
    boxedAt isArg (inst σ t) = boxedAt isArg t ↔
      ∀ o ∈ occurrences isArg t, σ o.1 = .typeVar o.1 := by
  have h := boxedAt_inst_iff σ .typeVar t isArg
  rw [inst_self] at h
  rw [h]
  refine forall₂_congr fun o _ => ?_
  have hvar : boxedAt o.2 (.typeVar o.1) = .typeVar o.1 := boxedAt_eq_typeVar.mpr rfl
  rw [hvar, boxedAt_eq_typeVar]

end JvmType

end JavaAnalyzer.Semantic
