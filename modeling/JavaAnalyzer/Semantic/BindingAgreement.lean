import JavaAnalyzer.Semantic.MethodBindings

/-! # Agreement of bindings

What `bind_method_type_vars` of `semantic/types.rs` binds over all arguments of a call: each method type variable to the
one type that is found wherever the variable occurs in a parameter. The map and the set of conflicts that the source
shares between the arguments say no more than which types were found, so the order of the visit does not matter. -/

namespace JavaAnalyzer.Semantic
set_option autoImplicit false
open Index

/-! ## Occurrences -/

/-- A variable occurs in a formal type, and the actual type has a type at that place. -/
inductive FoundAt : JvmType → JvmType → String → JvmType → Prop
  | var (name : String) (actual : JvmType) : FoundAt (.typeVar name) actual name actual
  | array {formalInner actualInner : JvmType} {name : String} {t : JvmType}
      (h : FoundAt formalInner actualInner name t) : FoundAt (.array formalInner) (.array actualInner) name t
  | wildcardBound {c : Char} {formalInner actual : JvmType} {name : String} {t : JvmType}
      (h : FoundAt formalInner actual name t) : FoundAt (.wildcardBound c formalInner) actual name t
  | arg {formalName actualName : String} {formalArgs actualArgs : List JvmType} {p : JvmType × JvmType} {name : String}
      {t : JvmType} (hp : p ∈ formalArgs.zip actualArgs) (h : FoundAt p.1 p.2 name t) :
      FoundAt (.object formalName formalArgs) (.object actualName actualArgs) name t

/-- A method type variable occurs in one of the formal types, with a type at that place. -/
def Found (methodTypeParams : List String) (pairs : List (JvmType × JvmType)) (name : String) (t : JvmType) : Prop :=
  name ∈ methodTypeParams ∧ ∃ p ∈ pairs, FoundAt p.1 p.2 name t

/-- The one value that a key has. -/
def Agreed {κ β : Type} (found : κ → β → Prop) (k : κ) (v : β) : Prop :=
  found k v ∧ ∀ w, found k w → w = v

/-! ## What the state says -/

namespace BindingState

/-- The state says which types were found. -/
structure Reflects (s : BindingState) (found : String → JvmType → Prop) : Prop where
  bound : ∀ name t, s.bindings.lookup name = some t → found name t
  known : ∀ name t, found name t → ∃ u, s.bindings.lookup name = some u ∧ (t = u ∨ name ∈ s.conflicted)
  conflict : ∀ name ∈ s.conflicted, ∃ t u, found name t ∧ found name u ∧ t ≠ u

variable {s : BindingState} {found found' : String → JvmType → Prop}

theorem reflects_start : (start ∅).Reflects fun _ _ => False where
  bound _ _ h := by simp [start] at h
  known _ _ h := h.elim
  conflict _ h := absurd h List.not_mem_nil

theorem Reflects.congr (h : s.Reflects found) (hfound : ∀ name t, found name t ↔ found' name t) :
    s.Reflects found' := by
  have heq : found = found' := by
    funext name t
    exact propext (hfound name t)
  exact heq ▸ h

theorem bindTypeVar_bindings {name : String} {candidate existing : JvmType}
    (h : s.bindings.lookup name = some existing) : (s.bindTypeVar name candidate).bindings = s.bindings := by
  unfold bindTypeVar
  rw [h]
  dsimp only
  split_ifs <;> rfl

theorem mem_conflicted_bindTypeVar {name x : String} {candidate : JvmType} :
    x ∈ (s.bindTypeVar name candidate).conflicted ↔ x ∈ s.conflicted ∨
      x = name ∧ ∃ existing, s.bindings.lookup name = some existing ∧ existing ≠ candidate := by
  unfold bindTypeVar
  split_ifs with hname
  · exact ⟨.inl, fun h => h.elim id fun hx => hx.1 ▸ hname⟩
  · cases hlookup : s.bindings.lookup name with
    | none => simp
    | some existing =>
      dsimp only
      split_ifs with hne
      · simp [hne, or_comm]
      · simp [hne]

theorem Reflects.bindTypeVar (h : s.Reflects found) (name : String) (candidate : JvmType) :
    (s.bindTypeVar name candidate).Reflects fun x t => found x t ∨ x = name ∧ t = candidate := by
  cases hlookup : s.bindings.lookup name with
  | none =>
    -- Nothing was found for the variable yet.
    have hfree : ∀ t, ¬ found name t := by
      intro t hfound
      obtain ⟨u, hu, -⟩ := h.known name t hfound
      rw [hlookup] at hu
      cases hu
    have hclear : name ∉ s.conflicted := by
      intro hname
      obtain ⟨t, -, hfound, -⟩ := h.conflict name hname
      exact hfree t hfound
    have hs : s.bindTypeVar name candidate = { s with bindings := s.bindings.insert name candidate } := by
      unfold BindingState.bindTypeVar
      rw [if_neg hclear, hlookup]
    rw [hs]
    constructor
    · intro x t hx
      by_cases hxn : x = name
      · subst hxn
        rw [AList.lookup_insert] at hx
        exact .inr ⟨rfl, (Option.some.inj hx).symm⟩
      · rw [AList.lookup_insert_ne hxn] at hx
        exact .inl (h.bound x t hx)
    · intro x t hx
      by_cases hxn : x = name
      · subst hxn
        rcases hx with hx | ⟨-, rfl⟩
        · exact absurd hx (hfree t)
        · exact ⟨t, AList.lookup_insert .., .inl rfl⟩
      · obtain ⟨u, hu, hagree⟩ := h.known x t (hx.resolve_right fun hx => hxn hx.1)
        exact ⟨u, (AList.lookup_insert_ne hxn).trans hu, hagree⟩
    · intro x hx
      obtain ⟨t, u, ht, hu, hne⟩ := h.conflict x hx
      exact ⟨t, u, .inl ht, .inl hu, hne⟩
  | some existing =>
    have hbindings := @bindTypeVar_bindings s name candidate existing hlookup
    have hconflicted : ∀ x, x ∈ (s.bindTypeVar name candidate).conflicted ↔
        x ∈ s.conflicted ∨ x = name ∧ existing ≠ candidate := by
      intro x
      rw [mem_conflicted_bindTypeVar, hlookup]
      simp
    constructor
    · intro x t hx
      rw [hbindings] at hx
      exact .inl (h.bound x t hx)
    · intro x t hx
      rw [hbindings, hconflicted]
      rcases hx with hx | ⟨rfl, rfl⟩
      · obtain ⟨u, hu, hagree⟩ := h.known x t hx
        exact ⟨u, hu, hagree.imp_right .inl⟩
      · refine ⟨existing, hlookup, ?_⟩
        by_cases hne : existing = t
        · exact .inl hne.symm
        · exact .inr (.inr ⟨rfl, hne⟩)
    · intro x hx
      rcases (hconflicted x).mp hx with hx | ⟨rfl, hne⟩
      · obtain ⟨t, u, ht, hu, hdiff⟩ := h.conflict x hx
        exact ⟨t, u, .inl ht, .inl hu, hdiff⟩
      · exact ⟨existing, candidate, .inl (h.bound x existing hlookup), .inr ⟨rfl, rfl⟩, hne⟩

/-- What is left when the conflicts are taken out is what was agreed on. -/
theorem Reflects.lookup_settled (h : s.Reflects found) (name : String) (t : JvmType) :
    s.settled.lookup name = some t ↔ Agreed found name t := by
  rw [settled, FiniteMap.lookup_eraseKeys]
  constructor
  · intro ht
    split_ifs at ht with hname
    refine ⟨h.bound name t ht, fun w hw => ?_⟩
    obtain ⟨u, hu, hagree⟩ := h.known name w hw
    rw [ht] at hu
    cases hu
    exact hagree.resolve_right hname
  · rintro ⟨ht, hone⟩
    have hname : name ∉ s.conflicted := by
      intro hname
      obtain ⟨t', u', ht', hu', hne⟩ := h.conflict name hname
      exact hne ((hone t' ht').trans (hone u' hu').symm)
    obtain ⟨u, hu, hagree⟩ := h.known name t ht
    rw [if_neg hname, hu, hagree.resolve_right hname]

/-! ## Runs -/

mutual

theorem Reflects.bindMethodTypeVars (methodTypeParams : List String) :
    ∀ (formal actual : JvmType) {s : BindingState} {found : String → JvmType → Prop}, s.Reflects found →
      (bindMethodTypeVars methodTypeParams formal actual s).Reflects fun x t =>
        found x t ∨ x ∈ methodTypeParams ∧ FoundAt formal actual x t
  | .typeVar name, actual, s, found, h => by
    rw [BindingState.bindMethodTypeVars]
    split_ifs with hname
    · refine (h.bindTypeVar name actual).congr fun x t => or_congr_right ?_
      constructor
      · rintro ⟨rfl, rfl⟩
        exact ⟨hname, .var ..⟩
      · rintro ⟨-, ⟨⟩⟩
        exact ⟨rfl, rfl⟩
    · refine h.congr fun x t => (or_iff_left ?_).symm
      rintro ⟨hx, ⟨⟩⟩
      exact hname hx
  | .array formalInner, actual, s, found, h => by
    cases actual with
    | array actualInner =>
      refine (Reflects.bindMethodTypeVars methodTypeParams formalInner actualInner h).congr fun x t =>
        or_congr_right (and_congr_right fun _ => ⟨.array, fun hfound => ?_⟩)
      cases hfound
      assumption
    | _ =>
      refine h.congr fun x t => (or_iff_left ?_).symm
      rintro ⟨-, ⟨⟩⟩
  | .wildcardBound c formalInner, actual, s, found, h => by
    rw [BindingState.bindMethodTypeVars]
    refine (Reflects.bindMethodTypeVars methodTypeParams formalInner actual h).congr fun x t =>
      or_congr_right (and_congr_right fun _ => ⟨.wildcardBound, fun hfound => ?_⟩)
    cases hfound
    assumption
  | .object formalName formalArgs, actual, s, found, h => by
    cases actual with
    | object actualName actualArgs =>
      refine (Reflects.bindArgTypeVars methodTypeParams formalArgs actualArgs h).congr fun x t =>
        or_congr_right (and_congr_right fun _ => ⟨?_, fun hfound => ?_⟩)
      · rintro ⟨p, hp, hfound⟩
        exact .arg hp hfound
      · cases hfound with
        | arg hp hfound => exact ⟨_, hp, hfound⟩
    | _ =>
      refine h.congr fun x t => (or_iff_left ?_).symm
      rintro ⟨-, ⟨⟩⟩
  | .primitive _, _, s, found, h => by
    refine h.congr fun x t => (or_iff_left ?_).symm
    rintro ⟨-, ⟨⟩⟩
  | .wildcard, _, s, found, h => by
    refine h.congr fun x t => (or_iff_left ?_).symm
    rintro ⟨-, ⟨⟩⟩

theorem Reflects.bindArgTypeVars (methodTypeParams : List String) :
    ∀ (formalArgs actualArgs : List JvmType) {s : BindingState} {found : String → JvmType → Prop}, s.Reflects found →
      (bindArgTypeVars methodTypeParams formalArgs actualArgs s).Reflects fun x t =>
        found x t ∨ x ∈ methodTypeParams ∧ ∃ p ∈ formalArgs.zip actualArgs, FoundAt p.1 p.2 x t
  | [], _, s, found, h => h.congr fun x t => by simp
  | _ :: _, [], s, found, h => h.congr fun x t => by simp
  | formalArg :: formalArgs, actualArg :: actualArgs, s, found, h => by
    rw [BindingState.bindArgTypeVars]
    have hfirst := Reflects.bindMethodTypeVars methodTypeParams formalArg actualArg h
    refine (Reflects.bindArgTypeVars methodTypeParams formalArgs actualArgs hfirst).congr fun x t => ?_
    simp only [List.zip_cons_cons, List.mem_cons, exists_eq_or_imp, and_or_left, or_assoc]

end

/-- One pair after the other. -/
def bindPairs (methodTypeParams : List String) (pairs : List (JvmType × JvmType)) (s : BindingState) : BindingState :=
  pairs.foldl (fun s p => s.bindMethodTypeVars methodTypeParams p.1 p.2) s

theorem Reflects.bindPairs (methodTypeParams : List String) (pairs : List (JvmType × JvmType)) (h : s.Reflects found) :
    (s.bindPairs methodTypeParams pairs).Reflects fun x t => found x t ∨ Found methodTypeParams pairs x t := by
  induction pairs generalizing s found with
  | nil => exact h.congr fun x t => by simp [Found]
  | cons p pairs ih =>
    refine (ih (h.bindMethodTypeVars methodTypeParams p.1 p.2)).congr fun x t => ?_
    simp only [Found, List.mem_cons, exists_eq_or_imp, and_or_left, or_assoc]

/-- One variable after the other. -/
def bindSteps (methodTypeParams : List String) (steps : List (String × JvmType)) (s : BindingState) : BindingState :=
  steps.foldl (fun s p => if p.1 ∈ methodTypeParams then s.bindTypeVar p.1 p.2 else s) s

theorem Reflects.bindSteps (methodTypeParams : List String) (steps : List (String × JvmType)) (h : s.Reflects found) :
    (s.bindSteps methodTypeParams steps).Reflects fun x t =>
      found x t ∨ x ∈ methodTypeParams ∧ (x, t) ∈ steps := by
  induction steps generalizing s found with
  | nil => exact h.congr fun x t => by simp
  | cons p steps ih =>
    obtain ⟨name, candidate⟩ := p
    rw [BindingState.bindSteps, List.foldl_cons]
    split_ifs with hname
    · refine (ih (h.bindTypeVar name candidate)).congr fun x t => ?_
      rw [List.mem_cons, Prod.mk.injEq, and_or_left, or_assoc]
      refine or_congr_right (or_congr_left ⟨fun hx => ⟨hx.1 ▸ hname, hx⟩, And.right⟩)
    · refine (ih h).congr fun x t => ?_
      rw [List.mem_cons, Prod.mk.injEq]
      refine or_congr_right (and_congr_right fun hx => (or_iff_right ?_).symm)
      rintro ⟨rfl, -⟩
      exact hname hx

end BindingState

/-! ## Orders of the visit -/

/-- The pairs of types that are visited below a pair. -/
def innerPairs : JvmType × JvmType → List (JvmType × JvmType)
  | (.array formalInner, .array actualInner) => [(formalInner, actualInner)]
  | (.wildcardBound _ formalInner, actual) => [(formalInner, actual)]
  | (.object _ formalArgs, .object _ actualArgs) => formalArgs.zip actualArgs
  | _ => []

/-- The variables that a visit of some pairs meets, with the types found for them. The pairs that are still to be
visited can be taken in any order. -/
inductive Visited : List (JvmType × JvmType) → List (String × JvmType) → Prop
  | nil : Visited [] []
  | var {name : String} {actual : JvmType} {pairs : List (JvmType × JvmType)} {steps : List (String × JvmType)}
      (h : Visited pairs steps) : Visited ((.typeVar name, actual) :: pairs) ((name, actual) :: steps)
  | inner {p : JvmType × JvmType} {pairs : List (JvmType × JvmType)} {steps : List (String × JvmType)}
      (hp : ∀ name, p.1 ≠ .typeVar name) (h : Visited (innerPairs p ++ pairs) steps) : Visited (p :: pairs) steps
  | reorder {pairs pairs' : List (JvmType × JvmType)} {steps : List (String × JvmType)} (hperm : pairs.Perm pairs')
      (h : Visited pairs steps) : Visited pairs' steps

theorem foundAt_innerPairs {p : JvmType × JvmType} (hp : ∀ name, p.1 ≠ .typeVar name) {name : String} {t : JvmType} :
    FoundAt p.1 p.2 name t ↔ ∃ q ∈ innerPairs p, FoundAt q.1 q.2 name t := by
  obtain ⟨formal, actual⟩ := p
  constructor
  · intro h
    cases h with
    | var => exact absurd rfl (hp _)
    | array h => exact ⟨_, List.mem_singleton_self _, h⟩
    | wildcardBound h => exact ⟨_, List.mem_singleton_self _, h⟩
    | arg hq h => exact ⟨_, hq, h⟩
  · rintro ⟨q, hq, h⟩
    cases formal with
    | typeVar name => exact absurd rfl (hp _)
    | array formalInner =>
      cases actual with
      | array actualInner =>
        obtain rfl := List.mem_singleton.mp hq
        exact .array h
      | _ => exact absurd hq List.not_mem_nil
    | wildcardBound c formalInner =>
      obtain rfl := List.mem_singleton.mp hq
      exact .wildcardBound h
    | object formalName formalArgs =>
      cases actual with
      | object actualName actualArgs => exact .arg hq h
      | _ => exact absurd hq List.not_mem_nil
    | _ => exact absurd hq List.not_mem_nil

theorem Visited.mem_iff {pairs : List (JvmType × JvmType)} {steps : List (String × JvmType)} (h : Visited pairs steps)
    (name : String) (t : JvmType) : (name, t) ∈ steps ↔ ∃ p ∈ pairs, FoundAt p.1 p.2 name t := by
  induction h with
  | nil => simp
  | @var x actual pairs steps h ih =>
    simp only [List.mem_cons, exists_eq_or_imp, ← ih, Prod.mk.injEq]
    refine or_congr_left ?_
    constructor
    · rintro ⟨rfl, rfl⟩
      exact .var ..
    · rintro ⟨⟩
      exact ⟨rfl, rfl⟩
  | inner hp h ih =>
    rw [ih]
    simp only [List.mem_append, or_and_right, exists_or, List.mem_cons, exists_eq_left]
    exact or_congr_left (foundAt_innerPairs hp).symm
  | reorder hperm h ih =>
    rw [ih]
    simp only [hperm.mem_iff]

/-! ## The arguments of a call -/

section Call

variable (view : IndexView) (methodSignature : String) (paramJvmTypes : List JvmType) (receiverInternal : String)
  (selected : MethodSummary) (skipArgIndex : ℕ) (mode : OverloadInvocationMode) (args : CallArgs)

/-- An argument that is neither skipped nor a lambda nor a method reference: the parameter type as the receiver has it,
and the type of the argument. -/
def matchedPair (argIdx : ℕ) : Option (JvmType × JvmType) :=
  let receiver := splitInternalName receiverInternal
  let classTypeParams := ((findDeclaringClassGenericSignature view receiver.1 selected).map
    parseClassTypeParameters).getD []
  if argIdx = skipArgIndex || isFunctionalText (args.texts[argIdx]?.getD "") then none
  else
    (args.types[argIdx]?.filter fun argTy => argTy.kind ≠ .unknown).bind fun argTy =>
      ((mapArgumentIndexToParameter selected argIdx mode paramJvmTypes.length).bind (formalOf paramJvmTypes)).bind
        fun formal => (typeNameToJvmType argTy).map fun actual =>
          (asReceiverParam classTypeParams receiver.2 formal, actual)

def matchedPairs : List (JvmType × JvmType) :=
  (List.range args.count).filterMap (matchedPair view paramJvmTypes receiverInternal selected skipArgIndex mode args)

theorem bindNonLambdaArg_eq (methodTypeParams : List String) (s : BindingState) (argIdx : ℕ) :
    bindNonLambdaArg methodTypeParams paramJvmTypes
      (((findDeclaringClassGenericSignature view (splitInternalName receiverInternal).1 selected).map
        parseClassTypeParameters).getD []) (splitInternalName receiverInternal).2 selected skipArgIndex mode args s
          argIdx =
      s.bindPairs methodTypeParams
        (matchedPair view paramJvmTypes receiverInternal selected skipArgIndex mode args argIdx).toList := by
  rw [bindNonLambdaArg, matchedPair]
  by_cases hskip : argIdx = skipArgIndex
  · simp [hskip, BindingState.bindPairs]
  · by_cases htext : isFunctionalText (args.texts[argIdx]?.getD "") = true
    · simp [htext, BindingState.bindPairs]
    · rw [if_neg hskip, if_neg htext, if_neg (by simp [hskip, htext])]
      cases args.types[argIdx]? with
      | none => rfl
      | some argTy =>
        dsimp only
        rw [Option.filter_some]
        by_cases hunknown : argTy.kind = .unknown
        · rw [if_pos hunknown, if_neg (by simp [hunknown])]
          rfl
        · rw [if_neg hunknown, if_pos (by simp [hunknown]), Option.bind_some]
          cases (mapArgumentIndexToParameter selected argIdx mode paramJvmTypes.length).bind
            (formalOf paramJvmTypes) with
          | none => rfl
          | some formal => cases typeNameToJvmType argTy <;> rfl

theorem foldl_bindNonLambdaArg (methodTypeParams : List String) (argIdxs : List ℕ) (s : BindingState) :
    argIdxs.foldl (bindNonLambdaArg methodTypeParams paramJvmTypes
        (((findDeclaringClassGenericSignature view (splitInternalName receiverInternal).1 selected).map
          parseClassTypeParameters).getD []) (splitInternalName receiverInternal).2 selected skipArgIndex mode args) s =
      s.bindPairs methodTypeParams
        (argIdxs.filterMap (matchedPair view paramJvmTypes receiverInternal selected skipArgIndex mode args)) := by
  induction argIdxs generalizing s with
  | nil => rfl
  | cons argIdx argIdxs ih =>
    rw [List.foldl_cons, ih, bindNonLambdaArg_eq, List.filterMap_cons]
    cases matchedPair view paramJvmTypes receiverInternal selected skipArgIndex mode args argIdx <;> rfl

theorem inferMethodTypeBindingsFromNonLambdaArgs_reflects :
    ∃ s : BindingState, inferMethodTypeBindingsFromNonLambdaArgs view methodSignature paramJvmTypes receiverInternal
        selected skipArgIndex mode args = s.settled ∧
      s.Reflects (Found (parseMethodTypeParameters methodSignature)
        (matchedPairs view paramJvmTypes receiverInternal selected skipArgIndex mode args)) := by
  rw [inferMethodTypeBindingsFromNonLambdaArgs]
  dsimp only
  split_ifs with hnone
  · refine ⟨.start ∅, rfl, BindingState.reflects_start.congr fun x t => ?_⟩
    simp [Found, List.isEmpty_iff.mp hnone]
  · refine ⟨_, rfl, ?_⟩
    rw [foldl_bindNonLambdaArg]
    refine (BindingState.reflects_start.bindPairs (parseMethodTypeParameters methodSignature) _).congr fun x t => ?_
    rw [false_or]
    rfl

end Call

/-- `<T> void m(T first, List<T> rest)` -/
def pairOfT : MethodSummary :=
  ⟨"m", [⟨"Ljava/lang/Object;", "first", []⟩, ⟨"Ljava/util/List;", "rest", []⟩], [], 0, false,
    some "<T:Ljava/lang/Object;>(TT;Ljava/util/List<TT;>;)V", none⟩

def stringType : TypeName :=
  .withKind "java/lang/String" .internal

end JavaAnalyzer.Semantic
