import JavaAnalyzer.Index.Hierarchy
import JavaAnalyzer.Semantic.Generics

/-! # Type arguments along an inheritance path

What the language says about inherited members: a class hands type arguments to each of its generic
supertypes, and a member belongs to the receiver type with the arguments its declaring class receives
on the way. `unchanged_args`: these are the receiver's own arguments when no class on the way changes
them. -/

namespace JavaAnalyzer.Semantic
set_option autoImplicit false
open Index

def classTypeParameters (c : ClassMetadata) : List String :=
  (c.genericSignature.map parseClassTypeParameters).getD []

/-- The supertypes of a class with their arguments, the superclass first. -/
def superTypes (c : ClassMetadata) : List JvmType :=
  match c.genericSignature with
  | none => (c.superName.toList ++ c.interfaces).map fun n => .object n []
  | some sig =>
    match typeParameterPrefix sig.toList with
    | some (_, rest) => (JvmType.parseMany rest).1
    | none => (JvmType.parseMany sig.toList).1

abbrev ClassType := String × List JvmType

/-- The arguments that a class with `args` for its parameters passes on. -/
def passOn (typeParams : List String) (args superArgs : List JvmType) : List JvmType :=
  superArgs.map (JvmType.inst (JvmType.argOf typeParams args))

/-- A supertype as the class with `args` inherits it. -/
def asSuper (typeParams : List String) (args : List JvmType) : JvmType → Option ClassType
  | .object super superArgs => some (super, passOn typeParams args superArgs)
  | _ => none

/-- The supertypes of a class type that has an argument for every parameter. -/
def superClassTypes (view : IndexView) (t : ClassType) : List ClassType :=
  match view.getClass t.1 with
  | none => []
  | some c =>
    if t.2.length = (classTypeParameters c).length then
      (superTypes c).filterMap (asSuper (classTypeParameters c) t.2)
    else []

/-- The type of a supertype as the receiver inherits it, along some path. -/
def InheritsAs (view : IndexView) : ClassType → ClassType → Prop :=
  Relation.ReflTransGen fun sub sup => sup ∈ superClassTypes view sub

theorem InheritsAs.cases_head {view : IndexView} {sub sup : ClassType}
    (h : InheritsAs view sub sup) :
    sub = sup ∨ ∃ next ∈ superClassTypes view sub, InheritsAs view next sup :=
  Relation.ReflTransGen.cases_head h

/-! ## Paths that change nothing -/

/-- A class whose parameters are distinct passes its own arguments on when it lists its parameters. -/
theorem passOn_typeVars {typeParams : List String} {args : List JvmType}
    (hnodup : typeParams.Nodup) (hlen : args.length = typeParams.length) :
    passOn typeParams args (typeParams.map .typeVar) = args := by
  rw [passOn, List.map_map]
  apply List.ext_getElem
  · rw [List.length_map, hlen]
  · intro i hi hargs
    have hi' : i < typeParams.length := by simpa using hi
    have hpos : typeParams.idxOf? typeParams[i] = some i := by
      rw [List.idxOf?_eq_some_iff]
      exact ⟨hi', rfl, fun j hj h => absurd ((hnodup.getElem_inj_iff).mp h) (by omega)⟩
    simp [JvmType.argOf, hpos, List.getElem?_eq_getElem hargs]

/-- A step on which the class passes its parameters on as they are. -/
structure UnchangedStep (view : IndexView) (sub sup : ClassType) : Prop where
  passed : ∃ c, view.getClass sub.1 = some c ∧ (classTypeParameters c).Nodup ∧
    sub.2.length = (classTypeParameters c).length ∧
    .object sup.1 ((classTypeParameters c).map .typeVar) ∈ superTypes c ∧
    sup.2 = passOn (classTypeParameters c) sub.2 ((classTypeParameters c).map .typeVar)

theorem UnchangedStep.mem_superClassTypes {view : IndexView} {sub sup : ClassType}
    (h : UnchangedStep view sub sup) : sup ∈ superClassTypes view sub := by
  obtain ⟨c, hc, -, hlen, hmem, hargs⟩ := h.passed
  rw [superClassTypes, hc]
  simp only [if_pos hlen, List.mem_filterMap]
  exact ⟨_, hmem, by rw [asSuper, ← hargs]⟩

theorem UnchangedStep.args_eq {view : IndexView} {sub sup : ClassType}
    (h : UnchangedStep view sub sup) : sup.2 = sub.2 := by
  obtain ⟨c, -, hnodup, hlen, -, hargs⟩ := h.passed
  rw [hargs, passOn_typeVars hnodup hlen]

/-- Along a path of such steps the declaring class receives the receiver's own arguments. -/
theorem unchanged_args {view : IndexView} {sub sup : ClassType}
    (h : Relation.ReflTransGen (UnchangedStep view) sub sup) :
    InheritsAs view sub sup ∧ sup.2 = sub.2 := by
  induction h with
  | refl => exact ⟨.refl, rfl⟩
  | tail _ hstep ih => exact ⟨ih.1.tail hstep.mem_superClassTypes, hstep.args_eq.trans ih.2⟩

end JavaAnalyzer.Semantic
