import JavaAnalyzer.Index.SimpleNameSearch
import JavaAnalyzer.Library.LinkWalk
import JavaAnalyzer.Library.Text

/-! # Enclosing owners

`resolve_enclosing_owner_internal` of `semantic/enclosing.rs`: the innermost class around a place that has a simple
name. The classes of the file are asked first, then the class that the index has for the place and its owners. The
walk over the owners may not end, so it has fuel and gives nothing when that does not do. -/

namespace JavaAnalyzer.Index
set_option autoImplicit false

def IndexView.resolveOwnerClass (view : IndexView) (classInternal : String) : Option ClassMetadata :=
  (view.getClass classInternal).bind fun c => c.innerClassOf.bind view.getClass

theorem IndexView.resolveOwnerClass_finite (view : IndexView) :
    {owner | ∃ c : ClassMetadata, view.resolveOwnerClass c.internalName = some owner}.Finite := by
  refine (List.finite_toSet view.records).subset ?_
  rintro owner ⟨c, howner⟩
  obtain ⟨d, -, howner⟩ := Option.bind_eq_some_iff.mp howner
  obtain ⟨ownerInternal, -, hget⟩ := Option.bind_eq_some_iff.mp howner
  exact (record_of_getClass hget).1

end JavaAnalyzer.Index

namespace JavaAnalyzer.Semantic
open Index LinkWalk Text

/-! ## The resolver -/

/-- The internal name of the last of the classes that enclose one another. -/
def nestedInternal (enclosingPackage : Option String) (classes : List String) : Option String :=
  let internal :=
    match enclosingPackage with
    | some pkg => if pkg.isEmpty then "" else pkg ++ "/"
    | none => ""
  match classes with
  | [] => none
  | first :: segments => some (segments.foldl (fun internal segment => internal ++ "$" ++ segment) (internal ++ first))

def resolveOwnerFromChain (enclosingPackage : Option String) (enclosingClassChain : List String)
    (simpleName : String) : Option String :=
  (enclosingClassChain.zipIdx.reverse.find? fun p => p.1 == simpleName).bind fun target =>
    nestedInternal enclosingPackage (enclosingClassChain.take (target.2 + 1))

def resolveOwnerFromIndex (fuel : ℕ) (view : Option IndexView) (enclosingInternalName : Option String)
    (simpleName : String) : Option (Option String) :=
  match view, enclosingInternalName with
  | some view, some enclosingInternalName =>
    match view.getClass enclosingInternalName with
    | some current =>
      (walk (fun c => view.resolveOwnerClass c.internalName) (fun c => c.matchesSimpleName simpleName) fuel
        current).map (Option.map ClassMetadata.internalName)
    | none => some none
  | _, _ => some none

def resolveEnclosingOwnerInternal (fuel : ℕ) (view : Option IndexView) (enclosingInternalName : Option String)
    (enclosingPackage : Option String) (enclosingClassChain : List String) (simpleName : String) :
    Option (Option String) :=
  let simpleName := String.ofList (trim simpleName.toList)
  if simpleName.isEmpty then some none
  else
    match resolveOwnerFromChain enclosingPackage enclosingClassChain simpleName with
    | some internal => some (some internal)
    | none => resolveOwnerFromIndex fuel view enclosingInternalName simpleName

/-! ## The innermost owner -/

section Innermost

variable (view : Option IndexView) (enclosingInternalName : Option String) (enclosingPackage : Option String)
  (enclosingClassChain : List String) (simpleName : String)

/-- The innermost class of the file with the name. -/
def LexicalOwner (internal : String) : Prop :=
  ∃ outer inner, enclosingClassChain = outer ++ simpleName :: inner ∧ simpleName ∉ inner ∧
    nestedInternal enclosingPackage (outer ++ [simpleName]) = some internal

/-- The class that the index has for the place. -/
def Encloses (v : IndexView) (c : ClassMetadata) : Prop :=
  view = some v ∧ ∃ name, enclosingInternalName = some name ∧ v.getClass name = some c

/-- The innermost class with the name along the owners that the index knows. -/
def IndexedOwner (result : Option String) : Prop :=
  (∀ v c, ¬ Encloses view enclosingInternalName v c) ∧ result = none ∨
    ∃ v c found, Encloses view enclosingInternalName v c ∧
      FirstFound (fun d => v.resolveOwnerClass d.internalName) (fun d => d.matchesSimpleName simpleName) c found ∧
      result = found.map ClassMetadata.internalName

/-- The innermost class with the name, those of the file first. -/
def InnermostOwner (result : Option String) : Prop :=
  if simpleName = "" then result = none
  else if simpleName ∈ enclosingClassChain then
    ∃ internal, result = some internal ∧ LexicalOwner enclosingPackage enclosingClassChain simpleName internal
  else IndexedOwner view enclosingInternalName simpleName result

/-- Before a class with the name is found, the owners come back to a class. -/
def OwnersComeBack : Prop :=
  ∃ v c, Encloses view enclosingInternalName v c ∧
    ComesBack (fun d => v.resolveOwnerClass d.internalName) (fun d => d.matchesSimpleName simpleName) c

end Innermost

/-! ## The classes of the file -/

theorem exists_nestedInternal (enclosingPackage : Option String) (outer : List String) (simpleName : String) :
    ∃ internal, nestedInternal enclosingPackage (outer ++ [simpleName]) = some internal := by
  cases outer with
  | nil => exact ⟨_, rfl⟩
  | cons first outer => exact ⟨_, rfl⟩

theorem exists_innermost {chain : List String} {simpleName : String} (h : simpleName ∈ chain) :
    ∃ outer inner, chain = outer ++ simpleName :: inner ∧ simpleName ∉ inner := by
  obtain ⟨inner, outer, hreverse, hinner⟩ := List.eq_append_cons_of_mem (List.mem_reverse.mpr h)
  refine ⟨outer.reverse, inner.reverse, ?_, mt List.mem_reverse.mp hinner⟩
  rw [List.reverse_eq_iff.mp hreverse]
  simp

theorem resolveOwnerFromChain_innermost (enclosingPackage : Option String) {outer inner : List String}
    {simpleName : String} (h : simpleName ∉ inner) :
    resolveOwnerFromChain enclosingPackage (outer ++ simpleName :: inner) simpleName =
      nestedInternal enclosingPackage (outer ++ [simpleName]) := by
  have hinner : ((inner.zipIdx (outer.length + 1)).reverse.find? fun p => p.1 == simpleName) = none := by
    rw [List.find?_eq_none]
    intro p hp hname
    have hmem := List.mem_map_of_mem (f := Prod.fst) (List.mem_reverse.mp hp)
    rw [List.zipIdx_map_fst, beq_iff_eq.mp hname] at hmem
    exact h hmem
  have htarget : ((outer ++ simpleName :: inner).zipIdx.reverse.find? fun p => p.1 == simpleName) =
      some (simpleName, outer.length) := by
    rw [List.zipIdx_append, List.zipIdx_cons, List.reverse_append, List.reverse_cons, Nat.zero_add, List.find?_append,
      List.find?_append, hinner]
    simp
  rw [resolveOwnerFromChain, htarget, Option.bind_some, List.append_cons, List.take_left' (by simp)]

theorem resolveOwnerFromChain_none (enclosingPackage : Option String) {chain : List String} {simpleName : String}
    (h : simpleName ∉ chain) : resolveOwnerFromChain enclosingPackage chain simpleName = none := by
  rw [resolveOwnerFromChain, Option.bind_eq_none_iff]
  intro target htarget
  have hname := List.find?_some htarget
  have hmem := List.mem_map_of_mem (f := Prod.fst) (List.mem_reverse.mp (List.mem_of_find?_eq_some htarget))
  rw [List.zipIdx_map_fst, beq_iff_eq.mp hname] at hmem
  exact absurd hmem h

/-! ## The owners in the index -/

section Owners

variable {view : Option IndexView} {enclosingInternalName : Option String} {simpleName : String}

theorem Encloses.unique {v w : IndexView} {c d : ClassMetadata} (hc : Encloses view enclosingInternalName v c)
    (hd : Encloses view enclosingInternalName w d) : v = w ∧ c = d := by
  obtain ⟨rfl, name, rfl, hget⟩ := hc
  obtain ⟨hw, other, hother, hget'⟩ := hd
  obtain rfl := Option.some.inj hw
  obtain rfl := Option.some.inj hother
  exact ⟨rfl, Option.some.inj (hget.symm.trans hget')⟩

theorem resolveOwnerFromIndex_encloses {v : IndexView} {c : ClassMetadata}
    (h : Encloses view enclosingInternalName v c) (fuel : ℕ) :
    resolveOwnerFromIndex fuel view enclosingInternalName simpleName =
      (walk (fun d => v.resolveOwnerClass d.internalName) (fun d => d.matchesSimpleName simpleName) fuel c).map
        (Option.map ClassMetadata.internalName) := by
  obtain ⟨rfl, name, rfl, hget⟩ := h
  rw [resolveOwnerFromIndex, hget]

theorem resolveOwnerFromIndex_outside (h : ∀ v c, ¬ Encloses view enclosingInternalName v c) (fuel : ℕ) :
    resolveOwnerFromIndex fuel view enclosingInternalName simpleName = some none := by
  unfold resolveOwnerFromIndex
  split
  · rename_i v name
    cases hget : v.getClass name with
    | none => rfl
    | some c => exact absurd ⟨rfl, name, rfl, hget⟩ (h v c)
  · rfl

/-- The walk over the owners ends, and then with the innermost one, exactly when the owners do not come back. -/
theorem resolveOwnerFromIndex_iff :
    (∃ fuel result, resolveOwnerFromIndex fuel view enclosingInternalName simpleName = some result ∧
        IndexedOwner view enclosingInternalName simpleName result) ↔
      ¬ OwnersComeBack view enclosingInternalName simpleName := by
  by_cases hinside : ∃ v c, Encloses view enclosingInternalName v c
  · obtain ⟨v, c, hc⟩ := hinside
    have hback : OwnersComeBack view enclosingInternalName simpleName ↔
        ComesBack (fun d => v.resolveOwnerClass d.internalName) (fun d => d.matchesSimpleName simpleName) c := by
      constructor
      · rintro ⟨w, d, hd, hback⟩
        obtain ⟨rfl, rfl⟩ := hc.unique hd
        exact hback
      · exact fun hback => ⟨v, c, hc, hback⟩
    rw [hback, ← exists_walk_iff v.resolveOwnerClass_finite]
    simp only [resolveOwnerFromIndex_encloses hc, Option.map_eq_some_iff]
    constructor
    · rintro ⟨fuel, result, ⟨found, hwalk, -⟩, -⟩
      exact ⟨fuel, found, hwalk⟩
    · rintro ⟨fuel, found, hwalk⟩
      exact ⟨fuel, _, ⟨found, hwalk, rfl⟩, .inr ⟨v, c, found, hc, firstFound_of_walk hwalk, rfl⟩⟩
  · have hnone : ∀ v c, ¬ Encloses view enclosingInternalName v c := fun v c hc => hinside ⟨v, c, hc⟩
    refine iff_of_true ⟨0, none, resolveOwnerFromIndex_outside hnone 0, .inl ⟨hnone, rfl⟩⟩ ?_
    rintro ⟨v, c, hc, -⟩
    exact hnone v c hc

end Owners

/-- Where no class of the file has the name, the index is asked. -/
theorem resolver_asks_index {view : Option IndexView} {enclosingInternalName : Option String} {name : String}
    (enclosingPackage : Option String) {enclosingClassChain : List String} {simpleName : String}
    (hname : String.ofList (trim simpleName.toList) = name) (hempty : name ≠ "") (hchain : name ∉ enclosingClassChain)
    (fuel : ℕ) (result : Option String) :
    (resolveEnclosingOwnerInternal fuel view enclosingInternalName enclosingPackage enclosingClassChain simpleName =
          some result ∧
        InnermostOwner view enclosingInternalName enclosingPackage enclosingClassChain name result) ↔
      resolveOwnerFromIndex fuel view enclosingInternalName name = some result ∧
        IndexedOwner view enclosingInternalName name result := by
  have hsome : name.isEmpty = false := by
    rw [Bool.eq_false_iff, ne_eq, String.isEmpty_iff]
    exact hempty
  simp only [resolveEnclosingOwnerInternal, hname, hsome, Bool.false_eq_true, if_false,
    resolveOwnerFromChain_none enclosingPackage hchain]
  rw [InnermostOwner, if_neg hempty, if_neg hchain]

/-- The resolver ends with the innermost class of the name exactly when the name is empty, the file has a class of that
name, or the owners that the index knows do not come back to a class before one of that name. -/
theorem enclosing_owner_iff (view : Option IndexView) (enclosingInternalName enclosingPackage : Option String)
    (enclosingClassChain : List String) (simpleName : String) :
    (∃ fuel result, resolveEnclosingOwnerInternal fuel view enclosingInternalName enclosingPackage enclosingClassChain
          simpleName = some result ∧
        InnermostOwner view enclosingInternalName enclosingPackage enclosingClassChain
          (String.ofList (trim simpleName.toList)) result) ↔
      String.ofList (trim simpleName.toList) = "" ∨
        String.ofList (trim simpleName.toList) ∈ enclosingClassChain ∨
        ¬ OwnersComeBack view enclosingInternalName (String.ofList (trim simpleName.toList)) := by
  generalize hname : String.ofList (trim simpleName.toList) = name
  by_cases hempty : name = ""
  · refine iff_of_true ⟨0, none, ?_, ?_⟩ (.inl hempty)
    · simp only [resolveEnclosingOwnerInternal, hname, hempty]
      rfl
    · rw [InnermostOwner, if_pos hempty]
  by_cases hchain : name ∈ enclosingClassChain
  · obtain ⟨outer, inner, hsplit, hinner⟩ := exists_innermost hchain
    obtain ⟨internal, hinternal⟩ := exists_nestedInternal enclosingPackage outer name
    refine iff_of_true ⟨0, some internal, ?_, ?_⟩ (.inr (.inl hchain))
    · have hfound := @resolveOwnerFromChain_innermost enclosingPackage outer inner name hinner
      rw [← hsplit, hinternal] at hfound
      simp only [resolveEnclosingOwnerInternal, hname, hfound]
      rw [if_neg (mt String.isEmpty_iff.mp hempty)]
    · rw [InnermostOwner, if_neg hempty, if_pos hchain]
      exact ⟨internal, rfl, outer, inner, hsplit, hinner, hinternal⟩
  · simp only [resolver_asks_index enclosingPackage hname hempty hchain]
    rw [or_iff_right hempty, or_iff_right hchain]
    exact resolveOwnerFromIndex_iff

/-- Two classes that name each other as owners. -/
def cyclicView : IndexView :=
  .new [BucketIndex.new.addClasses [.bare (some "p") "A" "p/B$A" (some "p/A$B") .unknown,
    .bare (some "p") "B" "p/A$B" (some "p/B$A") .unknown]]

/-- For a place in `p/B$A` and the name `C` no fuel is enough. -/
theorem owners_endless : ¬ ∀ (view : Option IndexView) (enclosingInternalName enclosingPackage : Option String)
    (enclosingClassChain : List String) (simpleName : String), ∃ fuel result,
      resolveEnclosingOwnerInternal fuel view enclosingInternalName enclosingPackage enclosingClassChain simpleName =
          some result ∧
        InnermostOwner view enclosingInternalName enclosingPackage enclosingClassChain
          (String.ofList (trim simpleName.toList)) result := by
  intro hall
  have hback : OwnersComeBack (some cyclicView) (some "p/B$A") "C" := by
    refine ⟨cyclicView, .bare (some "p") "A" "p/B$A" (some "p/A$B") .unknown, ⟨rfl, _, rfl, by decide⟩, _, .refl,
      .tail (b := .bare (some "p") "B" "p/A$B" (some "p/B$A") .unknown) (.single ⟨by decide, ?_⟩) ⟨by decide, ?_⟩⟩
    · rw [Link]
      decide
    · rw [Link]
      decide
  obtain ⟨fuel, result, howner⟩ := hall (some cyclicView) (some "p/B$A") none [] "C"
  rw [resolver_asks_index none (by decide) (by decide) List.not_mem_nil] at howner
  exact resolveOwnerFromIndex_iff.mp ⟨fuel, result, howner⟩ hback

end JavaAnalyzer.Semantic
