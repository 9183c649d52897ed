import JavaAnalyzer.Index.Metadata
import JavaAnalyzer.Jvm.Descriptor

/-! # Parameter names from the sources

`merge_source_into_bytecode` of `index.rs` gives the classes read from a jar the parameter names of their sources. Only
names and annotations of parameters change, and the origin; the source method that names a bytecode method is the first
one with the same simple parameter types, and when none has them, the first one. -/

namespace JavaAnalyzer.Index
set_option autoImplicit false
open Text Jvm

/-! ## The source -/

def isErasedObjectDescriptor (desc : List Char) : Bool :=
  desc == "Ljava/lang/Object;".toList

/-- `Tname;`, and `Lname;` with up to three capital letters, as the source parser writes type variables. -/
def isTypeVariableDescriptor (desc : List Char) : Bool :=
  if desc.head? == some 'T' && desc.getLast? == some ';' then true
  else if !(desc.head? == some 'L' && desc.getLast? == some ';') then false
  else
    let inner := (desc.drop 1).dropLast
    if inner.contains '/' || inner.contains '.' || inner.contains '$' || inner.isEmpty then false
    else inner.length ≤ 3 && inner.all Char.isUpper

def paramDescriptorCompatibleForNameCarryover (bytecodeDesc sourceDesc : List Char) : Bool :=
  if bytecodeDesc = sourceDesc then true
  else
    match bytecodeDesc, sourceDesc with
    | '[' :: bytecodeDesc, '[' :: sourceDesc => paramDescriptorCompatibleForNameCarryover bytecodeDesc sourceDesc
    | _, _ => isErasedObjectDescriptor bytecodeDesc && isTypeVariableDescriptor sourceDesc

namespace MethodParam

def compatible (a b : MethodParam) : Bool :=
  paramDescriptorCompatibleForNameCarryover a.descriptor.toList b.descriptor.toList

/-- The same parameter under the name of another one. -/
def renamed (a b : MethodParam) : MethodParam :=
  { a with name := b.name, annotations := b.annotations }

/-- What the loop of `expand` makes of one parameter. -/
def carried (a b : MethodParam) : MethodParam :=
  if a.compatible b && !b.name.isEmpty then a.renamed b else a

end MethodParam

def expand (items other : List MethodParam) : List MethodParam :=
  if items.length ≠ other.length then items else List.zipWith MethodParam.carried items other

/-- The class name without its package, behind the brackets of an array. -/
def simpleType (ty : List Char) : List Char :=
  let tyStr := ty.dropWhile (· == '[')
  let simple :=
    if tyStr.head? == some 'L' && tyStr.getLast? == some ';' then afterLast '/' (tyStr.drop 1).dropLast else tyStr
  ty.takeWhile (· == '[') ++ simple

def extractSimpleTypes (desc : String) : List (List Char) :=
  (splitParamDescriptors desc.toList).map simpleType

/-- The source methods with the name and the number of parameters. -/
def nameCandidates (methods : List MethodSummary) (bMethod : MethodSummary) : List MethodSummary :=
  methods.filter fun m => m.name == bMethod.name && m.params.length == bMethod.params.length

def mergeMethod (methods : List MethodSummary) (bMethod : MethodSummary) : MethodSummary :=
  match nameCandidates methods bMethod with
  | [] => bMethod
  | [candidate] => { bMethod with params := expand bMethod.params candidate.params }
  | first :: second :: rest =>
    let bSimple := extractSimpleTypes bMethod.desc
    match (first :: second :: rest).find? fun m => extractSimpleTypes m.desc == bSimple with
    | some best => { bMethod with params := expand bMethod.params best.params }
    | none => { bMethod with params := expand bMethod.params first.params }

def mergeClass (sClass bClass : ClassMetadata) : ClassMetadata :=
  { bClass with origin := sClass.origin, methods := bClass.methods.map (mergeMethod sClass.methods) }

/-- The source class under a name: of several, the last one is in the map. -/
def sourceNamed (source : List ClassMetadata) (internalName : String) : Option ClassMetadata :=
  source.reverse.find? fun c => c.internalName == internalName

/-- The loop over the bytecode classes. The source class that is taken is removed from the map. -/
def mergeSourceIntoBytecode : List ClassMetadata → List ClassMetadata → List ClassMetadata
  | [], _ => []
  | bClass :: bytecode, source =>
    match sourceNamed source bClass.internalName with
    | some sClass =>
      mergeClass sClass bClass ::
        mergeSourceIntoBytecode bytecode (source.filter fun c => c.internalName != bClass.internalName)
    | none => bClass :: mergeSourceIntoBytecode bytecode source

/-! ## What a merge should do -/

/-- The methods' parameter types, with the number of them, fit. -/
def MethodSummary.Compatible (bMethod m : MethodSummary) : Prop :=
  List.Forall₂ (fun a b => a.compatible b = true) bMethod.params m.params

def MethodSummary.SameTypes (bMethod m : MethodSummary) : Prop :=
  m.params.map MethodParam.descriptor = bMethod.params.map MethodParam.descriptor

/-- The parameters under the names of the other method, where it has some. -/
def MethodSummary.named (bMethod m : MethodSummary) : List MethodParam :=
  List.zipWith (fun a b => if b.name.isEmpty then a else a.renamed b) bMethod.params m.params

/-- Only the origin and the names and annotations of parameters differ. -/
structure OnlyNamesChanged (bClass sClass merged : ClassMetadata) : Prop where
  rest : merged = { bClass with origin := sClass.origin, methods := merged.methods }
  methods : List.Forall₂ (fun m m' : MethodSummary => m' = { m with params := m'.params } ∧
    List.Forall₂ (fun a b : MethodParam => b = a.renamed b) m.params m'.params) bClass.methods merged.methods

/-- The names are those of a source method that is compatible in each parameter, and of one with just these parameter
types when there is one. -/
structure NamedRight (methods : List MethodSummary) (bMethod merged : MethodSummary) : Prop where
  compatible : merged.params = bMethod.params ∨
    ∃ m ∈ methods, m.name = bMethod.name ∧ bMethod.Compatible m ∧ merged.params = bMethod.named m
  exact : (∃ m ∈ methods, m.name = bMethod.name ∧ bMethod.SameTypes m) →
    ∃ m ∈ methods, m.name = bMethod.name ∧ bMethod.SameTypes m ∧ merged.params = bMethod.named m

/-- The source class for a bytecode class at a place: the class of its name, for the first one of that name. -/
def sourceClassFor (bytecode source : List ClassMetadata) (i : ℕ) : Option ClassMetadata :=
  bytecode[i]?.bind fun bClass =>
    if (bytecode.take i).any fun c => c.internalName == bClass.internalName then none
    else sourceNamed source bClass.internalName

/-! ## The source method gone by -/

/-- Of the source methods of the name and the number of parameters, the first one with the same simple parameter types,
or the first one where none has them. -/
def GoneBy (methods : List MethodSummary) (bMethod m : MethodSummary) : Prop :=
  ∃ front back, nameCandidates methods bMethod = front ++ m :: back ∧
    (extractSimpleTypes m.desc = extractSimpleTypes bMethod.desc ∧
        (∀ m' ∈ front, extractSimpleTypes m'.desc ≠ extractSimpleTypes bMethod.desc) ∨
      front = [] ∧ ∀ m' ∈ m :: back, extractSimpleTypes m'.desc ≠ extractSimpleTypes bMethod.desc)

/-- Where the method fits and has a name, the bytecode has it already. -/
def MethodSummary.GivesNothing (bMethod m : MethodSummary) : Prop :=
  ∀ pair ∈ bMethod.params.zip m.params,
    pair.1.compatible pair.2 = true → pair.2.name ≠ "" → pair.1.renamed pair.2 = pair.1

/-- The names that the method gives where it fits are those of the other one. -/
def MethodSummary.GivesAs (bMethod m other : MethodSummary) : Prop :=
  List.zipWith MethodParam.carried bMethod.params m.params = bMethod.named other

/-- The method is compatible throughout and has just the parameter types when a method has them, but for names that
happen to be there already or that another method gives as well. -/
structure NamesFit (methods : List MethodSummary) (bMethod m : MethodSummary) : Prop where
  compatible : bMethod.Compatible m ∨ bMethod.GivesNothing m ∨
    ∃ other ∈ methods, other.name = bMethod.name ∧ bMethod.Compatible other ∧ bMethod.GivesAs m other
  exact : bMethod.SameTypes m ∨ (∀ other ∈ methods, other.name = bMethod.name → ¬bMethod.SameTypes other) ∨
    ∃ other ∈ methods, other.name = bMethod.name ∧ bMethod.SameTypes other ∧ bMethod.GivesAs m other

section Methods

variable {methods : List MethodSummary} {bMethod m : MethodSummary}

theorem mem_nameCandidates :
    m ∈ nameCandidates methods bMethod ↔
      m ∈ methods ∧ m.name = bMethod.name ∧ m.params.length = bMethod.params.length := by
  simp [nameCandidates]

theorem GoneBy.mem (h : GoneBy methods bMethod m) : m ∈ nameCandidates methods bMethod := by
  obtain ⟨front, back, hcandidates, -⟩ := h
  rw [hcandidates]
  exact List.mem_append_right _ List.mem_cons_self

theorem exists_goneBy (h : nameCandidates methods bMethod ≠ []) : ∃ m, GoneBy methods bMethod m := by
  cases hfind : (nameCandidates methods bMethod).find?
      fun m => extractSimpleTypes m.desc == extractSimpleTypes bMethod.desc with
  | some m =>
    obtain ⟨hm, front, back, hcandidates, hfront⟩ := List.find?_eq_some_iff_append.mp hfind
    exact ⟨m, front, back, hcandidates, Or.inl ⟨beq_iff_eq.mp hm, fun m' hm' => by simpa using hfront m' hm'⟩⟩
  | none =>
    obtain ⟨m, back, hcandidates⟩ := List.exists_cons_of_ne_nil h
    refine ⟨m, [], back, hcandidates, Or.inr ⟨rfl, fun m' hm' => ?_⟩⟩
    rw [← hcandidates] at hm'
    simpa using List.find?_eq_none.mp hfind m' hm'

theorem find?_goneBy (h : GoneBy methods bMethod m) :
    let bSimple := extractSimpleTypes bMethod.desc
    (nameCandidates methods bMethod).find? (fun m => extractSimpleTypes m.desc == bSimple) = some m ∨
      (nameCandidates methods bMethod).find? (fun m => extractSimpleTypes m.desc == bSimple) = none ∧
        (nameCandidates methods bMethod).head? = some m := by
  obtain ⟨front, back, hcandidates, ⟨hm, hfront⟩ | ⟨rfl, hnone⟩⟩ := h
  · left
    refine List.find?_eq_some_iff_append.mpr ⟨beq_iff_eq.mpr hm, front, back, hcandidates, fun m' hm' => ?_⟩
    simpa using hfront m' hm'
  · right
    rw [hcandidates]
    exact ⟨List.find?_eq_none.mpr fun m' hm' => by simpa using hnone m' hm', rfl⟩

/-- The names come from the method gone by. -/
theorem mergeMethod_goneBy (h : GoneBy methods bMethod m) :
    mergeMethod methods bMethod = { bMethod with params := expand bMethod.params m.params } := by
  have hmem := h.mem
  have hfind := find?_goneBy h
  rw [mergeMethod]
  split
  · rename_i hnil
    rw [hnil] at hmem
    exact absurd hmem List.not_mem_nil
  · rename_i candidate hone
    rw [hone] at hmem
    rw [List.mem_singleton.mp hmem]
  · rename_i first second rest hmany
    rw [hmany] at hfind
    rcases hfind with hsome | ⟨hnone, hhead⟩
    · dsimp only
      rw [hsome]
    · obtain rfl := Option.some.inj hhead
      dsimp only
      rw [hnone]

theorem mergeMethod_none (h : nameCandidates methods bMethod = []) : mergeMethod methods bMethod = bMethod := by
  rw [mergeMethod, h]

theorem compatible_self (desc : List Char) : paramDescriptorCompatibleForNameCarryover desc desc = true := by
  unfold paramDescriptorCompatibleForNameCarryover
  exact if_pos rfl

theorem MethodSummary.SameTypes.compatible (h : bMethod.SameTypes m) : bMethod.Compatible m := by
  have hall : ∀ params params' : List MethodParam,
      params'.map MethodParam.descriptor = params.map MethodParam.descriptor →
        List.Forall₂ (fun a b => a.compatible b = true) params params' := by
    intro params
    induction params with
    | nil =>
      intro params' h
      rw [List.map_eq_nil_iff.mp h]
      exact List.Forall₂.nil
    | cons a params ih =>
      intro params' h
      cases params' with
      | nil => cases h
      | cons b params' =>
        obtain ⟨hdesc, hrest⟩ := List.cons.inj h
        refine List.Forall₂.cons ?_ (ih params' hrest)
        rw [MethodParam.compatible, hdesc]
        exact compatible_self _
  exact hall _ _ h

/-- The source methods that a bytecode method may have its names from are all candidates. -/
theorem Compatible.candidate (hm : m ∈ methods) (hname : m.name = bMethod.name) (h : bMethod.Compatible m) :
    m ∈ nameCandidates methods bMethod :=
  mem_nameCandidates.mpr ⟨hm, hname, h.length_eq.symm⟩

theorem carried_eq_self_iff {a b : MethodParam} :
    a.carried b = a ↔ (a.compatible b = true → b.name ≠ "" → a.renamed b = a) := by
  rw [MethodParam.carried]
  split_ifs with h
  · obtain ⟨hcompatible, hname⟩ := (Bool.and_eq_true _ _).mp h
    have hne : b.name ≠ "" := by simpa using hname
    exact ⟨fun heq _ _ => heq, fun hall => hall hcompatible hne⟩
  · refine iff_of_true rfl fun hcompatible hname => absurd ?_ h
    simp [hcompatible, hname]

theorem givesNothing_iff (hlen : m.params.length = bMethod.params.length) :
    List.zipWith MethodParam.carried bMethod.params m.params = bMethod.params ↔ bMethod.GivesNothing m := by
  have hall : ∀ params params' : List MethodParam, params'.length = params.length →
      (List.zipWith MethodParam.carried params params' = params ↔
        ∀ pair ∈ params.zip params',
          pair.1.compatible pair.2 = true → pair.2.name ≠ "" → pair.1.renamed pair.2 = pair.1) := by
    intro params
    induction params with
    | nil => simp
    | cons a params ih =>
      intro params' hlen
      cases params' with
      | nil => cases hlen
      | cons b params' =>
        rw [List.zipWith_cons_cons, List.zip_cons_cons, List.forall_mem_cons, List.cons.injEq, carried_eq_self_iff,
          ih params' (by simpa using hlen)]
  exact hall _ _ hlen

/-- A method that is compatible throughout gives all its names. -/
theorem MethodSummary.Compatible.givesAs (h : bMethod.Compatible m) : bMethod.GivesAs m m := by
  have hall : ∀ {params params' : List MethodParam}, List.Forall₂ (fun a b => a.compatible b = true) params params' →
      List.zipWith MethodParam.carried params params' =
        List.zipWith (fun a b => if b.name.isEmpty then a else a.renamed b) params params' := by
    intro params params' hparams
    induction hparams with
    | nil => rfl
    | @cons a b params params' hcompatible _ ih =>
      rw [List.zipWith_cons_cons, List.zipWith_cons_cons, ih, MethodParam.carried, hcompatible, Bool.true_and]
      cases b.name.isEmpty <;> rfl
  exact hall h

theorem namedRight_iff :
    NamedRight methods bMethod (mergeMethod methods bMethod) ↔
      ∀ m, GoneBy methods bMethod m → NamesFit methods bMethod m := by
  by_cases hcandidates : nameCandidates methods bMethod = []
  · refine iff_of_true ⟨Or.inl (by rw [mergeMethod_none hcandidates]), ?_⟩ fun m hm => ?_
    · rintro ⟨m, hm, hname, htypes⟩
      have hcandidate := Compatible.candidate hm hname htypes.compatible
      rw [hcandidates] at hcandidate
      exact absurd hcandidate List.not_mem_nil
    · have hmem := hm.mem
      rw [hcandidates] at hmem
      exact absurd hmem List.not_mem_nil
  · have hparams : ∀ m, GoneBy methods bMethod m →
        (mergeMethod methods bMethod).params = List.zipWith MethodParam.carried bMethod.params m.params := by
      intro m hm
      have hlen := (mem_nameCandidates.mp hm.mem).2.2
      rw [mergeMethod_goneBy hm, expand, if_neg (by simpa using hlen.symm)]
    constructor
    · rintro ⟨hcompatible, hexact⟩ m hm
      rw [hparams m hm, givesNothing_iff (mem_nameCandidates.mp hm.mem).2.2] at hcompatible
      rw [hparams m hm] at hexact
      refine ⟨Or.inr hcompatible, Or.inr ?_⟩
      by_cases htypes : ∃ other ∈ methods, other.name = bMethod.name ∧ bMethod.SameTypes other
      · exact Or.inr (hexact htypes)
      · exact Or.inl fun other hother hname hsame => htypes ⟨other, hother, hname, hsame⟩
    · intro h
      obtain ⟨m, hm⟩ := exists_goneBy hcandidates
      obtain ⟨hmem, hname, hlen⟩ := mem_nameCandidates.mp hm.mem
      obtain ⟨hcompatible, hexact⟩ := h m hm
      refine ⟨?_, fun htypes => ?_⟩
      · rw [hparams m hm, givesNothing_iff hlen]
        rcases hcompatible with hthis | hother
        · exact Or.inr ⟨m, hmem, hname, hthis, hthis.givesAs⟩
        · exact hother
      · rw [hparams m hm]
        rcases hexact with hthis | hnone | hother
        · exact ⟨m, hmem, hname, hthis, hthis.compatible.givesAs⟩
        · obtain ⟨other, hother, hothername, hsame⟩ := htypes
          exact absurd hsame (hnone other hother hothername)
        · exact hother

end Methods

/-! ## The classes -/

section Classes

variable {methods : List MethodSummary} {bMethod m : MethodSummary}

theorem renamed_carried (a b : MethodParam) : a.carried b = a.renamed (a.carried b) := by
  rw [MethodParam.carried]
  split_ifs <;> rfl

theorem expand_renamed (items other : List MethodParam) :
    List.Forall₂ (fun a b : MethodParam => b = a.renamed b) items (expand items other) := by
  rw [expand]
  split_ifs with hlen
  · exact List.forall₂_same.mpr fun a _ => rfl
  · have hall : ∀ items other : List MethodParam, items.length = other.length →
        List.Forall₂ (fun a b : MethodParam => b = a.renamed b) items
          (List.zipWith MethodParam.carried items other) := by
      intro items
      induction items with
      | nil => exact fun _ _ => List.Forall₂.nil
      | cons a items ih =>
        intro other hlen
        cases other with
        | nil => cases hlen
        | cons b other => exact List.Forall₂.cons (renamed_carried a b) (ih other (by simpa using hlen))
    exact hall items other (not_not.mp hlen)

theorem mergeMethod_renamed (methods : List MethodSummary) (bMethod : MethodSummary) :
    mergeMethod methods bMethod = { bMethod with params := (mergeMethod methods bMethod).params } ∧
      List.Forall₂ (fun a b : MethodParam => b = a.renamed b) bMethod.params (mergeMethod methods bMethod).params := by
  by_cases hcandidates : nameCandidates methods bMethod = []
  · rw [mergeMethod_none hcandidates]
    exact ⟨rfl, List.forall₂_same.mpr fun a _ => rfl⟩
  · obtain ⟨m, hm⟩ := exists_goneBy hcandidates
    rw [mergeMethod_goneBy hm]
    exact ⟨rfl, expand_renamed _ _⟩

theorem mergeClass_onlyNames (sClass bClass : ClassMetadata) :
    OnlyNamesChanged bClass sClass (mergeClass sClass bClass) where
  rest := rfl
  methods := List.forall₂_map_right_iff.mpr (List.forall₂_same.mpr fun m _ => mergeMethod_renamed sClass.methods m)

theorem sourceNamed_filter (source : List ClassMetadata) (taken internalName : String) :
    sourceNamed (source.filter fun c => c.internalName != taken) internalName =
      if taken == internalName then none else sourceNamed source internalName := by
  rw [sourceNamed, ← List.filter_reverse, List.find?_filter, sourceNamed]
  split_ifs with h
  · rw [List.find?_eq_none]
    intro c _
    simp [beq_iff_eq.mp h]
  · congr 1
    funext c
    by_cases hc : c.internalName = internalName
    · have hne : internalName ≠ taken := fun heq => h (beq_iff_eq.mpr heq.symm)
      simp [hc, hne]
    · simp [beq_eq_false_iff_ne.mpr hc]

theorem sourceNamed_filter_none {source : List ClassMetadata} {taken : String} (h : sourceNamed source taken = none) :
    source.filter (fun c => c.internalName != taken) = source := by
  refine List.filter_eq_self.mpr fun c hc => ?_
  simpa using List.find?_eq_none.mp h c (List.mem_reverse.mpr hc)

theorem merge_cons (bClass : ClassMetadata) (bytecode source : List ClassMetadata) :
    mergeSourceIntoBytecode (bClass :: bytecode) source =
      (sourceNamed source bClass.internalName).elim bClass (fun sClass => mergeClass sClass bClass) ::
        mergeSourceIntoBytecode bytecode (source.filter fun c => c.internalName != bClass.internalName) := by
  rw [mergeSourceIntoBytecode]
  cases hnamed : sourceNamed source bClass.internalName with
  | some sClass => rfl
  | none => rw [sourceNamed_filter_none hnamed, Option.elim_none]

theorem sourceClassFor_cons (bClass : ClassMetadata) (bytecode source : List ClassMetadata) (i : ℕ) :
    sourceClassFor (bClass :: bytecode) source (i + 1) =
      sourceClassFor bytecode (source.filter fun c => c.internalName != bClass.internalName) i := by
  rw [sourceClassFor, sourceClassFor, List.getElem?_cons_succ]
  congr 1
  funext c
  rw [List.take_succ_cons, List.any_cons, sourceNamed_filter]
  cases bClass.internalName == c.internalName <;> simp

/-- Each class is merged with the source class for it. -/
theorem getElem?_merge (bytecode source : List ClassMetadata) (i : ℕ) :
    (mergeSourceIntoBytecode bytecode source)[i]? = bytecode[i]?.map fun bClass =>
      (sourceClassFor bytecode source i).elim bClass fun sClass => mergeClass sClass bClass := by
  induction bytecode generalizing source i with
  | nil => rfl
  | cons bClass bytecode ih =>
    rw [merge_cons]
    cases i with
    | zero => simp [sourceClassFor]
    | succ i => rw [List.getElem?_cons_succ, List.getElem?_cons_succ, ih, sourceClassFor_cons]

theorem length_merge (bytecode source : List ClassMetadata) :
    (mergeSourceIntoBytecode bytecode source).length = bytecode.length := by
  induction bytecode generalizing source with
  | nil => rfl
  | cons bClass bytecode ih => rw [merge_cons, List.length_cons, List.length_cons, ih]

/-- The merged classes are the bytecode's in their order: one without a source as it was, one with a source with only
its origin and the parameters' names and annotations changed, and these as they should be. -/
structure MergedRight (bytecode source : List ClassMetadata) : Prop where
  length : (mergeSourceIntoBytecode bytecode source).length = bytecode.length
  without : ∀ (i : ℕ) bClass merged, bytecode[i]? = some bClass →
    (mergeSourceIntoBytecode bytecode source)[i]? = some merged → sourceClassFor bytecode source i = none →
      merged = bClass
  onlyNames : ∀ (i : ℕ) bClass merged sClass, bytecode[i]? = some bClass →
    (mergeSourceIntoBytecode bytecode source)[i]? = some merged → sourceClassFor bytecode source i = some sClass →
      OnlyNamesChanged bClass sClass merged
  named : ∀ (i : ℕ) bClass merged sClass, bytecode[i]? = some bClass →
    (mergeSourceIntoBytecode bytecode source)[i]? = some merged → sourceClassFor bytecode source i = some sClass →
      List.Forall₂ (NamedRight sClass.methods) bClass.methods merged.methods

/-- Only names change, whatever the classes are, and they are right exactly where each method gone by fits. -/
theorem merge_source_into_bytecode_iff (bytecode source : List ClassMetadata) :
    MergedRight bytecode source ↔
      ∀ (i : ℕ) bClass sClass, bytecode[i]? = some bClass → sourceClassFor bytecode source i = some sClass →
        ∀ bMethod ∈ bClass.methods, ∀ m, GoneBy sClass.methods bMethod m → NamesFit sClass.methods bMethod m := by
  have hmerged : ∀ {i : ℕ} {bClass merged : ClassMetadata}, bytecode[i]? = some bClass →
      (mergeSourceIntoBytecode bytecode source)[i]? = some merged →
        merged = (sourceClassFor bytecode source i).elim bClass fun sClass => mergeClass sClass bClass := by
    intro i bClass merged hb hm
    rw [getElem?_merge, hb] at hm
    exact (Option.some.inj hm).symm
  have hmethods : ∀ sClass bClass : ClassMetadata,
      List.Forall₂ (NamedRight sClass.methods) bClass.methods (mergeClass sClass bClass).methods ↔
        ∀ bMethod ∈ bClass.methods, ∀ m, GoneBy sClass.methods bMethod m → NamesFit sClass.methods bMethod m := by
    intro sClass bClass
    rw [mergeClass, List.forall₂_map_right_iff, List.forall₂_same]
    exact forall₂_congr fun bMethod _ => namedRight_iff
  constructor
  · intro h i bClass sClass hb hs
    have hm : (mergeSourceIntoBytecode bytecode source)[i]? = some (mergeClass sClass bClass) := by
      rw [getElem?_merge, hb, hs]
      rfl
    exact (hmethods sClass bClass).mp (h.named i bClass _ sClass hb hm hs)
  · intro h
    refine ⟨?_, ?_, ?_, ?_⟩
    · exact length_merge bytecode source
    · intro i bClass merged hb hm hs
      rw [hmerged hb hm, hs, Option.elim_none]
    · intro i bClass merged sClass hb hm hs
      rw [hmerged hb hm, hs, Option.elim_some]
      exact mergeClass_onlyNames sClass bClass
    · intro i bClass merged sClass hb hm hs
      rw [hmerged hb hm, hs, Option.elim_some]
      exact (hmethods sClass bClass).mpr (h i bClass sClass hb hs)

end Classes

def sampleMethod (params : List (String × String)) : MethodSummary where
  name := "put"
  params := params.map fun p => { descriptor := p.1, name := p.2, annotations := [] }
  annotations := []
  accessFlags := 1
  isSynthetic := false
  genericSignature := none
  returnType := none

def boxBytecode : ClassMetadata :=
  { ClassMetadata.bare none "Box" "Box" none .unknown with
    methods := [sampleMethod [("Ljava/lang/Object;", ""), ("I", "")]] }

/-- `put(E a, long b)` and `put(E x, int y)` -/
def boxSource : ClassMetadata :=
  { boxBytecode with methods := [sampleMethod [("LE;", "a"), ("J", "b")], sampleMethod [("LE;", "x"), ("I", "y")]] }

/-- The first of the overloads names one parameter, though only the second one is compatible. -/
theorem first_overload_names : ¬MergedRight [boxBytecode] [boxSource] := by
  intro h
  have hnamed := h.named 0 boxBytecode _ boxSource rfl rfl rfl
  obtain ⟨hright, -⟩ := List.forall₂_cons.mp hnamed
  rcases hright.compatible with hkept | ⟨m, hm, -, hcompatible, hparams⟩
  · exact absurd hkept (by decide)
  · rcases List.mem_cons.mp hm with rfl | hm
    · obtain ⟨-, hrest⟩ := List.forall₂_cons.mp hcompatible
      exact absurd (List.forall₂_cons.mp hrest).1 (by decide)
    · obtain rfl := List.mem_singleton.mp hm
      exact absurd hparams (by decide)

end JavaAnalyzer.Index
