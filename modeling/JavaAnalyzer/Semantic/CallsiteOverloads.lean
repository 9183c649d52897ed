import JavaAnalyzer.Semantic.OverloadSelection

/-! # Selection at a call site

`select_overload_match_with_callsite` of `semantic/types.rs`. Without functional arguments it is `select_overload_match`.
With lambdas and method references the candidates are ranked by how well these fit, and a tie for the best rank selects
nothing. -/

namespace JavaAnalyzer.Semantic
set_option autoImplicit false
open Index

/-! ## The ranking -/

structure CallsiteOverloadRank where
  exactFunctionalArgs : ℕ
  partialFunctionalArgs : ℕ
  bindingCount : ℕ
deriving DecidableEq

structure CallsiteOverloadMatch where
  overload : OverloadMatch
  rank : CallsiteOverloadRank
deriving DecidableEq

/-- `callsite_overload_sort_key` -/
def CallsiteOverloadMatch.sortKey (m : CallsiteOverloadMatch) : ℕ ×ₗ ℕ ×ₗ ℕ ×ₗ ℕ ×ₗ ℤ :=
  toLex (m.rank.exactFunctionalArgs, toLex (m.rank.partialFunctionalArgs, toLex (m.rank.bindingCount, m.overload.rank)))

inductive FunctionalCompatStatus where
  | exact
  | inPart
  | incompatible
deriving DecidableEq

def functionalArgumentIndexes (argTexts : List String) : List ℕ :=
  (argTexts.zipIdx.filter fun p => isFunctionalText p.1).map Prod.snd

section Callsite

variable (view : IndexView) (evaluateFunctionalArgCompatibility : String → JvmType → FunctionalCompatStatus)
  (receiverInternal : String) (args : CallArgs) (ctx : EvalContext)

def resolveFormalParamJvmForArgument (method : MethodSummary) (paramJvmTypes : List JvmType) (argIndex : ℕ)
    (mode : OverloadInvocationMode) (bindings : Bindings) (classTypeParams : List String) (receiverArgs : List JvmType) :
    Option JvmType :=
  ((mapArgumentIndexToParameter method argIndex mode paramJvmTypes.length).bind (formalOf paramJvmTypes)).map
    -- The source skips this substitution while there are no bindings, when it changes nothing.
    fun formal => substituteTypeVars (asReceiverParam classTypeParams receiverArgs formal) bindings

/-- What the loop over the functional arguments carries. -/
structure FunctionalArgs where
  exact : ℕ
  inPart : ℕ
  state : BindingState

/-- One turn of the loop over the functional arguments. -/
def rankFunctionalArg (method : MethodSummary) (paramJvmTypes : List JvmType) (mode : OverloadInvocationMode)
    (classTypeParams : List String) (receiverArgs : List JvmType) (returnTypeVars : List String)
    (normalizedArgs : List TypeName) (s : FunctionalArgs) (argIndex : ℕ) : Option FunctionalArgs :=
  let argText := args.texts[argIndex]?.getD ""
  (resolveFormalParamJvmForArgument method paramJvmTypes argIndex mode s.state.bindings classTypeParams
    receiverArgs).bind fun formal =>
      let formal := substituteTypeVars formal s.state.bindings
      let counted : Option FunctionalArgs :=
        match evaluateFunctionalArgCompatibility argText formal with
        | .exact => some { s with exact := s.exact + 1 }
        | .inPart => some { s with inPart := s.inPart + 1 }
        | .incompatible => none
      counted.bind fun s =>
        if returnTypeVars.isEmpty then some s
        else
          let state := bindReturnTypeVarFromFunctionalParam formal (some argText) normalizedArgs[argIndex]? ctx
            returnTypeVars s.state
          if state.conflicted.isEmpty then some { s with state } else none

def buildCallsiteOverloadMatch (normalizedArgs : List TypeName) (functionalArgIndexes : List ℕ)
    (m : OverloadMatch) : Option CallsiteOverloadMatch :=
  let sig := m.method.genericSignature.getD m.method.desc
  (parseMethodSignatureTypes sig).bind fun types =>
    let receiver := splitInternalName receiverInternal
    let bindings := inferMethodTypeBindingsFromNonLambdaArgs view sig types.1 receiverInternal m.method usizeMax m.mode
      ⟨args.count, normalizedArgs, args.texts⟩
    let declaring := findDeclaringClassGenericSignature view receiver.1 m.method
    let classTypeParams := (declaring.map parseClassTypeParameters).getD []
    let receiverArgs := (declaring.map fun _ => receiver.2).getD []
    (functionalArgIndexes.foldlM (rankFunctionalArg evaluateFunctionalArgCompatibility args ctx m.method types.1 m.mode
      classTypeParams receiverArgs (collectTypeVars types.2) normalizedArgs) ⟨0, 0, .start bindings⟩).map fun s =>
        ⟨m, s.exact, s.inPart, s.state.bindings.keys.length⟩

/-- The argument types, with unknown ones for the functional arguments. -/
def callsiteArgTypes (functionalArgIndexes : List ℕ) : List TypeName :=
  functionalArgIndexes.foldl (fun types argIndex => types.set argIndex .unknown)
    (normalizeArgTypes args.count args.types)

/-- What is scored for a candidate. -/
def scoredOf (functionalArgIndexes : List ℕ) (method : MethodSummary) : List CallsiteOverloadMatch :=
  let normalizedArgs := callsiteArgTypes args functionalArgIndexes
  (matchesOf normalizedArgs method).filterMap (buildCallsiteOverloadMatch view evaluateFunctionalArgCompatibility
    receiverInternal args ctx normalizedArgs functionalArgIndexes)

/-- The matches are of one method, by name and descriptor, and of one mode. -/
def SameMethod (m other : CallsiteOverloadMatch) : Prop :=
  m.overload.method.name = other.overload.method.name ∧ m.overload.method.desc = other.overload.method.desc ∧
    m.overload.mode = other.overload.mode

instance (m other : CallsiteOverloadMatch) : Decidable (SameMethod m other) :=
  inferInstanceAs (Decidable (_ ∧ _ ∧ _))

/-- The best of the scored matches, if the call is not ambiguous. -/
def bestOfScored (scored : List CallsiteOverloadMatch) : Option OverloadMatch :=
  (BestOf.maxBy CallsiteOverloadMatch.sortKey scored).bind fun best =>
    let isAmbiguous := scored.any (fun candidate => !decide (SameMethod candidate best)) &&
      (scored.filter fun candidate => candidate.sortKey = best.sortKey).length > 1
    if isAmbiguous then none else some best.overload

def selectOverloadMatchWithCallsite (candidates : List MethodSummary) : Option OverloadMatch :=
  let functionalArgIndexes := functionalArgumentIndexes args.texts
  if functionalArgIndexes.isEmpty then selectOverloadMatch candidates args.count args.types
  else bestOfScored (candidates.flatMap (scoredOf view evaluateFunctionalArgCompatibility receiverInternal args ctx
    functionalArgIndexes))

/-- What applies of a candidate, with its rank, which is that of its mode and score where no argument is functional. -/
def rankedOf (method : MethodSummary) : List CallsiteOverloadMatch :=
  let functionalArgIndexes := functionalArgumentIndexes args.texts
  if functionalArgIndexes.isEmpty then
    (matchesOf (normalizeArgTypes args.count args.types) method).map fun m => ⟨m, 0, 0, 0⟩
  else scoredOf view evaluateFunctionalArgCompatibility receiverInternal args ctx functionalArgIndexes method

def rankedMatches (candidates : List MethodSummary) : List CallsiteOverloadMatch :=
  candidates.flatMap (rankedOf view evaluateFunctionalArgCompatibility receiverInternal args ctx)

end Callsite

/-! ## Ties -/

abbrev BestRanked (ranked : List CallsiteOverloadMatch) (m : CallsiteOverloadMatch) : Prop :=
  BestOf.IsBest CallsiteOverloadMatch.sortKey ranked m

/-- Different methods, or one in different modes, tie for the best rank. -/
def Tie (ranked : List CallsiteOverloadMatch) : Prop :=
  ∃ m other, BestRanked ranked m ∧ BestRanked ranked other ∧ ¬ SameMethod m other

/-- All of the best rank are copies of one match. -/
def Copies (ranked : List CallsiteOverloadMatch) : Prop :=
  ∀ m other, BestRanked ranked m → BestRanked ranked other → m.overload = other.overload

/-- More than one has the best rank. -/
def Repeated (ranked : List CallsiteOverloadMatch) : Prop :=
  ∃ m, BestRanked ranked m ∧ 1 < (ranked.filter fun candidate => candidate.sortKey = m.sortKey).length

/-- All are of the method and mode of a best one. -/
def AllSame (ranked : List CallsiteOverloadMatch) : Prop :=
  ∀ m other, BestRanked ranked m → other ∈ ranked → SameMethod other m

/-- The selection does not depend on the order of the candidates; where some apply, nothing is selected just when there
is a tie; and copies of one method are no tie. -/
structure OrderFree (select : List MethodSummary → Option OverloadMatch)
    (ranked : List MethodSummary → List CallsiteOverloadMatch) (candidates : List MethodSummary) : Prop where
  any_order : ∀ others : List MethodSummary, others.Perm candidates → select others = select candidates
  ambiguous : ranked candidates ≠ [] → (select candidates = none ↔ Tie (ranked candidates))
  copies : ranked candidates ≠ [] → Copies (ranked candidates) → select candidates ≠ none

section Ties

variable {ranked ranked' : List CallsiteOverloadMatch} {m other : CallsiteOverloadMatch}

theorem SameMethod.symm (h : SameMethod m other) : SameMethod other m :=
  ⟨h.1.symm, h.2.1.symm, h.2.2.symm⟩

theorem SameMethod.trans {third : CallsiteOverloadMatch} (h : SameMethod m other) (h' : SameMethod other third) :
    SameMethod m third :=
  ⟨h.1.trans h'.1, h.2.1.trans h'.2.1, h.2.2.trans h'.2.2⟩

theorem SameMethod.of_eq (h : m.overload = other.overload) : SameMethod m other := by
  rw [SameMethod, h]
  exact ⟨rfl, rfl, rfl⟩

theorem Tie.perm (h : Tie ranked) (hperm : ranked.Perm ranked') : Tie ranked' := by
  obtain ⟨m, other, hm, hother, hnot⟩ := h
  exact ⟨m, other, hm.perm hperm, hother.perm hperm, hnot⟩

theorem Copies.perm (h : Copies ranked) (hperm : ranked.Perm ranked') : Copies ranked' :=
  fun m other hm hother => h m other (hm.perm hperm.symm) (hother.perm hperm.symm)

theorem Repeated.perm (h : Repeated ranked) (hperm : ranked.Perm ranked') : Repeated ranked' := by
  obtain ⟨m, hm, hcount⟩ := h
  exact ⟨m, hm.perm hperm, by rwa [← (hperm.filter _).length_eq]⟩

theorem AllSame.perm (h : AllSame ranked) (hperm : ranked.Perm ranked') : AllSame ranked' :=
  fun m other hm hother => h m other (hm.perm hperm.symm) (hperm.mem_iff.mpr hother)

theorem Copies.not_tie (h : Copies ranked) : ¬ Tie ranked := by
  rintro ⟨m, other, hm, hother, hnot⟩
  exact hnot (.of_eq (h m other hm hother))

theorem Tie.not_allSame (h : Tie ranked) : ¬ AllSame ranked := by
  obtain ⟨m, other, hm, hother, hnot⟩ := h
  exact fun hall => hnot (hall other m hother hm.1)

theorem Tie.repeated (h : Tie ranked) : Repeated ranked := by
  obtain ⟨m, other, hm, hother, hnot⟩ := h
  refine ⟨m, hm, ?_⟩
  have hmem : m ∈ ranked.filter fun candidate => candidate.sortKey = m.sortKey :=
    List.mem_filter.mpr ⟨hm.1, decide_eq_true rfl⟩
  have hmem' : other ∈ ranked.filter fun candidate => candidate.sortKey = m.sortKey :=
    List.mem_filter.mpr ⟨hother.1, decide_eq_true (hother.rank_eq hm)⟩
  by_contra hfew
  obtain ⟨only, honly⟩ := List.length_eq_one_iff.mp (le_antisymm (not_lt.mp hfew) (List.length_pos_of_mem hmem))
  rw [honly, List.mem_singleton] at hmem hmem'
  rw [hmem, hmem'] at hnot
  exact hnot (.of_eq rfl)

/-- The match of a method is known by its rank. -/
theorem eq_of_sortKey (hmethod : m.overload.method = other.overload.method) (hkey : m.sortKey = other.sortKey) :
    m = other := by
  obtain ⟨⟨method, mode, score⟩, ⟨exact, inPart, count⟩⟩ := m
  obtain ⟨⟨method', mode', score'⟩, ⟨exact', inPart', count'⟩⟩ := other
  obtain rfl : method = method' := hmethod
  simp only [CallsiteOverloadMatch.sortKey, OverloadMatch.rank, EmbeddingLike.apply_eq_iff_eq, Prod.mk.injEq] at hkey
  obtain ⟨rfl, rfl, rfl, hmode, rfl⟩ := hkey
  obtain rfl := OverloadInvocationMode.rank_injective hmode
  rfl

theorem exists_different {best : CallsiteOverloadMatch} (hbest : BestRanked ranked best) :
    (∃ candidate ∈ ranked, ¬ SameMethod candidate best) ↔ ¬ AllSame ranked := by
  constructor
  · rintro ⟨candidate, hmem, hnot⟩ hall
    exact hnot (hall best candidate hbest hmem)
  · intro h
    by_contra hnone
    have hsame : ∀ candidate ∈ ranked, SameMethod candidate best := by
      intro candidate hmem
      by_contra hnot
      exact hnone ⟨candidate, hmem, hnot⟩
    exact h fun m other hm hother => (hsame other hother).trans (hsame m hm.1).symm

theorem bestOfScored_none (hrepeated : Repeated ranked) (hall : ¬ AllSame ranked) : bestOfScored ranked = none := by
  obtain ⟨m, hm, hcount⟩ := hrepeated
  obtain ⟨best, hmax⟩ := @BestOf.exists_maxBy _ _ _ CallsiteOverloadMatch.sortKey _ (List.ne_nil_of_mem hm.1)
  have hbest := BestOf.isBest_maxBy hmax
  obtain ⟨candidate, hmem, hnot⟩ := (exists_different hbest).mpr hall
  rw [hm.rank_eq hbest] at hcount
  have hany : ranked.any (fun candidate => !decide (SameMethod candidate best)) = true :=
    List.any_eq_true.mpr ⟨candidate, hmem, by rw [decide_eq_false hnot]; rfl⟩
  rw [bestOfScored, hmax, Option.bind_some, hany, Bool.true_and]
  exact if_pos (decide_eq_true hcount)

theorem bestOfScored_some {best : CallsiteOverloadMatch}
    (hmax : BestOf.maxBy CallsiteOverloadMatch.sortKey ranked = some best) (h : ¬ (Repeated ranked ∧ ¬ AllSame ranked)) :
    bestOfScored ranked = some best.overload := by
  have hbest := BestOf.isBest_maxBy hmax
  rw [bestOfScored, hmax, Option.bind_some]
  refine if_neg fun hboth => h ?_
  obtain ⟨hany, hcount⟩ := (Bool.and_eq_true _ _).mp hboth
  obtain ⟨candidate, hmem, hnot⟩ := List.any_eq_true.mp hany
  refine ⟨⟨best, hbest, of_decide_eq_true hcount⟩, (exists_different hbest).mp ⟨candidate, hmem, ?_⟩⟩
  exact of_decide_eq_false (by simpa using hnot)

end Ties

/-! ## Orders of the candidates -/

section Orders

variable {rank : MethodSummary → List CallsiteOverloadMatch} {candidates : List MethodSummary} {m : CallsiteOverloadMatch}

/-- What is ranked for a candidate is about that candidate. -/
def RanksMethod (rank : MethodSummary → List CallsiteOverloadMatch) : Prop :=
  ∀ method, ∀ m ∈ rank method, m.overload.method = method

theorem RanksMethod.mem (h : RanksMethod rank) (hm : m ∈ candidates.flatMap rank) :
    m.overload.method ∈ candidates ∧ m ∈ rank m.overload.method := by
  obtain ⟨method, hmethod, hm⟩ := List.mem_flatMap.mp hm
  rw [h method m hm]
  exact ⟨hmethod, hm⟩

theorem RanksMethod.eq (h : RanksMethod rank) {ranked : List CallsiteOverloadMatch} {other : CallsiteOverloadMatch}
    (hm : BestRanked ranked m) (hother : BestRanked ranked other) (hmem : other ∈ rank m.overload.method) : other = m :=
  eq_of_sortKey (h m.overload.method other hmem) (hother.rank_eq hm)

/-- A best match is selected when its method comes first. -/
theorem RanksMethod.first (h : RanksMethod rank) (hm : BestRanked (candidates.flatMap rank) m) :
    ∃ others : List MethodSummary, others.Perm candidates ∧
      (others.flatMap rank).argmax CallsiteOverloadMatch.sortKey = some m := by
  obtain ⟨hmethod, hmem⟩ := h.mem hm.1
  have hperm := (List.perm_cons_erase hmethod).symm
  refine ⟨_, hperm, ?_⟩
  have hbest := hm.perm (hperm.symm.flatMap_right rank)
  rw [List.flatMap_cons] at hbest ⊢
  obtain ⟨other, hother, hmax⟩ := BestOf.argmax_append hbest hmem
  rw [hmax, h.eq hbest (BestOf.isBest_argmax hmax) hother]

/-- A best match is the last of the best when its method comes last. -/
theorem RanksMethod.last (h : RanksMethod rank) (hm : BestRanked (candidates.flatMap rank) m) :
    ∃ others : List MethodSummary, others.Perm candidates ∧
      BestOf.maxBy CallsiteOverloadMatch.sortKey (others.flatMap rank) = some m := by
  obtain ⟨hmethod, hmem⟩ := h.mem hm.1
  have hperm : (candidates.erase m.overload.method ++ [m.overload.method]).Perm candidates :=
    List.perm_append_comm.trans (List.perm_cons_erase hmethod).symm
  refine ⟨_, hperm, ?_⟩
  have hbest := hm.perm (hperm.symm.flatMap_right rank)
  rw [List.flatMap_append, List.flatMap_singleton] at hbest ⊢
  obtain ⟨other, hother, hmax⟩ := BestOf.maxBy_append hbest hmem
  rw [hmax, h.eq hbest (BestOf.isBest_maxBy hmax) hother]

variable {select : List MethodSummary → Option OverloadMatch}

theorem OrderFree.copies_of (hfree : OrderFree select (List.flatMap rank) candidates)
    (hreach : ∀ m, BestRanked (candidates.flatMap rank) m →
      ∃ others : List MethodSummary, others.Perm candidates ∧ select others = some m.overload) :
    Copies (candidates.flatMap rank) := by
  intro m other hm hother
  obtain ⟨before, hbefore, hselect⟩ := hreach m hm
  obtain ⟨after, hafter, hselect'⟩ := hreach other hother
  have heq := (hfree.any_order before hbefore).trans (hfree.any_order after hafter).symm
  rw [hselect, hselect'] at heq
  exact Option.some.inj heq

/-- A selection that takes a best match in every order is free of the order if there are only copies of one. -/
theorem OrderFree.of_copies (hcopies : Copies (candidates.flatMap rank))
    (hnil : ∀ others : List MethodSummary, others.flatMap rank = [] → select others = none)
    (hselect : ∀ others : List MethodSummary, others.Perm candidates → others.flatMap rank ≠ [] →
      ∃ best, BestRanked (others.flatMap rank) best ∧ select others = some best.overload) :
    OrderFree select (List.flatMap rank) candidates := by
  have hsome : candidates.flatMap rank ≠ [] → select candidates ≠ none := by
    intro hne hnone
    obtain ⟨best, -, hbest⟩ := hselect candidates (.refl candidates) hne
    rw [hnone] at hbest
    cases hbest
  refine ⟨fun others hperm => ?_, fun hne => ?_, fun hne _ => hsome hne⟩
  · have hranked := hperm.flatMap_right rank
    by_cases hempty : candidates.flatMap rank = []
    · rw [hnil candidates hempty, hnil others (List.perm_nil.mp (hempty ▸ hranked))]
    · have hne : others.flatMap rank ≠ [] := fun h => hempty (List.nil_perm.mp (h ▸ hranked))
      obtain ⟨best, hbest, hthis⟩ := hselect others hperm hne
      obtain ⟨best', hbest', hthat⟩ := hselect candidates (.refl candidates) hempty
      rw [hthis, hthat, hcopies best best' (hbest.perm hranked) hbest']
  · exact ⟨fun hnone => absurd hnone (hsome hne), fun htie => absurd htie hcopies.not_tie⟩

/-- Where no argument is functional the first of the best is selected. -/
theorem plain_iff (h : RanksMethod rank) :
    OrderFree (fun others => ((others.flatMap rank).argmax CallsiteOverloadMatch.sortKey).map
      CallsiteOverloadMatch.overload) (List.flatMap rank) candidates ↔ Copies (candidates.flatMap rank) := by
  constructor
  · intro hfree
    refine hfree.copies_of fun m hm => ?_
    obtain ⟨others, hperm, hmax⟩ := h.first hm
    exact ⟨others, hperm, by rw [hmax, Option.map_some]⟩
  · intro hcopies
    refine .of_copies hcopies (fun others hempty => by rw [hempty]; rfl) fun others _ hne => ?_
    obtain ⟨best, hmax⟩ := @BestOf.exists_argmax _ _ _ CallsiteOverloadMatch.sortKey _ hne
    exact ⟨best, BestOf.isBest_argmax hmax, by rw [hmax, Option.map_some]⟩

theorem functional_iff (h : RanksMethod rank) :
    OrderFree (fun others => bestOfScored (others.flatMap rank)) (List.flatMap rank) candidates ↔
      Copies (candidates.flatMap rank) ∧ (¬ Repeated (candidates.flatMap rank) ∨ AllSame (candidates.flatMap rank)) ∨
        Tie (candidates.flatMap rank) := by
  constructor
  · intro hfree
    rw [or_iff_not_imp_right]
    intro htie
    have hclear : ¬ (Repeated (candidates.flatMap rank) ∧ ¬ AllSame (candidates.flatMap rank)) := by
      rintro ⟨hrepeated, hall⟩
      obtain ⟨m, hm, -⟩ := id hrepeated
      exact htie ((hfree.ambiguous (List.ne_nil_of_mem hm.1)).mp (bestOfScored_none hrepeated hall))
    refine ⟨hfree.copies_of fun m hm => ?_, by tauto⟩
    obtain ⟨others, hperm, hmax⟩ := h.last hm
    have hranked := hperm.flatMap_right rank
    refine ⟨others, hperm, bestOfScored_some hmax fun hboth => hclear ⟨hboth.1.perm hranked, fun hall => ?_⟩⟩
    exact hboth.2 (hall.perm hranked.symm)
  · rintro (⟨hcopies, hclear⟩ | htie)
    · refine .of_copies hcopies (fun others hempty => by rw [hempty]; rfl) fun others hperm hne => ?_
      obtain ⟨best, hmax⟩ := @BestOf.exists_maxBy _ _ _ CallsiteOverloadMatch.sortKey _ hne
      have hranked := hperm.flatMap_right rank
      refine ⟨best, BestOf.isBest_maxBy hmax, bestOfScored_some hmax fun hboth => ?_⟩
      exact hclear.elim (fun hnot => hnot (hboth.1.perm hranked)) fun hall => hboth.2 (hall.perm hranked.symm)
    · have hnone : ∀ others : List MethodSummary, others.Perm candidates → bestOfScored (others.flatMap rank) = none := by
        intro others hperm
        have htie' := htie.perm (hperm.symm.flatMap_right rank)
        exact bestOfScored_none htie'.repeated htie'.not_allSame
      have hself := hnone candidates (.refl candidates)
      exact ⟨fun others hperm => (hnone others hperm).trans hself.symm, fun _ => iff_of_true hself htie,
        fun _ hcopies => absurd htie hcopies.not_tie⟩

end Orders

/-! ## The exact condition -/

section Callsite

variable (view : IndexView) (evaluateFunctionalArgCompatibility : String → JvmType → FunctionalCompatStatus)
  (receiverInternal : String) (args : CallArgs) (ctx : EvalContext)

theorem build_overload {normalizedArgs : List TypeName} {functionalArgIndexes : List ℕ} {m : OverloadMatch}
    {built : CallsiteOverloadMatch} (h : buildCallsiteOverloadMatch view evaluateFunctionalArgCompatibility
      receiverInternal args ctx normalizedArgs functionalArgIndexes m = some built) : built.overload = m := by
  obtain ⟨types, -, h⟩ := Option.bind_eq_some_iff.mp h
  obtain ⟨s, -, rfl⟩ := Option.map_eq_some_iff.mp h
  rfl

theorem ranksMethod : RanksMethod (rankedOf view evaluateFunctionalArgCompatibility receiverInternal args ctx) := by
  intro method m hm
  rw [rankedOf] at hm
  split_ifs at hm
  · obtain ⟨plain, hplain, rfl⟩ := List.mem_map.mp hm
    exact (mem_matchesOf.mp hplain).1
  · obtain ⟨scored, hscored, hbuilt⟩ := List.mem_filterMap.mp hm
    rw [build_overload _ _ _ _ _ hbuilt]
    exact (mem_matchesOf.mp hscored).1

theorem sortKey_plain (m other : OverloadMatch) :
    (CallsiteOverloadMatch.mk m ⟨0, 0, 0⟩).sortKey < (CallsiteOverloadMatch.mk other ⟨0, 0, 0⟩).sortKey ↔
      m.rank < other.rank := by
  simp only [CallsiteOverloadMatch.sortKey, Prod.Lex.toLex_lt_toLex, lt_self_iff_false, true_and, false_or]

/-- Without functional arguments the first of the best is selected. -/
theorem plain_select (hplain : (functionalArgumentIndexes args.texts).isEmpty = true) (candidates : List MethodSummary) :
    selectOverloadMatchWithCallsite view evaluateFunctionalArgCompatibility receiverInternal args ctx candidates =
      ((rankedMatches view evaluateFunctionalArgCompatibility receiverInternal args ctx candidates).argmax
        CallsiteOverloadMatch.sortKey).map CallsiteOverloadMatch.overload := by
  have hranked : rankedMatches view evaluateFunctionalArgCompatibility receiverInternal args ctx candidates =
      (candidates.flatMap (matchesOf (normalizeArgTypes args.count args.types))).map fun m => ⟨m, 0, 0, 0⟩ := by
    rw [rankedMatches, List.map_flatMap]
    refine List.flatMap_congr fun method _ => ?_
    rw [rankedOf]
    exact if_pos hplain
  rw [selectOverloadMatchWithCallsite, hranked, BestOf.argmax_map sortKey_plain, Option.map_map]
  refine (if_pos hplain).trans ?_
  rw [selectOverloadMatch_eq, ← normalizeArgTypes_eq]
  exact Option.map_id'.symm

theorem functional_select (hfunctional : ¬ (functionalArgumentIndexes args.texts).isEmpty = true)
    (candidates : List MethodSummary) :
    selectOverloadMatchWithCallsite view evaluateFunctionalArgCompatibility receiverInternal args ctx candidates =
      bestOfScored (rankedMatches view evaluateFunctionalArgCompatibility receiverInternal args ctx candidates) := by
  have hranked : rankedMatches view evaluateFunctionalArgCompatibility receiverInternal args ctx candidates =
      candidates.flatMap (scoredOf view evaluateFunctionalArgCompatibility receiverInternal args ctx
        (functionalArgumentIndexes args.texts)) := by
    rw [rankedMatches]
    refine List.flatMap_congr fun method _ => ?_
    rw [rankedOf]
    exact if_neg hfunctional
  rw [selectOverloadMatchWithCallsite, hranked]
  exact if_neg hfunctional

/-- Without functional arguments the selection is free of the order exactly when all of the best rank are copies of one
match. With functional arguments a tie will do too, but copies only when there is one of them or nothing else applies. -/
theorem callsite_orderFree_iff (candidates : List MethodSummary) :
    OrderFree (selectOverloadMatchWithCallsite view evaluateFunctionalArgCompatibility receiverInternal args ctx)
        (rankedMatches view evaluateFunctionalArgCompatibility receiverInternal args ctx) candidates ↔
      if functionalArgumentIndexes args.texts = [] then
        Copies (rankedMatches view evaluateFunctionalArgCompatibility receiverInternal args ctx candidates)
      else
        Copies (rankedMatches view evaluateFunctionalArgCompatibility receiverInternal args ctx candidates) ∧
            (¬ Repeated (rankedMatches view evaluateFunctionalArgCompatibility receiverInternal args ctx candidates) ∨
              AllSame (rankedMatches view evaluateFunctionalArgCompatibility receiverInternal args ctx candidates)) ∨
          Tie (rankedMatches view evaluateFunctionalArgCompatibility receiverInternal args ctx candidates) := by
  have hranks := ranksMethod view evaluateFunctionalArgCompatibility receiverInternal args ctx
  split_ifs with hplain
  · rw [funext (plain_select view evaluateFunctionalArgCompatibility receiverInternal args ctx
      (List.isEmpty_iff.mpr hplain))]
    exact plain_iff hranks
  · rw [funext (functional_select view evaluateFunctionalArgCompatibility receiverInternal args ctx
      fun hempty => hplain (List.isEmpty_iff.mp hempty))]
    exact functional_iff hranks

end Callsite

/-- `pick(String, Function)` -/
def pickString : MethodSummary :=
  ⟨"pick", [⟨"Ljava/lang/String;", "a", []⟩, ⟨"Ljava/util/function/Function;", "f", []⟩], [], 0, false, none, none⟩

/-- `pick(Object, Function)` -/
def pickObject : MethodSummary :=
  ⟨"pick", [⟨"Ljava/lang/Object;", "a", []⟩, ⟨"Ljava/util/function/Function;", "f", []⟩], [], 0, false, none, none⟩

/-- `pick(name, x -> x)` -/
def pickArgs : CallArgs :=
  ⟨2, [.withKind "java/lang/String" .internal, .unknown], ["name", "x -> x"]⟩

/-- Where the index has no functional interfaces every lambda fits in part. The method for strings comes twice, as from
two bounds of the receiver that inherit it, and then nothing is selected because of the method for objects. -/
theorem copies_ambiguous :
    ¬ OrderFree (selectOverloadMatchWithCallsite (.new []) (fun _ _ => .inPart) "A" pickArgs ⟨fun _ _ => none⟩)
      (rankedMatches (.new []) (fun _ _ => .inPart) "A" pickArgs ⟨fun _ _ => none⟩)
      [pickString, pickObject, pickString] := by
  intro hfree
  let best : CallsiteOverloadMatch := ⟨⟨pickString, .fixed, 10⟩, ⟨0, 1, 0⟩⟩
  let worse : CallsiteOverloadMatch := ⟨⟨pickObject, .fixed, 5⟩, ⟨0, 1, 0⟩⟩
  have hranked : rankedMatches (.new []) (fun _ _ => .inPart) "A" pickArgs ⟨fun _ _ => none⟩
      [pickString, pickObject, pickString] = [best, worse, best] := by decide
  have hnone : selectOverloadMatchWithCallsite (.new []) (fun _ _ => .inPart) "A" pickArgs ⟨fun _ _ => none⟩
      [pickString, pickObject, pickString] = none := by decide
  have honly : ∀ m, BestRanked [best, worse, best] m → m = best := by
    rintro m ⟨hmem, hmax⟩
    rcases List.mem_cons.mp hmem with rfl | hmem
    · rfl
    · rcases List.mem_cons.mp hmem with rfl | hmem
      · exact absurd (hmax best List.mem_cons_self) (by decide)
      · exact List.mem_singleton.mp hmem
  refine hfree.copies (by rw [hranked]; exact List.cons_ne_nil _ _) (fun m other hm hother => ?_) hnone
  rw [hranked] at hm hother
  rw [honly m hm, honly other hother]

end JavaAnalyzer.Semantic
