import Mathlib.Data.Prod.Lex
import JavaAnalyzer.Library.BestOf
import JavaAnalyzer.Semantic.MethodBindings
import JavaAnalyzer.Semantic.OverloadScore

/-! # Selection among overloads

`select_overload_match` of `semantic/types.rs`: each candidate is tried by fixed and by variable arity, and a scan
keeps the best match so far. -/

namespace JavaAnalyzer.Semantic
set_option autoImplicit false
open Index

/-! ## The scan -/

structure OverloadMatch where
  method : MethodSummary
  mode : OverloadInvocationMode
  score : ℤ
deriving DecidableEq

def normalizeArgTypes (argCount : ℕ) (argTypes : List TypeName) : List TypeName :=
  if argTypes.length ≥ argCount then argTypes.take argCount
  else argTypes ++ List.replicate (argCount - argTypes.length) .unknown

def scoreFixedApplicability (method : MethodSummary) (argTypes : List TypeName) : Option ℤ :=
  if method.params.length ≠ argTypes.length then none
  else scoreDescriptorList (method.params.map fun p => p.descriptor.toList) argTypes

/-- `total += score?` -/
def addScore (total : ℤ) (desc : List Char) (arg : TypeName) : Option ℤ :=
  (scoreArgumentAgainstDescriptor desc arg).map (total + ·)

def scoreVarargsApplicability (method : MethodSummary) (argTypes : List TypeName) : Option ℤ :=
  if !isVarargsMethod method then none
  else
    match method.params.getLast? with
    | none => none
    | some last =>
      let fixedPrefix := method.params.length - 1
      if argTypes.length < fixedPrefix then none
      else
        (((method.params.take fixedPrefix).zip argTypes).foldlM
            (fun total p => addScore total p.1.descriptor.toList p.2) 0).bind fun total =>
          match last.descriptor.toList with
          | '[' :: varargElem =>
            ((argTypes.drop fixedPrefix).foldlM (fun total arg => addScore total varargElem arg) total).map (· - 1)
          | _ => none

def OverloadInvocationMode.rank : OverloadInvocationMode → ℕ
  | .fixed => 1
  | .varargs => 0

def betterOverloadMatch (current : Option OverloadMatch) (candidate : OverloadMatch) : Bool :=
  match current with
  | none => true
  | some current =>
    if candidate.mode.rank ≠ current.mode.rank then candidate.mode.rank > current.mode.rank
    else candidate.score > current.score

/-- The match kept behind one try. -/
def keepBetter (best : Option OverloadMatch) (method : MethodSummary) (mode : OverloadInvocationMode) :
    Option ℤ → Option OverloadMatch
  | none => best
  | some score =>
    let m : OverloadMatch := ⟨method, mode, score⟩
    if betterOverloadMatch best m then some m else best

def selectOverloadMatch (candidates : List MethodSummary) (argCount : ℕ) (argTypes : List TypeName) :
    Option OverloadMatch :=
  if candidates.isEmpty then none
  else
    let normalizedArgs := normalizeArgTypes argCount argTypes
    candidates.foldl (fun best method =>
      let best := keepBetter best method .fixed (scoreFixedApplicability method normalizedArgs)
      keepBetter best method .varargs (scoreVarargsApplicability method normalizedArgs)) none

/-! ## Applicability -/

theorem normalizeArgTypes_eq (argCount : ℕ) (argTypes : List TypeName) :
    normalizeArgTypes argCount argTypes = argTypes.takeD argCount .unknown := by
  rw [normalizeArgTypes]
  split_ifs with hlen
  · exact (List.takeD_eq_take _ hlen).symm
  · induction argCount generalizing argTypes with
    | zero => exact absurd (Nat.zero_le _) hlen
    | succ n ih =>
      cases argTypes with
      | nil => simp [List.replicate_succ]
      | cons ty argTypes =>
        have hrest : ¬ argTypes.length ≥ n := by simpa using hlen
        simpa using ih argTypes hrest

/-- The arguments go to descriptors one by one, with the sum of their scores. -/
inductive Scores : List (List Char) → List TypeName → ℤ → Prop
  | nil : Scores [] [] 0
  | cons {desc : List Char} {descs : List (List Char)} {arg : TypeName} {args : List TypeName} {score total : ℤ}
      (hscore : scoreArgumentAgainstDescriptor desc arg = some score) (hrest : Scores descs args total) :
      Scores (desc :: descs) (arg :: args) (score + total)

/-- A method is applicable to arguments in a mode, with a score. By variable arity the last parameter is as many as are
needed of its elements. -/
inductive Applies (method : MethodSummary) (args : List TypeName) : OverloadInvocationMode → ℤ → Prop
  | fixed {score : ℤ} (h : Scores (method.params.map fun p => p.descriptor.toList) args score) :
      Applies method args .fixed score
  | varargs {fixedPrefix : List MethodParam} {last : MethodParam} {varargElem : List Char} {count : ℕ} {score : ℤ}
      (hflag : method.accessFlags &&& accVarargs ≠ 0) (hparams : method.params = fixedPrefix ++ [last])
      (hlast : last.descriptor.toList = '[' :: varargElem)
      (h : Scores ((fixedPrefix.map fun p => p.descriptor.toList) ++ List.replicate count varargElem) args score) :
      Applies method args .varargs (score - 1)

theorem scores_iff {descs : List (List Char)} {args : List TypeName} {total : ℤ} :
    Scores descs args total ↔ scoreDescriptorList descs args = some total := by
  constructor
  · intro h
    induction h with
    | nil => rfl
    | cons hscore _ ih => simp [scoreDescriptorList, hscore, ih]
  · intro h
    induction descs generalizing args total with
    | nil =>
      cases args with
      | nil =>
        cases h
        exact .nil
      | cons => cases h
    | cons desc descs ih =>
      cases args with
      | nil => cases h
      | cons arg args =>
        obtain ⟨score, hscore, h⟩ := Option.bind_eq_some_iff.mp h
        obtain ⟨rest, hrest, h⟩ := Option.bind_eq_some_iff.mp h
        cases h
        exact .cons hscore (ih hrest)

theorem Scores.length {descs : List (List Char)} {args : List TypeName} {total : ℤ} (h : Scores descs args total) :
    descs.length = args.length := by
  induction h with
  | nil => rfl
  | cons _ _ ih => exact congrArg Nat.succ ih

theorem Scores.append {descs descs' : List (List Char)} {args args' : List TypeName} {score score' : ℤ}
    (h : Scores descs args score) (h' : Scores descs' args' score') :
    Scores (descs ++ descs') (args ++ args') (score + score') := by
  induction h with
  | nil => simpa using h'
  | cons hscore _ ih =>
    rw [add_assoc]
    exact .cons hscore ih

theorem Scores.split {descs descs' : List (List Char)} {args : List TypeName} {total : ℤ}
    (h : Scores (descs ++ descs') args total) :
    ∃ front back score score', args = front ++ back ∧ total = score + score' ∧ Scores descs front score ∧
      Scores descs' back score' := by
  induction descs generalizing args total with
  | nil => exact ⟨[], args, 0, total, rfl, (zero_add total).symm, .nil, h⟩
  | cons desc descs ih =>
    cases h with
    | cons hscore hrest =>
      obtain ⟨front, back, score, score', rfl, rfl, hfront, hback⟩ := ih hrest
      exact ⟨_ :: front, back, _, score', rfl, (add_assoc ..).symm, .cons hscore hfront, hback⟩

/-- The loops that add up scores. -/
theorem foldlM_addScore_iff {ι : Type} (desc : ι → List Char) (arg : ι → TypeName) {items : List ι} {start total : ℤ} :
    items.foldlM (fun total i => addScore total (desc i) (arg i)) start = some total ↔
      ∃ score, total = start + score ∧ Scores (items.map desc) (items.map arg) score := by
  induction items generalizing start with
  | nil =>
    constructor
    · intro h
      cases h
      exact ⟨0, (add_zero total).symm, .nil⟩
    · rintro ⟨score, rfl, h⟩
      cases h
      rw [add_zero]
      rfl
  | cons i items ih =>
    rw [List.foldlM_cons]
    constructor
    · intro h
      obtain ⟨behind, hbehind, h⟩ := Option.bind_eq_some_iff.mp h
      obtain ⟨score, hscore, rfl⟩ := Option.map_eq_some_iff.mp hbehind
      obtain ⟨rest, rfl, hrest⟩ := ih.mp h
      exact ⟨score + rest, add_assoc .., .cons hscore hrest⟩
    · rintro ⟨score, rfl, h⟩
      cases h with
      | cons hscore hrest =>
        refine Option.bind_eq_some_iff.mpr ⟨_, ?_, ih.mpr ⟨_, (add_assoc ..).symm, hrest⟩⟩
        rw [addScore, hscore, Option.map_some]

theorem foldlM_prefix_iff {fixedPrefix : List MethodParam} {front back : List TypeName} {total : ℤ}
    (hlen : fixedPrefix.length = front.length) :
    (fixedPrefix.zip (front ++ back)).foldlM (fun total p => addScore total p.1.descriptor.toList p.2) 0 = some total ↔
      Scores (fixedPrefix.map fun p => p.descriptor.toList) front total := by
  have hzip : fixedPrefix.zip (front ++ back) = fixedPrefix.zip front := by
    rw [← List.append_nil fixedPrefix, List.zip_append hlen, List.zip_nil_left, List.append_nil, List.append_nil]
  have hdescs : (fixedPrefix.zip front).map (fun p => p.1.descriptor.toList) =
      fixedPrefix.map fun p => p.descriptor.toList := by
    rw [← congrArg (List.map fun p : MethodParam => p.descriptor.toList) (List.map_fst_zip hlen.le), List.map_map]
    rfl
  rw [hzip, foldlM_addScore_iff (fun p : MethodParam × TypeName => p.1.descriptor.toList) Prod.snd, hdescs,
    List.map_snd_zip hlen.ge]
  simp

theorem foldlM_elements_iff {varargElem : List Char} {args : List TypeName} {start total : ℤ} :
    args.foldlM (fun total arg => addScore total varargElem arg) start = some total ↔
      ∃ score, total = start + score ∧ Scores (List.replicate args.length varargElem) args score := by
  have h := @foldlM_addScore_iff _ (fun _ => varargElem) id args start total
  rwa [List.map_const', List.map_id] at h

section Applicability

variable {method : MethodSummary} {args : List TypeName} {score : ℤ}

theorem applies_fixed_iff : Applies method args .fixed score ↔ scoreFixedApplicability method args = some score := by
  rw [scoreFixedApplicability]
  constructor
  · rintro (h | _)
    have hlen := h.length
    rw [List.length_map] at hlen
    rw [if_neg (not_not.mpr hlen)]
    exact scores_iff.mp h
  · intro h
    split_ifs at h
    exact .fixed (scores_iff.mpr h)

theorem isVarargsMethod_iff : isVarargsMethod method = true ↔
    method.accessFlags &&& accVarargs ≠ 0 ∧ ∃ fixedPrefix last varargElem, method.params = fixedPrefix ++ [last] ∧
      last.descriptor.toList = '[' :: varargElem := by
  rw [isVarargsMethod, Bool.and_eq_true, decide_eq_true_iff]
  refine and_congr_right fun _ => ?_
  constructor
  · intro h
    obtain ⟨last, hlast, hdesc⟩ := (Option.any_eq_true _ _).mp h
    obtain ⟨fixedPrefix, hparams⟩ := List.getLast?_eq_some_iff.mp hlast
    obtain ⟨varargElem, helem⟩ := List.head?_eq_some_iff.mp (of_decide_eq_true hdesc)
    exact ⟨fixedPrefix, last, varargElem, hparams, helem⟩
  · rintro ⟨fixedPrefix, last, varargElem, hparams, helem⟩
    rw [hparams, List.getLast?_concat, Option.any_some, helem]
    rfl

theorem varargs_scores_iff {fixedPrefix : List MethodParam} {last : MethodParam} {varargElem : List Char}
    (hflag : method.accessFlags &&& accVarargs ≠ 0) (hparams : method.params = fixedPrefix ++ [last])
    (hlast : last.descriptor.toList = '[' :: varargElem) :
    scoreVarargsApplicability method args = some score ↔ ∃ count total, score = total - 1 ∧
      Scores ((fixedPrefix.map fun p => p.descriptor.toList) ++ List.replicate count varargElem) args total := by
  have hvarargs := isVarargsMethod_iff.mpr ⟨hflag, fixedPrefix, last, varargElem, hparams, hlast⟩
  have hlen : (fixedPrefix ++ [last]).length - 1 = fixedPrefix.length := by simp
  rw [scoreVarargsApplicability, hvarargs, Bool.not_true, if_neg Bool.false_ne_true, hparams, List.getLast?_concat]
  dsimp only
  rw [hlen, List.take_left, hlast]
  constructor
  · intro h
    split_ifs at h with hshort
    obtain ⟨first, hfirst, h⟩ := Option.bind_eq_some_iff.mp h
    obtain ⟨total, htotal, rfl⟩ := Option.map_eq_some_iff.mp h
    obtain ⟨elements, rfl, helements⟩ := foldlM_elements_iff.mp htotal
    have htake : fixedPrefix.length = (args.take fixedPrefix.length).length := by
      rw [List.length_take, Nat.min_eq_left (not_lt.mp hshort)]
    rw [← List.take_append_drop fixedPrefix.length args] at hfirst
    have hscores := ((foldlM_prefix_iff htake).mp hfirst).append helements
    rw [List.take_append_drop] at hscores
    exact ⟨_, _, rfl, hscores⟩
  · rintro ⟨count, total, rfl, h⟩
    obtain ⟨front, back, first, elements, rfl, rfl, hfirst, helements⟩ := h.split
    have hfront : fixedPrefix.length = front.length := by simpa using hfirst.length
    have hcount : count = back.length := by simpa using helements.length
    rw [if_neg (by simp [hfront])]
    refine Option.bind_eq_some_iff.mpr ⟨first, (foldlM_prefix_iff hfront).mpr hfirst, ?_⟩
    refine Option.map_eq_some_iff.mpr ⟨first + elements, ?_, rfl⟩
    rw [hfront, List.drop_left, foldlM_elements_iff]
    exact ⟨elements, rfl, hcount ▸ helements⟩

theorem applies_varargs_iff : Applies method args .varargs score ↔ scoreVarargsApplicability method args = some score := by
  constructor
  · rintro (_ | ⟨hflag, hparams, hlast, h⟩)
    exact (varargs_scores_iff hflag hparams hlast).mpr ⟨_, _, rfl, h⟩
  · intro h
    cases hvarargs : isVarargsMethod method with
    | false =>
      rw [scoreVarargsApplicability, hvarargs] at h
      cases h
    | true =>
      obtain ⟨hflag, fixedPrefix, last, varargElem, hparams, hlast⟩ := isVarargsMethod_iff.mp hvarargs
      obtain ⟨count, total, rfl, hscores⟩ := (varargs_scores_iff hflag hparams hlast).mp h
      exact .varargs hflag hparams hlast hscores

end Applicability

/-! ## The best match -/

section Selection

/-- By variable arity after fixed arity, and by the score in one mode. -/
def OverloadMatch.rank (m : OverloadMatch) : ℕ ×ₗ ℤ :=
  toLex (m.mode.rank, m.score)

theorem OverloadInvocationMode.rank_injective : Function.Injective OverloadInvocationMode.rank := by
  intro mode mode' h
  cases mode <;> cases mode' <;> first | rfl | cases h

theorem betterOverloadMatch_iff {current candidate : OverloadMatch} :
    betterOverloadMatch (some current) candidate = true ↔ current.rank < candidate.rank := by
  rw [betterOverloadMatch, OverloadMatch.rank, OverloadMatch.rank, Prod.Lex.toLex_lt_toLex]
  dsimp only
  split_ifs with hmode
  · rw [decide_eq_true_iff]
    exact ⟨.inl, fun h => h.resolve_right fun heq => hmode heq.1.symm⟩
  · rw [decide_eq_true_iff]
    have heq := not_not.mp hmode
    exact ⟨fun h => .inr ⟨heq.symm, h⟩, fun h => (h.resolve_left fun hlt => hlt.ne' heq).2⟩

def tried (method : MethodSummary) (mode : OverloadInvocationMode) (score : Option ℤ) : List OverloadMatch :=
  (score.map fun score => ⟨method, mode, score⟩).toList

/-- What is tried for a candidate, in the order in which it is tried. -/
def matchesOf (args : List TypeName) (method : MethodSummary) : List OverloadMatch :=
  tried method .fixed (scoreFixedApplicability method args) ++
    tried method .varargs (scoreVarargsApplicability method args)

theorem keepBetter_eq (best : Option OverloadMatch) (method : MethodSummary) (mode : OverloadInvocationMode)
    (score : Option ℤ) : keepBetter best method mode score =
      (tried method mode score).foldl (List.argAux fun b c => c.rank < b.rank) best := by
  cases score with
  | none => rfl
  | some score =>
    cases best with
    | none => rfl
    | some best => exact if_congr betterOverloadMatch_iff rfl rfl

theorem selectOverloadMatch_eq (candidates : List MethodSummary) (argCount : ℕ) (argTypes : List TypeName) :
    selectOverloadMatch candidates argCount argTypes =
      (candidates.flatMap (matchesOf (argTypes.takeD argCount .unknown))).argmax OverloadMatch.rank := by
  rw [selectOverloadMatch, ← normalizeArgTypes_eq, List.argmax, List.foldl_flatMap]
  simp only [matchesOf, List.foldl_append, ← keepBetter_eq]
  cases candidates with
  | nil => rfl
  | cons method candidates => rfl

theorem mem_matchesOf {args : List TypeName} {method : MethodSummary} {m : OverloadMatch} :
    m ∈ matchesOf args method ↔ m.method = method ∧ Applies method args m.mode m.score := by
  obtain ⟨found, mode, score⟩ := m
  rw [matchesOf, List.mem_append]
  cases mode with
  | fixed =>
    rw [applies_fixed_iff]
    cases scoreFixedApplicability method args <;> cases scoreVarargsApplicability method args <;>
      simp [tried, eq_comm]
  | varargs =>
    rw [applies_varargs_iff]
    cases scoreFixedApplicability method args <;> cases scoreVarargsApplicability method args <;>
      simp [tried, eq_comm]

/-- The method is the first candidate that applies with a rank no other candidate exceeds, and in no other mode does it
apply with a higher one. -/
def FirstBest (candidates : List MethodSummary) (args : List TypeName) (best : OverloadMatch) : Prop :=
  ∃ front back, candidates = front ++ best.method :: back ∧ Applies best.method args best.mode best.score ∧
    (∀ method ∈ front, ∀ mode score, Applies method args mode score → toLex (mode.rank, score) < best.rank) ∧
    ∀ method ∈ best.method :: back, ∀ mode score, Applies method args mode score → toLex (mode.rank, score) ≤ best.rank

variable {candidates : List MethodSummary} {args : List TypeName} {best other : OverloadMatch}

theorem FirstBest.le (h : FirstBest candidates args best) {method : MethodSummary} (hmem : method ∈ candidates)
    {mode : OverloadInvocationMode} {score : ℤ} (happly : Applies method args mode score) :
    toLex (mode.rank, score) ≤ best.rank := by
  obtain ⟨front, back, rfl, -, hfront, hback⟩ := h
  rcases List.mem_append.mp hmem with hmem | hmem
  · exact (hfront method hmem mode score happly).le
  · exact hback method hmem mode score happly

theorem FirstBest.mem (h : FirstBest candidates args best) : best.method ∈ candidates := by
  obtain ⟨front, back, rfl, -, -, -⟩ := h
  exact List.mem_append_right front List.mem_cons_self

theorem FirstBest.applies (h : FirstBest candidates args best) : Applies best.method args best.mode best.score := by
  obtain ⟨front, back, -, happly, -, -⟩ := h
  exact happly

/-- Whichever of two best matches comes first is the other one. -/
theorem FirstBest.unique (h : FirstBest candidates args best) (h' : FirstBest candidates args other) : best = other := by
  have hrank : best.rank = other.rank := le_antisymm (h'.le h.mem h.applies) (h.le h'.mem h'.applies)
  obtain ⟨front, back, hsplit, happly, hfront, -⟩ := h
  obtain ⟨front', back', hsplit', happly', hfront', -⟩ := h'
  have hnot : best.method ∉ front' := fun hmem => (hfront' _ hmem _ _ happly).ne hrank
  have hnot' : other.method ∉ front := fun hmem => (hfront _ hmem _ _ happly').ne hrank.symm
  have hmethod : best.method = other.method := BestOf.eq_of_split (hsplit.symm.trans hsplit') hnot hnot'
  have hboth := Prod.ext_iff.mp (toLex.injective hrank)
  obtain ⟨method, mode, score⟩ := best
  obtain ⟨method', mode', score'⟩ := other
  obtain rfl : method = method' := hmethod
  obtain rfl : mode = mode' := OverloadInvocationMode.rank_injective hboth.1
  obtain rfl : score = score' := hboth.2
  rfl

end Selection

/-- No candidate applies where nothing is selected; otherwise the first best one is. Argument types that are not given
are unknown, and those behind the number of arguments do not count. -/
theorem select_overload_match_best (candidates : List MethodSummary) (argCount : ℕ) (argTypes : List TypeName) :
    (selectOverloadMatch candidates argCount argTypes = none ↔
      ∀ method ∈ candidates, ∀ mode score, ¬ Applies method (argTypes.takeD argCount .unknown) mode score) ∧
    ∀ best, selectOverloadMatch candidates argCount argTypes = some best ↔
      FirstBest candidates (argTypes.takeD argCount .unknown) best := by
  have hnone : selectOverloadMatch candidates argCount argTypes = none ↔
      ∀ method ∈ candidates, ∀ mode score, ¬ Applies method (argTypes.takeD argCount .unknown) mode score := by
    rw [selectOverloadMatch_eq, List.argmax_eq_none, List.flatMap_eq_nil_iff]
    refine forall₂_congr fun method _ => ?_
    rw [List.eq_nil_iff_forall_not_mem]
    exact ⟨fun h mode score happly => h ⟨method, mode, score⟩ (mem_matchesOf.mpr ⟨rfl, happly⟩),
      fun h m hm => h m.mode m.score (mem_matchesOf.mp hm).2⟩
  have hfirst : ∀ best, selectOverloadMatch candidates argCount argTypes = some best →
      FirstBest candidates (argTypes.takeD argCount .unknown) best := by
    intro best hbest
    rw [selectOverloadMatch_eq] at hbest
    obtain ⟨front, method, back, rfl, hmem, hfront, hback⟩ := BestOf.argmax_flatMap hbest
    obtain ⟨rfl, happly⟩ := mem_matchesOf.mp hmem
    refine ⟨front, back, rfl, happly, fun method hmethod mode score h => ?_, fun method hmethod mode score h => ?_⟩
    · exact hfront method hmethod ⟨method, mode, score⟩ (mem_matchesOf.mpr ⟨rfl, h⟩)
    · exact hback method hmethod ⟨method, mode, score⟩ (mem_matchesOf.mpr ⟨rfl, h⟩)
  refine ⟨hnone, fun best => ⟨hfirst best, fun h => ?_⟩⟩
  cases hselect : selectOverloadMatch candidates argCount argTypes with
  | none => exact absurd h.applies (hnone.mp hselect best.method h.mem best.mode best.score)
  | some found => rw [(hfirst found hselect).unique h]

/-- `void m(String... args)` and `void m(String arg)`. -/
def variableArity : MethodSummary :=
  ⟨"m", [⟨"[Ljava/lang/String;", "args", []⟩], [], accVarargs, false, none, none⟩

def fixedArity : MethodSummary :=
  ⟨"m", [⟨"Ljava/lang/String;", "arg", []⟩], [], 0, false, none, none⟩

example : selectOverloadMatch [variableArity, fixedArity] 1 [.withKind "java/lang/String" .internal] =
    some ⟨fixedArity, .fixed, 10⟩ := by decide

example : selectOverloadMatch [variableArity, fixedArity] 2 [] = some ⟨variableArity, .varargs, -1⟩ := by decide

end JavaAnalyzer.Semantic
