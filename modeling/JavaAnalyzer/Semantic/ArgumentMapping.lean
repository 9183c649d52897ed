import JavaAnalyzer.Semantic.CallsiteOverloads

/-! # Arguments and the parameters they were scored against

`resolve_selected_param_descriptor_for_call` of `semantic/types.rs` beside the tests of applicability, which keep here a
log of what they score. -/

namespace JavaAnalyzer.Semantic
set_option autoImplicit false
open Index

def resolveSelectedParamDescriptorForCall (selected : MethodSummary) (argIndex : ℕ) (mode : OverloadInvocationMode) :
    Option (List Char) :=
  (mapArgumentIndexToParameter selected argIndex mode selected.params.length).bind fun (mappedIndex, varargElement) =>
    selected.params[mappedIndex]?.bind fun param =>
      if !varargElement then some param.descriptor.toList
      else
        match param.descriptor.toList with
        | '[' :: elem => some elem
        | _ => none

/-! ## What is scored -/

/-- A total, and each descriptor with the argument that was scored against it. -/
structure ScoreLog where
  total : ℤ
  scored : List (List Char × TypeName)

/-- `addScore`, logged. -/
def ScoreLog.add (log : ScoreLog) (desc : List Char) (arg : TypeName) : Option ScoreLog :=
  (addScore log.total desc arg).map fun total => ⟨total, log.scored ++ [(desc, arg)]⟩

/-- `scoreFixedApplicability`, logged. -/
def logFixedApplicability (method : MethodSummary) (argTypes : List TypeName) : Option ScoreLog :=
  if method.params.length ≠ argTypes.length then none
  else
    ((method.params.map fun p => p.descriptor.toList).zip argTypes).foldlM
      (fun (log : ScoreLog) p => log.add p.1 p.2) ⟨0, []⟩

/-- `scoreVarargsApplicability`, logged. -/
def logVarargsApplicability (method : MethodSummary) (argTypes : List TypeName) : Option ScoreLog :=
  if !isVarargsMethod method then none
  else
    match method.params.getLast? with
    | none => none
    | some last =>
      let fixedPrefix := method.params.length - 1
      if argTypes.length < fixedPrefix then none
      else
        (((method.params.take fixedPrefix).zip argTypes).foldlM
            (fun (log : ScoreLog) p => log.add p.1.descriptor.toList p.2) ⟨0, []⟩).bind fun log =>
          match last.descriptor.toList with
          | '[' :: varargElem =>
            ((argTypes.drop fixedPrefix).foldlM (fun (log : ScoreLog) arg => log.add varargElem arg) log).map fun log =>
              { log with total := log.total - 1 }
          | _ => none

/-- The test of applicability in a mode. -/
def scoreApplicability (method : MethodSummary) (argTypes : List TypeName) : OverloadInvocationMode → Option ℤ
  | .fixed => scoreFixedApplicability method argTypes
  | .varargs => scoreVarargsApplicability method argTypes

def logApplicability (method : MethodSummary) (argTypes : List TypeName) : OverloadInvocationMode → Option ScoreLog
  | .fixed => logFixedApplicability method argTypes
  | .varargs => logVarargsApplicability method argTypes

section Log

variable {method : MethodSummary} {args : List TypeName} {mode : OverloadInvocationMode} {score : ℤ}

/-- A loop that logs ends as the loop that does not, and its log is longer by what the loop went over. -/
theorem foldlM_add_eq {ι : Type} (desc : ι → List Char) (arg : ι → TypeName) (items : List ι) (log : ScoreLog) :
    items.foldlM (fun (log : ScoreLog) i => log.add (desc i) (arg i)) log =
      (items.foldlM (fun total i => addScore total (desc i) (arg i)) log.total).map fun total =>
        ⟨total, log.scored ++ items.map fun i => (desc i, arg i)⟩ := by
  induction items generalizing log with
  | nil => simp
  | cons i items ih =>
    rw [List.foldlM_cons, List.foldlM_cons, ScoreLog.add]
    cases hscore : addScore log.total (desc i) (arg i) with
    | none => rfl
    | some total =>
      have hrest := ih ⟨total, log.scored ++ [(desc i, arg i)]⟩
      rw [List.append_assoc] at hrest
      exact hrest

theorem foldlM_add_elements (varargElem : List Char) (args : List TypeName) (log : ScoreLog) :
    args.foldlM (fun (log : ScoreLog) arg => log.add varargElem arg) log =
      (args.foldlM (fun total arg => addScore total varargElem arg) log.total).map fun total =>
        ⟨total, log.scored ++ args.map fun arg => (varargElem, arg)⟩ :=
  foldlM_add_eq (fun _ => varargElem) id args log

theorem foldlM_zip_eq {descs : List (List Char)} (hlen : descs.length = args.length) :
    (descs.zip args).foldlM (fun total p => addScore total p.1 p.2) 0 = scoreDescriptorList descs args := by
  ext score
  rw [foldlM_addScore_iff Prod.fst Prod.snd, List.map_fst_zip hlen.le, List.map_snd_zip hlen.ge]
  simp [scores_iff]

theorem logFixedApplicability_eq (method : MethodSummary) (args : List TypeName) :
    logFixedApplicability method args = (scoreFixedApplicability method args).map fun total =>
      ⟨total, (method.params.map fun p => p.descriptor.toList).zip args⟩ := by
  rw [logFixedApplicability, scoreFixedApplicability]
  split_ifs with hlen
  · rfl
  · have hdescs : (method.params.map fun p => p.descriptor.toList).length = args.length := by simpa using hlen
    rw [foldlM_add_eq Prod.fst Prod.snd, foldlM_zip_eq hdescs]
    simp

/-- By variable arity the elements of the last parameter are scored against the arguments behind the others. -/
theorem logVarargsApplicability_eq {fixedPrefix : List MethodParam} {last : MethodParam} {varargElem : List Char}
    (hparams : method.params = fixedPrefix ++ [last]) (hlast : last.descriptor.toList = '[' :: varargElem) :
    logVarargsApplicability method args = (scoreVarargsApplicability method args).map fun total =>
      ⟨total, ((fixedPrefix.map fun p => p.descriptor.toList).zip args) ++
        (args.drop fixedPrefix.length).map fun arg => (varargElem, arg)⟩ := by
  have hlen : (fixedPrefix ++ [last]).length - 1 = fixedPrefix.length := by simp
  rw [logVarargsApplicability, scoreVarargsApplicability]
  split_ifs with hvarargs
  · rfl
  · rw [hparams, List.getLast?_concat]
    dsimp only
    rw [hlen, List.take_left, hlast]
    split_ifs with hshort
    · rfl
    · rw [foldlM_add_eq (fun p : MethodParam × TypeName => p.1.descriptor.toList) Prod.snd]
      cases hfirst : (fixedPrefix.zip args).foldlM (fun total p => addScore total p.1.descriptor.toList p.2) 0 with
      | none => rfl
      | some total =>
        change ((args.drop fixedPrefix.length).foldlM (fun (log : ScoreLog) arg => log.add varargElem arg) _).map _ =
          (((args.drop fixedPrefix.length).foldlM (fun total arg => addScore total varargElem arg) total).map _).map _
        rw [foldlM_add_elements]
        cases (args.drop fixedPrefix.length).foldlM (fun total arg => addScore total varargElem arg) total with
        | none => rfl
        | some total' => simp [List.zip, List.map_zipWith, List.zipWith_map_left]

/-- The logs do not change what is scored. -/
theorem logApplicability_total (method : MethodSummary) (args : List TypeName) (mode : OverloadInvocationMode) :
    (logApplicability method args mode).map ScoreLog.total = scoreApplicability method args mode := by
  cases mode with
  | fixed =>
    rw [logApplicability, logFixedApplicability_eq, Option.map_map]
    exact Option.map_id'
  | varargs =>
    rw [logApplicability, scoreApplicability]
    cases hvarargs : isVarargsMethod method with
    | false => rw [logVarargsApplicability, scoreVarargsApplicability, hvarargs]; rfl
    | true =>
      obtain ⟨-, fixedPrefix, last, varargElem, hparams, hlast⟩ := isVarargsMethod_iff.mp hvarargs
      rw [logVarargsApplicability_eq hparams hlast, Option.map_map]
      exact Option.map_id'

end Log

/-! ## The same parameter -/

/-- The parameter an argument is mapped to is of this type, or of arrays of it where the argument is an element. -/
def MappedTo (method : MethodSummary) (mode : OverloadInvocationMode) (argIndex : ℕ) (desc : List Char) : Prop :=
  ∃ mappedIndex varargElement param,
    mapArgumentIndexToParameter method argIndex mode method.params.length = some (mappedIndex, varargElement) ∧
      method.params[mappedIndex]? = some param ∧
        param.descriptor.toList = if varargElement then '[' :: desc else desc

section Agreement

variable {method : MethodSummary} {args : List TypeName} {mode : OverloadInvocationMode} {desc : List Char}
  {argIndex : ℕ} {log : ScoreLog}

theorem MappedTo.resolve (h : MappedTo method mode argIndex desc) :
    resolveSelectedParamDescriptorForCall method argIndex mode = some desc := by
  obtain ⟨mappedIndex, varargElement, param, hmapped, hparam, hdesc⟩ := h
  rw [resolveSelectedParamDescriptorForCall, hmapped, Option.bind_some]
  dsimp only
  rw [hparam, Option.bind_some, hdesc]
  cases varargElement <;> rfl

theorem mappedTo_fixed {param : MethodParam} (h : method.params[argIndex]? = some param) :
    MappedTo method .fixed argIndex param.descriptor.toList := by
  obtain ⟨hlt, -⟩ := List.getElem?_eq_some_iff.mp h
  refine ⟨argIndex, false, param, ?_, h, rfl⟩
  rw [mapArgumentIndexToParameter, if_neg (Nat.ne_zero_of_lt hlt)]
  exact if_neg (not_le.mpr hlt)

section Varargs

variable {fixedPrefix : List MethodParam} {last : MethodParam} {varargElem : List Char}

theorem map_varargs (hvarargs : isVarargsMethod method = true) (hparams : method.params = fixedPrefix ++ [last]) :
    mapArgumentIndexToParameter method argIndex .varargs method.params.length =
      if argIndex < fixedPrefix.length then some (argIndex, false) else some (fixedPrefix.length, true) := by
  have hlen : method.params.length = fixedPrefix.length + 1 := by rw [hparams, List.length_append, List.length_singleton]
  rw [mapArgumentIndexToParameter, hlen, hvarargs]
  rfl

theorem mappedTo_front (hvarargs : isVarargsMethod method = true) (hparams : method.params = fixedPrefix ++ [last])
    {param : MethodParam} (h : fixedPrefix[argIndex]? = some param) :
    MappedTo method .varargs argIndex param.descriptor.toList := by
  obtain ⟨hlt, -⟩ := List.getElem?_eq_some_iff.mp h
  refine ⟨argIndex, false, param, ?_, ?_, rfl⟩
  · rw [map_varargs hvarargs hparams, if_pos hlt]
  · rw [hparams, List.getElem?_append_left hlt, h]

theorem mappedTo_element (hvarargs : isVarargsMethod method = true) (hparams : method.params = fixedPrefix ++ [last])
    (hlast : last.descriptor.toList = '[' :: varargElem) (h : fixedPrefix.length ≤ argIndex) :
    MappedTo method .varargs argIndex varargElem := by
  refine ⟨fixedPrefix.length, true, last, ?_, ?_, hlast⟩
  · rw [map_varargs hvarargs hparams, if_neg (not_lt.mpr h)]
  · rw [hparams, List.getElem?_concat_length]

end Varargs

theorem scored_fixed (h : logApplicability method args .fixed = some log) :
    log.scored.map Prod.snd = args ∧
      ∀ argIndex entry, log.scored[argIndex]? = some entry → MappedTo method .fixed argIndex entry.1 := by
  rw [logApplicability, logFixedApplicability_eq] at h
  obtain ⟨score, hscore, rfl⟩ := Option.map_eq_some_iff.mp h
  have hlen : method.params.length = args.length := by
    rw [scoreFixedApplicability] at hscore
    split_ifs at hscore with hlen
    exact not_not.mp hlen
  refine ⟨List.map_snd_zip (by rw [List.length_map, hlen]), fun argIndex entry hentry => ?_⟩
  obtain ⟨hdesc, -⟩ := List.getElem?_zip_eq_some.mp hentry
  rw [List.getElem?_map] at hdesc
  obtain ⟨param, hparam, hdesc⟩ := Option.map_eq_some_iff.mp hdesc
  exact hdesc ▸ mappedTo_fixed hparam

theorem scored_varargs (h : logApplicability method args .varargs = some log) :
    log.scored.map Prod.snd = args ∧
      ∀ argIndex entry, log.scored[argIndex]? = some entry → MappedTo method .varargs argIndex entry.1 := by
  obtain ⟨score, hscore⟩ : ∃ score, scoreVarargsApplicability method args = some score :=
    ⟨log.total, (logApplicability_total method args .varargs).symm.trans (congrArg (Option.map ScoreLog.total) h)⟩
  cases applies_varargs_iff.mpr hscore with
  | varargs hflag hparams hlast hscores =>
    rename_i fixedPrefix last varargElem count total
    have hvarargs := isVarargsMethod_iff.mpr ⟨hflag, fixedPrefix, last, varargElem, hparams, hlast⟩
    have hprefix : fixedPrefix.length ≤ args.length := by
      have hlen := hscores.length
      rw [List.length_append, List.length_map] at hlen
      omega
    rw [logApplicability, logVarargsApplicability_eq hparams hlast] at h
    obtain ⟨_, -, rfl⟩ := Option.map_eq_some_iff.mp h
    have hfirst : ((fixedPrefix.map fun p => p.descriptor.toList).zip args).map Prod.snd =
        args.take fixedPrefix.length := by
      rw [List.zip_eq_zip_take_min, List.length_map, Nat.min_eq_left hprefix]
      exact List.map_snd_zip (by simp)
    constructor
    · rw [List.map_append, hfirst, List.map_map]
      exact (congrArg _ (List.map_id' _)).trans (List.take_append_drop ..)
    · intro argIndex entry hentry
      by_cases hfront : argIndex < fixedPrefix.length
      · rw [List.getElem?_append_left (by simpa using ⟨hfront, hfront.trans_le hprefix⟩)] at hentry
        obtain ⟨hdesc, -⟩ := List.getElem?_zip_eq_some.mp hentry
        rw [List.getElem?_map] at hdesc
        obtain ⟨param, hparam, hdesc⟩ := Option.map_eq_some_iff.mp hdesc
        exact hdesc ▸ mappedTo_front hvarargs hparams hparam
      · rw [List.getElem?_append_right (by simp; omega), List.getElem?_map] at hentry
        obtain ⟨arg, -, rfl⟩ := Option.map_eq_some_iff.mp hentry
        exact mappedTo_element hvarargs hparams hlast (not_lt.mp hfront)

/-- Where a method is judged applicable, each argument is scored once, against the type that the two mappings give it. -/
theorem scored_mapped (h : logApplicability method args mode = some log) :
    log.scored.map Prod.snd = args ∧ ∀ argIndex entry, log.scored[argIndex]? = some entry →
      MappedTo method mode argIndex entry.1 ∧
        resolveSelectedParamDescriptorForCall method argIndex mode = some entry.1 := by
  have hmode : log.scored.map Prod.snd = args ∧
      ∀ argIndex entry, log.scored[argIndex]? = some entry → MappedTo method mode argIndex entry.1 := by
    cases mode with
    | fixed => exact scored_fixed h
    | varargs => exact scored_varargs h
  exact ⟨hmode.1, fun argIndex entry hentry => ⟨hmode.2 argIndex entry hentry, (hmode.2 argIndex entry hentry).resolve⟩⟩

end Agreement

/-! ## Selected methods -/

/-- A selected method is a candidate that was judged applicable. -/
def Judged (candidates : List MethodSummary) (argTypes : List TypeName) (m : OverloadMatch) : Prop :=
  m.method ∈ candidates ∧ scoreApplicability m.method argTypes m.mode = some m.score

section Selected

variable (view : IndexView) (evaluateFunctionalArgCompatibility : String → JvmType → FunctionalCompatStatus)
  (receiverInternal : String) (ctx : EvalContext) {candidates : List MethodSummary} {args : CallArgs} {m : OverloadMatch}

theorem judged_of_mem {argTypes : List TypeName} (h : m ∈ candidates.flatMap (matchesOf argTypes)) :
    Judged candidates argTypes m := by
  obtain ⟨method, hmethod, hm⟩ := List.mem_flatMap.mp h
  obtain ⟨rfl, happlies⟩ := mem_matchesOf.mp hm
  refine ⟨hmethod, ?_⟩
  cases hmode : m.mode with
  | fixed => exact applies_fixed_iff.mp (hmode ▸ happlies)
  | varargs => exact applies_varargs_iff.mp (hmode ▸ happlies)

theorem selectOverloadMatch_judged {argCount : ℕ} {argTypes : List TypeName}
    (h : selectOverloadMatch candidates argCount argTypes = some m) :
    Judged candidates (normalizeArgTypes argCount argTypes) m := by
  rw [selectOverloadMatch_eq, ← normalizeArgTypes_eq] at h
  exact judged_of_mem (List.argmax_mem h)

theorem selectOverloadMatchWithCallsite_judged
    (h : selectOverloadMatchWithCallsite view evaluateFunctionalArgCompatibility receiverInternal args ctx candidates =
      some m) : ∃ functionalArgIndexes, Judged candidates (callsiteArgTypes args functionalArgIndexes) m := by
  rw [selectOverloadMatchWithCallsite] at h
  split_ifs at h
  · exact ⟨[], selectOverloadMatch_judged h⟩
  · obtain ⟨best, hbest, h⟩ := Option.bind_eq_some_iff.mp h
    obtain ⟨-, h⟩ := Option.ite_none_left_eq_some.mp h
    cases h
    obtain ⟨method, hmethod, hmem⟩ := List.mem_flatMap.mp (BestOf.isBest_maxBy hbest).1
    obtain ⟨tried, htried, hbuilt⟩ := List.mem_filterMap.mp hmem
    rw [build_overload _ _ _ _ _ hbuilt]
    exact ⟨_, judged_of_mem (List.mem_flatMap.mpr ⟨method, hmethod, htried⟩)⟩

theorem callsiteArgTypes_length (args : CallArgs) (functionalArgIndexes : List ℕ) :
    (callsiteArgTypes args functionalArgIndexes).length = args.count := by
  have hset : ∀ types : List TypeName, (functionalArgIndexes.foldl
      (fun types argIndex => types.set argIndex .unknown) types).length = types.length := by
    induction functionalArgIndexes with
    | nil => exact fun _ => rfl
    | cons argIndex rest ih => exact fun types => (ih _).trans List.length_set
  rw [callsiteArgTypes, hset, normalizeArgTypes_eq, List.takeD_length]

theorem Judged.scored {argTypes : List TypeName} (h : Judged candidates argTypes m) :
    ∃ log, logApplicability m.method argTypes m.mode = some log ∧ log.total = m.score := by
  rw [← Option.map_eq_some_iff, logApplicability_total]
  exact h.2

/-- Whichever way a method is selected, it was judged applicable to the call's arguments, with the functional ones left
out, and each argument was scored against the type that both mappings give it. -/
theorem selected_param_descriptor_scored
    (hselected : selectOverloadMatch candidates args.count args.types = some m ∨
      selectOverloadMatchWithCallsite view evaluateFunctionalArgCompatibility receiverInternal args ctx candidates =
        some m) :
    ∃ functionalArgIndexes log,
      logApplicability m.method (callsiteArgTypes args functionalArgIndexes) m.mode = some log ∧
        log.total = m.score ∧ log.scored.map Prod.snd = callsiteArgTypes args functionalArgIndexes ∧
          ∀ argIndex < args.count, ∃ desc, (log.scored.map Prod.fst)[argIndex]? = some desc ∧
            MappedTo m.method m.mode argIndex desc ∧
              resolveSelectedParamDescriptorForCall m.method argIndex m.mode = some desc := by
  obtain ⟨functionalArgIndexes, hjudged⟩ : ∃ functionalArgIndexes,
      Judged candidates (callsiteArgTypes args functionalArgIndexes) m := by
    rcases hselected with h | h
    · exact ⟨[], selectOverloadMatch_judged h⟩
    · exact selectOverloadMatchWithCallsite_judged view evaluateFunctionalArgCompatibility receiverInternal ctx h
  obtain ⟨log, hlog, htotal⟩ := hjudged.scored
  obtain ⟨hargs, hmapped⟩ := scored_mapped hlog
  refine ⟨functionalArgIndexes, log, hlog, htotal, hargs, fun argIndex hindex => ?_⟩
  have hlen : argIndex < log.scored.length := by
    rwa [← callsiteArgTypes_length args functionalArgIndexes, ← hargs, List.length_map] at hindex
  have hentry := List.getElem?_eq_getElem hlen
  exact ⟨log.scored[argIndex].1, by rw [List.getElem?_map, hentry, Option.map_some], hmapped argIndex _ hentry⟩

end Selected

/-- `void m(String... args)` with two arguments. -/
theorem selected_param_descriptor_scored_variableArity : ∃ functionalArgIndexes log,
    logApplicability variableArity (callsiteArgTypes ⟨2, [], []⟩ functionalArgIndexes) .varargs = some log ∧
      log.total = -1 ∧ log.scored.map Prod.snd = callsiteArgTypes ⟨2, [], []⟩ functionalArgIndexes ∧
        ∀ argIndex < 2, ∃ desc, (log.scored.map Prod.fst)[argIndex]? = some desc ∧
          MappedTo variableArity .varargs argIndex desc ∧
            resolveSelectedParamDescriptorForCall variableArity argIndex .varargs = some desc :=
  @selected_param_descriptor_scored (.new []) (fun _ _ => .inPart) "A" ⟨fun _ _ => none⟩
    [variableArity, fixedArity] ⟨2, [], []⟩ ⟨variableArity, .varargs, -1⟩ (.inl (by decide))

end JavaAnalyzer.Semantic
