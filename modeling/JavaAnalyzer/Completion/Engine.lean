import JavaAnalyzer.Completion.PostProcessor
import JavaAnalyzer.Completion.Scorer
import JavaAnalyzer.Library.CheckedRuns
import JavaAnalyzer.Library.TextLines
import JavaAnalyzer.Lsp.CancellationToken

/-! # The completion engine

`completion/engine.rs` and `process` of `completion/post_processor.rs`: the applicable providers are asked in parallel,
what they offer is scored, deduplicated, sorted and cut to a limit, and the request may be cancelled before any check.
`Contract` says what the list is that the engine gives. -/

namespace JavaAnalyzer.Completion
set_option autoImplicit false
open CheckedRuns Lsp

/-! ## Post processing -/

/-- What a request shows to its checks, one after the other. -/
abbrev Request := ℕ → Option Cancelled

/-- A check in a loop, at every so many turns. -/
def checkEvery (request : Option Request) (every index : ℕ) : Checked Cancelled Unit :=
  if index % every = 0 then check request else pure ()

/-- `sort_unstable_by`: candidates with equal keys come in any order. -/
structure UnstableSort where
  sort : {κ : Type} → [LinearOrder κ] → (CompletionCandidate → κ) → List CompletionCandidate → List CompletionCandidate
  perm : ∀ {κ : Type} [LinearOrder κ] (key : CompletionCandidate → κ) (l : List CompletionCandidate),
    (sort key l).Perm l
  sorted : ∀ {κ : Type} [LinearOrder κ] (key : CompletionCandidate → κ) (l : List CompletionCandidate),
    (sort key l).Pairwise fun a b => key a ≤ key b

theorem pairwise_mergeSort_key {κ : Type} [LinearOrder κ] (key : CompletionCandidate → κ)
    (l : List CompletionCandidate) :
    (l.mergeSort fun a b => key a ≤ key b).Pairwise fun a b => key a ≤ key b := by
  have htrans : ∀ a b c,
      decide (key a ≤ key b) = true → decide (key b ≤ key c) = true → decide (key a ≤ key c) = true :=
    fun _ _ _ hab hbc => decide_eq_true ((of_decide_eq_true hab).trans (of_decide_eq_true hbc))
  have htotal : ∀ a b, (decide (key a ≤ key b) || decide (key b ≤ key a)) = true :=
    fun a b => by simpa using le_total (key a) (key b)
  exact (List.pairwise_mergeSort htrans htotal l).imp of_decide_eq_true

/-- A stable sort is one of them. -/
instance : Inhabited UnstableSort :=
  ⟨⟨fun key l => l.mergeSort fun a b => key a ≤ key b, fun _ l => l.mergeSort_perm _, pairwise_mergeSort_key⟩⟩

/-- The better score first, then the label. -/
def CompletionCandidate.rankOrder (c : CompletionCandidate) : ℚᵒᵈ ×ₗ String :=
  toLex (OrderDual.toDual c.score, c.label)

def rescored (tables : CaseTables) (scorer : Scorer) (c : CompletionCandidate) : CompletionCandidate :=
  { c with score := c.score + scorer.score tables c }

section Process

variable (sorts : UnstableSort) (tables : CaseTables) (scorer : Scorer) (request : Option Request)

/-- The scoring loop, with a check at every 64th candidate. -/
def scoreCandidates : ℕ → List CompletionCandidate → Checked Cancelled (List CompletionCandidate)
  | _, [] => pure []
  | index, c :: rest => do
    checkEvery request 64 index
    let scored ← scoreCandidates (index + 1) rest
    return rescored tables scorer c :: scored

def dedupLoop : ℕ → List CompletionCandidate → List CompletionCandidate →
    Checked Cancelled (List CompletionCandidate)
  | _, result, [] => pure result
  | index, result, c :: rest => do
    checkEvery request 64 index
    dedupLoop (index + 1) (dedupStep result c) rest

def dedupWithRequest (candidates : List CompletionCandidate) : Checked Cancelled (List CompletionCandidate) :=
  dedupLoop request 0 [] (sorts.sort CompletionCandidate.dedupOrder candidates)

def process (candidates : List CompletionCandidate) : Checked Cancelled (List CompletionCandidate) := do
  let scored ← scoreCandidates tables scorer request 0 candidates
  let kept ← dedupWithRequest sorts request scored
  check request
  return sorts.sort CompletionCandidate.rankOrder kept

end Process

/-! ## Providers -/

inductive ProviderSearchSpace where
  | narrow
  | broad
deriving DecidableEq

structure ProviderCompletionResult where
  candidates : List CompletionCandidate
  isIncomplete : Bool

/-- A provider at the context of the request. -/
structure CompletionProvider where
  isApplicable : Bool
  searchSpace : ProviderSearchSpace
  provide : Option ℕ → Except Cancelled ProviderCompletionResult

structure CompletionPolicy where
  broadProviderLimit : ℕ
  finalResultLimit : Option ℕ
  shortPrefixLen : ℕ

structure CompletionMetadata where
  broadQuery : Bool
  usedBroadProvider : Bool
  providerTruncated : Bool
  finalTruncated : Bool

def CompletionMetadata.isIncomplete (metadata : CompletionMetadata) : Bool :=
  metadata.providerTruncated || metadata.finalTruncated

structure CompletionOutput where
  candidates : List CompletionCandidate
  metadata : CompletionMetadata

/-- The locations, with what is typed where the engine looks at it. -/
inductive CursorLocation where
  | expression (typed : String)
  | typeAnnotation (typed : String)
  | methodArgument (typed : String)
  | constructorCall (typed : String)
  | annotation (typed : String)
  | memberAccess
  | importDecl
  | importStatic
  | methodReference
  | statementLabel
  | variableName
  | annotationParam
  | stringLiteral
  | unknown

def isBroadQuery (location : CursorLocation) (shortPrefixLen : ℕ) : Bool :=
  match location with
  | .expression typed | .methodArgument typed | .constructorCall typed
  | CursorLocation.typeAnnotation typed | CursorLocation.annotation typed =>
    '.' ∉ typed.toList && TextLines.byteLength typed.toList ≤ shortPrefixLen
  | _ => false

/-- What the parallel iterators make of the providers' results: all of them in order, or one of the failures. -/
structure ParallelCollect where
  collect : List (Except Cancelled (ProviderCompletionResult × Bool)) →
    Except Cancelled (List (ProviderCompletionResult × Bool))
  ok : ∀ results values, collect results = .ok values → results = values.map .ok
  error : ∀ results reason, collect results = .error reason → .error reason ∈ results

section FirstFailure

variable {results : List (Except Cancelled (ProviderCompletionResult × Bool))}

theorem mapM_id_ok {values : List (ProviderCompletionResult × Bool)} (h : results.mapM id = .ok values) :
    results = values.map .ok := by
  induction results generalizing values with
  | nil =>
    cases h
    rfl
  | cons first rest ih =>
    rw [List.mapM_cons] at h
    cases first with
    | error reason => cases h
    | ok value =>
      cases hrest : rest.mapM id with
      | error reason =>
        rw [hrest] at h
        cases h
      | ok others =>
        rw [hrest] at h
        cases h
        rw [List.map_cons, ← ih hrest]

theorem mapM_id_error {reason : Cancelled} (h : results.mapM id = .error reason) : .error reason ∈ results := by
  induction results with
  | nil => cases h
  | cons first rest ih =>
    rw [List.mapM_cons] at h
    cases first with
    | error other =>
      cases h
      exact List.mem_cons_self
    | ok value =>
      cases hrest : rest.mapM id with
      | error other =>
        rw [hrest] at h
        cases h
        exact List.mem_cons_of_mem _ (ih hrest)
      | ok others =>
        rw [hrest] at h
        cases h

end FirstFailure

/-- The first failure is one of them. -/
instance : Inhabited ParallelCollect :=
  ⟨⟨List.mapM id, fun _ _ => mapM_id_ok, fun _ _ => mapM_id_error⟩⟩

def dispatch (policy : CompletionPolicy) (broadQuery : Bool) (provider : CompletionProvider) :
    Except Cancelled (ProviderCompletionResult × Bool) :=
  let useLimit := broadQuery && provider.searchSpace = .broad
  (provider.provide (if useLimit then some policy.broadProviderLimit else none)).map fun result => (result, useLimit)

/-- The loop over the results, with a check at every eighth. -/
def mergeResults (request : Option Request) : ℕ → List (ProviderCompletionResult × Bool) → CompletionOutput →
    Checked Cancelled CompletionOutput
  | _, [], output => pure output
  | index, (result, useLimit) :: rest, output => do
    checkEvery request 8 index
    mergeResults request (index + 1) rest
      { candidates := output.candidates ++ result.candidates
        metadata := { output.metadata with
          usedBroadProvider := output.metadata.usedBroadProvider || useLimit
          providerTruncated := output.metadata.providerTruncated || result.isIncomplete } }

/-- The cut to the final limit. -/
def truncated (policy : CompletionPolicy) (output : CompletionOutput) : CompletionOutput :=
  match policy.finalResultLimit with
  | none => output
  | some limit =>
    if limit < output.candidates.length then
      { candidates := output.candidates.take limit
        metadata := { output.metadata with finalTruncated := true } }
    else output

section Engine

variable (sorts : UnstableSort) (tables : CaseTables) (scorer : Scorer) (parallel : ParallelCollect)
  (request : Option Request) (policy : CompletionPolicy) (location : CursorLocation)
  (langProviders extraProviders : List CompletionProvider)

/-- `complete_prepared_with_policy_and_request` -/
def completePrepared : Checked Cancelled CompletionOutput := do
  let broadQuery := isBroadQuery location policy.shortPrefixLen
  check request
  let applicableLang := langProviders.filter CompletionProvider.isApplicable
  let applicableExtra := extraProviders.filter CompletionProvider.isApplicable
  check request
  let langResults ← StateT.lift (parallel.collect (applicableLang.map (dispatch policy broadQuery)))
  let extraResults ← StateT.lift (parallel.collect (applicableExtra.map (dispatch policy broadQuery)))
  let merged ← mergeResults request 0 (langResults ++ extraResults) ⟨[], ⟨broadQuery, false, false, false⟩⟩
  check request
  let candidates ← process sorts tables scorer request merged.candidates
  return truncated policy { merged with candidates := candidates }

/-- The providers that are asked. -/
def asked : List CompletionProvider :=
  (langProviders ++ extraProviders).filter CompletionProvider.isApplicable

end Engine

/-! ## What the engine gives -/

/-- The results of the asked providers, in order. -/
def Answered (policy : CompletionPolicy) (broadQuery : Bool) (providers : List CompletionProvider)
    (results : List (ProviderCompletionResult × Bool)) : Prop :=
  providers.map (dispatch policy broadQuery) = results.map .ok

def offeredBy (results : List (ProviderCompletionResult × Bool)) : List CompletionCandidate :=
  results.flatMap fun result => result.1.candidates

/-- The list that comes out for what was offered, by the scores it has in the end. -/
structure Contract (limit : Option ℕ) (offered : List CompletionCandidate) (providerTruncated : Bool)
    (out : CompletionOutput) : Prop where
  mem : ∀ c ∈ out.candidates, c ∈ offered
  ranked : out.candidates.Pairwise fun a b => a.rankOrder ≤ b.rankOrder
  apart : out.candidates.Pairwise fun a b => ¬ Duplicates a b
  /-- Each offered candidate is represented, unless the list was cut before its representative. -/
  covers : ∀ c ∈ offered, ∃ d ∈ offered, Duplicates d c ∧
    (d ∈ out.candidates ∨ out.metadata.finalTruncated = true ∧ ∀ kept ∈ out.candidates, kept.rankOrder ≤ d.rankOrder)
  within : ∀ n, limit = some n → out.candidates.length ≤ n
  cut : out.metadata.finalTruncated = true → limit = some out.candidates.length
  incomplete : out.metadata.isIncomplete = (providerTruncated || out.metadata.finalTruncated)

section Spec

variable {sorts : UnstableSort} {tables : CaseTables} {scorer : Scorer} {parallel : ParallelCollect}
  {request : Option Request} {policy : CompletionPolicy} {location : CursorLocation}
  {langProviders extraProviders : List CompletionProvider} {stops : Cancelled → Prop}

/-- What a check may stop with. -/
def Shows (request : Option Request) (reason : Cancelled) : Prop :=
  ∃ seen n, request = some seen ∧ seen n = some reason

theorem checkEvery_yields (hstops : ∀ reason, Shows request reason → stops reason) (every index : ℕ) :
    Yields stops (fun _ => True) (checkEvery request every index) :=
  Yields.checkIf fun seen n reason hseen hn => hstops reason ⟨seen, n, hseen, hn⟩

theorem scoreCandidates_yields (hstops : ∀ reason, Shows request reason → stops reason) (index : ℕ)
    (candidates : List CompletionCandidate) :
    Yields stops (fun scored => scored = candidates.map (rescored tables scorer))
      (scoreCandidates tables scorer request index candidates) := by
  induction candidates generalizing index with
  | nil => exact Yields.pure rfl
  | cons c rest ih =>
    refine (checkEvery_yields hstops 64 index).bind fun _ _ => ?_
    refine (ih (index + 1)).bind fun scored hscored => Yields.pure ?_
    rw [hscored, List.map_cons]

theorem dedupLoop_yields (hstops : ∀ reason, Shows request reason → stops reason) (index : ℕ)
    (result candidates : List CompletionCandidate) :
    Yields stops (fun kept => kept = candidates.foldl dedupStep result)
      (dedupLoop request index result candidates) := by
  induction candidates generalizing index result with
  | nil => exact Yields.pure rfl
  | cons c rest ih =>
    refine (checkEvery_yields hstops 64 index).bind fun _ _ => ?_
    exact ih (index + 1) (dedupStep result c)

theorem dedupWithRequest_yields (hstops : ∀ reason, Shows request reason → stops reason)
    (candidates : List CompletionCandidate) :
    Yields stops (Deduped candidates) (dedupWithRequest sorts request candidates) :=
  (dedupLoop_yields hstops 0 [] _).imp fun _ hkept => ⟨_, sorts.perm _ _, sorts.sorted _ _, hkept⟩

theorem process_yields (hstops : ∀ reason, Shows request reason → stops reason)
    (candidates : List CompletionCandidate) :
    Yields stops (fun ranked => ∃ kept, Deduped (candidates.map (rescored tables scorer)) kept ∧
        ranked.Perm kept ∧ ranked.Pairwise fun a b => a.rankOrder ≤ b.rankOrder)
      (process sorts tables scorer request candidates) := by
  refine (scoreCandidates_yields hstops 0 candidates).bind fun scored hscored => ?_
  refine (dedupWithRequest_yields hstops scored).bind fun kept hkept => ?_
  refine (Yields.check fun seen n reason hseen hn => hstops reason ⟨seen, n, hseen, hn⟩).bind fun _ _ => Yields.pure ?_
  exact ⟨kept, hscored ▸ hkept, sorts.perm _ _, sorts.sorted _ _⟩

theorem mergeResults_yields (hstops : ∀ reason, Shows request reason → stops reason) (index : ℕ)
    (results : List (ProviderCompletionResult × Bool)) (output : CompletionOutput) :
    Yields stops (fun merged => merged.candidates = output.candidates ++ offeredBy results ∧
        merged.metadata.finalTruncated = output.metadata.finalTruncated ∧
        merged.metadata.providerTruncated =
          (output.metadata.providerTruncated || results.any fun result => result.1.isIncomplete))
      (mergeResults request index results output) := by
  induction results generalizing index output with
  | nil =>
    refine Yields.pure ⟨(List.append_nil _).symm, rfl, ?_⟩
    rw [List.any_nil, Bool.or_false]
  | cons first rest ih =>
    refine (checkEvery_yields hstops 8 index).bind fun _ _ => ?_
    refine (ih (index + 1) _).imp fun merged hmerged => ?_
    obtain ⟨hcandidates, hfinal, hprovider⟩ := hmerged
    refine ⟨?_, hfinal, ?_⟩
    · rw [hcandidates, List.append_assoc]
      rfl
    · rw [hprovider, List.any_cons, Bool.or_assoc]

/-- The cut keeps the front of a ranked list of representatives. -/
theorem contract_truncated {offered kept ranked : List CompletionCandidate} {metadata : CompletionMetadata}
    (hkept : Deduped offered kept) (hperm : ranked.Perm kept)
    (hranked : ranked.Pairwise fun a b => a.rankOrder ≤ b.rankOrder) (hfinal : metadata.finalTruncated = false) :
    Contract policy.finalResultLimit offered metadata.providerTruncated (truncated policy ⟨ranked, metadata⟩) := by
  have hmem : ∀ c ∈ ranked, c ∈ offered := fun c hc => hkept.mem (hperm.mem_iff.mp hc)
  have hapart : ranked.Pairwise fun a b => ¬ Duplicates a b := by
    have hkeys := (hperm.map CompletionCandidate.dedupKey).nodup_iff.mpr hkept.nodup
    exact (List.pairwise_map.mp hkeys).imp fun hne hdup => hne (duplicates_iff.mp hdup)
  have hcovers : ∀ c ∈ offered, ∃ d ∈ ranked, Duplicates d c := by
    intro c hc
    obtain ⟨d, hd, hdup⟩ := hkept.covers hc
    exact ⟨d, hperm.mem_iff.mpr hd, hdup⟩
  have hwhole (hwithin : ∀ n, policy.finalResultLimit = some n → ranked.length ≤ n) :
      Contract policy.finalResultLimit offered metadata.providerTruncated ⟨ranked, metadata⟩ := by
    refine ⟨hmem, hranked, hapart, ?_, hwithin, ?_, ?_⟩
    · intro c hc
      obtain ⟨d, hd, hdup⟩ := hcovers c hc
      exact ⟨d, hmem d hd, hdup, Or.inl hd⟩
    · intro hcut
      rw [hfinal] at hcut
      cases hcut
    · rfl
  unfold truncated
  cases hlimit : policy.finalResultLimit with
  | none =>
    rw [hlimit] at hwhole
    exact hwhole fun n hn => by cases hn
  | some limit =>
    rw [hlimit] at hwhole
    dsimp only
    split_ifs with hlong
    · have hsplit : (ranked.take limit ++ ranked.drop limit).Pairwise fun a b => a.rankOrder ≤ b.rankOrder := by
        rw [List.take_append_drop]
        exact hranked
      have hlength : (ranked.take limit).length = limit := by
        rw [List.length_take, Nat.min_eq_left hlong.le]
      refine ⟨fun c hc => hmem c (List.mem_of_mem_take hc), hranked.sublist (List.take_sublist _ _),
        hapart.sublist (List.take_sublist _ _), ?_, ?_, ?_, ?_⟩
      · intro c hc
        obtain ⟨d, hd, hdup⟩ := hcovers c hc
        refine ⟨d, hmem d hd, hdup, ?_⟩
        rw [← List.take_append_drop limit ranked, List.mem_append] at hd
        refine hd.imp_right fun hd => ⟨rfl, fun kept hkept => ?_⟩
        exact (List.pairwise_append.mp hsplit).2.2 kept hkept d hd
      · rintro n ⟨rfl⟩
        exact hlength.le
      · intro _
        exact congrArg some hlength.symm
      · rfl
    · refine hwhole ?_
      rintro n ⟨rfl⟩
      exact not_lt.mp hlong

/-- What the engine gives when it is not stopped, and what it stops with. -/
theorem completePrepared_yields (hstops : ∀ reason, Shows request reason → stops reason)
    (hproviders : ∀ provider ∈ asked langProviders extraProviders, ∀ reason,
      dispatch policy (isBroadQuery location policy.shortPrefixLen) provider = .error reason → stops reason) :
    Yields stops (fun out => ∃ results,
        Answered policy (isBroadQuery location policy.shortPrefixLen) (asked langProviders extraProviders) results ∧
        Contract policy.finalResultLimit ((offeredBy results).map (rescored tables scorer))
          (results.any fun result => result.1.isIncomplete) out)
      (completePrepared sorts tables scorer parallel request policy location langProviders extraProviders) := by
  have hcheck : Yields stops (fun _ => True) (check request) :=
    Yields.check fun seen n reason hseen hn => hstops reason ⟨seen, n, hseen, hn⟩
  have hasked : asked langProviders extraProviders =
      langProviders.filter CompletionProvider.isApplicable ++ extraProviders.filter CompletionProvider.isApplicable :=
    List.filter_append ..
  -- one half of the fan-out
  have hcollect : ∀ providers ⊆ asked langProviders extraProviders,
      Yields stops (Answered policy (isBroadQuery location policy.shortPrefixLen) providers)
        (StateT.lift (parallel.collect
          (providers.map (dispatch policy (isBroadQuery location policy.shortPrefixLen))))) := by
    intro providers hsub
    refine Yields.lift (fun results hresults => parallel.ok _ _ hresults) fun reason hreason => ?_
    obtain ⟨provider, hprovider, herror⟩ := List.mem_map.mp (parallel.error _ _ hreason)
    exact hproviders provider (hsub hprovider) reason herror
  unfold completePrepared
  refine hcheck.bind fun _ _ => hcheck.bind fun _ _ => ?_
  refine (hcollect _ (hasked ▸ List.subset_append_left ..)).bind fun langResults hlang => ?_
  refine (hcollect _ (hasked ▸ List.subset_append_right ..)).bind fun extraResults hextra => ?_
  refine (mergeResults_yields hstops 0 _ _).bind fun merged hmerged => hcheck.bind fun _ _ => ?_
  obtain ⟨hcandidates, hfinal, hprovider⟩ := hmerged
  refine (process_yields hstops merged.candidates).bind fun ranked hranked => Yields.pure ?_
  obtain ⟨kept, hkept, hperm, hsorted⟩ := hranked
  rw [hcandidates, List.nil_append] at hkept
  rw [Bool.false_or] at hprovider
  refine ⟨langResults ++ extraResults, ?_, ?_⟩
  · rw [Answered, hasked, List.map_append, List.map_append, hlang, hextra]
  · exact hprovider ▸ contract_truncated hkept hperm hsorted hfinal

end Spec

/-- Every run of the engine either stops with what a check was shown or with what an asked provider failed with, or
gives the contract for what the asked providers offered. -/
theorem completion_contract (sorts : UnstableSort) (tables : CaseTables) (scorer : Scorer) (parallel : ParallelCollect)
    (request : Option Request) (policy : CompletionPolicy) (location : CursorLocation)
    (langProviders extraProviders : List CompletionProvider) :
    Yields
      (fun reason => Shows request reason ∨ ∃ provider ∈ asked langProviders extraProviders,
        dispatch policy (isBroadQuery location policy.shortPrefixLen) provider = .error reason)
      (fun out => ∃ results,
        Answered policy (isBroadQuery location policy.shortPrefixLen) (asked langProviders extraProviders) results ∧
        Contract policy.finalResultLimit ((offeredBy results).map (rescored tables scorer))
          (results.any fun result => result.1.isIncomplete) out)
      (completePrepared sorts tables scorer parallel request policy location langProviders extraProviders) :=
  completePrepared_yields (fun _ hshows => Or.inl hshows) fun provider hmem _ herror => Or.inr ⟨provider, hmem, herror⟩

end JavaAnalyzer.Completion
