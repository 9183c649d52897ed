import Mathlib.Data.Prod.Lex
import Mathlib.Data.Rat.Defs
import Mathlib.Data.String.Basic
import JavaAnalyzer.Completion.Candidate
import JavaAnalyzer.Library.Dedup

/-! # Post processing of candidates

`dedup` of `completion/post_processor.rs` sorts the candidates by label, source, whether an import is needed, and score,
and drops a candidate that has a duplicate with its label before it. The sort is not stable, so candidates that compare
equal come in any order. -/

namespace JavaAnalyzer.Completion
set_option autoImplicit false
open Dedup

/-- `std::mem::discriminant` -/
def CandidateKind.discriminant : CandidateKind → ℕ
  | className => 0
  | package => 1
  | snippet => 2
  | method .. => 3
  | field .. => 4
  | staticMethod .. => 5
  | staticField .. => 6
  | localVariable .. => 7
  | constructor .. => 8
  | statementLabel => 9
  | keyword => 10
  | annotation => 11
  | annotationElement => 12
  | nameSuggestion => 13

def isDuplicate (last c : CompletionCandidate) : Bool :=
  if last.kind.discriminant ≠ c.kind.discriminant then false
  else
    match last.kind, c.kind with
    | .method d1 _, .method d2 _ => d1 = d2
    | .staticMethod d1 _, .staticMethod d2 _ => d1 = d2
    | .constructor d1 _, .constructor d2 _ => d1 = d2
    | .className, .className => last.detail = c.detail && last.requiredImport = c.requiredImport
    | _, _ => true

/-- The walk back through the candidates with the same label. -/
def hasDuplicate (result : List CompletionCandidate) (c : CompletionCandidate) : Bool :=
  (result.reverse.takeWhile fun last => last.label = c.label).any fun last => isDuplicate last c

def dedupStep (result : List CompletionCandidate) (c : CompletionCandidate) : List CompletionCandidate :=
  if hasDuplicate result c then result else result ++ [c]

/-- The loop over the sorted candidates. -/
def dedupSorted (candidates : List CompletionCandidate) : List CompletionCandidate :=
  candidates.foldl dedupStep []

/-- What the candidates are sorted by. -/
def CompletionCandidate.dedupOrder (c : CompletionCandidate) : String ×ₗ String ×ₗ Bool ×ₗ ℚᵒᵈ :=
  toLex (c.label, toLex (c.source, toLex (c.requiredImport.isSome, OrderDual.toDual c.score)))

/-- A result that `dedup` can have. -/
def Deduped (candidates result : List CompletionCandidate) : Prop :=
  ∃ sorted : List CompletionCandidate, sorted.Perm candidates ∧
    sorted.Pairwise (fun a b => a.dedupOrder ≤ b.dedupOrder) ∧ result = dedupSorted sorted

/-! ## Duplicates -/

/-- Candidates with one label that the test takes for duplicates. -/
def Duplicates (c d : CompletionCandidate) : Prop :=
  c.label = d.label ∧ isDuplicate c d = true

/-- What the test compares. -/
def CandidateKind.compared : CandidateKind → String
  | method descriptor _ => descriptor
  | staticMethod descriptor _ => descriptor
  | constructor descriptor _ => descriptor
  | _ => ""

def CompletionCandidate.typeCompared (c : CompletionCandidate) : Option (Option String × Option String) :=
  if c.kind = .className then some (c.detail, c.requiredImport) else none

structure DedupKey where
  label : String
  discriminant : ℕ
  descriptor : String
  typeCompared : Option (Option String × Option String)
deriving DecidableEq

def CompletionCandidate.dedupKey (c : CompletionCandidate) : DedupKey :=
  ⟨c.label, c.kind.discriminant, c.kind.compared, c.typeCompared⟩

theorem isDuplicate_iff {c d : CompletionCandidate} : isDuplicate c d = true ↔
    c.kind.discriminant = d.kind.discriminant ∧ c.kind.compared = d.kind.compared ∧
      c.typeCompared = d.typeCompared := by
  obtain ⟨_, _, _, k, _, detail, _, import'⟩ := c
  obtain ⟨_, _, _, k', _, detail', _, import''⟩ := d
  cases k <;> cases k' <;>
    simp [isDuplicate, CandidateKind.discriminant, CandidateKind.compared,
      CompletionCandidate.typeCompared]

theorem duplicates_iff {c d : CompletionCandidate} : Duplicates c d ↔ c.dedupKey = d.dedupKey := by
  rw [Duplicates, isDuplicate_iff, CompletionCandidate.dedupKey, CompletionCandidate.dedupKey]
  simp

/-! ## The loop on sorted candidates -/

/-- On candidates sorted by their labels the walk back meets every candidate with the label. -/
theorem hasDuplicate_iff {result : List CompletionCandidate} {c : CompletionCandidate}
    (hsorted : (result ++ [c]).Pairwise fun a b => a.label ≤ b.label) :
    hasDuplicate result c = true ↔ c.dedupKey ∈ result.map CompletionCandidate.dedupKey := by
  rw [hasDuplicate, List.any_eq_true, List.mem_map]
  constructor
  · rintro ⟨last, hlast, hdup⟩
    have hmem := List.mem_reverse.mp ((List.takeWhile_sublist _).mem hlast)
    have hlabel : last.label = c.label := by simpa using List.mem_takeWhile_imp hlast
    exact ⟨last, hmem, duplicates_iff.mp ⟨hlabel, hdup⟩⟩
  · rintro ⟨last, hmem, hkey⟩
    obtain ⟨hlabel, hdup⟩ := duplicates_iff.mpr hkey
    refine ⟨last, ?_, hdup⟩
    obtain ⟨pre, post, rfl⟩ := List.append_of_mem hmem
    rw [List.append_assoc, List.cons_append] at hsorted
    have hback := List.pairwise_cons.mp (List.pairwise_append.mp hsorted).2.1
    have hpost : ∀ d ∈ post.reverse, decide (d.label = c.label) = true := by
      intro d hd
      have hd' := List.mem_reverse.mp hd
      have hle := hback.1 d (List.mem_append_left _ hd')
      have hge := (List.pairwise_append.mp hback.2).2.2 d hd' c (List.mem_singleton_self c)
      exact decide_eq_true (le_antisymm hge (hlabel ▸ hle))
    rw [List.reverse_append, List.reverse_cons, List.append_assoc, List.takeWhile_append_of_pos hpost,
      List.singleton_append, List.takeWhile_cons, if_pos (decide_eq_true hlabel)]
    exact List.mem_append_right _ List.mem_cons_self

theorem foldl_dedupStep {result rest : List CompletionCandidate}
    (hsorted : (result ++ rest).Pairwise fun a b => a.label ≤ b.label) :
    rest.foldl dedupStep result = result ++
      dedupBy CompletionCandidate.dedupKey (result.map CompletionCandidate.dedupKey) rest := by
  induction rest generalizing result with
  | nil => exact (List.append_nil result).symm
  | cons c rest ih =>
    have hfirst : (result ++ [c]).Pairwise fun a b => a.label ≤ b.label :=
      hsorted.sublist ((List.Sublist.refl result).append (List.singleton_sublist.mpr List.mem_cons_self))
    rw [List.foldl_cons, dedupStep, dedupBy]
    by_cases hdup : hasDuplicate result c = true
    · rw [if_pos hdup, if_pos ((hasDuplicate_iff hfirst).mp hdup)]
      exact ih (hsorted.sublist ((List.Sublist.refl result).append (List.sublist_cons_self c rest)))
    · rw [if_neg hdup, if_neg fun h => hdup ((hasDuplicate_iff hfirst).mpr h), ih (by simpa using hsorted),
        List.append_assoc, List.singleton_append]
      refine congrArg (fun kept => result ++ c :: kept) (dedupBy_congr fun d _ => ?_)
      rw [List.map_append, List.mem_append, List.mem_cons, List.map_singleton, List.mem_singleton, or_comm]

theorem label_le_of_dedupOrder {c d : CompletionCandidate} (h : c.dedupOrder ≤ d.dedupOrder) : c.label ≤ d.label :=
  (Prod.Lex.toLex_le_toLex.mp h).elim le_of_lt fun h => h.1.le

theorem source_le_of_dedupOrder {c d : CompletionCandidate} (h : c.dedupOrder ≤ d.dedupOrder)
    (hlabel : c.label = d.label) : c.source ≤ d.source := by
  have hbehind := ((Prod.Lex.toLex_le_toLex.mp h).resolve_left fun hlt => hlt.ne hlabel).2
  exact (Prod.Lex.toLex_le_toLex.mp hbehind).elim le_of_lt fun h => h.1.le

/-- A result of `dedup` keeps the first candidate of each key, in some sorted order. -/
theorem deduped_iff {candidates result : List CompletionCandidate} : Deduped candidates result ↔
    ∃ sorted : List CompletionCandidate, sorted.Perm candidates ∧
      sorted.Pairwise (fun a b => a.dedupOrder ≤ b.dedupOrder) ∧
        result = dedupBy CompletionCandidate.dedupKey [] sorted := by
  refine exists_congr fun sorted => and_congr_right fun _ => and_congr_right fun hsorted => ?_
  rw [dedupSorted, foldl_dedupStep (by simpa using hsorted.imp label_le_of_dedupOrder)]
  rfl

theorem exists_deduped (candidates : List CompletionCandidate) : ∃ result, Deduped candidates result := by
  refine ⟨_, candidates.insertionSort fun a b => a.dedupOrder ≤ b.dedupOrder, List.perm_insertionSort _ _, ?_, rfl⟩
  exact List.pairwise_insertionSort _ _

/-! ## What is kept -/

section Kept

variable {candidates result : List CompletionCandidate} {c d : CompletionCandidate}

theorem Deduped.mem (h : Deduped candidates result) (hd : d ∈ result) : d ∈ candidates := by
  obtain ⟨sorted, hperm, -, rfl⟩ := deduped_iff.mp h
  exact hperm.mem_iff.mp ((dedupBy_sublist [] sorted).mem hd)

theorem Deduped.covers (h : Deduped candidates result) (hc : c ∈ candidates) : ∃ d ∈ result, Duplicates d c := by
  obtain ⟨sorted, hperm, -, rfl⟩ := deduped_iff.mp h
  obtain ⟨d, hd, hkey⟩ := @exists_mem_dedupBy _ _ _ CompletionCandidate.dedupKey _ _ (hperm.mem_iff.mpr hc)
  exact ⟨d, hd, duplicates_iff.mpr hkey⟩

theorem Deduped.nodup (h : Deduped candidates result) : (result.map CompletionCandidate.dedupKey).Nodup := by
  obtain ⟨sorted, -, -, rfl⟩ := deduped_iff.mp h
  exact nodup_map_dedupBy [] sorted

/-- The kept candidate comes first among its duplicates. -/
theorem Deduped.first (h : Deduped candidates result) (hd : d ∈ result) (hc : c ∈ candidates) (hdup : Duplicates c d) :
    d.dedupOrder ≤ c.dedupOrder := by
  obtain ⟨sorted, hperm, hsorted, rfl⟩ := deduped_iff.mp h
  obtain ⟨-, pre, post, rfl, hpre⟩ := mem_dedupBy.mp hd
  rcases List.mem_append.mp (hperm.mem_iff.mpr hc) with hmem | hmem
  · exact absurd (duplicates_iff.mp hdup ▸ List.mem_map_of_mem hmem) hpre
  · rcases List.mem_cons.mp hmem with rfl | hmem
    · exact le_rfl
    · exact (List.pairwise_cons.mp (List.pairwise_append.mp hsorted).2.1).1 c hmem

/-- The kept candidates need no import where one of their duplicates needs none, exactly if for every candidate that
needs one there is such a duplicate from the same source or from one before it in the alphabet. -/
theorem cheapest_kept_iff (candidates : List CompletionCandidate) :
    (∀ result, Deduped candidates result → ∀ d ∈ result, ∀ c ∈ candidates, Duplicates c d → c.requiredImport = none →
      d.requiredImport = none) ↔
    ∀ c ∈ candidates, ∀ d ∈ candidates, Duplicates c d → c.requiredImport = none → d.requiredImport ≠ none →
      ∃ e ∈ candidates, Duplicates e d ∧ e.requiredImport = none ∧ e.source ≤ d.source := by
  constructor
  · intro h c hc d hd hdup hnone _
    obtain ⟨result, hresult⟩ := exists_deduped candidates
    obtain ⟨e, he, hec⟩ := hresult.covers hd
    have hce := duplicates_iff.mpr ((duplicates_iff.mp hdup).trans (duplicates_iff.mp hec).symm)
    have hde := duplicates_iff.mpr (duplicates_iff.mp hec).symm
    exact ⟨e, hresult.mem he, hec, h result hresult e he c hc hce hnone,
      source_le_of_dedupOrder (hresult.first he hd hde) hec.1⟩
  · intro h result hresult d hd c hc hdup hnone
    by_contra himport
    obtain ⟨e, he, hed, henone, hsource⟩ := h c hc d (hresult.mem hd) hdup hnone himport
    have hfirst := hresult.first hd he hed
    have hbehind := ((Prod.Lex.toLex_le_toLex.mp hfirst).resolve_left fun hlt => hlt.ne hed.1.symm).2
    have hlast := ((Prod.Lex.toLex_le_toLex.mp hbehind).resolve_left fun hlt => hlt.not_ge hsource).2
    have hsome : d.requiredImport.isSome = true := Option.isSome_iff_ne_none.mpr himport
    have hle := Prod.Lex.toLex_le_toLex.mp hlast
    rw [hsome, henone] at hle
    rcases hle with hlt | ⟨heq, -⟩
    · exact absurd (show true < false from hlt) (by decide)
    · cases heq

end Kept

/-! ## Sources -/

def CompletionCandidate.withSource (c : CompletionCandidate) (source : String) : CompletionCandidate :=
  { c with source := source }

def CompletionCandidate.withoutSource (c : CompletionCandidate) : CompletionCandidate :=
  c.withSource ""

/-- Each candidate is kept or has a kept duplicate, no two kept ones are duplicates, and a kept one needs no import if
one of its duplicates needs none. -/
structure Representative (candidates result : List CompletionCandidate) : Prop where
  kept : ∀ c ∈ candidates, c ∈ result ∨ ∃ d ∈ result, Duplicates d c
  apart : result.Pairwise fun c d => ¬ Duplicates c d
  cheapest : ∀ d ∈ result, ∀ c ∈ candidates, Duplicates c d → c.requiredImport = none → d.requiredImport = none

/-- All results represent the candidates, and the same are kept whichever sources they come from. -/
structure Faithful (candidates : List CompletionCandidate) : Prop where
  representative : ∀ result, Deduped candidates result → Representative candidates result
  independent : ∀ others : List CompletionCandidate,
    others.map CompletionCandidate.withoutSource = candidates.map CompletionCandidate.withoutSource →
      ∀ result result', Deduped candidates result → Deduped others result' →
        (result.map CompletionCandidate.withoutSource).Perm (result'.map CompletionCandidate.withoutSource)

theorem dedupKey_withoutSource (c : CompletionCandidate) : c.withoutSource.dedupKey = c.dedupKey :=
  rfl

section Sources

variable {candidates others result : List CompletionCandidate} {c : CompletionCandidate}

theorem withSource_withoutSource (c : CompletionCandidate) (source : String) :
    (c.withSource source).withoutSource = c.withoutSource :=
  rfl

theorem Deduped.nodup_withoutSource (h : Deduped candidates result) :
    (result.map CompletionCandidate.withoutSource).Nodup := by
  refine List.Nodup.of_map CompletionCandidate.dedupKey ?_
  rw [List.map_map]
  exact h.nodup

/-- Where duplicates differ only in their sources, the kept candidates are all of them, sources aside. -/
theorem Deduped.mem_withoutSource (h : Deduped candidates result)
    (hsame : ∀ c ∈ candidates.map CompletionCandidate.withoutSource,
      ∀ d ∈ candidates.map CompletionCandidate.withoutSource, Duplicates c d → c = d) :
    c ∈ result.map CompletionCandidate.withoutSource ↔ c ∈ candidates.map CompletionCandidate.withoutSource := by
  constructor
  · intro hc
    obtain ⟨d, hd, rfl⟩ := List.mem_map.mp hc
    exact List.mem_map_of_mem (h.mem hd)
  · intro hc
    obtain ⟨d, hd, rfl⟩ := List.mem_map.mp hc
    obtain ⟨e, he, hdup⟩ := h.covers hd
    have heq := hsame _ (List.mem_map_of_mem (h.mem he)) _ hc (duplicates_iff.mpr (duplicates_iff.mp hdup))
    exact heq ▸ List.mem_map_of_mem he

/-- Any candidate is kept when it alone comes from the first source. -/
theorem exists_kept_from (hc : c ∈ candidates) : ∃ others result : List CompletionCandidate,
    others.map CompletionCandidate.withoutSource = candidates.map CompletionCandidate.withoutSource ∧
      Deduped others result ∧ c.withoutSource ∈ result.map CompletionCandidate.withoutSource := by
  obtain ⟨pre, post, rfl⟩ := List.append_of_mem hc
  let others := pre.map (·.withSource "z") ++ c.withoutSource :: post.map (·.withSource "z")
  have hother : ∀ d ∈ others, d.source = "" → d = c.withoutSource := by
    intro d hd hsource
    rcases List.mem_append.mp hd with hd | hd
    · obtain ⟨e, -, rfl⟩ := List.mem_map.mp hd
      exact absurd hsource (by decide : "z" ≠ "")
    · rcases List.mem_cons.mp hd with rfl | hd
      · rfl
      · obtain ⟨e, -, rfl⟩ := List.mem_map.mp hd
        exact absurd hsource (by decide : "z" ≠ "")
  obtain ⟨result, hresult⟩ := exists_deduped others
  refine ⟨others, result, by simp [others, Function.comp_def, withSource_withoutSource]; rfl, hresult, ?_⟩
  refine List.mem_map.mpr ⟨c.withoutSource, ?_, rfl⟩
  obtain ⟨sorted, hperm, hsorted, rfl⟩ := deduped_iff.mp hresult
  have hmem : c.withoutSource ∈ sorted := hperm.mem_iff.mpr (List.mem_append_right _ List.mem_cons_self)
  obtain ⟨before, behind, rfl, hnot⟩ := List.eq_append_cons_of_mem hmem
  refine mem_dedupBy.mpr ⟨List.not_mem_nil, before, behind, rfl, fun hkey => ?_⟩
  obtain ⟨d, hd, hdup⟩ := List.mem_map.mp hkey
  have hle := (List.pairwise_append.mp hsorted).2.2 d hd _ List.mem_cons_self
  have hsource := source_le_of_dedupOrder hle (duplicates_iff.mpr hdup).1
  have hempty : d.source = "" := le_antisymm hsource
    (not_lt.mp fun hlt => List.not_lt_nil _ (String.lt_iff_toList_lt.mp hlt))
  exact hnot (hother d (hperm.mem_iff.mp (List.mem_append_left _ hd)) hempty ▸ hd)

end Sources

/-- Deduplication does what it should exactly where duplicates differ only in their sources. -/
theorem dedup_faithful_iff (candidates : List CompletionCandidate) : Faithful candidates ↔
    ∀ c ∈ candidates, ∀ d ∈ candidates, Duplicates c d → c.withoutSource = d.withoutSource := by
  constructor
  · intro h c hc d hd hdup
    obtain ⟨result, hresult⟩ := exists_deduped candidates
    have hkept : ∀ e ∈ candidates, ∃ e' ∈ result, e'.withoutSource = e.withoutSource := by
      intro e he
      obtain ⟨others, result', hothers, hresult', hmem⟩ := exists_kept_from he
      exact List.mem_map.mp ((h.independent others hothers result result' hresult hresult').mem_iff.mpr hmem)
    obtain ⟨c', hc', hceq⟩ := hkept c hc
    obtain ⟨d', hd', hdeq⟩ := hkept d hd
    have hkey : c'.dedupKey = d'.dedupKey := by
      rw [← dedupKey_withoutSource c', hceq, ← dedupKey_withoutSource d', hdeq]
      exact duplicates_iff.mp hdup
    rw [← hceq, List.inj_on_of_nodup_map hresult.nodup hc' hd' hkey, hdeq]
  · intro h
    have hsame : ∀ c ∈ candidates.map CompletionCandidate.withoutSource,
        ∀ d ∈ candidates.map CompletionCandidate.withoutSource, Duplicates c d → c = d := by
      intro c hc d hd hdup
      obtain ⟨c, hc', rfl⟩ := List.mem_map.mp hc
      obtain ⟨d, hd', rfl⟩ := List.mem_map.mp hd
      exact h c hc' d hd' (duplicates_iff.mpr (duplicates_iff.mp hdup))
    constructor
    · intro result hresult
      refine ⟨fun c hc => .inr (hresult.covers hc), ?_, fun d hd c hc hdup hnone => ?_⟩
      · exact (List.pairwise_map.mp hresult.nodup).imp fun hne hdup => hne (duplicates_iff.mp hdup)
      · have heq := congrArg CompletionCandidate.requiredImport (h c hc d (hresult.mem hd) hdup)
        exact heq.symm.trans hnone
    · intro others hothers result result' hresult hresult'
      refine (List.perm_ext_iff_of_nodup hresult.nodup_withoutSource hresult'.nodup_withoutSource).mpr fun c => ?_
      rw [hresult.mem_withoutSource hsame, hresult'.mem_withoutSource (hothers ▸ hsame), hothers]

/-- `new RandomClass()` -/
def randomClass (source : String) : CompletionCandidate :=
  .new "RandomClass" "RandomClass(" (.constructor "()V" "RandomClass") source

/-- Of two constructors the one that needs an import is kept, for the name of the provider it comes from. -/
theorem import_kept_by_source : ∃ candidates result, Deduped candidates result ∧
    result = [(randomClass "constructor").withImport "org.cubewhy.RandomClass"] ∧
      randomClass "expression" ∈ candidates ∧ ¬ Faithful candidates := by
  have hsorted : ([(randomClass "constructor").withImport "org.cubewhy.RandomClass", randomClass "expression"]).Pairwise
      fun a b => a.dedupOrder ≤ b.dedupOrder := by
    refine List.pairwise_pair.mpr (Prod.Lex.toLex_le_toLex.mpr (.inr ⟨rfl, Prod.Lex.toLex_le_toLex.mpr (.inl ?_)⟩))
    decide
  have hdeduped : Deduped
      [(randomClass "constructor").withImport "org.cubewhy.RandomClass", randomClass "expression"]
      [(randomClass "constructor").withImport "org.cubewhy.RandomClass"] :=
    ⟨_, .refl _, hsorted, by decide⟩
  refine ⟨_, _, hdeduped, rfl, List.mem_cons_of_mem _ List.mem_cons_self, fun h => ?_⟩
  have hcheapest := (h.representative _ hdeduped).cheapest _ List.mem_cons_self (randomClass "expression")
    (List.mem_cons_of_mem _ List.mem_cons_self) ⟨rfl, by decide⟩ rfl
  exact absurd hcheapest (by decide)

end JavaAnalyzer.Completion
