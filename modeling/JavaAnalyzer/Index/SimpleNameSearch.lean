import JavaAnalyzer.Index.Hierarchy
import JavaAnalyzer.Library.Dedup

/-! # Searching classes by simple name

`fuzzy_autocomplete` and `fuzzy_search_classes` of `index/view.rs`, and `fuzzy_autocomplete` of the buckets
and the artifact readers. The scores are those of the `nucleo_matcher` crate. -/

namespace JavaAnalyzer.Index
set_option autoImplicit false

/-- The `CaseMatching` of a pattern. -/
inductive CaseMatching where
  | smart
  | ignore
deriving DecidableEq, Repr

/-- `Pattern::parse` and `Pattern::score`. -/
structure FuzzyMatcher where
  score : CaseMatching → (pattern haystack : String) → Option ℕ

/-- The order in which a hash map lists its values. -/
structure HashOrder (α : Type) where
  order : List α → List α
  perm : ∀ l, (order l).Perm l

def HashOrder.insertion (α : Type) : HashOrder α :=
  ⟨id, fun _ => .rfl⟩

namespace FuzzyMatcher

variable (matcher : FuzzyMatcher)

/-- The names that match, the higher scores first. -/
def scoredNames (query : String) (names : List String) : List (String × ℕ) :=
  (names.filterMap fun name => (matcher.score .smart query name).map fun score =>
    (name, score)).insertionSort fun left right =>
      right.2 < left.2 ∨ left.2 = right.2 ∧ left.1 ≤ right.1

/-- `fuzzy_autocomplete` over the keys of a simple name index. -/
def autocomplete (query : String) (limit : ℕ) (names : List String) : List String :=
  if limit = 0 then []
  else if query.isEmpty then (names.insertionSort (· ≤ ·)).take limit
  else ((matcher.scoredNames query names).take limit).map Prod.fst

end FuzzyMatcher

namespace IndexView

variable (view : IndexView) (matcher : FuzzyMatcher)

def layerSimpleNames : ScopeLayer BucketIndex → List String
  | .overlay bucket => bucket.inner.simpleNameIndex.keys
  | .artifact id =>
    ((view.artifactReader id).map fun reader => reader.simpleNameIndex.keys).getD []

def fuzzyAutocomplete (query : String) (limit : ℕ) : List String :=
  Dedup.dedupBy id [] (view.layers.flatMap fun layer =>
    matcher.autocomplete query limit (view.layerSimpleNames layer))

def fuzzySearchClasses (hasher : HashOrder ClassMetadata) (query : String) (limit : ℕ) :
    List ClassMetadata :=
  hasher.order (RankedMerge.merge (fun c => some c.internalName) ClassMetadata.originPrecedence
    ((view.fuzzyAutocomplete matcher query limit).flatMap view.getClassesBySimpleName))

variable {view matcher}

theorem mem_records_of_listing {k : ListingKey} {c : ClassMetadata} (h : c ∈ view.listing k) :
    c ∈ view.records := by
  have hbest := (mem_listing_iff.mp h).mem
  exact (mem_recordsNamed.mp (List.mem_of_mem_filter hbest)).1

theorem mem_records_of_fuzzySearch {hasher : HashOrder ClassMetadata} {query : String} {limit : ℕ}
    {c : ClassMetadata} (h : c ∈ view.fuzzySearchClasses matcher hasher query limit) :
    c ∈ view.records := by
  obtain ⟨n, -, hmax⟩ := RankedMerge.mem_merge.mp ((hasher.perm _).mem_iff.mp h)
  obtain ⟨name, -, hname⟩ :=
    List.mem_flatMap.mp (List.mem_of_mem_filter (List.argmax_mem hmax))
  exact mem_records_of_listing (k := .simpleName name) hname

/-! ## Lookup, listings and records -/

theorem listed_of_record {k : ListingKey} {c : ClassMetadata} (h : c ∈ view.records)
    (hk : k.asks c = true) : ∃ d ∈ view.listing k, d.internalName = c.internalName := by
  have hmem : c ∈ (view.recordsNamed c.internalName).filter k.asks :=
    List.mem_filter.mpr ⟨mem_recordsNamed.mpr ⟨h, rfl⟩, hk⟩
  obtain ⟨d, hd⟩ := RankedMerge.exists_argmax_of_mem ClassMetadata.originPrecedence hmem
  have hname := (mem_recordsNamed.mp (List.mem_of_mem_filter (List.argmax_mem hd))).2
  refine ⟨d, mem_listing_iff.mpr ?_, hname⟩
  rwa [hname, firstBest_iff]

theorem record_of_getClass {n : String} {c : ClassMetadata} (h : view.getClass n = some c) :
    c ∈ view.records ∧ c.internalName = n := by
  obtain ⟨r, hr, hresolve⟩ := Option.bind_eq_some_iff.mp h
  obtain ⟨d, hd, hname, hmem⟩ := reads_getClassRefByInternal hr
  obtain rfl := Option.some.inj (hd.resolve.symm.trans hresolve)
  exact ⟨hmem, hname⟩

theorem layerGetClassRef_of_record {layer : ScopeLayer BucketIndex} {c : ClassMetadata}
    (h : c ∈ view.layerRecords layer) : ∃ r, view.layerGetClassRef c.internalName layer = some r := by
  cases layer with
  | overlay bucket =>
    have hget := BucketIndex.mem_iterAllClasses.mp h
    exact ⟨_, by rw [layerGetClassRef, hget, Option.map_some]⟩
  | artifact id =>
    cases hreader : view.artifactReader id with
    | none =>
      rw [layerRecords, hreader] at h
      cases h
    | some reader =>
      rw [layerRecords, hreader] at h
      obtain ⟨stub, hstub, rfl⟩ := List.mem_map.mp h
      have hfound := reader.getClass_getClassHandle stub.materialize.internalName
      have hmem : stub ∈ reader.archive.classes.filter fun c =>
          c.internalName = stub.materialize.internalName :=
        List.mem_filter.mpr ⟨hstub, decide_eq_true rfl⟩
      rw [List.getLast?_eq_getLast_of_ne_nil (List.ne_nil_of_mem hmem), Option.map_some] at hfound
      obtain ⟨handle, hhandle, -⟩ := Option.bind_eq_some_iff.mp hfound
      refine ⟨.artifact handle, ?_⟩
      rw [layerGetClassRef, hreader, Option.bind_some, hhandle, Option.map_some]

theorem getClass_of_record {c : ClassMetadata} (h : c ∈ view.records) :
    ∃ d, view.getClass c.internalName = some d := by
  obtain ⟨layer, hlayer, hc⟩ := List.mem_flatMap.mp h
  obtain ⟨r, hr⟩ := layerGetClassRef_of_record hc
  obtain ⟨best, hbest⟩ := RankedMerge.exists_argmax_of_mem view.classRefOriginPrecedence
    (List.mem_filterMap.mpr ⟨layer, hlayer, hr⟩)
  have hfound : view.getClassRefByInternal c.internalName = some best := by
    rw [getClassRefByInternal, keepBest_foldl]
    exact hbest
  obtain ⟨d, hd, -, -⟩ := reads_getClassRefByInternal hfound
  exact ⟨d, by rw [getClass, hfound, Option.bind_some, hd.resolve]⟩

end IndexView

end JavaAnalyzer.Index
