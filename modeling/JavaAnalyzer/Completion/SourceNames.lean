import JavaAnalyzer.Completion.ImportUtils
import JavaAnalyzer.Language.StrictTypes
import JavaAnalyzer.Library.PathSegments

/-! # Source names resolve back

The dotted name that `get_source_type_name` gives a class, and the class that `resolve_qualified_type_path` of
`index/view.rs` finds for it. The name is built along the owners up to a top-level class, and resolved by trying the
longest front of it as a class first (`source_name_resolves_iff`). -/

namespace JavaAnalyzer.Index
set_option autoImplicit false
open JavaAnalyzer.Language

/-! ## The loop over the owners -/

/-- What the loop of `qualified_source_name_with` holds. -/
structure OwnerWalk where
  segments : List String
  ownerInternal : Option String
  depth : ℕ

namespace OwnerWalk

variable (resolveOwner : String → Option ClassMetadata)

/-- A turn of the loop gives its next state, or the segments of the name, or nothing for the fallback name. -/
def turn (walk : OwnerWalk) : OwnerWalk ⊕ Option (List String) :=
  match walk.ownerInternal with
  | none => .inr (some walk.segments.reverse)
  | some ownerName =>
    match resolveOwner ownerName with
    | none => .inr none
    | some owner =>
      if 64 < walk.depth + 1 then .inr none
      else .inl ⟨walk.segments ++ [owner.name], owner.innerClassOf, walk.depth + 1⟩

/-- The loop with at most `fuel` turns, nothing when these do not do. -/
def run : ℕ → OwnerWalk → Option (Option (List String))
  | 0, _ => none
  | fuel + 1, walk =>
    match walk.turn resolveOwner with
    | .inl next => run fuel next
    | .inr outcome => some outcome

/-- The loop ends at the latest where 65 owners are resolved. -/
theorem run_eq (walk : OwnerWalk) (hdepth : walk.depth ≤ 64) {fuel : ℕ} (hfuel : 64 - walk.depth < fuel) :
    walk.run resolveOwner fuel =
      some (ClassMetadata.ownerSegments resolveOwner (64 - walk.depth) walk.ownerInternal walk.segments.reverse) := by
  induction fuel generalizing walk with
  | zero => exact absurd hfuel (Nat.not_lt_zero _)
  | succ fuel ih =>
    obtain ⟨segments, ownerInternal, depth⟩ := walk
    simp only at hdepth hfuel ⊢
    cases ownerInternal with
    | none => simp only [run, turn, ClassMetadata.ownerSegments]
    | some ownerName =>
      cases howner : resolveOwner ownerName with
      | none =>
        cases hleft : 64 - depth with
        | zero => simp only [run, turn, howner, ClassMetadata.ownerSegments]
        | succ left => simp only [run, turn, howner, ClassMetadata.ownerSegments, Option.bind_none]
      | some owner =>
        by_cases hlast : 64 < depth + 1
        · have hleft : 64 - depth = 0 := by omega
          simp only [run, turn, howner, if_pos hlast, hleft, ClassMetadata.ownerSegments]
        · have hleft : 64 - depth = 64 - (depth + 1) + 1 := by omega
          have hnext := ih ⟨segments ++ [owner.name], owner.innerClassOf, depth + 1⟩ (by simp only; omega)
            (by simp only; omega)
          simp only [run, turn, howner, if_neg hlast]
          rw [hnext, hleft, ClassMetadata.ownerSegments, howner, Option.bind_some]
          simp only [List.reverse_append, List.reverse_singleton, List.singleton_append]

end OwnerWalk

namespace ClassMetadata

variable (c : ClassMetadata) (resolveOwner : String → Option ClassMetadata)

/-- `qualified_source_name_with`, with the loop as it is written and fuel for it. -/
def qualifiedSourceNameLoop (fuel : ℕ) : Option String :=
  if c.innerClassOf.isNone then some c.sourceName
  else
    (OwnerWalk.run resolveOwner fuel ⟨[c.name], c.innerClassOf, 0⟩).map fun
      | some segments => c.packageText ++ ".".intercalate segments
      | none => c.fallbackNestedSourceName

theorem qualifiedSourceNameLoop_eq {fuel : ℕ} (hfuel : 65 ≤ fuel) :
    c.qualifiedSourceNameLoop resolveOwner fuel = some (c.qualifiedSourceNameWith resolveOwner) := by
  have hrun := OwnerWalk.run_eq resolveOwner ⟨[c.name], c.innerClassOf, 0⟩ (Nat.zero_le 64) hfuel
  unfold qualifiedSourceNameLoop qualifiedSourceNameWith
  split
  · rfl
  · rw [hrun, Option.map_some]
    rfl

end ClassMetadata

end JavaAnalyzer.Index

namespace JavaAnalyzer.Completion
open Index IndexView PathSegments Text JavaAnalyzer.Language

/-! ## Names of members -/

/-- An identifier of Java: dollar signs are allowed, the separators of names and blanks are not. -/
structure IsIdentifier (s : String) : Prop where
  ne_nil : s.toList ≠ []
  plain : ∀ x ∈ s.toList, isWhitespace x = false ∧ x ≠ '.' ∧ x ≠ '/'

def packageSegments : Option String → List String
  | some pkg => (pkg.toList.splitOn '/').map String.ofList
  | none => []

/-- The names that the parsers give: identifiers, and a member is named after its owner. -/
structure JavaNamed (c : ClassMetadata) : Prop where
  named : WellNamed c
  name : IsIdentifier c.name
  package : ∀ s ∈ packageSegments c.package, IsIdentifier s
  member : ∀ owner, c.innerClassOf = some owner → c.internalName = owner ++ "$" ++ c.name

/-- The internal name of the member along the names, from an owner on. -/
def memberName (owner : String) (names : List String) : String :=
  names.foldl (fun owner name => owner ++ "$" ++ name) owner

theorem IsIdentifier.solid {s : String} (h : IsIdentifier s) : Solid s.toList where
  ne_nil := h.ne_nil
  head _ hx := (h.plain _ (List.mem_of_mem_head? hx)).1
  last _ hx := (h.plain _ (List.mem_of_mem_getLast? hx)).1

theorem IsIdentifier.dot_not_mem {s : String} (h : IsIdentifier s) : '.' ∉ s.toList :=
  fun hdot => (h.plain '.' hdot).2.1 rfl

theorem IsIdentifier.slash_not_mem {s : String} (h : IsIdentifier s) : '/' ∉ s.toList :=
  fun hslash => (h.plain '/' hslash).2.2 rfl

theorem slash_not_mem_packageSegments {package : Option String} {s : String} (h : s ∈ packageSegments package) :
    '/' ∉ s.toList := by
  cases package with
  | none => exact absurd h List.not_mem_nil
  | some pkg =>
    obtain ⟨segment, hsegment, rfl⟩ := List.mem_map.mp h
    rw [String.toList_ofList]
    exact not_mem_splitOn hsegment

theorem packageSegments_ne_nil (pkg : String) : packageSegments (some pkg) ≠ [] := by
  rw [packageSegments, Ne, List.map_eq_nil_iff]
  exact List.splitOn_ne_nil _ _

theorem path_packageSegments (pkg : String) : "/".intercalate (packageSegments (some pkg)) = pkg :=
  path_splitOn rfl pkg

theorem buildInternalName_eq (package : Option String) (name : String) :
    buildInternalName package name = "/".intercalate (packageSegments package ++ [name]) := by
  cases package with
  | none => rw [packageSegments, List.nil_append, String.intercalate_singleton, buildInternalName]
  | some pkg =>
    rw [String.intercalate_append_of_ne_nil (packageSegments_ne_nil pkg) (List.cons_ne_nil name []),
      path_packageSegments, String.intercalate_singleton, buildInternalName]

theorem packageText_append (c : ClassMetadata) {names : List String} (hne : names ≠ []) :
    c.packageText ++ ".".intercalate names = ".".intercalate (packageSegments c.package ++ names) := by
  cases hpkg : c.package with
  | none => rw [ClassMetadata.packageText, hpkg, packageSegments, List.nil_append, String.empty_append]
  | some pkg =>
    have hdots : slashesToDots pkg = ".".intercalate (packageSegments (some pkg)) := by
      conv_lhs => rw [← path_packageSegments pkg]
      refine translate_path rfl fun s hs x hx => if_neg ?_
      rintro rfl
      exact slash_not_mem_packageSegments hs hx
    rw [ClassMetadata.packageText, hpkg, String.intercalate_append_of_ne_nil (packageSegments_ne_nil pkg) hne, ← hdots]

theorem slashed_path {names : List String} (hfree : ∀ s ∈ names, '.' ∉ s.toList) :
    BucketState.slashed (".".intercalate names) = "/".intercalate names := by
  refine translate_path rfl fun s hs x hx => if_neg ?_
  rintro rfl
  exact hfree s hs hx

theorem memberName_concat (owner : String) (names : List String) (name : String) :
    memberName owner (names ++ [name]) = memberName owner names ++ "$" ++ name := by
  rw [memberName, List.foldl_concat, memberName]

/-- The members of a class stand in its package. -/
theorem memberName_path (front : List String) (name : String) (names : List String) :
    memberName ("/".intercalate (front ++ [name])) names = "/".intercalate (front ++ [memberName name names]) := by
  induction names using List.reverseRecOn with
  | nil => rfl
  | append_singleton names last ih =>
    rw [memberName_concat, memberName_concat, ih]
    cases front with
    | nil => rw [List.nil_append, List.nil_append, String.intercalate_singleton, String.intercalate_singleton]
    | cons first front =>
      rw [String.intercalate_append_of_ne_nil (List.cons_ne_nil first front) (List.cons_ne_nil _ []),
        String.intercalate_append_of_ne_nil (List.cons_ne_nil first front) (List.cons_ne_nil _ []),
        String.intercalate_singleton, String.intercalate_singleton]
      simp only [String.append_assoc]

theorem slash_not_mem_memberName {owner : String} {names : List String} (howner : '/' ∉ owner.toList)
    (hnames : ∀ s ∈ names, '/' ∉ s.toList) : '/' ∉ (memberName owner names).toList := by
  induction names using List.reverseRecOn with
  | nil => exact howner
  | append_singleton names last ih =>
    rw [memberName_concat, String.toList_append, String.toList_append, List.mem_append, List.mem_append]
    rintro ((hslash | hslash) | hslash)
    · exact ih (fun s hs => hnames s (List.mem_append_left _ hs)) hslash
    · exact absurd hslash (by simp)
    · exact hnames last (List.mem_append_right _ (List.mem_singleton_self last)) hslash

/-! ## Members in the index -/

section Members

variable {view : IndexView}

theorem mem_resolve_layerDirectInnerClassRefs {owner : String} {layer : ScopeLayer BucketIndex} {c : ClassMetadata} :
    c ∈ view.resolveClassRefs (view.layerDirectInnerClassRefs owner layer) ↔
      c ∈ view.layerRecords layer ∧ c.innerClassOf = some owner := by
  have hnamed : (view.resolveClassRefs (view.layerDirectInnerClassRefs owner layer)).filter
      (fun d => d.internalName = c.internalName) =
        ((view.layerRecords layer).filter fun d => d.internalName = c.internalName).filter
          fun d => d.innerClassOf = some owner :=
    resolve_layerRefs_named (BucketIndex.lists_owner owner) (ArtifactScopeReader.lists_owner owner) _ layer
  have hmem := congrArg (c ∈ ·) hnamed
  simpa [List.mem_filter] using hmem

theorem classRefMatchesSimpleName_of_resolve {r : ClassHandleRef} {c : ClassMetadata}
    (h : view.resolveClassRef r = some c) (simpleName : String) :
    view.classRefMatchesSimpleName simpleName r = decide (c.name = simpleName) := by
  cases r with
  | overlay bucket internalName =>
    rw [resolveClassRef] at h
    rw [classRefMatchesSimpleName, h, Option.any_some, ClassMetadata.matchesSimpleName]
  | artifact handle =>
    obtain ⟨reader, hreader, hget⟩ := Option.bind_eq_some_iff.mp h
    obtain ⟨stub, hstub, rfl⟩ := Option.map_eq_some_iff.mp hget
    rw [classRefMatchesSimpleName, hreader, Option.bind_some, hstub, Option.any_some]
    rfl

/-- The best of the members of a class with a simple name. -/
theorem resolveDirectInnerClass_spec (owner simpleName : String) :
    (∀ c, view.resolveDirectInnerClass owner simpleName = some c →
      c ∈ view.records ∧ c.innerClassOf = some owner ∧ c.name = simpleName) ∧
    ∀ c ∈ view.records, c.innerClassOf = some owner → c.name = simpleName →
      (view.resolveDirectInnerClass owner simpleName).isSome := by
  let refs := view.layers.flatMap (view.layerDirectInnerClassRefs owner)
  have hreads : ∀ r ∈ refs, ∃ c, view.Reads r c := by
    intro r hr
    obtain ⟨layer, -, hlayer⟩ := List.mem_flatMap.mp hr
    exact reads_layerRefs (BucketIndex.lists_owner owner) (ArtifactScopeReader.lists_owner owner) hlayer
  constructor
  · intro c hc
    obtain ⟨r, hr, hresolve⟩ := Option.bind_eq_some_iff.mp hc
    rw [keepBest_foldl] at hr
    obtain ⟨hmem, hmatch⟩ := List.mem_filter.mp (List.argmax_mem hr)
    obtain ⟨layer, hlayer, hrlayer⟩ := List.mem_flatMap.mp hmem
    obtain ⟨hrecord, howner⟩ := mem_resolve_layerDirectInnerClassRefs.mp (List.mem_filterMap.mpr ⟨r, hrlayer, hresolve⟩)
    rw [classRefMatchesSimpleName_of_resolve hresolve] at hmatch
    exact ⟨List.mem_flatMap.mpr ⟨layer, hlayer, hrecord⟩, howner, of_decide_eq_true hmatch⟩
  · intro c hc howner hname
    obtain ⟨layer, hlayer, hrecord⟩ := List.mem_flatMap.mp hc
    obtain ⟨r, hr, hresolve⟩ :=
      List.mem_filterMap.mp (mem_resolve_layerDirectInnerClassRefs.mpr ⟨hrecord, howner⟩)
    have hmatch : r ∈ refs.filter (view.classRefMatchesSimpleName simpleName) := by
      refine List.mem_filter.mpr ⟨List.mem_flatMap.mpr ⟨layer, hlayer, hr⟩, ?_⟩
      rw [classRefMatchesSimpleName_of_resolve hresolve]
      exact decide_eq_true hname
    obtain ⟨best, hbest⟩ := RankedMerge.exists_argmax_of_mem view.classRefOriginPrecedence hmatch
    obtain ⟨d, hd⟩ := hreads best (List.mem_of_mem_filter (List.argmax_mem hbest))
    rw [resolveDirectInnerClass, keepBest_foldl, hbest, Option.bind_some, hd.resolve, Option.isSome_some]

/-- Members of the index lead along the names from one class to another. -/
inductive Leads (view : IndexView) : String → List String → String → Prop
  | done (owner : String) : Leads view owner [] owner
  | member {owner found : String} {names : List String} {c : ClassMetadata} (hmem : c ∈ view.records)
      (howner : c.innerClassOf = some owner) (hrest : Leads view c.internalName names found) :
      Leads view owner (c.name :: names) found

theorem Leads.concat {owner found : String} {names : List String} (h : Leads view owner names found)
    {c : ClassMetadata} (hmem : c ∈ view.records) (howner : c.innerClassOf = some found) :
    Leads view owner (names ++ [c.name]) c.internalName := by
  induction h with
  | done owner => exact .member hmem howner (.done _)
  | member hfirst hof _ ih => exact .member hfirst hof (ih howner)

variable (hnames : ∀ c ∈ view.records, JavaNamed c)

include hnames

theorem Leads.eq_memberName {owner found : String} {names : List String} (h : Leads view owner names found) :
    found = memberName owner names := by
  induction h with
  | done owner => rfl
  | @member owner found names c hmem howner _ ih => rw [ih, (hnames c hmem).member owner howner]; rfl

theorem innerAlong_iff {owner found : String} {names : List String} :
    view.innerAlong owner names = some found ↔ Leads view owner names found := by
  induction names generalizing owner with
  | nil =>
    rw [innerAlong, Option.some.injEq]
    constructor
    · rintro rfl
      exact .done owner
    · rintro ⟨⟩
      rfl
  | cons name names ih =>
    obtain ⟨hspec, hsome⟩ := @resolveDirectInnerClass_spec view owner name
    rw [innerAlong, Option.bind_eq_some_iff]
    constructor
    · rintro ⟨c, hc, hrest⟩
      obtain ⟨hmem, howner, rfl⟩ := hspec c hc
      exact .member hmem howner (ih.mp hrest)
    · intro h
      cases h with
      | @member _ _ _ c hmem howner hrest =>
        obtain ⟨d, hd⟩ := Option.isSome_iff_exists.mp (hsome c hmem howner rfl)
        obtain ⟨hdmem, hdowner, hdname⟩ := hspec d hd
        have hsame : d.internalName = c.internalName := by
          rw [(hnames d hdmem).member owner hdowner, (hnames c hmem).member owner howner, hdname]
        exact ⟨d, hd, ih.mpr (hsame ▸ hrest)⟩

end Members

/-! ## Owners -/

/-- All owners of a class are indexed, from its own up to a top-level class. -/
inductive OwnersIndexed (view : IndexView) : ClassMetadata → List ClassMetadata → Prop
  | topLevel {c : ClassMetadata} (h : c.innerClassOf = none) : OwnersIndexed view c []
  | member {c owner : ClassMetadata} {internal : String} {owners : List ClassMetadata}
      (h : c.innerClassOf = some internal) (hget : view.getClass internal = some owner)
      (hrest : OwnersIndexed view owner owners) : OwnersIndexed view c (owner :: owners)

def outermost (c : ClassMetadata) (owners : List ClassMetadata) : ClassMetadata :=
  (c :: owners).getLast (List.cons_ne_nil c owners)

/-- The segments of the dotted name. -/
def sourceSegments (c : ClassMetadata) (owners : List ClassMetadata) : List String :=
  packageSegments c.package ++ ((c :: owners).map ClassMetadata.name).reverse

section Owners

variable {view : IndexView} {c : ClassMetadata} {owners : List ClassMetadata}

theorem ownerSegments_of_owners (h : OwnersIndexed view c owners) {depth : ℕ} (hlen : owners.length ≤ depth)
    (segments : List String) : ClassMetadata.ownerSegments view.getClass depth c.innerClassOf segments =
      some ((owners.map ClassMetadata.name).reverse ++ segments) := by
  induction h generalizing depth segments with
  | topLevel h => rw [h, ClassMetadata.ownerSegments, List.map_nil, List.reverse_nil, List.nil_append]
  | @member c owner internal owners h hget _ ih =>
    cases depth with
    | zero => exact absurd hlen (Nat.not_succ_le_zero _)
    | succ depth =>
      rw [h, ClassMetadata.ownerSegments, hget, Option.bind_some, ih (Nat.le_of_succ_le_succ hlen), List.map_cons,
        List.reverse_cons, List.append_assoc, List.singleton_append]

theorem getSourceTypeName_eq {n : String} (hget : view.getClass n = some c) (h : OwnersIndexed view c owners)
    (hlen : owners.length ≤ 64) : view.getSourceTypeName n = some (".".intercalate (sourceSegments c owners)) := by
  rw [getSourceTypeName, hget, Option.map_some, Option.some.injEq, sourceSegments,
    ← packageText_append c (by simp), List.map_cons, List.reverse_cons, ClassMetadata.qualifiedSourceNameWith]
  split
  · rename_i hnone
    have hown : c.innerClassOf = none := Option.isNone_iff_eq_none.mp hnone
    have hnil : owners = [] := by
      cases h with
      | topLevel _ => rfl
      | member howner _ _ => exact absurd (hown.symm.trans howner) nofun
    rw [ClassMetadata.sourceName, hown, hnil, List.map_nil, List.reverse_nil, List.nil_append,
      String.intercalate_singleton]
    rfl
  · rw [ownerSegments_of_owners h hlen]

/-- A class below its outermost owner, along the names. -/
structure Nested (view : IndexView) (top : ClassMetadata) (names : List String) (c : ClassMetadata) : Prop where
  indexed : top ∈ view.records
  owner : top.innerClassOf = none
  package : c.package = top.package
  internalName : c.internalName = memberName top.internalName names
  leads : Leads view top.internalName names c.internalName

variable (hnames : ∀ c ∈ view.records, JavaNamed c)

include hnames

theorem package_of_owner {d : ClassMetadata} (hc : c ∈ view.records) (hd : d ∈ view.records)
    (howner : c.innerClassOf = some d.internalName) : c.package = d.package := by
  obtain ⟨tail, htail, hinternal⟩ := (hnames c hc).named.package
  obtain ⟨tail', htail', hinternal'⟩ := (hnames d hd).named.package
  have hmember := (hnames c hc).member _ howner
  have hextended : '/' ∉ (tail' ++ "$" ++ c.name).toList :=
    @slash_not_mem_memberName _ [c.name] htail' (by simpa using (hnames c hc).name.slash_not_mem)
  have hback : c.internalName = buildInternalName d.package (tail' ++ "$" ++ c.name) := by
    rw [hmember, hinternal']
    cases d.package with
    | none => rfl
    | some pkg => simp only [buildInternalName, String.append_assoc]
  exact (buildInternalName_inj htail hextended (hinternal.symm.trans hback)).1

theorem exists_nested (hc : c ∈ view.records) (h : OwnersIndexed view c owners) : ∃ names,
    ((c :: owners).map ClassMetadata.name).reverse = (outermost c owners).name :: names ∧
      Nested view (outermost c owners) names c := by
  induction h with
  | @topLevel c h => exact ⟨[], rfl, hc, h, rfl, rfl, .done _⟩
  | @member c owner internal owners h hget _ ih =>
    obtain ⟨howner, rfl⟩ := record_of_getClass hget
    obtain ⟨names, hsegments, hnested⟩ := ih howner
    have htop : outermost c (owner :: owners) = outermost owner owners := List.getLast_cons _
    refine ⟨names ++ [c.name], ?_, ?_⟩
    · rw [List.map_cons, List.reverse_cons, hsegments, htop, List.cons_append]
    · rw [htop]
      refine ⟨hnested.indexed, hnested.owner, (package_of_owner hnames hc howner h).trans hnested.package, ?_,
        hnested.leads.concat hc h⟩
      rw [memberName_concat, ← hnested.internalName]
      exact (hnames c hc).member _ h

theorem identifier_of_sourceSegments (hc : c ∈ view.records) (h : OwnersIndexed view c owners) {s : String}
    (hs : s ∈ sourceSegments c owners) : IsIdentifier s := by
  have hall : ∀ d ∈ c :: owners, d ∈ view.records := by
    clear hs
    induction h with
    | topLevel h => simpa using hc
    | @member c owner internal owners h hget _ ih =>
      have howner := (record_of_getClass hget).1
      exact List.forall_mem_cons.mpr ⟨hc, ih howner⟩
  rcases List.mem_append.mp hs with hpkg | hname
  · exact (hnames c hc).package s hpkg
  · obtain ⟨d, hd, rfl⟩ := List.mem_map.mp (List.mem_reverse.mp hname)
    exact (hnames d (hall d hd)).name

end Owners

/-! ## Resolving -/

/-- A resolver of heads that finds the class with a qualified name, and nothing else for a dotted one. -/
structure FindsQualified (view : IndexView) (resolveHead : String → Option String) : Prop where
  dotted : ∀ head, '.' ∈ head.toList → '/' ∉ head.toList →
    resolveHead head = (view.getClass (BucketState.slashed head)).map ClassMetadata.internalName
  simple : ∀ head c, '.' ∉ head.toList → view.getClass head = some c → resolveHead head = some head

/-- The class that a resolver finds with the parts before a place as its head. -/
def splitClass (view : IndexView) (resolveHead : String → Option String) (split : List String × List String) :
    Option ClassMetadata :=
  ((resolveHead (".".intercalate split.1)).bind fun owner => view.innerAlong owner split.2).bind view.getClass

theorem findSome?_splitsFromLongest {α : Type} {f : List String × List String → Option α} {parts : List String}
    {longest : ℕ} {a : α} : (splitsFromLongest parts longest).findSome? f = some a ↔
      ∃ i < longest, f (parts.take (i + 1), parts.drop (i + 1)) = some a ∧
        ∀ j, i < j → j < longest → f (parts.take (j + 1), parts.drop (j + 1)) = none := by
  induction longest with
  | zero => simp [splitsFromLongest]
  | succ longest ih =>
    have hfirst : splitsFromLongest parts (longest + 1) =
        (parts.take (longest + 1), parts.drop (longest + 1)) :: splitsFromLongest parts longest := by
      rw [splitsFromLongest, List.range_succ, List.reverse_append, List.reverse_singleton, List.singleton_append,
        List.map_cons, splitsFromLongest]
    rw [hfirst, List.findSome?_cons]
    cases hlongest : f (parts.take (longest + 1), parts.drop (longest + 1)) with
    | some b =>
      constructor
      · rintro h
        exact ⟨longest, Nat.lt_succ_self longest, hlongest.trans h, fun j hj hlt => by omega⟩
      · rintro ⟨i, hi, hfound, hnone⟩
        rcases Nat.lt_succ_iff_lt_or_eq.mp hi with hlt | rfl
        · exact absurd (hlongest.symm.trans (hnone longest hlt (Nat.lt_succ_self longest))) nofun
        · exact hlongest.symm.trans hfound
    | none =>
      simp only []
      rw [ih]
      constructor
      · rintro ⟨i, hi, hfound, hnone⟩
        refine ⟨i, Nat.lt_succ_of_lt hi, hfound, fun j hij hj => ?_⟩
        rcases Nat.lt_succ_iff_lt_or_eq.mp hj with hlt | rfl
        · exact hnone j hij hlt
        · exact hlongest
      · rintro ⟨i, hi, hfound, hnone⟩
        rcases Nat.lt_succ_iff_lt_or_eq.mp hi with hlt | rfl
        · exact ⟨i, hlt, hfound, fun j hij hj => hnone j hij (Nat.lt_succ_of_lt hj)⟩
        · exact absurd (hlongest.symm.trans hfound) nofun

section Resolving

variable {view : IndexView} {parts : List String}

theorem dottedParts_path (hparts : ∀ s ∈ parts, IsIdentifier s) (hne : parts ≠ []) :
    dottedParts (".".intercalate parts).toList = parts := by
  rw [dottedParts, splitOn_path rfl (fun s hs => (hparts s hs).dot_not_mem) hne,
    List.filter_eq_self.mpr, List.map_map]
  · refine (List.map_congr_left fun s _ => ?_).trans (List.map_id _)
    exact String.ofList_toList
  · intro l hl
    obtain ⟨s, hs, rfl⟩ := List.mem_map.mp hl
    simpa using (hparts s hs).ne_nil

theorem slash_not_mem_path (hparts : ∀ s ∈ parts, IsIdentifier s) : '/' ∉ (".".intercalate parts).toList := by
  intro hslash
  rcases mem_path hslash with hsep | ⟨s, hs, hmem⟩
  · exact absurd hsep (by simp)
  · exact (hparts s hs).slash_not_mem hmem

theorem resolveQualifiedTypePath_path (hparts : ∀ s ∈ parts, IsIdentifier s) (hne : parts ≠ [])
    (resolveHead : String → Option String) :
    view.resolveQualifiedTypePath (".".intercalate parts) resolveHead =
      (splitsFromLongest parts parts.length).findSome? (splitClass view resolveHead) := by
  have hsolid := @solid_path "." _ (fun s hs => (hparts s hs).solid) hne
  have hfilled : (".".intercalate parts).toList.isEmpty = false := by simpa using hsolid.ne_nil
  rw [resolveQualifiedTypePath, hsolid.trim_eq, dottedParts_path hparts hne]
  simp only [hfilled, Bool.false_eq_true, if_false, if_neg (slash_not_mem_path hparts)]
  rfl

/-- A front of more than one part is looked up as a class of the index. -/
theorem FindsQualified.resolve_path {resolveHead : String → Option String} (h : FindsQualified view resolveHead)
    (hparts : ∀ s ∈ parts, IsIdentifier s) (hlong : 1 < parts.length) : resolveHead (".".intercalate parts) =
      (view.getClass ("/".intercalate parts)).map ClassMetadata.internalName := by
  have hdot : '.' ∈ (".".intercalate parts).toList := by
    match parts with
    | first :: next :: rest =>
      rw [String.intercalate_cons_cons, String.toList_append, String.toList_append]
      exact List.mem_append_left _ (List.mem_append_right _ (List.mem_singleton_self '.'))
  rw [h.dotted _ hdot (slash_not_mem_path hparts), slashed_path fun s hs => (hparts s hs).dot_not_mem]

theorem FindsQualified.resolve_class {resolveHead : String → Option String} (h : FindsQualified view resolveHead)
    (hparts : ∀ s ∈ parts, IsIdentifier s) (hne : parts ≠ []) {c : ClassMetadata}
    (hget : view.getClass ("/".intercalate parts) = some c) :
    resolveHead (".".intercalate parts) = some ("/".intercalate parts) := by
  match parts with
  | [s] =>
    rw [String.intercalate_singleton] at hget ⊢
    exact h.simple s c (hparts s (List.mem_singleton_self s)).dot_not_mem hget
  | first :: next :: rest =>
    rw [h.resolve_path hparts (by simp), hget, Option.map_some, (record_of_getClass hget).2]

/-- The resolver that knows nothing but the qualified names. -/
def qualifiedHead (view : IndexView) (head : String) : Option String :=
  (view.getClass (BucketState.slashed head)).map ClassMetadata.internalName

theorem findsQualified_qualifiedHead (view : IndexView) : FindsQualified view (qualifiedHead view) where
  dotted _ _ _ := rfl
  simple head c hdot hget := by
    rw [qualifiedHead, slashed_of_not_mem hdot, hget, Option.map_some, (record_of_getClass hget).2]

end Resolving

/-! ## When the name resolves back -/

/-- The dotted name of the class resolves to the class. -/
def ResolvesBack (view : IndexView) (internal : String) (c : ClassMetadata) : Prop :=
  ∀ resolveHead, FindsQualified view resolveHead → ∃ name, view.getSourceTypeName internal = some name ∧
    view.resolveQualifiedTypePath name resolveHead = some c

/-- The outermost owner is named after its package, and no longer front of the dotted name is a class from which the
other names lead to a class. -/
structure FirstFront (view : IndexView) (c : ClassMetadata) (owners : List ClassMetadata) : Prop where
  topLevel : IsTopLevel (outermost c owners)
  noLonger : ∀ front back found, sourceSegments c owners = front ++ back →
    (packageSegments c.package).length + 1 < front.length → (view.getClass ("/".intercalate front)).isSome →
    Leads view ("/".intercalate front) back found → view.getClass found = none

theorem memberName_inj {owner owner' : String} {names : List String}
    (h : memberName owner names = memberName owner' names) : owner = owner' := by
  induction names using List.reverseRecOn with
  | nil => exact h
  | append_singleton names last ih =>
    rw [memberName_concat, memberName_concat] at h
    exact ih ((String.append_left_inj _).mp ((String.append_left_inj _).mp h))

section ResolvesBack

variable {view : IndexView} {c : ClassMetadata} {owners : List ClassMetadata}
  (hnames : ∀ c ∈ view.records, JavaNamed c)

include hnames

theorem splitClass_of_leads {resolveHead : String → Option String} (h : FindsQualified view resolveHead)
    {front back : List String} (hfront : ∀ s ∈ front, IsIdentifier s) (hne : front ≠ [])
    (hexists : (view.getClass ("/".intercalate front)).isSome) {found : String}
    (hleads : Leads view ("/".intercalate front) back found) :
    splitClass view resolveHead (front, back) = view.getClass found := by
  obtain ⟨d, hd⟩ := Option.isSome_iff_exists.mp hexists
  rw [splitClass, h.resolve_class hfront hne hd, Option.bind_some, (innerAlong_iff hnames).mpr hleads, Option.bind_some]

theorem FirstFront.splitClass_longer (h : FirstFront view c owners) {resolveHead : String → Option String}
    (hhead : FindsQualified view resolveHead) (hparts : ∀ s ∈ sourceSegments c owners, IsIdentifier s)
    {front back : List String} (hsplit : sourceSegments c owners = front ++ back)
    (hlong : (packageSegments c.package).length + 1 < front.length) :
    splitClass view resolveHead (front, back) = none := by
  have hfront : ∀ s ∈ front, IsIdentifier s := fun s hs => hparts s (hsplit ▸ List.mem_append_left back hs)
  have hhead := hhead.resolve_path hfront (by omega)
  rw [splitClass, hhead]
  cases hget : view.getClass ("/".intercalate front) with
  | none => rw [Option.map_none, Option.bind_none, Option.bind_none]
  | some d =>
    rw [Option.map_some, Option.bind_some, (record_of_getClass hget).2]
    cases hinner : view.innerAlong ("/".intercalate front) back with
    | none => rw [Option.bind_none]
    | some found =>
      rw [Option.bind_some]
      exact h.noLonger front back found hsplit hlong (Option.isSome_of_mem hget) ((innerAlong_iff hnames).mp hinner)

/-- Only the front with the package and the outermost owner gives the class, and only where this owner is named after
its package. -/
theorem place_of_splitClass (hc : c ∈ view.records) (howners : OwnersIndexed view c owners) {front back : List String}
    (hsplit : sourceSegments c owners = front ++ back) (hne : front ≠ [])
    (h : splitClass view (qualifiedHead view) (front, back) = some c) :
    front.length = (packageSegments c.package).length + 1 ∧ IsTopLevel (outermost c owners) := by
  obtain ⟨names, hsegments, hnested⟩ := exists_nested hnames hc howners
  have hparts : ∀ s ∈ front ++ back, IsIdentifier s := fun s hs =>
    identifier_of_sourceSegments hnames hc howners (hsplit ▸ hs)
  have hslashes : ∀ s ∈ front ++ back, '/' ∉ s.toList := fun s hs => (hparts s hs).slash_not_mem
  -- The class as the member that the parts behind the front name.
  obtain ⟨found, hfound, hget⟩ := Option.bind_eq_some_iff.mp h
  obtain ⟨head, hhead, hinner⟩ := Option.bind_eq_some_iff.mp hfound
  simp only [qualifiedHead] at hhead
  rw [slashed_path fun s hs => (hparts s (List.mem_append_left back hs)).dot_not_mem] at hhead
  obtain ⟨d, hd, rfl⟩ := Option.map_eq_some_iff.mp hhead
  have hmember := ((innerAlong_iff hnames).mp hinner).eq_memberName hnames
  rw [(record_of_getClass hd).2, ← (record_of_getClass hget).2] at hmember
  obtain ⟨pre, last, rfl⟩ := (List.eq_nil_or_concat front).resolve_left hne
  rw [List.concat_eq_append] at hsplit hmember hslashes ⊢
  rw [memberName_path] at hmember
  -- The class as the member of its outermost owner.
  obtain ⟨tail, htail, hinternal⟩ := (hnames _ hnested.indexed).named.package
  rw [← hnested.package] at hinternal
  have htop := hnested.internalName
  rw [hinternal, buildInternalName_eq, memberName_path] at htop
  have hnamesFree : ∀ s ∈ names, '/' ∉ s.toList := by
    intro s hs
    refine (identifier_of_sourceSegments hnames hc howners ?_).slash_not_mem
    rw [sourceSegments, hsegments]
    exact List.mem_append_right _ (List.mem_cons_of_mem _ hs)
  have hpaths : pre ++ [memberName last back] = packageSegments c.package ++ [memberName tail names] := by
    refine path_inj rfl ?_ ?_ (by simp) (by simp) (hmember.symm.trans htop)
    · intro s hs
      rcases List.mem_append.mp hs with hpre | hlast
      · exact hslashes s (List.mem_append_left _ (List.mem_append_left _ hpre))
      · rw [List.mem_singleton.mp hlast]
        exact slash_not_mem_memberName (hslashes last (by simp)) fun t ht => hslashes t (List.mem_append_right _ ht)
    · intro s hs
      rcases List.mem_append.mp hs with hpkg | hlast
      · exact slash_not_mem_packageSegments hpkg
      · rw [List.mem_singleton.mp hlast]
        exact slash_not_mem_memberName htail hnamesFree
  obtain ⟨rfl, hlast⟩ := List.append_inj' hpaths rfl
  rw [sourceSegments, hsegments, List.append_assoc, List.singleton_append] at hsplit
  obtain ⟨rfl, rfl⟩ := List.cons.inj (List.append_cancel_left hsplit)
  have hname : (outermost c owners).name = tail := memberName_inj (List.singleton_inj.mp hlast)
  refine ⟨by rw [List.length_append, List.length_singleton], hnested.owner, ?_⟩
  rw [← hnested.package, hinternal, hname]

theorem resolvesBack_of_firstFront {internal : String} (hget : view.getClass internal = some c)
    (howners : OwnersIndexed view c owners) (hlen : owners.length ≤ 64) (h : FirstFront view c owners) :
    ResolvesBack view internal c := by
  intro resolveHead hhead
  obtain ⟨hc, rfl⟩ := record_of_getClass hget
  obtain ⟨names, hsegments, hnested⟩ := exists_nested hnames hc howners
  have hparts : ∀ s ∈ sourceSegments c owners, IsIdentifier s := fun s hs =>
    identifier_of_sourceSegments hnames hc howners hs
  have hsource : sourceSegments c owners =
      (packageSegments c.package ++ [(outermost c owners).name]) ++ names := by
    rw [sourceSegments, hsegments, List.append_assoc, List.singleton_append]
  have hlength : (packageSegments c.package ++ [(outermost c owners).name]).length =
      (packageSegments c.package).length + 1 := by
    rw [List.length_append, List.length_singleton]
  refine ⟨_, getSourceTypeName_eq hget howners hlen, ?_⟩
  rw [resolveQualifiedTypePath_path hparts (by simp [hsource]), findSome?_splitsFromLongest]
  refine ⟨(packageSegments c.package).length, by rw [hsource, List.length_append, hlength]; omega, ?_, ?_⟩
  · have hinternal : "/".intercalate (packageSegments c.package ++ [(outermost c owners).name]) =
        (outermost c owners).internalName := by
      rw [h.topLevel.internalName, buildInternalName_eq, hnested.package]
    obtain ⟨d, hd⟩ := getClass_of_record hnested.indexed
    rw [hsource, List.take_left' hlength, List.drop_left' hlength]
    rw [splitClass_of_leads hnames hhead (fun s hs => hparts s (hsource ▸ List.mem_append_left names hs)) (by simp)
      (by rw [hinternal, hd, Option.isSome_some]) (by rw [hinternal]; exact hnested.leads), hget]
  · intro j hj hlt
    refine h.splitClass_longer hnames hhead hparts (List.take_append_drop (j + 1) _).symm ?_
    rw [List.length_take]
    omega

theorem firstFront_of_resolvesBack {internal : String} (hget : view.getClass internal = some c)
    (howners : OwnersIndexed view c owners) (hlen : owners.length ≤ 64) (h : ResolvesBack view internal c) :
    FirstFront view c owners := by
  obtain ⟨hc, rfl⟩ := record_of_getClass hget
  have hparts : ∀ s ∈ sourceSegments c owners, IsIdentifier s := fun s hs =>
    identifier_of_sourceSegments hnames hc howners hs
  have hne : sourceSegments c owners ≠ [] := by simp [sourceSegments]
  obtain ⟨name, hname, hresolved⟩ := h _ (findsQualified_qualifiedHead view)
  rw [getSourceTypeName_eq hget howners hlen, Option.some.injEq] at hname
  rw [← hname, resolveQualifiedTypePath_path hparts hne, findSome?_splitsFromLongest] at hresolved
  obtain ⟨i, hi, hfound, hnone⟩ := hresolved
  obtain ⟨hplace, htop⟩ := place_of_splitClass hnames hc howners (List.take_append_drop (i + 1) _).symm
    (by simpa using hne) hfound
  rw [List.length_take, Nat.min_eq_left hi] at hplace
  refine ⟨htop, fun front back found hsplit hlong hexists hleads => ?_⟩
  have hlength : front.length - 1 + 1 = front.length := by omega
  have hlonger := hnone (front.length - 1) (by omega) (by rw [hsplit, List.length_append]; omega)
  rw [hlength, hsplit, List.take_left, List.drop_left, splitClass_of_leads hnames (findsQualified_qualifiedHead view)
    (fun s hs => hparts s (hsplit ▸ List.mem_append_left back hs)) (List.ne_nil_of_length_pos (by omega)) hexists
    hleads] at hlonger
  exact hlonger

end ResolvesBack

section Examples

/-- No two classes have one dotted name. -/
def UniqueSourceNames (view : IndexView) : Prop :=
  ∀ internal internal' name, view.getSourceTypeName internal = some name →
    view.getSourceTypeName internal' = some name → internal = internal'

theorem uniqueSourceNames_of_records {view : IndexView} (h : ∀ c ∈ view.records, ∀ d ∈ view.records,
    view.getSourceTypeName c.internalName = view.getSourceTypeName d.internalName →
      c.internalName = d.internalName) : UniqueSourceNames view := by
  have hrecord : ∀ {internal name : String}, view.getSourceTypeName internal = some name →
      ∃ c ∈ view.records, c.internalName = internal := by
    intro internal name hname
    obtain ⟨c, hget, -⟩ := Option.map_eq_some_iff.mp hname
    exact ⟨c, record_of_getClass hget⟩
  intro internal internal' name hname hname'
  obtain ⟨c, hc, rfl⟩ := hrecord hname
  obtain ⟨d, hd, rfl⟩ := hrecord hname'
  exact h c hc d hd (hname.trans hname'.symm)

theorem javaNamed_of_tail {c : ClassMetadata} (tail : String)
    (hinternal : '/' ∉ tail.toList ∧ c.internalName = buildInternalName c.package tail)
    (hplain : ∀ x ∈ c.internalName.toList, x ≠ '.' ∧ x ≠ '*')
    (hname : c.name.toList ≠ [] ∧ ∀ x ∈ c.name.toList, isWhitespace x = false ∧ x ≠ '.' ∧ x ≠ '/')
    (hpackage : ∀ s ∈ packageSegments c.package, IsIdentifier s)
    (hmember : c.innerClassOf.all (fun owner => c.internalName = owner ++ "$" ++ c.name) = true) : JavaNamed c where
  named := ⟨⟨tail, hinternal⟩, hplain⟩
  name := ⟨hname.1, hname.2⟩
  package := hpackage
  member owner howner := by
    rw [howner, Option.all_some] at hmember
    exact of_decide_eq_true hmember

theorem identifier_packageSegments : ∀ s ∈ packageSegments (some "p"), IsIdentifier s := by
  have hsegments : packageSegments (some "p") = ["p"] := by decide
  rw [hsegments, List.forall_mem_singleton]
  exact ⟨by decide, by simp [isWhitespace]⟩

end Examples

end JavaAnalyzer.Completion
