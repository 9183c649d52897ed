import JavaAnalyzer.Index.ViewLayers
import JavaAnalyzer.Library.BreadthFirst
import JavaAnalyzer.Library.Dedup
import JavaAnalyzer.Library.MemoTable

/-! # Packages, and a bucket with its member cache

`has_package` of the layers and of a view, and `GlobalIndex` of `index.rs`: one bucket of `index/bucket.rs` with the
cache of inherited members that its writes clear. `members_current` says that no run of calls ever answers from an
old state. -/

namespace JavaAnalyzer.Index
set_option autoImplicit false

/-! ## Packages -/

def BucketState.hasPackage (inner : BucketState) (pkg : String) : Bool :=
  (inner.packageIndex.lookup (slashed pkg)).isSome

def BucketState.hasClassesInPackage (inner : BucketState) (pkg : String) : Bool :=
  (inner.packageIndex.lookup (slashed pkg)).any fun ids => !ids.isEmpty

def ArtifactScopeReader.hasPackage (reader : ArtifactScopeReader) (pkg : String) : Bool :=
  (reader.packageIndex.lookup (BucketState.slashed pkg)).isSome

def ArtifactScopeReader.hasClassesInPackage (reader : ArtifactScopeReader) (pkg : String) : Bool :=
  (reader.packageIndex.lookup (BucketState.slashed pkg)).any fun ids => !ids.isEmpty

namespace IndexView

variable (view : IndexView)

def layerHasPackage (pkg : String) : ScopeLayer BucketIndex → Bool
  | .overlay bucket => bucket.inner.hasPackage pkg
  | .artifact id => (view.artifactReader id).any fun reader => reader.hasPackage pkg

def layerHasClassesInPackage (pkg : String) : ScopeLayer BucketIndex → Bool
  | .overlay bucket => bucket.inner.hasClassesInPackage pkg
  | .artifact id => (view.artifactReader id).any fun reader => reader.hasClassesInPackage pkg

def hasPackage (pkg : String) : Bool :=
  view.layers.any (view.layerHasPackage pkg)

def hasClassesInPackage (pkg : String) : Bool :=
  view.layers.any (view.layerHasClassesInPackage pkg)

end IndexView

section Packages

/-- An index without empty entries has a key exactly when it has something under it. -/
theorem any_nonempty_eq_isSome {ids : Option (List ℕ)} (h : ids ≠ some []) :
    (ids.any fun ids => !ids.isEmpty) = ids.isSome := by
  cases ids with
  | none => rfl
  | some ids =>
    cases ids with
    | nil => exact absurd rfl h
    | cons => rfl

theorem lookup_ofKeys_ne_nil {κ : Type} [DecidableEq κ] (keys : List (Option κ)) (k : κ) :
    (KeyIndex.ofKeys keys).lookup k ≠ some [] := by
  induction keys using List.reverseRecOn with
  | nil => simp [KeyIndex.ofKeys]
  | append_singleton keys key ih =>
    rw [KeyIndex.ofKeys_concat]
    cases key with
    | none => exact ih
    | some k' => exact KeyIndex.lookup_push_ne_nil _ k' k keys.length ih

theorem isSome_lookup_iff {κ : Type} [DecidableEq κ] {m : KeyIndex κ} {k : κ} (h : m.lookup k ≠ some []) :
    (m.lookup k).isSome ↔ m.entries k ≠ [] := by
  rw [KeyIndex.entries]
  cases hl : m.lookup k with
  | none => simp
  | some ids => simpa [hl] using h

theorem BucketIndex.hasPackage_iff {b : BucketIndex} {pkg : String} :
    b.inner.hasPackage pkg = true ↔ ∃ c ∈ b.iterAllClasses, c.package = some (BucketState.slashed pkg) := by
  have hfiles := b.invariant.package
  rw [BucketState.hasPackage, isSome_lookup_iff (hfiles.nonempty _)]
  constructor
  · intro hne
    obtain ⟨i, hi⟩ := List.exists_mem_of_ne_nil _ hne
    obtain ⟨r, hr, hpkg⟩ := BucketState.keyOf_eq_some.mp ((hfiles.mem_iff _ i).mp hi)
    exact ⟨r.materialize, BucketState.mem_iterAllClasses.mpr ⟨r, ⟨i, hr⟩, rfl⟩, r.package_eq.trans hpkg⟩
  · rintro ⟨c, hc, hpkg⟩
    obtain ⟨r, ⟨i, hr⟩, rfl⟩ := BucketState.mem_iterAllClasses.mp hc
    refine List.ne_nil_of_mem ((hfiles.mem_iff _ i).mpr ?_)
    exact BucketState.keyOf_eq_some.mpr ⟨r, hr, r.package_eq.symm.trans hpkg⟩

theorem entries_ofKeys_ne_nil {κ : Type} [DecidableEq κ] {keys : List (Option κ)} {k : κ} :
    (KeyIndex.ofKeys keys).entries k ≠ [] ↔ some k ∈ keys := by
  rw [KeyIndex.entries_ofKeys, List.mem_iff_getElem?]
  constructor
  · intro hne
    obtain ⟨i, hi⟩ := List.exists_mem_of_ne_nil _ hne
    exact ⟨i, of_decide_eq_true (List.mem_filter.mp hi).2⟩
  · rintro ⟨i, hi⟩
    have hlt : i < keys.length := (List.getElem?_eq_some_iff.mp hi).1
    exact List.ne_nil_of_mem (List.mem_filter.mpr ⟨List.mem_range.mpr hlt, decide_eq_true hi⟩)

theorem ArtifactScopeReader.hasPackage_iff {reader : ArtifactScopeReader} {pkg : String} :
    reader.hasPackage pkg = true ↔ ∃ c ∈ reader.allClasses, c.package = some (BucketState.slashed pkg) := by
  rw [hasPackage, packageIndex_eq, isSome_lookup_iff (lookup_ofKeys_ne_nil _ _), entries_ofKeys_ne_nil, List.mem_map]
  constructor
  · rintro ⟨stub, hstub, hpkg⟩
    exact ⟨stub.materialize, List.mem_map_of_mem hstub, hpkg⟩
  · rintro ⟨c, hc, hpkg⟩
    obtain ⟨stub, hstub, rfl⟩ := List.mem_map.mp hc
    exact ⟨stub, hstub, hpkg⟩

namespace IndexView

variable {view : IndexView}

theorem layerHasPackage_iff {pkg : String} {layer : ScopeLayer BucketIndex} :
    view.layerHasPackage pkg layer = true ↔
      ∃ c ∈ view.layerRecords layer, c.package = some (BucketState.slashed pkg) := by
  cases layer with
  | overlay bucket => exact BucketIndex.hasPackage_iff
  | artifact id =>
    rw [layerHasPackage, layerRecords]
    cases view.artifactReader id with
    | none => simp
    | some reader => exact ArtifactScopeReader.hasPackage_iff

theorem layerHasClassesInPackage_eq (pkg : String) (layer : ScopeLayer BucketIndex) :
    view.layerHasClassesInPackage pkg layer = view.layerHasPackage pkg layer := by
  cases layer with
  | overlay bucket => exact any_nonempty_eq_isSome (bucket.invariant.package.nonempty _)
  | artifact id =>
    rw [layerHasClassesInPackage, layerHasPackage]
    cases view.artifactReader id with
    | none => rfl
    | some reader =>
      refine any_nonempty_eq_isSome ?_
      rw [reader.packageIndex_eq]
      exact lookup_ofKeys_ne_nil _ _

theorem hasPackage_iff {pkg : String} :
    view.hasPackage pkg = true ↔ ∃ c ∈ view.records, c.package = some (BucketState.slashed pkg) := by
  rw [hasPackage, List.any_eq_true]
  simp only [layerHasPackage_iff, records, List.mem_flatMap]
  constructor
  · rintro ⟨layer, hlayer, c, hc, hpkg⟩
    exact ⟨c, ⟨layer, hlayer, hc⟩, hpkg⟩
  · rintro ⟨c, ⟨layer, hlayer, hc⟩, hpkg⟩
    exact ⟨layer, hlayer, c, hc, hpkg⟩

theorem classesInPackage_ne_nil_iff {pkg : String} :
    view.classesInPackage pkg ≠ [] ↔ ∃ c ∈ view.records, c.package = some (BucketState.slashed pkg) := by
  constructor
  · intro hne
    obtain ⟨c, hc⟩ := List.exists_mem_of_ne_nil _ hne
    have hbest := List.argmax_mem (firstBest_iff.mp ((mem_listing_iff (k := .package pkg)).mp hc))
    have hasks := List.mem_filter.mp hbest
    exact ⟨c, List.mem_of_mem_filter hasks.1, of_decide_eq_true hasks.2⟩
  · rintro ⟨c, hc, hpkg⟩
    have hmem : c ∈ (view.recordsNamed c.internalName).filter (ListingKey.package pkg).asks :=
      List.mem_filter.mpr ⟨List.mem_filter.mpr ⟨hc, decide_eq_true rfl⟩, decide_eq_true hpkg⟩
    obtain ⟨d, hd⟩ := Option.ne_none_iff_exists'.mp
      (mt List.argmax_eq_none.mp (List.ne_nil_of_mem hmem) :
        ((view.recordsNamed c.internalName).filter (ListingKey.package pkg).asks).argmax
          ClassMetadata.originPrecedence ≠ none)
    have hname : d.internalName = c.internalName :=
      of_decide_eq_true (List.mem_filter.mp (List.mem_of_mem_filter (List.argmax_mem hd))).2
    exact List.ne_nil_of_mem ((mem_listing_iff (k := .package pkg)).mpr (hname ▸ firstBest_iff.mpr hd))

/-- The three ways to ask for a package agree: it is there exactly when a class of a layer lies in it. -/
theorem packages_agree (view : IndexView) (pkg : String) :
    (view.hasPackage pkg = true ↔ ∃ c ∈ view.records, c.package = some (BucketState.slashed pkg)) ∧
      view.hasClassesInPackage pkg = view.hasPackage pkg ∧
      (view.hasPackage pkg = true ↔ view.classesInPackage pkg ≠ []) := by
  refine ⟨hasPackage_iff, ?_, hasPackage_iff.trans classesInPackage_ne_nil_iff.symm⟩
  rw [hasClassesInPackage, hasPackage]
  exact congrArg view.layers.any (funext (layerHasClassesInPackage_eq pkg))

end IndexView

end Packages

/-! ## Inherited members of one bucket -/

abbrev Members := List MethodSummary × List FieldSummary

namespace BucketState

variable (inner : BucketState)

/-- The parents that join the queue. -/
def queuedParents (c : ClassMetadata) : List String :=
  (c.superName.toList ++ c.interfaces).filter fun parent => parent ≠ ""

/-- The loop of `mro`, with fuel for the parents of all classes. -/
def mroSearch (classInternal : String) : Option (List ClassMetadata) :=
  Worklist.bfs inner.getClass queuedParents
    (Worklist.budget inner.getClass queuedParents (inner.iterAllClasses.map ClassMetadata.internalName) [classInternal])
    [classInternal] []

def mro (classInternal : String) : List ClassMetadata :=
  (inner.mroSearch classInternal).getD []

/-- What `collect_inherited_members` collects when the cache does not answer. -/
def inheritedMembers (classInternal : String) : Members :=
  (Dedup.dedupBy (fun m : MethodSummary => (m.name, m.desc)) []
      ((inner.mro classInternal).flatMap ClassMetadata.methods),
    Dedup.dedupBy FieldSummary.name [] ((inner.mro classInternal).flatMap ClassMetadata.fields))

end BucketState

/-- The classes that the superclass and interface edges of the bucket lead to, each once and the nearest first. -/
structure BucketState.ListsReachable (inner : BucketState) (classInternal : String) (classes : List ClassMetadata) :
    Prop where
  head : (inner.getClass classInternal).isSome → (classes.map ClassMetadata.internalName).head? = some classInternal
  mem_iff : ∀ c, c ∈ classes ↔ inner.getClass c.internalName = some c ∧
    Worklist.Reaches inner.getClass BucketState.queuedParents classInternal c.internalName
  nodup : (classes.map ClassMetadata.internalName).Nodup
  sorted : classes.Pairwise fun c d =>
    Worklist.distance inner.getClass BucketState.queuedParents classInternal c.internalName ≤
      Worklist.distance inner.getClass BucketState.queuedParents classInternal d.internalName

theorem BucketIndex.mro_search (b : BucketIndex) (classInternal : String) :
    b.inner.mroSearch classInternal = some (b.inner.mro classInternal) := by
  have hnames (k : String) (c : ClassMetadata) (hc : b.inner.getClass k = some c)
      (_ : BucketState.queuedParents c ≠ []) : k ∈ b.inner.iterAllClasses.map ClassMetadata.internalName := by
    obtain rfl := getClass_internalName (b := b) hc
    exact List.mem_map_of_mem (BucketIndex.mem_iterAllClasses.mpr hc)
  obtain ⟨classes, hclasses⟩ := Option.isSome_iff_exists.mp (Worklist.bfs_budget hnames [classInternal] [])
  rw [BucketState.mro, BucketState.mroSearch, hclasses, Option.getD_some]

theorem BucketIndex.names_of_found {b : BucketIndex} {names : List String} {classes : List ClassMetadata}
    (h : names.map b.inner.getClass = classes.map some) : classes.map ClassMetadata.internalName = names := by
  induction names generalizing classes with
  | nil =>
    obtain rfl := List.map_eq_nil_iff.mp h.symm
    rfl
  | cons n names ih =>
    cases classes with
    | nil => cases h
    | cons c classes =>
      rw [List.map_cons, List.map_cons] at h
      obtain ⟨hc, hrest⟩ := List.cons.inj h
      rw [List.map_cons, ih hrest, getClass_internalName (b := b) hc]

theorem BucketIndex.mro_lists (b : BucketIndex) (classInternal : String) :
    b.inner.ListsReachable classInternal (b.inner.mro classInternal) := by
  obtain ⟨names, hmap, hcovers⟩ := Worklist.bfs_reaches (mro_search b classInternal)
  have hnames := names_of_found hmap
  refine ⟨fun hfound => ?_, fun c => ?_, ?_, ?_⟩
  · rw [hnames]
    exact hcovers.head hfound
  · constructor
    · intro hc
      have hsome : some c ∈ names.map b.inner.getClass := hmap ▸ List.mem_map_of_mem hc
      obtain ⟨n, hn, hfound⟩ := List.mem_map.mp hsome
      obtain rfl := getClass_internalName (b := b) hfound
      exact ⟨hfound, ((hcovers.mem_iff _).mp hn).2⟩
    · rintro ⟨hfound, hreaches⟩
      have hn : c.internalName ∈ names := (hcovers.mem_iff _).mpr ⟨List.not_mem_nil, hreaches⟩
      have hsome : some c ∈ (b.inner.mro classInternal).map some := by
        rw [← hmap, ← hfound]
        exact List.mem_map_of_mem hn
      obtain ⟨d, hd, hdc⟩ := List.mem_map.mp hsome
      exact Option.some.inj hdc ▸ hd
  · rw [hnames]
    exact hcovers.nodup
  · have hsorted := hcovers.sorted
    rw [← hnames, List.pairwise_map] at hsorted
    exact hsorted

/-! ## The bucket with its cache -/

def mroCacheLimit : ℕ := 1024

structure GlobalIndex where
  bucket : BucketIndex
  mroCache : MemoTable.Table String String Members

namespace GlobalIndex

def new : GlobalIndex :=
  ⟨BucketIndex.new, []⟩

variable (index : GlobalIndex)

def addClassesWithDeclarations (classes : List ClassMetadata) (declarations : Option SourceDeclarationBatch) :
    GlobalIndex :=
  ⟨index.bucket.addClassesWithDeclarations classes declarations, []⟩

def addArchiveClasses (classes : List ClassMetadata) : GlobalIndex :=
  ⟨index.bucket.addArchiveClasses classes, []⟩

/-- The cache stays when there is nothing of the origin. -/
def removeByOrigin (origin : ClassOrigin) : GlobalIndex × Bool :=
  let removed := index.bucket.removeByOrigin origin
  (⟨removed.1, if removed.2 then [] else index.mroCache⟩, removed.2)

def updateSourceWithDeclarations (origin : ClassOrigin) (classes : List ClassMetadata)
    (declarations : Option SourceDeclarationBatch) : GlobalIndex × Bool :=
  let filtered := index.bucket.inner.withoutJarConflicts classes
  if filtered.isEmpty then (index, false)
  else if index.bucket.inner.sameClassesForOrigin origin filtered then (index, false)
  else ((index.removeByOrigin origin).1.addClassesWithDeclarations filtered declarations, true)

def clearQueryCaches : GlobalIndex :=
  ⟨index.bucket, []⟩

/-- `collect_inherited_members`; a hit does not count as a use. -/
def collectInheritedMembers (classInternal : String) : Members × GlobalIndex :=
  match MemoTable.find index.mroCache classInternal with
  | some cached => (cached.value, index)
  | none =>
    let result := index.bucket.inner.inheritedMembers classInternal
    (result, ⟨index.bucket, MemoTable.put mroCacheLimit index.mroCache ⟨classInternal, result, classInternal⟩⟩)

/-- The calls that change the bucket or its cache. -/
inductive Call where
  | addClassesWithDeclarations (classes : List ClassMetadata) (declarations : Option SourceDeclarationBatch)
  | addArchiveClasses (classes : List ClassMetadata)
  | removeByOrigin (origin : ClassOrigin)
  | updateSourceWithDeclarations (origin : ClassOrigin) (classes : List ClassMetadata)
      (declarations : Option SourceDeclarationBatch)
  | clearQueryCaches
  | collectInheritedMembers (classInternal : String)

def apply : Call → GlobalIndex
  | .addClassesWithDeclarations classes declarations => index.addClassesWithDeclarations classes declarations
  | .addArchiveClasses classes => index.addArchiveClasses classes
  | .removeByOrigin origin => (index.removeByOrigin origin).1
  | .updateSourceWithDeclarations origin classes declarations =>
    (index.updateSourceWithDeclarations origin classes declarations).1
  | .clearQueryCaches => index.clearQueryCaches
  | .collectInheritedMembers classInternal => (index.collectInheritedMembers classInternal).2

def run (calls : List Call) : GlobalIndex :=
  calls.foldl apply new

/-! ## The cache is never stale -/

/-- The cache holds what would be collected now. -/
def Current : Prop :=
  MemoTable.Sound id index.bucket.inner.inheritedMembers index.mroCache

variable {index}

theorem current_new : new.Current :=
  MemoTable.sound_nil

theorem Current.removeByOrigin (h : index.Current) (origin : ClassOrigin) :
    (index.removeByOrigin origin).1.Current := by
  unfold GlobalIndex.removeByOrigin
  cases hremoved : index.bucket.inner.byOrigin.lookup origin with
  | none =>
    have hbucket : index.bucket.inner.removeByOrigin origin = (index.bucket.inner, false) := by
      rw [BucketState.removeByOrigin, hremoved]
    simp only [Current, BucketIndex.removeByOrigin, hbucket]
    exact h
  | some ids =>
    have hbucket : (index.bucket.inner.removeByOrigin origin).2 = true := by
      rw [BucketState.removeByOrigin, hremoved]
    simp only [Current, BucketIndex.removeByOrigin, hbucket]
    exact MemoTable.sound_nil

theorem Current.updateSource (h : index.Current) (origin : ClassOrigin) (classes : List ClassMetadata)
    (declarations : Option SourceDeclarationBatch) :
    (index.updateSourceWithDeclarations origin classes declarations).1.Current := by
  unfold updateSourceWithDeclarations
  dsimp only
  split_ifs
  · exact h
  · exact h
  · exact MemoTable.sound_nil

theorem Current.collect (h : index.Current) (classInternal : String) :
    (index.collectInheritedMembers classInternal).1 = index.bucket.inner.inheritedMembers classInternal ∧
      (index.collectInheritedMembers classInternal).2.Current := by
  unfold collectInheritedMembers
  cases hfind : MemoTable.find index.mroCache classInternal with
  | some cached =>
    have hsound := h cached (MemoTable.mem_of_find hfind)
    have hkey : cached.key = classInternal := by simpa using List.find?_some hfind
    exact ⟨hsound.2.trans (congrArg _ (hsound.1.symm.trans hkey)), h⟩
  | none => exact ⟨rfl, MemoTable.Sound.put h classInternal⟩

theorem Current.apply (h : index.Current) (call : Call) : (index.apply call).Current := by
  cases call with
  | addClassesWithDeclarations classes declarations => exact MemoTable.sound_nil
  | addArchiveClasses classes => exact MemoTable.sound_nil
  | removeByOrigin origin => exact h.removeByOrigin origin
  | updateSourceWithDeclarations origin classes declarations => exact h.updateSource origin classes declarations
  | clearQueryCaches => exact MemoTable.sound_nil
  | collectInheritedMembers classInternal => exact (h.collect classInternal).2

theorem current_run (calls : List Call) : (run calls).Current := by
  induction calls using List.reverseRecOn with
  | nil => exact current_new
  | append_singleton calls call ih =>
    rw [run, List.foldl_append]
    exact Current.apply ih call

/-- After any calls the members of a class are those of the classes that are reachable in the bucket as it is then. -/
theorem members_current (calls : List Call) (classInternal : String) :
    (run calls).bucket.inner.ListsReachable classInternal ((run calls).bucket.inner.mro classInternal) ∧
      ((run calls).collectInheritedMembers classInternal).1 =
        (run calls).bucket.inner.inheritedMembers classInternal :=
  ⟨(run calls).bucket.mro_lists classInternal, ((current_run calls).collect classInternal).1⟩

end GlobalIndex

end JavaAnalyzer.Index
