import JavaAnalyzer.Index.Scope
import JavaAnalyzer.Library.Worklist

/-! # Modules and their dependency graph

`index/module_index.rs` and `index/module_graph.rs`. A module keeps one bucket for sources of no
source root, one bucket for each source root, and the entries of its classpaths. Buckets are shared,
so a module holds pointers to them. -/

namespace JavaAnalyzer.Index
set_option autoImplicit false

/-- An `Arc<BucketIndex>`. -/
abbrev BucketPtr := ℕ

inductive ClasspathEntry where
  | artifact (id : ArtifactId)
  | overlay (bucket : BucketPtr)
deriving DecidableEq, Repr

def ClasspathEntry.toLayer : ClasspathEntry → ScopeLayer BucketPtr
  | .artifact id => .artifact id
  | .overlay bucket => .overlay bucket

structure ClasspathIndex where
  jars : List String
  entries : List ClasspathEntry

structure SourceRootIndex where
  classpath : ClasspathId
  bucket : BucketPtr

/-- The order in which a hash map lists its keys. -/
structure RandomState where
  order : List SourceRootId → List SourceRootId
  perm : ∀ ids, (order ids).Perm ids

def RandomState.insertion : RandomState :=
  ⟨id, fun _ => .rfl⟩

structure ModuleIndex where
  id : ModuleId
  name : String
  source : BucketPtr
  classpaths : AList (fun _ : ClasspathId => ClasspathIndex)
  activeClasspath : ClasspathId
  sourceRoots : AList (fun _ : SourceRootId => SourceRootIndex)
  rootHasher : RandomState

/-- The classpaths whose source roots are matched, in this order, for a requested classpath. -/
def ClasspathId.searched : ClasspathId → List ClasspathId
  | .main => [.main]
  | .test => [.test, .main]

namespace ModuleIndex

def new (id : ModuleId) (name : String) (source : BucketPtr) : ModuleIndex where
  id := id
  name := name
  source := source
  classpaths := ∅
  activeClasspath := .main
  sourceRoots := ∅
  rootHasher := .insertion

variable (m : ModuleIndex)

/-! ## Source roots -/

/-- `set_source_roots`, once every root has its new bucket. -/
def setSourceRoots (roots : List (SourceRootId × SourceRootIndex)) (hasher : RandomState) :
    ModuleIndex :=
  { m with
    sourceRoots := roots.foldl (fun map (id, root) => map.insert id root) ∅
    rootHasher := hasher }

def registeredRoot (sourceRoot : Option SourceRootId) : Option SourceRootIndex :=
  sourceRoot.bind fun id => m.sourceRoots.lookup id

/-- The bucket that `update_source_in_root` and `remove_source_origin_in_root` write to. -/
def bucketForRoot (sourceRoot : Option SourceRootId) : BucketPtr :=
  match m.registeredRoot sourceRoot with
  | some root => root.bucket
  | none => m.source

def rootsInOrder : List (SourceRootId × SourceRootIndex) :=
  (m.rootHasher.order m.sourceRoots.keys).filterMap fun id =>
    (m.sourceRoots.lookup id).map fun root => (id, root)

/-- The layers listed so far, with the roots they come from. -/
def preferredLayer (preferredRoot : Option SourceRootId) :
    List BucketPtr × List SourceRootId :=
  match preferredRoot with
  | none => ([], [])
  | some id => match m.sourceRoots.lookup id with
    | none => ([], [])
    | some root => ([root.bucket], [id])

def pushRoot (requested : ClasspathId) (acc : List BucketPtr × List SourceRootId)
    (entry : SourceRootId × SourceRootIndex) : List BucketPtr × List SourceRootId :=
  if entry.1 ∈ acc.2 ∨ entry.2.classpath ≠ requested then acc
  else (acc.1 ++ [entry.2.bucket], entry.1 :: acc.2)

def pushMatching (acc : List BucketPtr × List SourceRootId) (requested : ClasspathId) :
    List BucketPtr × List SourceRootId :=
  m.rootsInOrder.foldl (pushRoot requested) acc

def matchingLayers (classpathId : ClasspathId) (preferredRoot : Option SourceRootId) :
    List BucketPtr × List SourceRootId :=
  classpathId.searched.foldl m.pushMatching (m.preferredLayer preferredRoot)

def visibleSourceLayers (classpathId : ClasspathId) (preferredRoot : Option SourceRootId) :
    List BucketPtr :=
  if m.sourceRoots.keys.isEmpty then [m.source]
  else
    let layers := (m.matchingLayers classpathId preferredRoot).1
    if layers.isEmpty then [m.source] else layers

/-! ## Classpaths -/

def setClasspath (id : ClasspathId) (jars : List String) (entries : List ClasspathEntry) :
    ModuleIndex :=
  { m with classpaths := m.classpaths.insert id ⟨jars, entries⟩ }

def addClasspathBucket (id : ClasspathId) (bucket : BucketPtr) : ModuleIndex :=
  let entry := (m.classpaths.lookup id).getD ⟨[], []⟩
  m.setClasspath id entry.jars (entry.entries ++ [.overlay bucket])

def setActiveClasspath (id : ClasspathId) : ModuleIndex :=
  { m with activeClasspath := id }

def classpathEntries (id : ClasspathId) : List ClasspathEntry :=
  ((m.classpaths.lookup id).map ClasspathIndex.entries).getD []

def activeClasspathEntries : List ClasspathEntry :=
  m.classpathEntries m.activeClasspath

def classpathJars (id : ClasspathId) : List String :=
  ((m.classpaths.lookup id).map ClasspathIndex.jars).getD []

/-- The layers a module puts into a scope: its sources, then the entries of the classpath. -/
def scopeLayers (classpathId : ClasspathId) (sourceRoot : Option SourceRootId) :
    List (ScopeLayer BucketPtr) :=
  (m.visibleSourceLayers classpathId sourceRoot).map .overlay ++
    (m.classpathEntries classpathId).map ClasspathEntry.toLayer

/-! ## What is visible -/

/-- The module has a source root that the classpath shows. -/
def ShowsRoot (classpathId : ClasspathId) : Prop :=
  ∃ id root, m.sourceRoots.lookup id = some root ∧ root.classpath ∈ classpathId.searched

variable {m}

theorem mem_rootsInOrder {entry : SourceRootId × SourceRootIndex} :
    entry ∈ m.rootsInOrder ↔ m.sourceRoots.lookup entry.1 = some entry.2 := by
  obtain ⟨id, root⟩ := entry
  simp only [rootsInOrder, List.mem_filterMap, (m.rootHasher.perm _).mem_iff,
    Option.map_eq_some_iff, Prod.mk.injEq]
  constructor
  · rintro ⟨id', -, root', hroot, rfl, rfl⟩
    exact hroot
  · intro hroot
    have hmem : id ∈ m.sourceRoots :=
      AList.lookup_isSome.mp (Option.isSome_iff_exists.mpr ⟨root, hroot⟩)
    exact ⟨id, AList.mem_keys.mp hmem, root, hroot, rfl, rfl⟩

/-- The listed layers are the buckets of the listed roots, each root once, the latest first. -/
structure Lists (m : ModuleIndex) (acc : List BucketPtr × List SourceRootId) : Prop where
  nodup : acc.2.Nodup
  buckets : acc.2.reverse.map (fun id => (m.sourceRoots.lookup id).map SourceRootIndex.bucket) =
    acc.1.map some

theorem lists_preferredLayer (preferredRoot : Option SourceRootId) :
    m.Lists (m.preferredLayer preferredRoot) := by
  unfold preferredLayer
  split
  · exact ⟨List.nodup_nil, rfl⟩
  · split
    · exact ⟨List.nodup_nil, rfl⟩
    · rename_i hroot
      exact ⟨List.nodup_singleton _, by simp [hroot]⟩

theorem Lists.pushRoot {acc : List BucketPtr × List SourceRootId} (h : m.Lists acc)
    (requested : ClasspathId) {entry : SourceRootId × SourceRootIndex}
    (hentry : m.sourceRoots.lookup entry.1 = some entry.2) :
    m.Lists (pushRoot requested acc entry) := by
  unfold ModuleIndex.pushRoot
  split
  · exact h
  · rename_i hnew
    refine ⟨List.nodup_cons.mpr ⟨fun hmem => hnew (.inl hmem), h.nodup⟩, ?_⟩
    rw [List.reverse_cons, List.map_append, h.buckets, List.map_append]
    simp [hentry]

theorem Lists.foldl_pushRoot {acc : List BucketPtr × List SourceRootId} (h : m.Lists acc)
    (requested : ClasspathId) {entries : List (SourceRootId × SourceRootIndex)}
    (hentries : ∀ entry ∈ entries, m.sourceRoots.lookup entry.1 = some entry.2) :
    m.Lists (entries.foldl (ModuleIndex.pushRoot requested) acc) := by
  induction entries generalizing acc with
  | nil => exact h
  | cons entry entries ih =>
    exact ih (h.pushRoot requested (hentries entry (List.mem_cons_self ..)))
      fun e he => hentries e (List.mem_cons_of_mem _ he)

theorem Lists.pushMatching {acc : List BucketPtr × List SourceRootId} (h : m.Lists acc)
    (requested : ClasspathId) : m.Lists (m.pushMatching acc requested) :=
  h.foldl_pushRoot requested fun _ he => mem_rootsInOrder.mp he

theorem lists_matchingLayers (classpathId : ClasspathId) (preferredRoot : Option SourceRootId) :
    m.Lists (m.matchingLayers classpathId preferredRoot) := by
  have h := lists_preferredLayer (m := m) preferredRoot
  cases classpathId with
  | main => exact h.pushMatching .main
  | test => exact (h.pushMatching .test).pushMatching .main

theorem foldl_pushRoot_extends (requested : ClasspathId)
    (entries : List (SourceRootId × SourceRootIndex)) (acc : List BucketPtr × List SourceRootId) :
    ∃ layers ids, entries.foldl (pushRoot requested) acc = (acc.1 ++ layers, ids ++ acc.2) := by
  induction entries generalizing acc with
  | nil => exact ⟨[], [], by simp⟩
  | cons entry entries ih =>
    obtain ⟨layers, ids, h⟩ := ih (pushRoot requested acc entry)
    rw [List.foldl_cons, h, pushRoot]
    split
    · exact ⟨layers, ids, rfl⟩
    · exact ⟨entry.2.bucket :: layers, ids ++ [entry.1], by simp⟩

theorem matchingLayers_extends (classpathId : ClasspathId) (preferredRoot : Option SourceRootId) :
    ∃ layers ids, m.matchingLayers classpathId preferredRoot =
      ((m.preferredLayer preferredRoot).1 ++ layers, ids ++ (m.preferredLayer preferredRoot).2) := by
  cases classpathId with
  | main => exact foldl_pushRoot_extends ..
  | test =>
    obtain ⟨layers, ids, h⟩ := foldl_pushRoot_extends .test m.rootsInOrder
      (m.preferredLayer preferredRoot)
    obtain ⟨layers', ids', h'⟩ := foldl_pushRoot_extends .main m.rootsInOrder
      ((m.preferredLayer preferredRoot).1 ++ layers, ids ++ (m.preferredLayer preferredRoot).2)
    refine ⟨layers ++ layers', ids' ++ ids, ?_⟩
    simp only [matchingLayers, ClasspathId.searched, List.foldl_cons, List.foldl_nil, pushMatching,
      h, h', List.append_assoc]

theorem mem_foldl_pushRoot (requested : ClasspathId)
    (entries : List (SourceRootId × SourceRootIndex)) (acc : List BucketPtr × List SourceRootId)
    (id : SourceRootId) :
    id ∈ (entries.foldl (pushRoot requested) acc).2 ↔
      id ∈ acc.2 ∨ ∃ root, (id, root) ∈ entries ∧ root.classpath = requested := by
  induction entries generalizing acc with
  | nil => simp
  | cons entry entries ih =>
    obtain ⟨id', root'⟩ := entry
    rw [List.foldl_cons, ih, pushRoot]
    split
    · rename_i hskip
      simp only [List.mem_cons, Prod.mk.injEq]
      constructor
      · rintro (hid | ⟨root, hroot, hcp⟩)
        · exact .inl hid
        · exact .inr ⟨root, .inr hroot, hcp⟩
      · rintro (hid | ⟨root, ⟨rfl, rfl⟩ | hroot, hcp⟩)
        · exact .inl hid
        · exact .inl (hskip.resolve_right fun hne => hne hcp)
        · exact .inr ⟨root, hroot, hcp⟩
    · rename_i hpush
      simp only [not_or, not_not] at hpush
      simp only [List.mem_cons, Prod.mk.injEq]
      constructor
      · rintro ((rfl | hid) | ⟨root, hroot, hcp⟩)
        · exact .inr ⟨root', .inl ⟨rfl, rfl⟩, hpush.2⟩
        · exact .inl hid
        · exact .inr ⟨root, .inr hroot, hcp⟩
      · rintro (hid | ⟨root, ⟨rfl, rfl⟩ | hroot, hcp⟩)
        · exact .inl (.inr hid)
        · exact .inl (.inl rfl)
        · exact .inr ⟨root, hroot, hcp⟩

theorem mem_matchingLayers (classpathId : ClasspathId) (preferredRoot : Option SourceRootId)
    (id : SourceRootId) :
    id ∈ (m.matchingLayers classpathId preferredRoot).2 ↔
      id ∈ (m.preferredLayer preferredRoot).2 ∨
        ∃ root, m.sourceRoots.lookup id = some root ∧ root.classpath ∈ classpathId.searched := by
  cases classpathId with
  | main =>
    rw [matchingLayers, ClasspathId.searched, List.foldl_cons, List.foldl_nil, pushMatching,
      mem_foldl_pushRoot]
    simp only [mem_rootsInOrder, List.mem_singleton]
  | test =>
    rw [matchingLayers, ClasspathId.searched, List.foldl_cons, List.foldl_cons, List.foldl_nil,
      pushMatching, mem_foldl_pushRoot, pushMatching, mem_foldl_pushRoot, or_assoc]
    simp only [mem_rootsInOrder, List.mem_cons, List.not_mem_nil, or_false, and_or_left, exists_or]

theorem Lists.nil_iff {acc : List BucketPtr × List SourceRootId} (h : m.Lists acc) :
    acc.1 = [] ↔ acc.2 = [] := by
  have hlen := congrArg List.length h.buckets
  simp only [List.length_map, List.length_reverse] at hlen
  rw [← List.length_eq_zero_iff, ← List.length_eq_zero_iff, hlen]

theorem Lists.exists_root {acc : List BucketPtr × List SourceRootId} (h : m.Lists acc)
    {p : BucketPtr} (hp : p ∈ acc.1) :
    ∃ id root, id ∈ acc.2 ∧ m.sourceRoots.lookup id = some root ∧ root.bucket = p := by
  have hmem : some p ∈ acc.2.reverse.map
      (fun id => (m.sourceRoots.lookup id).map SourceRootIndex.bucket) := by
    rw [h.buckets]
    exact List.mem_map_of_mem hp
  obtain ⟨id, hid, hbucket⟩ := List.mem_map.mp hmem
  obtain ⟨root, hroot, hp⟩ := Option.map_eq_some_iff.mp hbucket
  exact ⟨id, root, List.mem_reverse.mp hid, hroot, hp⟩

/-! ## Where a publication is seen -/

theorem preferredLayer_of_registered {sourceRoot : Option SourceRootId} {root : SourceRootIndex}
    (h : m.registeredRoot sourceRoot = some root) :
    ∃ id, sourceRoot = some id ∧ m.sourceRoots.lookup id = some root ∧
      m.preferredLayer sourceRoot = ([root.bucket], [id]) := by
  obtain ⟨id, rfl, hroot⟩ := Option.bind_eq_some_iff.mp h
  exact ⟨id, rfl, hroot, by simp only [preferredLayer, hroot]⟩

theorem preferredLayer_of_unregistered {sourceRoot : Option SourceRootId}
    (h : m.registeredRoot sourceRoot = none) : m.preferredLayer sourceRoot = ([], []) := by
  cases sourceRoot with
  | none => rfl
  | some id =>
    have hroot : m.sourceRoots.lookup id = none := h
    simp only [preferredLayer, hroot]

/-- The layers of the roots, when there are any, else the bucket of the module. -/
theorem visibleSourceLayers_eq (classpathId : ClasspathId) (preferredRoot : Option SourceRootId) :
    m.visibleSourceLayers classpathId preferredRoot =
      if (m.matchingLayers classpathId preferredRoot).1 = [] then [m.source]
      else (m.matchingLayers classpathId preferredRoot).1 := by
  unfold visibleSourceLayers
  split
  · rename_i hempty
    have hlayers : (m.matchingLayers classpathId preferredRoot).1 = [] := by
      by_contra hne
      obtain ⟨p, hp⟩ := List.exists_mem_of_ne_nil _ hne
      obtain ⟨id, root, -, hroot, -⟩ := (lists_matchingLayers classpathId preferredRoot).exists_root hp
      have hmem : id ∈ m.sourceRoots.keys :=
        AList.mem_keys.mp (AList.lookup_isSome.mp (Option.isSome_iff_exists.mpr ⟨root, hroot⟩))
      rw [List.isEmpty_iff.mp hempty] at hmem
      cases hmem
    rw [if_pos hlayers]
  · simp only [List.isEmpty_iff]

/-- A registered root is the first layer of its own context, and no other layer is its bucket. -/
theorem visibleSourceLayers_of_registered {sourceRoot : Option SourceRootId}
    {root : SourceRootIndex} (h : m.registeredRoot sourceRoot = some root)
    (classpathId : ClasspathId) :
    ∃ rest, m.visibleSourceLayers classpathId sourceRoot = root.bucket :: rest ∧
      ∀ p ∈ rest, ∃ id other, some id ≠ sourceRoot ∧ m.sourceRoots.lookup id = some other ∧
        other.bucket = p := by
  obtain ⟨id, rfl, hroot, hpref⟩ := preferredLayer_of_registered h
  obtain ⟨rest, ids, hlayers⟩ := matchingLayers_extends (m := m) classpathId (some id)
  have hlists := lists_matchingLayers (m := m) classpathId (some id)
  rw [hpref] at hlayers
  refine ⟨rest, by rw [visibleSourceLayers_eq, hlayers]; rfl, fun p hp => ?_⟩
  rw [hlayers] at hlists
  have hbuckets : ids.reverse.map (fun id => (m.sourceRoots.lookup id).map SourceRootIndex.bucket) =
      rest.map some := by
    have hall := hlists.buckets
    simp only [List.reverse_append, List.reverse_cons, List.reverse_nil, List.nil_append,
      List.singleton_append, List.map_cons, List.cons.injEq] at hall
    exact hall.2
  have hmem : some p ∈ ids.reverse.map
      (fun id => (m.sourceRoots.lookup id).map SourceRootIndex.bucket) := by
    rw [hbuckets]
    exact List.mem_map_of_mem hp
  obtain ⟨id', hid', hbucket⟩ := List.mem_map.mp hmem
  obtain ⟨other, hother, hp⟩ := Option.map_eq_some_iff.mp hbucket
  refine ⟨id', other, ?_, hother, hp⟩
  intro heq
  exact (List.nodup_append.mp hlists.nodup).2.2 id' (List.mem_reverse.mp hid') id
    (List.mem_singleton_self id) (Option.some.inj heq)

/-- Without a registered root and without a visible one, the module's own bucket is read. -/
theorem visibleSourceLayers_of_hidden {sourceRoot : Option SourceRootId}
    (h : m.registeredRoot sourceRoot = none) {classpathId : ClasspathId}
    (hroots : ¬ m.ShowsRoot classpathId) :
    m.visibleSourceLayers classpathId sourceRoot = [m.source] := by
  have hids : (m.matchingLayers classpathId sourceRoot).2 = [] := by
    refine List.eq_nil_iff_forall_not_mem.mpr fun id hid => hroots ?_
    rw [mem_matchingLayers, preferredLayer_of_unregistered h] at hid
    exact ⟨id, hid.resolve_left List.not_mem_nil⟩
  rw [visibleSourceLayers_eq, if_pos ((lists_matchingLayers classpathId sourceRoot).nil_iff.mpr hids)]

/-- With a visible root, only buckets of roots are read. -/
theorem visibleSourceLayers_of_shown {classpathId : ClasspathId} (hroots : m.ShowsRoot classpathId)
    (sourceRoot : Option SourceRootId) :
    ∀ p ∈ m.visibleSourceLayers classpathId sourceRoot,
      ∃ id root, m.sourceRoots.lookup id = some root ∧ root.bucket = p := by
  obtain ⟨id, hid⟩ := hroots
  have hlists := lists_matchingLayers (m := m) classpathId sourceRoot
  have hne : (m.matchingLayers classpathId sourceRoot).1 ≠ [] := fun hnil => by
    have hmem := (mem_matchingLayers classpathId sourceRoot id).mpr (.inr hid)
    rw [hlists.nil_iff.mp hnil] at hmem
    cases hmem
  intro p hp
  rw [visibleSourceLayers_eq, if_neg hne] at hp
  obtain ⟨id, root, -, hroot⟩ := hlists.exists_root hp
  exact ⟨id, root, hroot⟩

theorem mem_visibleSourceLayers {classpathId : ClasspathId} {sourceRoot : Option SourceRootId}
    {p : BucketPtr} (hp : p ∈ m.visibleSourceLayers classpathId sourceRoot) :
    p = m.source ∨ ∃ id root, m.sourceRoots.lookup id = some root ∧ root.bucket = p := by
  rw [visibleSourceLayers_eq] at hp
  split at hp
  · exact .inl (List.mem_singleton.mp hp)
  · obtain ⟨id, root, -, hroot⟩ := (lists_matchingLayers classpathId sourceRoot).exists_root hp
    exact .inr ⟨id, root, hroot⟩

end ModuleIndex

/-! ## The dependency graph -/

structure ModuleGraph where
  deps : AList (fun _ : ModuleId => List ModuleId)

namespace ModuleGraph

def new : ModuleGraph :=
  ⟨∅⟩

variable (graph : ModuleGraph)

def setDeps (module : ModuleId) (deps : List ModuleId) : ModuleGraph :=
  ⟨graph.deps.insert module deps⟩

def depsOf (module : ModuleId) : List ModuleId :=
  (graph.deps.lookup module).getD []

/-- The queue of `build_scope_layers`, with fuel for every list of dependencies. -/
def dependencySearch (module : ModuleId) : Option (List ModuleId) :=
  Worklist.bfs some graph.depsOf
    (Worklist.budget some graph.depsOf graph.deps.keys (graph.depsOf module))
    (graph.depsOf module) [module]

/-- The modules that `build_scope_layers` visits after `module`, in order. -/
def dependencyOrder (module : ModuleId) : List ModuleId :=
  (graph.dependencySearch module).getD []

theorem dependencySearch_isSome (module : ModuleId) : (graph.dependencySearch module).isSome := by
  refine Worklist.bfs_budget (fun k a hk hdeps => ?_) _ _
  obtain rfl := Option.some.inj hk
  rw [AList.mem_keys.symm]
  by_contra hmem
  exact hdeps (by rw [depsOf, AList.lookup_eq_none.mpr hmem, Option.getD_none])

theorem dependencySearch_eq (module : ModuleId) :
    graph.dependencySearch module = some (graph.dependencyOrder module) := by
  obtain ⟨order, horder⟩ := Option.isSome_iff_exists.mp (graph.dependencySearch_isSome module)
  rw [dependencyOrder, horder, Option.getD_some]

theorem dependencyOrder_nodup (module : ModuleId) :
    (graph.dependencyOrder module).Nodup ∧ module ∉ graph.dependencyOrder module := by
  obtain ⟨keys, hnodup, hfresh, hmap⟩ := Worklist.bfs_keys (graph.dependencySearch_eq module)
  obtain rfl : keys = graph.dependencyOrder module :=
    List.map_injective_iff.mpr (Option.some_injective _) hmap
  exact ⟨hnodup, fun hmem => hfresh module hmem (List.mem_singleton_self module)⟩

end ModuleGraph

end JavaAnalyzer.Index
