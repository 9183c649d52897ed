import JavaAnalyzer.Library.PackedIds
import JavaAnalyzer.BuildIntegration.ReloadLoop

/-! # Imported workspace models

`GradleWorkspaceNormalizer` of `build_integration/gradle.rs` and `MavenWorkspaceNormalizer` of `maven.rs` make the
workspace model of an export. The ids of source roots are packed from the positions of the project and of the root, with
a stride of 10000 and of 1000; only the Gradle importer drops a directory that is listed again. -/

namespace JavaAnalyzer.BuildIntegration
set_option autoImplicit false
open Index PackedIds Workspace

/-! ## Exports and models -/

/-- The `WorkspaceModelSnapshot` that an importer makes. -/
structure NormalizedWorkspace extends ImportedModel where
  root : Path
  name : String

structure GradleProjectExport where
  path : String
  name : String
  projectDir : String
  sourceRoots : List String
  testRoots : List String
  resourceRoots : List String
  generatedRoots : List String
  compileClasspath : List String
  testClasspath : List String
  moduleDependencies : List String

structure GradleWorkspaceExport where
  workspaceName : String
  projects : List GradleProjectExport

structure MavenProjectExport where
  path : String
  name : String
  projectDir : Path
  sourceRoots : List Path
  testRoots : List Path
  resourceRoots : List Path
  generatedRoots : List Path
  compileClasspath : List Path
  testClasspath : List Path
  moduleDependencies : List String

structure MavenWorkspaceExport where
  workspaceName : String
  projects : List MavenProjectExport

/-! ## The importers -/

/-- `ModuleId(idx as u32 + 1)` -/
def moduleId (idx : ℕ) : CheckedU32 :=
  .ofUsize idx + 1

/-- The map `module_ids`. A path that is exported again replaces the id of the first. -/
def moduleIds (paths : List String) (path : String) : Option ModuleId :=
  (paths.zipIdx.reverse.find? fun entry => entry.1 = path).map fun entry => ⟨(moduleId entry.2).value⟩

def pathText (path : Path) : String :=
  "/" ++ "/".intercalate path

/-- The roots of an export in the order in which they get their ids, with their kinds and classpaths. -/
def rawRoots {α : Type} (sourceRoots testRoots resourceRoots generatedRoots : List α) :
    List (α × WorkspaceRootKind × ClasspathId) :=
  sourceRoots.map (fun path => (path, .sources, .main)) ++ testRoots.map (fun path => (path, .tests, .test)) ++
    resourceRoots.map (fun path => (path, .resources, .main)) ++
    generatedRoots.map fun path => (path, .generated, .main)

namespace GradleProjectExport

variable (project : GradleProjectExport)

def rawRoots : List (String × WorkspaceRootKind × ClasspathId) :=
  BuildIntegration.rawRoots project.sourceRoots project.testRoots project.resourceRoots project.generatedRoots

end GradleProjectExport

namespace GradleWorkspaceNormalizer

def rootId (moduleIdx rootIdx : ℕ) : CheckedU32 :=
  (.ofUsize moduleIdx + 1) * 10000 + .ofUsize rootIdx + 1

/-- `normalize_path` -/
def normalizePath (root : Path) (raw : String) : Path :=
  let components := ((raw.toList.splitOn '/').map String.ofList).filter fun part => part ≠ "" ∧ part ≠ "."
  if raw.toList.head? = some '/' then components else root ++ components

variable (onDisk : Path → Bool) (root : Path)

def dedupePaths (paths : List Path) : List Path :=
  (Dedup.dedupBy id [] (paths.filter onDisk)).insertionSort (· ≤ ·)

def dedupeWorkspaceRoots (roots : List WorkspaceSourceRoot) : List WorkspaceSourceRoot :=
  (Dedup.dedupBy WorkspaceSourceRoot.path [] (roots.filter fun root => onDisk root.path)).insertionSort
    fun root root' => root.path ≤ root'.path

def sourceRoot (moduleIdx : ℕ) (entry : (String × WorkspaceRootKind × ClasspathId) × ℕ) : WorkspaceSourceRoot :=
  ⟨⟨(rootId moduleIdx entry.2).value⟩, normalizePath root entry.1.1, entry.1.2.1, entry.1.2.2⟩

def projectModule (paths : List String) (moduleIdx : ℕ) (id : ModuleId) (project : GradleProjectExport) :
    WorkspaceModule where
  id := id
  name := project.name
  directory := normalizePath root project.projectDir
  roots := dedupeWorkspaceRoots onDisk (project.rawRoots.zipIdx.map (sourceRoot root moduleIdx))
  compileClasspath := (dedupePaths onDisk (project.compileClasspath.map (normalizePath root))).map pathText
  testClasspath := (dedupePaths onDisk (project.testClasspath.map (normalizePath root))).map pathText
  dependencyModules := project.moduleDependencies.filterMap (moduleIds paths)

def normalizeProject (paths : List String) (moduleIdx : ℕ) (project : GradleProjectExport) :
    Except String WorkspaceModule :=
  match moduleIds paths project.path with
  | none => .error ("missing normalized module id for " ++ project.path)
  | some id => .ok (projectModule onDisk root paths moduleIdx id project)

def normalize (version : String) (generation : UInt64) (imported : GradleWorkspaceExport) :
    Except String NormalizedWorkspace :=
  let paths := imported.projects.map GradleProjectExport.path
  (imported.projects.zipIdx.mapM fun entry => normalizeProject onDisk root paths entry.2 entry.1).map fun modules =>
    { generation := generation
      root := root
      name := imported.workspaceName
      modules := modules
      tool := .gradle
      toolVersion := some version
      freshness := .fresh
      fidelity := if imported.projects.any fun project => project.compileClasspath.isEmpty then .partly else .full }

/-- The words that the importer computes. -/
def arithmetic (imported : GradleWorkspaceExport) : List CheckedU32 :=
  imported.projects.zipIdx.flatMap fun entry =>
    moduleId entry.2 :: entry.1.rawRoots.zipIdx.map fun raw => rootId entry.2 raw.2

end GradleWorkspaceNormalizer

namespace MavenProjectExport

variable (project : MavenProjectExport)

def rawRoots : List (Path × WorkspaceRootKind × ClasspathId) :=
  BuildIntegration.rawRoots project.sourceRoots project.testRoots project.resourceRoots project.generatedRoots

end MavenProjectExport

namespace MavenWorkspaceNormalizer

/-- The first value of `source_root_id_counter`. -/
def firstCounter (moduleIdx : ℕ) : CheckedU32 :=
  .ofUsize moduleIdx * 1000

/-- The loops over the roots: each root gets the next value of the counter. -/
def numbered {α : Type} : CheckedU32 → List α → List (CheckedU32 × α)
  | _, [] => []
  | counter, root :: roots => (counter + 1, root) :: numbered (counter + 1) roots

def normalizeProject (paths : List String) (moduleIdx : ℕ) (project : MavenProjectExport) : WorkspaceModule where
  id := ⟨(moduleId moduleIdx).value⟩
  name := project.name
  directory := project.projectDir
  roots := (numbered (firstCounter moduleIdx) project.rawRoots).map fun entry =>
    ⟨⟨entry.1.value⟩, entry.2.1, entry.2.2.1, entry.2.2.2⟩
  compileClasspath := project.compileClasspath.map pathText
  testClasspath := project.testClasspath.map pathText
  dependencyModules := project.moduleDependencies.filterMap (moduleIds paths)

def normalize (root : Path) (version : String) (generation : UInt64) (imported : MavenWorkspaceExport) :
    NormalizedWorkspace where
  generation := generation
  root := root
  name := imported.workspaceName
  modules :=
    imported.projects.zipIdx.map fun entry =>
      normalizeProject (imported.projects.map MavenProjectExport.path) entry.2 entry.1
  tool := .maven
  toolVersion := some version
  freshness := .fresh
  fidelity := if imported.projects.any fun project => project.compileClasspath.isEmpty then .partly else .full

/-- The words that the importer computes. -/
def arithmetic (imported : MavenWorkspaceExport) : List CheckedU32 :=
  imported.projects.zipIdx.flatMap fun entry =>
    moduleId entry.2 :: firstCounter entry.2 ::
      (numbered (firstCounter entry.2) entry.1.rawRoots).map Prod.fst

end MavenWorkspaceNormalizer

/-! ## Well-formed models -/

/-- The id is that of the module of the exported project. -/
def IsModuleOf (paths : List String) (modules : List WorkspaceModule) (dependency : String) (id : ModuleId) : Prop :=
  ∃ (i : ℕ) (target : WorkspaceModule), paths[i]? = some dependency ∧ modules[i]? = some target ∧ target.id = id

/-- The model of an export with the projects at the paths, which declare the dependencies. -/
structure WellFormedModel (paths : List String) (dependencies : List (List String)) (modules : List WorkspaceModule) :
    Prop where
  moduleIds : (modules.map WorkspaceModule.id).Nodup
  rootIds : (modules.flatMap fun module => module.roots.map WorkspaceSourceRoot.id).Nodup
  directories : ∀ module ∈ modules, (module.roots.map WorkspaceSourceRoot.path).Nodup
  edges : List.Forall₂ (fun declared module => List.Forall₂ (IsModuleOf paths modules)
    (declared.filter (· ∈ paths)) module.dependencyModules) dependencies modules

def NoOverflow (words : List CheckedU32) : Prop :=
  ∀ word ∈ words, word.overflowed = false

/-! ## The modules of the projects -/

section Modules

variable {paths : List String} {path : String} {id : ModuleId}

theorem moduleIds_eq_some_iff (hpaths : paths.Nodup) :
    moduleIds paths path = some id ↔ ∃ i, paths[i]? = some path ∧ id = ⟨(moduleId i).value⟩ := by
  have hfound : ∀ entry, (paths.zipIdx.reverse.find? fun entry => entry.1 = path) = some entry →
      paths[entry.2]? = some path := fun entry h => by
    have hmem := List.mem_of_find?_eq_some h
    have heq : entry.1 = path := by simpa using List.find?_some h
    rw [List.mem_reverse, List.mem_zipIdx_iff_getElem?, heq] at hmem
    exact hmem
  rw [moduleIds, Option.map_eq_some_iff]
  constructor
  · rintro ⟨entry, hentry, rfl⟩
    exact ⟨entry.2, hfound entry hentry, rfl⟩
  · rintro ⟨i, hi, rfl⟩
    have hsome : (paths.zipIdx.reverse.find? fun entry => entry.1 = path).isSome := by
      rw [List.find?_isSome]
      exact ⟨(path, i), List.mem_reverse.mpr (List.mem_zipIdx_iff_getElem?.mpr hi), by simp⟩
    obtain ⟨entry, hentry⟩ := Option.isSome_iff_exists.mp hsome
    obtain ⟨hlt, hget⟩ := List.getElem?_eq_some_iff.mp hi
    obtain ⟨hlt', hget'⟩ := List.getElem?_eq_some_iff.mp (hfound entry hentry)
    have hpos : entry.2 = i := (hpaths.getElem_inj_iff).mp (hget'.trans hget.symm)
    exact ⟨entry, hentry, by rw [hpos]⟩

theorem moduleIds_isSome_iff (hpaths : paths.Nodup) : (moduleIds paths path).isSome ↔ path ∈ paths := by
  rw [Option.isSome_iff_exists, List.mem_iff_getElem?]
  constructor
  · rintro ⟨id, hid⟩
    obtain ⟨i, hi, -⟩ := (moduleIds_eq_some_iff hpaths).mp hid
    exact ⟨i, hi⟩
  · rintro ⟨i, hi⟩
    exact ⟨_, (moduleIds_eq_some_iff hpaths).mpr ⟨i, hi, rfl⟩⟩

/-- The edges of a project are those of its dependencies on exported projects. -/
theorem edges_of_ids (hpaths : paths.Nodup) {modules : List WorkspaceModule}
    (hmodules : ∀ i, modules[i]?.map WorkspaceModule.id = paths[i]?.map fun _ => ⟨(moduleId i).value⟩)
    (declared : List String) :
    List.Forall₂ (IsModuleOf paths modules) (declared.filter (· ∈ paths)) (declared.filterMap (moduleIds paths)) := by
  induction declared with
  | nil => exact .nil
  | cons dependency declared ih =>
    cases hid : moduleIds paths dependency with
    | none =>
      have hnot : dependency ∉ paths := fun hmem => by
        have hsome := (moduleIds_isSome_iff hpaths).mpr hmem
        rw [hid] at hsome
        cases hsome
      rw [List.filterMap_cons_none hid, List.filter_cons_of_neg (by simpa using hnot)]
      exact ih
    | some id =>
      obtain ⟨i, hi, rfl⟩ := (moduleIds_eq_some_iff hpaths).mp hid
      have hmem : dependency ∈ paths := List.mem_of_getElem? hi
      have htarget := hmodules i
      rw [hi, Option.map_some, Option.map_eq_some_iff] at htarget
      obtain ⟨target, htarget, heq⟩ := htarget
      rw [List.filterMap_cons_some hid, List.filter_cons_of_pos (by simpa using hmem)]
      exact .cons ⟨i, target, hi, htarget, heq⟩ ih

theorem exact_moduleId {idx : ℕ} (h : idx + 1 < 2 ^ 32) : (moduleId idx).Exact (idx + 1) :=
  (CheckedU32.exact_ofUsize (Nat.lt_of_succ_lt h)).add CheckedU32.exact_one h

/-- The first project whose id does not fit overflows, so that no position is cut off before. -/
theorem moduleIds_overflowed_iff {n : ℕ} : (∀ i < n, (moduleId i).overflowed = false) ↔ n < 2 ^ 32 := by
  constructor
  · intro h
    by_contra hcon
    have hlast := (CheckedU32.add_overflowed_iff (CheckedU32.exact_ofUsize (by decide)) CheckedU32.exact_one).mp
      (h (2 ^ 32 - 1) (by omega))
    exact absurd hlast (by decide)
  · intro h i hi
    exact (exact_moduleId (lt_of_le_of_lt hi h)).overflowed

/-- What both importers do for every project. -/
structure IsImport {α : Type} (paths : List String) (dependencies : α → List String)
    (module : ℕ → α → WorkspaceModule) : Prop where
  id : ∀ i project, (module i project).id = ⟨(moduleId i).value⟩
  dependencyModules : ∀ i project, (module i project).dependencyModules =
    (dependencies project).filterMap (moduleIds paths)

variable {α : Type} {projects : List α} {pathOf : α → String} {dependencies : α → List String}
  {module : ℕ → α → WorkspaceModule}

/-- Of an import with pairwise distinct paths, only the roots can go wrong. -/
theorem IsImport.wellFormed_iff (himport : IsImport (projects.map pathOf) dependencies module)
    (hpaths : (projects.map pathOf).Nodup) (hlen : projects.length < 2 ^ 32) :
    WellFormedModel (projects.map pathOf) (projects.map dependencies)
      (projects.zipIdx.map fun entry => module entry.2 entry.1) ↔
      (projects.zipIdx.flatMap fun entry => (module entry.2 entry.1).roots.map WorkspaceSourceRoot.id).Nodup ∧
        ∀ i project, projects[i]? = some project →
          ((module i project).roots.map WorkspaceSourceRoot.path).Nodup := by
  have hids : ((projects.zipIdx.map fun entry => module entry.2 entry.1).map WorkspaceModule.id).Nodup := by
    have hentries : projects.zipIdx.Nodup := by
      refine List.Nodup.of_map Prod.snd ?_
      rw [List.zipIdx_map_snd]
      exact List.nodup_range'
    rw [List.map_map, List.nodup_map_iff_inj_on hentries]
    rintro ⟨project, i⟩ hi ⟨project', j⟩ hj heq
    rw [List.mem_zipIdx_iff_getElem?] at hi hj
    have hilt := (List.getElem?_eq_some_iff.mp hi).1
    have hjlt := (List.getElem?_eq_some_iff.mp hj).1
    simp only [Function.comp_apply, himport.id] at heq
    have hword := congrArg UInt32.toNat (ModuleId.mk.inj heq)
    rw [(exact_moduleId (lt_of_le_of_lt hilt hlen)).value, (exact_moduleId (lt_of_le_of_lt hjlt hlen)).value] at hword
    obtain rfl := Nat.succ.inj hword
    rw [hi] at hj
    exact congrArg (·, i) (Option.some.inj hj)
  have hmodules : ∀ i, (projects.zipIdx.map fun entry => module entry.2 entry.1)[i]?.map WorkspaceModule.id =
      (projects.map pathOf)[i]?.map fun _ => ⟨(moduleId i).value⟩ := fun i => by
    rw [List.getElem?_map, List.getElem?_map, List.getElem?_zipIdx]
    cases projects[i]? with
    | none => rfl
    | some project => simp [himport.id]
  have hedges : List.Forall₂ (fun declared target => List.Forall₂
      (IsModuleOf (projects.map pathOf) (projects.zipIdx.map fun entry => module entry.2 entry.1))
      (declared.filter (· ∈ projects.map pathOf)) target.dependencyModules) (projects.map dependencies)
      (projects.zipIdx.map fun entry => module entry.2 entry.1) := by
    rw [List.forall₂_iff_get]
    refine ⟨by simp, fun i hi hi' => ?_⟩
    have hdeclared := edges_of_ids hpaths hmodules (dependencies (projects.get ⟨i, by simpa using hi⟩))
    simpa [himport.dependencyModules] using hdeclared
  constructor
  · rintro ⟨-, hroots, hdirs, -⟩
    rw [List.flatMap_map] at hroots
    refine ⟨hroots, fun i project hi => ?_⟩
    refine hdirs _ (List.mem_map.mpr ⟨(project, i), ?_, rfl⟩)
    exact List.mem_zipIdx_iff_getElem?.mpr hi
  · rintro ⟨hroots, hdirs⟩
    refine ⟨hids, by rwa [List.flatMap_map], fun m hm => ?_, hedges⟩
    obtain ⟨entry, hentry, rfl⟩ := List.mem_map.mp hm
    exact hdirs entry.2 entry.1 (List.mem_zipIdx_iff_getElem?.mp hentry)

/-- The ids of source roots that an importer packs are as distinct as the packed numbers. -/
theorem nodup_rootIds_iff {stride start first : ℕ} {positions : α → List ℕ}
    (hroots : ∀ i project, projects[i]? = some project →
      ((module i project).roots.map fun root => root.id.id.toNat).Perm
        ((positions project).map fun place => stride * (first + i) + place + start)) :
    (projects.zipIdx.flatMap fun entry => (module entry.2 entry.1).roots.map WorkspaceSourceRoot.id).Nodup ↔
      (∀ project ∈ projects, (positions project).Nodup) ∧ Apart stride (projects.map positions) := by
  have hinj : Function.Injective fun id : SourceRootId => id.id.toNat := fun id id' h => by
    cases id
    cases id'
    exact congrArg SourceRootId.mk (UInt32.toNat_inj.mp h)
  have hperm : ((projects.zipIdx.flatMap fun entry => (module entry.2 entry.1).roots.map WorkspaceSourceRoot.id).map
      fun id : SourceRootId => id.id.toNat).Perm (packed stride start first (projects.map positions)) := by
    rw [packed_eq_flatMap, List.map_flatMap, List.zipIdx_map, List.flatMap_map]
    refine List.Perm.flatMap_left _ fun entry hentry => ?_
    rw [List.map_map]
    exact hroots entry.2 entry.1 (List.mem_zipIdx_iff_getElem?.mp hentry)
  rw [← List.nodup_map_iff hinj, hperm.nodup_iff, nodup_packed_iff, List.forall_mem_map]

end Modules

/-! ## Maven -/

namespace MavenWorkspaceNormalizer

section Counter

variable {α : Type} {counter : CheckedU32} {n : ℕ}

theorem map_snd_numbered (counter : CheckedU32) (roots : List α) : (numbered counter roots).map Prod.snd = roots := by
  induction roots generalizing counter with
  | nil => rfl
  | cons root roots ih => rw [numbered, List.map_cons, ih]

/-- The counter overflows exactly where it passes the greatest word. -/
theorem numbered_overflowed_iff (hcounter : counter.Exact n) (roots : List α) :
    NoOverflow ((numbered counter roots).map Prod.fst) ↔ n + roots.length < 2 ^ 32 := by
  induction roots generalizing counter n with
  | nil =>
    refine iff_of_true (fun _ h => absurd h List.not_mem_nil) ?_
    rw [List.length_nil, Nat.add_zero, ← hcounter.value]
    exact UInt32.toNat_lt _
  | cons root roots ih =>
    rw [numbered, List.map_cons, NoOverflow, List.forall_mem_cons,
      CheckedU32.add_overflowed_iff hcounter CheckedU32.exact_one, List.length_cons]
    constructor
    · rintro ⟨hfirst, hrest⟩
      have hnext := (ih (hcounter.add CheckedU32.exact_one hfirst)).mp hrest
      omega
    · intro hlen
      have hfirst : n + 1 < 2 ^ 32 := by omega
      refine ⟨hfirst, (ih (hcounter.add CheckedU32.exact_one hfirst)).mpr ?_⟩
      omega

theorem numbered_values (hcounter : counter.Exact n) {roots : List α} (hlen : n + roots.length < 2 ^ 32) :
    (numbered counter roots).map (fun entry => entry.1.value.toNat) =
      (List.range roots.length).map fun place => n + place + 1 := by
  induction roots generalizing counter n with
  | nil => rfl
  | cons root roots ih =>
    rw [List.length_cons] at hlen
    have hnext : (counter + 1).Exact (n + 1) :=
      hcounter.add CheckedU32.exact_one (by omega)
    rw [numbered, List.map_cons, hnext.value, ih hnext (by omega), List.length_cons, List.range_succ_eq_map,
      List.map_cons, List.map_map]
    refine congrArg ((n + 1) :: ·) (List.map_congr_left fun place _ => ?_)
    simp only [Function.comp_apply, Nat.succ_eq_add_one]
    omega

end Counter

variable {imported : MavenWorkspaceExport}

theorem isImport (paths : List String) :
    IsImport paths MavenProjectExport.moduleDependencies (normalizeProject paths) :=
  ⟨fun _ _ => rfl, fun _ _ => rfl⟩

theorem exact_firstCounter {i : ℕ} (h : 1000 * i < 2 ^ 32) : (firstCounter i).Exact (1000 * i) := by
  have hmul := (CheckedU32.exact_ofUsize (by omega : i < 2 ^ 32)).mul (CheckedU32.exact_lit (by decide : 1000 < 2 ^ 32))
    (by omega)
  rwa [Nat.mul_comm] at hmul

theorem noOverflow_iff : NoOverflow (arithmetic imported) ↔ imported.projects.length < 2 ^ 32 ∧
    ∀ i project, imported.projects[i]? = some project → 1000 * i + project.rawRoots.length < 2 ^ 32 := by
  have hwords : NoOverflow (arithmetic imported) ↔
      ∀ i project, imported.projects[i]? = some project → (moduleId i).overflowed = false ∧
        (firstCounter i).overflowed = false ∧
          NoOverflow ((numbered (firstCounter i) project.rawRoots).map Prod.fst) := by
    simp only [NoOverflow, arithmetic, List.forall_mem_flatMap, List.forall_mem_cons, Prod.forall,
      List.mem_zipIdx_iff_getElem?]
    exact forall_comm
  rw [hwords]
  constructor
  · intro h
    have hlen : imported.projects.length < 2 ^ 32 := moduleIds_overflowed_iff.mp fun i hi =>
      (h i _ (List.getElem?_eq_getElem hi)).1
    refine ⟨hlen, fun i project hi => ?_⟩
    have hi' := (List.getElem?_eq_some_iff.mp hi).1
    obtain ⟨-, hfirst, hroots⟩ := h i project hi
    have hmul := (CheckedU32.mul_overflowed_iff (CheckedU32.exact_ofUsize (hi'.trans hlen))
      (CheckedU32.exact_lit (by decide : 1000 < 2 ^ 32))).mp hfirst
    exact (numbered_overflowed_iff (exact_firstCounter (by omega)) _).mp hroots
  · rintro ⟨hlen, h⟩ i project hi
    have hi' := (List.getElem?_eq_some_iff.mp hi).1
    have hroots := h i project hi
    have hcounter := exact_firstCounter (lt_of_le_of_lt (Nat.le_add_right ..) hroots)
    exact ⟨moduleIds_overflowed_iff.mpr hlen i hi', hcounter.overflowed,
      (numbered_overflowed_iff hcounter _).mpr hroots⟩

theorem roots_ids {paths : List String} {i : ℕ} {project : MavenProjectExport}
    (h : 1000 * i + project.rawRoots.length < 2 ^ 32) :
    ((normalizeProject paths i project).roots.map fun root => root.id.id.toNat) =
      (List.range project.rawRoots.length).map fun place => 1000 * (0 + i) + place + 1 := by
  rw [normalizeProject, List.map_map, Nat.zero_add]
  exact numbered_values (exact_firstCounter (lt_of_le_of_lt (Nat.le_add_right ..) h)) h

theorem roots_paths (paths : List String) (i : ℕ) (project : MavenProjectExport) :
    (normalizeProject paths i project).roots.map WorkspaceSourceRoot.path = project.rawRoots.map Prod.fst := by
  rw [normalizeProject, List.map_map]
  conv_rhs => rw [← map_snd_numbered (firstCounter i) project.rawRoots, List.map_map]
  rfl

end MavenWorkspaceNormalizer

/-! ## Gradle -/

namespace GradleWorkspaceNormalizer

variable {onDisk : Path → Bool} {root : Path} {version : String} {generation : UInt64}
  {imported : GradleWorkspaceExport}

def rawPath (root : Path) (raw : String × WorkspaceRootKind × ClasspathId) : Path :=
  normalizePath root raw.1

/-- The position holds a directory that is there and is not listed before. -/
def FirstListed (onDisk : Path → Bool) (root : Path) (project : GradleProjectExport) (p : ℕ) : Prop :=
  ∃ raw, project.rawRoots[p]? = some raw ∧ onDisk (rawPath root raw) ∧
    rawPath root raw ∉ (project.rawRoots.take p).map (rawPath root)

def keptPositions (onDisk : Path → Bool) (root : Path) (project : GradleProjectExport) : List ℕ :=
  ((Dedup.dedupBy (fun entry => rawPath root entry.1) [] project.rawRoots.zipIdx).filter
    fun entry => onDisk (rawPath root entry.1)).map Prod.snd

theorem mem_keptPositions {project : GradleProjectExport} {p : ℕ} :
    p ∈ keptPositions onDisk root project ↔ FirstListed onDisk root project p := by
  rw [keptPositions, List.mem_map]
  constructor
  · rintro ⟨⟨raw, q⟩, hmem, rfl⟩
    obtain ⟨hmem, hdisk⟩ := List.mem_filter.mp hmem
    obtain ⟨hget, hnew⟩ := Dedup.mem_dedupBy_zipIdx.mp hmem
    exact ⟨raw, hget, hdisk, hnew⟩
  · rintro ⟨raw, hget, hdisk, hnew⟩
    exact ⟨(raw, p), List.mem_filter.mpr ⟨Dedup.mem_dedupBy_zipIdx.mpr ⟨hget, hnew⟩, hdisk⟩, rfl⟩

theorem nodup_keptPositions (project : GradleProjectExport) : (keptPositions onDisk root project).Nodup := by
  have hsub : (keptPositions onDisk root project).Sublist (project.rawRoots.zipIdx.map Prod.snd) :=
    (List.filter_sublist.trans (Dedup.dedupBy_sublist [] _)).map Prod.snd
  rw [List.zipIdx_map_snd] at hsub
  exact hsub.nodup List.nodup_range'

theorem exact_stride : CheckedU32.Exact 10000 10000 :=
  CheckedU32.exact_lit (by norm_num)

theorem exact_rootId {i p : ℕ} (h : 10000 * (i + 1) + p + 1 < 2 ^ 32) :
    (rootId i p).Exact (10000 * (i + 1) + p + 1) := by
  have hindex := (CheckedU32.exact_ofUsize (by omega : i < 2 ^ 32)).add CheckedU32.exact_one (by omega)
  have hmul := hindex.mul exact_stride (by omega)
  rw [Nat.mul_comm] at hmul
  exact (hmul.add (CheckedU32.exact_ofUsize (by omega : p < 2 ^ 32)) (by omega)).add CheckedU32.exact_one h

/-- The first root whose id does not fit overflows. -/
theorem rootIds_overflowed_iff {i n : ℕ} (hi : i + 1 < 2 ^ 32) (hn : 0 < n) :
    (∀ p < n, (rootId i p).overflowed = false) ↔ 10000 * (i + 1) + n < 2 ^ 32 := by
  constructor
  · intro h
    have hindex := (CheckedU32.exact_ofUsize (Nat.lt_of_succ_lt hi)).add CheckedU32.exact_one hi
    have hzero := (CheckedU32.overflowed_of_add (CheckedU32.overflowed_of_add (h 0 hn)).1).1
    have hstride := (CheckedU32.mul_overflowed_iff hindex exact_stride).mp hzero
    have hmul := hindex.mul exact_stride hstride
    by_contra hcon
    obtain ⟨p, hp⟩ : ∃ p, (i + 1) * 10000 + p + 1 = 2 ^ 32 := ⟨2 ^ 32 - 1 - (i + 1) * 10000, by omega⟩
    have hplt : p < 2 ^ 32 := by omega
    have hpn : p < n := by omega
    have hlt : (i + 1) * 10000 + p < 2 ^ 32 := by rw [← hp]; exact Nat.lt_succ_self _
    have hsum := hmul.add (CheckedU32.exact_ofUsize hplt) hlt
    have hlast := (CheckedU32.add_overflowed_iff hsum CheckedU32.exact_one).mp (h p hpn)
    exact absurd hp (Nat.ne_of_lt hlast)
  · intro h p hp
    exact (exact_rootId (by omega)).overflowed

theorem noOverflow_iff : NoOverflow (arithmetic imported) ↔ imported.projects.length < 2 ^ 32 ∧
    ∀ i project, imported.projects[i]? = some project → project.rawRoots ≠ [] →
      10000 * (i + 1) + project.rawRoots.length < 2 ^ 32 := by
  have hwords : NoOverflow (arithmetic imported) ↔
      ∀ i project, imported.projects[i]? = some project → (moduleId i).overflowed = false ∧
        ∀ p < project.rawRoots.length, (rootId i p).overflowed = false := by
    have hpositions : ∀ i (project : GradleProjectExport),
        (∀ word ∈ project.rawRoots.zipIdx.map fun raw => rootId i raw.2, word.overflowed = false) ↔
          ∀ p < project.rawRoots.length, (rootId i p).overflowed = false := fun i project => by
      have hmap : (project.rawRoots.zipIdx.map fun raw => rootId i raw.2) =
          (List.range' 0 project.rawRoots.length).map (rootId i) := by
        rw [← List.zipIdx_map_snd 0 project.rawRoots, List.map_map]
        rfl
      rw [hmap, List.forall_mem_map]
      simp [List.mem_range']
    simp only [NoOverflow, arithmetic, List.forall_mem_flatMap, List.forall_mem_cons, Prod.forall,
      List.mem_zipIdx_iff_getElem?, hpositions]
    exact forall_comm
  rw [hwords]
  constructor
  · intro h
    have hlen : imported.projects.length < 2 ^ 32 := moduleIds_overflowed_iff.mp fun i hi =>
      (h i _ (List.getElem?_eq_getElem hi)).1
    refine ⟨hlen, fun i project hi hne => ?_⟩
    have hi' := (List.getElem?_eq_some_iff.mp hi).1
    exact (rootIds_overflowed_iff (lt_of_le_of_lt hi' hlen) (List.length_pos_of_ne_nil hne)).mp (h i project hi).2
  · rintro ⟨hlen, h⟩ i project hi
    have hi' := (List.getElem?_eq_some_iff.mp hi).1
    refine ⟨moduleIds_overflowed_iff.mpr hlen i hi', fun p hp => ?_⟩
    have hpos := Nat.zero_lt_of_lt hp
    have hroots := h i project hi (List.ne_nil_of_length_pos hpos)
    exact (rootIds_overflowed_iff (lt_of_le_of_lt hi' hlen) hpos).mpr hroots p hp

/-- The modules of the projects, each with the id of its position. -/
def modules (onDisk : Path → Bool) (root : Path) (imported : GradleWorkspaceExport) : List WorkspaceModule :=
  imported.projects.zipIdx.map fun entry =>
    projectModule onDisk root (imported.projects.map GradleProjectExport.path) entry.2 ⟨(moduleId entry.2).value⟩
      entry.1

theorem isImport (paths : List String) : IsImport paths GradleProjectExport.moduleDependencies
    fun i project => projectModule onDisk root paths i ⟨(moduleId i).value⟩ project :=
  ⟨fun _ _ => rfl, fun _ _ => rfl⟩

/-- With distinct project paths the importer finds the id of every project. -/
theorem normalize_eq (hpaths : (imported.projects.map GradleProjectExport.path).Nodup) :
    ∃ snapshot, normalize onDisk root version generation imported = .ok snapshot ∧
      snapshot.modules = modules onDisk root imported := by
  have hall : ∀ entries : List (GradleProjectExport × ℕ), (∀ entry ∈ entries, entry ∈ imported.projects.zipIdx) →
      (entries.mapM fun entry => normalizeProject onDisk root (imported.projects.map GradleProjectExport.path) entry.2
        entry.1) = .ok (entries.map fun entry => projectModule onDisk root
          (imported.projects.map GradleProjectExport.path) entry.2 ⟨(moduleId entry.2).value⟩ entry.1) := by
    intro entries hentries
    induction entries with
    | nil => rfl
    | cons entry entries ih =>
      have hget := List.mem_zipIdx_iff_getElem?.mp (hentries entry List.mem_cons_self)
      have hid : moduleIds (imported.projects.map GradleProjectExport.path) entry.1.path =
          some ⟨(moduleId entry.2).value⟩ :=
        (moduleIds_eq_some_iff hpaths).mpr ⟨entry.2, by rw [List.getElem?_map, hget]; rfl, rfl⟩
      rw [List.mapM_cons, ih fun e he => hentries e (List.mem_cons_of_mem _ he), normalizeProject, hid]
      rfl
  have hmodules := hall imported.projects.zipIdx fun _ h => h
  refine ⟨_, by rw [normalize, hmodules]; rfl, rfl⟩

theorem roots_perm (paths : List String) (i : ℕ) (id : ModuleId) (project : GradleProjectExport) :
    (projectModule onDisk root paths i id project).roots.Perm
      (((Dedup.dedupBy (fun entry => rawPath root entry.1) [] project.rawRoots.zipIdx).filter
        fun entry => onDisk (rawPath root entry.1)).map (sourceRoot root i)) := by
  have hfilter : ((project.rawRoots.zipIdx.map (sourceRoot root i)).filter fun root => onDisk root.path) =
      (project.rawRoots.zipIdx.filter fun entry => onDisk (rawPath root entry.1)).map (sourceRoot root i) :=
    List.filter_map
  rw [projectModule, dedupeWorkspaceRoots, hfilter, Dedup.dedupBy_map,
    Dedup.filter_dedupBy (fun x y h => congrArg onDisk h)]
  exact List.perm_insertionSort _ _

theorem roots_ids {paths : List String} {i : ℕ} {id : ModuleId} {project : GradleProjectExport}
    (h : project.rawRoots ≠ [] → 10000 * (i + 1) + project.rawRoots.length < 2 ^ 32) :
    ((projectModule onDisk root paths i id project).roots.map fun root => root.id.id.toNat).Perm
      ((keptPositions onDisk root project).map fun place => 10000 * (1 + i) + place + 1) := by
  refine ((roots_perm paths i id project).map _).trans ?_
  rw [keptPositions, List.map_map, List.map_map]
  refine List.Perm.of_eq (List.map_congr_left fun entry hentry => ?_)
  have hget := List.mem_zipIdx_iff_getElem?.mp ((Dedup.dedupBy_sublist _ _).subset (List.mem_of_mem_filter hentry))
  have hlt := (List.getElem?_eq_some_iff.mp hget).1
  have hroots := h (List.ne_nil_of_length_pos (Nat.zero_lt_of_lt hlt))
  rw [Nat.add_comm 1 i]
  exact (exact_rootId (by omega)).value

theorem nodup_roots_paths (paths : List String) (i : ℕ) (id : ModuleId) (project : GradleProjectExport) :
    ((projectModule onDisk root paths i id project).roots.map WorkspaceSourceRoot.path).Nodup :=
  ((List.perm_insertionSort _ _).map _).nodup_iff.mpr (Dedup.nodup_map_dedupBy [] _)

end GradleWorkspaceNormalizer

/-! ## When an import is well formed -/

/-- Of a Gradle export: the ids fit into a word, and no kept root of a project stands `10000` places per project behind
that of a later one. -/
structure GradleWorkspaceExport.Fits (onDisk : Path → Bool) (root : Path) (imported : GradleWorkspaceExport) :
    Prop where
  projects : imported.projects.length < 2 ^ 32
  words : ∀ i project, imported.projects[i]? = some project → project.rawRoots ≠ [] →
    10000 * (i + 1) + project.rawRoots.length < 2 ^ 32
  apart : ∀ i j project project', imported.projects[i]? = some project → imported.projects[j]? = some project' → i < j →
    ∀ p q, GradleWorkspaceNormalizer.FirstListed onDisk root project p →
      GradleWorkspaceNormalizer.FirstListed onDisk root project' q → p ≠ q + 10000 * (j - i)

/-- Of a Maven export: besides, no project lists a directory twice. -/
structure MavenWorkspaceExport.Fits (imported : MavenWorkspaceExport) : Prop where
  projects : imported.projects.length < 2 ^ 32
  words : ∀ (i : ℕ) (project : MavenProjectExport), imported.projects[i]? = some project →
    1000 * i + project.rawRoots.length < 2 ^ 32
  apart : ∀ (i j : ℕ) (project project' : MavenProjectExport), imported.projects[i]? = some project →
    imported.projects[j]? = some project' → i < j → project'.rawRoots = [] ∨ project.rawRoots.length ≤ 1000 * (j - i)
  listedOnce : ∀ (i : ℕ) (project : MavenProjectExport), imported.projects[i]? = some project →
    (project.rawRoots.map Prod.fst).Nodup

theorem GradleWorkspaceNormalizer.nodup_ids_iff {onDisk : Path → Bool} {root : Path} {imported : GradleWorkspaceExport}
    (hwords : ∀ i project, imported.projects[i]? = some project → project.rawRoots ≠ [] →
      10000 * (i + 1) + project.rawRoots.length < 2 ^ 32) :
    (imported.projects.zipIdx.flatMap fun entry =>
      (projectModule onDisk root (imported.projects.map GradleProjectExport.path) entry.2
        ⟨(moduleId entry.2).value⟩ entry.1).roots.map WorkspaceSourceRoot.id).Nodup ↔
      Apart 10000 (imported.projects.map (keptPositions onDisk root)) := by
  have hids := @nodup_rootIds_iff _ imported.projects
    (fun i project => projectModule onDisk root (imported.projects.map GradleProjectExport.path) i
      ⟨(moduleId i).value⟩ project) 10000 1 1 (keptPositions onDisk root)
    fun i project hi => roots_ids (hwords i project hi)
  rw [hids]
  exact and_iff_right fun project _ => nodup_keptPositions project

theorem MavenWorkspaceNormalizer.nodup_ids_iff {imported : MavenWorkspaceExport}
    (hwords : ∀ i project, imported.projects[i]? = some project → 1000 * i + project.rawRoots.length < 2 ^ 32) :
    (imported.projects.zipIdx.flatMap fun entry =>
      (normalizeProject (imported.projects.map MavenProjectExport.path) entry.2 entry.1).roots.map
        WorkspaceSourceRoot.id).Nodup ↔
      Apart 1000 (imported.projects.map fun project => List.range project.rawRoots.length) := by
  have hids := @nodup_rootIds_iff _ imported.projects
    (normalizeProject (imported.projects.map MavenProjectExport.path)) 1000 1 0
    (fun project => List.range project.rawRoots.length)
    fun i project hi => List.Perm.of_eq (roots_ids (hwords i project hi))
  rw [hids]
  exact and_iff_right fun project _ => List.nodup_range

theorem GradleWorkspaceNormalizer.normalize_wellFormed_iff {onDisk : Path → Bool} {root : Path} {version : String}
    {generation : UInt64} {imported : GradleWorkspaceExport}
    (hpaths : (imported.projects.map GradleProjectExport.path).Nodup) :
    ((∃ snapshot, normalize onDisk root version generation imported = .ok snapshot ∧
      WellFormedModel (imported.projects.map GradleProjectExport.path)
        (imported.projects.map GradleProjectExport.moduleDependencies) snapshot.modules) ∧
      NoOverflow (arithmetic imported)) ↔ imported.Fits onDisk root := by
  obtain ⟨snapshot, hok, hmodules⟩ := @normalize_eq onDisk root version generation imported hpaths
  have hnormal : (∃ snapshot, normalize onDisk root version generation imported = .ok snapshot ∧
      WellFormedModel (imported.projects.map GradleProjectExport.path)
        (imported.projects.map GradleProjectExport.moduleDependencies) snapshot.modules) ↔
      WellFormedModel (imported.projects.map GradleProjectExport.path)
        (imported.projects.map GradleProjectExport.moduleDependencies) (modules onDisk root imported) := by
    rw [hok, ← hmodules]
    exact ⟨fun ⟨_, h, hwf⟩ => by cases h; exact hwf, fun hwf => ⟨snapshot, rfl, hwf⟩⟩
  have happart : (Apart 10000 (imported.projects.map (keptPositions onDisk root))) ↔
      ∀ i j project project', imported.projects[i]? = some project → imported.projects[j]? = some project' → i < j →
        ∀ p q, FirstListed onDisk root project p → FirstListed onDisk root project' q → p ≠ q + 10000 * (j - i) := by
    simp only [Apart, List.getElem?_map, Option.map_eq_some_iff, ← mem_keptPositions]
    constructor
    · intro h i j project project' hi hj hij p q hp hq
      exact h i j _ _ ⟨project, hi, rfl⟩ ⟨project', hj, rfl⟩ hij p hp q hq
    · rintro h i j _ _ ⟨project, hi, rfl⟩ ⟨project', hj, rfl⟩ hij p hp q hq
      exact h i j project project' hi hj hij p q hp hq
  rw [hnormal, noOverflow_iff]
  constructor
  · rintro ⟨hwf, hlen, hwords⟩
    exact ⟨hlen, hwords, happart.mp ((nodup_ids_iff hwords).mp (((isImport _).wellFormed_iff hpaths hlen).mp hwf).1)⟩
  · rintro ⟨hlen, hwords, hkept⟩
    have hids := (nodup_ids_iff hwords).mpr (happart.mpr hkept)
    exact ⟨((isImport _).wellFormed_iff hpaths hlen).mpr ⟨hids, fun i project _ => nodup_roots_paths _ i _ project⟩,
      hlen, hwords⟩

theorem MavenWorkspaceNormalizer.normalize_wellFormed_iff {root : Path} {version : String} {generation : UInt64}
    {imported : MavenWorkspaceExport}
    (hpaths : (imported.projects.map MavenProjectExport.path).Nodup) :
    (WellFormedModel (imported.projects.map MavenProjectExport.path)
      (imported.projects.map MavenProjectExport.moduleDependencies)
      (normalize root version generation imported).modules ∧
      NoOverflow (arithmetic imported)) ↔ imported.Fits := by
  have happart : Apart 1000 (imported.projects.map fun project => List.range project.rawRoots.length) ↔
      ∀ i j project project', imported.projects[i]? = some project → imported.projects[j]? = some project' → i < j →
        project'.rawRoots = [] ∨ project.rawRoots.length ≤ 1000 * (j - i) := by
    have hmap : (imported.projects.map fun project => List.range project.rawRoots.length) =
        (imported.projects.map fun project => project.rawRoots.length).map List.range := by
      rw [List.map_map]
      rfl
    rw [hmap, apart_range_iff]
    simp only [List.getElem?_map, Option.map_eq_some_iff]
    constructor
    · intro h i j project project' hi hj hij
      rw [← List.length_eq_zero_iff]
      exact h i j _ _ ⟨project, hi, rfl⟩ ⟨project', hj, rfl⟩ hij
    · rintro h i j _ _ ⟨project, hi, rfl⟩ ⟨project', hj, rfl⟩ hij
      rw [List.length_eq_zero_iff]
      exact h i j project project' hi hj hij
  rw [noOverflow_iff]
  constructor
  · rintro ⟨hwf, hlen, hwords⟩
    obtain ⟨hids, hdirs⟩ := ((isImport _).wellFormed_iff hpaths hlen).mp hwf
    refine ⟨hlen, hwords, happart.mp ((nodup_ids_iff hwords).mp hids), fun i project hi => ?_⟩
    rw [← roots_paths (imported.projects.map MavenProjectExport.path) i project]
    exact hdirs i project hi
  · rintro ⟨hlen, hwords, hlater, honce⟩
    have hids := (nodup_ids_iff hwords).mpr (happart.mpr hlater)
    refine ⟨((isImport _).wellFormed_iff hpaths hlen).mpr ⟨hids, fun i project hi => ?_⟩, hlen, hwords⟩
    rw [roots_paths]
    exact honce i project hi

/-- An import is well formed exactly where its ids fit and no two roots share one; of the Maven importer it needs
besides that no project lists a directory twice. -/
theorem imported_model_wellFormed_iff (onDisk : Path → Bool) (root : Path) (version : String) (generation : UInt64)
    {gradle : GradleWorkspaceExport} (hgradle : (gradle.projects.map GradleProjectExport.path).Nodup)
    {maven : MavenWorkspaceExport} (hmaven : (maven.projects.map MavenProjectExport.path).Nodup) :
    (((∃ snapshot, GradleWorkspaceNormalizer.normalize onDisk root version generation gradle = .ok snapshot ∧
      WellFormedModel (gradle.projects.map GradleProjectExport.path)
        (gradle.projects.map GradleProjectExport.moduleDependencies) snapshot.modules) ∧
      NoOverflow (GradleWorkspaceNormalizer.arithmetic gradle)) ↔ gradle.Fits onDisk root) ∧
    ((WellFormedModel (maven.projects.map MavenProjectExport.path)
      (maven.projects.map MavenProjectExport.moduleDependencies)
      (MavenWorkspaceNormalizer.normalize root version generation maven).modules ∧
      NoOverflow (MavenWorkspaceNormalizer.arithmetic maven)) ↔ maven.Fits) :=
  ⟨GradleWorkspaceNormalizer.normalize_wellFormed_iff hgradle,
    MavenWorkspaceNormalizer.normalize_wellFormed_iff hmaven⟩

/-- `target/generated-sources/annotations` is a compile source root of Maven, and a directory of generated sources. -/
def annotationsExport : MavenWorkspaceExport where
  workspaceName := "app"
  projects :=
    [{ path := "com.example:app"
       name := "app"
       projectDir := ["app"]
       sourceRoots := [["app", "src", "main", "java"], ["app", "target", "generated-sources", "annotations"]]
       testRoots := []
       resourceRoots := []
       generatedRoots := [["app", "target", "generated-sources", "annotations"]]
       compileClasspath := []
       testClasspath := []
       moduleDependencies := [] }]

theorem annotations_root_twice :
    ¬∀ (root : Path) (version : String) (generation : UInt64) (imported : MavenWorkspaceExport),
      (imported.projects.map MavenProjectExport.path).Nodup →
      WellFormedModel (imported.projects.map MavenProjectExport.path)
        (imported.projects.map MavenProjectExport.moduleDependencies)
        (MavenWorkspaceNormalizer.normalize root version generation imported).modules := by
  intro h
  have hdirs := (h ["app"] "3.9.6" 1 annotationsExport (List.nodup_singleton _)).directories _ List.mem_cons_self
  exact absurd hdirs (by decide)

def singleModuleExport : MavenWorkspaceExport where
  workspaceName := "lib"
  projects :=
    [{ path := "com.example:lib"
       name := "lib"
       projectDir := ["lib"]
       sourceRoots := [["lib", "src", "main", "java"]]
       testRoots := [["lib", "src", "test", "java"]]
       resourceRoots := []
       generatedRoots := []
       compileClasspath := []
       testClasspath := []
       moduleDependencies := ["com.example:lib"] }]

theorem single_module_wellFormed :
    WellFormedModel (singleModuleExport.projects.map MavenProjectExport.path)
      (singleModuleExport.projects.map MavenProjectExport.moduleDependencies)
      (MavenWorkspaceNormalizer.normalize ["lib"] "3.9.6" 1 singleModuleExport).modules := by
  have hget : ∀ {i project}, singleModuleExport.projects[i]? = some project →
      i = 0 ∧ project = singleModuleExport.projects.head (List.cons_ne_nil _ _) := fun {i project} hi => by
    obtain ⟨hlt, hproject⟩ := List.getElem?_eq_some_iff.mp hi
    obtain rfl := Nat.lt_one_iff.mp hlt
    exact ⟨rfl, hproject.symm⟩
  refine ((@imported_model_wellFormed_iff (fun _ => true) ["lib"] "3.9.6" 1 ⟨"lib", []⟩ List.nodup_nil singleModuleExport
    (List.nodup_singleton _)).2.mpr
    ⟨by decide, fun i project hi => ?_, fun i j project project' hi hj hij => ?_, fun i project hi => ?_⟩).1
  · obtain ⟨rfl, rfl⟩ := hget hi
    decide
  · obtain ⟨rfl, -⟩ := hget hi
    obtain ⟨rfl, -⟩ := hget hj
    exact absurd hij (lt_irrefl 0)
  · obtain ⟨rfl, rfl⟩ := hget hi
    decide

end JavaAnalyzer.BuildIntegration
