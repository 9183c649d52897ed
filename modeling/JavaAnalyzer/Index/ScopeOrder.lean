import JavaAnalyzer.Index.WorkspaceScope
import JavaAnalyzer.Library.BreadthFirst
import Mathlib.Logic.Relation

/-! # The order of a scope's layers

The requested module comes first, then every other module that its dependencies lead to, once each, and
the JDK is last. The graph may have cycles, and it may name modules nobody registered: those are created
with an empty bucket. -/

namespace JavaAnalyzer.Worklist
set_option autoImplicit false

section Total

variable {κ : Type} {next : κ → List κ} {start k : κ}

theorem Walk.reflTransGen {n : ℕ} (h : Walk some next start n k) :
    Relation.ReflTransGen (fun a b => b ∈ next a) start k := by
  induction h with
  | here => exact .refl
  | step _ hfound hnext ih =>
    obtain rfl := Option.some.inj hfound
    exact ih.tail hnext

/-- Where every key is found, what a search reaches is what the edges reach. -/
theorem reaches_some_iff :
    Reaches some next start k ↔ Relation.ReflTransGen (fun a b => b ∈ next a) start k := by
  constructor
  · rintro ⟨⟨n, hwalk⟩, -⟩
    exact hwalk.reflTransGen
  · intro h
    refine ⟨?_, rfl⟩
    induction h with
    | refl => exact ⟨0, .here⟩
    | tail _ hedge ih =>
      obtain ⟨n, hwalk⟩ := ih
      exact ⟨n + 1, hwalk.step rfl hedge⟩

variable [DecidableEq κ]

theorem bfs_start {α : Type} {find : κ → Option α} {next : α → List κ} {start : κ} {a : α} {fuel : ℕ}
    {order : List α} (hfound : find start = some a)
    (h : bfs find next fuel (next a) [start] = some order) :
    bfs find next (fuel + 1) [start] [] = some (a :: order) := by
  rw [bfs, if_neg List.not_mem_nil, hfound]
  simp only [List.nil_append, h, Option.map_some]

end Total

end JavaAnalyzer.Worklist

namespace JavaAnalyzer.Index
set_option autoImplicit false

namespace ModuleGraph

variable (graph : ModuleGraph)

/-- One module names the other among its dependencies. -/
def DependsOn (a b : ModuleId) : Prop :=
  b ∈ graph.depsOf a

theorem mem_dependencyOrder (module id : ModuleId) :
    id ∈ module :: graph.dependencyOrder module ↔
      Relation.ReflTransGen graph.DependsOn module id := by
  have hsearch : Worklist.bfs some graph.depsOf (_ + 1) [module] [] =
      some (module :: graph.dependencyOrder module) :=
    Worklist.bfs_start rfl (graph.dependencySearch_eq module)
  obtain ⟨keys, hmap, hcovers⟩ := Worklist.bfs_reaches hsearch
  obtain rfl : keys = module :: graph.dependencyOrder module :=
    List.map_injective_iff.mpr (Option.some_injective _) hmap
  rw [hcovers.mem_iff]
  simp only [List.not_mem_nil, not_false_eq_true, true_and]
  exact Worklist.reaches_some_iff

theorem requested_dependencyOrder_nodup (module : ModuleId) :
    (module :: graph.dependencyOrder module).Nodup := by
  obtain ⟨hnodup, hfresh⟩ := graph.dependencyOrder_nodup module
  exact List.nodup_cons.mpr ⟨hfresh, hnodup⟩

end ModuleGraph

namespace WorkspaceCore

variable {core core' : WorkspaceCore}

/-- The layers of a module that is there. -/
def moduleLayers (core : WorkspaceCore) (id : ModuleId) (classpathId : ClasspathId)
    (sourceRoot : Option SourceRootId) : List (ScopeLayer BucketPtr) :=
  ((core.modules.lookup id).map fun m => m.scopeLayers classpathId sourceRoot).getD []

theorem moduleLayers_of_lookup {id : ModuleId} {m : ModuleIndex}
    (hm : core.modules.lookup id = some m) (classpathId : ClasspathId)
    (sourceRoot : Option SourceRootId) :
    core.moduleLayers id classpathId sourceRoot = m.scopeLayers classpathId sourceRoot := by
  rw [moduleLayers, hm, Option.map_some, Option.getD_some]

theorem dependencyLayers_fst {deps : List ModuleId}
    (h : Grown (core.dependencyLayers deps).2 core') :
    (core.dependencyLayers deps).1 = deps.flatMap fun dep => core'.moduleLayers dep .main none := by
  induction deps generalizing core with
  | nil => rfl
  | cons dep deps ih =>
    have hm := ((grown_dependencyLayers _ deps).trans h).kept
      (ensureModule_lookup core dep (defaultModuleName dep))
    have hlater : Grown ((core.withModule dep).dependencyLayers deps).2 core' := h
    rw [List.flatMap_cons, moduleLayers_of_lookup hm, ← ih hlater]
    rfl

theorem buildScopeLayers_fst (core : WorkspaceCore) (key : AnalysisContextKey) :
    (core.buildScopeLayers key).1 =
      (core.buildScopeLayers key).2.moduleLayers key.moduleId key.classpath key.sourceRoot ++
        (core.graph.dependencyOrder key.moduleId).flatMap
          (fun dep => (core.buildScopeLayers key).2.moduleLayers dep .main none) ++
        core.jdkLayers := by
  have hdeps := grown_dependencyLayers (core.withModule key.moduleId)
    (core.graph.dependencyOrder key.moduleId)
  have hm := hdeps.kept (ensureModule_lookup core key.moduleId (defaultModuleName key.moduleId))
  rw [buildScopeLayers_eq, moduleLayers_of_lookup hm, dependencyLayers_fst (.refl _)]

theorem dependencyLayers_lookup {deps : List ModuleId} {dep : ModuleId} (hdep : dep ∈ deps) :
    ((core.dependencyLayers deps).2.modules.lookup dep).isSome := by
  induction deps generalizing core with
  | nil => cases hdep
  | cons first deps ih =>
    rcases List.mem_cons.mp hdep with rfl | hlater
    · have hm := (grown_dependencyLayers (core.withModule dep) deps).kept
        (ensureModule_lookup core dep (defaultModuleName dep))
      exact Option.isSome_iff_exists.mpr ⟨_, hm⟩
    · exact ih hlater

/-- A registered module puts its own layers into the scope; one that is created puts in its empty
bucket. -/
def Contributes (core built : WorkspaceCore) (id : ModuleId) (classpathId : ClasspathId)
    (sourceRoot : Option SourceRootId) : Prop :=
  match core.modules.lookup id with
  | some m => built.moduleLayers id classpathId sourceRoot = m.scopeLayers classpathId sourceRoot
  | none => ∃ p, built.buckets[p]? = some .new ∧
      built.moduleLayers id classpathId sourceRoot = [.overlay p]

theorem Grown.contributes (h : Grown core core') {id : ModuleId}
    (hid : (core'.modules.lookup id).isSome) (classpathId : ClasspathId)
    (sourceRoot : Option SourceRootId) : Contributes core core' id classpathId sourceRoot := by
  obtain ⟨m, hm⟩ := Option.isSome_iff_exists.mp hid
  rcases h.modules id with heq | ⟨hnone, name, p, hnew, hp⟩
  · rw [Contributes, ← heq, hm]
    exact moduleLayers_of_lookup hm classpathId sourceRoot
  · rw [Contributes, hnone]
    exact ⟨p, hp, moduleLayers_of_lookup hnew classpathId sourceRoot⟩

theorem jdkLayers_length_le (core : WorkspaceCore) : core.jdkLayers.length ≤ 1 := by
  unfold jdkLayers
  split
  · exact le_rfl
  · cases core.jdk.overlay <;> simp

/-- A scope is built for every graph. Its layers are those of the requested module, then those of every
module its dependencies lead to, each in one place, and last what there is of the JDK. -/
theorem buildScopeLayers_follow_graph (core : WorkspaceCore) (key : AnalysisContextKey) :
    ∃ order, core.graph.dependencySearch key.moduleId = some order ∧
      (key.moduleId :: order).Nodup ∧
      (∀ id, id ∈ key.moduleId :: order ↔
        Relation.ReflTransGen core.graph.DependsOn key.moduleId id) ∧
      (core.buildScopeLayers key).1 =
        (core.buildScopeLayers key).2.moduleLayers key.moduleId key.classpath key.sourceRoot ++
          order.flatMap (fun dep => (core.buildScopeLayers key).2.moduleLayers dep .main none) ++
          core.jdkLayers ∧
      Contributes core (core.buildScopeLayers key).2 key.moduleId key.classpath key.sourceRoot ∧
      (∀ dep ∈ order, Contributes core (core.buildScopeLayers key).2 dep .main none) ∧
      core.jdkLayers.length ≤ 1 := by
  have hgrown := grown_buildScopeLayers core key
  have hdeps := grown_dependencyLayers (core.withModule key.moduleId)
    (core.graph.dependencyOrder key.moduleId)
  have hm := hdeps.kept (ensureModule_lookup core key.moduleId (defaultModuleName key.moduleId))
  refine ⟨core.graph.dependencyOrder key.moduleId, core.graph.dependencySearch_eq _,
    core.graph.requested_dependencyOrder_nodup _, core.graph.mem_dependencyOrder _,
    buildScopeLayers_fst core key, hgrown.contributes ?_ _ _,
    fun dep hdep => hgrown.contributes ?_ _ _, core.jdkLayers_length_le⟩
  · rw [buildScopeLayers_eq]
    exact Option.isSome_iff_exists.mpr ⟨_, hm⟩
  · rw [buildScopeLayers_eq]
    exact dependencyLayers_lookup hdep

end WorkspaceCore

end JavaAnalyzer.Index
