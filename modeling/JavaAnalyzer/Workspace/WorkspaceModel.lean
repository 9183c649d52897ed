import JavaAnalyzer.Index.WorkspaceHandle
import JavaAnalyzer.Library.Dedup

/-! # The workspace model

`build_integration/model.rs` and the way `workspace.rs` finds the module and the source root of a
file: the deepest source root the file is under, or else a module it belongs to, or else the root
module. A path is the list of its components. A whole reindex builds an index from nothing (`Reindex`),
for an imported model or for a fallback root. -/

namespace JavaAnalyzer.Workspace
set_option autoImplicit false
open Index

abbrev Path := List String

inductive WorkspaceRootKind where
  | sources
  | tests
  | resources
  | generated
deriving DecidableEq, Repr

/-- The kinds whose files are indexed. -/
def WorkspaceRootKind.isSource : WorkspaceRootKind → Bool
  | .sources | .tests | .generated => true
  | .resources => false

structure WorkspaceSourceRoot where
  id : SourceRootId
  path : Path
  kind : WorkspaceRootKind
  classpath : ClasspathId
deriving DecidableEq, Repr

structure WorkspaceModule where
  id : ModuleId
  name : String
  directory : Path
  roots : List WorkspaceSourceRoot
  compileClasspath : List String
  testClasspath : List String
  dependencyModules : List ModuleId
deriving DecidableEq, Repr

structure WorkspaceModelSnapshot where
  modules : List WorkspaceModule
deriving DecidableEq, Repr

structure AnalysisContext where
  module : ModuleId
  classpath : ClasspathId
  sourceRoot : Option SourceRootId
  rootKind : Option WorkspaceRootKind
deriving DecidableEq, Repr

def AnalysisContext.key (context : AnalysisContext) : AnalysisContextKey :=
  ⟨context.module, context.classpath, context.sourceRoot⟩

/-! ## Paths -/

def startsWith (path base : Path) : Bool :=
  base.isPrefixOf path

/-- `Iterator::max_by_key`, which keeps the last of several greatest elements. -/
def maxByKey {α : Type} (key : α → ℕ) (l : List α) : Option α :=
  l.foldl (fun best x => match best with
    | none => some x
    | some b => if key b ≤ key x then some x else some b) none

namespace WorkspaceModelSnapshot

variable (model : WorkspaceModelSnapshot)

def moduleForPath (path : Path) : Option WorkspaceModule :=
  model.modules.find? fun module =>
    module.directory = path || startsWith path module.directory ||
      module.roots.any fun root => startsWith path root.path

/-- The source roots with the modules they belong to. -/
def roots : List (ModuleId × WorkspaceSourceRoot) :=
  model.modules.flatMap fun module => module.roots.map fun root => (module.id, root)

def bestRoot (path : Path) : Option (ModuleId × WorkspaceSourceRoot) :=
  maxByKey (fun entry => entry.2.path.length)
    (model.roots.filter fun entry => startsWith path entry.2.path)

end WorkspaceModelSnapshot

def AnalysisContext.fallback : AnalysisContext :=
  ⟨.root, .main, none, none⟩

def AnalysisContext.ofRoot (module : ModuleId) (root : WorkspaceSourceRoot) : AnalysisContext :=
  ⟨module, root.classpath, some root.id, some root.kind⟩

def AnalysisContext.ofModule (module : WorkspaceModule) : AnalysisContext :=
  ⟨module.id, .main, none, none⟩

def resolveAnalysisContextForSnapshot (model : Option WorkspaceModelSnapshot)
    (path : Option Path) : AnalysisContext :=
  match path, model with
  | some path, some model =>
    match model.bestRoot path with
    | some (module, root) => .ofRoot module root
    | none => match model.moduleForPath path with
      | some module => .ofModule module
      | none => .fallback
  | _, _ => .fallback

/-- A model of one module, at the root of the file system. -/
def rootModel : WorkspaceModelSnapshot :=
  ⟨[⟨⟨1⟩, "app", [], [], [], [], []⟩]⟩

/-! ## Reindexing -/

/-- The classes extracted from one source file. -/
structure SourceUnit where
  uri : String
  classes : List ClassMetadata
  declarations : Option SourceDeclarationBatch
  origin_eq : ∀ c ∈ classes, c.origin = .sourceFile uri

def SourceUnit.origin (unit : SourceUnit) : ClassOrigin :=
  .sourceFile unit.uri

/-- The files that were scanned below a source root. -/
structure IndexedRoot where
  module : ModuleId
  root : SourceRootId
  units : List SourceUnit

/-- `update_source_in_context_with_declarations` for one file. -/
def SourceUnit.update (unit : SourceUnit) (module : ModuleId) (sourceRoot : Option SourceRootId) :
    Mutation :=
  .updateSourceInContext module sourceRoot unit.origin unit.classes unit.declarations

def mergeClasspath (paths : List String) : List String :=
  Dedup.dedupBy id [] paths

/-- What the workspace takes from outside of it: the paths of URIs, the artifact store and the order
in which hash maps are listed. -/
structure Environment where
  toFilePath : String → Option Path
  resolve : String → JarResolution
  hasher : RandomState

/-- A call of `apply_workspace_model` or of `index_fallback_root`, with what was extracted from the
files. -/
inductive Reindex where
  | applyWorkspaceModel (snapshot : WorkspaceModelSnapshot) (indexedRoots : List IndexedRoot)
      (openDocs : List SourceUnit)
  | indexFallbackRoot (units : List SourceUnit)

namespace Reindex

variable (env : Environment)

/-- The calls that set up a module. -/
def publishModule (module : WorkspaceModule) : List Mutation :=
  [.ensureModule module.id module.name,
    .registerModuleSourceRoots module.id
      ((module.roots.filter fun root => root.kind.isSource).map fun root =>
        (root.id, root.classpath)) env.hasher,
    .setModuleClasspath module.id .main (mergeClasspath module.compileClasspath) env.resolve,
    .setModuleClasspath module.id .test (mergeClasspath module.testClasspath) env.resolve,
    .setModuleDependencies module.id module.dependencyModules]

def publishRoot (indexed : IndexedRoot) : List Mutation :=
  indexed.units.map fun unit => unit.update indexed.module (some indexed.root)

/-- The extraction looks at the index, then the classes are stored. -/
def publishOpenDoc (model : WorkspaceModelSnapshot) (unit : SourceUnit) :
    List WorkspaceIndex.Op :=
  let context := resolveAnalysisContextForSnapshot (some model) (env.toFilePath unit.uri)
  [.scopeForAnalysisContext context.key, .mutate (unit.update context.module context.sourceRoot)]

/-- The model that is published with the index. -/
def model : Reindex → Option WorkspaceModelSnapshot
  | applyWorkspaceModel snapshot _ _ => some snapshot
  | indexFallbackRoot _ => none

/-- The calls on the new index, after the JDK. -/
def calls : Reindex → List WorkspaceIndex.Op
  | applyWorkspaceModel snapshot indexedRoots openDocs =>
    (snapshot.modules.flatMap (publishModule env)).map .mutate ++
      (indexedRoots.flatMap publishRoot).map .mutate ++
        openDocs.flatMap (publishOpenDoc env snapshot)
  | indexFallbackRoot units => units.map fun unit =>
      .mutate (.updateSource .root unit.origin unit.classes unit.declarations)

/-- The index that is built. -/
def build (reindex : Reindex) (activeJdk : Option ArtifactId) : WorkspaceIndex :=
  .run (activeJdk.toList.map (fun id => .mutate (.setJdkArtifact id)) ++ reindex.calls env)

end Reindex

end JavaAnalyzer.Workspace
