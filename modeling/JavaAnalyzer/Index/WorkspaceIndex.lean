import JavaAnalyzer.Index.ModuleIndex
import JavaAnalyzer.Index.View

/-! # The workspace index

`index/workspace_index.rs`. The core is what a scope is built from: the heap of buckets, the modules,
the JDK, the jars and the dependency graph. Modules are created when they are first asked for, so
building a scope returns a core as well. Around the core are the scope cache and the version. The
artifact readers are loaded again from the artifact store after they are cleared, and are an argument
of a view. -/

namespace JavaAnalyzer.Index
set_option autoImplicit false

structure JdkIndexState where
  overlay : Option BucketPtr
  artifactId : Option ArtifactId
deriving DecidableEq, Repr

structure WorkspaceCore where
  buckets : List BucketIndex
  modules : AList (fun _ : ModuleId => ModuleIndex)
  jdk : JdkIndexState
  jarCache : AList (fun _ : String => ClasspathEntry)
  graph : ModuleGraph

/-- What becomes of a jar that is not in the jar cache: an artifact of the store, classes that could
not be stored, or nothing that can be read. -/
inductive JarResolution where
  | artifact (id : ArtifactId)
  | indexed (classes : List ClassMetadata)
  | failed

def defaultModuleName (id : ModuleId) : String :=
  if id = .root then "root" else "module-" ++ toString id.id.toNat

namespace WorkspaceCore

/-! ## Buckets and modules -/

def new : WorkspaceCore where
  buckets := [.new]
  modules := (∅ : AList fun _ : ModuleId => ModuleIndex).insert .root (.new .root "root" 0)
  jdk := ⟨none, none⟩
  jarCache := ∅
  graph := .new

variable (core : WorkspaceCore)

def deref (p : BucketPtr) : BucketIndex :=
  core.buckets[p]?.getD .new

/-- `Arc::new`. -/
def alloc (bucket : BucketIndex) : BucketPtr × WorkspaceCore :=
  (core.buckets.length, { core with buckets := core.buckets ++ [bucket] })

def setModule (id : ModuleId) (m : ModuleIndex) : WorkspaceCore :=
  { core with modules := core.modules.insert id m }

def ensureModule (id : ModuleId) (name : String) : ModuleIndex × WorkspaceCore :=
  match core.modules.lookup id with
  | some m => (m, core)
  | none =>
    let (source, core) := core.alloc .new
    let m := ModuleIndex.new id name source
    (m, core.setModule id m)

/-- Changes a module, which is created if it is not there. -/
def changeModule (id : ModuleId) (f : ModuleIndex → ModuleIndex) : WorkspaceCore :=
  let (m, core) := core.ensureModule id (defaultModuleName id)
  core.setModule id (f m)

/-- Changes the bucket that a module keeps for a source root, and tells if it did change. -/
def changeBucket (module : ModuleId) (sourceRoot : Option SourceRootId)
    (f : BucketIndex → BucketIndex × Bool) : WorkspaceCore × Bool :=
  let (m, core) := core.ensureModule module (defaultModuleName module)
  let p := m.bucketForRoot sourceRoot
  let (bucket, changed) := f (core.deref p)
  ({ core with buckets := core.buckets.set p bucket }, changed)

/-! ## Sources -/

def updateSourceInContext (module : ModuleId) (sourceRoot : Option SourceRootId)
    (origin : ClassOrigin) (classes : List ClassMetadata)
    (declarations : Option SourceDeclarationBatch) : WorkspaceCore × Bool :=
  core.changeBucket module sourceRoot fun bucket =>
    bucket.updateSourceWithDeclarations origin classes declarations

def updateSource (module : ModuleId) (origin : ClassOrigin) (classes : List ClassMetadata)
    (declarations : Option SourceDeclarationBatch) : WorkspaceCore × Bool :=
  core.changeBucket module none fun bucket =>
    bucket.updateSourceWithDeclarations origin classes declarations

def removeSourceOriginInContext (module : ModuleId) (sourceRoot : Option SourceRootId)
    (origin : ClassOrigin) : WorkspaceCore × Bool :=
  core.changeBucket module sourceRoot fun bucket => bucket.removeByOrigin origin

def removeSourceOrigin (module : ModuleId) (origin : ClassOrigin) : WorkspaceCore × Bool :=
  core.changeBucket module none fun bucket => bucket.removeByOrigin origin

/-! ## The JDK and the jars -/

def bucketFromArchiveData (classes : List ClassMetadata) : BucketIndex :=
  BucketIndex.new.addArchiveClasses classes

/-- `add_jdk_classes` and `add_jdk_archive`. -/
def addJdkClasses (classes : List ClassMetadata) : WorkspaceCore :=
  let (bucket, core) := core.alloc (bucketFromArchiveData classes)
  { core with jdk := ⟨some bucket, none⟩ }

def setJdkArtifact (artifactId : ArtifactId) : WorkspaceCore :=
  { core with jdk := ⟨none, some artifactId⟩ }

def addJarClasses (module : ModuleId) (classes : List ClassMetadata) : WorkspaceCore :=
  let (m, core) := core.ensureModule module (defaultModuleName module)
  let (bucket, core) := core.alloc (bucketFromArchiveData classes)
  core.setModule module (m.addClasspathBucket .main bucket)

def cacheJar (path : String) (entry : ClasspathEntry) : WorkspaceCore :=
  { core with jarCache := core.jarCache.insert path entry }

def getOrIndexJar (path : String) (resolution : JarResolution) :
    ClasspathEntry × WorkspaceCore :=
  match core.jarCache.lookup path with
  | some existing => (existing, core)
  | none => match resolution with
    | .artifact id => (.artifact id, core.cacheJar path (.artifact id))
    | .indexed classes =>
      let (bucket, core) := core.alloc (bucketFromArchiveData classes)
      (.overlay bucket, core.cacheJar path (.overlay bucket))
    | .failed =>
      let (bucket, core) := core.alloc .new
      (.overlay bucket, core.cacheJar path (.overlay bucket))

def getOrIndexJars (resolve : String → JarResolution) :
    WorkspaceCore → List String → List ClasspathEntry × WorkspaceCore
  | core, [] => ([], core)
  | core, path :: paths =>
    let (entry, core) := core.getOrIndexJar path (resolve path)
    let (entries, core) := getOrIndexJars resolve core paths
    (entry :: entries, core)

def setModuleClasspath (module : ModuleId) (classpathId : ClasspathId) (jarPaths : List String)
    (resolve : String → JarResolution) : WorkspaceCore :=
  let (entries, core) := getOrIndexJars resolve core jarPaths
  core.changeModule module fun m => m.setClasspath classpathId jarPaths entries

/-! ## Dependencies and source roots -/

def setModuleDependencies (module : ModuleId) (deps : List ModuleId) : WorkspaceCore :=
  { core with graph := core.graph.setDeps module deps }

def allocRoots : WorkspaceCore → List (SourceRootId × ClasspathId) →
    List (SourceRootId × SourceRootIndex) × WorkspaceCore
  | core, [] => ([], core)
  | core, (id, classpath) :: roots =>
    let (bucket, core) := core.alloc .new
    let (entries, core) := allocRoots core roots
    ((id, ⟨classpath, bucket⟩) :: entries, core)

def registerModuleSourceRoots (module : ModuleId) (roots : List (SourceRootId × ClasspathId))
    (hasher : RandomState) : WorkspaceCore :=
  let (m, core) := core.ensureModule module (defaultModuleName module)
  let (entries, core) := core.allocRoots roots
  core.setModule module (m.setSourceRoots entries hasher)

def setModuleActiveClasspath (module : ModuleId) (classpathId : ClasspathId) : WorkspaceCore :=
  core.changeModule module fun m => m.setActiveClasspath classpathId

/-! ## Building a scope -/

def jdkLayers : List (ScopeLayer BucketPtr) :=
  match core.jdk.artifactId with
  | some id => [.artifact id]
  | none => (core.jdk.overlay.map ScopeLayer.overlay).toList

/-- The layers of the dependencies. Creating a module does not touch the graph, so the order is that
of the graph the loop starts from. -/
def dependencyLayers : WorkspaceCore → List ModuleId → List (ScopeLayer BucketPtr) × WorkspaceCore
  | core, [] => ([], core)
  | core, dep :: deps =>
    let (m, core) := core.ensureModule dep (defaultModuleName dep)
    let (layers, core) := dependencyLayers core deps
    (m.scopeLayers .main none ++ layers, core)

def buildScopeLayers (key : AnalysisContextKey) : List (ScopeLayer BucketPtr) × WorkspaceCore :=
  let (m, core) := core.ensureModule key.moduleId (defaultModuleName key.moduleId)
  let (layers, core) := core.dependencyLayers (core.graph.dependencyOrder key.moduleId)
  (m.scopeLayers key.classpath key.sourceRoot ++ layers ++ core.jdkLayers, core)

def buildScopeSnapshot (key : AnalysisContextKey) : ScopeSnapshot BucketPtr × WorkspaceCore :=
  let (m, core) := core.ensureModule key.moduleId (defaultModuleName key.moduleId)
  let (layers, core) := core.buildScopeLayers key
  (⟨key, layers, m.classpathJars key.classpath⟩, core)

end WorkspaceCore

/-! ## Mutations -/

/-- The calls that may change the core. -/
inductive Mutation where
  | ensureModule (id : ModuleId) (name : String)
  | updateSource (module : ModuleId) (origin : ClassOrigin) (classes : List ClassMetadata)
      (declarations : Option SourceDeclarationBatch)
  | updateSourceInContext (module : ModuleId) (sourceRoot : Option SourceRootId)
      (origin : ClassOrigin) (classes : List ClassMetadata)
      (declarations : Option SourceDeclarationBatch)
  | removeSourceOrigin (module : ModuleId) (origin : ClassOrigin)
  | removeSourceOriginInContext (module : ModuleId) (sourceRoot : Option SourceRootId)
      (origin : ClassOrigin)
  | addJdkClasses (classes : List ClassMetadata)
  | setJdkArtifact (artifactId : ArtifactId)
  | addJarClasses (module : ModuleId) (classes : List ClassMetadata)
  | getOrIndexJar (path : String) (resolution : JarResolution)
  | setModuleClasspath (module : ModuleId) (classpathId : ClasspathId) (jarPaths : List String)
      (resolve : String → JarResolution)
  | setModuleDependencies (module : ModuleId) (deps : List ModuleId)
  | registerModuleSourceRoots (module : ModuleId) (roots : List (SourceRootId × ClasspathId))
      (hasher : RandomState)
  | setModuleActiveClasspath (module : ModuleId) (classpathId : ClasspathId)

/-- The core after a call, and whether the call goes on to invalidate the caches. -/
def WorkspaceCore.mutate (core : WorkspaceCore) : Mutation → WorkspaceCore × Bool
  | .ensureModule id name => ((core.ensureModule id name).2, false)
  | .updateSource module origin classes declarations =>
    core.updateSource module origin classes declarations
  | .updateSourceInContext module sourceRoot origin classes declarations =>
    core.updateSourceInContext module sourceRoot origin classes declarations
  | .removeSourceOrigin module origin => core.removeSourceOrigin module origin
  | .removeSourceOriginInContext module sourceRoot origin =>
    core.removeSourceOriginInContext module sourceRoot origin
  | .addJdkClasses classes => (core.addJdkClasses classes, true)
  | .setJdkArtifact artifactId => (core.setJdkArtifact artifactId, true)
  | .addJarClasses module classes => (core.addJarClasses module classes, true)
  | .getOrIndexJar path resolution => ((core.getOrIndexJar path resolution).2, false)
  | .setModuleClasspath module classpathId jarPaths resolve =>
    (core.setModuleClasspath module classpathId jarPaths resolve, true)
  | .setModuleDependencies module deps => (core.setModuleDependencies module deps, true)
  | .registerModuleSourceRoots module roots hasher =>
    (core.registerModuleSourceRoots module roots hasher, true)
  | .setModuleActiveClasspath module classpathId =>
    (core.setModuleActiveClasspath module classpathId, true)

/-! ## The index -/

structure WorkspaceIndex where
  core : WorkspaceCore
  scopeCache : AList (fun _ : AnalysisContextKey => UInt64 × ScopeSnapshot BucketPtr)
  version : UInt64

namespace WorkspaceIndex

def new : WorkspaceIndex :=
  ⟨.new, ∅, 0⟩

variable (index : WorkspaceIndex)

/-- `invalidate_analysis_caches` and `invalidate_dependency_caches`. -/
def invalidateCaches : WorkspaceIndex :=
  { index with scopeCache := ∅, version := index.version + 1 }

def mutate (m : Mutation) : WorkspaceIndex × Bool :=
  let (core, changed) := index.core.mutate m
  let index := { index with core := core }
  (if changed then index.invalidateCaches else index, changed)

def clearAnalysisCaches : WorkspaceIndex :=
  { index with scopeCache := ∅ }

def scopeForAnalysisContext (key : AnalysisContextKey) :
    ScopeSnapshot BucketPtr × WorkspaceIndex :=
  let startedVersion := index.version
  match (index.scopeCache.lookup key).filter (fun cached => cached.1 = startedVersion) with
  | some cached => (cached.2, index)
  | none =>
    let (snapshot, core) := index.core.buildScopeSnapshot key
    let index := { index with core := core }
    (snapshot,
      if index.version = startedVersion then
        { index with scopeCache := index.scopeCache.insert key (startedVersion, snapshot) }
      else index)

/-- The view that `view_for_analysis_context` gives, over the readers of the artifact store. -/
def viewForAnalysisContext (readers : ArtifactReaders) (key : AnalysisContextKey) : IndexView :=
  let (snapshot, index) := index.scopeForAnalysisContext key
  ⟨snapshot.map index.core.deref, readers⟩

inductive Op where
  | mutate (m : Mutation)
  | scopeForAnalysisContext (key : AnalysisContextKey)
  | clearAnalysisCaches

def apply (index : WorkspaceIndex) : Op → WorkspaceIndex
  | .mutate m => (index.mutate m).1
  | .scopeForAnalysisContext key => (index.scopeForAnalysisContext key).2
  | .clearAnalysisCaches => index.clearAnalysisCaches

/-- The index after a sequence of calls on a new one. -/
def run (ops : List Op) : WorkspaceIndex :=
  ops.foldl apply new

end WorkspaceIndex

end JavaAnalyzer.Index
