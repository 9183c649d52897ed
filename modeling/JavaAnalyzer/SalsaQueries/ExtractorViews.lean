import JavaAnalyzer.Language.SourceTypeCtx
import JavaAnalyzer.Workspace.WorkspaceModel

/-! # The views of a semantic context

`enrich_java_semantic_context` of `salsa_queries/conversion.rs` resolves type names in the view of the
request, which is that of the analysis context of the file, with the classes of the document over it. The
locals, the members, the enclosing method and the flow facts come from extractors of
`salsa_queries/semantic.rs` and `salsa_queries/java/scope.rs` that take a view of their own from the same
index. Package and imports are read from the same tree by all of them. -/

namespace JavaAnalyzer.SalsaQueries
set_option autoImplicit false
open Index Workspace LevelLookup JavaAnalyzer.Language

/-- A Java file that a request is prepared for, and what the workspace publishes. -/
structure RequestedFile where
  index : WorkspaceIndex
  readers : ArtifactReaders
  model : Option WorkspaceModelSnapshot
  path : Option Path
  package : Option String
  imports : List String
  /-- The classes that are extracted from the document. -/
  overlayClasses : List ClassMetadata

/-- The functions that fill the semantic context and resolve types. -/
inductive Extractor where
  | parseMethodLocals
  | extractRootRecoveryLocals
  | extractActiveLambdaParamsIncremental
  | parseClassMembers
  | extractJavaFlowTypeOverrides
  | extractJavaEnclosingMethod
deriving DecidableEq, Repr

namespace RequestedFile

variable (file : RequestedFile)

def analysis : AnalysisContext :=
  resolveAnalysisContextForSnapshot file.model file.path

/-- `get_index_view_for_context` -/
def getIndexViewForContext (key : AnalysisContextKey) : IndexView :=
  file.index.viewForAnalysisContext file.readers key

/-- The view of `PreparedRequest::prepare`. -/
def requestView : IndexView :=
  (file.getIndexViewForContext file.analysis.key).withOverlayClasses file.overlayClasses

/-- The source names the file in a parameter that it does not use. -/
def resolveIndexViewForFile (_path : Option Path) : IndexView :=
  file.getIndexViewForContext ⟨.root, .main, none⟩

def requestTypeCtx : SourceTypeCtx :=
  ⟨file.package, file.imports, file.requestView⟩

def extractorView : Extractor → IndexView
  | .parseMethodLocals | .extractRootRecoveryLocals => file.resolveIndexViewForFile file.path
  | .extractActiveLambdaParamsIncremental => file.resolveIndexViewForFile file.path
  | .parseClassMembers | .extractJavaFlowTypeOverrides => file.resolveIndexViewForFile file.path
  | .extractJavaEnclosingMethod => file.getIndexViewForContext ⟨.root, .main, none⟩

def extractorTypeCtx (extractor : Extractor) : SourceTypeCtx :=
  ⟨file.package, file.imports, file.extractorView extractor⟩

/-- A name that the request resolves is resolved to the same class in every part of the context. -/
def OneView : Prop :=
  ∀ simple internal, file.requestTypeCtx.resolveSimpleStrict simple = some internal →
    ∀ extractor, (file.extractorTypeCtx extractor).resolveSimpleStrict simple = some internal

/-! ## When the two views agree -/

/-- The rules for the name decide on the class, as a view knows the classes: it has the class and no other
candidate of its rule, and none of the rules before. -/
def Decides (view : IndexView) (before level : List String) (internal : String) : Prop :=
  (view.getClass internal).isSome ∧
    ∀ x ∈ before ++ level, (view.getClass x).isSome → x = internal

/-- The view of the file has one class among the candidates of a rule and none of the rules before: then
the view of the root module has this class and none of the others. -/
def RootViewAgrees : Prop :=
  ∀ simple before level after internal,
    file.requestTypeCtx.levels simple = before ++ level :: after →
    (∀ x ∈ before.flatten, file.requestTypeCtx.classExists x = false) →
    level.filter file.requestTypeCtx.classExists = [internal] →
    Decides (file.resolveIndexViewForFile file.path) before.flatten level internal

theorem extractorView_eq (extractor : Extractor) :
    file.extractorView extractor = file.resolveIndexViewForFile file.path := by
  cases extractor <;> rfl

theorem extractor_resolves_iff (extractor : Extractor) {simple internal : String}
    {before after : List (List String)} {level : List String}
    (hlevels : file.requestTypeCtx.levels simple = before ++ level :: after)
    (hbefore : ∀ x ∈ before.flatten, file.requestTypeCtx.classExists x = false)
    (hlevel : level.filter file.requestTypeCtx.classExists = [internal]) :
    (file.extractorTypeCtx extractor).resolveSimpleStrict simple = some internal ↔
      Decides (file.resolveIndexViewForFile file.path) before.flatten level internal := by
  have hlevels' : (file.extractorTypeCtx extractor).levels simple = before ++ level :: after :=
    hlevels
  rw [SourceTypeCtx.resolveSimpleStrict_eq, hlevels', lookup_iff_of_split hbefore hlevel, Decides,
    ← file.extractorView_eq extractor]
  rfl

theorem one_view_iff : file.OneView ↔ file.RootViewAgrees := by
  constructor
  · intro hone simple before level after internal hlevels hbefore hlevel
    have hrequest : file.requestTypeCtx.resolveSimpleStrict simple = some internal := by
      rw [SourceTypeCtx.resolveSimpleStrict_eq]
      exact lookup_eq_some_iff.mpr ⟨before, level, after, hlevels, hbefore, hlevel⟩
    have hextractor := hone simple internal hrequest .parseClassMembers
    exact (file.extractor_resolves_iff .parseClassMembers hlevels hbefore hlevel).mp hextractor
  · intro hagrees simple internal hrequest extractor
    rw [SourceTypeCtx.resolveSimpleStrict_eq] at hrequest
    obtain ⟨before, level, after, hlevels, hbefore, hlevel⟩ := lookup_eq_some_iff.mp hrequest
    exact (file.extractor_resolves_iff extractor hlevels hbefore hlevel).mpr
      (hagrees simple before level after internal hlevels hbefore hlevel)

/-! ## A class of another module than the root -/

def helperClass : ClassMetadata :=
  .bare (some "app") "Helper" "app/Helper" none (.sourceFile "file:///app/Helper.java")

def helperUnit : SourceUnit :=
  ⟨"file:///app/Helper.java", [helperClass], none, by simp [helperClass, ClassMetadata.bare]⟩

/-- One module, which is not the root, with a source root that holds `Helper.java` and `Main.java`. -/
def appModel : WorkspaceModelSnapshot :=
  ⟨[⟨⟨1⟩, "app", ["app"], [⟨⟨1⟩, ["app"], .sources, .main⟩], [], [], []⟩]⟩

def appEnvironment : Environment :=
  ⟨fun _ => none, fun _ => .failed, .insertion⟩

def appIndex : WorkspaceIndex :=
  (Reindex.applyWorkspaceModel appModel [⟨⟨1⟩, ⟨1⟩, [helperUnit]⟩] []).build appEnvironment none

/-- The file names `Helper`, which its own module declares and the root module does not see. -/
def appMain : RequestedFile :=
  ⟨appIndex, .none, some appModel, some ["app", "Main.java"], some "app", [], []⟩

theorem module_class_unresolved : ¬ ∀ file : RequestedFile, file.OneView := by
  intro hall
  have hrequest : appMain.requestTypeCtx.resolveSimpleStrict "Helper" = some "app/Helper" := by
    decide
  have hextractor := hall appMain "Helper" "app/Helper" hrequest .parseClassMembers
  have hnone : (appMain.extractorTypeCtx .parseClassMembers).resolveSimpleStrict "Helper" = none := by
    decide
  rw [hnone] at hextractor
  cases hextractor

end RequestedFile

end JavaAnalyzer.SalsaQueries
