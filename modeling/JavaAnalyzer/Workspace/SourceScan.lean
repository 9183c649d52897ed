import JavaAnalyzer.Library.TreeWalk
import JavaAnalyzer.Workspace.WatchEvents

/-! # Scans for source files

`collect_source_files_for_root` of `index/codebase.rs` and the filter of `workspace.rs` for single files. Both look for
excluded names in the whole path of a file, and so what stands above the root counts. -/

namespace JavaAnalyzer.Workspace
set_option autoImplicit false
open TreeWalk

/-! ## The scan -/

/-- The tree stands at the root. -/
def collectSourceFilesForRoot (tree : FileTree String) (root : Path) (mode : SourceScanMode) : List Path :=
  (((tree.walk (fun path => !isExcludedWithMode path mode) root).filter Prod.snd).filter
    fun entry => shouldIndexSourcePath entry.1 mode).map Prod.fst

def scanModeForRootKind (kind : WorkspaceRootKind) : SourceScanMode :=
  if kind = .generated then .includeGenerated else .default

def sourceRootForPath (model : WorkspaceModelSnapshot) (path : Path) : Option WorkspaceSourceRoot :=
  maxByKey (fun root => root.path.length)
    ((model.modules.flatMap WorkspaceModule.roots).filter fun root => startsWith path root.path)

def shouldTrackDiskPathWithModel (workspaceRoot : Option Path) (path : Path)
    (model : Option WorkspaceModelSnapshot) : Bool :=
  match model.bind fun model => sourceRootForPath model path with
  | some root => root.kind.isSource && shouldIndexSourcePath path (scanModeForRootKind root.kind)
  | none => workspaceRoot.any fun root => startsWith path root && shouldIndexSourcePath path .default

/-! ## Paths and what stands above them -/

section Paths

variable {path below : Path} {mode : SourceScanMode}

theorem isExcludedWithMode_append :
    isExcludedWithMode (path ++ below) mode = (isExcludedWithMode path mode || isExcludedWithMode below mode) :=
  List.any_append

theorem hasLanguage_append (hbelow : below ≠ []) : hasLanguage (path ++ below) = hasLanguage below := by
  rw [hasLanguage, hasLanguage, List.getLast?_append_of_ne_nil path hbelow]

theorem shouldIndexSourcePath_append (hbelow : below ≠ []) :
    shouldIndexSourcePath (path ++ below) mode =
      (!isExcludedWithMode path mode && shouldIndexSourcePath below mode) := by
  rw [shouldIndexSourcePath, shouldIndexSourcePath, isExcludedWithMode_append, hasLanguage_append hbelow]
  cases isExcludedWithMode path mode <;> cases isExcludedWithMode below mode <;> rfl

/-- The scan finds the files that the filter for single files lets through. -/
theorem collectSourceFilesForRoot_eq (tree : FileTree String) (root : Path) (mode : SourceScanMode) :
    collectSourceFilesForRoot tree root mode =
      (tree.files.map (root ++ ·)).filter fun path => shouldIndexSourcePath path mode := by
  have hhereditary : FileTree.Hereditary fun path => !isExcludedWithMode path mode := by
    intro path below h
    dsimp only at h ⊢
    rw [isExcludedWithMode_append, Bool.not_or, Bool.and_eq_true] at h
    exact h.1
  have hfiles := FileTree.files_walk hhereditary tree root
  have hfilter : ∀ entries : List (Path × Bool), (entries.filter fun entry => shouldIndexSourcePath entry.1 mode).map
      Prod.fst = (entries.map Prod.fst).filter fun path => shouldIndexSourcePath path mode := fun entries => by
    rw [List.filter_map]
    rfl
  rw [collectSourceFilesForRoot, hfilter, hfiles, List.filter_filter]
  refine List.filter_congr fun path _ => ?_
  rw [shouldIndexSourcePath]
  cases isExcludedWithMode path mode <;> simp

theorem mem_collectSourceFilesForRoot {tree : FileTree String} {root : Path} (hbelow : below ∈ tree.files) :
    root ++ below ∈ collectSourceFilesForRoot tree root mode ↔ shouldIndexSourcePath (root ++ below) mode = true := by
  rw [collectSourceFilesForRoot_eq, List.mem_filter]
  exact and_iff_right (List.mem_map_of_mem hbelow)

end Paths

/-! ## Independence of the place -/

/-- The paths below a root. -/
def relativeTo (root : Path) (paths : List Path) : List Path :=
  paths.map fun path => path.drop root.length

/-- The name of the directory at the end of a path, if there is one. -/
def ownName (root : Path) : Path :=
  root.getLast?.toList

section Places

variable (entries : List (String × FileTree String)) (root other : Path) (mode : SourceScanMode)

/-- The files that no name below the root excludes. -/
def eligible : List Path :=
  (FileTree.dir entries).files.filter fun below => shouldIndexSourcePath below mode

/-- A directory that stands at two roots: the scan finds the same files at both; a file is left out at each of them only
for a name at the root or below it; and the filter for single files agrees with the scan. -/
structure PlaceFree : Prop where
  same_files : relativeTo root (collectSourceFilesForRoot (.dir entries) root mode) =
    relativeTo other (collectSourceFilesForRoot (.dir entries) other mode)
  at_or_below : ∀ place ∈ [root, other], ∀ below ∈ (FileTree.dir entries).files,
    place ++ below ∈ collectSourceFilesForRoot (.dir entries) place mode ↔
      shouldIndexSourcePath (ownName place ++ below) mode = true
  agrees : ∀ place ∈ [root, other], ∀ below ∈ (FileTree.dir entries).files,
    shouldIndexSourcePath (place ++ below) mode = true ↔
      place ++ below ∈ collectSourceFilesForRoot (.dir entries) place mode

variable {entries} {root} {other} {mode}

theorem eligible_iff : eligible entries mode ≠ [] ↔
    ∃ below ∈ (FileTree.dir entries).files, shouldIndexSourcePath below mode = true := by
  rw [eligible, Ne, List.filter_eq_nil_iff]
  push_neg
  rfl

/-- All eligible files, or none below an excluded name. -/
theorem relativeTo_collectSourceFilesForRoot :
    relativeTo root (collectSourceFilesForRoot (.dir entries) root mode) =
      if isExcludedWithMode root mode then [] else eligible entries mode := by
  have hrelative : relativeTo root (collectSourceFilesForRoot (.dir entries) root mode) =
      (FileTree.dir entries).files.filter fun below => shouldIndexSourcePath (root ++ below) mode := by
    rw [collectSourceFilesForRoot_eq, List.filter_map, relativeTo, List.map_map]
    have hdrop : (fun path : Path => path.drop root.length) ∘ (root ++ ·) = id := funext fun below => List.drop_left
    rw [hdrop, List.map_id]
    rfl
  have hbelow : ∀ below ∈ (FileTree.dir entries).files, shouldIndexSourcePath (root ++ below) mode =
      (!isExcludedWithMode root mode && shouldIndexSourcePath below mode) := fun below hmem =>
    shouldIndexSourcePath_append (FileTree.filesOf_ne_nil below hmem)
  rw [hrelative, List.filter_congr hbelow, eligible]
  cases isExcludedWithMode root mode with
  | true => simp
  | false => simp

theorem isExcludedWithMode_ownName (h : isExcludedWithMode (ownName root) mode = true) :
    isExcludedWithMode root mode = true := by
  cases root using List.reverseRecOn with
  | nil => exact h
  | append_singleton parent name =>
    rw [ownName, List.getLast?_concat] at h
    rw [isExcludedWithMode_append, Bool.or_eq_true]
    exact .inr h

/-- Only names at the root or below it matter where nothing above it is excluded, or its own name is. -/
theorem at_or_below_iff : (∀ below ∈ (FileTree.dir entries).files,
    root ++ below ∈ collectSourceFilesForRoot (.dir entries) root mode ↔
      shouldIndexSourcePath (ownName root ++ below) mode = true) ↔
    (isExcludedWithMode root mode = isExcludedWithMode (ownName root) mode ∨ eligible entries mode = []) := by
  have hbelow : ∀ below ∈ (FileTree.dir entries).files,
      (root ++ below ∈ collectSourceFilesForRoot (.dir entries) root mode ↔
        shouldIndexSourcePath (ownName root ++ below) mode = true) ↔
      (shouldIndexSourcePath below mode = true →
        isExcludedWithMode root mode = isExcludedWithMode (ownName root) mode) := by
    intro below hmem
    have hne := FileTree.filesOf_ne_nil below hmem
    rw [mem_collectSourceFilesForRoot hmem, shouldIndexSourcePath_append hne, shouldIndexSourcePath_append hne]
    cases shouldIndexSourcePath below mode <;> cases isExcludedWithMode root mode <;>
      cases isExcludedWithMode (ownName root) mode <;> simp
  rw [forall₂_congr hbelow, or_iff_not_imp_right, ← ne_eq, eligible_iff]
  exact ⟨fun h ⟨below, hmem, helig⟩ => h below hmem helig, fun h below hmem helig => h ⟨below, hmem, helig⟩⟩

theorem placeFree_iff : PlaceFree entries root other mode ↔
    relativeTo root (collectSourceFilesForRoot (.dir entries) root mode) =
        relativeTo other (collectSourceFilesForRoot (.dir entries) other mode) ∧
      (isExcludedWithMode root mode = isExcludedWithMode (ownName root) mode ∨ eligible entries mode = []) ∧
        (isExcludedWithMode other mode = isExcludedWithMode (ownName other) mode ∨ eligible entries mode = []) := by
  rw [← at_or_below_iff, ← at_or_below_iff]
  constructor
  · rintro ⟨hsame, hbelow, -⟩
    exact ⟨hsame, hbelow root List.mem_cons_self, hbelow other (List.mem_cons_of_mem _ List.mem_cons_self)⟩
  · rintro ⟨hsame, hbelow, hbelow'⟩
    refine ⟨hsame, fun place hplace => ?_, fun place _ below hmem => (mem_collectSourceFilesForRoot hmem).symm⟩
    rcases List.mem_cons.mp hplace with rfl | hplace
    · exact hbelow
    · rw [List.mem_singleton.mp hplace]
      exact hbelow'

end Places

/-- A scan does not depend on the place exactly when no name of the two roots is excluded, or the own names of both are,
or no file is eligible anywhere. -/
theorem scan_placeFree_iff (entries : List (String × FileTree String)) (root other : Path) (mode : SourceScanMode) :
    PlaceFree entries root other mode ↔
      eligible entries mode = [] ∨
        isExcludedWithMode (ownName root) mode = true ∧ isExcludedWithMode (ownName other) mode = true ∨
          isExcludedWithMode root mode = false ∧ isExcludedWithMode other mode = false := by
  have hroot := @isExcludedWithMode_ownName root mode
  have hother := @isExcludedWithMode_ownName other mode
  rw [placeFree_iff, relativeTo_collectSourceFilesForRoot, relativeTo_collectSourceFilesForRoot]
  by_cases hnone : eligible entries mode = []
  · simp [hnone]
  · have hsome : [] ≠ eligible entries mode := fun h => hnone h.symm
    cases hr : isExcludedWithMode root mode <;> cases ho : isExcludedWithMode other mode <;>
      cases hr' : isExcludedWithMode (ownName root) mode <;> cases ho' : isExcludedWithMode (ownName other) mode <;>
      simp_all

/-- A checkout in a directory named `build`. -/
theorem build_above_excluded :
    ¬ PlaceFree [("A.java", .file)] ["home", "build", "app"] ["home", "app"] .default := by
  intro hfree
  have hmem := (hfree.at_or_below ["home", "build", "app"] List.mem_cons_self ["A.java"] (by decide)).mpr
    (by decide +kernel)
  exact absurd hmem (by decide)

/-- A file that stands below the source root of the model with the longest path is tracked when the scan of that root
finds it. -/
theorem tracked_iff_scanned {workspaceRoot : Option Path} {model : WorkspaceModelSnapshot} {root : WorkspaceSourceRoot}
    {tree : FileTree String} {below : Path} (hbelow : below ∈ tree.files)
    (hroot : sourceRootForPath model (root.path ++ below) = some root) (hkind : root.kind.isSource = true) :
    shouldTrackDiskPathWithModel workspaceRoot (root.path ++ below) (some model) = true ↔
      root.path ++ below ∈ collectSourceFilesForRoot tree root.path (scanModeForRootKind root.kind) := by
  rw [shouldTrackDiskPathWithModel, Option.bind_some, hroot, mem_collectSourceFilesForRoot hbelow]
  dsimp only
  rw [hkind, Bool.true_and]

end JavaAnalyzer.Workspace
