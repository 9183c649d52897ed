import JavaAnalyzer.Workspace.SourceWatch
import JavaAnalyzer.Workspace.WorkspaceModel

/-! # Events of the file system

How `fs_watcher.rs` turns a batch of events into changes. An event names paths, and what happened there
may have touched every source file below them: a directory has none of the names that a change is made
for, and then only a rescan finds the files. -/

namespace JavaAnalyzer.Workspace
set_option autoImplicit false

/-! ## Source paths -/

inductive SourceScanMode where
  | default
  | includeGenerated
deriving DecidableEq, Repr

/-- The extension of a file name: what follows the last dot, if something precedes it. -/
def extension (name : String) : Option String :=
  let ext := name.toList.reverse.takeWhile (· ≠ '.')
  if name = ".." || name.toList.length ≤ ext.length + 1 then none
  else some (String.ofList ext.reverse)

def fileExtensions : List String :=
  ["java", "kt", "kts"]

/-- Whether `infer_language_id_from_path` finds a language. -/
def hasLanguage (path : Path) : Bool :=
  ((path.getLast?).bind extension).any fun ext => fileExtensions.contains ext.toLower

def isExcludedWithMode (path : Path) (mode : SourceScanMode) : Bool :=
  path.any fun component =>
    [".git", ".gradle", "node_modules", ".idea", "out", "dist", ".kotlin", "__pycache__"].contains
      component || (component = "generated" && mode ≠ .includeGenerated) ||
      (["build", "target"].contains component && mode ≠ .includeGenerated)

def shouldIndexSourcePath (path : Path) (mode : SourceScanMode) : Bool :=
  if isExcludedWithMode path mode then false else hasLanguage path

structure WatchedSourceRoot where
  path : Path
  scanMode : SourceScanMode
deriving DecidableEq, Repr

def matchingRoot (path : Path) (roots : List WatchedSourceRoot) : Option WatchedSourceRoot :=
  maxByKey (fun root => root.path.length) (roots.filter fun root => startsWith path root.path)

def pathWithinAnyRoot (path : Path) (roots : List WatchedSourceRoot) : Bool :=
  (matchingRoot path roots).isSome

/-- The path is that of a source file, for the watched root it belongs to. -/
def isSourcePath (roots : List WatchedSourceRoot) (path : Path) : Bool :=
  (matchingRoot path roots).any fun root => shouldIndexSourcePath path root.scanMode

/-! ## Events -/

namespace WatchEvents
open SourceWatch

inductive RenameMode where
  | anyMode
  | toMode
  | fromMode
  | bothMode
  | otherMode
deriving DecidableEq, Repr

inductive EventKind where
  | any
  | access
  | create
  | modifyName (mode : RenameMode)
  | modify
  | remove
  | other
deriving DecidableEq, Repr

structure Event where
  kind : EventKind
  paths : List Path
  needRescan : Bool
deriving DecidableEq, Repr

def upsert (path : Path) : FilesystemChange Path :=
  ⟨path, .upsert⟩

def remove (path : Path) : FilesystemChange Path :=
  ⟨path, .remove⟩

variable (roots : List WatchedSourceRoot)

/-- A path without an extension gives nothing either, whatever `rescan_for_non_source` is. -/
def pathToChange (path : Path) (buildChange : Path → FilesystemChange Path) :
    List (FilesystemChange Path) :=
  match matchingRoot path roots with
  | none => []
  | some root => if shouldIndexSourcePath path root.scanMode then [buildChange path] else []

def mapPathKinds (paths : List Path) (buildChange : Path → FilesystemChange Path)
    (rescanForNonSource : Bool) : EventBatch Path where
  changes := paths.flatMap fun path => pathToChange roots path buildChange
  needsRescan := paths.any fun path =>
    (pathToChange roots path buildChange).isEmpty && rescanForNonSource &&
      pathWithinAnyRoot path roots

/-- A rescan if one of the paths is below a root. -/
def rescanWithin (paths : List Path) : EventBatch Path :=
  ⟨[], paths.any fun path => pathWithinAnyRoot path roots⟩

def mapRenameEvent (paths : List Path) : RenameMode → EventBatch Path
  | .bothMode => match paths with
    | source :: target :: _ =>
      let changes := pathToChange roots source remove ++ pathToChange roots target upsert
      ⟨changes, changes.isEmpty &&
        (pathWithinAnyRoot source roots || pathWithinAnyRoot target roots)⟩
    | _ => rescanWithin roots paths
  | .fromMode => mapPathKinds roots paths remove true
  | .toMode => mapPathKinds roots paths upsert false
  | .anyMode | .otherMode => rescanWithin roots paths

def mapNotifyEvent (event : Event) : EventBatch Path :=
  match event.kind with
  | .create => mapPathKinds roots event.paths upsert false
  | .modifyName mode => mapRenameEvent roots event.paths mode
  | .modify => mapPathKinds roots event.paths upsert false
  | .remove => mapPathKinds roots event.paths remove true
  | .access => ⟨[], false⟩
  | .any | .other => rescanWithin roots event.paths

/-- An event that asks for a rescan itself is not looked at any further. -/
def collectEventBatch (events : List Event) : EventBatch Path :=
  let mapped := (events.filter fun event => !event.needRescan).map (mapNotifyEvent roots)
  ⟨Dedup.dedupBy id [] (mapped.flatMap EventBatch.changes),
    events.any Event.needRescan || mapped.any EventBatch.needsRescan⟩

/-! ## Coverage -/

section Coverage

variable {Content : Type}

/-- A source file that differs after the event, at or below a path of the event inside a root. -/
def Affected (event : Event) (before after : Path → Option Content) (file : Path) : Prop :=
  isSourcePath roots file ∧ before file ≠ after file ∧
    ∃ path ∈ event.paths, pathWithinAnyRoot path roots ∧ startsWith file path

/-- The batch has a change for every source file that is affected, or asks for a rescan. -/
def Covers (batch : EventBatch Path) (event : Event) (before after : Path → Option Content) : Prop :=
  batch.needsRescan = true ∨
    ∀ file, Affected roots event before after file → ∃ change ∈ batch.changes, change.path = file

/-- The paths that an event can make a change for. -/
def Event.namedPaths (event : Event) : List Path :=
  match event.kind with
  | .create | .modify | .remove | .modifyName .fromMode | .modifyName .toMode => event.paths
  | .modifyName .bothMode => if 2 ≤ event.paths.length then event.paths.take 2 else []
  | _ => []

/-- The event leads to a rescan: it says nothing about what happened, or it removes or renames a path
in a root that is no source file's. -/
def Event.Rescans (event : Event) : Prop :=
  match event.kind with
  | .any | .other | .modifyName .anyMode | .modifyName .otherMode =>
    ∃ path ∈ event.paths, pathWithinAnyRoot path roots
  | .remove | .modifyName .fromMode =>
    ∃ path ∈ event.paths, pathWithinAnyRoot path roots ∧ ¬ isSourcePath roots path
  | .modifyName .bothMode => match event.paths with
    | source :: target :: _ => ¬ isSourcePath roots source ∧ ¬ isSourcePath roots target ∧
        (pathWithinAnyRoot source roots ∨ pathWithinAnyRoot target roots)
    | paths => ∃ path ∈ paths, pathWithinAnyRoot path roots
  | _ => False

/-- Either there is a rescan or the files that are affected are named by the event itself. -/
def Event.NamesAffected (event : Event) (before after : Path → Option Content) : Prop :=
  event.needRescan = true ∨ event.Rescans roots ∨
    ∀ file, Affected roots event before after file → file ∈ event.namedPaths

variable {roots}

theorem mem_pathToChange {path : Path} {buildChange : Path → FilesystemChange Path}
    {change : FilesystemChange Path} :
    change ∈ pathToChange roots path buildChange ↔
      isSourcePath roots path = true ∧ change = buildChange path := by
  rw [pathToChange, isSourcePath]
  cases matchingRoot path roots with
  | none => simp
  | some root =>
    simp only [Option.any_some]
    split
    · simp_all
    · simp_all

theorem pathToChange_isEmpty {path : Path} {buildChange : Path → FilesystemChange Path} :
    (pathToChange roots path buildChange).isEmpty = !isSourcePath roots path := by
  rw [pathToChange, isSourcePath]
  cases matchingRoot path roots with
  | none => rfl
  | some root =>
    simp only [Option.any_some]
    split
    · simp_all
    · simp_all

theorem exists_mapPathKinds_change {paths : List Path} {kind : FilesystemChangeKind}
    {rescanForNonSource : Bool} {file : Path} :
    (∃ change ∈ (mapPathKinds roots paths (fun path => ⟨path, kind⟩) rescanForNonSource).changes,
        change.path = file) ↔ isSourcePath roots file = true ∧ file ∈ paths := by
  simp only [mapPathKinds, List.mem_flatMap, mem_pathToChange]
  constructor
  · rintro ⟨change, ⟨path, hpath, hsource, rfl⟩, rfl⟩
    exact ⟨hsource, hpath⟩
  · rintro ⟨hsource, hpath⟩
    exact ⟨_, ⟨file, hpath, hsource, rfl⟩, rfl⟩

theorem mapPathKinds_rescan_iff {paths : List Path} {buildChange : Path → FilesystemChange Path} :
    (mapPathKinds roots paths buildChange true).needsRescan = true ↔
      ∃ path ∈ paths, pathWithinAnyRoot path roots ∧ ¬ isSourcePath roots path := by
  simp [mapPathKinds, pathToChange_isEmpty, and_comm]

theorem mapPathKinds_no_rescan (paths : List Path) (buildChange : Path → FilesystemChange Path) :
    (mapPathKinds roots paths buildChange false).needsRescan = false := by
  simp [mapPathKinds]

theorem rescanWithin_iff {paths : List Path} :
    (rescanWithin roots paths).needsRescan = true ↔
      ∃ path ∈ paths, pathWithinAnyRoot path roots := by
  simp [rescanWithin]

/-! ## What one event leads to -/

theorem mapNotifyEvent_rescan_iff (event : Event) :
    (mapNotifyEvent roots event).needsRescan = true ↔ event.Rescans roots := by
  obtain ⟨kind, paths, flag⟩ := event
  cases kind with
  | any | other => exact rescanWithin_iff
  | access => simp [mapNotifyEvent, Event.Rescans]
  | create | modify => simp [mapNotifyEvent, Event.Rescans, mapPathKinds_no_rescan]
  | remove => exact mapPathKinds_rescan_iff
  | modifyName mode =>
    cases mode with
    | anyMode | otherMode => exact rescanWithin_iff
    | fromMode => exact mapPathKinds_rescan_iff
    | toMode => simp [mapNotifyEvent, mapRenameEvent, Event.Rescans, mapPathKinds_no_rescan]
    | bothMode => match paths with
      | [] | [_] => exact rescanWithin_iff
      | source :: target :: _ =>
        have hempty : (pathToChange roots source remove ++ pathToChange roots target upsert).isEmpty =
            (!isSourcePath roots source && !isSourcePath roots target) := by
          rw [← @pathToChange_isEmpty roots source remove,
            ← @pathToChange_isEmpty roots target upsert]
          cases pathToChange roots source remove with
          | nil => rfl
          | cons change changes => rfl
        simp [mapNotifyEvent, mapRenameEvent, Event.Rescans, hempty, and_assoc]

theorem mapNotifyEvent_change_iff (event : Event) (file : Path) :
    (∃ change ∈ (mapNotifyEvent roots event).changes, change.path = file) ↔
      isSourcePath roots file = true ∧ file ∈ event.namedPaths := by
  obtain ⟨kind, paths, flag⟩ := event
  cases kind with
  | any | other | access => simp [mapNotifyEvent, rescanWithin, Event.namedPaths]
  | create | modify | remove => exact exists_mapPathKinds_change
  | modifyName mode =>
    cases mode with
    | anyMode | otherMode =>
      simp [mapNotifyEvent, mapRenameEvent, rescanWithin, Event.namedPaths]
    | fromMode | toMode => exact exists_mapPathKinds_change
    | bothMode => match paths with
      | [] | [_] => simp [mapNotifyEvent, mapRenameEvent, rescanWithin, Event.namedPaths]
      | source :: target :: _ =>
        simp only [mapNotifyEvent, mapRenameEvent, List.mem_append, mem_pathToChange]
        constructor
        · rintro ⟨change, ⟨hsource, rfl⟩ | ⟨hsource, rfl⟩, rfl⟩
          · exact ⟨hsource, by simp [Event.namedPaths, remove]⟩
          · exact ⟨hsource, by simp [Event.namedPaths, upsert]⟩
        · rintro ⟨hsource, hnamed⟩
          have hpaths : file = source ∨ file = target := by simpa [Event.namedPaths] using hnamed
          rcases hpaths with rfl | rfl
          · exact ⟨_, .inl ⟨hsource, rfl⟩, rfl⟩
          · exact ⟨_, .inr ⟨hsource, rfl⟩, rfl⟩

/-! ## Batches -/

theorem mem_collectEventBatch {events : List Event} {change : FilesystemChange Path} :
    change ∈ (collectEventBatch roots events).changes ↔
      ∃ event ∈ events, event.needRescan = false ∧
        change ∈ (mapNotifyEvent roots event).changes := by
  simp [collectEventBatch, Dedup.mem_dedupBy_id, and_assoc]

theorem collectEventBatch_rescan_iff {events : List Event} :
    (collectEventBatch roots events).needsRescan = true ↔
      ∃ event ∈ events, event.needRescan = true ∨ event.Rescans roots := by
  simp only [collectEventBatch, Bool.or_eq_true, List.any_eq_true, List.mem_map, List.mem_filter,
    Bool.not_eq_true', ← mapNotifyEvent_rescan_iff]
  constructor
  · rintro (⟨event, hevent, hflag⟩ | ⟨_, ⟨event, ⟨hevent, -⟩, rfl⟩, hrescan⟩)
    · exact ⟨event, hevent, .inl hflag⟩
    · exact ⟨event, hevent, .inr hrescan⟩
  · rintro ⟨event, hevent, hcases⟩
    by_cases hflag : event.needRescan = true
    · exact .inl ⟨event, hevent, hflag⟩
    · exact .inr ⟨_, ⟨event, ⟨hevent, Bool.not_eq_true _ ▸ hflag⟩, rfl⟩,
        hcases.resolve_left hflag⟩

theorem covers_of_namesAffected {events : List Event} {event : Event} (hevent : event ∈ events)
    {before after : Path → Option Content} (h : event.NamesAffected roots before after) :
    Covers roots (collectEventBatch roots events) event before after := by
  by_cases hrescan : (collectEventBatch roots events).needsRescan = true
  · exact .inl hrescan
  rw [collectEventBatch_rescan_iff] at hrescan
  push Not at hrescan
  obtain ⟨hflag, hquiet⟩ := hrescan event hevent
  have hnamed := (h.resolve_left hflag).resolve_left hquiet
  refine .inr fun file hfile => ?_
  obtain ⟨change, hchange, hpath⟩ :=
    (mapNotifyEvent_change_iff event file).mpr ⟨hfile.1, hnamed file hfile⟩
  exact ⟨change, mem_collectEventBatch.mpr
    ⟨event, hevent, Bool.not_eq_true _ ▸ hflag, hchange⟩, hpath⟩

/-- Every batch with an event covers what the event affected exactly where the event leads to a rescan
or names each of the files. -/
theorem batches_cover_iff (roots : List WatchedSourceRoot) (event : Event)
    (before after : Path → Option Content) :
    (∀ events, event ∈ events →
        Covers roots (collectEventBatch roots events) event before after) ↔
      event.NamesAffected roots before after := by
  refine ⟨fun h => ?_, fun h events hevent => covers_of_namesAffected hevent h⟩
  rcases h [event] List.mem_cons_self with hrescan | hchanges
  · obtain ⟨other, hother, hcases⟩ := collectEventBatch_rescan_iff.mp hrescan
    obtain rfl := List.mem_singleton.mp hother
    exact hcases.elim .inl fun h => .inr (.inl h)
  · refine .inr (.inr fun file hfile => ?_)
    obtain ⟨change, hchange, hpath⟩ := hchanges file hfile
    obtain ⟨other, hother, -, hmapped⟩ := mem_collectEventBatch.mp hchange
    obtain rfl := List.mem_singleton.mp hother
    exact ((mapNotifyEvent_change_iff other file).mp ⟨change, hmapped, hpath⟩).2

/-- A directory with a source file is moved into a watched root. -/
def movedDirectory : Event :=
  ⟨.modifyName .toMode, [["w", "src", "com"]], false⟩

def movedFile (path : Path) : Option String :=
  if path = ["w", "src", "com", "A.java"] then some "class A {}" else none

/-- Its file is new, and the batch is empty. -/
theorem moved_directory_uncovered :
    Affected [⟨["w", "src"], .default⟩] movedDirectory (fun _ => none) movedFile
        ["w", "src", "com", "A.java"] ∧
      collectEventBatch [⟨["w", "src"], .default⟩] [movedDirectory] = ⟨[], false⟩ ∧
      ¬ Covers [⟨["w", "src"], .default⟩]
        (collectEventBatch [⟨["w", "src"], .default⟩] [movedDirectory]) movedDirectory
        (fun _ => none) movedFile := by
  have hbatch : collectEventBatch [⟨["w", "src"], .default⟩] [movedDirectory] = ⟨[], false⟩ := by
    decide +kernel
  have haffected : Affected [⟨["w", "src"], .default⟩] movedDirectory (fun _ => none) movedFile
      ["w", "src", "com", "A.java"] := by
    refine ⟨by decide +kernel, by decide +kernel, ["w", "src", "com"], ?_⟩
    exact ⟨List.mem_singleton_self _, by decide +kernel, by decide +kernel⟩
  refine ⟨haffected, hbatch, ?_⟩
  rw [hbatch]
  rintro (hrescan | hchanges)
  · cases hrescan
  · obtain ⟨change, hchange, -⟩ := hchanges _ haffected
    cases hchange

end Coverage

end WatchEvents

end JavaAnalyzer.Workspace
