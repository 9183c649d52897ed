import JavaAnalyzer.Library.Dedup

/-! # Filesystem changes

`apply_filesystem_changes_blocking` and `rescan_watched_roots_blocking` of `workspace.rs`, on what they
keep of the source files below the watched roots: the text that each file was indexed with and the set
of tracked files. Removals are made before upserts, and an upsert reads the disk. A file that cannot be
read as text stops the call. No file is open in the editor here. -/

namespace JavaAnalyzer.Workspace
set_option autoImplicit false

inductive FilesystemChangeKind where
  | upsert
  | remove
deriving DecidableEq, Repr

structure FilesystemChange (Path : Type) where
  path : Path
  kind : FilesystemChangeKind
deriving DecidableEq, Repr

/-- What `read_to_string` meets at a path. -/
inductive DiskFile (Content : Type) where
  | text (content : Content)
  | unreadable
deriving DecidableEq, Repr

section

variable {Path Content : Type} [LinearOrder Path]

/-- The source files on the disk. -/
abbrev Disk (Path Content : Type) := AList (fun _ : Path => DiskFile Content)

/-- The text of a file that can be read. -/
def Disk.textOf (disk : Disk Path Content) (path : Path) : Option Content :=
  match disk.lookup path with
  | some (.text content) => some content
  | _ => none

/-- None of the paths is a file that cannot be read. -/
def Disk.Readable (disk : Disk Path Content) (paths : List Path) : Prop :=
  ∀ path ∈ paths, disk.lookup path ≠ some .unreadable

/-- What is published of the source files, and which of them are tracked. -/
structure IndexedFiles (Path Content : Type) where
  published : AList (fun _ : Path => Content)
  tracked : List Path

namespace IndexedFiles

def new : IndexedFiles Path Content :=
  ⟨∅, []⟩

variable (files : IndexedFiles Path Content) (disk : Disk Path Content)

/-! ## Applying changes -/

/-- `remove_disk_source_path_blocking`. -/
def removePath (path : Path) : IndexedFiles Path Content :=
  ⟨files.published.erase path, files.tracked.filter (· ≠ path)⟩

def publishPath (path : Path) (content : Content) : IndexedFiles Path Content :=
  ⟨files.published.insert path content, path :: files.tracked.filter (· ≠ path)⟩

/-- `upsert_disk_source_path_blocking`, which fails on a file that it cannot read. -/
def upsertPath (path : Path) : Option (IndexedFiles Path Content) :=
  match disk.lookup path with
  | none => some (files.removePath path)
  | some (.text content) => some (files.publishPath path content)
  | some .unreadable => none

/-- The upserts up to the first that fails, and whether none does. -/
def upsertPaths (disk : Disk Path Content) :
    IndexedFiles Path Content → List Path → IndexedFiles Path Content × Bool
  | files, [] => (files, true)
  | files, path :: paths => match files.upsertPath disk path with
    | some files => upsertPaths disk files paths
    | none => (files, false)

/-- The paths of one kind of change, sorted and without repetitions. -/
def sortedPaths (kind : FilesystemChangeKind) (changes : List (FilesystemChange Path)) :
    List Path :=
  (((changes.filter fun change => change.kind = kind).map FilesystemChange.path).insertionSort
    (· ≤ ·)).dedup

def applyFilesystemChanges (changes : List (FilesystemChange Path)) :
    IndexedFiles Path Content × Bool :=
  upsertPaths disk ((sortedPaths .remove changes).foldl removePath files)
    (sortedPaths .upsert changes)

/-- The changes that bring the index to what is on the disk. -/
def rescanChanges : List (FilesystemChange Path) :=
  ((files.tracked.filter fun path => path ∉ disk).map fun path => ⟨path, .remove⟩) ++
    disk.keys.map fun path => ⟨path, .upsert⟩

def rescanWatchedRoots : IndexedFiles Path Content × Bool :=
  files.applyFilesystemChanges disk (files.rescanChanges disk)

/-- `load_source_inputs` over all files: those that cannot be read are left out. -/
def scan : IndexedFiles Path Content :=
  disk.keys.foldl (fun files path => (files.upsertPath disk path).getD files) new

/-! ## What is published -/

/-- Every file that is published is tracked. -/
def Tracks : Prop :=
  ∀ path, files.published.lookup path ≠ none → path ∈ files.tracked

variable {files disk}

theorem textOf_of_absent {path : Path} (h : disk.lookup path = none) : disk.textOf path = none := by
  rw [Disk.textOf, h]

theorem tracks_new : (new : IndexedFiles Path Content).Tracks :=
  fun _ h => absurd rfl h

theorem Tracks.removePath (h : files.Tracks) (path : Path) : (files.removePath path).Tracks := by
  intro other hother
  by_cases heq : other = path
  · subst heq
    exact absurd (AList.lookup_erase other files.published) hother
  · have hold := h other (by rwa [IndexedFiles.removePath, AList.lookup_erase_ne heq] at hother)
    exact List.mem_filter.mpr ⟨hold, by simpa using heq⟩

theorem Tracks.publishPath (h : files.Tracks) (path : Path) (content : Content) :
    (files.publishPath path content).Tracks := by
  intro other hother
  by_cases heq : other = path
  · subst heq
    exact List.mem_cons_self ..
  · have hold := h other (by rwa [IndexedFiles.publishPath, AList.lookup_insert_ne heq] at hother)
    exact List.mem_cons_of_mem _ (List.mem_filter.mpr ⟨hold, by simpa using heq⟩)

theorem Tracks.upsertPath (h : files.Tracks) {path : Path} {files' : IndexedFiles Path Content}
    (hnext : files.upsertPath disk path = some files') : files'.Tracks := by
  unfold IndexedFiles.upsertPath at hnext
  split at hnext
  · cases hnext
    exact h.removePath path
  · cases hnext
    exact h.publishPath path _
  · cases hnext

theorem Tracks.upsertPaths (h : files.Tracks) (paths : List Path) :
    (IndexedFiles.upsertPaths disk files paths).1.Tracks := by
  induction paths generalizing files with
  | nil => exact h
  | cons path paths ih =>
    unfold IndexedFiles.upsertPaths
    split
    · rename_i files' hnext
      exact ih (h.upsertPath hnext)
    · exact h

theorem Tracks.applyFilesystemChanges (h : files.Tracks)
    (changes : List (FilesystemChange Path)) :
    (files.applyFilesystemChanges disk changes).1.Tracks := by
  refine Tracks.upsertPaths ?_ _
  generalize sortedPaths .remove changes = removals
  induction removals generalizing files with
  | nil => exact h
  | cons path removals ih => exact ih (h.removePath path)

/-! ## What a call publishes -/

theorem lookup_foldl_removePath (paths : List Path) (path : Path) :
    (paths.foldl IndexedFiles.removePath files).published.lookup path =
      if path ∈ paths then none else files.published.lookup path := by
  induction paths generalizing files with
  | nil => simp
  | cons other paths ih =>
    rw [List.foldl_cons, ih]
    by_cases hmem : path ∈ paths
    · simp [hmem]
    · by_cases heq : path = other
      · subst heq
        simp [hmem, removePath]
      · simp [hmem, heq, removePath, AList.lookup_erase_ne heq]

variable (files) in
/-- An upsert of a file that can be read publishes what is on the disk. -/
theorem upsertPath_spec {path : Path} (hreadable : disk.lookup path ≠ some .unreadable) :
    ∃ files', files.upsertPath disk path = some files' ∧ ∀ other, files'.published.lookup other =
      if other = path then disk.textOf path else files.published.lookup other := by
  have hcases : ∀ file, disk.lookup path = file → ∃ files', files.upsertPath disk path = some files' ∧
      ∀ other, files'.published.lookup other =
        if other = path then disk.textOf path else files.published.lookup other := by
    intro file hfile
    match file with
    | none =>
      refine ⟨files.removePath path, by rw [upsertPath, hfile], fun other => ?_⟩
      by_cases heq : other = path
      · subst heq
        simp [removePath, textOf_of_absent hfile]
      · simp [removePath, heq, AList.lookup_erase_ne heq]
    | some (.text content) =>
      refine ⟨files.publishPath path content, by rw [upsertPath, hfile], fun other => ?_⟩
      by_cases heq : other = path
      · subst heq
        simp [publishPath, Disk.textOf, hfile]
      · simp [publishPath, heq, AList.lookup_insert_ne heq]
    | some .unreadable => exact absurd hfile hreadable
  exact hcases _ rfl

variable (files) in
theorem upsertPaths_spec {paths : List Path} (hreadable : disk.Readable paths) :
    (upsertPaths disk files paths).2 = true ∧ ∀ path,
      (upsertPaths disk files paths).1.published.lookup path =
        if path ∈ paths then disk.textOf path else files.published.lookup path := by
  induction paths generalizing files with
  | nil => simp [upsertPaths]
  | cons first paths ih =>
    obtain ⟨files', hnext, hlookup⟩ := upsertPath_spec files
      (hreadable first (List.mem_cons_self ..))
    have hrest := ih files' fun path hpath =>
      hreadable path (List.mem_cons_of_mem _ hpath)
    simp only [upsertPaths, hnext]
    refine ⟨hrest.1, fun path => ?_⟩
    rw [hrest.2, hlookup]
    by_cases hmem : path ∈ paths
    · simp [hmem]
    · by_cases heq : path = first
      · simp [heq]
      · simp [hmem, heq]

theorem mem_sortedPaths {kind : FilesystemChangeKind} {changes : List (FilesystemChange Path)}
    {path : Path} : path ∈ sortedPaths kind changes ↔ ⟨path, kind⟩ ∈ changes := by
  simp only [sortedPaths, List.mem_dedup, List.mem_insertionSort, List.mem_map, List.mem_filter,
    decide_eq_true_eq]
  constructor
  · intro hmem
    obtain ⟨⟨other, kind'⟩, ⟨hchange, hkind⟩, hpath⟩ := hmem
    subst hkind hpath
    exact hchange
  · intro hmem
    exact ⟨_, ⟨hmem, rfl⟩, rfl⟩

variable (files) in
/-- After the changes, upserted files are published as they are on the disk and files that were only
removed are not published. -/
theorem applyFilesystemChanges_spec {changes : List (FilesystemChange Path)}
    (hreadable : disk.Readable (sortedPaths .upsert changes)) :
    (files.applyFilesystemChanges disk changes).2 = true ∧ ∀ path,
      (files.applyFilesystemChanges disk changes).1.published.lookup path =
        if ⟨path, .upsert⟩ ∈ changes then disk.textOf path
        else if ⟨path, .remove⟩ ∈ changes then none
        else files.published.lookup path := by
  have hspec := upsertPaths_spec ((sortedPaths .remove changes).foldl removePath files) hreadable
  refine ⟨hspec.1, fun path => ?_⟩
  rw [applyFilesystemChanges, hspec.2, lookup_foldl_removePath]
  simp only [mem_sortedPaths]

theorem mem_rescanChanges_upsert {path : Path} :
    ⟨path, .upsert⟩ ∈ files.rescanChanges disk ↔ path ∈ disk := by
  simp [rescanChanges, AList.mem_keys]

theorem mem_rescanChanges_remove {path : Path} :
    ⟨path, .remove⟩ ∈ files.rescanChanges disk ↔ path ∈ files.tracked ∧ path ∉ disk := by
  simp [rescanChanges]

theorem rescanWatchedRoots_spec (htracks : files.Tracks) (hreadable : disk.Readable disk.keys) :
    (files.rescanWatchedRoots disk).2 = true ∧ ∀ path,
      (files.rescanWatchedRoots disk).1.published.lookup path = disk.textOf path := by
  have hupserts : disk.Readable (sortedPaths .upsert (files.rescanChanges disk)) := fun path hpath =>
    hreadable path (AList.mem_keys.mp (mem_rescanChanges_upsert.mp (mem_sortedPaths.mp hpath)))
  have hspec := applyFilesystemChanges_spec files hupserts
  refine ⟨hspec.1, fun path => ?_⟩
  rw [rescanWatchedRoots, hspec.2]
  simp only [mem_rescanChanges_upsert, mem_rescanChanges_remove]
  by_cases hdisk : path ∈ disk
  · rw [if_pos hdisk]
  · have habsent : disk.lookup path = none := AList.lookup_eq_none.mpr hdisk
    rw [if_neg hdisk, textOf_of_absent habsent]
    by_cases htracked : path ∈ files.tracked
    · rw [if_pos ⟨htracked, hdisk⟩]
    · rw [if_neg fun h => htracked h.1]
      by_contra hpublished
      exact htracked (htracks path hpublished)

/-! ## The scan -/

theorem scanPath_spec {path : Path} (htracks : files.Tracks)
    (hfiles : files.published.lookup path = none ∨
      files.published.lookup path = disk.textOf path) :
    ((files.upsertPath disk path).getD files).Tracks ∧ ∀ other,
      ((files.upsertPath disk path).getD files).published.lookup other =
        if other = path then disk.textOf path else files.published.lookup other := by
  by_cases hreadable : disk.lookup path = some .unreadable
  · have hnone : disk.textOf path = none := by rw [Disk.textOf, hreadable]
    rw [upsertPath, hreadable]
    refine ⟨htracks, fun other => ?_⟩
    by_cases heq : other = path
    · subst heq
      rw [if_pos rfl, hnone]
      rw [hnone, or_self] at hfiles
      exact hfiles
    · rw [if_neg heq]
      rfl
  · obtain ⟨files', hnext, hlookup⟩ := upsertPath_spec files hreadable
    rw [hnext]
    exact ⟨htracks.upsertPath hnext, hlookup⟩

theorem scan_foldl (paths : List Path) (htracks : files.Tracks)
    (hfiles : ∀ path, files.published.lookup path = none ∨
      files.published.lookup path = disk.textOf path) :
    (paths.foldl (fun files path => (files.upsertPath disk path).getD files) files).Tracks ∧
      ∀ path, (paths.foldl (fun files path => (files.upsertPath disk path).getD files)
        files).published.lookup path =
          if path ∈ paths then disk.textOf path else files.published.lookup path := by
  induction paths generalizing files with
  | nil => simpa using htracks
  | cons first paths ih =>
    obtain ⟨htracks', hlookup⟩ := scanPath_spec htracks (hfiles first)
    have hrest := ih htracks' fun path => by
      rw [hlookup]
      by_cases heq : path = first
      · rw [if_pos heq, heq]
        exact .inr rfl
      · rw [if_neg heq]
        exact hfiles path
    refine ⟨hrest.1, fun path => ?_⟩
    rw [List.foldl_cons, hrest.2, hlookup]
    by_cases hmem : path ∈ paths
    · simp [hmem]
    · by_cases heq : path = first
      · simp [heq]
      · simp [hmem, heq]

theorem scan_spec (disk : Disk Path Content) :
    (scan disk).Tracks ∧ ∀ path, (scan disk).published.lookup path = disk.textOf path := by
  have hnew : ∀ path, (new : IndexedFiles Path Content).published.lookup path = none ∨
      (new : IndexedFiles Path Content).published.lookup path = disk.textOf path := fun _ => .inl rfl
  obtain ⟨htracks, hlookup⟩ := scan_foldl disk.keys tracks_new hnew
  refine ⟨htracks, fun path => ?_⟩
  rw [scan, hlookup]
  by_cases hmem : path ∈ disk.keys
  · rw [if_pos hmem]
  · rw [if_neg hmem, textOf_of_absent (AList.lookup_eq_none.mpr fun h => hmem (AList.mem_keys.mp h))]
    rfl

end IndexedFiles
end
end JavaAnalyzer.Workspace
