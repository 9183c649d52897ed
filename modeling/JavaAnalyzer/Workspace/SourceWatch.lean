import JavaAnalyzer.Library.Interleaving
import JavaAnalyzer.Workspace.FilesystemChange

/-! # The source watcher

`fs_watcher.rs` beside the full reindexes of `workspace.rs`. A change of the disk leaves an event for its
file; events are delivered in batches, those of one file in order; the watcher takes one batch after the
other. For a batch it waits until no full reindex is active, reads the reindex serial, applies the batch
and rescans if the serial has moved. A full reindex counts itself, scans the disk and replaces what is
published. The counters are unbounded here. -/

namespace JavaAnalyzer.Workspace
set_option autoImplicit false
open Interleaving

namespace SourceWatch

variable {Path Content : Type} [LinearOrder Path]

structure EventBatch (Path : Type) where
  changes : List (FilesystemChange Path)
  needsRescan : Bool
deriving DecidableEq, Repr

/-- `collect_event_batch`. -/
def EventBatch.collect (events : List (FilesystemChange Path)) (needsRescan : Bool) :
    EventBatch Path :=
  ⟨Dedup.dedupBy id [] events, needsRescan⟩

def EventBatch.touches (batch : EventBatch Path) (path : Path) : Bool :=
  batch.changes.any fun change => change.path = path

/-- Where `run_notify_loop` is. -/
inductive Watcher (Path : Type) where
  | idle
  | waiting (batch : EventBatch Path)
  | waited (batch : EventBatch Path)
  | serialRead (batch : EventBatch Path) (serial : ℕ)
  | applied (serial : ℕ)
  | rescanWaiting
  | rescanWaited
deriving DecidableEq, Repr

/-- Where a full reindex is. -/
inductive Reindex (Path Content : Type) where
  | absent
  | begun
  | scanned (files : IndexedFiles Path Content)
  | replaced
  | ended

def Reindex.Active : Reindex Path Content → Prop
  | .begun | .scanned _ | .replaced => True
  | .absent | .ended => False

structure State (Path Content : Type) where
  disk : Disk Path Content
  /-- The events of each file that are not yet delivered, the oldest first. -/
  undelivered : Path → List FilesystemChangeKind
  queue : List (EventBatch Path)
  watcher : Watcher Path
  index : IndexedFiles Path Content
  fullReindexInProgress : ℕ
  fullReindexSerial : ℕ
  reindexes : ℕ → Reindex Path Content
  /-- The files of which an event was delivered. Only the statements below read it. -/
  delivered : List Path

inductive Action (Path Content : Type) where
  | write (path : Path) (file : DiskFile Content)
  | delete (path : Path)
  | deliver (events : List (FilesystemChange Path)) (needsRescan : Bool)
  | take
  | wait
  | readSerial
  | apply
  | compareSerial
  | rescan
  | beginReindex (reindex : ℕ)
  | scan (reindex : ℕ)
  | replace (reindex : ℕ)
  | endReindex (reindex : ℕ)

/-- The events of one file. -/
def kindsOf (path : Path) (events : List (FilesystemChange Path)) : List FilesystemChangeKind :=
  (events.filter fun event => event.path = path).map FilesystemChange.kind

namespace State

def start (disk : Disk Path Content) : State Path Content :=
  ⟨disk, fun _ => [], [], .idle, .new, 0, 0, fun _ => .absent, []⟩

variable (s : State Path Content)

/-! ## Steps of the disk -/

def pushEvent (path : Path) (kind : FilesystemChangeKind) : State Path Content :=
  { s with undelivered := Function.update s.undelivered path (s.undelivered path ++ [kind]) }

def write (path : Path) (file : DiskFile Content) : Option (State Path Content) :=
  some ({ s with disk := s.disk.insert path file }.pushEvent path .upsert)

def delete (path : Path) : Option (State Path Content) :=
  if path ∈ s.disk then some ({ s with disk := s.disk.erase path }.pushEvent path .remove) else none

def handOver (events : List (FilesystemChange Path)) (needsRescan : Bool) : State Path Content :=
  { s with
    undelivered := fun path => (s.undelivered path).drop (kindsOf path events).length
    queue := s.queue ++ [.collect events needsRescan]
    delivered := events.map FilesystemChange.path ++ s.delivered }

/-- The oldest events of some files are handed to the watcher. -/
def deliver (events : List (FilesystemChange Path)) (needsRescan : Bool) :
    Option (State Path Content) :=
  if events.all fun event => (kindsOf event.path events).isPrefixOf (s.undelivered event.path) then
    some (s.handOver events needsRescan)
  else none

/-! ## Steps of the watcher -/

/-- `handle_debounced_events`, which leaves a batch without changes. -/
def take : Option (State Path Content) :=
  match s.watcher, s.queue with
  | .idle, batch :: queue =>
    if batch.changes.isEmpty && !batch.needsRescan then some { s with queue := queue }
    else some { s with queue := queue, watcher := .waiting batch }
  | _, _ => none

/-- `wait_for_full_reindex` is through. -/
def wait : Option (State Path Content) :=
  if s.fullReindexInProgress = 0 then
    match s.watcher with
    | .waiting batch => some { s with watcher := .waited batch }
    | .rescanWaiting => some { s with watcher := .rescanWaited }
    | _ => none
  else none

def readSerial : Option (State Path Content) :=
  match s.watcher with
  | .waited batch => some { s with watcher := .serialRead batch s.fullReindexSerial }
  | _ => none

/-- The result of the blocking call for a batch. -/
def applyBatch (batch : EventBatch Path) : IndexedFiles Path Content × Bool :=
  if batch.needsRescan then s.index.rescanWatchedRoots s.disk
  else s.index.applyFilesystemChanges s.disk batch.changes

/-- An error ends the handling of the batch. -/
def apply : Option (State Path Content) :=
  match s.watcher with
  | .serialRead batch serial => some { s with
      index := (s.applyBatch batch).1
      watcher := if (s.applyBatch batch).2 then .applied serial else .idle }
  | _ => none

def compareSerial : Option (State Path Content) :=
  match s.watcher with
  | .applied serial => some { s with
      watcher := if s.fullReindexSerial = serial then .idle else .rescanWaiting }
  | _ => none

def rescan : Option (State Path Content) :=
  match s.watcher with
  | .rescanWaited => some { s with
      index := (s.index.rescanWatchedRoots s.disk).1, watcher := .idle }
  | _ => none

/-! ## Steps of a full reindex -/

def setReindex (reindex : ℕ) (phase : Reindex Path Content) : State Path Content :=
  { s with reindexes := Function.update s.reindexes reindex phase }

def beginReindex (reindex : ℕ) : Option (State Path Content) :=
  match s.reindexes reindex with
  | .absent => some ({ s with
      fullReindexInProgress := s.fullReindexInProgress + 1
      fullReindexSerial := s.fullReindexSerial + 1 }.setReindex reindex .begun)
  | _ => none

def scan (reindex : ℕ) : Option (State Path Content) :=
  match s.reindexes reindex with
  | .begun => some (s.setReindex reindex (.scanned (.scan s.disk)))
  | _ => none

def replace (reindex : ℕ) : Option (State Path Content) :=
  match s.reindexes reindex with
  | .scanned files => some ({ s with index := files }.setReindex reindex .replaced)
  | _ => none

/-- The guard is dropped, after the index was replaced or when the reindex has failed. -/
def endReindex (reindex : ℕ) : Option (State Path Content) :=
  match s.reindexes reindex with
  | .absent | .ended => none
  | _ => some ({ s with
      fullReindexInProgress := s.fullReindexInProgress - 1
      fullReindexSerial := s.fullReindexSerial + 1 }.setReindex reindex .ended)

def step : Action Path Content → Option (State Path Content)
  | .write path file => s.write path file
  | .delete path => s.delete path
  | .deliver events needsRescan => s.deliver events needsRescan
  | .take => s.take
  | .wait => s.wait
  | .readSerial => s.readSerial
  | .apply => s.apply
  | .compareSerial => s.compareSerial
  | .rescan => s.rescan
  | .beginReindex reindex => s.beginReindex reindex
  | .scan reindex => s.scan reindex
  | .replace reindex => s.replace reindex
  | .endReindex reindex => s.endReindex reindex

/-! ## What is claimed of a state -/

/-- No batch is left and no full reindex is active. -/
structure Finished : Prop where
  watcher : s.watcher = .idle
  queue : s.queue = []
  reindexes : ∀ reindex, ¬ (s.reindexes reindex).Active

/-- The files whose changes were delivered are published as they are on the disk. -/
def NothingLost : Prop :=
  ∀ path ∈ s.delivered, s.undelivered path = [] →
    s.index.published.lookup path = s.disk.textOf path

/-- The files that the watcher is about to read can be read as text. -/
def ReadsText : Action Path Content → Prop
  | .apply => ∀ batch serial, s.watcher = .serialRead batch serial →
      s.disk.Readable (if batch.needsRescan then s.disk.keys
        else IndexedFiles.sortedPaths .upsert batch.changes)
  | .rescan => s.disk.Readable s.disk.keys
  | _ => True

/-! ## The invariant -/

/-- The batches whose full reindexes are not yet waited for, the oldest first. -/
def ahead : List (EventBatch Path) :=
  match s.watcher with
  | .waiting batch => batch :: s.queue
  | _ => s.queue

/-- The batch that is to be applied next. -/
def held : Option (EventBatch Path) :=
  match s.watcher with
  | .waited batch | .serialRead batch _ => some batch
  | _ => none

/-- No event of the file is on its way to the watcher. -/
def Settled (path : Path) : Prop :=
  s.undelivered path = [] ∧ ∀ batch ∈ s.ahead, batch.touches path = false

/-- The latest batch with an event of the file that is not yet applied. -/
def lastBatch (path : Path) : Option (EventBatch Path) :=
  (s.held.toList ++ s.ahead).reverse.find? fun batch => batch.touches path

structure Invariant : Prop where
  counted : ∃ active : Finset ℕ, s.fullReindexInProgress = active.card ∧
    ∀ reindex, reindex ∈ active ↔ (s.reindexes reindex).Active
  tracks : s.index.Tracks
  scanned_tracks : ∀ reindex files, s.reindexes reindex = .scanned files → files.Tracks
  scanned : ∀ reindex files, s.reindexes reindex = .scanned files → ∀ path ∈ s.delivered,
    s.Settled path → files.published.lookup path = s.disk.textOf path
  published : ∀ path ∈ s.delivered, s.Settled path →
    (∀ batch, s.held = some batch → batch.touches path = false) →
      s.index.published.lookup path = s.disk.textOf path
  last_event : ∀ path ∈ s.disk, s.undelivered path ≠ [] →
    (s.undelivered path).getLast? = some .upsert
  last_batch : ∀ path ∈ s.disk, s.undelivered path = [] → ∀ batch, s.lastBatch path = some batch →
    ⟨path, .upsert⟩ ∈ batch.changes

variable {s} {next : State Path Content}

theorem invariant_start (disk : Disk Path Content) : (start disk).Invariant where
  counted := ⟨∅, rfl, fun _ => ⟨fun h => absurd h (Finset.notMem_empty _), False.elim⟩⟩
  tracks := IndexedFiles.tracks_new
  scanned_tracks _ _ h := by cases h
  scanned _ _ h := by cases h
  published _ h := by cases h
  last_event _ _ h := absurd rfl h
  last_batch _ _ _ _ h := by cases h

/-! ## The disk changes -/

theorem settled_pushEvent {path other : Path} {kind : FilesystemChangeKind}
    (h : (s.pushEvent path kind).Settled other) : other ≠ path ∧ s.Settled other := by
  have hne : other ≠ path := by
    intro heq
    have hempty := h.1
    simp [pushEvent, heq] at hempty
  refine ⟨hne, ?_, h.2⟩
  simpa [pushEvent, hne] using h.1

/-- One file changes, and its new event tells if it is there. -/
theorem Invariant.changeDisk (h : s.Invariant) {disk : Disk Path Content} {path : Path}
    {kind : FilesystemChangeKind}
    (hothers : ∀ other, other ≠ path → disk.lookup other = s.disk.lookup other)
    (hkind : path ∈ disk → kind = .upsert) :
    ({ s with disk := disk }.pushEvent path kind).Invariant := by
  have htext : ∀ other, other ≠ path → disk.textOf other = s.disk.textOf other := by
    intro other hne
    rw [Disk.textOf, hothers other hne]
    rfl
  have hmem : ∀ other, other ≠ path → other ∈ disk → other ∈ s.disk := by
    intro other hne hdisk
    rw [← AList.lookup_isSome] at hdisk ⊢
    rwa [← hothers other hne]
  refine ⟨h.counted, h.tracks, h.scanned_tracks, ?_, ?_, ?_, ?_⟩
  · intro reindex files hfiles other hother hsettled
    obtain ⟨hne, hsettled⟩ := settled_pushEvent hsettled
    exact (h.scanned reindex files hfiles other hother hsettled).trans (htext other hne).symm
  · intro other hother hsettled hheld
    obtain ⟨hne, hsettled⟩ := settled_pushEvent hsettled
    exact (h.published other hother hsettled hheld).trans (htext other hne).symm
  · intro other hdisk hundelivered
    by_cases heq : other = path
    · subst heq
      simp [pushEvent, hkind hdisk]
    · have hold := h.last_event other (hmem other heq hdisk)
      simp only [pushEvent, Function.update_of_ne heq] at hundelivered ⊢
      exact hold hundelivered
  · intro other hdisk hundelivered batch hbatch
    by_cases heq : other = path
    · subst heq
      simp [pushEvent] at hundelivered
    · simp only [pushEvent, Function.update_of_ne heq] at hundelivered
      exact h.last_batch other (hmem other heq hdisk) hundelivered batch hbatch

theorem Invariant.write (h : s.Invariant) {path : Path} {file : DiskFile Content}
    (hnext : s.write path file = some next) : next.Invariant := by
  cases hnext
  exact h.changeDisk (fun other hne => AList.lookup_insert_ne hne) fun _ => rfl

theorem Invariant.delete (h : s.Invariant) {path : Path} (hnext : s.delete path = some next) :
    next.Invariant := by
  unfold State.delete at hnext
  split at hnext
  · cases hnext
    refine h.changeDisk (fun other hne => AList.lookup_erase_ne hne) fun hmem => ?_
    exact absurd hmem (by rw [AList.mem_erase]; exact fun herase => herase.1 rfl)
  · cases hnext

/-! ## Events are delivered -/

theorem mem_kindsOf {path : Path} {kind : FilesystemChangeKind}
    {events : List (FilesystemChange Path)} : kind ∈ kindsOf path events ↔ ⟨path, kind⟩ ∈ events := by
  simp only [kindsOf, List.mem_map, List.mem_filter, decide_eq_true_eq]
  constructor
  · intro h
    obtain ⟨⟨other, kind'⟩, ⟨hmem, hpath⟩, hkind⟩ := h
    subst hpath hkind
    exact hmem
  · intro h
    exact ⟨_, ⟨h, rfl⟩, rfl⟩

theorem touches_iff {batch : EventBatch Path} {path : Path} :
    batch.touches path = true ↔ ∃ kind, ⟨path, kind⟩ ∈ batch.changes := by
  simp only [EventBatch.touches, List.any_eq_true, decide_eq_true_eq]
  constructor
  · intro h
    obtain ⟨⟨other, kind⟩, hmem, hpath⟩ := h
    subst hpath
    exact ⟨kind, hmem⟩
  · intro h
    obtain ⟨kind, hmem⟩ := h
    exact ⟨_, hmem, rfl⟩

theorem mem_collect {events : List (FilesystemChange Path)} {needsRescan : Bool}
    {change : FilesystemChange Path} :
    change ∈ (EventBatch.collect events needsRescan).changes ↔ change ∈ events :=
  Dedup.mem_dedupBy_id

theorem collect_touches_eq_false {events : List (FilesystemChange Path)} {needsRescan : Bool}
    {path : Path} (h : (EventBatch.collect events needsRescan).touches path = false) :
    kindsOf path events = [] := by
  rw [List.eq_nil_iff_forall_not_mem]
  intro kind hkind
  have htouches : (EventBatch.collect events needsRescan).touches path = true :=
    touches_iff.mpr ⟨kind, mem_collect.mpr (mem_kindsOf.mp hkind)⟩
  rw [h] at htouches
  cases htouches

theorem kindsOf_undelivered {events : List (FilesystemChange Path)}
    (hguard : (events.all fun event =>
      (kindsOf event.path events).isPrefixOf (s.undelivered event.path)) = true) (path : Path) :
    kindsOf path events <+: s.undelivered path := by
  by_cases hnil : kindsOf path events = []
  · rw [hnil]
    exact List.nil_prefix
  · obtain ⟨kind, hkind⟩ := List.exists_mem_of_ne_nil _ hnil
    exact List.isPrefixOf_iff_prefix.mp (List.all_eq_true.mp hguard _ (mem_kindsOf.mp hkind))

theorem ahead_handOver (events : List (FilesystemChange Path)) (needsRescan : Bool) :
    (s.handOver events needsRescan).ahead = s.ahead ++ [.collect events needsRescan] := by
  simp only [ahead, handOver]
  cases s.watcher <;> rfl

/-- A file that is settled afterwards has no event in the new batch, and was settled before. -/
theorem settled_handOver {events : List (FilesystemChange Path)} {needsRescan : Bool} {path : Path}
    (h : (s.handOver events needsRescan).Settled path) :
    s.Settled path ∧ kindsOf path events = [] := by
  obtain ⟨hempty, hahead⟩ := h
  rw [ahead_handOver] at hahead
  have hnil := collect_touches_eq_false (hahead (.collect events needsRescan)
    (List.mem_append_right _ (List.mem_singleton_self _)))
  refine ⟨⟨?_, fun batch hbatch => hahead batch (List.mem_append_left _ hbatch)⟩, hnil⟩
  simpa [handOver, hnil] using hempty

theorem delivered_handOver {events : List (FilesystemChange Path)} {needsRescan : Bool} {path : Path}
    (h : path ∈ (s.handOver events needsRescan).delivered) (hnil : kindsOf path events = []) :
    path ∈ s.delivered := by
  obtain hevent | hold := List.mem_append.mp h
  · obtain ⟨event, hmem, rfl⟩ := List.mem_map.mp hevent
    have hkind : event.kind ∈ kindsOf event.path events := mem_kindsOf.mpr hmem
    rw [hnil] at hkind
    cases hkind
  · exact hold

theorem Invariant.handOver (h : s.Invariant) {events : List (FilesystemChange Path)}
    (needsRescan : Bool) (hfront : ∀ path, kindsOf path events <+: s.undelivered path) :
    (s.handOver events needsRescan).Invariant := by
  refine ⟨h.counted, h.tracks, h.scanned_tracks, ?_, ?_, ?_, ?_⟩
  · intro reindex files hfiles path hpath hsettled
    obtain ⟨hold, hnil⟩ := settled_handOver hsettled
    exact h.scanned reindex files hfiles path (delivered_handOver hpath hnil) hold
  · intro path hpath hsettled hheld
    obtain ⟨hold, hnil⟩ := settled_handOver hsettled
    exact h.published path (delivered_handOver hpath hnil) hold hheld
  · intro path hdisk hundelivered
    simp only [State.handOver, ne_eq, List.drop_eq_nil_iff, not_le] at hundelivered
    have hne : s.undelivered path ≠ [] := by
      intro hnil
      rw [hnil] at hundelivered
      exact absurd hundelivered (Nat.not_lt_zero _)
    rw [State.handOver, List.getLast?_drop, if_neg (by omega)]
    exact h.last_event path hdisk hne
  · intro path hdisk hundelivered batch hbatch
    rw [lastBatch, ahead_handOver, ← List.append_assoc, List.reverse_concat,
      List.find?_cons] at hbatch
    simp only [State.handOver, List.drop_eq_nil_iff] at hundelivered
    split at hbatch
    · -- All events of the file are in the new batch, and the last of them is an upsert.
      rename_i htouches
      cases hbatch
      have hall : kindsOf path events = s.undelivered path :=
        (hfront path).eq_of_length_le hundelivered
      obtain ⟨kind, hkind⟩ := touches_iff.mp htouches
      have hne : s.undelivered path ≠ [] := by
        rw [← hall]
        exact List.ne_nil_of_mem (mem_kindsOf.mpr (mem_collect.mp hkind))
      have hlast := List.mem_of_getLast? (h.last_event path hdisk hne)
      rw [← hall] at hlast
      exact mem_collect.mpr (mem_kindsOf.mp hlast)
    · rename_i htouches
      have hnil := collect_touches_eq_false htouches
      rw [hnil, List.length_nil, Nat.le_zero, List.length_eq_zero_iff] at hundelivered
      exact h.last_batch path hdisk hundelivered batch hbatch

theorem Invariant.deliver (h : s.Invariant) {events : List (FilesystemChange Path)}
    {needsRescan : Bool} (hnext : s.deliver events needsRescan = some next) : next.Invariant := by
  unfold State.deliver at hnext
  split at hnext
  · rename_i hguard
    cases hnext
    exact h.handOver needsRescan (kindsOf_undelivered hguard)
  · cases hnext

/-! ## The watcher moves -/

/-- Only the bookkeeping of the watcher differs, and not in the batches that are left. -/
theorem Invariant.of_same (h : s.Invariant) (hdisk : next.disk = s.disk)
    (hundelivered : next.undelivered = s.undelivered) (hindex : next.index = s.index)
    (hprogress : next.fullReindexInProgress = s.fullReindexInProgress)
    (hreindexes : next.reindexes = s.reindexes) (hdelivered : next.delivered = s.delivered)
    (hahead : next.ahead = s.ahead) (hheld : next.held = s.held) : next.Invariant := by
  have hsettled : ∀ path, next.Settled path → s.Settled path := by
    intro path hpath
    rwa [Settled, hundelivered, hahead] at hpath
  have hlast : ∀ path, next.lastBatch path = s.lastBatch path := by
    intro path
    rw [lastBatch, hahead, hheld]
    rfl
  refine ⟨?_, ?_, ?_, ?_, ?_, ?_, ?_⟩
  · rw [hprogress, hreindexes]
    exact h.counted
  · rw [hindex]
    exact h.tracks
  · rw [hreindexes]
    exact h.scanned_tracks
  · rw [hreindexes, hdisk, hdelivered]
    intro reindex files hfiles path hpath hpathSettled
    exact h.scanned reindex files hfiles path hpath (hsettled path hpathSettled)
  · rw [hindex, hdisk, hdelivered, hheld]
    intro path hpath hpathSettled
    exact h.published path hpath (hsettled path hpathSettled)
  · rw [hdisk, hundelivered]
    exact h.last_event
  · rw [hdisk, hundelivered]
    intro path
    rw [hlast]
    exact h.last_batch path

theorem lastBatch_cons {path : Path} {batch : EventBatch Path} (hempty : batch.changes = [])
    (hheld : s.held = none) (hnext : next.held = none) (hahead : s.ahead = batch :: next.ahead) :
    next.lastBatch path = s.lastBatch path := by
  have htouches : batch.touches path = false := by rw [EventBatch.touches, hempty, List.any_nil]
  rw [lastBatch, lastBatch, hheld, hnext, hahead]
  simp [htouches]

theorem Invariant.take (h : s.Invariant) (hnext : s.take = some next) : next.Invariant := by
  unfold State.take at hnext
  split at hnext
  · rename_i batch queue hwatcher hqueue
    have hahead : s.ahead = batch :: queue := by rw [ahead, hwatcher, hqueue]
    have hheld : s.held = none := by rw [held, hwatcher]
    split at hnext
    · rename_i hempty
      simp only [Bool.and_eq_true, List.isEmpty_iff] at hempty
      cases hnext
      have hnextAhead : State.ahead { s with queue := queue } = queue := by rw [ahead, hwatcher]
      have hnextHeld : State.held { s with queue := queue } = none := by rw [held, hwatcher]
      have hsettled : ∀ path, State.Settled { s with queue := queue } path → s.Settled path := by
        intro path hpath
        refine ⟨hpath.1, fun other hother => ?_⟩
        rw [hahead] at hother
        obtain heq | hold := List.mem_cons.mp hother
        · rw [heq, EventBatch.touches, hempty.1, List.any_nil]
        · exact hpath.2 other (by rwa [hnextAhead])
      refine ⟨h.counted, h.tracks, h.scanned_tracks, ?_, ?_, h.last_event, ?_⟩
      · intro reindex files hfiles path hpath hpathSettled
        exact h.scanned reindex files hfiles path hpath (hsettled path hpathSettled)
      · intro path hpath hpathSettled _
        refine h.published path hpath (hsettled path hpathSettled) fun other hother => ?_
        rw [hheld] at hother
        cases hother
      · intro path hdisk hundelivered other hother
        rw [lastBatch_cons hempty.1 hheld hnextHeld (by rw [hahead, hnextAhead])] at hother
        exact h.last_batch path hdisk hundelivered other hother
    · cases hnext
      exact h.of_same rfl rfl rfl rfl rfl rfl hahead.symm hheld.symm
  · cases hnext

theorem Invariant.not_scanned (h : s.Invariant) (hprogress : s.fullReindexInProgress = 0)
    (reindex : ℕ) (files : IndexedFiles Path Content) : s.reindexes reindex ≠ .scanned files := by
  intro hscanned
  obtain ⟨active, hcard, hactive⟩ := h.counted
  rw [hprogress] at hcard
  rw [Finset.card_eq_zero.mp hcard.symm] at hactive
  exact absurd ((hactive reindex).mpr (by rw [hscanned]; trivial)) (Finset.notMem_empty _)

theorem Invariant.wait (h : s.Invariant) (hnext : s.wait = some next) : next.Invariant := by
  unfold State.wait at hnext
  split at hnext
  · rename_i hprogress
    split at hnext
    · rename_i batch hwatcher
      cases hnext
      have hahead : s.ahead = batch :: s.queue := by rw [ahead, hwatcher]
      have hheld : s.held = none := by rw [held, hwatcher]
      refine ⟨h.counted, h.tracks, h.scanned_tracks, ?_, ?_, h.last_event, ?_⟩
      · intro reindex files hfiles
        exact absurd hfiles (h.not_scanned hprogress reindex files)
      · intro path hpath hsettled hnotHeld
        refine h.published path hpath ⟨hsettled.1, fun other hother => ?_⟩ fun other hother => ?_
        · rw [hahead] at hother
          obtain heq | hold := List.mem_cons.mp hother
          · rw [heq]
            exact hnotHeld batch rfl
          · exact hsettled.2 other hold
        · rw [hheld] at hother
          cases hother
      · intro path hdisk hundelivered other hother
        refine h.last_batch path hdisk hundelivered other ?_
        rw [lastBatch, hheld, hahead]
        exact hother
    · rename_i hwatcher
      cases hnext
      exact h.of_same rfl rfl rfl rfl rfl rfl (by simp only [ahead, hwatcher])
        (by simp only [held, hwatcher])
    · cases hnext
  · cases hnext

theorem Invariant.readSerial (h : s.Invariant) (hnext : s.readSerial = some next) :
    next.Invariant := by
  unfold State.readSerial at hnext
  split at hnext
  · rename_i batch hwatcher
    cases hnext
    exact h.of_same rfl rfl rfl rfl rfl rfl (by simp only [ahead, hwatcher])
      (by simp only [held, hwatcher])
  · cases hnext

theorem Invariant.compareSerial (h : s.Invariant) (hnext : s.compareSerial = some next) :
    next.Invariant := by
  unfold State.compareSerial at hnext
  split at hnext
  · rename_i serial hwatcher
    cases hnext
    by_cases hserial : s.fullReindexSerial = serial
    · exact h.of_same rfl rfl rfl rfl rfl rfl (by simp only [ahead, hwatcher, if_pos hserial])
        (by simp only [held, hwatcher, if_pos hserial])
    · exact h.of_same rfl rfl rfl rfl rfl rfl (by simp only [ahead, hwatcher, if_neg hserial])
        (by simp only [held, hwatcher, if_neg hserial])
  · cases hnext

/-! ## A batch is applied -/

/-- What the index publishes changes, and the watcher holds no batch afterwards. -/
theorem Invariant.publish (h : s.Invariant) {index : IndexedFiles Path Content}
    {watcher : Watcher Path} (hahead : State.ahead { s with index := index, watcher := watcher } = s.ahead)
    (hheld : State.held { s with index := index, watcher := watcher } = none)
    (htracks : index.Tracks)
    (hpublished : ∀ path ∈ s.delivered, s.Settled path →
      index.published.lookup path = s.disk.textOf path) :
    State.Invariant { s with index := index, watcher := watcher } := by
  have hsettled : ∀ path, State.Settled { s with index := index, watcher := watcher } path →
      s.Settled path := by
    intro path hpath
    rwa [Settled, hahead] at hpath
  refine ⟨h.counted, htracks, h.scanned_tracks, ?_, ?_, h.last_event, ?_⟩
  · intro reindex files hfiles path hpath hpathSettled
    exact h.scanned reindex files hfiles path hpath (hsettled path hpathSettled)
  · intro path hpath hpathSettled _
    exact hpublished path hpath (hsettled path hpathSettled)
  · intro path hdisk hundelivered batch hbatch
    rw [lastBatch, hheld, hahead, Option.toList_none, List.nil_append] at hbatch
    refine h.last_batch path hdisk hundelivered batch ?_
    rw [lastBatch, List.reverse_append, List.find?_append, hbatch]
    rfl

/-- A file of the held batch of which no event is on its way is upserted by the batch, or gone. -/
theorem Invariant.held_spec (h : s.Invariant) {batch : EventBatch Path} (hheld : s.held = some batch)
    {path : Path} (hsettled : s.Settled path) (htouches : batch.touches path = true) :
    ⟨path, .upsert⟩ ∈ batch.changes ∨ s.disk.textOf path = none := by
  by_cases hdisk : path ∈ s.disk
  · left
    refine h.last_batch path hdisk hsettled.1 batch ?_
    have hahead : s.ahead.reverse.find? (fun other => other.touches path) = none := by
      rw [List.find?_eq_none]
      intro other hother
      rw [hsettled.2 other (List.mem_reverse.mp hother)]
      exact Bool.false_ne_true
    rw [lastBatch, hheld, List.reverse_append, List.find?_append, hahead]
    simp [htouches]
  · exact .inr (IndexedFiles.textOf_of_absent (AList.lookup_eq_none.mpr hdisk))

theorem Invariant.applyBatch (h : s.Invariant) {batch : EventBatch Path}
    (hheld : s.held = some batch) (hreadable : s.disk.Readable (if batch.needsRescan then s.disk.keys
      else IndexedFiles.sortedPaths .upsert batch.changes)) :
    (s.applyBatch batch).2 = true ∧ (s.applyBatch batch).1.Tracks ∧
      ∀ path ∈ s.delivered, s.Settled path →
        (s.applyBatch batch).1.published.lookup path = s.disk.textOf path := by
  unfold State.applyBatch
  split at hreadable
  · rename_i hrescan
    rw [if_pos hrescan]
    have hspec := IndexedFiles.rescanWatchedRoots_spec h.tracks hreadable
    exact ⟨hspec.1, h.tracks.applyFilesystemChanges _, fun path _ _ => hspec.2 path⟩
  · rename_i hrescan
    rw [if_neg hrescan]
    have hspec := IndexedFiles.applyFilesystemChanges_spec s.index hreadable
    refine ⟨hspec.1, h.tracks.applyFilesystemChanges _, fun path hpath hsettled => ?_⟩
    rw [hspec.2]
    split
    · rfl
    · rename_i hupsert
      split
      · rename_i hremove
        have htouches : batch.touches path = true := touches_iff.mpr ⟨.remove, hremove⟩
        obtain hmem | hgone := h.held_spec hheld hsettled htouches
        · exact absurd hmem hupsert
        · exact hgone.symm
      · rename_i hremove
        refine h.published path hpath hsettled fun other hother => ?_
        rw [hheld] at hother
        cases hother
        by_contra htouches
        obtain ⟨kind, hkind⟩ := touches_iff.mp (by simpa using htouches)
        cases kind with
        | upsert => exact hupsert hkind
        | remove => exact hremove hkind

theorem Invariant.apply (h : s.Invariant) (hcond : s.ReadsText .apply)
    (hnext : s.apply = some next) : next.Invariant := by
  unfold State.apply at hnext
  split at hnext
  · rename_i batch serial hwatcher
    have hheld : s.held = some batch := by rw [held, hwatcher]
    have hahead : s.ahead = s.queue := by rw [ahead, hwatcher]
    obtain ⟨hok, htracks, hpublished⟩ := h.applyBatch hheld (hcond batch serial hwatcher)
    rw [hok, if_pos rfl] at hnext
    cases hnext
    exact h.publish hahead.symm rfl htracks hpublished
  · cases hnext

theorem Invariant.rescan (h : s.Invariant) (hcond : s.ReadsText .rescan)
    (hnext : s.rescan = some next) : next.Invariant := by
  unfold State.rescan at hnext
  split at hnext
  · rename_i hwatcher
    have hahead : s.ahead = s.queue := by rw [ahead, hwatcher]
    have hspec := IndexedFiles.rescanWatchedRoots_spec h.tracks hcond
    cases hnext
    exact h.publish hahead.symm rfl (h.tracks.applyFilesystemChanges _) fun path _ _ => hspec.2 path
  · cases hnext

/-! ## A full reindex -/

/-- One reindex moves on, and is counted as long as it is active. What it has scanned is what is on
the disk. -/
theorem Invariant.moveReindex (h : s.Invariant) {reindex progress serial : ℕ}
    {phase : Reindex Path Content} (hcounted : ∃ active : Finset ℕ, progress = active.card ∧
      ∀ other, other ∈ active ↔ (Function.update s.reindexes reindex phase other).Active)
    (hscanned : ∀ files, phase = .scanned files → files.Tracks ∧
      ∀ path, files.published.lookup path = s.disk.textOf path) :
    ({ s with fullReindexInProgress := progress, fullReindexSerial := serial }.setReindex reindex
      phase).Invariant := by
  refine ⟨hcounted, h.tracks, ?_, ?_, h.published, h.last_event, h.last_batch⟩
  · intro other files hfiles
    by_cases heq : other = reindex
    · subst heq
      exact (hscanned files (by simpa [State.setReindex] using hfiles)).1
    · exact h.scanned_tracks other files (by simpa [State.setReindex, heq] using hfiles)
  · intro other files hfiles path hpath hsettled
    by_cases heq : other = reindex
    · subst heq
      exact (hscanned files (by simpa [State.setReindex] using hfiles)).2 path
    · exact h.scanned other files (by simpa [State.setReindex, heq] using hfiles) path hpath hsettled

theorem Invariant.counted_same (h : s.Invariant) {reindex : ℕ} {phase : Reindex Path Content}
    (hphase : phase.Active ↔ (s.reindexes reindex).Active) :
    ∃ active : Finset ℕ, s.fullReindexInProgress = active.card ∧
      ∀ other, other ∈ active ↔ (Function.update s.reindexes reindex phase other).Active := by
  obtain ⟨active, hcard, hactive⟩ := h.counted
  refine ⟨active, hcard, fun other => ?_⟩
  by_cases heq : other = reindex
  · subst heq
    rw [Function.update_self, hphase]
    exact hactive other
  · rw [Function.update_of_ne heq]
    exact hactive other

theorem Invariant.beginReindex (h : s.Invariant) {reindex : ℕ}
    (hnext : s.beginReindex reindex = some next) : next.Invariant := by
  unfold State.beginReindex at hnext
  split at hnext
  · rename_i hphase
    cases hnext
    refine h.moveReindex ?_ fun files hfiles => by cases hfiles
    obtain ⟨active, hcard, hactive⟩ := h.counted
    have hnew : reindex ∉ active := by
      rw [hactive, hphase]
      exact id
    refine ⟨insert reindex active, by rw [Finset.card_insert_of_notMem hnew, hcard], fun other => ?_⟩
    rw [Finset.mem_insert]
    by_cases heq : other = reindex
    · subst heq
      simp [Reindex.Active]
    · simp [heq, hactive]
  · cases hnext

theorem Invariant.scanReindex (h : s.Invariant) {reindex : ℕ} (hnext : s.scan reindex = some next) :
    next.Invariant := by
  unfold State.scan at hnext
  split at hnext
  · rename_i hphase
    cases hnext
    refine h.moveReindex (h.counted_same (by rw [hphase]; exact Iff.rfl)) fun files hfiles => ?_
    cases hfiles
    exact IndexedFiles.scan_spec s.disk
  · cases hnext

theorem Invariant.replace (h : s.Invariant) {reindex : ℕ} (hnext : s.replace reindex = some next) :
    next.Invariant := by
  unfold State.replace at hnext
  split at hnext
  · rename_i files hphase
    cases hnext
    have hindex : State.Invariant { s with index := files } :=
      ⟨h.counted, h.scanned_tracks reindex files hphase, h.scanned_tracks, h.scanned,
        fun path hpath hsettled _ => h.scanned reindex files hphase path hpath hsettled,
        h.last_event, h.last_batch⟩
    exact hindex.moveReindex (hindex.counted_same (by
      show _ ↔ (s.reindexes reindex).Active
      rw [hphase]
      exact Iff.rfl)) fun _ hfiles => by cases hfiles
  · cases hnext

theorem Invariant.endReindex (h : s.Invariant) {reindex : ℕ}
    (hnext : s.endReindex reindex = some next) : next.Invariant := by
  have hactive : (s.reindexes reindex).Active → next.Invariant := by
    intro hphase
    have hended : next = { s with
        fullReindexInProgress := s.fullReindexInProgress - 1
        fullReindexSerial := s.fullReindexSerial + 1 }.setReindex reindex .ended := by
      unfold State.endReindex at hnext
      split at hnext
      · cases hnext
      · cases hnext
      · cases hnext
        rfl
    rw [hended]
    refine h.moveReindex ?_ fun files hfiles => by cases hfiles
    obtain ⟨active, hcard, hmem⟩ := h.counted
    refine ⟨active.erase reindex, ?_, fun other => ?_⟩
    · rw [Finset.card_erase_of_mem ((hmem reindex).mpr hphase), hcard]
    · rw [Finset.mem_erase]
      by_cases heq : other = reindex
      · subst heq
        simp [Reindex.Active]
      · simp [heq, hmem]
  apply hactive
  unfold State.endReindex at hnext
  cases hphase : s.reindexes reindex with
  | absent => simp [hphase] at hnext
  | ended => simp [hphase] at hnext
  | begun => trivial
  | scanned files => trivial
  | replaced => trivial

/-! ## One step -/

theorem Invariant.step (h : s.Invariant) {a : Action Path Content} (hnext : s.step a = some next)
    (hcond : s.ReadsText a) : next.Invariant := by
  cases a with
  | write path file => exact h.write hnext
  | delete path => exact h.delete hnext
  | deliver events needsRescan => exact h.deliver hnext
  | take => exact h.take hnext
  | wait => exact h.wait hnext
  | readSerial => exact h.readSerial hnext
  | apply => exact h.apply hcond hnext
  | compareSerial => exact h.compareSerial hnext
  | rescan => exact h.rescan hcond hnext
  | beginReindex reindex => exact h.beginReindex hnext
  | scan reindex => exact h.scanReindex hnext
  | replace reindex => exact h.replace hnext
  | endReindex reindex => exact h.endReindex hnext

theorem Invariant.nothingLost (h : s.Invariant) (hfinished : s.Finished) : s.NothingLost := by
  intro path hpath hundelivered
  have hahead : s.ahead = [] := by rw [ahead, hfinished.watcher, hfinished.queue]
  have hheld : s.held = none := by rw [held, hfinished.watcher]
  refine h.published path hpath ⟨hundelivered, fun batch hbatch => ?_⟩ fun batch hbatch => ?_
  · rw [hahead] at hbatch
    cases hbatch
  · rw [hheld] at hbatch
    cases hbatch

end State

/-! ## Every run -/

/-- A file is written while a reindex has scanned, and its batch waits for the reindex. -/
def writtenAfterScan : List (Action ℕ Bool) :=
  [.beginReindex 0, .scan 0, .write 1 (.text true), .deliver [⟨1, .upsert⟩] false, .take, .replace 0,
    .endReindex 0, .wait, .readSerial, .apply, .compareSerial]

end SourceWatch
end JavaAnalyzer.Workspace
