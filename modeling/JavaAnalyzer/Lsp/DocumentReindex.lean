import JavaAnalyzer.Library.Interleaving
import JavaAnalyzer.Workspace.FilesystemChange

/-! # Reindexing a document

What the notifications for one document start (`lsp/server.rs`): `did_open` and `did_save` reindex it,
`did_change` sets a timer that reindexes it later unless a newer change has come (the check of
`schedule_did_change_reindex`), and `did_close` has the workspace reconcile the index with the disk. Each
piece of work takes its steps between the steps of the others. The classes of a text are those that
`extract` gives; `disk` is the file as the workspace sees it, so a file that it does not track is none.
While the document is closed a change of the disk is the source watcher's concern. -/

namespace JavaAnalyzer.Lsp.DocumentReindex
set_option autoImplicit false
open Interleaving JavaAnalyzer.Workspace

structure OpenDocument (Text : Type) where
  text : Text
  version : ℤ
deriving DecidableEq, Repr

/-- How far `reindex_document_from_workspace` has come. -/
inductive ReindexStage (Text Classes : Type)
  | begun
  | taken (text : Text)
  | synced (input : ℕ)
  | extracted (classes : Classes)
  | done
deriving DecidableEq, Repr

/-- How far `reconcile_closed_document_blocking` has come. -/
inductive ReconcileStage (Classes : Type)
  | begun
  | reading
  | publishing (classes : Classes)
  | removing
  | dropping
deriving DecidableEq, Repr

/-- A run that a timer has started knows the timer's version. -/
inductive Work (Text Classes : Type)
  | timer (version : ℤ)
  | reindex (version : Option ℤ) (stage : ReindexStage Text Classes)
  | reconcile (stage : ReconcileStage Classes)
deriving DecidableEq, Repr

structure State (Text Classes : Type) where
  doc : Option (OpenDocument Text)
  disk : Option (DiskFile Text)
  /-- The document's entry in `pending_document_reindex_versions`. -/
  pending : Option ℤ
  /-- The document's salsa input, by its number among all that were created. -/
  salsaFile : Option ℕ
  contents : List Text
  /-- The classes that the index has for the document's origin. -/
  published : Option Classes
  work : List (Work Text Classes)

inductive Action (Text Classes : Type)
  | didOpen (text : Text) (version : ℤ)
  | didChange (text : Text) (version : ℤ)
  | didSave (text : Option Text)
  | didClose
  | writeDisk (file : Option (DiskFile Text))
  | advance (work : Work Text Classes)

section

variable {Text Classes : Type} (extract : Text → Classes)

namespace State

def start (s : State Text Classes) (work : Work Text Classes) : State Text Classes :=
  { s with work := work :: s.work }

/-- What is to be published: the classes of the open text, or of the file when there is none. -/
def target (s : State Text Classes) : Option Classes :=
  match s.doc with
  | some doc => some (extract doc.text)
  | none =>
    match s.disk with
    | some (.text content) => some (extract content)
    | _ => none

/-- The document is closed, and the index has the classes of the file. -/
def closed (disk : Option (DiskFile Text)) : State Text Classes :=
  let s : State Text Classes :=
    { doc := none, disk := disk, pending := none, salsaFile := none, contents := [],
      published := none, work := [] }
  { s with published := s.target extract }

/-- `get_or_update_salsa_file_for_snapshot`. -/
def syncSalsaFile (s : State Text Classes) (text : Text) : State Text Classes × ℕ :=
  match s.salsaFile with
  | some input => ({ s with contents := s.contents.set input text }, input)
  | none =>
    ({ s with contents := s.contents ++ [text], salsaFile := some s.contents.length },
      s.contents.length)

def advanceReindex (s : State Text Classes) (version : Option ℤ) :
    ReindexStage Text Classes → Option (State Text Classes)
  | .begun =>
    match s.doc with
    | none => some (s.start (.reindex version .done))
    | some doc => some (s.start (.reindex version (.taken doc.text)))
  | .taken text =>
    let synced := s.syncSalsaFile text
    some (synced.1.start (.reindex version (.synced synced.2)))
  | .synced input =>
    s.contents[input]?.map fun text => s.start (.reindex version (.extracted (extract text)))
  | .extracted classes => some ({ s with published := some classes }.start (.reindex version .done))
  | .done =>
    if version.isSome ∧ s.pending = version then some { s with pending := none } else some s

def advanceReconcile (s : State Text Classes) : ReconcileStage Classes → State Text Classes
  | .begun =>
    match s.doc, s.disk with
    | some _, _ => s
    | none, some _ => s.start (.reconcile .reading)
    | none, none => s.start (.reconcile .removing)
  | .reading =>
    match s.doc, s.disk with
    | some _, _ => s
    | none, some (.text content) => s.start (.reconcile (.publishing (extract content)))
    | none, some .unreadable => s
    | none, none => s.start (.reconcile .removing)
  | .publishing classes => { s with published := some classes }.start (.reconcile .dropping)
  | .removing => { s with published := none }.start (.reconcile .dropping)
  | .dropping => { s with salsaFile := none }

/-- The next step of a piece of work that is no longer on the list. -/
def advance (s : State Text Classes) : Work Text Classes → Option (State Text Classes)
  | .timer version =>
    if s.pending = some version ∧ s.doc.map OpenDocument.version = some version then
      some (s.start (.reindex (some version) .begun))
    else some s
  | .reindex version stage => s.advanceReindex extract version stage
  | .reconcile stage => some (s.advanceReconcile extract stage)

variable [DecidableEq Text] [DecidableEq Classes]

def without (s : State Text Classes) (work : Work Text Classes) : State Text Classes :=
  { s with work := s.work.erase work }

def step (s : State Text Classes) : Action Text Classes → Option (State Text Classes)
  | .didOpen text version =>
    some ({ s with doc := some { text := text, version := version } }.start (.reindex none .begun))
  | .didChange text version =>
    match s.doc with
    | none => some s
    | some _ =>
      some ({ s with
        doc := some { text := text, version := version }
        pending := some version }.start (.timer version))
  | .didSave text =>
    match s.doc with
    | none => some s
    | some doc =>
      some ({ s with doc := some { doc with text := text.getD doc.text } }.start
        (.reindex none .begun))
  | .didClose => some ({ s with doc := none }.start (.reconcile .begun))
  | .writeDisk file => if s.doc.isSome then some { s with disk := file } else none
  | .advance work => if work ∈ s.work then (s.without work).advance extract work else none

end State

/-! ## Work that will publish -/

/-- The work goes on to publish, whatever other work does. -/
def Work.Publishes (doc : Option (OpenDocument Text)) (pending : Option ℤ) :
    Work Text Classes → Prop
  | .timer version => pending = some version ∧ doc.map OpenDocument.version = some version
  | .reindex _ .begun => doc.isSome = true
  | .reindex _ .done => False
  | .reindex _ _ => True
  | .reconcile .begun => doc = none
  | .reconcile .reading => doc = none
  | .reconcile .dropping => False
  | .reconcile _ => True

namespace State

def Settled (s : State Text Classes) : Prop :=
  s.published = s.target extract

def Busy (s : State Text Classes) : Prop :=
  ∃ work ∈ s.work, work.Publishes s.doc s.pending

/-- What is to be published is, or some work has still to publish. -/
def Covered (s : State Text Classes) : Prop :=
  s.Settled extract ∨ s.Busy

variable [DecidableEq Text] [DecidableEq Classes]

/-- What is published is what is to be published, or other work has still to publish; and no work ends
that should have published, nor takes from a timer its entry, unless that is so. -/
def PublishesLatest (s : State Text Classes) : Action Text Classes → Prop
  | .advance (.reindex version (.extracted classes)) =>
    some classes = s.target extract ∨
      (s.without (.reindex version (.extracted classes))).Busy
  | .advance (.reconcile (.publishing classes)) =>
    some classes = s.target extract ∨ (s.without (.reconcile (.publishing classes))).Busy
  | .advance (.reconcile .removing) =>
    none = s.target extract ∨ (s.without (.reconcile .removing)).Busy
  | .advance (.reconcile .reading) =>
    s.doc = none → s.disk = some .unreadable →
      s.Settled extract ∨ (s.without (.reconcile .reading)).Busy
  | .advance (.reindex (some version) .done) =>
    s.pending = some version →
      s.Settled extract ∨
        ({ s.without (.reindex (some version) .done) with pending := none }).Busy
  | _ => True

/-! ## One step -/

variable {extract} {s next : State Text Classes}

omit [DecidableEq Text] [DecidableEq Classes] in
theorem busy_start (s : State Text Classes) (work : Work Text Classes) :
    (s.start work).Busy ↔ work.Publishes s.doc s.pending ∨ s.Busy :=
  List.exists_mem_cons_iff ..

omit [DecidableEq Text] [DecidableEq Classes] in
/-- Work that is started to publish covers what is to be published. -/
theorem covered_start {work : Work Text Classes} (hpublishes : work.Publishes s.doc s.pending) :
    (s.start work).Covered extract :=
  Or.inr ((busy_start s work).mpr (Or.inl hpublishes))

theorem busy_without {work : Work Text Classes} (hmem : work ∈ s.work) :
    s.Busy ↔ work.Publishes s.doc s.pending ∨ (s.without work).Busy := by
  have hperm := List.perm_cons_erase hmem
  have hexists : s.Busy ↔
      ∃ other ∈ work :: s.work.erase work, other.Publishes s.doc s.pending := by
    constructor
    · intro h
      obtain ⟨other, hother, hpublishes⟩ := h
      exact ⟨other, hperm.mem_iff.mp hother, hpublishes⟩
    · intro h
      obtain ⟨other, hother, hpublishes⟩ := h
      exact ⟨other, hperm.mem_iff.mpr hother, hpublishes⟩
  rw [hexists]
  exact List.exists_mem_cons_iff ..

/-- Work that was not going to publish can be left out. -/
theorem Covered.without (h : s.Covered extract) {work : Work Text Classes} (hmem : work ∈ s.work)
    (hnot : ¬ work.Publishes s.doc s.pending) : (s.without work).Covered extract := by
  cases h with
  | inl hsettled => exact Or.inl hsettled
  | inr hbusy =>
    cases (busy_without hmem).mp hbusy with
    | inl hpublishes => exact absurd hpublishes hnot
    | inr hrest => exact Or.inr hrest

theorem covered_advanceReindex_iff (h : s.Covered extract) {version : Option ℤ}
    {stage : ReindexStage Text Classes} (hmem : .reindex version stage ∈ s.work)
    (hnext : (s.without (.reindex version stage)).advanceReindex extract version stage =
      some next) :
    next.Covered extract ↔ s.PublishesLatest extract (.advance (.reindex version stage)) := by
  cases stage with
  | begun =>
    refine iff_of_true ?_ trivial
    cases hdoc : s.doc with
    | none =>
      have hnext : some ((s.without (.reindex version .begun)).start (.reindex version .done)) =
          some next := by
        rw [← hnext]
        simp only [advanceReindex, State.without, hdoc]
      cases hnext
      have hnot : ¬ Work.Publishes s.doc s.pending
          (.reindex version .begun : Work Text Classes) := by
        simp [Work.Publishes, hdoc]
      cases h.without hmem hnot with
      | inl hsettled => exact Or.inl hsettled
      | inr hbusy => exact Or.inr ((busy_start _ _).mpr (Or.inr hbusy))
    | some doc =>
      have hnext : some ((s.without (.reindex version .begun)).start
          (.reindex version (.taken doc.text))) = some next := by
        rw [← hnext]
        simp only [advanceReindex, State.without, hdoc]
      cases hnext
      exact covered_start trivial
  | taken text =>
    cases hnext
    exact iff_of_true (covered_start trivial) trivial
  | synced input =>
    obtain ⟨text, -, rfl⟩ := Option.map_eq_some_iff.mp hnext
    exact iff_of_true (covered_start trivial) trivial
  | extracted classes =>
    cases hnext
    exact or_congr_right ((busy_start _ _).trans (or_iff_right id))
  | done =>
    have hrest := h.without hmem (fun hpublishes => hpublishes)
    cases version with
    | none =>
      cases hnext
      exact iff_of_true hrest trivial
    | some version =>
      by_cases hpending : s.pending = some version
      · have hnext : some { s.without (.reindex (some version) .done) with pending := none } =
            some next := by
          rw [← hnext, advanceReindex, if_pos ⟨rfl, hpending⟩]
        cases hnext
        constructor
        · exact fun hcovered _ => hcovered
        · exact fun hcond => hcond hpending
      · have hnext : some (s.without (.reindex (some version) .done)) = some next := by
          rw [← hnext, advanceReindex, if_neg (fun h => hpending h.2)]
        cases hnext
        exact iff_of_true hrest fun heq => absurd heq hpending

theorem covered_advanceReconcile_iff (h : s.Covered extract) {stage : ReconcileStage Classes}
    (hmem : .reconcile stage ∈ s.work)
    (hnext : (s.without (.reconcile stage)).advanceReconcile extract stage = next) :
    next.Covered extract ↔ s.PublishesLatest extract (.advance (.reconcile stage)) := by
  subst hnext
  -- An open document ends the call before it reads the file: the call was not going to publish.
  have hopen : s.doc ≠ none → (stage = .begun ∨ stage = .reading) →
      (s.without (.reconcile stage)).Covered extract := by
    intro hdoc hstage
    refine h.without hmem ?_
    cases hstage with
    | inl heq => rw [heq]; exact hdoc
    | inr heq => rw [heq]; exact hdoc
  have hstarted (stage' : ReconcileStage Classes)
      (hpublishes : Work.Publishes s.doc s.pending (.reconcile stage' : Work Text Classes)) :
      ((s.without (.reconcile stage)).start (.reconcile stage')).Covered extract :=
    covered_start hpublishes
  cases stage with
  | begun =>
    refine iff_of_true ?_ trivial
    cases hdoc : s.doc with
    | some doc =>
      have hcovered := hopen (by rw [hdoc]; exact Option.some_ne_none doc) (Or.inl rfl)
      simpa only [advanceReconcile, State.without, hdoc] using hcovered
    | none =>
      cases hdisk : s.disk with
      | some file =>
        simpa only [advanceReconcile, State.without, hdoc, hdisk] using hstarted .reading hdoc
      | none =>
        simpa only [advanceReconcile, State.without, hdoc, hdisk] using hstarted .removing trivial
  | reading =>
    cases hdoc : s.doc with
    | some doc =>
      have hcovered := hopen (by rw [hdoc]; exact Option.some_ne_none doc) (Or.inr rfl)
      refine iff_of_true ?_ fun hnone => ?_
      · simpa only [advanceReconcile, State.without, hdoc] using hcovered
      · rw [hdoc] at hnone
        cases hnone
    | none =>
      match hdisk : s.disk with
      | none =>
        refine iff_of_true ?_ fun _ hunreadable => ?_
        · simpa only [advanceReconcile, State.without, hdoc, hdisk] using
            hstarted .removing trivial
        · rw [hdisk] at hunreadable
          cases hunreadable
      | some (.text content) =>
        refine iff_of_true ?_ fun _ hunreadable => ?_
        · simpa only [advanceReconcile, State.without, hdoc, hdisk] using
            hstarted (.publishing (extract content)) trivial
        · rw [hdisk] at hunreadable
          cases hunreadable
      | some .unreadable =>
        have hends : (s.without (.reconcile .reading)).advanceReconcile extract .reading =
            s.without (.reconcile .reading) := by
          simp only [advanceReconcile, State.without, hdoc, hdisk]
        rw [hends]
        exact ⟨fun hcovered _ _ => hcovered, fun hcond => hcond hdoc hdisk⟩
  | publishing classes => exact or_congr_right ((busy_start _ _).trans (or_iff_right id))
  | removing => exact or_congr_right ((busy_start _ _).trans (or_iff_right id))
  | dropping =>
    have hrest := h.without hmem fun hpublishes => hpublishes
    exact iff_of_true hrest trivial

theorem covered_advanceTimer (h : s.Covered extract) {version : ℤ} (hmem : .timer version ∈ s.work)
    (hnext : (s.without (.timer version)).advance extract (.timer version) = some next) :
    next.Covered extract := by
  by_cases hcheck : s.pending = some version ∧ s.doc.map OpenDocument.version = some version
  · have hnext : some ((s.without (.timer version)).start (.reindex (some version) .begun)) =
        some next := by
      rw [← hnext]
      exact (if_pos hcheck).symm
    cases hnext
    have hdoc : s.doc.isSome = true := by
      obtain ⟨doc, hdoc, -⟩ := Option.map_eq_some_iff.mp hcheck.2
      rw [hdoc]
      rfl
    exact covered_start hdoc
  · have hnext : some (s.without (.timer version)) = some next := by
      rw [← hnext]
      exact (if_neg hcheck).symm
    cases hnext
    exact h.without hmem hcheck

theorem covered_step_iff (h : s.Covered extract) {a : Action Text Classes}
    (hnext : s.step extract a = some next) :
    next.Covered extract ↔ s.PublishesLatest extract a := by
  cases a with
  | didOpen text version =>
    cases hnext
    exact iff_of_true (covered_start rfl) trivial
  | didChange text version =>
    refine iff_of_true ?_ trivial
    cases hdoc : s.doc with
    | none =>
      simp only [step, hdoc, Option.some.injEq] at hnext
      rwa [← hnext]
    | some doc =>
      simp only [step, hdoc, Option.some.injEq] at hnext
      rw [← hnext]
      exact covered_start ⟨rfl, rfl⟩
  | didSave text =>
    refine iff_of_true ?_ trivial
    cases hdoc : s.doc with
    | none =>
      simp only [step, hdoc, Option.some.injEq] at hnext
      rwa [← hnext]
    | some doc =>
      simp only [step, hdoc, Option.some.injEq] at hnext
      rw [← hnext]
      exact covered_start rfl
  | didClose =>
    cases hnext
    exact iff_of_true (covered_start rfl) trivial
  | writeDisk file =>
    refine iff_of_true ?_ trivial
    cases hdoc : s.doc with
    | none => simp [step, hdoc] at hnext
    | some doc =>
      have hnext : some { s with disk := file } = some next := by
        rw [← hnext, step, if_pos (by rw [hdoc]; rfl)]
      cases hnext
      have htarget : State.target extract { s with disk := file } = s.target extract := by
        simp only [target, hdoc]
      cases h with
      | inl hsettled => exact Or.inl (Eq.trans hsettled htarget.symm)
      | inr hbusy => exact Or.inr hbusy
  | advance work =>
    by_cases hmem : work ∈ s.work
    · have hadvance : (s.without work).advance extract work = some next := by
        rw [← hnext]
        exact (if_pos hmem).symm
      cases work with
      | timer version => exact iff_of_true (covered_advanceTimer h hmem hadvance) trivial
      | reindex version stage => exact covered_advanceReindex_iff h hmem hadvance
      | reconcile stage =>
        exact covered_advanceReconcile_iff h hmem (Option.some.inj hadvance)
    · rw [step, if_neg hmem] at hnext
      cases hnext

omit [DecidableEq Text] [DecidableEq Classes] in
theorem Covered.settled (h : s.Covered extract) (hidle : s.work = []) : s.Settled extract := by
  cases h with
  | inl hsettled => exact hsettled
  | inr hbusy =>
    obtain ⟨work, hwork, -⟩ := hbusy
    rw [hidle] at hwork
    cases hwork

end State

/-! ## Every run -/

section Runs

variable [DecidableEq Text] [DecidableEq Classes]

end Runs

end

/-- The document is opened, changed while its first reindex runs, and reindexed when the timer fires. -/
def changedWhileReindexed : List (Action ℕ ℕ) :=
  [.didOpen 0 1, .advance (.reindex none .begun), .advance (.reindex none (.taken 0)),
    .didChange 1 2, .advance (.reindex none (.synced 0)), .advance (.reindex none (.extracted 0)),
    .advance (.reindex none .done), .advance (.timer 2), .advance (.reindex (some 2) .begun),
    .advance (.reindex (some 2) (.taken 1)), .advance (.reindex (some 2) (.synced 0)),
    .advance (.reindex (some 2) (.extracted 1)), .advance (.reindex (some 2) .done)]

end JavaAnalyzer.Lsp.DocumentReindex
