import JavaAnalyzer.Library.Interleaving
import JavaAnalyzer.Workspace.WorkspaceModel

/-! # Navigation into source archives

The `ZipSource` branch of `lsp/handlers/goto_definition.rs`: an entry of a source archive is extracted
into a cache directory once, and the file there is shown. Files and directories are those of a file
system without links; an extraction can fail at any point and then leaves what it has done. -/

namespace JavaAnalyzer.Lsp
set_option autoImplicit false
open Interleaving Workspace

/-! ## The file system -/

/-- A component of a path that is not one of the special ones. -/
def IsName (component : String) : Prop :=
  component ≠ "" ∧ component ≠ "." ∧ component ≠ ".."

instance : DecidablePred IsName := fun _ => inferInstanceAs (Decidable (_ ∧ _))

structure FileSystem where
  files : Path → Option (List UInt8)
  dirs : Path → Bool

namespace FileSystem

variable (fs : FileSystem)

/-- The place that the components lead to from a directory. -/
def resolve (dir : Path) : Path → Option Path
  | [] => some dir
  | name :: rest =>
    if name = "" ∨ name = "." then resolve dir rest
    else if name = ".." then resolve dir.dropLast rest
    else if rest = [] then some (dir ++ [name])
    else if fs.dirs (dir ++ [name]) then resolve (dir ++ [name]) rest
    else none

def exists? (path : Path) : Bool :=
  match fs.resolve [] path with
  | none => false
  | some place => (fs.files place).isSome || fs.dirs place

def makeDir (place : Path) : FileSystem :=
  { fs with dirs := Function.update fs.dirs place true }

/-- The directories on the way are made, up to a file that is in the way. -/
def createDirAll (fs : FileSystem) (dir : Path) : Path → FileSystem
  | [] => fs
  | name :: rest =>
    if name = "" ∨ name = "." then createDirAll fs dir rest
    else if name = ".." then createDirAll fs dir.dropLast rest
    else if (fs.files (dir ++ [name])).isSome then fs
    else createDirAll (fs.makeDir (dir ++ [name])) (dir ++ [name]) rest

/-- `File::create` and what is then written. -/
def write (path : Path) (bytes : List UInt8) : FileSystem :=
  match fs.resolve [] path with
  | none => fs
  | some place =>
    if fs.dirs place then fs
    else { fs with files := Function.update fs.files place (some bytes) }

variable {fs}

theorem makeDir_dirs (place x : Path) :
    (fs.makeDir place).dirs x = true ↔ fs.dirs x = true ∨ x = place := by
  by_cases hself : x = place
  · simp [makeDir, hself]
  · simp [makeDir, hself]

variable {dir rest : Path}

theorem resolve_eq (hnames : ∀ component ∈ rest, IsName component) {place : Path}
    (h : fs.resolve dir rest = some place) : place = dir ++ rest := by
  induction rest generalizing dir with
  | nil =>
    rw [List.append_nil]
    exact (Option.some.inj h).symm
  | cons name rest ih =>
    obtain ⟨hempty, hdot, hparent⟩ := hnames name List.mem_cons_self
    rw [resolve, if_neg (by simp [hempty, hdot]), if_neg hparent] at h
    split at h
    · rename_i hrest
      cases h
      rw [hrest]
    · split at h
      · rw [ih (fun c hc => hnames c (List.mem_cons_of_mem _ hc)) h]
        simp
      · cases h

theorem resolve_of_dirs (hnames : ∀ component ∈ rest, IsName component)
    (hdirs : ∀ q, q <+: rest.dropLast → q ≠ [] → fs.dirs (dir ++ q) = true) :
    fs.resolve dir rest = some (dir ++ rest) := by
  induction rest generalizing dir with
  | nil => rw [resolve, List.append_nil]
  | cons name rest ih =>
    obtain ⟨hempty, hdot, hparent⟩ := hnames name List.mem_cons_self
    rw [resolve, if_neg (by simp [hempty, hdot]), if_neg hparent]
    split
    · rename_i hrest
      rw [hrest]
    · rename_i hrest
      have hlast : (name :: rest).dropLast = name :: rest.dropLast := List.dropLast_cons_of_ne_nil hrest
      have hname : fs.dirs (dir ++ [name]) = true :=
        hdirs [name] (by rw [hlast]; exact ⟨rest.dropLast, rfl⟩) (List.cons_ne_nil _ _)
      rw [if_pos hname, ih (fun c hc => hnames c (List.mem_cons_of_mem _ hc))]
      · simp
      · intro q hq hne
        have hbelow := hdirs (name :: q) (by rw [hlast]; exact List.cons_prefix_cons.mpr ⟨rfl, hq⟩)
          (List.cons_ne_nil _ _)
        simpa using hbelow

/-- With no file in the way every directory on the way is made, and nothing else changes. -/
theorem createDirAll_spec (hnames : ∀ component ∈ rest, IsName component)
    (hfree : ∀ q, q <+: rest → q ≠ [] → fs.files (dir ++ q) = none) :
    (fs.createDirAll dir rest).files = fs.files ∧
      ∀ x, (fs.createDirAll dir rest).dirs x = true ↔
        fs.dirs x = true ∨ ∃ q, q <+: rest ∧ q ≠ [] ∧ x = dir ++ q := by
  induction rest generalizing fs dir with
  | nil =>
    refine ⟨rfl, fun x => ⟨Or.inl, ?_⟩⟩
    rintro (hx | ⟨q, hq, hne, -⟩)
    · exact hx
    · exact absurd (List.prefix_nil.mp hq) hne
  | cons name rest ih =>
    obtain ⟨hempty, hdot, hparent⟩ := hnames name List.mem_cons_self
    have hname : fs.files (dir ++ [name]) = none :=
      hfree [name] ⟨rest, rfl⟩ (List.cons_ne_nil _ _)
    rw [createDirAll, if_neg (by simp [hempty, hdot]), if_neg hparent,
      if_neg (by rw [hname]; exact Bool.false_ne_true)]
    have hrest : ∀ q, q <+: rest → q ≠ [] →
        (fs.makeDir (dir ++ [name])).files (dir ++ [name] ++ q) = none := by
      intro q hq _
      have hbelow := hfree (name :: q) (List.cons_prefix_cons.mpr ⟨rfl, hq⟩) (List.cons_ne_nil _ _)
      simpa [makeDir] using hbelow
    obtain ⟨hfiles, hdirs⟩ := ih (fun c hc => hnames c (List.mem_cons_of_mem _ hc)) hrest
    refine ⟨hfiles, fun x => ?_⟩
    rw [hdirs, makeDir_dirs]
    constructor
    · rintro ((hx | rfl) | ⟨q, hq, -, rfl⟩)
      · exact Or.inl hx
      · exact Or.inr ⟨[name], ⟨rest, rfl⟩, List.cons_ne_nil _ _, rfl⟩
      · exact Or.inr ⟨name :: q, List.cons_prefix_cons.mpr ⟨rfl, hq⟩, List.cons_ne_nil _ _, by simp⟩
    · rintro (hx | ⟨q, hq, hne, rfl⟩)
      · exact Or.inl (Or.inl hx)
      · cases q with
        | nil => exact absurd rfl hne
        | cons first q =>
          obtain ⟨rfl, hbelow⟩ := List.cons_prefix_cons.mp hq
          cases q with
          | nil => exact Or.inl (Or.inr rfl)
          | cons second q => exact Or.inr ⟨second :: q, hbelow, List.cons_ne_nil _ _, by simp⟩

end FileSystem

/-! ## The cache -/

/-- `java_analyzer_sources` in the temporary directory. -/
structure BaseCache where
  path : Path
  names : ∀ component ∈ path, IsName component

/-- `Path::join`: the name of an entry, split at the slashes, may be absolute. -/
def BaseCache.join (base : BaseCache) (entryName : Path) : Path :=
  if entryName.head? = some "" then entryName.tail else base.path ++ entryName

/-- How far an extraction gets. -/
structure Extraction where
  /-- How many components of the parent directory are made. -/
  dirsMade : ℕ
  /-- The archive is opened and read, and the entry is found in it. -/
  entryOpened : Bool
  fileCreated : Bool
  bytesCopied : ℕ

inductive CancelPoint where
  | beforeZipExtract
  | afterZipExtract
deriving DecidableEq, Repr

structure ZipRequest where
  zipPath : String
  entryName : Path
  extraction : Extraction
  cancelled : Option CancelPoint

/-- The files, the archives, and the last request with an answer, the path of the URI. -/
structure ZipState where
  fs : FileSystem
  archives : String → Path → Option (List UInt8)
  answer : Option (String × Path × Path)

inductive ZipAction where
  | goto (request : ZipRequest)
  | writeArchive (zipPath : String) (entries : Path → Option (List UInt8))

namespace ZipState

variable (base : BaseCache) (s : ZipState)

/-- The file system after the extraction of a request. -/
def extract (request : ZipRequest) : FileSystem :=
  let cachePath := base.join request.entryName
  let made := s.fs.createDirAll [] (cachePath.dropLast.take request.extraction.dirsMade)
  match s.archives request.zipPath request.entryName with
  | none => made
  | some bytes =>
    if request.extraction.entryOpened && request.extraction.fileCreated then
      made.write cachePath (bytes.take request.extraction.bytesCopied)
    else made

/-- `extract`, unless the file is there already. -/
def ensureExtracted (request : ZipRequest) : FileSystem :=
  if s.fs.exists? (base.join request.entryName) then s.fs else s.extract base request

def goto (request : ZipRequest) : ZipState :=
  match request.cancelled with
  | some .beforeZipExtract => { s with answer := none }
  | some .afterZipExtract => { s with fs := s.ensureExtracted base request, answer := none }
  | none => { s with
      fs := s.ensureExtracted base request
      answer := some (request.zipPath, request.entryName, base.join request.entryName) }

def writeArchive (zipPath : String) (entries : Path → Option (List UInt8)) : ZipState :=
  { s with archives := Function.update s.archives zipPath entries, answer := none }

def step : ZipAction → Option ZipState
  | .goto request => some (s.goto base request)
  | .writeArchive zipPath entries => some (s.writeArchive zipPath entries)

/-- The file that a path leads to is in the cache directory and has the bytes of the entry. -/
def Shows (zipPath : String) (entryName path : Path) : Prop :=
  ∃ place, s.fs.resolve [] path = some place ∧ base.path <+: place ∧
    ∃ bytes, s.archives zipPath entryName = some bytes ∧ s.fs.files place = some bytes

/-- What was answered shows the entry that was asked for. -/
def AnswerShown : Prop :=
  ∀ zipPath entryName path, s.answer = some (zipPath, entryName, path) →
    s.Shows base zipPath entryName path

/-! ## Requests that go well -/

/-- Everything the extraction tries works. -/
structure Completes (extraction : Extraction) (entryName : Path) (bytes : List UInt8) : Prop where
  dirs : (base.path ++ entryName).dropLast.length ≤ extraction.dirsMade
  opened : extraction.entryOpened = true
  created : extraction.fileCreated = true
  copied : bytes.length ≤ extraction.bytesCopied

/-- The entry is a name below the cache directory, where no file is in the way of a directory and no
directory in the way of the file; it has the bytes that all archives have for it; and it is extracted
whole, if its file is not there yet. -/
structure GoesWell (entries : Path → List UInt8) (request : ZipRequest) : Prop where
  names : ∀ component ∈ request.entryName, IsName component
  nonempty : request.entryName ≠ []
  bytes : s.archives request.zipPath request.entryName = some (entries request.entryName)
  noFile : ∀ q, q <+: (base.path ++ request.entryName).dropLast → q ≠ [] → s.fs.files q = none
  noDir : s.fs.dirs (base.path ++ request.entryName) = false
  completes : s.fs.exists? (base.path ++ request.entryName) = false →
    Completes base request.extraction request.entryName (entries request.entryName)

/-- What the archives hold for an entry does not depend on the archive, and every extraction runs to its
end. -/
def EntriesAgree (base : BaseCache) (entries : Path → List UInt8) (s : ZipState) : ZipAction → Prop
  | .goto request => request.cancelled ≠ some .beforeZipExtract → s.GoesWell base entries request
  | .writeArchive _ _ => True

/-- Every file of the cache has the bytes of its entry. -/
def Cached (entries : Path → List UInt8) : Prop :=
  ∀ entryName bytes, s.fs.files (base.path ++ entryName) = some bytes → bytes = entries entryName

structure Invariant (base : BaseCache) (entries : Path → List UInt8) (s : ZipState) : Prop where
  cached : s.Cached base entries
  shown : s.AnswerShown base

variable {base} {s} {entries : Path → List UInt8} {request : ZipRequest}

theorem GoesWell.join_eq (h : s.GoesWell base entries request) :
    base.join request.entryName = base.path ++ request.entryName := by
  rw [BaseCache.join, if_neg]
  intro hhead
  exact (h.names "" (List.mem_of_mem_head? hhead)).1 rfl

theorem GoesWell.path_names (h : s.GoesWell base entries request) :
    ∀ component ∈ base.path ++ request.entryName, IsName component := by
  intro component hmem
  rcases List.mem_append.mp hmem with hmem | hmem
  · exact base.names component hmem
  · exact h.names component hmem

/-- The file of the request is there with the bytes of its entry, and no other file has changed. -/
structure Extracted (base : BaseCache) (s : ZipState) (entries : Path → List UInt8)
    (request : ZipRequest) (fs : FileSystem) : Prop where
  found : fs.resolve [] (base.path ++ request.entryName) = some (base.path ++ request.entryName)
  bytes : fs.files (base.path ++ request.entryName) = some (entries request.entryName)
  others : ∀ place, place ≠ base.path ++ request.entryName → fs.files place = s.fs.files place

theorem GoesWell.extract (h : s.GoesWell base entries request)
    (hcompletes : Completes base request.extraction request.entryName (entries request.entryName)) :
    Extracted base s entries request (s.extract base request) := by
  have hnames := h.path_names
  have hparent : ∀ component ∈ (base.path ++ request.entryName).dropLast, IsName component :=
    fun component hmem => hnames component (List.mem_of_mem_dropLast hmem)
  have hnoFile : ∀ q, q <+: (base.path ++ request.entryName).dropLast → q ≠ [] →
      s.fs.files ([] ++ q) = none := h.noFile
  obtain ⟨hfiles, hdirs⟩ := FileSystem.createDirAll_spec hparent hnoFile
  have htake : (base.path ++ request.entryName).dropLast.take request.extraction.dirsMade =
      (base.path ++ request.entryName).dropLast := List.take_of_length_le hcompletes.dirs
  have hbytes : (entries request.entryName).take request.extraction.bytesCopied =
      entries request.entryName := List.take_of_length_le hcompletes.copied
  have hresolve : (s.fs.createDirAll [] (base.path ++ request.entryName).dropLast).resolve []
      (base.path ++ request.entryName) = some (base.path ++ request.entryName) := by
    refine FileSystem.resolve_of_dirs hnames fun q hq hne => ?_
    exact (hdirs _).mpr (Or.inr ⟨q, hq, hne, rfl⟩)
  have hnoDir : (s.fs.createDirAll [] (base.path ++ request.entryName).dropLast).dirs
      (base.path ++ request.entryName) = false := by
    rw [Bool.eq_false_iff]
    intro hdir
    rcases (hdirs _).mp hdir with hdir | ⟨q, hq, -, hself⟩
    · rw [h.noDir] at hdir
      cases hdir
    · -- The path is longer than every directory on the way to it.
      have hlength := hq.length_le
      have hpos : 0 < request.entryName.length := List.length_pos_iff.mpr h.nonempty
      have hself : q = base.path ++ request.entryName := hself.symm
      rw [hself, List.length_dropLast, List.length_append] at hlength
      omega
  have heq : s.extract base request =
      { s.fs.createDirAll [] (base.path ++ request.entryName).dropLast with
        files := Function.update s.fs.files (base.path ++ request.entryName)
          (some (entries request.entryName)) } := by
    rw [ZipState.extract, h.join_eq, h.bytes]
    simp only [hcompletes.opened, hcompletes.created, Bool.and_self, if_true, htake, hbytes]
    rw [FileSystem.write, hresolve]
    simp only [hnoDir, hfiles, Bool.false_eq_true, if_false]
  rw [heq]
  refine ⟨?_, Function.update_self _ _ _, fun place hne => Function.update_of_ne hne _ _⟩
  refine FileSystem.resolve_of_dirs hnames fun q hq hne => ?_
  exact (hdirs _).mpr (Or.inr ⟨q, hq, hne, rfl⟩)

theorem GoesWell.ensureExtracted (h : s.GoesWell base entries request)
    (hcached : s.Cached base entries) :
    Extracted base s entries request (s.ensureExtracted base request) := by
  rw [ZipState.ensureExtracted, h.join_eq]
  cases hexists : s.fs.exists? (base.path ++ request.entryName) with
  | false => exact h.extract (h.completes hexists)
  | true =>
    rw [FileSystem.exists?] at hexists
    cases hplace : s.fs.resolve [] (base.path ++ request.entryName) with
    | none =>
      rw [hplace] at hexists
      cases hexists
    | some place =>
      have hself : place = base.path ++ request.entryName :=
        FileSystem.resolve_eq h.path_names hplace
      rw [hplace, hself] at hexists
      simp only [h.noDir, Bool.or_false] at hexists
      obtain ⟨bytes, hbytes⟩ := Option.isSome_iff_exists.mp hexists
      refine ⟨by rw [if_pos rfl, hplace, hself], ?_, fun _ _ => rfl⟩
      rw [if_pos rfl, hbytes, hcached _ _ hbytes]

theorem Extracted.cached {fs : FileSystem} (h : Extracted base s entries request fs)
    (hcached : s.Cached base entries) {answer : Option (String × Path × Path)} :
    ({ s with fs := fs, answer := answer } : ZipState).Cached base entries := by
  intro entryName bytes hbytes
  by_cases hself : entryName = request.entryName
  · rw [hself] at hbytes ⊢
    exact (Option.some.inj (h.bytes.symm.trans hbytes)).symm
  · have hne : base.path ++ entryName ≠ base.path ++ request.entryName :=
      fun heq => hself (List.append_cancel_left heq)
    exact hcached entryName bytes ((h.others _ hne).symm.trans hbytes)

/-! ## Every history -/

theorem Invariant.step {next : ZipState} (h : s.Invariant base entries) {a : ZipAction}
    (hnext : s.step base a = some next) (hcond : s.EntriesAgree base entries a) :
    next.Invariant base entries := by
  cases a with
  | writeArchive zipPath archive =>
    cases hnext
    exact ⟨h.cached, fun _ _ _ hanswer => by cases hanswer⟩
  | goto request =>
    cases hnext
    rw [goto]
    split
    · exact ⟨h.cached, fun _ _ _ hanswer => by cases hanswer⟩
    · rename_i hcancelled
      have hextracted := (hcond (by rw [hcancelled]; decide)).ensureExtracted h.cached
      exact ⟨hextracted.cached h.cached, fun _ _ _ hanswer => by cases hanswer⟩
    · rename_i hcancelled
      have hwell := hcond (by rw [hcancelled]; decide)
      have hextracted := hwell.ensureExtracted h.cached
      refine ⟨hextracted.cached h.cached, fun zipPath entryName path hanswer => ?_⟩
      cases hanswer
      rw [hwell.join_eq]
      exact ⟨_, hextracted.found, List.prefix_append _ _, _, hwell.bytes, hextracted.bytes⟩

/-- When the archives agree on their entries and every extraction runs to its end, every answer shows
the entry that was asked for. -/
theorem requested_source_shown (base : BaseCache) (entries : Path → List UInt8) (start s : ZipState)
    (hempty : ∀ entryName, start.fs.files (base.path ++ entryName) = none) (hstart : start.answer = none)
    (actions : List ZipAction) (hrun : run (step base) start actions = some s)
    (hmeets : Meets (step base) (EntriesAgree base entries) start actions) :
    s.AnswerShown base := by
  have hcached : start.Cached base entries := by
    intro entryName bytes hbytes
    rw [hempty] at hbytes
    cases hbytes
  have hshown : start.AnswerShown base := by
    intro zipPath entryName path hanswer
    rw [hstart] at hanswer
    cases hanswer
  have h : s.Invariant base entries := by
    refine invariant_of_meets ?_ actions start s hrun hmeets ⟨hcached, hshown⟩
    intro _ _ _ hnext hcond h
    exact h.step hnext hcond
  exact h.shown

/-! ## Two archives with one name -/

def temporaryCache : BaseCache :=
  ⟨["tmp", "java_analyzer_sources"], by decide⟩

def emptyFiles : FileSystem :=
  ⟨fun _ => none, fun path => path = ["tmp"]⟩

def stringEntry : Path := ["java.base", "java", "lang", "String.java"]

/-- `src.zip` of a JDK, with one entry. -/
def jdkSources (bytes : List UInt8) : Path → Option (List UInt8) :=
  fun entryName => if entryName = stringEntry then some bytes else none

def twoJdks : ZipState where
  fs := emptyFiles
  archives zipPath := if zipPath = "/jdk-17/src.zip" then jdkSources [17]
    else if zipPath = "/jdk-21/src.zip" then jdkSources [21] else fun _ => none
  answer := none

def gotoString (zipPath : String) : ZipAction :=
  .goto ⟨zipPath, stringEntry, ⟨5, true, true, 1⟩, none⟩

theorem one_jdk_shown : ∃ s, run (step temporaryCache) twoJdks
    [gotoString "/jdk-17/src.zip", gotoString "/jdk-17/src.zip"] = some s ∧
      s.AnswerShown temporaryCache := by
  have hwell (s : ZipState) (hs : s = twoJdks ∨
      s = twoJdks.goto temporaryCache ⟨"/jdk-17/src.zip", stringEntry, ⟨5, true, true, 1⟩, none⟩) :
      s.GoesWell temporaryCache (fun _ => [17])
        ⟨"/jdk-17/src.zip", stringEntry, ⟨5, true, true, 1⟩, none⟩ := by
    refine ⟨by decide, by decide, ?_, ?_, ?_, fun _ => ⟨by decide, rfl, rfl, by decide⟩⟩
    · rcases hs with rfl | rfl <;> rfl
    · intro q hq hne
      have hall : ∀ q ∈ (temporaryCache.path ++ stringEntry).dropLast.inits, s.fs.files q = none := by
        rcases hs with rfl | rfl <;> decide
      exact hall q ((List.mem_inits _ _).mpr hq)
    · rcases hs with rfl | rfl <;> rfl
  exact ⟨_, rfl, requested_source_shown temporaryCache (fun _ => [17]) twoJdks _ (fun _ => rfl) rfl
    [gotoString "/jdk-17/src.zip", gotoString "/jdk-17/src.zip"] rfl
    (.cons (fun _ => hwell _ (Or.inl rfl)) rfl (.cons (fun _ => hwell _ (Or.inr rfl)) rfl trivial))⟩

/-- The file of the first archive stays in the cache. -/
theorem other_jdk_not_shown : ¬ ∀ (base : BaseCache) (start s : ZipState),
    (∀ entryName, start.fs.files (base.path ++ entryName) = none) → start.answer = none →
      ∀ actions, run (step base) start actions = some s → s.AnswerShown base := by
  intro hall
  have hshown := hall temporaryCache twoJdks _ (fun _ => rfl) rfl
    [gotoString "/jdk-17/src.zip", gotoString "/jdk-21/src.zip"] rfl
  obtain ⟨place, hplace, -, bytes, hbytes, hfile⟩ := hshown _ _ _ rfl
  cases (Option.some.inj hplace : ["tmp", "java_analyzer_sources"] ++ stringEntry = place)
  have h21 : [21] = bytes := Option.some.inj hbytes
  have h17 : [17] = bytes := Option.some.inj hfile
  exact absurd (h21.trans h17.symm) (by decide)

end ZipState

end JavaAnalyzer.Lsp
