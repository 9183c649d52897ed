import JavaAnalyzer.Index.SourceBuckets
import JavaAnalyzer.Library.Interleaving
import JavaAnalyzer.Library.PercentEncoding

/-! # Origins of source files

The texts by which the classes of a source file are keyed: the scan writes the canonical path behind
`file://` as it is (`path_to_uri_str`), an upsert makes a URL of it (`file_url_from_path`), an open document
has the URL of the path that the editor knows, and a removal comes when there is no canonical path any more.
Paths are absolute ones of a Unix system. -/

namespace JavaAnalyzer.Workspace
set_option autoImplicit false
open Index Interleaving PercentEncoding

/-! ## Paths -/

/-- A component of a path. -/
structure FileName where
  bytes : List UInt8
  nonempty : bytes ≠ []
  noSlash : 0x2F ∉ bytes
deriving DecidableEq

/-- The names below the root. -/
abbrev FilePath := List FileName

def FilePath.bytes (path : FilePath) : List UInt8 :=
  path.flatMap fun name => 0x2F :: name.bytes

/-- `display` -/
def FilePath.display (path : FilePath) : String :=
  String.ofList (fromUtf8Lossy path.bytes)

variable (set : EncodeSet)

/-- `Url::from_file_path` -/
def urlFromFilePath (path : FilePath) : String :=
  "file://" ++ String.ofList (path.flatMap fun name => '/' :: encode set name.bytes)

/-- No name of the path has a byte that is percent-encoded. -/
def FilePath.Plain (path : FilePath) : Prop :=
  ∀ name ∈ path, PercentEncoding.Plain set name.bytes

instance (path : FilePath) : Decidable (path.Plain set) :=
  inferInstanceAs (Decidable (∀ name ∈ path, PercentEncoding.Plain set name.bytes))

variable {set}

/-! ## Two renderings of a path -/

/-- The percent-encoding that keeps slashes. -/
def keepSlashes (set : EncodeSet) : EncodeSet where
  encodes b := b ≠ 0x2F && set.encodes b
  ascii b h := by
    rw [Bool.and_eq_false_iff] at h
    rcases h with h | h
    · have hb : b = 0x2F := by simpa using h
      rw [hb]
      decide
    · exact set.ascii b h
  percent := by
    rw [set.percent]
    decide

theorem encode_keepSlashes {bytes : List UInt8} (h : 0x2F ∉ bytes) :
    encode (keepSlashes set) bytes = encode set bytes := by
  refine List.flatMap_congr fun b hb => ?_
  have hne : b ≠ 0x2F := fun heq => h (heq ▸ hb)
  have hsame : (keepSlashes set).encodes b = set.encodes b := by
    simp [keepSlashes, hne]
  rw [encodeByte, encodeByte, hsame]

theorem encode_bytes (path : FilePath) : encode (keepSlashes set) path.bytes =
    path.flatMap fun name => '/' :: encode set name.bytes := by
  induction path with
  | nil => rfl
  | cons name path ih =>
    have hslash : encodeByte (keepSlashes set) 0x2F = ['/'] := encodeByte_plain (by simp [keepSlashes])
    rw [FilePath.bytes, List.flatMap_cons, encode, List.flatMap_append, ← encode, ← encode,
      ← FilePath.bytes, ih, List.flatMap_cons, encode, List.flatMap_cons, hslash, ← encode,
      encode_keepSlashes name.noSlash]
    rfl

theorem plain_bytes {path : FilePath} :
    PercentEncoding.Plain (keepSlashes set) path.bytes ↔ path.Plain set := by
  constructor
  · intro h name hname b hb
    have hkept := h b (List.mem_flatMap.mpr ⟨name, hname, List.mem_cons_of_mem _ hb⟩)
    have hne : b ≠ 0x2F := fun heq => name.noSlash (heq ▸ hb)
    simpa [keepSlashes, hne] using hkept
  · intro h b hb
    obtain ⟨name, hname, hb⟩ := List.mem_flatMap.mp hb
    rcases List.mem_cons.mp hb with rfl | hb
    · simp [keepSlashes]
    · simp [keepSlashes, h name hname b hb]

theorem urlFromFilePath_eq (path : FilePath) : urlFromFilePath set path =
    "file://" ++ String.ofList (encode (keepSlashes set) path.bytes) := by
  rw [urlFromFilePath, encode_bytes]

theorem file_append_inj {a b : List Char} :
    "file://" ++ String.ofList a = "file://" ++ String.ofList b ↔ a = b := by
  constructor
  · intro h
    have hlist := congrArg String.toList h
    rw [String.toList_append, String.toList_append] at hlist
    exact String.ofList_injective (String.toList_inj.mp (List.append_cancel_left hlist))
  · rintro rfl
    rfl

/-- A path as it is displayed is its URL when nothing in it is encoded. -/
theorem display_eq_url_iff {path : FilePath} :
    "file://" ++ path.display = urlFromFilePath set path ↔ path.Plain set := by
  rw [urlFromFilePath_eq, FilePath.display, file_append_inj, lossy_eq_encode_iff, plain_bytes]

theorem FileName.ext_bytes {a b : FileName} (h : a.bytes = b.bytes) : a = b := by
  cases a
  cases b
  cases h
  rfl

theorem FilePath.bytes_inj {path path' : FilePath} (h : path.bytes = path'.bytes) : path = path' := by
  induction path generalizing path' with
  | nil =>
    cases path' with
    | nil => rfl
    | cons name path' => cases h
  | cons name path ih =>
    cases path' with
    | nil => cases h
    | cons name' path' =>
      have hnames : name.bytes ++ bytes path = name'.bytes ++ bytes path' := (List.cons.inj h).2
      have hstop : ∀ (n : FileName) (rest : FilePath),
          (n.bytes ++ bytes rest).takeWhile (fun b => b ≠ 0x2F) = n.bytes := by
        intro n rest
        rw [List.takeWhile_append_of_pos fun b hb => by
          simpa using fun heq : b = 0x2F => n.noSlash (heq ▸ hb)]
        cases rest with
        | nil => exact List.append_nil _
        | cons next rest =>
          rw [bytes, List.flatMap_cons, List.cons_append, List.takeWhile_cons_of_neg (by simp),
            List.append_nil]
      have hname : name.bytes = name'.bytes := by
        rw [← hstop name path, hnames, hstop name' path']
      rw [hname] at hnames
      rw [FileName.ext_bytes hname, ih (List.append_cancel_left hnames)]

theorem FilePath.Plain.url_inj {path path' : FilePath} (h : path.Plain set)
    (heq : urlFromFilePath set path' = urlFromFilePath set path) : path' = path := by
  rw [urlFromFilePath_eq, urlFromFilePath_eq, file_append_inj] at heq
  exact FilePath.bytes_inj ((plain_bytes.mpr h).encode_inj heq)

/-! ## The keys of a file -/

/-- Where the symbolic links of a path lead. -/
structure FileSystem where
  canonical : FilePath → FilePath
  canonical_canonical : ∀ path, canonical (canonical path) = canonical path

namespace FileSystem

variable (set) (fs : FileSystem) (onDisk : FilePath → Bool) (path : FilePath)

/-- `canonicalize`, of a path that leads to a file on the disk. -/
def canonicalize : Option FilePath :=
  if onDisk (fs.canonical path) then some (fs.canonical path) else none

def pathToUriStr : String :=
  "file://" ++ ((fs.canonicalize onDisk path).getD path).display

def fileUrlFromPath : String :=
  urlFromFilePath set ((fs.canonicalize onDisk path).getD path)

/-- The scan's key, the key of an upsert, the client's URL and the key of a removal after the file was
deleted are one. -/
def OneOrigin : Prop :=
  ∀ before after : FilePath → Bool, before (fs.canonical path) = true → after (fs.canonical path) = false →
    fs.pathToUriStr before path = fs.fileUrlFromPath set before path ∧
      fs.fileUrlFromPath set before path = urlFromFilePath set path ∧
        urlFromFilePath set path = fs.fileUrlFromPath set after path

/-- The path goes through no symbolic link, and nothing in it is percent-encoded. -/
def PlainPath : Prop :=
  fs.canonical path = path ∧ path.Plain set

variable {set fs onDisk path}

theorem canonicalize_of_onDisk (h : onDisk (fs.canonical path) = true) :
    fs.canonicalize onDisk path = some (fs.canonical path) := if_pos h

theorem PlainPath.canonicalize (h : fs.PlainPath set path) (onDisk : FilePath → Bool) :
    (fs.canonicalize onDisk path).getD path = path := by
  rw [FileSystem.canonicalize, h.1]
  split <;> rfl

theorem PlainPath.fileUrlFromPath (h : fs.PlainPath set path) (onDisk : FilePath → Bool) :
    fs.fileUrlFromPath set onDisk path = urlFromFilePath set path := by
  rw [FileSystem.fileUrlFromPath, h.canonicalize]

theorem PlainPath.pathToUriStr (h : fs.PlainPath set path) (onDisk : FilePath → Bool) :
    fs.pathToUriStr onDisk path = urlFromFilePath set path := by
  rw [FileSystem.pathToUriStr, h.canonicalize, display_eq_url_iff.mpr h.2]

theorem oneOrigin_iff : fs.OneOrigin set path ↔ fs.PlainPath set path := by
  constructor
  · intro h
    obtain ⟨hscan, hclient, -⟩ := h (fun _ => true) (fun _ => false) rfl rfl
    rw [fileUrlFromPath, canonicalize_of_onDisk rfl, Option.getD_some] at hclient
    rw [pathToUriStr, fileUrlFromPath, canonicalize_of_onDisk rfl, Option.getD_some,
      display_eq_url_iff] at hscan
    have hpath := hscan.url_inj hclient.symm
    exact ⟨hpath.symm, hpath ▸ hscan⟩
  · intro h before after _ _
    exact ⟨(h.pathToUriStr before).trans (h.fileUrlFromPath before).symm, h.fileUrlFromPath before,
      (h.fileUrlFromPath after).symm⟩

end FileSystem

/-! ## One bucket under the keys -/

theorem mem_of_update {b : BucketIndex} {o : ClassOrigin} {classes : List ClassMetadata}
    {declarations : Option SourceDeclarationBatch} (ho : ∀ c ∈ classes, c.origin = o)
    (hjar : ∀ c ∈ b.iterAllClasses, c.origin.isJar = false) (hne : classes ≠ []) {c : ClassMetadata}
    (hc : c ∈ (b.updateSourceWithDeclarations o classes declarations).1.iterAllClasses) :
    c ∈ classes ∨ c ∈ b.iterAllClasses ∧ c.origin ≠ o := by
  have hstored : ∀ d ∈ classes, ∀ e, b.inner.getClass d.internalName = some e →
      e.origin.isJar = false := fun d _ e he => by
    refine hjar e (BucketIndex.mem_iterAllClasses.mpr ?_)
    rw [BucketIndex.getClass_internalName he]
    exact he
  by_cases horigin : c.origin = o
  · have hreplaces := b.invariant.replaces_of_ne_nil declarations ho hstored hne
    exact .inl (BucketState.mem_of_lastNamed ((hreplaces.contribution c).mp ⟨hc, horigin⟩)).1
  · cases hchanged : (b.inner.updateSourceWithDeclarations o classes declarations).2 with
    | false =>
      have hsame : (b.updateSourceWithDeclarations o classes declarations).1.inner = b.inner :=
        BucketState.updateSource_of_false hchanged
      rw [BucketIndex.iterAllClasses, hsame] at hc
      exact .inr ⟨hc, horigin⟩
    | true =>
      have hget := BucketState.getClass_updateSource b.invariant o classes declarations c.internalName
        hchanged
      rw [BucketIndex.mem_iterAllClasses] at hc
      rw [BucketIndex.getClass, BucketIndex.updateSourceWithDeclarations, hget,
        Option.or_eq_some_iff] at hc
      rcases hc with hnew | ⟨-, hold⟩
      · exact .inl (List.mem_filter.mp (BucketState.mem_of_lastNamed hnew).1).1
      · exact .inr ⟨BucketIndex.mem_iterAllClasses.mpr (Option.filter_eq_some_iff.mp hold).1, horigin⟩

theorem mem_of_remove {b : BucketIndex} {o : ClassOrigin} {c : ClassMetadata}
    (hc : c ∈ (b.removeByOrigin o).1.iterAllClasses) : c ∈ b.iterAllClasses ∧ c.origin ≠ o := by
  rw [BucketIndex.mem_iterAllClasses, BucketIndex.getClass, BucketIndex.removeByOrigin,
    BucketState.getClass_removeByOrigin b.invariant, Option.filter_eq_some_iff] at hc
  exact ⟨BucketIndex.mem_iterAllClasses.mpr hc.1, by simpa using hc.2⟩

/-! ## Files over time -/

namespace SourceOrigin

/-- What is extracted from the text of a file, for the origin that it is given. -/
structure Extraction where
  classes : ClassOrigin → List ClassMetadata
  declarations : Option SourceDeclarationBatch

/-- The bucket of the files' source root, and the classes that each file contributed at any time and those
that it contributed last, by its canonical path. -/
structure State where
  onDisk : FilePath → Bool
  openDocuments : List String
  index : BucketIndex
  contributed : FilePath → List ClassMetadata
  current : FilePath → List ClassMetadata

inductive Action where
  | write (path : FilePath)
  | delete (path : FilePath)
  | scan (path : FilePath) (extraction : Extraction)
  | upsert (path : FilePath) (extraction : Extraction)
  | remove (path : FilePath)
  | openDocument (path : FilePath)
  | reindexDocument (path : FilePath) (extraction : Extraction)
  | closeDocument (path : FilePath)
  | reconcile (path : FilePath) (extraction : Extraction)

namespace State

def new : State :=
  ⟨fun _ => false, [], .new, fun _ => [], fun _ => []⟩

variable (set : EncodeSet) (fs : FileSystem) (s : State)

def publish (path : FilePath) (key : String) (extraction : Extraction) : State :=
  { s with
    index := (s.index.updateSourceWithDeclarations (.sourceFile key)
      (extraction.classes (.sourceFile key)) extraction.declarations).1
    contributed := Function.update s.contributed (fs.canonical path)
      (extraction.classes (.sourceFile key) ++ s.contributed (fs.canonical path))
    current := Function.update s.current (fs.canonical path) (extraction.classes (.sourceFile key)) }

/-- `remove_source_origin_for_uri_blocking` -/
def removeOrigin (path : FilePath) (key : String) : State :=
  { s with
    index := (s.index.removeByOrigin (.sourceFile key)).1
    current := Function.update s.current (fs.canonical path) [] }

/-- `load_source_input`, and the update of a scan. -/
def scan (path : FilePath) (extraction : Extraction) : State :=
  if s.onDisk (fs.canonical path) then s.publish fs path (fs.pathToUriStr s.onDisk path) extraction
  else s

/-- `remove_disk_source_path_blocking` -/
def removeDiskSourcePath (path : FilePath) : State :=
  if fs.fileUrlFromPath set s.onDisk path ∈ s.openDocuments then s
  else s.removeOrigin fs path (fs.fileUrlFromPath set s.onDisk path)

/-- `upsert_disk_source_path_blocking`, of a tracked path. -/
def upsertDiskSourcePath (path : FilePath) (extraction : Extraction) : State :=
  if fs.fileUrlFromPath set s.onDisk path ∈ s.openDocuments then s
  else if s.onDisk (fs.canonical path) then
    s.publish fs path (fs.fileUrlFromPath set s.onDisk path) extraction
  else s.removeDiskSourcePath set fs path

/-- `reindex_document_from_workspace` -/
def reindexDocument (path : FilePath) (extraction : Extraction) : State :=
  if urlFromFilePath set path ∈ s.openDocuments then
    s.publish fs path (urlFromFilePath set path) extraction
  else s

/-- `reconcile_closed_document_blocking` -/
def reconcileClosedDocument (path : FilePath) (extraction : Extraction) : State :=
  if urlFromFilePath set path ∈ s.openDocuments then s
  else if s.onDisk (fs.canonical path) then s.upsertDiskSourcePath set fs path extraction
  else s.removeOrigin fs path (urlFromFilePath set path)

def step (set : EncodeSet) (fs : FileSystem) (s : State) : Action → Option State
  | .write path => some { s with onDisk := Function.update s.onDisk (fs.canonical path) true }
  | .delete path => some { s with onDisk := Function.update s.onDisk (fs.canonical path) false }
  | .scan path extraction => some (s.scan fs path extraction)
  | .upsert path extraction => some (s.upsertDiskSourcePath set fs path extraction)
  | .remove path => some (s.removeDiskSourcePath set fs path)
  | .openDocument path =>
    some { s with openDocuments := urlFromFilePath set path :: s.openDocuments }
  | .reindexDocument path extraction => some (s.reindexDocument set fs path extraction)
  | .closeDocument path =>
    some { s with openDocuments := s.openDocuments.filter (· ≠ urlFromFilePath set path) }
  | .reconcile path extraction => some (s.reconcileClosedDocument set fs path extraction)

/-- What a file contributed is in the index only if the file contributed it last. -/
def NothingStale : Prop :=
  ∀ path, ∀ c ∈ s.contributed path, c ∈ s.index.iterAllClasses → c ∈ s.current path

/-- The classes that are extracted have the file's origin, and if there are none the file has contributed
none before. -/
def Replaces (path : FilePath) (extraction : Extraction) : Prop :=
  (∀ origin, ∀ c ∈ extraction.classes origin, c.origin = origin) ∧
    ∀ origin, extraction.classes origin ≠ [] ∨ s.current (fs.canonical path) = []

/-- An action publishes and removes under plain paths, and what it publishes replaces. -/
def KeepsOrigin (set : EncodeSet) (fs : FileSystem) (s : State) : Action → Prop
  | .scan path extraction | .upsert path extraction | .reindexDocument path extraction
  | .reconcile path extraction => fs.PlainPath set path ∧ s.Replaces fs path extraction
  | .remove path => fs.PlainPath set path
  | _ => True

/-- The classes of a file have its origin, and those in the index are what it contributed last. -/
structure Invariant : Prop where
  contributed : ∀ path, ∀ c ∈ s.contributed path,
    fs.PlainPath set path ∧ c.origin = .sourceFile (urlFromFilePath set path)
  stored : ∀ c ∈ s.index.iterAllClasses, ∃ path, fs.PlainPath set path ∧
    c.origin = .sourceFile (urlFromFilePath set path) ∧ c ∈ s.current path

variable {set} {fs} {s} {path : FilePath}

theorem invariant_new : State.new.Invariant set fs :=
  ⟨fun _ c hc => (by cases hc), fun c hc => (by cases hc)⟩

theorem Invariant.nothingStale (h : s.Invariant set fs) : s.NothingStale := by
  intro path c hc hstored
  obtain ⟨hplain, horigin⟩ := h.contributed path c hc
  obtain ⟨other, -, horiginOther, hcurrent⟩ := h.stored c hstored
  have hurl := ClassOrigin.sourceFile.inj (horiginOther.symm.trans horigin)
  rwa [hplain.2.url_inj hurl] at hcurrent

theorem Invariant.not_jar (h : s.Invariant set fs) :
    ∀ c ∈ s.index.iterAllClasses, c.origin.isJar = false := by
  intro c hc
  obtain ⟨path, -, horigin, -⟩ := h.stored c hc
  rw [horigin]
  rfl

/-- The classes of another origin are those of another file. -/
theorem Invariant.update_current (h : s.Invariant set fs) (hplain : fs.PlainPath set path)
    {c : ClassMetadata} (hc : c ∈ s.index.iterAllClasses)
    (hother : c.origin ≠ .sourceFile (urlFromFilePath set path)) (classes : List ClassMetadata) :
    ∃ other, fs.PlainPath set other ∧ c.origin = .sourceFile (urlFromFilePath set other) ∧
      c ∈ Function.update s.current (fs.canonical path) classes other := by
  obtain ⟨other, hplainOther, horigin, hcurrent⟩ := h.stored c hc
  refine ⟨other, hplainOther, horigin, ?_⟩
  have hne : other ≠ fs.canonical path := by
    rintro rfl
    rw [hplain.1] at horigin
    exact hother horigin
  rwa [Function.update_of_ne hne]

theorem Invariant.publish (h : s.Invariant set fs) (hplain : fs.PlainPath set path)
    {extraction : Extraction} (hreplaces : s.Replaces fs path extraction) :
    (s.publish fs path (urlFromFilePath set path) extraction).Invariant set fs := by
  obtain ⟨horigins, hempty⟩ := hreplaces
  constructor
  · intro other c hc
    rw [State.publish, hplain.1] at hc
    dsimp only at hc
    by_cases hother : other = path
    · subst hother
      rw [Function.update_self] at hc
      rcases List.mem_append.mp hc with hnew | hold
      · exact ⟨hplain, horigins _ c hnew⟩
      · exact h.contributed other c hold
    · rw [Function.update_of_ne hother] at hc
      exact h.contributed other c hc
  · intro c hc
    by_cases hne : extraction.classes (.sourceFile (urlFromFilePath set path)) = []
    · have hnone := (hempty (.sourceFile (urlFromFilePath set path))).resolve_left (not_not_intro hne)
      have hsame : (s.publish fs path (urlFromFilePath set path) extraction).index.inner =
          s.index.inner := by
        change (s.index.inner.updateSourceWithDeclarations _ _ _).1 = _
        rw [hne, BucketState.updateSource_nil]
      rw [BucketIndex.iterAllClasses, hsame] at hc
      refine h.update_current hplain hc ?_ _
      intro heq
      obtain ⟨other, hplainOther, horigin, hcurrent⟩ := h.stored c hc
      have hurl := ClassOrigin.sourceFile.inj (horigin.symm.trans heq)
      rw [hplain.2.url_inj hurl, ← hplain.1, hnone] at hcurrent
      cases hcurrent
    · rcases mem_of_update (horigins _) h.not_jar hne hc with hnew | ⟨hold, hother⟩
      · refine ⟨path, hplain, horigins _ c hnew, ?_⟩
        change c ∈ Function.update s.current (fs.canonical path) _ path
        rw [hplain.1, Function.update_self]
        exact hnew
      · exact h.update_current hplain hold hother _

theorem Invariant.removeOrigin (h : s.Invariant set fs) (hplain : fs.PlainPath set path) :
    (s.removeOrigin fs path (urlFromFilePath set path)).Invariant set fs := by
  refine ⟨h.contributed, fun c hc => ?_⟩
  obtain ⟨hold, hother⟩ := mem_of_remove hc
  exact h.update_current hplain hold hother []

theorem Invariant.removeDiskSourcePath (h : s.Invariant set fs) (hplain : fs.PlainPath set path) :
    (s.removeDiskSourcePath set fs path).Invariant set fs := by
  rw [State.removeDiskSourcePath, hplain.fileUrlFromPath]
  split
  · exact h
  · exact h.removeOrigin hplain

theorem Invariant.upsertDiskSourcePath (h : s.Invariant set fs) (hplain : fs.PlainPath set path)
    {extraction : Extraction} (hreplaces : s.Replaces fs path extraction) :
    (s.upsertDiskSourcePath set fs path extraction).Invariant set fs := by
  rw [State.upsertDiskSourcePath, hplain.fileUrlFromPath]
  split
  · exact h
  · split
    · exact h.publish hplain hreplaces
    · exact h.removeDiskSourcePath hplain

theorem Invariant.step (h : s.Invariant set fs) {a : Action} {next : State}
    (hnext : s.step set fs a = some next) (hcond : s.KeepsOrigin set fs a) :
    next.Invariant set fs := by
  cases a with
  | write path | delete path | openDocument path | closeDocument path =>
    cases hnext
    exact ⟨h.contributed, h.stored⟩
  | scan path extraction =>
    cases hnext
    rw [State.scan, hcond.1.pathToUriStr]
    split
    · exact h.publish hcond.1 hcond.2
    · exact h
  | upsert path extraction =>
    cases hnext
    exact h.upsertDiskSourcePath hcond.1 hcond.2
  | remove path =>
    cases hnext
    exact h.removeDiskSourcePath hcond
  | reindexDocument path extraction =>
    cases hnext
    rw [State.reindexDocument]
    split
    · exact h.publish hcond.1 hcond.2
    · exact h
  | reconcile path extraction =>
    cases hnext
    rw [State.reconcileClosedDocument]
    split
    · exact h
    · split
      · exact h.upsertDiskSourcePath hcond.1 hcond.2
      · exact h.removeOrigin hcond.1

end State

/-- The bytes of a path segment that the URL standard encodes, with the separators and the percent sign. -/
def pathSegment : EncodeSet where
  encodes b := b < 0x21 || 0x7E < b ||
    [0x22, 0x23, 0x25, 0x2F, 0x3C, 0x3E, 0x3F, 0x5C, 0x60, 0x7B, 0x7D].contains b
  ascii b h := by
    simp only [Bool.or_eq_false_iff, decide_eq_false_iff_not] at h
    obtain ⟨⟨-, h⟩, -⟩ := h
    rw [UInt8.lt_iff_toNat_lt] at h ⊢
    have hle : b.toNat ≤ 126 := by simpa using h
    have hlt : b.toNat < 128 := by omega
    simpa using hlt
  percent := by decide

/-- A file system without symbolic links. -/
def plainFileSystem : FileSystem :=
  ⟨id, fun _ => rfl⟩

/-- `/A.java` -/
def plainFile : FilePath :=
  [⟨[0x41, 0x2E, 0x6A, 0x61, 0x76, 0x61], by decide, by decide⟩]

/-- `/a b.java` -/
def spacedFile : FilePath :=
  [⟨[0x61, 0x20, 0x62, 0x2E, 0x6A, 0x61, 0x76, 0x61], by decide, by decide⟩]

/-- A file with one class. -/
def oneClass (name : String) : Extraction where
  classes origin := [.bare none name name none origin]
  declarations := none

/-- The file is scanned, and then its class is renamed. -/
def renamed (path : FilePath) : List Action :=
  [.write path, .scan path (oneClass "Old"), .upsert path (oneClass "New")]

end SourceOrigin

end JavaAnalyzer.Workspace
