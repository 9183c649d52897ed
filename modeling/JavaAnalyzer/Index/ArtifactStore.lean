import JavaAnalyzer.Index.ArtifactReader
import JavaAnalyzer.Index.ArchiveRoundTrip

/-! # The artifact store

`index/store/lmdb.rs`: artifacts under ascending ids, found again by kind and content hash. Each call is
one transaction, and a failing one leaves the databases as they were. What rkyv writes it reads back
(`RowCodec`). `M` is the record of a Java module, which the store only hands through. -/

namespace JavaAnalyzer.Index
set_option autoImplicit false

inductive ArtifactKind where
  | jar
  | jdkModulesImage
  | sourceZip
  | unknown
deriving DecidableEq, Repr

structure ArtifactFingerprint where
  contentHash : UInt64
  byteLen : UInt64
deriving DecidableEq, Repr

structure ArtifactSource where
  sourcePath : String
  kind : ArtifactKind
  fingerprint : ArtifactFingerprint
deriving DecidableEq, Repr

structure ArtifactMetadata where
  id : ArtifactId
  kind : ArtifactKind
  sourcePath : String
  contentHash : UInt64
  byteLen : UInt64
  storedAtUnixSecs : UInt64
deriving DecidableEq, Repr

section Rows

variable {M : Type}

structure IndexedArchiveData (M : Type) where
  classes : List ClassMetadata
  modules : List M
deriving DecidableEq

structure StoredArtifact (M : Type) where
  metadata : ArtifactMetadata
  data : IndexedArchiveData M
deriving DecidableEq

/-- `ArtifactPayloadV1` -/
structure ArtifactPayload (M : Type) where
  classes : List ArchiveClassStub
  modules : List M
deriving DecidableEq

def ArtifactPayload.fromData (data : IndexedArchiveData M) : ArtifactPayload M where
  classes := data.classes.map ArchiveClassStub.fromClassMetadata
  modules := data.modules

def IndexedArchiveData.fromPayload (payload : ArtifactPayload M) : IndexedArchiveData M where
  classes := payload.classes.map ArchiveClassStub.materialize
  modules := payload.modules

/-- The data that comes back for what was stored has the same classes when all are reduced. -/
theorem classes_fromPayload_iff (data : IndexedArchiveData M) :
    data.classes = (IndexedArchiveData.fromPayload (ArtifactPayload.fromData data)).classes ↔
      ∀ c ∈ data.classes, c.Reduced := by
  rw [eq_comm, IndexedArchiveData.fromPayload, ArtifactPayload.fromData, List.map_map,
    map_eq_self_iff]
  exact forall₂_congr fun c _ => materialize_class_iff c

/-- The bytes of rows of one type. Writing may fail. -/
structure RowCodec (Row : Type) where
  serialize : Row → Option (List UInt8)
  deserialize : List UInt8 → Option Row
  deserialize_serialize : ∀ row bytes, serialize row = some bytes → deserialize bytes = some row

/-- How the two kinds of rows are written. -/
structure Rkyv (M : Type) where
  metaRow : RowCodec ArtifactMetadata
  payloadRow : RowCodec (ArtifactPayload M)

end Rows

/-! ## The databases -/

def indexSchemaVersion : UInt32 := 1

/-- The number of a kind in the keys of `artifact_by_hash`. -/
def ArtifactKind.tag : ArtifactKind → UInt8
  | .jar => 1
  | .jdkModulesImage => 2
  | .sourceZip => 3
  | .unknown => 255

/-- `encode_hash_key`: a byte for the kind and eight for the content hash. -/
def encodeHashKey (source : ArtifactSource) : UInt8 × UInt64 :=
  (source.kind.tag, source.fingerprint.contentHash)

structure LmdbIndexStore where
  schemaVersion : Option UInt32
  nextArtifactId : Option UInt64
  artifacts : ArtifactId → Option (List UInt8)
  artifactByHash : UInt8 × UInt64 → Option ArtifactId
  artifactPayloads : ArtifactId → Option (List UInt8)

namespace LmdbIndexStore

/-- An environment whose databases were just created. -/
def empty : LmdbIndexStore where
  schemaVersion := none
  nextArtifactId := none
  artifacts _ := none
  artifactByHash _ := none
  artifactPayloads _ := none

def initializeSchema (s : LmdbIndexStore) : LmdbIndexStore :=
  { s with schemaVersion := some indexSchemaVersion, nextArtifactId := some 1 }

/-- `open`: a store of another schema version is removed. -/
def openStore (s : LmdbIndexStore) : LmdbIndexStore :=
  match s.schemaVersion with
  | some version => if version ≠ indexSchemaVersion then empty.initializeSchema else s
  | none => s.initializeSchema

variable {M : Type} (rkyv : Rkyv M) (s : LmdbIndexStore)

/-- `load_by_id_read` and `load_by_id_write`. The outer `none` is an error. -/
def loadById (id : ArtifactId) : Option (Option (StoredArtifact M)) :=
  match s.artifacts id, s.artifactPayloads id with
  | some metaBytes, some payloadBytes => do
    let metadata ← rkyv.metaRow.deserialize metaBytes
    let payload ← rkyv.payloadRow.deserialize payloadBytes
    some (some ⟨metadata, .fromPayload payload⟩)
  | _, _ => some none

def loadArtifact (source : ArtifactSource) : Option (Option (StoredArtifact M)) :=
  match s.artifactByHash (encodeHashKey source) with
  | some id => s.loadById rkyv id
  | none => some none

/-- `checked_add(1)` -/
def advanceId (current : UInt64) : Option UInt64 :=
  if current.toNat + 1 < UInt64.size then some (current + 1) else none

/-- The rows of a new artifact. -/
def writeArtifact (source : ArtifactSource) (data : IndexedArchiveData M) (now : UInt64) :
    Option (LmdbIndexStore × StoredArtifact M) := do
  let current ← s.nextArtifactId
  let next ← advanceId current
  let metadata : ArtifactMetadata :=
    { id := ⟨current⟩
      kind := source.kind
      sourcePath := source.sourcePath
      contentHash := source.fingerprint.contentHash
      byteLen := source.fingerprint.byteLen
      storedAtUnixSecs := now }
  let metaBytes ← rkyv.metaRow.serialize metadata
  let payloadBytes ← rkyv.payloadRow.serialize (.fromData data)
  some ({ s with
    nextArtifactId := some next
    artifacts := Function.update s.artifacts ⟨current⟩ (some metaBytes)
    artifactPayloads := Function.update s.artifactPayloads ⟨current⟩ (some payloadBytes)
    artifactByHash := Function.update s.artifactByHash (encodeHashKey source) (some ⟨current⟩) },
    ⟨metadata, data⟩)

/-- `store_artifact` at the time `now`. An artifact that is already there is returned as it is
loaded. -/
def storeArtifact (source : ArtifactSource) (data : IndexedArchiveData M) (now : UInt64) :
    Option (LmdbIndexStore × StoredArtifact M) := do
  match ← s.loadArtifact rkyv source with
  | some existing => some (s, existing)
  | none => s.writeArtifact rkyv source data now

/-! ## Runs -/

/-- What any session does to the store. -/
inductive Action (M : Type) where
  | store (source : ArtifactSource) (data : IndexedArchiveData M) (now : UInt64)
  | reopen

def step : Action M → LmdbIndexStore
  | .store source data now => ((s.storeArtifact rkyv source data now).map Prod.fst).getD s
  | .reopen => s.openStore

def run (actions : List (Action M)) : LmdbIndexStore :=
  actions.foldl (fun s a => s.step rkyv a) s

/-! ## What a transaction writes -/

variable {rkyv s} {next : LmdbIndexStore} {source : ArtifactSource} {data : IndexedArchiveData M}
  {now : UInt64} {artifact : StoredArtifact M}

theorem lt_of_advanceId {current following : UInt64} (h : advanceId current = some following) :
    current < following := by
  unfold advanceId at h
  split at h
  · rename_i hroom
    cases h
    rw [UInt64.lt_iff_toNat_lt, UInt64.toNat_add]
    have hone : (1 : UInt64).toNat = 1 := rfl
    rw [hone, Nat.mod_eq_of_lt hroom]
    omega
  · cases h

/-- The databases after an artifact was written under the id `current`. -/
structure Wrote (s : LmdbIndexStore) (rkyv : Rkyv M) (source : ArtifactSource)
    (data : IndexedArchiveData M) (current : UInt64) (next : LmdbIndexStore)
    (artifact : StoredArtifact M) : Prop where
  current_eq : s.nextArtifactId = some current
  advanced : ∃ following, next.nextArtifactId = some following ∧ current < following
  version_eq : next.schemaVersion = s.schemaVersion
  byHash_eq : next.artifactByHash =
    Function.update s.artifactByHash (encodeHashKey source) (some ⟨current⟩)
  others_eq : ∀ id : ArtifactId, id.id ≠ current →
    next.artifacts id = s.artifacts id ∧ next.artifactPayloads id = s.artifactPayloads id
  rows : (next.artifacts ⟨current⟩).isSome ∧ (next.artifactPayloads ⟨current⟩).isSome
  returned : artifact.data = data
  loaded : next.loadById rkyv ⟨current⟩ =
    some (some ⟨artifact.metadata, .fromPayload (.fromData data)⟩)

theorem wrote_of_writeArtifact (h : s.writeArtifact rkyv source data now = some (next, artifact)) :
    ∃ current, s.Wrote rkyv source data current next artifact := by
  simp only [writeArtifact, Option.bind_eq_bind, Option.bind_eq_some_iff] at h
  obtain ⟨current, hcurrent, following, hfollowing, metaBytes, hmeta, payloadBytes, hpayload, h⟩ := h
  cases h
  refine ⟨current, hcurrent, ⟨following, rfl, lt_of_advanceId hfollowing⟩, rfl, rfl, ?_, ?_, rfl, ?_⟩
  · intro id hid
    have hne : id ≠ ⟨current⟩ := fun heq => hid (congrArg ArtifactId.id heq)
    exact ⟨Function.update_of_ne hne _ _, Function.update_of_ne hne _ _⟩
  · simp
  · simp [loadById, rkyv.metaRow.deserialize_serialize _ _ hmeta,
      rkyv.payloadRow.deserialize_serialize _ _ hpayload]

/-! ## The invariant -/

/-- Whatever the hash index names was given an id before and has its rows. -/
structure Invariant (s : LmdbIndexStore) : Prop where
  version : s.schemaVersion = some indexSchemaVersion
  found : ∀ key id, s.artifactByHash key = some id →
    (∃ following, s.nextArtifactId = some following ∧ id.id < following) ∧
      (s.artifacts id).isSome ∧ (s.artifactPayloads id).isSome

theorem invariant_openStore_empty : empty.openStore.Invariant where
  version := rfl
  found _ _ h := by cases h

theorem Invariant.openStore (h : s.Invariant) : s.openStore = s := by
  rw [LmdbIndexStore.openStore, h.version]
  rfl

theorem Invariant.wrote {current : UInt64} (h : s.Invariant)
    (hwrote : s.Wrote rkyv source data current next artifact) : next.Invariant := by
  obtain ⟨following, hfollowing, hlt⟩ := hwrote.advanced
  refine ⟨hwrote.version_eq.trans h.version, fun key id hkey => ?_⟩
  rw [hwrote.byHash_eq, Function.update_apply] at hkey
  split at hkey
  · cases hkey
    exact ⟨⟨following, hfollowing, hlt⟩, hwrote.rows⟩
  · obtain ⟨⟨bound, hbound, hid⟩, hrows⟩ := h.found key id hkey
    obtain rfl := Option.some.inj (hwrote.current_eq.symm.trans hbound)
    have hne : id.id ≠ current := UInt64.ne_of_lt hid
    obtain ⟨hartifacts, hpayloads⟩ := hwrote.others_eq id hne
    rw [hartifacts, hpayloads]
    exact ⟨⟨following, hfollowing, UInt64.lt_trans hid hlt⟩, hrows⟩

/-- A call either changes nothing or writes an artifact that was not there. -/
theorem storeArtifact_cases (h : s.storeArtifact rkyv source data now = some (next, artifact)) :
    (next = s ∧ s.loadArtifact rkyv source = some (some artifact)) ∨
      (s.loadArtifact rkyv source = some none ∧
        ∃ current, s.Wrote rkyv source data current next artifact) := by
  simp only [storeArtifact, Option.bind_eq_bind, Option.bind_eq_some_iff] at h
  obtain ⟨loaded, hloaded, h⟩ := h
  cases loaded with
  | some existing =>
    cases h
    exact .inl ⟨rfl, hloaded⟩
  | none => exact .inr ⟨hloaded, wrote_of_writeArtifact h⟩

/-- What an action does to the store. -/
theorem Invariant.step_cases (h : s.Invariant) (a : Action M) : s.step rkyv a = s ∨
    ∃ source data current artifact, s.loadArtifact rkyv source = some none ∧
      s.Wrote rkyv source data current (s.step rkyv a) artifact := by
  cases a with
  | reopen => exact .inl h.openStore
  | store source data now =>
    rw [step]
    cases hstore : s.storeArtifact rkyv source data now with
    | none => exact .inl rfl
    | some result =>
      obtain ⟨next, artifact⟩ := result
      rcases storeArtifact_cases hstore with ⟨rfl, -⟩ | ⟨hnone, current, hwrote⟩
      · exact .inl rfl
      · exact .inr ⟨source, data, current, artifact, hnone, hwrote⟩

theorem Invariant.step (h : s.Invariant) (a : Action M) : (s.step rkyv a).Invariant := by
  rcases h.step_cases a with hsame | ⟨_, _, _, _, -, hwrote⟩
  · rwa [hsame]
  · exact h.wrote hwrote

theorem Invariant.run (h : s.Invariant) (actions : List (Action M)) :
    (s.run rkyv actions).Invariant := by
  induction actions generalizing s with
  | nil => exact h
  | cons a actions ih => exact ih (h.step a)

/-! ## An artifact stays -/

/-- The artifact is found under the key. -/
def Holds (s : LmdbIndexStore) (rkyv : Rkyv M) (key : UInt8 × UInt64)
    (artifact : StoredArtifact M) : Prop :=
  ∃ id, s.artifactByHash key = some id ∧ s.loadById rkyv id = some (some artifact)

theorem Holds.loadArtifact (h : s.Holds rkyv (encodeHashKey source) artifact) :
    s.loadArtifact rkyv source = some (some artifact) := by
  obtain ⟨id, hid, hload⟩ := h
  rw [LmdbIndexStore.loadArtifact, hid]
  exact hload

theorem holds_of_loadArtifact (h : s.loadArtifact rkyv source = some (some artifact)) :
    s.Holds rkyv (encodeHashKey source) artifact := by
  unfold LmdbIndexStore.loadArtifact at h
  split at h
  · rename_i id hid
    exact ⟨id, hid, h⟩
  · cases h

theorem Holds.step {key : UInt8 × UInt64} (hheld : s.Holds rkyv key artifact) (h : s.Invariant)
    (a : Action M) : (s.step rkyv a).Holds rkyv key artifact := by
  rcases h.step_cases a with hsame | ⟨source, _, current, _, hnone, hwrote⟩
  · rwa [hsame]
  · obtain ⟨id, hid, hload⟩ := hheld
    have hkey : key ≠ encodeHashKey source := by
      rintro rfl
      rw [Holds.loadArtifact ⟨id, hid, hload⟩] at hnone
      cases hnone
    obtain ⟨⟨bound, hbound, hlt⟩, -⟩ := h.found key id hid
    obtain rfl := Option.some.inj (hwrote.current_eq.symm.trans hbound)
    obtain ⟨hartifacts, hpayloads⟩ := hwrote.others_eq id (UInt64.ne_of_lt hlt)
    refine ⟨id, ?_, ?_⟩
    · rw [hwrote.byHash_eq, Function.update_of_ne hkey, hid]
    · rw [loadById, hartifacts, hpayloads]
      exact hload

theorem Holds.run {key : UInt8 × UInt64} (hheld : s.Holds rkyv key artifact) (h : s.Invariant)
    (actions : List (Action M)) : (s.run rkyv actions).Holds rkyv key artifact := by
  induction actions generalizing s with
  | nil => exact hheld
  | cons a actions ih => exact ih (hheld.step h a) (h.step a)

/-- A key under which nothing is loaded was never stored. -/
theorem Invariant.not_found (h : s.Invariant) (hnone : s.loadArtifact rkyv source = some none) :
    s.artifactByHash (encodeHashKey source) = none := by
  cases hkey : s.artifactByHash (encodeHashKey source) with
  | none => rfl
  | some id =>
    obtain ⟨-, hmeta, hpayload⟩ := h.found _ id hkey
    obtain ⟨metaBytes, hmeta⟩ := Option.isSome_iff_exists.mp hmeta
    obtain ⟨payloadBytes, hpayload⟩ := Option.isSome_iff_exists.mp hpayload
    rw [loadArtifact, hkey] at hnone
    simp only [loadById, hmeta, hpayload, Option.bind_eq_bind, Option.bind_eq_some_iff] at hnone
    obtain ⟨metadata, -, payload, -, h⟩ := hnone
    cases h

/-! ## Cold and warm -/

/-- What `store_artifact` returns has the classes that are loaded later, if the artifact was stored
before or the archive keeps each class as it is, and in no other case. -/
theorem cold_and_warm_agree_iff (rkyv : Rkyv M) (before later : List (Action M))
    (source : ArtifactSource) (data : IndexedArchiveData M) (now : UInt64)
    (stored : LmdbIndexStore) (cold warm : StoredArtifact M)
    (hcold : (empty.openStore.run rkyv before).storeArtifact rkyv source data now =
      some (stored, cold))
    (hwarm : (stored.run rkyv later).loadArtifact rkyv source = some (some warm)) :
    cold.data.classes = warm.data.classes ↔
      ((empty.openStore.run rkyv before).artifactByHash (encodeHashKey source)).isSome ∨
        ∀ c ∈ data.classes, c.Reduced := by
  have hbefore : (empty.openStore.run rkyv before).Invariant :=
    invariant_openStore_empty.run before
  rcases storeArtifact_cases hcold with ⟨rfl, hloaded⟩ | ⟨hnone, current, hwrote⟩
  · have hheld := holds_of_loadArtifact hloaded
    obtain ⟨id, hid, -⟩ := id hheld
    have hsame := (hheld.run hbefore later).loadArtifact.symm.trans hwarm
    obtain rfl := Option.some.inj (Option.some.inj hsame)
    exact iff_of_true rfl (.inl (by rw [hid]; rfl))
  · have hheld : stored.Holds rkyv (encodeHashKey source)
        ⟨cold.metadata, .fromPayload (.fromData data)⟩ :=
      ⟨⟨current⟩, by rw [hwrote.byHash_eq, Function.update_self], hwrote.loaded⟩
    have hsame := (hheld.run (hbefore.wrote hwrote) later).loadArtifact.symm.trans hwarm
    obtain rfl := Option.some.inj (Option.some.inj hsame)
    rw [hwrote.returned, hbefore.not_found hnone, or_iff_right (by simp)]
    exact classes_fromPayload_iff data

section Examples

/-- Rows of one value, in one byte. -/
def oneRow {Row : Type} [DecidableEq Row] (row : Row) : RowCodec Row where
  serialize r := if r = row then some [1] else none
  deserialize bytes := if bytes = [1] then some row else none
  deserialize_serialize r bytes h := by
    split at h
    · rename_i hrow
      cases h
      simp [hrow]
    · cases h

def demoSource : ArtifactSource := ⟨"/lib/demo.jar", .jar, ⟨7, 9⟩⟩

def demoData (annotations : List AnnotationSummary) : IndexedArchiveData Unit :=
  ⟨[{ ClassMetadata.bare (some "demo") "Example" "demo/Example" none (.jar "/lib/demo.jar") with
    annotations := annotations }], []⟩

def demoRows (annotations : List AnnotationSummary) : Rkyv Unit :=
  ⟨oneRow ⟨⟨1⟩, .jar, "/lib/demo.jar", 7, 9, 0⟩, oneRow (.fromData (demoData annotations))⟩

theorem bare_class_agrees : ∃ stored cold warm,
    (empty.openStore.run (demoRows []) []).storeArtifact (demoRows []) demoSource (demoData []) 0 =
      some (stored, cold) ∧
    (stored.run (demoRows []) []).loadArtifact (demoRows []) demoSource = some (some warm) ∧
    cold.data.classes = warm.data.classes := by
  refine ⟨_, _, _, rfl, rfl, (cold_and_warm_agree_iff (demoRows []) [] [] demoSource (demoData []) 0
    _ _ _ rfl rfl).mpr (.inr ?_)⟩
  intro c hc
  obtain rfl := List.mem_singleton.mp hc
  exact (materialize_class_iff _).mp rfl

/-- The annotation is there until the next session. -/
theorem annotation_lost : ¬ ∀ (rkyv : Rkyv Unit) (before later : List (Action Unit))
    (source : ArtifactSource) (data : IndexedArchiveData Unit) (now : UInt64)
    (stored : LmdbIndexStore) (cold warm : StoredArtifact Unit),
    (empty.openStore.run rkyv before).storeArtifact rkyv source data now = some (stored, cold) →
    (stored.run rkyv later).loadArtifact rkyv source = some (some warm) →
    cold.data.classes = warm.data.classes := by
  intro hall
  have hsame := hall (demoRows [⟨"java/lang/FunctionalInterface", true, []⟩]) [] [] demoSource
    (demoData [⟨"java/lang/FunctionalInterface", true, []⟩]) 0 _ _ _ rfl rfl
  have hannotations := congrArg (List.map ClassMetadata.annotations) hsame
  revert hannotations
  decide

end Examples

end LmdbIndexStore
end JavaAnalyzer.Index
