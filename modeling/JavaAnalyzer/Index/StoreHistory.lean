import JavaAnalyzer.Index.ArtifactStore

/-! # Histories of the artifact store

Calls of `store_artifact` one after the other, each in one transaction: the ids they give out, the rows behind
the hash index, and the jars that the classes of an artifact name. -/

namespace JavaAnalyzer.Index
set_option autoImplicit false

/-- What a row of metadata is found by. -/
def ArtifactMetadata.hashKey (metadata : ArtifactMetadata) : UInt8 × UInt64 :=
  (metadata.kind.tag, metadata.contentHash)

theorem ArtifactKind.tag_injective : Function.Injective ArtifactKind.tag := by
  intro a b h
  cases a <;> cases b <;> first | rfl | exact absurd h (by decide)

namespace LmdbIndexStore

variable {M : Type}

/-- A call of `store_artifact`. One that is aborted leaves the databases as they were, wherever it stops. -/
structure Transaction (M : Type) where
  source : ArtifactSource
  data : IndexedArchiveData M
  now : UInt64
  aborted : Bool

section

variable (rkyv : Rkyv M) (s : LmdbIndexStore)

/-- The databases that are committed, and the artifact that is returned. -/
def commit (t : Transaction M) : Option (LmdbIndexStore × StoredArtifact M) :=
  if t.aborted then none else s.storeArtifact rkyv t.source t.data t.now

def transact (t : Transaction M) : LmdbIndexStore :=
  ((s.commit rkyv t).map Prod.fst).getD s

/-- The id that a committed transaction takes from `next_artifact_id`. -/
def allocated (t : Transaction M) : Option ArtifactId :=
  match s.commit rkyv t, s.loadArtifact rkyv t.source with
  | some _, some none => s.nextArtifactId.map ArtifactId.mk
  | _, _ => none

def transactions (history : List (Transaction M)) : LmdbIndexStore :=
  history.foldl (fun s t => s.transact rkyv t) s

def allocatedIds : LmdbIndexStore → List (Transaction M) → List ArtifactId
  | _, [] => []
  | s, t :: history => (s.allocated rkyv t).toList ++ allocatedIds (s.transact rkyv t) history

/-- The first transaction of a history that commits an artifact under the key. -/
def firstStored (key : UInt8 × UInt64) : LmdbIndexStore → List (Transaction M) → Option (Transaction M)
  | _, [] => none
  | s, t :: history =>
    if encodeHashKey t.source = key ∧ (s.commit rkyv t).isSome then some t
    else firstStored key (s.transact rkyv t) history

end

variable {rkyv : Rkyv M} {s next : LmdbIndexStore} {t : Transaction M} {artifact : StoredArtifact M}

/-! ## One transaction -/

theorem metadata_of_writeArtifact {source : ArtifactSource} {data : IndexedArchiveData M} {now current : UInt64}
    (h : s.writeArtifact rkyv source data now = some (next, artifact))
    (hcurrent : s.nextArtifactId = some current) :
    artifact.metadata = ⟨⟨current⟩, source.kind, source.sourcePath, source.fingerprint.contentHash,
      source.fingerprint.byteLen, now⟩ := by
  simp only [writeArtifact, Option.bind_eq_bind, Option.bind_eq_some_iff] at h
  obtain ⟨taken, htaken, following, -, metaBytes, -, payloadBytes, -, h⟩ := h
  obtain rfl := Option.some.inj (hcurrent.symm.trans htaken)
  cases h
  rfl

/-- A committed transaction found the artifact, or wrote it under the next id. -/
theorem commit_cases (h : s.commit rkyv t = some (next, artifact)) :
    (next = s ∧ s.loadArtifact rkyv t.source = some (some artifact)) ∨
      (s.loadArtifact rkyv t.source = some none ∧
        ∃ current, s.Wrote rkyv t.source t.data current next artifact ∧
          artifact.metadata.id = ⟨current⟩ ∧ artifact.metadata.hashKey = encodeHashKey t.source) := by
  unfold commit at h
  split at h
  · cases h
  · rcases storeArtifact_cases h with hfound | ⟨hnone, current, hwrote⟩
    · exact .inl hfound
    · have hwrite : s.writeArtifact rkyv t.source t.data t.now = some (next, artifact) := by
        rwa [storeArtifact, hnone] at h
      have hmetadata := metadata_of_writeArtifact hwrite hwrote.current_eq
      exact .inr ⟨hnone, current, hwrote, by rw [hmetadata], by rw [hmetadata]; rfl⟩

theorem transact_of_commit (h : s.commit rkyv t = some (next, artifact)) : s.transact rkyv t = next := by
  rw [transact, h]
  rfl

theorem transact_of_abort (h : s.commit rkyv t = none) : s.transact rkyv t = s := by
  rw [transact, h]
  rfl

/-- What a transaction does to the store, and the id it takes. -/
theorem transact_cases (rkyv : Rkyv M) (s : LmdbIndexStore) (t : Transaction M) :
    (s.transact rkyv t = s ∧ s.allocated rkyv t = none) ∨
      ∃ current artifact, s.loadArtifact rkyv t.source = some none ∧
        s.Wrote rkyv t.source t.data current (s.transact rkyv t) artifact ∧
        artifact.metadata.id = ⟨current⟩ ∧ artifact.metadata.hashKey = encodeHashKey t.source ∧
        s.allocated rkyv t = some ⟨current⟩ := by
  cases hcommit : s.commit rkyv t with
  | none =>
    refine .inl ⟨transact_of_abort hcommit, ?_⟩
    rw [allocated, hcommit]
  | some result =>
    obtain ⟨next, artifact⟩ := result
    rw [transact_of_commit hcommit]
    rcases commit_cases hcommit with ⟨rfl, hfound⟩ | ⟨hnone, current, hwrote, hid, hkey⟩
    · refine .inl ⟨rfl, ?_⟩
      rw [allocated, hcommit, hfound]
    · refine .inr ⟨current, artifact, hnone, hwrote, hid, hkey, ?_⟩
      rw [allocated, hcommit, hnone, hwrote.current_eq]
      rfl

theorem loadById_rows {id : ArtifactId} (h : s.loadById rkyv id = some (some artifact)) :
    (s.artifacts id).isSome ∧ (s.artifactPayloads id).isSome := by
  unfold loadById at h
  split at h
  · rename_i metaBytes payloadBytes hmeta hpayload
    rw [hmeta, hpayload]
    exact ⟨rfl, rfl⟩
  · cases h

/-- The rows of another id are read as before. -/
theorem Wrote.loadById_of_ne {current : UInt64} {id : ArtifactId}
    (hwrote : s.Wrote rkyv t.source t.data current next artifact) (hne : id.id ≠ current) :
    next.loadById rkyv id = s.loadById rkyv id := by
  obtain ⟨hartifacts, hpayloads⟩ := hwrote.others_eq id hne
  rw [loadById, hartifacts, hpayloads]
  rfl

theorem transactions_cons (history : List (Transaction M)) :
    s.transactions rkyv (t :: history) = (s.transact rkyv t).transactions rkyv history :=
  rfl

theorem transactions_append (before later : List (Transaction M)) :
    s.transactions rkyv (before ++ later) = (s.transactions rkyv before).transactions rkyv later :=
  List.foldl_append

/-! ## Ids and rows -/

/-- All rows are under ids that were given out, and the hash index names rows of its own kind and hash. -/
structure Consistent (s : LmdbIndexStore) (rkyv : Rkyv M) (next : UInt64) : Prop where
  counter : s.nextArtifactId = some next
  given : ∀ id : ArtifactId, (s.artifacts id).isSome ∨ (s.artifactPayloads id).isSome → id.id < next
  found : ∀ key id, s.artifactByHash key = some id → ∃ artifact : StoredArtifact M,
    s.loadById rkyv id = some (some artifact) ∧ artifact.metadata.id = id ∧ artifact.metadata.hashKey = key

theorem consistent_openStore_empty (rkyv : Rkyv M) : empty.openStore.Consistent rkyv 1 where
  counter := rfl
  given _ h := by rcases h with h | h <;> cases h
  found _ _ h := by cases h

theorem Consistent.wrote {counter current : UInt64} (h : s.Consistent rkyv counter)
    (hwrote : s.Wrote rkyv t.source t.data current next artifact) (hid : artifact.metadata.id = ⟨current⟩)
    (hkey : artifact.metadata.hashKey = encodeHashKey t.source) :
    current = counter ∧ ∃ following, counter < following ∧ next.Consistent rkyv following := by
  obtain rfl := Option.some.inj (hwrote.current_eq.symm.trans h.counter)
  obtain ⟨following, hfollowing, hlt⟩ := hwrote.advanced
  refine ⟨rfl, following, hlt, hfollowing, fun id hrow => ?_, fun key id hfound => ?_⟩
  · by_cases hcurrent : id.id = current
    · rwa [hcurrent]
    · obtain ⟨hartifacts, hpayloads⟩ := hwrote.others_eq id hcurrent
      rw [hartifacts, hpayloads] at hrow
      exact UInt64.lt_trans (h.given id hrow) hlt
  · rw [hwrote.byHash_eq, Function.update_apply] at hfound
    split at hfound
    · rename_i hsame
      cases hfound
      exact ⟨_, hwrote.loaded, hid, hkey.trans hsame.symm⟩
    · obtain ⟨stored, hload, hstored⟩ := h.found key id hfound
      have hne := UInt64.ne_of_lt (h.given id (.inl (loadById_rows hload).1))
      exact ⟨stored, (hwrote.loadById_of_ne hne).trans hload, hstored⟩

theorem Consistent.transactions {counter : UInt64} (h : s.Consistent rkyv counter)
    (history : List (Transaction M)) : ∃ following, (s.transactions rkyv history).Consistent rkyv following := by
  induction history generalizing s counter with
  | nil => exact ⟨counter, h⟩
  | cons t history ih =>
    rw [transactions_cons]
    rcases transact_cases rkyv s t with ⟨hsame, -⟩ | ⟨current, artifact, -, hwrote, hid, hkey, -⟩
    · rw [hsame]
      exact ih h
    · obtain ⟨-, following, -, hnext⟩ := h.wrote hwrote hid hkey
      exact ih hnext

/-- The ids that are given out from a state on grow from its counter. -/
theorem Consistent.allocatedIds {counter : UInt64} (h : s.Consistent rkyv counter)
    (history : List (Transaction M)) :
    (∀ id ∈ s.allocatedIds rkyv history, counter ≤ id.id) ∧
      (s.allocatedIds rkyv history).Pairwise fun earlier later => earlier.id < later.id := by
  induction history generalizing s counter with
  | nil => exact ⟨fun _ hid => absurd hid List.not_mem_nil, List.Pairwise.nil⟩
  | cons t history ih =>
    rw [LmdbIndexStore.allocatedIds]
    rcases transact_cases rkyv s t with ⟨hsame, hnone⟩ | ⟨current, artifact, -, hwrote, hid, hkey, hsome⟩
    · rw [hnone, hsame]
      exact ih h
    · obtain ⟨rfl, following, hlt, hnext⟩ := h.wrote hwrote hid hkey
      obtain ⟨hfrom, hgrow⟩ := ih hnext
      rw [hsome]
      refine ⟨List.forall_mem_cons.mpr ⟨UInt64.le_refl _, fun id hmem => ?_⟩,
        List.pairwise_cons.mpr ⟨fun id hmem => ?_, hgrow⟩⟩
      · exact UInt64.le_trans (UInt64.le_of_lt hlt) (hfrom id hmem)
      · exact UInt64.lt_of_lt_of_le hlt (hfrom id hmem)

theorem Consistent.rows_kept {counter : UInt64} (h : s.Consistent rkyv counter)
    (history : List (Transaction M)) {id : ArtifactId}
    (hrow : (s.artifacts id).isSome ∨ (s.artifactPayloads id).isSome) :
    (s.transactions rkyv history).artifacts id = s.artifacts id ∧
      (s.transactions rkyv history).artifactPayloads id = s.artifactPayloads id := by
  induction history generalizing s counter with
  | nil => exact ⟨rfl, rfl⟩
  | cons t history ih =>
    rcases transact_cases rkyv s t with ⟨hsame, -⟩ | ⟨current, artifact, -, hwrote, hid, hkey, -⟩
    · rw [transactions_cons, hsame]
      exact ih h hrow
    · obtain ⟨rfl, following, -, hnext⟩ := h.wrote hwrote hid hkey
      obtain ⟨hartifacts, hpayloads⟩ := hwrote.others_eq id (UInt64.ne_of_lt (h.given id hrow))
      rw [transactions_cons, ← hartifacts, ← hpayloads]
      exact ih hnext (by rwa [hartifacts, hpayloads])

/-- Over any calls, aborted ones among them, the ids grow, the rows of an id stay, and every entry of the hash
index names an artifact with both rows, of the kind and hash it is found by. -/
theorem store_consistent (rkyv : Rkyv M) (before later : List (Transaction M)) :
    (empty.openStore.allocatedIds rkyv (before ++ later)).Pairwise
        (fun earlier later => earlier.id < later.id) ∧
      (∀ id : ArtifactId, ((empty.openStore.transactions rkyv before).artifacts id).isSome ∨
          ((empty.openStore.transactions rkyv before).artifactPayloads id).isSome →
        (empty.openStore.transactions rkyv (before ++ later)).artifacts id =
            (empty.openStore.transactions rkyv before).artifacts id ∧
          (empty.openStore.transactions rkyv (before ++ later)).artifactPayloads id =
            (empty.openStore.transactions rkyv before).artifactPayloads id) ∧
      ∀ key id, (empty.openStore.transactions rkyv (before ++ later)).artifactByHash key = some id →
        ((empty.openStore.transactions rkyv (before ++ later)).artifacts id).isSome ∧
          ((empty.openStore.transactions rkyv (before ++ later)).artifactPayloads id).isSome ∧
          ∃ artifact : StoredArtifact M,
            (empty.openStore.transactions rkyv (before ++ later)).loadById rkyv id = some (some artifact) ∧
            artifact.metadata.id = id ∧ artifact.metadata.hashKey = key := by
  have hempty := consistent_openStore_empty rkyv
  obtain ⟨middle, hmiddle⟩ := hempty.transactions before
  obtain ⟨last, hlast⟩ := hempty.transactions (before ++ later)
  refine ⟨(hempty.allocatedIds (before ++ later)).2, fun id hrow => ?_, fun key id hfound => ?_⟩
  · rw [transactions_append]
    exact hmiddle.rows_kept later hrow
  · obtain ⟨artifact, hload, hartifact⟩ := hlast.found key id hfound
    obtain ⟨hmeta, hpayload⟩ := loadById_rows hload
    exact ⟨hmeta, hpayload, artifact, hload, hartifact⟩

/-! ## The first artifact of a key -/

/-- A transaction is a call of `store_artifact`, or nothing. -/
theorem transact_eq_step (rkyv : Rkyv M) (s : LmdbIndexStore) (t : Transaction M) :
    s.transact rkyv t = s ∨ s.transact rkyv t = s.step rkyv (.store t.source t.data t.now) := by
  unfold transact commit
  split
  · exact .inl rfl
  · exact .inr rfl

theorem Invariant.transact (h : s.Invariant) (t : Transaction M) : (s.transact rkyv t).Invariant := by
  rcases transact_eq_step rkyv s t with hsame | hstep
  · rwa [hsame]
  · rw [hstep]
    exact h.step _

theorem Invariant.transactions (h : s.Invariant) (history : List (Transaction M)) :
    (s.transactions rkyv history).Invariant := by
  induction history generalizing s with
  | nil => exact h
  | cons t history ih => exact ih (h.transact t)

theorem Holds.transactions {key : UInt8 × UInt64} (hheld : s.Holds rkyv key artifact) (h : s.Invariant)
    (history : List (Transaction M)) : (s.transactions rkyv history).Holds rkyv key artifact := by
  induction history generalizing s with
  | nil => exact hheld
  | cons t history ih =>
    rw [transactions_cons]
    refine ih ?_ (h.transact t)
    rcases transact_eq_step rkyv s t with hsame | hstep
    · rwa [hsame]
    · rw [hstep]
      exact hheld.step h _

/-- What a key that nothing is stored under holds after a transaction that commits. -/
theorem Invariant.commit (h : s.Invariant) (hnone : s.artifactByHash (encodeHashKey t.source) = none)
    (hcommit : s.commit rkyv t = some (next, artifact)) :
    next.Holds rkyv (encodeHashKey t.source) ⟨artifact.metadata, .fromPayload (.fromData t.data)⟩ := by
  rcases commit_cases hcommit with ⟨rfl, hfound⟩ | ⟨-, current, hwrote, -, -⟩
  · obtain ⟨id, hid, -⟩ := holds_of_loadArtifact hfound
    rw [hnone] at hid
    cases hid
  · exact ⟨⟨current⟩, by rw [hwrote.byHash_eq, Function.update_self], hwrote.loaded⟩

/-- A transaction of another key, or one that aborts, stores nothing under the key. -/
theorem transact_other {key : UInt8 × UInt64} (hnone : s.artifactByHash key = none)
    (hother : ¬ (encodeHashKey t.source = key ∧ (s.commit rkyv t).isSome)) :
    (s.transact rkyv t).artifactByHash key = none := by
  cases hcommit : s.commit rkyv t with
  | none => rwa [transact_of_abort hcommit]
  | some result =>
    obtain ⟨next, artifact⟩ := result
    have hkey : key ≠ encodeHashKey t.source := fun hsame => hother ⟨hsame.symm, by rw [hcommit]; rfl⟩
    rw [transact_of_commit hcommit]
    rcases commit_cases hcommit with ⟨rfl, -⟩ | ⟨-, current, hwrote, -, -⟩
    · exact hnone
    · rw [hwrote.byHash_eq, Function.update_of_ne hkey, hnone]

/-- What is found under a key after a history is what its first transaction stored. -/
theorem Invariant.firstStored {key : UInt8 × UInt64} (h : s.Invariant) (hnone : s.artifactByHash key = none)
    (history : List (Transaction M)) :
    match LmdbIndexStore.firstStored rkyv key s history with
    | none => (s.transactions rkyv history).artifactByHash key = none
    | some t => t ∈ history ∧ encodeHashKey t.source = key ∧ ∃ metadata,
        (s.transactions rkyv history).Holds rkyv key ⟨metadata, .fromPayload (.fromData t.data)⟩ := by
  induction history generalizing s with
  | nil => exact hnone
  | cons t history ih =>
    rw [LmdbIndexStore.firstStored]
    split_ifs with hfirst
    · obtain ⟨rfl, hsome⟩ := hfirst
      obtain ⟨⟨next, artifact⟩, hcommit⟩ := Option.isSome_iff_exists.mp hsome
      have hheld := h.commit hnone hcommit
      rw [← transact_of_commit hcommit] at hheld
      exact ⟨List.mem_cons_self, rfl, artifact.metadata, hheld.transactions (h.transact t) history⟩
    · have hrest := ih (h.transact t) (transact_other hnone hfirst)
      revert hrest
      cases LmdbIndexStore.firstStored rkyv key (s.transact rkyv t) history with
      | none => exact id
      | some first => exact fun hrest => ⟨List.mem_cons_of_mem t hrest.1, hrest.2⟩

/-! ## The jar that classes name -/

/-- The data was read from the jar at its path. -/
def Transaction.OfJar (t : Transaction M) : Prop :=
  ∀ c ∈ t.data.classes, c.origin = .jar t.source.sourcePath

/-- What a call of `load_artifact` or `store_artifact` for a jar returns. -/
inductive Returned (rkyv : Rkyv M) (s : LmdbIndexStore) (source : ArtifactSource) :
    StoredArtifact M → Prop where
  | loaded {artifact : StoredArtifact M} (h : s.loadArtifact rkyv source = some (some artifact)) :
      Returned rkyv s source artifact
  | stored {t : Transaction M} {next : LmdbIndexStore} {artifact : StoredArtifact M} (hsource : t.source = source)
      (hjar : t.OfJar) (h : s.commit rkyv t = some (next, artifact)) : Returned rkyv s source artifact

theorem origins_fromPayload (data : IndexedArchiveData M) (path : String) :
    (∀ c ∈ (IndexedArchiveData.fromPayload (ArtifactPayload.fromData data)).classes, c.origin = .jar path) ↔
      ∀ c ∈ data.classes, c.origin = .jar path := by
  rw [IndexedArchiveData.fromPayload, ArtifactPayload.fromData, List.map_map, List.forall_mem_map]
  rfl

/-- The classes of one jar name another path when there are none. -/
theorem Transaction.OfJar.names_iff (hjar : t.OfJar) (path : String) :
    (∀ c ∈ t.data.classes, c.origin = .jar path) ↔ t.source.sourcePath = path ∨ t.data.classes = [] := by
  constructor
  · intro hall
    rw [or_iff_not_imp_right]
    intro hne
    obtain ⟨c, hc⟩ := List.exists_mem_of_ne_nil _ hne
    have hsame := (hjar c hc).symm.trans (hall c hc)
    injection hsame
  · rintro (rfl | hnil)
    · exact hjar
    · rw [hnil]
      exact fun _ hc => absurd hc List.not_mem_nil

theorem Holds.unique {key : UInt8 × UInt64} {artifact' : StoredArtifact M} (h : s.Holds rkyv key artifact)
    (h' : s.Holds rkyv key artifact') : artifact = artifact' := by
  obtain ⟨id, hid, hload⟩ := h
  obtain ⟨id', hid', hload'⟩ := h'
  obtain rfl := Option.some.inj (hid.symm.trans hid')
  exact Option.some.inj (Option.some.inj (hload.symm.trans hload'))

/-- The classes that are returned for a jar name its path if the first artifact that was stored under its kind
and content hash came from that path or has no classes, and in no other case. -/
theorem jar_origins_iff (rkyv : Rkyv M) (history : List (Transaction M)) (source : ArtifactSource)
    (artifact : StoredArtifact M) (hjars : ∀ t ∈ history, t.source.kind = source.kind → t.OfJar)
    (hreturned : Returned rkyv (empty.openStore.transactions rkyv history) source artifact) :
    (∀ c ∈ artifact.data.classes, c.origin = .jar source.sourcePath) ↔
      ∀ first, firstStored rkyv (encodeHashKey source) empty.openStore history = some first →
        first.source.sourcePath = source.sourcePath ∨ first.data.classes = [] := by
  have hinvariant : (empty.openStore.transactions rkyv history).Invariant :=
    invariant_openStore_empty.transactions history
  have hstored :=
    @Invariant.firstStored M rkyv empty.openStore (encodeHashKey source) invariant_openStore_empty rfl history
  cases hfirst : firstStored rkyv (encodeHashKey source) empty.openStore history with
  | none =>
    rw [hfirst] at hstored
    refine iff_of_true ?_ fun _ h => by cases h
    cases hreturned with
    | loaded h =>
      obtain ⟨id, hid, -⟩ := holds_of_loadArtifact h
      rw [hstored] at hid
      cases hid
    | stored hsource hjar h =>
      subst hsource
      rcases commit_cases h with ⟨-, hfound⟩ | ⟨-, current, hwrote, -, -⟩
      · obtain ⟨id, hid, -⟩ := holds_of_loadArtifact hfound
        rw [hstored] at hid
        cases hid
      · rw [hwrote.returned]
        exact hjar
  | some first =>
    rw [hfirst] at hstored
    obtain ⟨hmem, hkey, metadata, hheld⟩ := hstored
    have hkind : first.source.kind = source.kind :=
      ArtifactKind.tag_injective (congrArg Prod.fst hkey)
    have hfound : (empty.openStore.transactions rkyv history).Holds rkyv (encodeHashKey source) artifact := by
      cases hreturned with
      | loaded h => exact holds_of_loadArtifact h
      | stored hsource hjar h =>
        subst hsource
        rcases commit_cases h with ⟨-, hfound⟩ | ⟨hnone, -⟩
        · exact holds_of_loadArtifact hfound
        · rw [hheld.loadArtifact] at hnone
          cases hnone
    rw [hfound.unique hheld, origins_fromPayload, (hjars first hmem hkind).names_iff]
    simp

section Examples

/-- A jar of one class with the hash of the other. -/
def copiedJar (path : String) : Transaction Unit where
  source := ⟨path, .jar, ⟨7, 9⟩⟩
  data := ⟨[ClassMetadata.bare (some "demo") "Example" "demo/Example" none (.jar path)], []⟩
  now := 0
  aborted := false

def copiedRows (path : String) : Rkyv Unit :=
  ⟨oneRow ⟨⟨1⟩, .jar, path, 7, 9, 0⟩, oneRow (.fromData (copiedJar path).data)⟩

theorem copiedJar_ofJar (path : String) : (copiedJar path).OfJar := by
  intro c hc
  obtain rfl := List.mem_singleton.mp hc
  rfl

/-- A jar that is stored and loaded again. -/
theorem jar_origins_same_path : ∃ artifact,
    Returned (copiedRows "/lib/a.jar") (empty.openStore.transactions (copiedRows "/lib/a.jar")
      [copiedJar "/lib/a.jar"]) (copiedJar "/lib/a.jar").source artifact ∧
    ∀ c ∈ artifact.data.classes, c.origin = .jar "/lib/a.jar" := by
  have hreturned : Returned (copiedRows "/lib/a.jar") (empty.openStore.transactions (copiedRows "/lib/a.jar")
      [copiedJar "/lib/a.jar"]) (copiedJar "/lib/a.jar").source _ := .loaded rfl
  refine ⟨_, hreturned, (jar_origins_iff (copiedRows "/lib/a.jar") [copiedJar "/lib/a.jar"] _ _
    (fun t ht _ => ?_) hreturned).mpr fun first hfirst => ?_⟩
  · obtain rfl := List.mem_singleton.mp ht
    exact copiedJar_ofJar _
  · cases hfirst
    exact .inl rfl

/-- A copy at another path is answered with the classes of the jar that was stored. -/
theorem copy_names_first_path : ¬ ∀ (rkyv : Rkyv Unit) (history : List (Transaction Unit))
    (source : ArtifactSource) (artifact : StoredArtifact Unit),
    (∀ t ∈ history, t.source.kind = source.kind → t.OfJar) →
    Returned rkyv (empty.openStore.transactions rkyv history) source artifact →
    ∀ c ∈ artifact.data.classes, c.origin = .jar source.sourcePath := by
  intro hall
  have horigin := hall (copiedRows "/lib/a.jar") [copiedJar "/lib/a.jar"] (copiedJar "/lib/b.jar").source _
    (fun t ht _ => List.mem_singleton.mp ht ▸ copiedJar_ofJar _) (.loaded rfl) _ List.mem_cons_self
  revert horigin
  decide

end Examples

end LmdbIndexStore
end JavaAnalyzer.Index
