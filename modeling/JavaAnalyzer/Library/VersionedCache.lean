import Mathlib

/-! # A cache of snapshots under a version counter

Readers build snapshots of a shared state and keep them in a cache, tagged with the version they read
before they looked. A mutator changes the state, clears the cache and moves the version on, in three
steps. Readers and mutators take their steps in any order. A snapshot that is tagged with the current
version is the one that would be built, as long as no mutator is between its steps
(`hit_of_current`).

Building may extend the state, and some changes only extend it: `Grown` is this relation, and what was
built stays what is built along it. -/

namespace JavaAnalyzer.VersionedCache
set_option autoImplicit false

/-- A state that snapshots are built from. -/
structure Source (σ κ α μ : Type) where
  build : σ → κ → α × σ
  /-- The state after a mutation, and whether the mutation goes on to clear the cache. -/
  mutate : σ → μ → σ × Bool
  Grown : σ → σ → Prop
  grown_refl : ∀ s, Grown s s
  grown_build : ∀ s k, Grown s (build s k).2
  build_of_grown : ∀ {s k s'}, Grown (build s k).2 s' → build s' k = ((build s k).1, s')
  grown_mutate : ∀ {s m}, (mutate s m).2 = false → Grown s (mutate s m).1

/-! ## The parties -/

/-- Where a reader is in its call. -/
inductive Reader (κ α : Type) where
  | started (key : κ) (version : UInt64)
  | missed (key : κ) (version : UInt64)
  | built (key : κ) (version : UInt64) (snapshot : α)
  | checked (key : κ) (version : UInt64) (snapshot : α)
  | returned (key : κ) (snapshot : α)

/-- Where a mutator is in its call. -/
inductive Mutator where
  | mutated
  | cleared

structure State (σ κ α : Type) where
  source : σ
  cache : AList (fun _ : κ => UInt64 × α)
  version : UInt64
  readers : AList (fun _ : ℕ => Reader κ α)
  mutators : AList (fun _ : ℕ => Mutator)

inductive Action (κ μ : Type) where
  | readVersion (reader : ℕ) (key : κ)
  | lookUp (reader : ℕ)
  | build (reader : ℕ)
  | recheck (reader : ℕ)
  | insert (reader : ℕ)
  | mutate (mutator : ℕ) (m : μ)
  | clear (mutator : ℕ)
  | bump (mutator : ℕ)

section
variable {σ κ α μ : Type}

def State.start (source : σ) : State σ κ α :=
  ⟨source, ∅, 0, ∅, ∅⟩

def State.setReader (s : State σ κ α) (reader : ℕ) (phase : Reader κ α) : State σ κ α :=
  { s with readers := s.readers.insert reader phase }

/-- No mutator is between its steps. -/
def State.Quiet (s : State σ κ α) : Prop :=
  ∀ id, s.mutators.lookup id = none

/-! ## Freshness -/

/-- The version was the current one after some number of bumps. -/
def Past (n : ℕ) (version : UInt64) : Prop :=
  ∃ b ≤ n, version = UInt64.ofNat b

/-- A tagged snapshot: if the version has not moved since, then it is the one that would be built,
unless a mutator is between its steps. -/
def Fresh (src : Source σ κ α μ) (n : ℕ) (s : State σ κ α) (key : κ) (version : UInt64)
    (snapshot : α) : Prop :=
  ∃ b ≤ n, version = UInt64.ofNat b ∧
    (b = n → s.Quiet → src.build s.source key = (snapshot, s.source))

def ReaderOk (src : Source σ κ α μ) (n : ℕ) (s : State σ κ α) : Reader κ α → Prop
  | .started _ version => Past n version
  | .missed _ version => Past n version
  | .built key version snapshot => Fresh src n s key version snapshot
  | .checked key version snapshot => Fresh src n s key version snapshot
  | .returned _ _ => True

/-- What a step does to the freshness of snapshots: the version moves, or a mutator is left between its
steps, or the state only grows. -/
def Keeps (src : Source σ κ α μ) (n : ℕ) (s : State σ κ α) (n' : ℕ) (s' : State σ κ α) : Prop :=
  n ≤ n' ∧ (n' = n → s'.Quiet → s.Quiet ∧ src.Grown s.source s'.source)

variable {src : Source σ κ α μ} {s s' : State σ κ α} {n n' : ℕ}

theorem Past.mono (hn : n ≤ n') {version : UInt64} (h : Past n version) : Past n' version := by
  obtain ⟨b, hb, hversion⟩ := h
  exact ⟨b, hb.trans hn, hversion⟩

theorem Fresh.mono (hk : Keeps src n s n' s') {key : κ} {version : UInt64} {snapshot : α}
    (h : Fresh src n s key version snapshot) : Fresh src n' s' key version snapshot := by
  obtain ⟨b, hb, hversion, hfresh⟩ := h
  refine ⟨b, hb.trans hk.1, hversion, fun hbn hquiet => ?_⟩
  have hnn : n' = n := le_antisymm (hbn ▸ hb) hk.1
  obtain ⟨hquiet', hgrown⟩ := hk.2 hnn hquiet
  have hbuilt := hfresh (hbn.trans hnn) hquiet'
  have hlater : src.Grown (src.build s.source key).2 s'.source := by rwa [hbuilt]
  have hsame := src.build_of_grown hlater
  rwa [hbuilt] at hsame

theorem ReaderOk.mono (hk : Keeps src n s n' s') {phase : Reader κ α}
    (h : ReaderOk src n s phase) : ReaderOk src n' s' phase := by
  cases phase with
  | started key version => exact Past.mono hk.1 h
  | missed key version => exact Past.mono hk.1 h
  | built key version snapshot => exact Fresh.mono hk h
  | checked key version snapshot => exact Fresh.mono hk h
  | returned key snapshot => trivial

theorem not_quiet_insert (s : State σ κ α) (mutator : ℕ) (phase : Mutator) (source : σ)
    (cache : AList (fun _ : κ => UInt64 × α)) :
    ¬ State.Quiet (⟨source, cache, s.version, s.readers, s.mutators.insert mutator phase⟩ :
      State σ κ α) := fun hquiet => by
  have hnone := hquiet mutator
  rw [AList.lookup_insert] at hnone
  cases hnone

/-! ## Steps -/

variable [DecidableEq κ]

/-- What the cache returns for a key to a reader of a version. -/
def State.hit (s : State σ κ α) (key : κ) (version : UInt64) : Option α :=
  ((s.cache.lookup key).filter fun cached => cached.1 = version).map Prod.snd

namespace Source
variable (src : Source σ κ α μ)

def readVersion (s : State σ κ α) (reader : ℕ) (key : κ) : Option (State σ κ α) :=
  match s.readers.lookup reader with
  | none | some (.returned _ _) => some (s.setReader reader (.started key s.version))
  | _ => none

def lookUp (s : State σ κ α) (reader : ℕ) : Option (State σ κ α) :=
  match s.readers.lookup reader with
  | some (.started key version) => match s.hit key version with
    | some snapshot => some (s.setReader reader (.returned key snapshot))
    | none => some (s.setReader reader (.missed key version))
  | _ => none

def buildStep (s : State σ κ α) (reader : ℕ) : Option (State σ κ α) :=
  match s.readers.lookup reader with
  | some (.missed key version) =>
    some ({ s with source := (src.build s.source key).2 }.setReader reader
      (.built key version (src.build s.source key).1))
  | _ => none

def recheck (s : State σ κ α) (reader : ℕ) : Option (State σ κ α) :=
  match s.readers.lookup reader with
  | some (.built key version snapshot) =>
    if s.version = version then some (s.setReader reader (.checked key version snapshot))
    else some (s.setReader reader (.returned key snapshot))
  | _ => none

def insert (s : State σ κ α) (reader : ℕ) : Option (State σ κ α) :=
  match s.readers.lookup reader with
  | some (.checked key version snapshot) =>
    some ({ s with cache := s.cache.insert key (version, snapshot) }.setReader reader
      (.returned key snapshot))
  | _ => none

def mutateStep (s : State σ κ α) (mutator : ℕ) (m : μ) : Option (State σ κ α) :=
  match s.mutators.lookup mutator with
  | some _ => none
  | none =>
    let changed := { s with source := (src.mutate s.source m).1 }
    if (src.mutate s.source m).2 then
      some { changed with mutators := s.mutators.insert mutator .mutated }
    else some changed

def clear (s : State σ κ α) (mutator : ℕ) : Option (State σ κ α) :=
  match s.mutators.lookup mutator with
  | some .mutated => some { s with cache := ∅, mutators := s.mutators.insert mutator .cleared }
  | _ => none

def bump (s : State σ κ α) (mutator : ℕ) : Option (State σ κ α) :=
  match s.mutators.lookup mutator with
  | some .cleared => some { s with version := s.version + 1, mutators := s.mutators.erase mutator }
  | _ => none

def step (s : State σ κ α) : Action κ μ → Option (State σ κ α)
  | .readVersion reader key => readVersion s reader key
  | .lookUp reader => lookUp s reader
  | .build reader => src.buildStep s reader
  | .recheck reader => recheck s reader
  | .insert reader => insert s reader
  | .mutate mutator m => src.mutateStep s mutator m
  | .clear mutator => clear s mutator
  | .bump mutator => bump s mutator

def run (s : State σ κ α) : List (Action κ μ) → Option (State σ κ α)
  | [] => some s
  | a :: actions => (src.step s a).bind fun s' => run s' actions

end Source

/-- How often an action moves the version on. -/
def Action.bumps : Action κ μ → ℕ
  | .bump _ => 1
  | _ => 0

def bumps (actions : List (Action κ μ)) : ℕ :=
  (actions.map Action.bumps).sum

/-! ## The invariant -/

structure Invariant (src : Source σ κ α μ) (n : ℕ) (s : State σ κ α) : Prop where
  version : s.version = UInt64.ofNat n
  cached : ∀ key cached, s.cache.lookup key = some cached → Fresh src n s key cached.1 cached.2
  readers : ∀ reader phase, s.readers.lookup reader = some phase → ReaderOk src n s phase

/-- A step of a reader that changes nothing but its own phase. -/
theorem Invariant.setReader (h : Invariant src n s) (phase : Reader κ α)
    (hphase : ReaderOk src n s phase) (reader : ℕ) : Invariant src n (s.setReader reader phase) where
  version := h.version
  cached := h.cached
  readers := fun reader' phase' hlookup => by
    by_cases hr : reader' = reader
    · subst hr
      obtain rfl := Option.some.inj ((AList.lookup_insert s.readers).symm.trans hlookup)
      exact hphase
    · exact h.readers reader' phase' ((AList.lookup_insert_ne hr).symm.trans hlookup)

theorem Invariant.fresh_of_hit (h : Invariant src n s) {key : κ} {version : UInt64} {snapshot : α}
    (hhit : s.hit key version = some snapshot) : Fresh src n s key version snapshot := by
  obtain ⟨cached, hcached, rfl⟩ := Option.map_eq_some_iff.mp hhit
  obtain ⟨hlookup, hversion⟩ := Option.filter_eq_some_iff.mp hcached
  have hfresh := h.cached key cached hlookup
  rwa [of_decide_eq_true hversion] at hfresh

theorem Invariant.readVersion (h : Invariant src n s) {reader : ℕ} {key : κ}
    (hs : Source.readVersion s reader key = some s') : Invariant src n s' := by
  have hphase : ReaderOk src n s (.started key s.version) := ⟨n, le_rfl, h.version⟩
  unfold Source.readVersion at hs
  split at hs
  · obtain rfl := Option.some.inj hs
    exact h.setReader _ hphase reader
  · obtain rfl := Option.some.inj hs
    exact h.setReader _ hphase reader
  · cases hs

theorem Invariant.lookUp (h : Invariant src n s) {reader : ℕ}
    (hs : Source.lookUp s reader = some s') : Invariant src n s' := by
  unfold Source.lookUp at hs
  split at hs
  · rename_i key version hreader
    have hpast : Past n version := h.readers reader _ hreader
    split at hs
    · obtain rfl := Option.some.inj hs
      exact h.setReader (.returned key _) trivial reader
    · obtain rfl := Option.some.inj hs
      exact h.setReader (.missed key version) hpast reader
  · cases hs

theorem Invariant.grow (h : Invariant src n s) {source : σ} (hgrown : src.Grown s.source source) :
    Invariant src n { s with source := source } :=
  have hk : Keeps src n s n { s with source := source } :=
    ⟨le_rfl, fun _ hquiet => ⟨hquiet, hgrown⟩⟩
  ⟨h.version, fun key cached hlookup => (h.cached key cached hlookup).mono hk,
    fun reader phase hlookup => (h.readers reader phase hlookup).mono hk⟩

theorem Invariant.buildStep (h : Invariant src n s) {reader : ℕ}
    (hs : src.buildStep s reader = some s') : Invariant src n s' := by
  unfold Source.buildStep at hs
  split at hs
  · rename_i key version hreader
    obtain rfl := Option.some.inj hs
    obtain ⟨b, hb, hversion⟩ : Past n version := h.readers reader _ hreader
    refine (h.grow (src.grown_build s.source key)).setReader (.built key version _)
      ⟨b, hb, hversion, fun _ _ => ?_⟩ reader
    exact src.build_of_grown (src.grown_refl _)
  · cases hs

theorem Invariant.recheck (h : Invariant src n s) {reader : ℕ}
    (hs : Source.recheck s reader = some s') : Invariant src n s' := by
  unfold Source.recheck at hs
  split at hs
  · rename_i key version snapshot hreader
    have hfresh : Fresh src n s key version snapshot := h.readers reader _ hreader
    split at hs
    · obtain rfl := Option.some.inj hs
      exact h.setReader (.checked key version snapshot) hfresh reader
    · obtain rfl := Option.some.inj hs
      exact h.setReader (.returned key snapshot) trivial reader
  · cases hs

theorem Invariant.insert (h : Invariant src n s) {reader : ℕ}
    (hs : Source.insert s reader = some s') : Invariant src n s' := by
  unfold Source.insert at hs
  split at hs
  · rename_i key version snapshot hreader
    obtain rfl := Option.some.inj hs
    have hfresh : Fresh src n s key version snapshot := h.readers reader _ hreader
    have hinserted : Invariant src n { s with cache := s.cache.insert key (version, snapshot) } := by
      refine ⟨h.version, fun key' cached hlookup => ?_, h.readers⟩
      by_cases hkey : key' = key
      · subst hkey
        obtain rfl := Option.some.inj ((AList.lookup_insert s.cache).symm.trans hlookup)
        exact hfresh
      · exact h.cached key' cached ((AList.lookup_insert_ne hkey).symm.trans hlookup)
    exact hinserted.setReader (.returned key snapshot) trivial reader
  · cases hs

theorem Invariant.mutateStep (h : Invariant src n s) {mutator : ℕ} {m : μ}
    (hs : src.mutateStep s mutator m = some s') : Invariant src n s' := by
  unfold Source.mutateStep at hs
  split at hs
  · cases hs
  · split at hs
    · obtain rfl := Option.some.inj hs
      have hk : Keeps src n s n ⟨(src.mutate s.source m).1, s.cache, s.version, s.readers,
          s.mutators.insert mutator .mutated⟩ :=
        ⟨le_rfl, fun _ hquiet => absurd hquiet (not_quiet_insert s mutator .mutated _ _)⟩
      exact ⟨h.version, fun key cached hlookup => (h.cached key cached hlookup).mono hk,
        fun reader phase hlookup => (h.readers reader phase hlookup).mono hk⟩
    · rename_i hunchanged
      obtain rfl := Option.some.inj hs
      exact h.grow (src.grown_mutate (Bool.eq_false_of_not_eq_true hunchanged))

theorem Invariant.clear (h : Invariant src n s) {mutator : ℕ}
    (hs : Source.clear s mutator = some s') : Invariant src n s' := by
  unfold Source.clear at hs
  split at hs
  · obtain rfl := Option.some.inj hs
    have hk : Keeps src n s n ⟨s.source, ∅, s.version, s.readers,
        s.mutators.insert mutator .cleared⟩ :=
      ⟨le_rfl, fun _ hquiet => absurd hquiet (not_quiet_insert s mutator .cleared _ _)⟩
    refine ⟨h.version, fun key cached hlookup => ?_,
      fun reader phase hlookup => (h.readers reader phase hlookup).mono hk⟩
    cases hlookup
  · cases hs

theorem Invariant.bump (h : Invariant src n s) {mutator : ℕ}
    (hs : Source.bump s mutator = some s') : Invariant src (n + 1) s' := by
  unfold Source.bump at hs
  split at hs
  · obtain rfl := Option.some.inj hs
    have hk : Keeps src n s (n + 1) ⟨s.source, s.cache, s.version + 1, s.readers,
        s.mutators.erase mutator⟩ :=
      ⟨Nat.le_succ n, fun hn => absurd hn (Nat.succ_ne_self n)⟩
    exact ⟨by rw [h.version, UInt64.ofNat_add]; rfl,
      fun key cached hlookup => (h.cached key cached hlookup).mono hk,
      fun reader phase hlookup => (h.readers reader phase hlookup).mono hk⟩
  · cases hs

theorem Invariant.step (h : Invariant src n s) {a : Action κ μ} (hs : src.step s a = some s') :
    Invariant src (n + a.bumps) s' := by
  cases a with
  | readVersion reader key => exact h.readVersion hs
  | lookUp reader => exact h.lookUp hs
  | build reader => exact h.buildStep hs
  | recheck reader => exact h.recheck hs
  | insert reader => exact h.insert hs
  | mutate mutator m => exact h.mutateStep hs
  | clear mutator => exact h.clear hs
  | bump mutator => exact h.bump hs

/-! ## Runs -/

theorem Invariant.run (h : Invariant src n s) {actions : List (Action κ μ)}
    (hr : src.run s actions = some s') : Invariant src (n + bumps actions) s' := by
  induction actions generalizing s n with
  | nil =>
    obtain rfl := Option.some.inj hr
    exact h
  | cons a actions ih =>
    obtain ⟨s₁, hs, hrest⟩ := Option.bind_eq_some_iff.mp hr
    have hall := ih (h.step hs) hrest
    rwa [Nat.add_assoc] at hall

theorem invariant_start (source : σ) : Invariant src 0 (State.start source : State σ κ α) where
  version := rfl
  cached := fun key cached hlookup => by cases hlookup
  readers := fun reader phase hlookup => by cases hlookup

/-- While the counter has not gone round, a snapshot that the cache returns under the current version is
the one that would be built, when no mutator is between its steps. -/
theorem Invariant.hit_of_current (h : Invariant src n s) (hn : n < UInt64.size) (hquiet : s.Quiet)
    {key : κ} {snapshot : α} (hhit : s.hit key s.version = some snapshot) :
    src.build s.source key = (snapshot, s.source) := by
  obtain ⟨b, hb, hversion, hfresh⟩ := h.fresh_of_hit hhit
  refine hfresh ?_ hquiet
  have hnat := congrArg UInt64.toNat (hversion.symm.trans h.version)
  rwa [UInt64.toNat_ofNat_of_lt' (lt_of_le_of_lt hb hn), UInt64.toNat_ofNat_of_lt' hn] at hnat

end

end JavaAnalyzer.VersionedCache
