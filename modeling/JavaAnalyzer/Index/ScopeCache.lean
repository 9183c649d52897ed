import JavaAnalyzer.Index.WorkspaceHandle
import JavaAnalyzer.Library.VersionedCache

/-! # The scope cache under concurrent calls

`scope_for_analysis_context` against the mutators of `index/workspace_index.rs`, step by step: a reader
reads the version, looks up, builds, checks the version again and inserts; a mutator changes the state,
clears the cache and moves the version on. Each party alone is the call of the sequential index
(`reader_alone`, `mutator_alone`). -/

namespace JavaAnalyzer.Index.ScopeCache
set_option autoImplicit false
open VersionedCache

/-- The core of the workspace, as a state that scopes are built from. -/
def source : Source WorkspaceCore AnalysisContextKey (ScopeSnapshot BucketPtr) Mutation where
  build := WorkspaceCore.buildScopeSnapshot
  mutate := WorkspaceCore.mutate
  Grown := WorkspaceCore.Grown
  grown_refl := WorkspaceCore.Grown.refl
  grown_build := WorkspaceCore.grown_buildScopeSnapshot
  build_of_grown := WorkspaceCore.buildScopeSnapshot_of_grown
  grown_mutate := WorkspaceCore.grown_mutate

abbrev State :=
  VersionedCache.State WorkspaceCore AnalysisContextKey (ScopeSnapshot BucketPtr)

abbrev Action :=
  VersionedCache.Action AnalysisContextKey Mutation

/-- The concurrent index with no call under way. -/
def ofIndex (index : WorkspaceIndex) : State :=
  ⟨index.core, index.scopeCache, index.version, ∅, ∅⟩

def toIndex (s : State) : WorkspaceIndex :=
  ⟨s.source, s.cache, s.version⟩

/-- What a reader got, when its call is over. -/
def answer (s : State) (reader : ℕ) : Option (ScopeSnapshot BucketPtr) :=
  match s.readers.lookup reader with
  | some (.returned _ snapshot) => some snapshot
  | _ => none

/-! ## One party alone -/

@[simp] theorem lookup_setReader (s : State) (reader : ℕ)
    (phase : Reader AnalysisContextKey (ScopeSnapshot BucketPtr)) :
    (s.setReader reader phase).readers.lookup reader = some phase :=
  AList.lookup_insert _

/-- The steps of a mutator that nobody interrupts make up the call of the sequential index. -/
theorem mutator_alone (index : WorkspaceIndex) (m : Mutation) :
    (source.run (ofIndex index)
      (if (index.mutate m).2 then [.mutate 0 m, .clear 0, .bump 0] else [.mutate 0 m])).map toIndex =
      some (index.mutate m).1 := by
  have hnone : (ofIndex index).mutators.lookup 0 = none := rfl
  cases hchanged : (index.mutate m).2 with
  | true =>
    have hcore : (source.mutate (ofIndex index).source m).2 = true := hchanged
    rw [WorkspaceIndex.mutate_of_changed hchanged]
    simp only [if_true, Source.run, Source.step, Source.mutateStep, Source.clear, Source.bump, hnone,
      hcore, AList.lookup_insert, Option.bind_some, Option.map_some]
    rfl
  | false =>
    have hcore : (source.mutate (ofIndex index).source m).2 = false := hchanged
    rw [WorkspaceIndex.mutate_of_unchanged hchanged]
    simp only [Bool.false_eq_true, if_false, Source.run, Source.step, Source.mutateStep, hnone, hcore,
      Option.bind_some, Option.map_some]
    rfl

/-- The steps of a reader, as far as it goes. -/
def readerSteps (index : WorkspaceIndex) (key : AnalysisContextKey) : List Action :=
  if ((ofIndex index).hit key index.version).isSome then [.readVersion 0 key, .lookUp 0]
  else [.readVersion 0 key, .lookUp 0, .build 0, .recheck 0, .insert 0]

/-- So do the steps of a reader that nobody interrupts. -/
theorem reader_alone (index : WorkspaceIndex) (key : AnalysisContextKey) :
    (source.run (ofIndex index) (readerSteps index key)).map (fun s => (answer s 0, toIndex s)) =
      some (some (index.scopeForAnalysisContext key).1, (index.scopeForAnalysisContext key).2) := by
  have hstart : Source.readVersion (ofIndex index) 0 key =
      some ((ofIndex index).setReader 0 (.started key index.version)) := rfl
  rcases Option.eq_none_or_eq_some ((index.scopeCache.lookup key).filter
    (fun cached => cached.1 = index.version)) with hmiss | ⟨cached, hcached⟩
  · have hhit : ((ofIndex index).setReader 0 (.started key index.version)).hit key index.version =
        none := by
      simp only [State.hit, State.setReader, ofIndex, hmiss, Option.map_none]
    have hsteps : readerSteps index key =
        [.readVersion 0 key, .lookUp 0, .build 0, .recheck 0, .insert 0] := by
      simp only [readerSteps, State.hit, ofIndex, hmiss, Option.map_none, Option.isSome_none,
        Bool.false_eq_true, if_false]
    simp only [hsteps, Source.run, Source.step, hstart, Source.lookUp, lookup_setReader, hhit,
      Source.buildStep, Source.recheck, Source.insert, Option.bind_some, answer,
      WorkspaceIndex.scopeForAnalysisContext, hmiss, if_true]
    simp only [State.setReader, ofIndex, if_true, Option.bind_some, AList.lookup_insert,
      Option.map_some]
    rfl
  · have hhit : ((ofIndex index).setReader 0 (.started key index.version)).hit key index.version =
        some cached.2 := by
      simp only [State.hit, State.setReader, ofIndex, hcached, Option.map_some]
    have hsteps : readerSteps index key = [.readVersion 0 key, .lookUp 0] := by
      simp only [readerSteps, State.hit, ofIndex, hcached, Option.map_some, Option.isSome_some,
        if_true]
    simp only [hsteps, Source.run, Source.step, hstart, Source.lookUp, lookup_setReader, hhit,
      Option.bind_some, Option.map_some, answer, WorkspaceIndex.scopeForAnalysisContext, hcached]
    rfl

/-! ## Freshness -/

/-- In every run of any number of readers and mutators that moves the version on less than `2 ^ 64`
times: when no mutator is between its steps, a snapshot that the cache returns to a reader whose version
is the current one is the snapshot that is built from the state. -/
theorem cached_scope_fresh (core : WorkspaceCore) (actions : List Action) (s : State)
    (hrun : source.run (.start core) actions = some s) (hbumps : bumps actions < UInt64.size)
    (hquiet : s.Quiet) (reader : ℕ) (key : AnalysisContextKey)
    (hreader : s.readers.lookup reader = some (.started key s.version))
    (snapshot : ScopeSnapshot BucketPtr)
    (hreturned : (Source.lookUp s reader).bind (answer · reader) = some snapshot) :
    snapshot = (s.source.buildScopeSnapshot key).1 := by
  have hstart : Invariant source 0 (.start core) := invariant_start core
  have hinv := hstart.run hrun
  rw [Nat.zero_add] at hinv
  simp only [Source.lookUp, hreader] at hreturned
  cases hhit : s.hit key s.version with
  | none =>
    simp only [hhit, Option.bind_some, answer, lookup_setReader] at hreturned
    cases hreturned
  | some returned =>
    simp only [hhit, Option.bind_some, answer, lookup_setReader, Option.some.injEq] at hreturned
    subst hreturned
    exact (congrArg Prod.fst (hinv.hit_of_current hbumps hquiet hhit)).symm

/-- The context that the runs below read. -/
def mainContext : AnalysisContextKey :=
  ⟨.root, .main, none⟩

/-- A reader fills the cache, and another one starts after a mutation is over and reads from it. -/
def filledThenRead : List Action :=
  [.mutate 0 (.addJarClasses .root []), .clear 0, .bump 0, .readVersion 1 mainContext, .lookUp 1,
    .build 1, .recheck 1, .insert 1, .readVersion 2 mainContext]

theorem cached_scope_fresh_filled :
    ∃ s, source.run (.start .new) filledThenRead = some s ∧
      ∃ snapshot, (Source.lookUp s 2).bind (answer · 2) = some snapshot ∧
        snapshot = (s.source.buildScopeSnapshot mainContext).1 :=
  ⟨_, rfl, _, rfl, cached_scope_fresh .new filledThenRead _ rfl (by decide) (fun _ => rfl) 2
    mainContext rfl _ rfl⟩

/-- A reader that read the version before a mutation looks up after it, and meets what another such
reader has inserted in between. -/
def staleRead : List Action :=
  [.readVersion 1 mainContext, .readVersion 2 mainContext, .lookUp 2, .build 2, .recheck 2,
    .mutate 0 (.addJarClasses .root []), .clear 0, .bump 0, .insert 2]

theorem cached_scope_stale :
    ¬ ∀ (core : WorkspaceCore) (actions : List Action) (s : State),
      source.run (.start core) actions = some s → s.Quiet →
      ∀ reader key version, s.readers.lookup reader = some (.started key version) →
        ∀ snapshot, (Source.lookUp s reader).bind (answer · reader) = some snapshot →
          snapshot = (s.source.buildScopeSnapshot key).1 := by
  intro hall
  have hsame := hall .new staleRead _ rfl (fun _ => rfl) 1 mainContext 0 rfl _ rfl
  have hlength := congrArg (fun snapshot => snapshot.layers.length) hsame
  revert hlength
  decide

end JavaAnalyzer.Index.ScopeCache
