import JavaAnalyzer.Index.WorkspacePublish

/-! # The workspace handle

`index/handle.rs`: the index that is published is changed in place by `update` and exchanged by
`replace`. Each index counts its own mutations, so a version tells two published states apart as long
as an exchanged index has a higher version (`same_version_same_answers`). The model snapshot that is
published beside the index is not looked at here. -/

namespace JavaAnalyzer.Index
set_option autoImplicit false

namespace WorkspaceIndexHandle

/-- A call that `update` passes to the published index, or the exchange of it for a new index with a
history of its own. -/
inductive Step where
  | update (op : WorkspaceIndex.Op)
  | replace (ops : List WorkspaceIndex.Op)

def step (current : WorkspaceIndex) : Step → WorkspaceIndex
  | .update op => current.apply op
  | .replace ops => WorkspaceIndex.run ops

/-- The states that are published one after the other. -/
def history (start : WorkspaceIndex) (steps : List Step) : List WorkspaceIndex :=
  steps.scanl step start

/-! ## Versions that grow -/

/-- The counter is not at its end when the index is called, and an index is exchanged for one with a
higher version. -/
def StepGrows (current : WorkspaceIndex) : Step → Prop
  | .update _ => current.version.toNat + 1 < UInt64.size
  | .replace ops => current.version < (WorkspaceIndex.run ops).version

def Grows : WorkspaceIndex → List Step → Prop
  | _, [] => True
  | current, s :: steps => StepGrows current s ∧ Grows (step current s) steps

instance (current : WorkspaceIndex) : (s : Step) → Decidable (StepGrows current s)
  | .update _ => inferInstanceAs (Decidable (current.version.toNat + 1 < UInt64.size))
  | .replace ops => inferInstanceAs (Decidable (current.version < (WorkspaceIndex.run ops).version))

instance decidableGrows : (current : WorkspaceIndex) → (steps : List Step) →
    Decidable (Grows current steps)
  | _, [] => isTrue trivial
  | current, s :: steps =>
    haveI := decidableGrows (step current s) steps
    inferInstanceAs (Decidable (StepGrows current s ∧ Grows (step current s) steps))

/-- Two indexes answer every lookup and every listing of every context alike. -/
structure SameAnswers (index index' : WorkspaceIndex) : Prop where
  getClass : ∀ readers key n, (index.viewForAnalysisContext readers key).getClass n =
    (index'.viewForAnalysisContext readers key).getClass n
  listing : ∀ readers key k, (index.viewForAnalysisContext readers key).listing k =
    (index'.viewForAnalysisContext readers key).listing k

variable {index index' : WorkspaceIndex}

theorem sameAnswers_of_shownScope (h : index.Invariant) (h' : index'.Invariant)
    (hshown : ∀ key, index'.core.shownScope key = index.core.shownScope key) :
    SameAnswers index index' := by
  have hview (readers : ArtifactReaders) (key : AnalysisContextKey) :
      index.viewForAnalysisContext readers key = index'.viewForAnalysisContext readers key := by
    rw [h.viewForAnalysisContext_eq, h'.viewForAnalysisContext_eq, hshown]
  exact ⟨fun readers key n => by rw [hview], fun readers key k => by rw [hview]⟩

/-! ## One call -/

/-- A call moves the version on by one, or shows nothing new. -/
theorem apply_cases (h : index.Invariant) (op : WorkspaceIndex.Op) :
    (index.apply op).version = index.version + 1 ∨
      (index.apply op).version = index.version ∧
        ∀ key, (index.apply op).core.shownScope key = index.core.shownScope key := by
  obtain ⟨roles, hplaced⟩ := h.placed
  cases op with
  | mutate m =>
    cases hchanged : (index.mutate m).2 with
    | true => exact .inl (by rw [WorkspaceIndex.apply, WorkspaceIndex.mutate_of_changed hchanged])
    | false =>
      rw [WorkspaceIndex.apply, WorkspaceIndex.mutate_of_unchanged hchanged]
      exact .inr ⟨rfl, hplaced.shownScope_of_grown (WorkspaceCore.grown_mutate hchanged)⟩
  | scopeForAnalysisContext key =>
    have hcore := (h.scope_spec key).2
    refine .inr ⟨?_, fun key' => ?_⟩
    · simp only [WorkspaceIndex.apply, WorkspaceIndex.scopeForAnalysisContext]
      split <;> rfl
    · rw [WorkspaceIndex.apply, hcore]
      exact hplaced.shownScope_of_grown (WorkspaceCore.grown_buildScopeSnapshot index.core key) key'
  | clearAnalysisCaches => exact .inr ⟨rfl, fun _ => rfl⟩

theorem lt_add_one {v : UInt64} (h : v.toNat + 1 < UInt64.size) : v < v + 1 := by
  rw [UInt64.lt_iff_toNat_lt, UInt64.toNat_add]
  have hone : (1 : UInt64).toNat = 1 := rfl
  rw [hone, Nat.mod_eq_of_lt h]
  exact Nat.lt_succ_self _

/-- A step of growing versions moves the version on, or shows nothing new. -/
theorem step_cases (h : index.Invariant) {s : Step} (hs : StepGrows index s) :
    index.version < (step index s).version ∨
      (step index s).version = index.version ∧
        ∀ key, (step index s).core.shownScope key = index.core.shownScope key := by
  cases s with
  | update op =>
    rcases apply_cases h op with hnext | hsame
    · left
      rw [step, hnext]
      exact lt_add_one hs
    · exact .inr hsame
  | replace ops => exact .inl hs

theorem invariant_step (h : index.Invariant) (s : Step) : (step index s).Invariant := by
  cases s with
  | update op => exact h.apply op
  | replace ops => exact WorkspaceIndex.invariant_run ops

/-! ## A whole history -/

theorem history_cons (start : WorkspaceIndex) (s : Step) (steps : List Step) :
    history start (s :: steps) = start :: history (step start s) steps :=
  List.scanl_cons

/-- What is published later has a higher version, or shows what the start shows. -/
theorem later_cases (h : index.Invariant) {steps : List Step} (hgrows : Grows index steps) :
    ∀ later ∈ history index steps, later.Invariant ∧ (index.version < later.version ∨
      later.version = index.version ∧
        ∀ key, later.core.shownScope key = index.core.shownScope key) := by
  induction steps generalizing index with
  | nil =>
    intro later hlater
    obtain rfl := List.mem_singleton.mp hlater
    exact ⟨h, .inr ⟨rfl, fun _ => rfl⟩⟩
  | cons s steps ih =>
    intro later hlater
    rw [history_cons] at hlater
    rcases List.mem_cons.mp hlater with rfl | hlater
    · exact ⟨h, .inr ⟨rfl, fun _ => rfl⟩⟩
    · obtain ⟨hinv, hcases⟩ := ih (invariant_step h s) hgrows.2 later hlater
      refine ⟨hinv, ?_⟩
      rcases step_cases h hgrows.1 with hstep | ⟨hversion, hshown⟩
      · left
        rcases hcases with hlt | ⟨heq, -⟩
        · exact UInt64.lt_trans hstep hlt
        · rwa [heq]
      · rcases hcases with hlt | ⟨heq, hsame⟩
        · left
          rwa [hversion] at hlt
        · exact .inr ⟨heq.trans hversion, fun key => (hsame key).trans (hshown key)⟩

theorem SameAnswers.symm (h : SameAnswers index index') : SameAnswers index' index :=
  ⟨fun readers key n => (h.getClass readers key n).symm,
    fun readers key k => (h.listing readers key k).symm⟩

theorem sameAnswers_of_later (h : index.Invariant) {steps : List Step} (hgrows : Grows index steps)
    (later : WorkspaceIndex) (hlater : later ∈ history index steps)
    (hversion : index.version = later.version) : SameAnswers index later := by
  obtain ⟨hinv, hlt | ⟨-, hshown⟩⟩ := later_cases h hgrows later hlater
  · rw [hversion] at hlt
    exact absurd hlt (UInt64.lt_irrefl _)
  · exact sameAnswers_of_shownScope h hinv hshown

theorem same_version_of_invariant (h : index.Invariant) {steps : List Step}
    (hgrows : Grows index steps) : ∀ w₁ ∈ history index steps, ∀ w₂ ∈ history index steps,
      w₁.version = w₂.version → SameAnswers w₁ w₂ := by
  induction steps generalizing index with
  | nil =>
    intro w₁ hw₁ w₂ hw₂ _
    obtain rfl := List.mem_singleton.mp hw₁
    obtain rfl := List.mem_singleton.mp hw₂
    exact sameAnswers_of_shownScope h h fun _ => rfl
  | cons s steps ih =>
    intro w₁ hw₁ w₂ hw₂ hversion
    have hall := sameAnswers_of_later h hgrows
    rw [history_cons] at hw₁ hw₂ hall
    rcases List.mem_cons.mp hw₁ with rfl | hw₁'
    · exact hall w₂ hw₂ hversion
    · rcases List.mem_cons.mp hw₂ with rfl | hw₂'
      · exact (hall w₁ hw₁ hversion.symm).symm
      · exact ih (invariant_step h s) hgrows.2 w₁ hw₁' w₂ hw₂' hversion

/-- In every history whose versions grow, two published states of one version answer alike. -/
theorem same_version_same_answers (ops : List WorkspaceIndex.Op) (steps : List Step)
    (hgrows : Grows (.run ops) steps) : ∀ w₁ ∈ history (.run ops) steps,
      ∀ w₂ ∈ history (.run ops) steps, w₁.version = w₂.version → SameAnswers w₁ w₂ :=
  same_version_of_invariant (WorkspaceIndex.invariant_run ops) hgrows

/-- The call that publishes `Main.java`. -/
def publishMain : WorkspaceIndex.Op :=
  .mutate (.updateSourceInContext .root none (.sourceFile "file:///Main.java")
    [WorkspaceIndex.mainClass] none)

/-- A scope is built between the two states, which moves no version. -/
theorem same_version_example : SameAnswers (.run [publishMain])
    (.run [publishMain, .scopeForAnalysisContext ⟨.root, .main, none⟩]) :=
  same_version_same_answers [publishMain]
    [.update (.scopeForAnalysisContext ⟨.root, .main, none⟩),
      .replace [publishMain, .mutate (.setModuleDependencies .root [])]] (by decide)
    (.run [publishMain]) List.mem_cons_self
    (.run [publishMain, .scopeForAnalysisContext ⟨.root, .main, none⟩])
    (List.mem_cons_of_mem _ List.mem_cons_self) (by decide)

/-- An index is published after one call, and exchanged for another one that is one call old. -/
theorem replaced_version_collides :
    ¬ ∀ (ops : List WorkspaceIndex.Op) (steps : List Step), ∀ w₁ ∈ history (.run ops) steps,
      ∀ w₂ ∈ history (.run ops) steps, w₁.version = w₂.version →
        ∀ readers key n, (w₁.viewForAnalysisContext readers key).getClass n =
          (w₂.viewForAnalysisContext readers key).getClass n := by
  intro hall
  have hsame := hall [publishMain] [.replace [.mutate (.setModuleDependencies .root [])]]
    (.run [publishMain]) (by simp [history]) (.run [.mutate (.setModuleDependencies .root [])])
    (by simp [history, step]) (by decide) .none ⟨.root, .main, none⟩ "app/Main"
  revert hsame
  decide

end WorkspaceIndexHandle

end JavaAnalyzer.Index
