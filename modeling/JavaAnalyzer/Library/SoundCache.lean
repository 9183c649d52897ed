import JavaAnalyzer.Library.Worklist

/-! # Sound caches

Computations that look results up in a table and put results into it, in any order of their own. Each key has
a type of values, and says which of them the table may hold. Over a table that holds no others, a computation
is transparent if its answer is the same whatever the table holds, and leaves such a table behind. -/

namespace JavaAnalyzer.SoundCache
set_option autoImplicit false

variable {κ : Type} [DecidableEq κ] {β : κ → Type}

abbrev Table (β : κ → Type) := (k : κ) → Option (β k)

def Table.empty : Table β :=
  fun _ => none

/-- A computation over a table. -/
abbrev Cached (β : κ → Type) (α : Type) := StateM (Table β) α

section Operations

variable {α : Type}

/-- The held value is used, or else the computation is run. -/
def lookupElse (k : κ) (found : β k → Cached β α) (compute : Cached β α) : Cached β α := fun table =>
  match table k with
  | some v => found v table
  | none => compute table

def store (k : κ) (v : β k) : Cached β Unit := fun table =>
  ((), Function.update table k (some v))

/-- The held value, or else a value that is computed and put in. -/
def cached (k : κ) (compute : Cached β (β k)) : Cached β (β k) :=
  lookupElse k pure do
    let v ← compute
    store k v
    return v

/-- Only a value that is there is put in. -/
def cachedSome (k : κ) (compute : Cached β (Option (β k))) : Cached β (Option (β k)) :=
  lookupElse k (fun v => pure (some v)) do
    match ← compute with
    | none => return none
    | some v =>
      store k v
      return some v

end Operations

/-! ## What a computation comes to -/

variable (valid : (k : κ) → β k → Prop)

/-- The table holds valid values only. -/
def Sound (table : Table β) : Prop :=
  ∀ k v, table k = some v → valid k v

/-- The answer is `a` over every sound table. -/
def Computes {α : Type} (m : Cached β α) (a : α) : Prop :=
  ∀ table, Sound valid table → (m table).1 = a ∧ Sound valid (m table).2

def Transparent {α : Type} (m : Cached β α) : Prop :=
  ∃ a, Computes valid m a

variable {valid} {α γ : Type}

omit [DecidableEq κ] in
theorem sound_empty : Sound valid Table.empty :=
  fun _ _ h => (by cases h)

omit [DecidableEq κ] in
theorem Computes.transparent {m : Cached β α} {a : α} (h : Computes valid m a) : Transparent valid m :=
  ⟨a, h⟩

omit [DecidableEq κ] in
/-- The answer is the one over the empty table. -/
theorem Transparent.computes_empty {m : Cached β α} (h : Transparent valid m) :
    Computes valid m (m .empty).1 := by
  obtain ⟨a, ha⟩ := h
  rwa [(ha _ sound_empty).1]

/-! ## Rules -/

section Rules

omit [DecidableEq κ]

theorem computes_pure (a : α) : Computes valid (pure a) a :=
  fun _ htable => ⟨rfl, htable⟩

theorem Computes.bind {m : Cached β α} {f : α → Cached β γ} {a : α} {c : γ} (hm : Computes valid m a)
    (hf : Computes valid (f a) c) : Computes valid (m >>= f) c := by
  intro table htable
  obtain ⟨hanswer, hsound⟩ := hm table htable
  have hnext := hf _ hsound
  rw [← hanswer] at hnext
  exact hnext

theorem Computes.map {m : Cached β α} {a : α} (f : α → γ) (hm : Computes valid m a) :
    Computes valid (f <$> m) (f a) := by
  rw [← bind_pure_comp]
  exact hm.bind (computes_pure (f a))

theorem Transparent.bind {m : Cached β α} {f : α → Cached β γ} (hm : Transparent valid m)
    (hf : ∀ a, Transparent valid (f a)) : Transparent valid (m >>= f) := by
  obtain ⟨a, ha⟩ := hm
  obtain ⟨c, hc⟩ := hf a
  exact ⟨c, ha.bind hc⟩

theorem transparent_pure (a : α) : Transparent valid (pure a) :=
  (computes_pure a).transparent

theorem Transparent.map {m : Cached β α} (f : α → γ) (hm : Transparent valid m) : Transparent valid (f <$> m) := by
  obtain ⟨a, ha⟩ := hm
  exact (ha.map f).transparent

theorem Computes.lookupElse {k : κ} {found : β k → Cached β α} {compute : Cached β α} {a : α}
    (hfound : ∀ v, valid k v → Computes valid (found v) a) (hcompute : Computes valid compute a) :
    Computes valid (lookupElse k found compute) a := by
  intro table htable
  unfold SoundCache.lookupElse
  cases hk : table k with
  | some v => exact hfound v (htable k v hk) table htable
  | none => exact hcompute table htable

end Rules

theorem computes_store {k : κ} {v : β k} (hv : valid k v) : Computes valid (store k v) () := by
  intro table htable
  refine ⟨rfl, fun k' v' hheld => ?_⟩
  by_cases hk : k' = k
  · subst hk
    have hv' : some v = some v' := by simpa [store] using hheld
    exact Option.some.inj hv' ▸ hv
  · exact htable k' v' (by simpa [store, hk] using hheld)

theorem Computes.cached {k : κ} {compute : Cached β (β k)} {v : β k} (hcompute : Computes valid compute v)
    (hvalid : ∀ w, valid k w ↔ w = v) : Computes valid (cached k compute) v := by
  refine Computes.lookupElse (fun w hw => ?_) ?_
  · rw [(hvalid w).mp hw]
    exact computes_pure v
  · exact hcompute.bind ((computes_store ((hvalid v).mpr rfl)).bind (computes_pure v))

theorem Computes.cachedSome {k : κ} {compute : Cached β (Option (β k))} {found : Option (β k)}
    (hcompute : Computes valid compute found) (hvalid : ∀ w, valid k w ↔ found = some w) :
    Computes valid (cachedSome k compute) found := by
  refine Computes.lookupElse (fun w hw => ?_) (hcompute.bind ?_)
  · rw [(hvalid w).mp hw]
    exact computes_pure (some w)
  · cases hfound : found with
    | none => exact computes_pure none
    | some w =>
      exact (computes_store ((hvalid w).mpr hfound)).bind (computes_pure (some w))

/-! ## Lists -/

section Lists

omit [DecidableEq κ]

theorem Computes.mapM {f : α → Cached β γ} {g : α → γ} {l : List α} (h : ∀ a ∈ l, Computes valid (f a) (g a)) :
    Computes valid (l.mapM f) (l.map g) := by
  induction l with
  | nil => exact computes_pure []
  | cons a l ih =>
    rw [List.mapM_cons]
    exact (h a List.mem_cons_self).bind
      ((ih fun b hb => h b (List.mem_cons_of_mem a hb)).bind (computes_pure _))

theorem Transparent.mapM {f : α → Cached β γ} (h : ∀ a, Transparent valid (f a)) (l : List α) :
    Transparent valid (l.mapM f) :=
  (Computes.mapM fun a _ => (h a).computes_empty).transparent

theorem Transparent.findSomeM? {f : α → Cached β (Option γ)} (h : ∀ a, Transparent valid (f a)) (l : List α) :
    Transparent valid (l.findSomeM? f) := by
  induction l with
  | nil => exact transparent_pure none
  | cons a l ih =>
    rw [List.findSomeM?_cons]
    refine (h a).bind fun found => ?_
    cases found with
    | none => exact ih
    | some c => exact transparent_pure (some c)

end Lists

/-! ## Worklists -/

section Worklists

omit [DecidableEq κ]

variable {ι : Type} [DecidableEq ι]

/-- `Worklist.bfs` where finding is a computation. -/
def bfs (find : ι → Cached β (Option α)) (next : α → List ι) :
    ℕ → List ι → List ι → Cached β (Option (List α))
  | _, [], _ => pure (some [])
  | 0, _ :: _, _ => pure none
  | fuel + 1, i :: queue, seen =>
    if i ∈ seen then bfs find next fuel queue seen
    else do
      match ← find i with
      | none => bfs find next fuel queue (i :: seen)
      | some a => (fun found => found.map (a :: ·)) <$> bfs find next fuel (queue ++ next a) (i :: seen)

theorem Computes.bfs {find : ι → Cached β (Option α)} {found : ι → Option α} (next : α → List ι)
    (h : ∀ i, Computes valid (find i) (found i)) (fuel : ℕ) (queue seen : List ι) :
    Computes valid (bfs find next fuel queue seen) (Worklist.bfs found next fuel queue seen) := by
  induction fuel generalizing queue seen with
  | zero =>
    cases queue with
    | nil => exact computes_pure _
    | cons i queue => exact computes_pure _
  | succ fuel ih =>
    cases queue with
    | nil => exact computes_pure _
    | cons i queue =>
      rw [SoundCache.bfs, Worklist.bfs]
      split_ifs
      · exact ih queue seen
      · refine (h i).bind ?_
        cases found i with
        | none => exact ih queue (i :: seen)
        | some a => exact (ih (queue ++ next a) (i :: seen)).map _

end Worklists

/-! ## Sequences of queries -/

section Sequences

omit [DecidableEq κ]

variable {Query : Type} {Answer : Query → Type} (run : (q : Query) → Cached β (Answer q))

/-- The answers to queries that come one after the other. -/
def answers : Table β → List Query → List ((q : Query) × Answer q)
  | _, [] => []
  | table, q :: queries => ⟨q, (run q table).1⟩ :: answers (run q table).2 queries

variable {run}

/-- Each query is answered as over the empty table. -/
theorem answers_eq (h : ∀ q, Transparent valid (run q)) {table : Table β} (htable : Sound valid table)
    (queries : List Query) : answers run table queries = queries.map fun q => ⟨q, (run q .empty).1⟩ := by
  induction queries generalizing table with
  | nil => rfl
  | cons q queries ih =>
    obtain ⟨hanswer, hsound⟩ := (h q).computes_empty table htable
    rw [answers, hanswer, ih hsound, List.map_cons]

end Sequences

end JavaAnalyzer.SoundCache
