import Mathlib

/-! # Secondary indexes

A secondary index of a slot store lists, under every key, the slots whose value has that key.
`Files m f` says that the index `m` files every slot `i` with `f i = some k` once under `k`, files
nothing else, and keeps no empty list. Each update of the index is matched with an update of `f`. -/

namespace JavaAnalyzer
set_option autoImplicit false

/-- A map from keys to lists of slot numbers. -/
abbrev KeyIndex (κ : Type) := AList (fun _ : κ => List ℕ)

namespace KeyIndex

variable {κ : Type} [DecidableEq κ]

/-- The list under a key, empty when the key is absent. -/
def entries (m : KeyIndex κ) (k : κ) : List ℕ :=
  (m.lookup k).getD []

/-- Appends a slot to the list under a key, creating the list when it is absent. -/
def push (m : KeyIndex κ) (k : κ) (i : ℕ) : KeyIndex κ :=
  m.insert k (m.entries k ++ [i])

/-- Drops a slot from the list under a key, and the list when it becomes empty. -/
def trim (m : KeyIndex κ) (k : κ) (i : ℕ) : KeyIndex κ :=
  match m.lookup k with
  | none => m
  | some ids =>
    let kept := ids.filter (· ≠ i)
    if kept.isEmpty then m.erase k else m.insert k kept

/-- `push` under an optional key. -/
def pushOpt (m : KeyIndex κ) (k : Option κ) (i : ℕ) : KeyIndex κ :=
  match k with
  | none => m
  | some k => m.push k i

/-- `trim` under an optional key. -/
def trimOpt (m : KeyIndex κ) (k : Option κ) (i : ℕ) : KeyIndex κ :=
  match k with
  | none => m
  | some k => m.trim k i

/-! ## Reading after an update -/

@[simp] theorem entries_empty (k : κ) : entries (∅ : KeyIndex κ) k = [] := by
  simp [entries]

theorem entries_of_lookup {m : KeyIndex κ} {k : κ} {ids : List ℕ} (h : m.lookup k = some ids) :
    m.entries k = ids := by
  simp [entries, h]

@[simp] theorem entries_push_self (m : KeyIndex κ) (k : κ) (i : ℕ) :
    entries (m.push k i) k = m.entries k ++ [i] := by
  simp [entries, push]

theorem entries_push_of_ne (m : KeyIndex κ) {k k' : κ} (i : ℕ) (h : k' ≠ k) :
    entries (m.push k i) k' = m.entries k' := by
  simp [entries, push, AList.lookup_insert_ne h]

theorem lookup_push_ne_nil (m : KeyIndex κ) (k k' : κ) (i : ℕ) (h : m.lookup k' ≠ some []) :
    (m.push k i).lookup k' ≠ some [] := by
  by_cases hk : k' = k
  · subst hk
    simp [push]
  · rwa [push, AList.lookup_insert_ne hk]

@[simp] theorem entries_erase_self (m : KeyIndex κ) (k : κ) : entries (m.erase k) k = [] := by
  simp [entries]

theorem entries_erase_of_ne (m : KeyIndex κ) {k k' : κ} (h : k' ≠ k) :
    entries (m.erase k) k' = m.entries k' := by
  simp [entries, AList.lookup_erase_ne h]

@[simp] theorem entries_trim_self (m : KeyIndex κ) (k : κ) (i : ℕ) :
    entries (m.trim k i) k = (m.entries k).filter (· ≠ i) := by
  unfold trim
  split
  · rename_i h
    simp [entries, h]
  · rename_i ids h
    simp only [List.isEmpty_iff]
    split
    · rename_i hnil
      rw [entries_erase_self, entries_of_lookup h, hnil]
    · simp [entries, h]

theorem entries_trim_of_ne (m : KeyIndex κ) {k k' : κ} (i : ℕ) (h : k' ≠ k) :
    entries (m.trim k i) k' = m.entries k' := by
  unfold trim
  split
  · rfl
  · simp only [List.isEmpty_iff]
    split
    · simp [entries, AList.lookup_erase_ne h]
    · simp [entries, AList.lookup_insert_ne h]

theorem lookup_trim_ne_nil (m : KeyIndex κ) (k k' : κ) (i : ℕ) (h : m.lookup k' ≠ some []) :
    (m.trim k i).lookup k' ≠ some [] := by
  unfold trim
  split
  · exact h
  · simp only [List.isEmpty_iff]
    by_cases hk : k' = k
    · subst hk
      split
      · simp
      · rename_i hnil
        simpa using hnil
    · split
      · rwa [AList.lookup_erase_ne hk]
      · rwa [AList.lookup_insert_ne hk]

/-! ## The filing invariant -/

/-- `m` files exactly the slots with a key, each once and under its key. -/
structure Files (m : KeyIndex κ) (f : ℕ → Option κ) : Prop where
  nonempty : ∀ k, m.lookup k ≠ some []
  nodup : ∀ k, (m.entries k).Nodup
  mem_iff : ∀ k i, i ∈ m.entries k ↔ f i = some k

namespace Files

variable {m : KeyIndex κ} {f g : ℕ → Option κ} {k : κ} {i : ℕ}

theorem empty : Files (∅ : KeyIndex κ) (fun _ => none) where
  nonempty k := by simp
  nodup k := by simp
  mem_iff k i := by simp

theorem congr (h : Files m f) (hfg : ∀ i, f i = g i) : Files m g :=
  (funext hfg : f = g) ▸ h

theorem push (h : Files m f) (hi : f i = none) (k : κ) :
    Files (m.push k i) (Function.update f i (some k)) where
  nonempty k' := lookup_push_ne_nil m k k' i (h.nonempty k')
  nodup k' := by
    by_cases hk : k' = k
    · subst hk
      have hnot : i ∉ m.entries k' := fun hmem => by
        rw [h.mem_iff, hi] at hmem
        cases hmem
      rw [entries_push_self]
      simpa [List.nodup_append] using ⟨h.nodup k', fun a ha => ne_of_mem_of_not_mem ha hnot⟩
    · rw [entries_push_of_ne m i hk]
      exact h.nodup k'
  mem_iff k' j := by
    by_cases hj : j = i
    · subst hj
      by_cases hk : k' = k
      · subst hk
        simp
      · have hnot : j ∉ m.entries k' := fun hmem => by
          rw [h.mem_iff, hi] at hmem
          cases hmem
        simpa [entries_push_of_ne m j hk, hnot] using fun he => hk he.symm
    · rw [Function.update_of_ne hj, ← h.mem_iff]
      by_cases hk : k' = k
      · subst hk
        simp [hj]
      · rw [entries_push_of_ne m i hk]

theorem pushOpt (h : Files m f) (hi : f i = none) (k : Option κ) :
    Files (m.pushOpt k i) (Function.update f i k) := by
  cases k with
  | none => exact h.congr fun j => by rw [← hi, Function.update_eq_self]
  | some k => exact h.push hi k

theorem trim (h : Files m f) (hi : f i = some k) :
    Files (m.trim k i) (Function.update f i none) where
  nonempty k' := lookup_trim_ne_nil m k k' i (h.nonempty k')
  nodup k' := by
    by_cases hk : k' = k
    · subst hk
      rw [entries_trim_self]
      exact (h.nodup k').filter _
    · rw [entries_trim_of_ne m i hk]
      exact h.nodup k'
  mem_iff k' j := by
    by_cases hj : j = i
    · subst hj
      by_cases hk : k' = k
      · subst hk
        simp
      · rw [entries_trim_of_ne m j hk, h.mem_iff, hi]
        simpa using fun he => hk he.symm
    · rw [Function.update_of_ne hj, ← h.mem_iff]
      by_cases hk : k' = k
      · subst hk
        simp [hj]
      · rw [entries_trim_of_ne m i hk]

theorem trimOpt (h : Files m f) {k : Option κ} (hi : f i = k) :
    Files (m.trimOpt k i) (Function.update f i none) := by
  cases k with
  | none => exact h.congr fun j => by rw [← hi, Function.update_eq_self]
  | some k => exact h.trim hi

theorem erase (h : Files m f) (k : κ) :
    Files (m.erase k) (fun i => if f i = some k then none else f i) where
  nonempty k' := by
    by_cases hk : k' = k
    · subst hk
      simp
    · rw [AList.lookup_erase_ne hk]
      exact h.nonempty k'
  nodup k' := by
    by_cases hk : k' = k
    · subst hk
      simp
    · rw [entries_erase_of_ne m hk]
      exact h.nodup k'
  mem_iff k' j := by
    by_cases hk : k' = k
    · subst hk
      by_cases hf : f j = some k' <;> simp [hf]
    · rw [entries_erase_of_ne m hk, h.mem_iff]
      by_cases hf : f j = some k
      · simpa [hf] using fun he => hk he.symm
      · simp [hf]

theorem lookup_eq_none_iff (h : Files m f) (k : κ) : m.lookup k = none ↔ ∀ i, f i ≠ some k := by
  constructor
  · intro hnone i hi
    have hmem := (h.mem_iff k i).mpr hi
    simp [entries, hnone] at hmem
  · intro hall
    cases hl : m.lookup k with
    | none => rfl
    | some ids =>
      cases ids with
      | nil => exact absurd hl (h.nonempty k)
      | cons i ids => exact absurd ((h.mem_iff k i).mp (by simp [entries, hl])) (hall i)

end Files

/-! ## Indexes built in one pass -/

/-- The index of a list of optional keys by position. -/
def ofKeys (keys : List (Option κ)) : KeyIndex κ :=
  keys.zipIdx.foldl (fun m (k, i) => m.pushOpt k i) ∅

theorem ofKeys_concat (keys : List (Option κ)) (k : Option κ) :
    ofKeys (keys ++ [k]) = (ofKeys keys).pushOpt k keys.length := by
  simp [ofKeys, List.zipIdx_append]

/-- Under a key stand the positions with that key, in order. -/
theorem entries_ofKeys (keys : List (Option κ)) (k : κ) :
    (ofKeys keys).entries k = (List.range keys.length).filter fun i => keys[i]? = some (some k) := by
  induction keys using List.reverseRecOn with
  | nil => simp [ofKeys]
  | append_singleton keys x ih =>
    have hold : (List.range keys.length).filter (fun i => (keys ++ [x])[i]? = some (some k)) =
        (List.range keys.length).filter fun i => keys[i]? = some (some k) := by
      refine List.filter_congr fun i hi => ?_
      rw [List.getElem?_append_left (List.mem_range.mp hi)]
    rw [ofKeys_concat, List.length_append, List.length_singleton, List.range_succ,
      List.filter_append, hold, ← ih]
    cases x with
    | none => simp [pushOpt]
    | some x =>
      by_cases hk : x = k
      · subst hk
        simp [pushOpt]
      · simp [pushOpt, entries_push_of_ne _ _ (Ne.symm hk), hk]

/-- The last position of every key of a list. -/
def lastPositions (keys : List κ) : AList (fun _ : κ => ℕ) :=
  keys.zipIdx.foldl (fun m (k, i) => m.insert k i) ∅

theorem lookup_lastPositions (keys : List κ) (k : κ) : (lastPositions keys).lookup k =
    ((List.range keys.length).filter fun i => keys[i]? = some k).getLast? := by
  induction keys using List.reverseRecOn with
  | nil => simp [lastPositions]
  | append_singleton keys x ih =>
    have hold : (List.range keys.length).filter (fun i => (keys ++ [x])[i]? = some k) =
        (List.range keys.length).filter fun i => keys[i]? = some k := by
      refine List.filter_congr fun i hi => ?_
      rw [List.getElem?_append_left (List.mem_range.mp hi)]
    have hstep : lastPositions (keys ++ [x]) = (lastPositions keys).insert x keys.length := by
      simp [lastPositions, List.zipIdx_append]
    rw [hstep, List.length_append, List.length_singleton, List.range_succ, List.filter_append, hold]
    by_cases hk : k = x
    · subst hk
      simp
    · have hx : ¬ x = k := fun he => hk he.symm
      simp [AList.lookup_insert_ne hk, ih, hx]

theorem filterMap_positions {α : Type} (l : List α) (p : α → Bool) :
    ((List.range l.length).filter fun i => (l[i]?).any p).filterMap (fun i => l[i]?) =
      l.filter p := by
  induction l using List.reverseRecOn with
  | nil => rfl
  | append_singleton l x ih =>
    have hold : ((List.range l.length).filter fun i => ((l ++ [x])[i]?).any p).filterMap
        (fun i => (l ++ [x])[i]?) = l.filter p := by
      rw [← ih]
      have hfilter : (List.range l.length).filter (fun i => ((l ++ [x])[i]?).any p) =
          (List.range l.length).filter fun i => (l[i]?).any p :=
        List.filter_congr fun i hi => by rw [List.getElem?_append_left (List.mem_range.mp hi)]
      rw [hfilter]
      refine List.filterMap_congr fun i hi => ?_
      rw [List.getElem?_append_left (List.mem_range.mp (List.mem_of_mem_filter hi))]
    rw [List.length_append, List.length_singleton, List.range_succ, List.filter_append,
      List.filterMap_append, hold, List.filter_append]
    by_cases hx : p x = true <;> simp [hx]

end KeyIndex

end JavaAnalyzer
