import JavaAnalyzer.Library.EventLog

/-! # Merging keyed candidates by rank

Candidates arrive in order, each with an optional key. The merge keeps one candidate for each key, in
the place where the key first appeared: the first candidate of the highest rank, which is the
`List.argmax` of the candidates with that key. -/

namespace JavaAnalyzer.RankedMerge
set_option autoImplicit false
open EventLog

variable {α κ ρ : Type}

/-! ## The first candidate of the highest rank -/

section ArgMax

variable [LinearOrder ρ] {rank : α → ρ} {l : List α} {a : α}

theorem argmax_eq_some_iff_split : l.argmax rank = some a ↔
    ∃ pre post, l = pre ++ a :: post ∧ (∀ x ∈ pre, rank x < rank a) ∧ ∀ x ∈ post, rank x ≤ rank a := by
  induction l using List.reverseRecOn generalizing a with
  | nil => simp
  | append_singleton l x ih =>
    rw [List.argmax_concat]
    cases hl : l.argmax rank with
    | none =>
      obtain rfl := List.argmax_eq_none.mp hl
      constructor
      · rintro ⟨⟩
        exact ⟨[], [], by simp⟩
      · rintro ⟨pre, post, he, -, -⟩
        cases pre with
        | nil => exact congrArg some (List.cons.inj he).1
        | cons y pre => simp at he
    | some b =>
      obtain ⟨pre, post, hsplit, hpre, hpost⟩ := ih.mp hl
      have hle : ∀ y ∈ l, rank y ≤ rank b := fun y hy => List.le_of_mem_argmax hy hl
      simp only
      split
      · rename_i hlt
        constructor
        · rintro ⟨⟩
          exact ⟨l, [], rfl, fun y hy => (hle y hy).trans_lt hlt, by simp⟩
        · rintro ⟨pre', post', he, -, hpost'⟩
          rcases split_concat he with ⟨-, rfl, -⟩ | ⟨rest, rfl, rfl⟩
          · rfl
          · have hax := (hle a (by simp)).trans_lt hlt
            exact absurd (hpost' x (by simp)) (not_le.mpr hax)
      · rename_i hnlt
        constructor
        · rintro ⟨⟩
          refine ⟨pre, post ++ [x], by simp [hsplit], hpre, fun y hy => ?_⟩
          rcases List.mem_append.mp hy with hy | hy
          · exact hpost y hy
          · exact List.mem_singleton.mp hy ▸ not_lt.mp hnlt
        · rintro ⟨pre', post', he, hpre', hpost'⟩
          rcases split_concat he with ⟨rfl, rfl, -⟩ | ⟨rest, rfl, rfl⟩
          · exact absurd (hpre' b (List.argmax_mem hl)) hnlt
          · have hb := ih.mpr ⟨pre', rest, rfl, hpre', fun y hy => hpost' y (by simp [hy])⟩
            exact hl.symm.trans hb

/-- The best candidate stays the best among fewer, as long as it is one of them. -/
theorem argmax_filter {p : α → Bool} (h : l.argmax rank = some a) (hp : p a = true) :
    (l.filter p).argmax rank = some a := by
  obtain ⟨pre, post, rfl, hpre, hpost⟩ := argmax_eq_some_iff_split.mp h
  refine argmax_eq_some_iff_split.mpr ⟨pre.filter p, post.filter p, by simp [hp], ?_, ?_⟩
  · exact fun x hx => hpre x (List.mem_of_mem_filter hx)
  · exact fun x hx => hpost x (List.mem_of_mem_filter hx)

theorem exists_argmax_of_mem (rank : α → ρ) (ha : a ∈ l) : ∃ b, l.argmax rank = some b := by
  cases h : l.argmax rank with
  | none =>
    rw [List.argmax_eq_none.mp h] at ha
    cases ha
  | some b => exact ⟨b, rfl⟩

/-- The best of the values read off the candidates is read off the best candidate. -/
theorem argmax_filterMap {β : Type} {f : α → Option β} {rank' : β → ρ}
    (h : ∀ x ∈ l, ∃ b, f x = some b ∧ rank' b = rank x) :
    (l.filterMap f).argmax rank' = (l.argmax rank).bind f := by
  induction l using List.reverseRecOn with
  | nil => rfl
  | append_singleton l x ih =>
    obtain ⟨b, hb, hbx⟩ := h x (by simp)
    have ih := ih fun y hy => h y (List.mem_append_left _ hy)
    rw [List.filterMap_append, List.filterMap_cons_some hb, List.filterMap_nil, List.argmax_concat,
      List.argmax_concat, ih]
    cases hl : l.argmax rank with
    | none => simp [hb]
    | some a =>
      obtain ⟨c, hc, hca⟩ := h a (List.mem_append_left _ (List.argmax_mem hl))
      simp only [Option.bind_some, hc, hca, hbx]
      split <;> simp [hb, hc]

end ArgMax

theorem filter_filterMap_of {β : Type} {f : α → Option β} {p : β → Bool} {q : α → Bool} {l : List α}
    (h : ∀ x ∈ l, ∃ b, f x = some b ∧ p b = q x) :
    (l.filterMap f).filter p = (l.filter q).filterMap f := by
  induction l with
  | nil => rfl
  | cons x l ih =>
    obtain ⟨b, hb, hbx⟩ := h x (List.mem_cons_self ..)
    have ih := ih fun y hy => h y (List.mem_cons_of_mem _ hy)
    rw [List.filterMap_cons_some hb, List.filter_cons, List.filter_cons, hbx, ih]
    split
    · rw [List.filterMap_cons_some hb]
    · rfl

/-! ## The merge -/

variable [DecidableEq κ] [LinearOrder ρ] (key : α → Option κ) (rank : α → ρ)

/-- Positions of the keys met so far, and the merged candidates. -/
abbrev State (α κ : Type) := AList (fun _ : κ => ℕ) × List α

def mergeStep (st : State α κ) (x : α) : State α κ :=
  match key x with
  | none => st
  | some k =>
    match st.1.lookup k with
    | some i =>
      match st.2[i]? with
      | some current => if rank current < rank x then (st.1, st.2.set i x) else st
      | none => st
    | none => (st.1.insert k st.2.length, st.2 ++ [x])

def mergeFrom (st : State α κ) (l : List α) : State α κ :=
  l.foldl (mergeStep key rank) st

def merge (l : List α) : List α :=
  (mergeFrom key rank (∅, []) l).2

variable {key rank}

/-- What the merge knows after the candidates `l`. -/
structure Merged (key : α → Option κ) (rank : α → ρ) (l : List α) (st : State α κ) : Prop where
  position : ∀ k i, st.1.lookup k = some i ↔ ∃ a, st.2[i]? = some a ∧ key a = some k
  keyed : ∀ a ∈ st.2, ∃ k, key a = some k
  best : ∀ a ∈ st.2, ∀ k, key a = some k → (l.filter fun x => key x = some k).argmax rank = some a
  met : ∀ x ∈ l, ∀ k, key x = some k → ∃ a ∈ st.2, key a = some k

theorem merged_nil : Merged key rank [] (∅, []) where
  position k i := by simp
  keyed a ha := by cases ha
  best a ha := by cases ha
  met x hx := by cases hx

theorem filter_concat_of_ne {l : List α} {x : α} {k : κ} (h : key x ≠ some k) :
    (l ++ [x]).filter (fun y => key y = some k) = l.filter fun y => key y = some k := by
  simp [List.filter_append, h]

theorem filter_concat_of_eq {l : List α} {x : α} {k : κ} (h : key x = some k) :
    (l ++ [x]).filter (fun y => key y = some k) = (l.filter fun y => key y = some k) ++ [x] := by
  simp [List.filter_append, h]

theorem Merged.skip {l : List α} {st : State α κ} (h : Merged key rank l st) {x : α}
    (hx : key x = none) : Merged key rank (l ++ [x]) st := by
  refine ⟨h.position, h.keyed, fun a ha k hk => ?_, fun y hy k hk => ?_⟩
  · rw [filter_concat_of_ne (by simp [hx])]
    exact h.best a ha k hk
  · rcases List.mem_append.mp hy with hy | hy
    · exact h.met y hy k hk
    · rw [List.mem_singleton.mp hy, hx] at hk
      cases hk

theorem Merged.append {l : List α} {st : State α κ} (h : Merged key rank l st) {x : α} {k : κ}
    (hx : key x = some k) (hpos : st.1.lookup k = none) :
    Merged key rank (l ++ [x]) (st.1.insert k st.2.length, st.2 ++ [x]) := by
  have hfresh : ∀ a ∈ st.2, key a ≠ some k := by
    intro a ha hak
    obtain ⟨i, hi⟩ := List.mem_iff_getElem?.mp ha
    rw [(h.position k i).mpr ⟨a, hi, hak⟩] at hpos
    cases hpos
  refine ⟨fun k' i => ?_, fun a ha => ?_, fun a ha k' hk' => ?_, fun y hy k' hk' => ?_⟩
  · have hread : (∃ a, (st.2 ++ [x])[i]? = some a ∧ key a = some k') ↔
        (∃ a, st.2[i]? = some a ∧ key a = some k') ∨ (i = st.2.length ∧ k' = k) := by
      rcases Nat.lt_trichotomy i st.2.length with hi | rfl | hi
      · simp [List.getElem?_append_left hi, Nat.ne_of_lt hi]
      · simp [hx, eq_comm]
      · have hge : (st.2 ++ [x]).length ≤ i := by simp; omega
        simp [List.getElem?_eq_none hge, List.getElem?_eq_none hi.le, Nat.ne_of_gt hi]
    rw [hread, ← h.position]
    by_cases hk : k' = k
    · subst hk
      simp [hpos, eq_comm]
    · simp [AList.lookup_insert_ne hk, hk]
  · rcases List.mem_append.mp ha with ha | ha
    · exact h.keyed a ha
    · exact ⟨k, List.mem_singleton.mp ha ▸ hx⟩
  · rcases List.mem_append.mp ha with ha | ha
    · rw [filter_concat_of_ne fun he => hfresh a ha (hk'.trans (he.symm.trans hx))]
      exact h.best a ha k' hk'
    · obtain rfl := List.mem_singleton.mp ha
      obtain rfl := Option.some.inj (hx.symm.trans hk')
      have hnone : (l.filter fun y => key y = some k) = [] := by
        refine List.filter_eq_nil_iff.mpr fun y hy hyk => ?_
        obtain ⟨b, hb, hbk⟩ := h.met y hy k (by simpa using hyk)
        exact hfresh b hb hbk
      rw [filter_concat_of_eq hx, hnone]
      rfl
  · rcases List.mem_append.mp hy with hy | hy
    · obtain ⟨b, hb, hbk⟩ := h.met y hy k' hk'
      exact ⟨b, List.mem_append_left _ hb, hbk⟩
    · obtain rfl := List.mem_singleton.mp hy
      exact ⟨y, by simp, hk'⟩

/-- A candidate whose key is held at place `i`: that place gets the better of the two. -/
theorem Merged.better {l : List α} {st : State α κ} (h : Merged key rank l st) {x current : α}
    {k : κ} {i : ℕ} (hx : key x = some k) (hpos : st.1.lookup k = some i)
    (hi : st.2[i]? = some current) :
    Merged key rank (l ++ [x])
      (st.1, st.2.set i (if rank current < rank x then x else current)) := by
  have hilt := (List.getElem?_eq_some_iff.mp hi).1
  have hck : key current = some k := by
    obtain ⟨a, ha, hak⟩ := (h.position k i).mp hpos
    rwa [← Option.some.inj (hi.symm.trans ha)] at hak
  have hbest := h.best current (List.mem_of_getElem? hi) k hck
  set winner := if rank current < rank x then x else current with hwinner
  have hwk : key winner = some k := by
    rw [hwinner]
    split <;> assumption
  have hnew : ((l ++ [x]).filter fun y => key y = some k).argmax rank = some winner := by
    rw [filter_concat_of_eq hx, List.argmax_concat, hbest]
    simp only [hwinner]
    split <;> rfl
  have hread (j : ℕ) (k' : κ) : (∃ a, (st.2.set i winner)[j]? = some a ∧ key a = some k') ↔
      ∃ a, st.2[j]? = some a ∧ key a = some k' := by
    by_cases hj : j = i
    · subst hj
      simp [List.getElem?_set_self hilt, hi, hwk, hck]
    · rw [List.getElem?_set_ne (Ne.symm hj)]
  refine ⟨fun k' j => by rw [hread, h.position], fun a ha => ?_, fun a ha k' hk' => ?_,
    fun y hy k' hk' => ?_⟩
  · rcases List.mem_or_eq_of_mem_set ha with ha | rfl
    · exact h.keyed a ha
    · exact ⟨k, hwk⟩
  · obtain ⟨j, hj⟩ := List.mem_iff_getElem?.mp ha
    by_cases hji : j = i
    · subst hji
      rw [List.getElem?_set_self hilt] at hj
      obtain rfl := Option.some.inj hj
      obtain rfl := Option.some.inj (hwk.symm.trans hk')
      exact hnew
    · rw [List.getElem?_set_ne (Ne.symm hji)] at hj
      have hj' := (h.position k' j).mpr ⟨a, hj, hk'⟩
      have hne : key x ≠ some k' := by
        intro he
        obtain rfl := Option.some.inj (hx.symm.trans he)
        exact hji (Option.some.inj (hj'.symm.trans hpos))
      rw [filter_concat_of_ne hne]
      exact h.best a (List.mem_of_getElem? hj) k' hk'
  · have hheld : ∃ b ∈ st.2, key b = some k' := by
      rcases List.mem_append.mp hy with hy | hy
      · exact h.met y hy k' hk'
      · obtain rfl := List.mem_singleton.mp hy
        exact ⟨current, List.mem_of_getElem? hi, hck.trans (hx.symm.trans hk')⟩
    obtain ⟨b, hb, hbk⟩ := hheld
    obtain ⟨j, hj⟩ := List.mem_iff_getElem?.mp hb
    obtain ⟨a, ha, hak⟩ := (hread j k').mpr ⟨b, hj, hbk⟩
    exact ⟨a, List.mem_of_getElem? ha, hak⟩

theorem Merged.step {l : List α} {st : State α κ} (h : Merged key rank l st) (x : α) :
    Merged key rank (l ++ [x]) (mergeStep key rank st x) := by
  unfold mergeStep
  cases hx : key x with
  | none => exact h.skip hx
  | some k =>
    simp only
    cases hpos : st.1.lookup k with
    | none => exact h.append hx hpos
    | some i =>
      obtain ⟨current, hi, -⟩ := (h.position k i).mp hpos
      have hbetter := h.better hx hpos hi
      simp only [hi]
      split
      · rename_i hlt
        rwa [if_pos hlt] at hbetter
      · rename_i hnlt
        obtain ⟨hlt, rfl⟩ := List.getElem?_eq_some_iff.mp hi
        rwa [if_neg hnlt, List.set_getElem_self hlt] at hbetter

theorem merged_merge (l : List α) : Merged key rank l (mergeFrom key rank (∅, []) l) := by
  induction l using List.reverseRecOn with
  | nil => exact merged_nil
  | append_singleton l x ih =>
    rw [mergeFrom, List.foldl_append]
    exact ih.step x

/-- The merge holds, for every key that occurs, the first candidate of the highest rank. -/
theorem mem_merge {l : List α} {a : α} : a ∈ merge key rank l ↔
    ∃ k, key a = some k ∧ (l.filter fun x => key x = some k).argmax rank = some a := by
  have h : Merged key rank l (mergeFrom key rank (∅, []) l) := merged_merge l
  constructor
  · intro ha
    obtain ⟨k, hk⟩ := h.keyed a ha
    exact ⟨k, hk, h.best a ha k hk⟩
  · rintro ⟨k, hk, hbest⟩
    have hmem := List.argmax_mem hbest
    obtain ⟨b, hb, hbk⟩ := h.met a (List.mem_of_mem_filter hmem) k hk
    obtain rfl := Option.some.inj (hbest.symm.trans (h.best b hb k hbk))
    exact hb

theorem merge_key_nodup (l : List α) : ((merge key rank l).map key).Nodup := by
  have h : Merged key rank l (mergeFrom key rank (∅, []) l) := merged_merge l
  refine List.nodup_iff_getElem?_ne_getElem?.mpr fun i j hij hj he => ?_
  rw [List.length_map] at hj
  rw [List.getElem?_map, List.getElem?_map] at he
  have hi' := List.getElem?_eq_getElem (Nat.lt_trans hij hj)
  have hj' := List.getElem?_eq_getElem hj
  obtain ⟨k, hk⟩ := h.keyed _ (List.mem_of_getElem? hj')
  unfold merge at he hi' hj'
  rw [hi', hj'] at he
  have hpi := (h.position k i).mpr ⟨_, hi', (Option.some.inj he).trans hk⟩
  have hpj := (h.position k j).mpr ⟨_, hj', hk⟩
  exact absurd (Option.some.inj (hpi.symm.trans hpj)) (Nat.ne_of_lt hij)

end JavaAnalyzer.RankedMerge
