import JavaAnalyzer.Library.Worklist

/-! # What a breadth-first search reaches

The keys a search puts out, in terms of walks: each key of a walk but the last is found, and the next one is
among its successors. At any time the queue holds ends of walks of one length, and behind them ends of walks
that are one step longer (`Frontier`). -/

namespace JavaAnalyzer.Worklist
set_option autoImplicit false

section Walks

variable {κ α : Type} (find : κ → Option α) (next : α → List κ)

/-- Walks by their length. The last key may be one that is not found. -/
inductive Walk (start : κ) : ℕ → κ → Prop where
  | here : Walk start 0 start
  | step {n : ℕ} {k l : κ} {a : α} (walk : Walk start n k) (hfound : find k = some a) (hnext : l ∈ next a) :
      Walk start (n + 1) l

/-- A found key at the end of a walk. -/
def Reaches (start k : κ) : Prop :=
  (∃ n, Walk find next start n k) ∧ (find k).isSome

/-- The length of a shortest walk. -/
noncomputable def distance (start k : κ) : ℕ :=
  sInf {n | Walk find next start n k}

variable {find next} {start k l : κ} {n m : ℕ}

theorem Walk.append (h : Walk find next start n k) (h' : Walk find next k m l) :
    Walk find next start (n + m) l := by
  induction h' with
  | here => exact h
  | step _ hfound hnext ih => exact .step ih hfound hnext

theorem Walk.distance_le (h : Walk find next start n k) : distance find next start k ≤ n :=
  Nat.sInf_le h

theorem Walk.shortest (h : Walk find next start n k) :
    Walk find next start (distance find next start k) k := by
  have hlengths : {n | Walk find next start n k}.Nonempty := ⟨n, h⟩
  exact Nat.sInf_mem hlengths

theorem Walk.eq_start (h : Walk find next start 0 k) : k = start := by
  cases h
  rfl

theorem Reaches.refl (h : (find k).isSome) : Reaches find next k k :=
  ⟨⟨0, .here⟩, h⟩

theorem Reaches.start_found (h : Reaches find next start k) : (find start).isSome := by
  obtain ⟨⟨n, hn⟩, hfound⟩ := h
  induction hn with
  | here => exact hfound
  | step _ hk _ ih => exact ih (hk ▸ rfl)

theorem Reaches.trans (h : Reaches find next start k) (h' : Reaches find next k l) :
    Reaches find next start l := by
  obtain ⟨⟨n, hn⟩, -⟩ := h
  obtain ⟨⟨m, hm⟩, hfound⟩ := h'
  exact ⟨⟨n + m, hn.append hm⟩, hfound⟩

end Walks

section Search

variable {κ α : Type} (find : κ → Option α) (next : α → List κ)

/-- The queue `now ++ later` of a search: walks of length `d` that are not looked up yet end in `now`, and
what follows them joins `later`. -/
structure Frontier (start : κ) (d : ℕ) (now later seen : List κ) : Prop where
  now_walk : ∀ k ∈ now, Walk find next start d k
  later_walk : ∀ k ∈ later, Walk find next start (d + 1) k
  shorter : ∀ n < d, ∀ k, Walk find next start n k → k ∈ seen
  same : ∀ k, Walk find next start d k → k ∈ seen ∨ k ∈ now
  closed : ∀ k ∈ seen, ∀ a, find k = some a → ∀ l ∈ next a, l ∈ seen ∨ l ∈ now ∨ l ∈ later

/-- What a search with the seen keys `seen` has to put out. -/
structure Covers (start : κ) (seen keys : List κ) : Prop where
  nodup : keys.Nodup
  mem_iff : ∀ k, k ∈ keys ↔ k ∉ seen ∧ Reaches find next start k
  sorted : keys.Pairwise fun k l => distance find next start k ≤ distance find next start l

variable {find next} {start k : κ} {d : ℕ} {now later seen keys : List κ}

theorem Frontier.initial : Frontier find next start 0 [start] [] [] where
  now_walk k hk := by
    obtain rfl := List.mem_singleton.mp hk
    exact .here
  later_walk k hk := by cases hk
  shorter n hn := by omega
  same k hk := .inr (List.mem_singleton.mpr hk.eq_start)
  closed k hk := by cases hk

/-- When the walks of one length are used up, the next length is due. -/
theorem Frontier.shift (h : Frontier find next start d [] later seen) :
    Frontier find next start (d + 1) later [] seen where
  now_walk := h.later_walk
  later_walk k hk := by cases hk
  shorter n hn k hk := by
    rcases Nat.lt_succ_iff_lt_or_eq.mp hn with hlt | rfl
    · exact h.shorter n hlt k hk
    · exact (h.same k hk).resolve_right List.not_mem_nil
  same l hl := by
    obtain _ | ⟨hwalk, hfound, hnext⟩ := hl
    have hk := (h.same _ hwalk).resolve_right List.not_mem_nil
    exact (h.closed _ hk _ hfound _ hnext).imp_right (·.resolve_left List.not_mem_nil)
  closed k hk a ha l hl := (h.closed k hk a ha l hl).imp_right fun hqueued => .inl
    (hqueued.resolve_left List.not_mem_nil)

theorem Frontier.front {rest : List κ} (h : Frontier find next start d now later seen)
    (hqueue : now ++ later = k :: rest) :
    ∃ d now later, now ++ later = rest ∧ Frontier find next start d (k :: now) later seen := by
  cases now with
  | nil =>
    obtain rfl : later = k :: rest := hqueue
    exact ⟨d + 1, rest, [], List.append_nil rest, h.shift⟩
  | cons k' now =>
    obtain ⟨rfl, rfl⟩ := List.cons.inj hqueue
    exact ⟨d, now, later, rfl, h⟩

theorem Frontier.skip (h : Frontier find next start d (k :: now) later seen) (hseen : k ∈ seen) :
    Frontier find next start d now later seen where
  now_walk k' hk' := h.now_walk k' (List.mem_cons_of_mem _ hk')
  later_walk := h.later_walk
  shorter := h.shorter
  same k' hk' := by
    rcases h.same k' hk' with hmem | hmem
    · exact .inl hmem
    · rcases List.mem_cons.mp hmem with rfl | hmem
      · exact .inl hseen
      · exact .inr hmem
  closed k' hk' a ha l hl := by
    rcases h.closed k' hk' a ha l hl with hl | hl | hl
    · exact .inl hl
    · rcases List.mem_cons.mp hl with rfl | hl
      · exact .inl hseen
      · exact .inr (.inl hl)
    · exact .inr (.inr hl)

/-- A key is looked up, and its successors join the queue. -/
theorem Frontier.visit (h : Frontier find next start d (k :: now) later seen) {more : List κ}
    (hmore : ∀ l, l ∈ more ↔ ∃ a, find k = some a ∧ l ∈ next a) :
    Frontier find next start d now (later ++ more) (k :: seen) where
  now_walk k' hk' := h.now_walk k' (List.mem_cons_of_mem _ hk')
  later_walk l hl := by
    rcases List.mem_append.mp hl with hl | hl
    · exact h.later_walk l hl
    · obtain ⟨a, ha, hl⟩ := (hmore l).mp hl
      exact .step (h.now_walk k List.mem_cons_self) ha hl
  shorter n hn k' hk' := List.mem_cons_of_mem _ (h.shorter n hn k' hk')
  same k' hk' := by
    rcases h.same k' hk' with hmem | hmem
    · exact .inl (List.mem_cons_of_mem _ hmem)
    · rcases List.mem_cons.mp hmem with rfl | hmem
      · exact .inl List.mem_cons_self
      · exact .inr hmem
  closed k' hk' a ha l hl := by
    rcases List.mem_cons.mp hk' with rfl | hk'
    · exact .inr (.inr (List.mem_append_right _ ((hmore l).mpr ⟨a, ha, hl⟩)))
    · rcases h.closed k' hk' a ha l hl with hl | hl | hl
      · exact .inl (List.mem_cons_of_mem _ hl)
      · rcases List.mem_cons.mp hl with rfl | hl
        · exact .inl List.mem_cons_self
        · exact .inr (.inl hl)
      · exact .inr (.inr (List.mem_append_left _ hl))

theorem Frontier.mem_seen {n : ℕ} (h : Frontier find next start d [] [] seen)
    (hwalk : Walk find next start n k) : k ∈ seen := by
  induction hwalk with
  | here =>
    cases d with
    | zero => exact (h.same start .here).resolve_right List.not_mem_nil
    | succ d => exact h.shorter 0 (Nat.succ_pos d) start .here
  | step _ hfound hnext ih =>
    rcases h.closed _ ih _ hfound _ hnext with hseen | hqueued | hqueued
    · exact hseen
    · cases hqueued
    · cases hqueued

theorem Frontier.covers_nil (h : Frontier find next start d [] [] seen) : Covers find next start seen [] where
  nodup := List.nodup_nil
  mem_iff k := by
    refine iff_of_false List.not_mem_nil fun ⟨hk, ⟨n, hwalk⟩, _⟩ => hk (h.mem_seen hwalk)
  sorted := .nil

theorem Covers.drop (h : Covers find next start (k :: seen) keys) (hnone : find k = none) :
    Covers find next start seen keys where
  nodup := h.nodup
  mem_iff l := by
    rw [h.mem_iff, List.mem_cons, not_or, and_assoc]
    refine and_iff_right_of_imp fun ⟨_, _, hfound⟩ he => ?_
    rw [he, hnone] at hfound
    cases hfound
  sorted := h.sorted

/-- A key that is put out at the front is as near as all that come later. -/
theorem Covers.cons {a : α} (h : Covers find next start (k :: seen) keys)
    (hfrontier : Frontier find next start d (k :: now) later seen) (hseen : k ∉ seen) (ha : find k = some a) :
    Covers find next start seen (k :: keys) := by
  have hwalk : Walk find next start d k := hfrontier.now_walk k List.mem_cons_self
  refine ⟨List.nodup_cons.mpr ⟨fun hk => ((h.mem_iff k).mp hk).1 List.mem_cons_self, h.nodup⟩,
    fun l => ?_, List.pairwise_cons.mpr ⟨fun l hl => ?_, h.sorted⟩⟩
  · rw [List.mem_cons, h.mem_iff, List.mem_cons]
    constructor
    · rintro (rfl | ⟨hl, hreaches⟩)
      · exact ⟨hseen, ⟨d, hwalk⟩, ha ▸ rfl⟩
      · exact ⟨fun hmem => hl (.inr hmem), hreaches⟩
    · rintro ⟨hl, hreaches⟩
      by_cases he : l = k
      · exact .inl he
      · exact .inr ⟨not_or.mpr ⟨he, hl⟩, hreaches⟩
  · obtain ⟨hl, ⟨n, hn⟩, -⟩ := (h.mem_iff l).mp hl
    refine hwalk.distance_le.trans (Nat.le_of_not_lt fun hlt => hl ?_)
    exact List.mem_cons_of_mem _ (hfrontier.shorter _ hlt l hn.shortest)

theorem Covers.head (h : Covers find next start [] keys) (hstart : (find start).isSome) :
    keys.head? = some start := by
  have hmem : start ∈ keys := (h.mem_iff start).mpr ⟨List.not_mem_nil, .refl hstart⟩
  cases keys with
  | nil => cases hmem
  | cons k keys =>
    obtain ⟨-, ⟨n, hn⟩, -⟩ := (h.mem_iff k).mp List.mem_cons_self
    have hle : distance find next start k ≤ 0 := by
      rcases List.mem_cons.mp hmem with rfl | hmem
      · exact Walk.here.distance_le
      · exact ((List.pairwise_cons.mp h.sorted).1 start hmem).trans Walk.here.distance_le
    have hwalk := hn.shortest
    rw [Nat.le_zero.mp hle] at hwalk
    rw [hwalk.eq_start, List.head?_cons]

variable [DecidableEq κ]

theorem bfs_covers {fuel : ℕ} {order : List α} (hfrontier : Frontier find next start d now later seen)
    (h : bfs find next fuel (now ++ later) seen = some order) :
    ∃ keys, keys.map find = order.map some ∧ Covers find next start seen keys := by
  generalize hqueue : now ++ later = queue at h
  induction fuel generalizing d now later seen queue order with
  | zero =>
    cases queue with
    | nil =>
      obtain rfl := Option.some.inj h
      obtain ⟨rfl, rfl⟩ := List.append_eq_nil_iff.mp hqueue
      exact ⟨[], rfl, hfrontier.covers_nil⟩
    | cons k queue => cases h
  | succ fuel ih =>
    cases queue with
    | nil =>
      obtain rfl := Option.some.inj h
      obtain ⟨rfl, rfl⟩ := List.append_eq_nil_iff.mp hqueue
      exact ⟨[], rfl, hfrontier.covers_nil⟩
    | cons k queue =>
      obtain ⟨d, now, later, rfl, hfront⟩ := hfrontier.front hqueue
      unfold bfs at h
      split at h
      · rename_i hseen
        exact ih (hfront.skip hseen) _ rfl h
      · rename_i hseen
        cases hk : find k with
        | none =>
          rw [hk] at h
          have hvisit : Frontier find next start d now (later ++ []) (k :: seen) :=
            hfront.visit (by simp [hk])
          rw [List.append_nil] at hvisit
          obtain ⟨keys, hmap, hcovers⟩ := ih hvisit _ rfl h
          exact ⟨keys, hmap, hcovers.drop hk⟩
        | some a =>
          simp only [hk, Option.map_eq_some_iff] at h
          obtain ⟨order, horder, rfl⟩ := h
          have hvisit : Frontier find next start d now (later ++ next a) (k :: seen) :=
            hfront.visit (by simp [hk])
          obtain ⟨keys, hmap, hcovers⟩ := ih hvisit _ (List.append_assoc ..).symm horder
          exact ⟨k :: keys, by rw [List.map_cons, List.map_cons, hk, hmap],
            hcovers.cons hfront hseen hk⟩

/-- A search from one key puts out the found keys it reaches, each once and the nearer ones first. -/
theorem bfs_reaches {fuel : ℕ} {order : List α} (h : bfs find next fuel [start] [] = some order) :
    ∃ keys, keys.map find = order.map some ∧ Covers find next start [] keys :=
  bfs_covers .initial h

end Search

end JavaAnalyzer.Worklist
