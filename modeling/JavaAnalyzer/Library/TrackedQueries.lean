import Mathlib

/-! # Tracked queries

A database answers queries by running their bodies. It keeps each answer with what the body read, in order,
and gives the kept answer again as long as every input has the value that was read and every query that was
called still has the answer that was read. A body may also read a world that the database does not watch.
Such a read is in the list for the statements only: it is never compared.

Bodies call queries of lower rank. -/

namespace JavaAnalyzer.TrackedQueries
set_option autoImplicit false

structure Signature where
  Input : Type
  Val : Type
  /-- What tells one state of the world from another. -/
  Stamp : Type
  World : Type
  Query : Type
  Answer : Query → Type
  rank : Query → ℕ

inductive Body (S : Signature) (n : ℕ) (α : Type) : Type where
  | ret (a : α)
  | input (i : S.Input) (next : S.Val → Body S n α)
  | world (next : S.World → Body S n α)
  /-- A query is called under the present stamp, and its answer is dropped. -/
  | touch (q : S.Stamp → S.Query) (h : ∀ stamp, S.rank (q stamp) < n) (next : Body S n α)
  | call (q : S.Query) (h : S.rank q < n) (next : S.Answer q → Body S n α)

inductive Read (S : Signature) : Type where
  | input (i : S.Input) (v : S.Val)
  | world (w : S.World)
  | query (q : S.Query) (a : S.Answer q)

structure Memo (S : Signature) (q : S.Query) where
  value : S.Answer q
  reads : List (Read S)

abbrev Memos (S : Signature) := (q : S.Query) → Option (Memo S q)

/-- What can be read now. -/
structure Present (S : Signature) where
  inputs : S.Input → S.Val
  stamp : S.Stamp
  world : S.World

abbrev Bodies (S : Signature) := (q : S.Query) → Body S (S.rank q) (S.Answer q)

section

variable {S : Signature} {n : ℕ} {α : Type}

def Body.map {β : Type} (f : α → β) : Body S n α → Body S n β
  | .ret a => .ret (f a)
  | .input i next => .input i fun v => (next v).map f
  | .world next => .world fun w => (next w).map f
  | .touch q h next => .touch q h (next.map f)
  | .call q h next => .call q h fun a => (next a).map f

/-! ## Without memos -/

def Body.eval (now : Present S) (callee : (q : S.Query) → S.rank q < n → S.Answer q) :
    Body S n α → α
  | .ret a => a
  | .input i next => (next (now.inputs i)).eval now callee
  | .world next => (next now.world).eval now callee
  | .touch _ _ next => next.eval now callee
  | .call q h next => (next (callee q h)).eval now callee

def freshBelow (bodies : Bodies S) (now : Present S) :
    (n : ℕ) → (q : S.Query) → S.rank q < n → S.Answer q
  | 0, _, h => absurd h (Nat.not_lt_zero _)
  | n + 1, q, h =>
    (bodies q).eval now fun p hp => freshBelow bodies now n p (hp.trans_le (Nat.le_of_lt_succ h))

/-- The answer of a query's body, when nothing is kept. -/
def fresh (bodies : Bodies S) (now : Present S) (q : S.Query) : S.Answer q :=
  freshBelow bodies now (S.rank q + 1) q (Nat.lt_succ_self _)

/-- A body calls the query when nothing is kept. -/
def Body.Calls (bodies : Bodies S) (now : Present S) : Body S n α → S.Query → Prop
  | .ret _, _ => False
  | .input i next, p => (next (now.inputs i)).Calls bodies now p
  | .world next, p => (next now.world).Calls bodies now p
  | .touch _ _ next, p => next.Calls bodies now p
  | .call q _ next, p => p = q ∨ (next (fresh bodies now q)).Calls bodies now p

/-- A query's body calls another one, or a query that it calls does, and so on. -/
def Reaches (bodies : Bodies S) (now : Present S) : S.Query → S.Query → Prop :=
  Relation.ReflTransGen fun q p => (bodies q).Calls bodies now p

/-! ## With memos -/

variable [DecidableEq S.Val] [DecidableEq S.Query] [∀ q, DecidableEq (S.Answer q)]

/-- A body is run, and its reads are recorded. -/
def Body.run (now : Present S)
    (callee : (q : S.Query) → S.rank q < n → Memos S → S.Answer q × Memos S) :
    Body S n α → Memos S → α × List (Read S) × Memos S
  | .ret a, memos => (a, [], memos)
  | .input i next, memos =>
    let rest := (next (now.inputs i)).run now callee memos
    (rest.1, .input i (now.inputs i) :: rest.2.1, rest.2.2)
  | .world next, memos =>
    let rest := (next now.world).run now callee memos
    (rest.1, .world now.world :: rest.2.1, rest.2.2)
  | .touch q h next, memos =>
    let answered := callee (q now.stamp) (h now.stamp) memos
    let rest := next.run now callee answered.2
    (rest.1, .query (q now.stamp) answered.1 :: rest.2.1, rest.2.2)
  | .call q h next, memos =>
    let answered := callee q h memos
    let rest := (next answered.1).run now callee answered.2
    (rest.1, .query q answered.1 :: rest.2.1, rest.2.2)

/-- The inputs and queries that were read are as they were, asked in the same order. -/
def unchanged (now : Present S)
    (callee : (q : S.Query) → S.rank q < n → Memos S → S.Answer q × Memos S) :
    List (Read S) → Memos S → Bool × Memos S
  | [], memos => (true, memos)
  | .input i v :: rest, memos =>
    if now.inputs i = v then unchanged now callee rest memos else (false, memos)
  | .world _ :: rest, memos => unchanged now callee rest memos
  | .query q a :: rest, memos =>
    if h : S.rank q < n then
      let answered := callee q h memos
      if answered.1 = a then unchanged now callee rest answered.2 else (false, answered.2)
    else (false, memos)

/-- The body is run, and its answer is kept. -/
def execute (bodies : Bodies S) (now : Present S) (q : S.Query)
    (callee : (p : S.Query) → S.rank p < S.rank q → Memos S → S.Answer p × Memos S)
    (memos : Memos S) : S.Answer q × Memos S :=
  let ran := (bodies q).run now callee memos
  (ran.1, Function.update ran.2.2 q (some ⟨ran.1, ran.2.1⟩))

def fetchBelow (bodies : Bodies S) (now : Present S) :
    (n : ℕ) → (q : S.Query) → S.rank q < n → Memos S → S.Answer q × Memos S
  | 0, _, h, _ => absurd h (Nat.not_lt_zero _)
  | n + 1, q, h, memos =>
    let callee := fun p (hp : S.rank p < S.rank q) =>
      fetchBelow bodies now n p (hp.trans_le (Nat.le_of_lt_succ h))
    match memos q with
    | none => execute bodies now q callee memos
    | some memo =>
      let checked := unchanged now callee memo.reads memos
      if checked.1 then (memo.value, checked.2) else execute bodies now q callee checked.2

/-- The answer that the database gives, and what it keeps then. -/
def fetch (bodies : Bodies S) (now : Present S) (q : S.Query) (memos : Memos S) :
    S.Answer q × Memos S :=
  fetchBelow bodies now (S.rank q + 1) q (Nat.lt_succ_self _) memos

/-- The database gives an answer that it has kept. -/
def reuses (bodies : Bodies S) (now : Present S) (q : S.Query) (memos : Memos S) : Bool :=
  match memos q with
  | none => false
  | some memo => (unchanged now (fetchBelow bodies now (S.rank q)) memo.reads memos).1

/-! ## Traces -/

/-- The reads lead the body to the answer. -/
def Body.Trace : Body S n α → List (Read S) → α → Prop
  | .ret a, reads, b => reads = [] ∧ b = a
  | .input i next, reads, b => ∃ v rest, reads = .input i v :: rest ∧ (next v).Trace rest b
  | .world next, reads, b => ∃ w rest, reads = .world w :: rest ∧ (next w).Trace rest b
  | .touch q _ next, reads, b => ∃ stamp a rest, reads = .query (q stamp) a :: rest ∧ next.Trace rest b
  | .call q _ next, reads, b => ∃ a rest, reads = .query q a :: rest ∧ (next a).Trace rest b

/-- Every memo is a trace of its query's body. -/
def Traced (bodies : Bodies S) (memos : Memos S) : Prop :=
  ∀ q memo, memos q = some memo → (bodies q).Trace memo.reads memo.value

/-- The world was read as it is now, if it was read. -/
def Memo.Current {q : S.Query} (now : Present S) (memo : Memo S q) : Prop :=
  ∀ w, .world w ∈ memo.reads → w = now.world

/-- An input that was read has another value now. -/
def Memo.InputChanged {q : S.Query} (now : Present S) (memo : Memo S q) : Prop :=
  ∃ i v, .input i v ∈ memo.reads ∧ now.inputs i ≠ v

/-- The memos of the queries that an answer is made of have read the world as it is now, unless an input
that they read has changed. -/
def Settled (bodies : Bodies S) (now : Present S) (memos : Memos S) (q : S.Query) : Prop :=
  ∀ p, Reaches bodies now q p →
    ∀ memo, memos p = some memo → memo.Current now ∨ memo.InputChanged now

/-- New memos have read the world as it is now. -/
def Extends (now : Present S) (memos next : Memos S) : Prop :=
  ∀ q, next q = memos q ∨ ∃ memo, next q = some memo ∧ memo.Current now

/-- What is promised of a call on traced memos. -/
structure Served (bodies : Bodies S) (now : Present S) (memos : Memos S) (q : S.Query)
    (served : S.Answer q × Memos S) : Prop where
  traced : Traced bodies served.2
  extended : Extends now memos served.2
  fresh : Settled bodies now memos q → served.1 = TrackedQueries.fresh bodies now q

variable {bodies : Bodies S} {now : Present S}

omit [DecidableEq S.Val] [DecidableEq S.Query] [∀ q, DecidableEq (S.Answer q)] in
theorem freshBelow_eq (n m : ℕ) (q : S.Query) (hn : S.rank q < n) (hm : S.rank q < m) :
    freshBelow bodies now n q hn = freshBelow bodies now m q hm := by
  induction n generalizing m q with
  | zero => exact absurd hn (Nat.not_lt_zero _)
  | succ n ih =>
    cases m with
    | zero => exact absurd hm (Nat.not_lt_zero _)
    | succ m =>
      rw [freshBelow, freshBelow]
      congr 1
      funext p hp
      exact ih m p _ _

omit [DecidableEq S.Val] [DecidableEq S.Query] [∀ q, DecidableEq (S.Answer q)] in
theorem fresh_eq (q : S.Query) :
    fresh bodies now q = (bodies q).eval now fun p _ => fresh bodies now p := by
  rw [fresh, freshBelow]
  congr 1
  funext p hp
  exact freshBelow_eq ..

theorem Extends.refl (memos : Memos S) : Extends now memos memos :=
  fun _ => .inl rfl

theorem Extends.trans {first second third : Memos S} (h : Extends now first second)
    (h' : Extends now second third) : Extends now first third := by
  intro q
  cases h' q with
  | inl heq => rw [heq]; exact h q
  | inr hnew => exact .inr hnew

theorem Settled.extends {memos next : Memos S} {q : S.Query} (h : Settled bodies now memos q)
    (hext : Extends now memos next) : Settled bodies now next q := by
  intro p hp memo hmemo
  cases hext p with
  | inl heq => exact h p hp memo (heq ▸ hmemo)
  | inr hnew =>
    obtain ⟨new, hnew, hcurrent⟩ := hnew
    cases hnew.symm.trans hmemo
    exact .inl hcurrent

theorem Settled.calls {memos : Memos S} {q p : S.Query} (h : Settled bodies now memos q)
    (hcalls : (bodies q).Calls bodies now p) : Settled bodies now memos p :=
  fun r hr => h r (.head hcalls hr)

variable {callee : (q : S.Query) → S.rank q < n → Memos S → S.Answer q × Memos S}

/-- A run records a trace; when the calls of the body are settled, it gives the body's own answer. -/
theorem Body.run_spec (hcallee : ∀ q h memos, Traced bodies memos →
      Served bodies now memos q (callee q h memos)) (b : Body S n α) (memos : Memos S)
    (htraced : Traced bodies memos) :
    Traced bodies (b.run now callee memos).2.2 ∧ Extends now memos (b.run now callee memos).2.2 ∧
      b.Trace (b.run now callee memos).2.1 (b.run now callee memos).1 ∧
        (∀ w, .world w ∈ (b.run now callee memos).2.1 → w = now.world) ∧
          ((∀ p, b.Calls bodies now p → Settled bodies now memos p) →
            (b.run now callee memos).1 = b.eval now fun p _ => fresh bodies now p) := by
  induction b generalizing memos with
  | ret a => exact ⟨htraced, .refl memos, ⟨rfl, rfl⟩, fun w hw => (by cases hw), fun _ => rfl⟩
  | input i next ih =>
    obtain ⟨hnext, hext, htrace, hworld, hfresh⟩ := ih (now.inputs i) memos htraced
    refine ⟨hnext, hext, ⟨_, _, rfl, htrace⟩, fun w hw => ?_, hfresh⟩
    exact hworld w (List.mem_of_ne_of_mem (by simp) hw)
  | world next ih =>
    obtain ⟨hnext, hext, htrace, hworld, hfresh⟩ := ih now.world memos htraced
    refine ⟨hnext, hext, ⟨_, _, rfl, htrace⟩, fun w hw => ?_, hfresh⟩
    cases List.mem_cons.mp hw with
    | inl heq => cases heq; rfl
    | inr hmem => exact hworld w hmem
  | touch q h next ih =>
    have hserved := hcallee (q now.stamp) (h now.stamp) memos htraced
    obtain ⟨hnext, hext, htrace, hworld, hfresh⟩ := ih _ hserved.traced
    refine ⟨hnext, hserved.extended.trans hext, ⟨_, _, _, rfl, htrace⟩, fun w hw => ?_,
      fun hsettled => hfresh fun p hp => (hsettled p hp).extends hserved.extended⟩
    exact hworld w (List.mem_of_ne_of_mem (by simp) hw)
  | call q h next ih =>
    have hserved := hcallee q h memos htraced
    obtain ⟨hnext, hext, htrace, hworld, hfresh⟩ := ih (callee q h memos).1 _ hserved.traced
    refine ⟨hnext, hserved.extended.trans hext, ⟨_, _, rfl, htrace⟩, fun w hw => ?_, fun hsettled => ?_⟩
    · exact hworld w (List.mem_of_ne_of_mem (by simp) hw)
    · have hanswer := hserved.fresh (hsettled q (.inl rfl))
      rw [hanswer] at hfresh
      show (Body.run now callee (next (callee q h memos).1) (callee q h memos).2).1 = _
      rw [hanswer]
      exact hfresh fun p hp => (hsettled p (.inr hp)).extends hserved.extended

theorem unchanged_frame (hcallee : ∀ q h memos, Traced bodies memos →
      Served bodies now memos q (callee q h memos)) (reads : List (Read S)) (memos : Memos S)
    (htraced : Traced bodies memos) :
    Traced bodies (unchanged now callee reads memos).2 ∧
      Extends now memos (unchanged now callee reads memos).2 := by
  induction reads generalizing memos with
  | nil => exact ⟨htraced, .refl memos⟩
  | cons read rest ih =>
    cases read with
    | input i v =>
      rw [unchanged]
      split
      · exact ih memos htraced
      · exact ⟨htraced, .refl memos⟩
    | world w => exact ih memos htraced
    | query q a =>
      rw [unchanged]
      split
      case isTrue h =>
        have hserved := hcallee q h memos htraced
        dsimp only
        split
        · obtain ⟨hnext, hext⟩ := ih _ hserved.traced
          exact ⟨hnext, hserved.extended.trans hext⟩
        · exact ⟨hserved.traced, hserved.extended⟩
      case isFalse => exact ⟨htraced, .refl memos⟩

omit [DecidableEq S.Query] in
/-- An input that has changed is found out. -/
theorem unchanged_eq_false {i : S.Input} {v : S.Val} {reads : List (Read S)}
    (hmem : .input i v ∈ reads) (hchanged : now.inputs i ≠ v) (memos : Memos S) :
    (unchanged now callee reads memos).1 = false := by
  induction reads generalizing memos with
  | nil => cases hmem
  | cons read rest ih =>
    cases read with
    | input j u =>
      rw [unchanged]
      split
      case isTrue heq =>
        refine ih ?_ memos
        cases List.mem_cons.mp hmem with
        | inl hread => cases hread; exact absurd heq hchanged
        | inr hrest => exact hrest
      case isFalse => rfl
    | world w => exact ih (List.mem_of_ne_of_mem (by simp) hmem) memos
    | query q a =>
      have hrest := List.mem_of_ne_of_mem (by simp) hmem
      rw [unchanged]
      split
      · dsimp only
        split
        · exact ih hrest _
        · rfl
      · rfl

/-- A trace that is found unchanged, and that has read the world as it is now, leads to the answer of the
body. -/
theorem unchanged_value (hcallee : ∀ q h memos, Traced bodies memos →
      Served bodies now memos q (callee q h memos)) (b : Body S n α) (reads : List (Read S)) (a : α)
    (memos : Memos S) (htraced : Traced bodies memos) (htrace : b.Trace reads a)
    (hworld : ∀ w, .world w ∈ reads → w = now.world)
    (hsettled : ∀ p, b.Calls bodies now p → Settled bodies now memos p)
    (htrue : (unchanged now callee reads memos).1 = true) :
    a = b.eval now fun p _ => fresh bodies now p := by
  induction b generalizing reads memos with
  | ret b => exact htrace.2
  | input i next ih =>
    obtain ⟨v, rest, rfl, htrace⟩ := htrace
    rw [unchanged] at htrue
    split at htrue
    case isTrue heq =>
      subst heq
      exact ih _ rest memos htraced htrace (fun w hw => hworld w (List.mem_cons_of_mem _ hw)) hsettled
        htrue
    case isFalse => cases htrue
  | world next ih =>
    obtain ⟨w, rest, rfl, htrace⟩ := htrace
    cases hworld w List.mem_cons_self
    exact ih _ rest memos htraced htrace (fun w hw => hworld w (List.mem_cons_of_mem _ hw)) hsettled htrue
  | touch q h next ih =>
    obtain ⟨stamp, answer, rest, rfl, htrace⟩ := htrace
    have hserved := hcallee (q stamp) (h stamp) memos htraced
    rw [unchanged, dif_pos (h stamp)] at htrue
    dsimp only at htrue
    split at htrue
    · exact ih rest _ hserved.traced htrace (fun w hw => hworld w (List.mem_cons_of_mem _ hw))
        (fun p hp => (hsettled p hp).extends hserved.extended) htrue
    · cases htrue
  | call q h next ih =>
    obtain ⟨answer, rest, rfl, htrace⟩ := htrace
    have hserved := hcallee q h memos htraced
    rw [unchanged, dif_pos h] at htrue
    dsimp only at htrue
    split at htrue
    case isTrue heq =>
      have hanswer : answer = fresh bodies now q :=
        heq.symm.trans (hserved.fresh (hsettled q (.inl rfl)))
      subst hanswer
      exact ih _ rest _ hserved.traced htrace (fun w hw => hworld w (List.mem_cons_of_mem _ hw))
        (fun p hp => (hsettled p (.inr hp)).extends hserved.extended) htrue
    case isFalse => cases htrue

theorem execute_served {q : S.Query}
    {callee : (p : S.Query) → S.rank p < S.rank q → Memos S → S.Answer p × Memos S}
    (hcallee : ∀ p h memos, Traced bodies memos → Served bodies now memos p (callee p h memos))
    {memos : Memos S} (htraced : Traced bodies memos) :
    Served bodies now memos q (execute bodies now q callee memos) := by
  obtain ⟨hnext, hext, htrace, hworld, hfresh⟩ :=
    Body.run_spec hcallee (bodies q) memos htraced
  refine ⟨fun p memo hmemo => ?_, fun p => ?_, fun hsettled => ?_⟩
  · by_cases heq : p = q
    · subst heq
      dsimp only [execute] at hmemo
      rw [Function.update_self] at hmemo
      cases hmemo
      exact htrace
    · dsimp only [execute] at hmemo
      rw [Function.update_of_ne heq] at hmemo
      exact hnext p memo hmemo
  · by_cases heq : p = q
    · subst heq
      exact .inr ⟨_, Function.update_self .., hworld⟩
    · dsimp only [execute]
      rw [Function.update_of_ne heq]
      exact hext p
  · rw [fresh_eq]
    exact hfresh fun p hp => hsettled.calls hp

theorem fetchBelow_served (n : ℕ) (q : S.Query) (h : S.rank q < n) (memos : Memos S)
    (htraced : Traced bodies memos) :
    Served bodies now memos q (fetchBelow bodies now n q h memos) := by
  induction n generalizing q memos with
  | zero => exact absurd h (Nat.not_lt_zero _)
  | succ n ih =>
    have hcallee : ∀ p (hp : S.rank p < S.rank q) memos, Traced bodies memos →
        Served bodies now memos p
          (fetchBelow bodies now n p (hp.trans_le (Nat.le_of_lt_succ h)) memos) :=
      fun p hp memos htraced => ih p _ memos htraced
    unfold fetchBelow
    cases hmemo : memos q with
    | none => exact execute_served hcallee htraced
    | some memo =>
      obtain ⟨hchecked, hext⟩ := unchanged_frame hcallee memo.reads memos htraced
      dsimp only
      split
      case isTrue htrue =>
        refine ⟨hchecked, hext, fun hsettled => ?_⟩
        cases hsettled q .refl memo hmemo with
        | inl hcurrent =>
          rw [fresh_eq]
          exact unchanged_value hcallee (bodies q) memo.reads memo.value memos htraced
            (htraced q memo hmemo) hcurrent (fun p hp => hsettled.calls hp) htrue
        | inr hchanged =>
          obtain ⟨i, v, hmem, hne⟩ := hchanged
          rw [unchanged_eq_false hmem hne] at htrue
          cases htrue
      case isFalse =>
        have hserved := execute_served hcallee hchecked
        exact ⟨hserved.traced, hext.trans hserved.extended,
          fun hsettled => hserved.fresh (hsettled.extends hext)⟩

/-- On traced memos an answer is the fresh one, if the memos that it is made of are settled. -/
theorem fetch_served (q : S.Query) {memos : Memos S} (htraced : Traced bodies memos) :
    Served bodies now memos q (fetch bodies now q memos) :=
  fetchBelow_served _ q _ memos htraced

/-- An answer that was not kept is the fresh one, if the memos of the calls are settled. -/
theorem fetch_of_not_reuses {q : S.Query} {memos : Memos S} (htraced : Traced bodies memos)
    (hreuses : reuses bodies now q memos = false)
    (hsettled : ∀ p, (bodies q).Calls bodies now p → Settled bodies now memos p) :
    (fetch bodies now q memos).1 = fresh bodies now q := by
  have hcallee : ∀ p (hp : S.rank p < S.rank q) memos, Traced bodies memos →
      Served bodies now memos p (fetchBelow bodies now (S.rank q) p hp memos) :=
    fun p hp memos htraced => fetchBelow_served _ p hp memos htraced
  rw [fresh_eq, fetch, fetchBelow]
  unfold reuses at hreuses
  cases hmemo : memos q with
  | none => exact (Body.run_spec hcallee (bodies q) memos htraced).2.2.2.2 hsettled
  | some memo =>
    rw [hmemo] at hreuses
    obtain ⟨hchecked, hext⟩ := unchanged_frame hcallee memo.reads memos htraced
    dsimp only at hreuses ⊢
    rw [hreuses]
    exact (Body.run_spec hcallee (bodies q) _ hchecked).2.2.2.2
      fun p hp => (hsettled p hp).extends hext

omit [DecidableEq S.Val] [DecidableEq S.Query] [∀ q, DecidableEq (S.Answer q)] in
theorem traced_empty : Traced bodies (fun _ => none : Memos S) :=
  fun _ _ h => (by cases h)

end

end JavaAnalyzer.TrackedQueries
