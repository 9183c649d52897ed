import Mathlib

/-! # Event logs

A system that appends what happens to a log promises things about the order of its events: that an event
of one kind is followed by one of another (`Followed`), or that an event of some kind comes at the right
time (`Timely`), which the log up to it tells. Both are kept event by event. -/

namespace JavaAnalyzer.EventLog
set_option autoImplicit false

variable {ε : Type} {p q : ε → Prop} {good : List ε → ε → Prop} {log before after : List ε} {e x : ε}

/-- Every event with `p` has one with `q` somewhere behind it. -/
def Followed (p q : ε → Prop) (log : List ε) : Prop :=
  ∀ before e after, log = before ++ e :: after → p e → ∃ f ∈ after, q f

/-- Every event with `p` is good after what was logged before it. -/
def Timely (p : ε → Prop) (good : List ε → ε → Prop) (log : List ε) : Prop :=
  ∀ before e after, log = before ++ e :: after → p e → good before e

theorem split_concat (h : log ++ [x] = before ++ e :: after) :
    (before = log ∧ e = x ∧ after = []) ∨ ∃ rest, after = rest ++ [x] ∧ log = before ++ e :: rest := by
  rcases List.append_eq_append_iff.mp h with ⟨mid, rfl, hmid⟩ | ⟨mid, rfl, hmid⟩
  · cases mid with
    | nil =>
      simp only [List.nil_append, List.cons.injEq] at hmid
      exact Or.inl ⟨List.append_nil _, hmid.1.symm, hmid.2.symm⟩
    | cons y mid => simp at hmid
  · cases mid with
    | nil =>
      simp only [List.nil_append, List.cons.injEq] at hmid
      exact Or.inl ⟨(List.append_nil _).symm, hmid.1, hmid.2⟩
    | cons y mid =>
      obtain ⟨rfl, hafter⟩ := List.cons.inj hmid
      exact Or.inr ⟨mid, hafter, rfl⟩

theorem followed_nil : Followed p q [] := by
  intro before e after h
  simp at h

theorem Followed.concat (h : Followed p q log) (hx : ¬ p x) : Followed p q (log ++ [x]) := by
  intro before e after hsplit he
  rcases split_concat hsplit with ⟨-, rfl, -⟩ | ⟨rest, rfl, hlog⟩
  · exact absurd he hx
  · obtain ⟨f, hf, hq⟩ := h before e rest hlog he
    exact ⟨f, List.mem_append_left _ hf, hq⟩

/-- An event with `q` settles all that was open. -/
theorem followed_concat (hx : ¬ p x) (hq : q x) : Followed p q (log ++ [x]) := by
  intro before e after hsplit he
  rcases split_concat hsplit with ⟨-, rfl, -⟩ | ⟨rest, rfl, -⟩
  · exact absurd he hx
  · exact ⟨x, List.mem_append_right _ (List.mem_singleton_self x), hq⟩

theorem timely_nil : Timely p good [] := by
  intro before e after h
  simp at h

theorem Timely.concat (h : Timely p good log) (hx : p x → good log x) : Timely p good (log ++ [x]) := by
  intro before e after hsplit he
  rcases split_concat hsplit with ⟨rfl, rfl, -⟩ | ⟨rest, -, hlog⟩
  · exact hx he
  · exact h before e rest hlog he

end JavaAnalyzer.EventLog
