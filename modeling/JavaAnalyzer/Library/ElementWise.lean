import Mathlib

/-! # Lists element by element

Two lists whose elements belong together one by one: results of a map that can fail, and texts that are
joined from the elements and read back one after another. -/

namespace JavaAnalyzer.ElementWise
set_option autoImplicit false

variable {α β γ : Type}

theorem mapM_eq_some_iff {f : α → Option β} {l : List α} {l' : List β} :
    l.mapM f = some l' ↔ List.Forall₂ (fun a b => f a = some b) l l' := by
  induction l generalizing l' with
  | nil => cases l' <;> simp
  | cons a l ih =>
    rw [List.mapM_cons]
    cases l' with
    | nil => simp [Option.bind_eq_some_iff]
    | cons b l' => simp [Option.bind_eq_some_iff, ← ih]

theorem exists_of_mem_mapM {f : α → Option β} {l : List α} {l' : List β} (h : l.mapM f = some l') {b : β}
    (hb : b ∈ l') : ∃ a ∈ l, f a = some b := by
  have hall := mapM_eq_some_iff.mp h
  induction hall with
  | nil => cases hb
  | @cons a b' l l' hab hrest ih =>
    rcases List.mem_cons.mp hb with rfl | hb
    · exact ⟨a, List.mem_cons_self, hab⟩
    · obtain ⟨a', ha', hfa'⟩ := ih (mapM_eq_some_iff.mpr hrest) hb
      exact ⟨a', List.mem_cons_of_mem _ ha', hfa'⟩

/-- What is left of a list stays in its place where nothing is left behind a gap. -/
theorem filterMap_places_iff {f : α → Option β} {l : List α} :
    (∀ (i : ℕ) (b : β), (l.filterMap f)[i]? = some b → (l[i]?).bind f = some b) ↔
      l.Pairwise fun x y => (f y).isSome → (f x).isSome := by
  induction l with
  | nil => simp
  | cons a l ih =>
    rw [List.pairwise_cons]
    cases ha : f a with
    | some first =>
      rw [List.filterMap_cons_some ha]
      constructor
      · intro h
        exact ⟨fun _ _ _ => rfl, ih.mp fun i b hb => h (i + 1) b hb⟩
      · rintro ⟨-, hl⟩ (_ | i) b hb
        · rw [← hb]
          exact ha
        · exact ih.mpr hl i b hb
    | none =>
      rw [List.filterMap_cons_none ha]
      have hgap : (∀ (i : ℕ) (b : β), (l.filterMap f)[i]? = some b → ((a :: l)[i]?).bind f = some b) ↔
          ∀ y ∈ l, f y = none := by
        constructor
        · intro h
          rw [← List.filterMap_eq_nil_iff]
          by_contra hne
          obtain ⟨b, rest, hb⟩ := List.exists_cons_of_ne_nil hne
          have hfirst := h 0 b (by rw [hb]; rfl)
          rw [List.getElem?_cons_zero, Option.bind_some, ha] at hfirst
          cases hfirst
        · intro h i b hb
          rw [List.filterMap_eq_nil_iff.mpr h] at hb
          cases hb
      rw [hgap]
      constructor
      · intro h
        have hnone : ∀ y ∈ l, ¬ (f y).isSome := fun y hy => by rw [h y hy]; exact Bool.false_ne_true
        exact ⟨fun y hy hsome => absurd hsome (hnone y hy),
          List.pairwise_of_forall_mem_list fun x _ y hy hsome => absurd hsome (hnone y hy)⟩
      · rintro ⟨h, -⟩ y hy
        by_contra hy'
        exact Bool.false_ne_true (h y hy (Option.isSome_iff_ne_none.mpr hy'))

theorem flatMap_eq_of_forall₂ {f : α → List γ} {g : β → List γ} {l : List α} {l' : List β}
    {R : α → β → Prop} (h : List.Forall₂ R l l') (heq : ∀ a ∈ l, ∀ b, R a b → f a = g b) :
    l.flatMap f = l'.flatMap g := by
  induction h with
  | nil => rfl
  | cons hab hrest ih =>
    rw [List.flatMap_cons, List.flatMap_cons, heq _ List.mem_cons_self _ hab,
      ih fun a ha b => heq a (List.mem_cons_of_mem _ ha) b]

/-- Texts that are read one after another: each tells its own part. -/
theorem flatMap_tell {f : α → List γ} {g : β → List γ} {P : α → Prop} {R : α → β → Prop} {l : List α}
    {l' : List β} (h : List.Forall₂ R l l')
    (htell : ∀ a ∈ l, ∀ b, R a b → ∀ rest rest', f a ++ rest = g b ++ rest' → P a ∧ rest = rest')
    {rest rest' : List γ} (heq : l.flatMap f ++ rest = l'.flatMap g ++ rest') : (∀ a ∈ l, P a) ∧ rest = rest' := by
  induction h with
  | nil => exact ⟨fun a ha => absurd ha List.not_mem_nil, heq⟩
  | cons hab hrest ih =>
    rw [List.flatMap_cons, List.flatMap_cons, List.append_assoc, List.append_assoc] at heq
    obtain ⟨hfirst, heq⟩ := htell _ List.mem_cons_self _ hab _ _ heq
    obtain ⟨hothers, hend⟩ := ih (fun a ha => htell a (List.mem_cons_of_mem _ ha)) heq
    exact ⟨List.forall_mem_cons.mpr ⟨hfirst, hothers⟩, hend⟩

theorem mem_intercalate {sep : List α} {pieces : List (List α)} {a : α} (h : a ∈ sep.intercalate pieces) :
    a ∈ sep ∨ ∃ piece ∈ pieces, a ∈ piece := by
  induction pieces with
  | nil => exact absurd h (by simp [List.intercalate])
  | cons piece pieces ih =>
    cases pieces with
    | nil =>
      rw [List.intercalate_singleton] at h
      exact .inr ⟨piece, List.mem_cons_self, h⟩
    | cons next pieces =>
      rw [List.intercalate_cons_cons, List.mem_append, List.mem_append] at h
      rcases h with (h | h) | h
      · exact .inr ⟨piece, List.mem_cons_self, h⟩
      · exact .inl h
      · rcases ih h with hsep | ⟨other, hother, hmem⟩
        · exact .inl hsep
        · exact .inr ⟨other, List.mem_cons_of_mem piece hother, hmem⟩

end JavaAnalyzer.ElementWise
