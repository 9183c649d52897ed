import Mathlib.Data.Nat.Basic
import Mathlib.Order.Basic
import Mathlib.Data.List.Basic

/-! # Trees of spans

Each node of a syntax tree stands over a stretch of a text. Where the children of a node lie in it, one behind the other, a
walk over the tree meets the nodes in the order of their starts, and a walk that stays out of what lies outside of a range
meets the nodes that the range touches. -/

namespace JavaAnalyzer.SpanWalk
set_option autoImplicit false

inductive SpanTree (α : Type) where
  | node (label : α) (start stop : ℕ) (children : List (SpanTree α))

namespace SpanTree

variable {α : Type}

def label : SpanTree α → α
  | node label _ _ _ => label

def start : SpanTree α → ℕ
  | node _ start _ _ => start

def stop : SpanTree α → ℕ
  | node _ _ stop _ => stop

def children : SpanTree α → List (SpanTree α)
  | node _ _ _ children => children

theorem inductOn {P : SpanTree α → Prop} (t : SpanTree α)
    (node : ∀ label start stop children, (∀ child ∈ children, P child) → P (.node label start stop children)) : P t :=
  @SpanTree.rec α P (fun children => ∀ child ∈ children, P child) node
    (fun _ hchild => absurd hchild List.not_mem_nil)
    (fun _ _ hchild hrest => List.forall_mem_cons.mpr ⟨hchild, hrest⟩) t

/-- The nodes lie between the two ends, one behind the other. -/
def InOrder (start stop : ℕ) : List (SpanTree α) → Prop
  | [] => start ≤ stop
  | child :: rest => start ≤ child.start ∧ child.start ≤ child.stop ∧ InOrder child.stop stop rest

inductive WellFormed : SpanTree α → Prop
  | node {label : α} {start stop : ℕ} {children : List (SpanTree α)} (horder : InOrder start stop children)
      (hchildren : ∀ child ∈ children, WellFormed child) : WellFormed (.node label start stop children)

mutual

/-- The nodes below a node, each before those below it. -/
def descendants : SpanTree α → List (SpanTree α)
  | node _ _ _ children => descendantsAll children

def descendantsAll : List (SpanTree α) → List (SpanTree α)
  | [] => []
  | child :: rest => child :: descendants child ++ descendantsAll rest

end

section Pruned

variable (outside : SpanTree α → Bool)

mutual

/-- The nodes that a walk meets which does not go into a node outside. -/
def met : SpanTree α → List (SpanTree α)
  | node _ _ _ children => metAll children

def metAll : List (SpanTree α) → List (SpanTree α)
  | [] => []
  | child :: rest => if outside child then metAll rest else child :: met child ++ metAll rest

end

end Pruned

/-! ## In the order of the starts -/

theorem InOrder.le {start stop : ℕ} {children : List (SpanTree α)} (h : InOrder start stop children) : start ≤ stop := by
  induction children generalizing start with
  | nil => exact h
  | cons child rest ih => exact h.1.trans (h.2.1.trans (ih h.2.2))

/-- The node lies between the two ends. -/
def Within (start stop : ℕ) (t : SpanTree α) : Prop :=
  start ≤ t.start ∧ t.start ≤ t.stop ∧ t.stop ≤ stop

theorem Within.wider {start stop start' stop' : ℕ} {t : SpanTree α} (h : Within start' stop' t) (hstart : start ≤ start')
    (hstop : stop' ≤ stop) : Within start stop t :=
  ⟨hstart.trans h.1, h.2.1, h.2.2.trans hstop⟩

theorem within_descendantsAll {start stop : ℕ} {children : List (SpanTree α)} (h : InOrder start stop children)
    (hchildren : ∀ child ∈ children, ∀ n ∈ child.descendants, Within child.start child.stop n) :
    ∀ n ∈ descendantsAll children, Within start stop n := by
  induction children generalizing start with
  | nil => exact fun n hn => absurd hn List.not_mem_nil
  | cons child rest ih =>
    obtain ⟨hstart, hspan, hrest⟩ := h
    have hstop := hrest.le
    intro n hn
    rcases List.mem_cons.mp hn with rfl | hn
    · exact ⟨hstart, hspan, hstop⟩
    · rcases List.mem_append.mp hn with hn | hn
      · exact (hchildren child List.mem_cons_self n hn).wider hstart hstop
      · have hafter := ih hrest fun other hother => hchildren other (List.mem_cons_of_mem _ hother)
        exact (hafter n hn).wider (hstart.trans hspan) le_rfl

theorem WellFormed.within {t : SpanTree α} (h : WellFormed t) : ∀ n ∈ t.descendants, Within t.start t.stop n := by
  induction h with
  | node horder _ ih => exact within_descendantsAll horder ih

theorem sorted_descendantsAll {start stop : ℕ} {children : List (SpanTree α)} (h : InOrder start stop children)
    (hwithin : ∀ child ∈ children, ∀ n ∈ child.descendants, Within child.start child.stop n)
    (hsorted : ∀ child ∈ children, child.descendants.Pairwise fun n m => n.start ≤ m.start) :
    (descendantsAll children).Pairwise fun n m => n.start ≤ m.start := by
  induction children generalizing start with
  | nil => exact .nil
  | cons child rest ih =>
    obtain ⟨hstart, hspan, hrest⟩ := h
    have hwithin' := fun other hother => hwithin other (List.mem_cons_of_mem _ hother)
    have hafter := within_descendantsAll hrest hwithin'
    have hbelow := hwithin child List.mem_cons_self
    have hlater := ih hrest hwithin' fun other hother => hsorted other (List.mem_cons_of_mem _ hother)
    rw [descendantsAll, List.cons_append, List.pairwise_cons, List.pairwise_append]
    refine ⟨fun n hn => ?_, hsorted child List.mem_cons_self, hlater, fun n hn m hm => ?_⟩
    · rcases List.mem_append.mp hn with hn | hn
      · exact (hbelow n hn).1
      · exact hspan.trans (hafter n hn).1
    · exact (hbelow n hn).2.1.trans ((hbelow n hn).2.2.trans (hafter m hm).1)

theorem WellFormed.sorted {t : SpanTree α} (h : WellFormed t) : t.descendants.Pairwise fun n m => n.start ≤ m.start := by
  induction h with
  | node horder hchildren ih => exact sorted_descendantsAll horder (fun child hchild => (hchildren child hchild).within) ih

theorem WellFormed.of_mem_descendants {t : SpanTree α} (h : WellFormed t) : ∀ n ∈ t.descendants, WellFormed n := by
  induction h with
  | @node _ _ _ children _ hchildren ih =>
    have hall : ∀ others : List (SpanTree α), (∀ child ∈ others, child.WellFormed) →
        (∀ child ∈ others, ∀ n ∈ child.descendants, n.WellFormed) → ∀ n ∈ descendantsAll others, n.WellFormed := by
      intro others hothers hbelow
      induction others with
      | nil => exact fun n hn => absurd hn List.not_mem_nil
      | cons child rest ihrest =>
        obtain ⟨hchild, hrest⟩ := List.forall_mem_cons.mp hothers
        obtain ⟨hfirst, hothers⟩ := List.forall_mem_cons.mp hbelow
        intro n hn
        rcases List.mem_cons.mp hn with rfl | hn
        · exact hchild
        · exact (List.mem_append.mp hn).elim (hfirst n) (ihrest hrest hothers n)
    exact hall children hchildren ih

/-! ## Pruned walks -/

/-- Below a node outside everything is outside. -/
def Hereditary (outside : SpanTree α → Bool) (t : SpanTree α) : Prop :=
  outside t = true → ∀ n ∈ t.descendants, outside n = true

theorem metAll_eq {outside : SpanTree α → Bool} {children : List (SpanTree α)}
    (hmet : ∀ child ∈ children, met outside child = child.descendants.filter fun n => !outside n)
    (hhereditary : ∀ child ∈ children, Hereditary outside child) :
    metAll outside children = (descendantsAll children).filter fun n => !outside n := by
  induction children with
  | nil => rfl
  | cons child rest ih =>
    obtain ⟨hfirst, hmet⟩ := List.forall_mem_cons.mp hmet
    obtain ⟨hchild, hhereditary⟩ := List.forall_mem_cons.mp hhereditary
    rw [metAll, descendantsAll, List.filter_append, ← ih hmet hhereditary]
    cases houtside : outside child with
    | true =>
      have hnone : (child :: child.descendants).filter (fun n => !outside n) = [] := by
        rw [List.filter_eq_nil_iff, List.forall_mem_cons]
        simpa [houtside] using hchild houtside
      rw [if_pos rfl, hnone, List.nil_append]
    | false => rw [if_neg Bool.false_ne_true, List.filter_cons_of_pos (by rw [houtside]; rfl), hfirst]

/-- A walk that stays out of what is outside meets the other nodes. -/
theorem met_eq {outside : SpanTree α → Bool} (t : SpanTree α) (h : ∀ n ∈ t.descendants, Hereditary outside n) :
    met outside t = t.descendants.filter fun n => !outside n := by
  induction t using inductOn with
  | node label start stop children ih =>
    have hmem : ∀ {others : List (SpanTree α)} {child n : SpanTree α}, child ∈ others →
        (n = child ∨ n ∈ child.descendants) → n ∈ descendantsAll others := by
      intro others child n hchild hn
      induction others with
      | nil => exact absurd hchild List.not_mem_nil
      | cons other rest ihrest =>
        rcases List.mem_cons.mp hchild with rfl | hchild
        · rcases hn with rfl | hn
          · exact List.mem_cons_self
          · exact List.mem_cons_of_mem _ (List.mem_append_left _ hn)
        · exact List.mem_cons_of_mem _ (List.mem_append_right _ (ihrest hchild))
    refine metAll_eq (fun child hchild => ?_) fun child hchild => h child (hmem hchild (.inl rfl))
    exact ih child hchild fun n hn => h n (hmem hchild (.inr hn))

end SpanTree

end JavaAnalyzer.SpanWalk
