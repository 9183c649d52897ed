import JavaAnalyzer.Library.Dedup

/-! # Shadowing along a list of owners

Owners stand in lookup order and each declares members. A pass keeps the first member of every
shadow key, and independently the owner of a signature is the first owner that declares one.
`kept_iff` says when the two agree: no signature is kept twice, and every kept member belongs to the
first owner of its signature. -/

namespace JavaAnalyzer.Shadowing
set_option autoImplicit false
open Dedup

variable {γ μ κ σ : Type} [DecidableEq κ] [DecidableEq σ]
  (members : γ → List μ) (key : μ → κ) (sig : μ → σ)

/-- The members along the owners, each with its owner. -/
def declared (owners : List γ) : List (γ × μ) :=
  owners.flatMap fun g => (members g).map (g, ·)

def kept (owners : List γ) : List (γ × μ) :=
  dedupBy (fun p => key p.2) [] (declared members owners)

def firstOwner (owners : List γ) (s : σ) : Option γ :=
  owners.find? fun g => (members g).any fun m => sig m = s

variable {members key sig} {owners : List γ}

theorem mem_declared {p : γ × μ} :
    p ∈ declared members owners ↔ p.1 ∈ owners ∧ p.2 ∈ members p.1 := by
  simp only [declared, List.mem_flatMap, List.mem_map]
  constructor
  · rintro ⟨g, hg, m, hm, rfl⟩
    exact ⟨hg, hm⟩
  · rintro ⟨hg, hm⟩
    exact ⟨p.1, hg, p.2, hm, rfl⟩

theorem declared_append (as bs : List γ) :
    declared members (as ++ bs) = declared members as ++ declared members bs :=
  List.flatMap_append ..

theorem split_after {α : Type} {l l' pre rest : List α} {x : α} (h : l ++ l' = pre ++ x :: rest)
    (hx : x ∉ l) : ∃ pre', pre = l ++ pre' ∧ l' = pre' ++ x :: rest := by
  rcases List.append_eq_append_iff.mp h with ⟨pre', hpre, hl'⟩ | ⟨rest', hl, hrest⟩
  · exact ⟨pre', hpre, hl'⟩
  · cases rest' with
    | nil => exact ⟨[], by simpa using hl.symm, by simpa using hrest.symm⟩
    | cons z rest' =>
      obtain ⟨rfl, -⟩ := List.cons.inj hrest
      exact absurd (by simp [hl]) hx

/-- A place in a concatenation lies in one of the blocks. -/
theorem flatMap_split {α β : Type} {f : α → List β} {l : List α} {pre post : List β} {t : β}
    (h : l.flatMap f = pre ++ t :: post) :
    ∃ before a after p q, l = before ++ a :: after ∧ f a = p ++ t :: q ∧
      pre = before.flatMap f ++ p := by
  induction l generalizing pre with
  | nil => simp at h
  | cons a l ih =>
    rw [List.flatMap_cons] at h
    rcases List.append_eq_append_iff.mp h with ⟨pre', rfl, hl⟩ | ⟨rest, ha, hrest⟩
    · obtain ⟨before, b, after, p, q, rfl, hb, rfl⟩ := ih hl
      exact ⟨a :: before, b, after, p, q, rfl, hb, by simp⟩
    · cases rest with
      | nil =>
        have hl : l.flatMap f = [] ++ t :: post := hrest.symm
        obtain ⟨before, b, after, p, q, rfl, hb, hp⟩ := ih hl
        refine ⟨a :: before, b, after, p, q, rfl, hb, ?_⟩
        rw [List.flatMap_cons, List.append_assoc, ← hp, ha, List.append_nil, List.append_nil]
      | cons z rest =>
        obtain ⟨rfl, -⟩ := List.cons.inj hrest
        exact ⟨[], a, l, pre, rest, rfl, ha, rfl⟩

theorem firstOwner_eq_some_iff {s : σ} {g : γ} : firstOwner members sig owners s = some g ↔
    (∃ m ∈ members g, sig m = s) ∧ ∃ as bs, owners = as ++ g :: bs ∧
      ∀ a ∈ as, ∀ m ∈ members a, sig m ≠ s := by
  rw [firstOwner, List.find?_eq_some_iff_append]
  simp

/-- A member before a kept one, with the signature of the kept one, has the same owner. -/
theorem owner_eq_of_firstOwner (hnodup : owners.Nodup) {pre rest : List (γ × μ)} {x y : γ × μ}
    (hsplit : declared members owners = pre ++ x :: rest) (hy : y ∈ rest)
    (hsig : sig x.2 = sig y.2) (howner : firstOwner members sig owners (sig y.2) = some y.1) :
    x.1 = y.1 := by
  obtain ⟨-, as, bs, rfl, has⟩ := firstOwner_eq_some_iff.mp howner
  have hx : x ∈ declared members (as ++ y.1 :: bs) := by simp [hsplit]
  obtain ⟨hxmem, hxm⟩ := mem_declared.mp hx
  have hnot : x.1 ∉ as := fun hmem => has x.1 hmem x.2 hxm hsig
  by_contra hne
  have hsplit' : declared members (as ++ [y.1]) ++ declared members bs = pre ++ x :: rest := by
    rw [← hsplit, ← declared_append, List.append_assoc, List.singleton_append]
  have hxnot : x ∉ declared members (as ++ [y.1]) := by
    rw [mem_declared]
    rintro ⟨hmem, -⟩
    rcases List.mem_append.mp hmem with hmem | hmem
    · exact hnot hmem
    · exact hne (List.mem_singleton.mp hmem)
  obtain ⟨pre', -, hbs⟩ := split_after hsplit' hxnot
  have hybs : y.1 ∈ bs := (mem_declared.mp (hbs ▸ by simp [hy] : y ∈ declared members bs)).1
  exact (List.nodup_cons.mp (List.nodup_append.mp hnodup).2.1).1 hybs

/-- What makes the pass and the owner lookup disagree: a member that repeats an earlier signature and
is kept, unless the earlier one is hidden and of the same owner. -/
def Consistent (members : γ → List μ) (key : μ → κ) (sig : μ → σ) (owners : List γ) : Prop :=
  ∀ pre x mid y post, declared members owners = pre ++ x :: (mid ++ y :: post) →
    sig x.2 = sig y.2 → key y.2 ∉ (pre ++ x :: mid).map (fun p => key p.2) →
    x.1 = y.1 ∧ key x.2 ∈ pre.map fun p => key p.2

theorem kept_iff (hnodup : owners.Nodup) :
    (((kept members key owners).map fun p => sig p.2).Nodup ∧
      ∀ p ∈ kept members key owners, firstOwner members sig owners (sig p.2) = some p.1) ↔
    Consistent members key sig owners := by
  constructor
  · rintro ⟨hdistinct, howner⟩ pre x mid y post hsplit hsig hnew
    have hykept : y ∈ kept members key owners := mem_dedupBy.mpr
      ⟨by simp, pre ++ x :: mid, post, by simp [hsplit], hnew⟩
    refine ⟨owner_eq_of_firstOwner hnodup hsplit (by simp) hsig (howner y hykept), ?_⟩
    by_contra hxnew
    have hpair : [x, y].Sublist (kept members key owners) := pair_sublist_dedupBy.mpr
      ⟨pre, mid, post, hsplit, by simp, by simp, hxnew, hnew⟩
    have htwo := hdistinct.sublist (hpair.map fun p => sig p.2)
    simp [hsig] at htwo
  · intro hcon
    refine ⟨List.nodup_iff_sublist.mpr fun s hs => ?_, fun y hy => ?_⟩
    · obtain ⟨pair, hpair, hmap⟩ := List.sublist_map_iff.mp hs
      obtain ⟨x, y, rfl⟩ : ∃ x y, pair = [x, y] := by
        rcases pair with _ | ⟨x, _ | ⟨y, _ | ⟨z, pair⟩⟩⟩ <;> simp at hmap
        exact ⟨x, y, rfl⟩
      obtain ⟨pre, mid, post, hsplit, -, -, hxnew, hnew⟩ := pair_sublist_dedupBy.mp hpair
      simp only [List.map_cons, List.map_nil, List.cons.injEq, and_true] at hmap
      exact hxnew (hcon pre x mid y post hsplit (hmap.1.symm.trans hmap.2) hnew).2
    · obtain ⟨-, pre, post, hsplit, hnew⟩ := mem_dedupBy.mp hy
      obtain ⟨hmem, hym⟩ := mem_declared.mp (show y ∈ declared members owners by simp [hsplit])
      obtain ⟨as, bs, rfl⟩ := List.append_of_mem hmem
      refine firstOwner_eq_some_iff.mpr ⟨⟨y.2, hym, rfl⟩, as, bs, rfl, fun a ha m hm hsig => ?_⟩
      have hnot : y.1 ∉ as := fun hmem' =>
        (List.nodup_append.mp hnodup).2.2 y.1 hmem' y.1 (by simp) rfl
      rw [declared_append] at hsplit
      obtain ⟨pre', rfl, -⟩ := split_after hsplit fun hmem' => hnot (mem_declared.mp hmem').1
      obtain ⟨p, q, hpq⟩ := List.append_of_mem
        (mem_declared.mpr ⟨ha, hm⟩ : (a, m) ∈ declared members as)
      have hsplit' : declared members (as ++ y.1 :: bs) = p ++ (a, m) :: ((q ++ pre') ++ y :: post) := by
        rw [declared_append, hsplit, hpq]
        simp
      have hown := (hcon p (a, m) (q ++ pre') y post hsplit' hsig (by
        rw [hpq] at hnew
        simpa using hnew)).1
      exact hnot (hown ▸ ha)

end JavaAnalyzer.Shadowing
