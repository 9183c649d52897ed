import Mathlib.Data.List.AList
import Mathlib.Tactic.SplitIfs

/-! # Batch updates of a finite map

Erasing and inserting the keys of a list, and what a lookup reads afterwards. -/

namespace JavaAnalyzer.FiniteMap
set_option autoImplicit false

variable {κ β : Type} [DecidableEq κ]

def eraseKeys (m : AList (fun _ : κ => β)) (ks : List κ) : AList (fun _ : κ => β) :=
  ks.foldl (fun m k => m.erase k) m

/-- Inserts the value of every listed key that has one. -/
def insertKeys (m : AList (fun _ : κ => β)) (ks : List κ) (value : κ → Option β) :
    AList (fun _ : κ => β) :=
  ks.foldl (fun m k => match value k with
    | none => m
    | some v => m.insert k v) m

theorem lookup_eraseKeys (m : AList (fun _ : κ => β)) (ks : List κ) (k : κ) :
    (eraseKeys m ks).lookup k = if k ∈ ks then none else m.lookup k := by
  induction ks generalizing m with
  | nil => rfl
  | cons k' ks ih =>
    rw [eraseKeys, List.foldl_cons]
    refine (ih (m.erase k')).trans ?_
    by_cases hk : k = k'
    · subst hk
      simp
    · simp [hk, AList.lookup_erase_ne hk]

theorem lookup_insertKeys (m : AList (fun _ : κ => β)) (ks : List κ) (value : κ → Option β) (k : κ) :
    (insertKeys m ks value).lookup k = if k ∈ ks then (value k).or (m.lookup k) else m.lookup k := by
  induction ks generalizing m with
  | nil => rfl
  | cons k' ks ih =>
    rw [insertKeys, List.foldl_cons]
    refine (ih _).trans ?_
    by_cases hk : k = k'
    · subst hk
      cases value k <;> simp
    · cases value k' <;> simp [hk, AList.lookup_insert_ne hk]

theorem mem_of_lookup_insertKeys {m : AList (fun _ : κ => β)} {ks : List κ}
    {value : κ → Option β} {k : κ} {v : β} (h : (insertKeys m ks value).lookup k = some v) :
    k ∈ ks ∨ m.lookup k = some v := by
  rw [lookup_insertKeys] at h
  split_ifs at h with hk
  · exact .inl hk
  · exact .inr h

/-- What is collected from a list of pairs is on the list. -/
theorem mem_of_lookup_foldl_insert {entries : List (κ × β)} {m : AList (fun _ : κ => β)} {k : κ}
    {v : β} (h : (entries.foldl (fun m e => m.insert e.1 e.2) m).lookup k = some v) :
    (k, v) ∈ entries ∨ m.lookup k = some v := by
  induction entries generalizing m with
  | nil => exact .inr h
  | cons e entries ih =>
    rcases ih h with hmem | hm
    · exact .inl (List.mem_cons_of_mem _ hmem)
    · by_cases hk : k = e.1
      · subst hk
        rw [AList.lookup_insert] at hm
        exact .inl (List.mem_cons.mpr (.inl (Prod.ext rfl (Option.some.inj hm).symm)))
      · exact .inr (by rwa [AList.lookup_insert_ne hk] at hm)

end JavaAnalyzer.FiniteMap
