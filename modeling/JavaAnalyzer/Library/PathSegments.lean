import JavaAnalyzer.Library.ElementWise
import JavaAnalyzer.Library.TextTrim

/-! # Paths of segments

Texts that are joined by a separator none of them has. The segments are read back from the path (`splitOn_path`), and
another separator in the place of the first gives the path that this one makes (`translate_path`). -/

namespace JavaAnalyzer.PathSegments
set_option autoImplicit false
open Text

variable {sep : String} {c : Char} {segments segments' : List String}

theorem splitOn_path (hsep : sep.toList = [c]) (hfree : ∀ s ∈ segments, c ∉ s.toList) (hne : segments ≠ []) :
    (sep.intercalate segments).toList.splitOn c = segments.map String.toList := by
  rw [String.toList_intercalate, hsep]
  refine List.splitOn_intercalate c (fun l hl => ?_) (by simpa using hne)
  obtain ⟨s, hs, rfl⟩ := List.mem_map.mp hl
  exact hfree s hs

theorem path_inj (hsep : sep.toList = [c]) (hfree : ∀ s ∈ segments, c ∉ s.toList)
    (hfree' : ∀ s ∈ segments', c ∉ s.toList) (hne : segments ≠ []) (hne' : segments' ≠ [])
    (h : sep.intercalate segments = sep.intercalate segments') : segments = segments' := by
  have hsplit := splitOn_path hsep hfree hne
  rw [h, splitOn_path hsep hfree' hne'] at hsplit
  exact (List.map_injective_iff.mpr fun _ _ => String.toList_inj.mp) hsplit.symm

/-- A text is the path of the segments it is split into. -/
theorem path_splitOn (hsep : sep.toList = [c]) (s : String) :
    sep.intercalate ((s.toList.splitOn c).map String.ofList) = s := by
  apply String.toList_inj.mp
  rw [String.toList_intercalate, hsep, List.map_map]
  have hid : String.toList ∘ String.ofList = id := funext fun l => String.toList_ofList
  rw [hid, List.map_id, List.intercalate_splitOn]

theorem not_mem_splitOn {l segment : List Char} (h : segment ∈ l.splitOn c) : c ∉ segment := by
  induction l generalizing segment with
  | nil =>
    rw [List.splitOn_nil, List.mem_singleton] at h
    exact h ▸ List.not_mem_nil
  | cons x l ih =>
    rw [List.splitOn_cons_eq_if_modifyHead] at h
    split at h
    · rcases List.mem_cons.mp h with rfl | h
      · exact List.not_mem_nil
      · exact ih h
    · rename_i hx
      cases hsplit : l.splitOn c with
      | nil =>
        rw [hsplit] at h
        cases h
      | cons first rest =>
        rw [hsplit] at h ih
        rcases List.mem_cons.mp h with rfl | h
        · rw [List.mem_cons, not_or]
          exact ⟨fun heq => hx (by simp [heq]), ih List.mem_cons_self⟩
        · exact ih (List.mem_cons_of_mem _ h)

theorem map_intercalate (f : Char → Char) (between : List Char) (pieces : List (List Char)) :
    (between.intercalate pieces).map f = (between.map f).intercalate (pieces.map (List.map f)) := by
  induction pieces with
  | nil => rfl
  | cons piece pieces ih =>
    cases pieces with
    | nil => rw [List.intercalate_singleton, List.map_singleton, List.intercalate_singleton]
    | cons next pieces =>
      rw [List.intercalate_cons_cons, List.map_append, List.map_append, ih]
      exact List.intercalate_cons_cons.symm

/-- Characters that change nothing but the separator change the separator of the path. -/
theorem translate_path {sep' : String} {f : Char → Char} (hsep : sep.toList.map f = sep'.toList)
    (hfixed : ∀ s ∈ segments, ∀ x ∈ s.toList, f x = x) :
    String.ofList ((sep.intercalate segments).toList.map f) = sep'.intercalate segments := by
  apply String.toList_inj.mp
  rw [String.toList_ofList, String.toList_intercalate, String.toList_intercalate, map_intercalate, hsep, List.map_map]
  congr 1
  refine List.map_congr_left fun s hs => ?_
  exact (List.map_congr_left (hfixed s hs)).trans (List.map_id _)

theorem solid_path (hsolid : ∀ s ∈ segments, Solid s.toList) (hne : segments ≠ []) :
    Solid (sep.intercalate segments).toList := by
  induction segments with
  | nil => exact absurd rfl hne
  | cons s segments ih =>
    have hs := hsolid s List.mem_cons_self
    cases segments with
    | nil => rwa [String.intercalate_singleton]
    | cons next segments =>
      have hrest := ih (fun t ht => hsolid t (List.mem_cons_of_mem s ht)) (List.cons_ne_nil next segments)
      rw [String.intercalate_cons_cons, String.toList_append, String.toList_append]
      exact hs.append sep.toList hrest

theorem mem_path {x : Char} (h : x ∈ (sep.intercalate segments).toList) :
    x ∈ sep.toList ∨ ∃ s ∈ segments, x ∈ s.toList := by
  rw [String.toList_intercalate] at h
  rcases ElementWise.mem_intercalate h with hsep | ⟨piece, hpiece, hx⟩
  · exact .inl hsep
  · obtain ⟨s, hs, rfl⟩ := List.mem_map.mp hpiece
    exact .inr ⟨s, hs, hx⟩

end JavaAnalyzer.PathSegments
