import JavaAnalyzer.Language.SourceTypes
import JavaAnalyzer.Library.TextTrim

/-! # How type texts are cut

What the cutting functions of `Language.SourceTypes` leave of a text: modifiers are gone from all its
prefixes, dimensions from its end, a piece is not cut again, and each part is shorter than the whole. -/

namespace JavaAnalyzer.Language
set_option autoImplicit false
open Text TextLines

/-! ## Modifiers -/

/-- Nothing is left to strip at the front. -/
def Bare (s : List Char) : Prop :=
  trimStart s = s ∧ ¬ "final ".toList <+: s ∧ (s.head? = some '@' → ' ' ∉ s)

theorem Bare.of_front {s p : List Char} (h : Bare s) (hp : p <+: s) : Bare p := by
  obtain ⟨hstart, hfinal, hat⟩ := h
  refine ⟨trimStart_of_front hstart hp, fun hpre => hfinal (hpre.trans hp), fun hhead hblank => ?_⟩
  obtain ⟨rest, rfl⟩ := hp
  cases p with
  | nil => exact absurd hhead (by simp)
  | cons c p => exact hat hhead (List.mem_append_left rest hblank)

theorem stripModifiersFuel_of_bare (n : ℕ) {s : List Char} (h : Bare s) : stripModifiersFuel n s = s := by
  obtain ⟨hstart, hfinal, hat⟩ := h
  cases n with
  | zero => rfl
  | succ n =>
    rw [stripModifiersFuel, hstart, if_neg (by rwa [ List.isPrefixOf_iff_prefix])]
    split
    · rename_i hhead
      rw [splitOnce_eq_none.mpr (hat hhead)]
    · rfl

theorem bare_stripModifiersFuel {n : ℕ} {s : List Char} (h : s.length ≤ n) : Bare (stripModifiersFuel n s) := by
  induction n generalizing s with
  | zero =>
    obtain rfl := List.length_eq_zero_iff.mp (Nat.le_zero.mp h)
    exact ⟨rfl, by simp [stripModifiersFuel], fun hhead => absurd hhead (by simp [stripModifiersFuel])⟩
  | succ n ih =>
    have hlen : (trimStart s).length ≤ n + 1 := (trimStart_suffix s).length_le.trans h
    rw [stripModifiersFuel]
    split
    · refine ih ?_
      rw [List.length_drop, show "final ".length = 6 from rfl]
      omega
    · rename_i hfinal
      have hbare : ((trimStart s).head? = some '@' → ' ' ∉ trimStart s) → Bare (trimStart s) := fun hat =>
        ⟨trimStart_trimStart s, by rwa [← List.isPrefixOf_iff_prefix], hat⟩
      split
      · split
        · rename_i front rest hsplit
          refine ih ?_
          have hparts := congrArg List.length (splitOnce_eq hsplit).1
          rw [List.length_append, List.length_cons] at hparts
          omega
        · rename_i hnone
          exact hbare fun _ => splitOnce_eq_none.mp hnone
      · rename_i hhead
        exact hbare fun hat => absurd hat hhead

theorem stripModifiersFuel_length_le (n : ℕ) (s : List Char) : (stripModifiersFuel n s).length ≤ s.length := by
  induction n generalizing s with
  | zero => exact le_rfl
  | succ n ih =>
    have hlen := (trimStart_suffix s).length_le
    rw [stripModifiersFuel]
    split
    · refine (ih _).trans ?_
      rw [List.length_drop]
      omega
    · split
      · split
        · rename_i front rest hsplit
          have hparts := congrArg List.length (splitOnce_eq hsplit).1
          rw [List.length_append, List.length_cons] at hparts
          exact (ih rest).trans (by omega)
        · exact hlen
      · exact hlen

theorem bare_strip (s : List Char) : Bare (stripLeadingJavaTypeModifiers s) := by
  have h := bare_stripModifiersFuel (le_refl s.length)
  exact h.of_front (trim_front h.1)

theorem trim_strip (s : List Char) : trim (stripLeadingJavaTypeModifiers s) = stripLeadingJavaTypeModifiers s :=
  trim_trim _

theorem strip_of_bare {s : List Char} (h : Bare s) (htrim : trim s = s) :
    stripLeadingJavaTypeModifiers s = s := by
  rw [stripLeadingJavaTypeModifiers, stripModifiersFuel_of_bare _ h, htrim]

theorem strip_length_le (s : List Char) : (stripLeadingJavaTypeModifiers s).length ≤ s.length :=
  (trim_length_le _).trans (stripModifiersFuel_length_le _ s)

/-! ## Dimensions -/

theorem stripSuffix_eq_some {suffix s t : List Char} (h : stripSuffix suffix s = some t) : s = t ++ suffix := by
  rw [stripSuffix] at h
  split at h
  · rename_i hsuffix
    obtain ⟨front, rfl⟩ := List.isSuffixOf_iff_suffix.mp hsuffix
    rw [List.length_append, Nat.add_sub_cancel, List.take_left] at h
    rw [Option.some.inj h]
  · exact absurd h (by simp)

theorem stripDimensionsFuel_front (n : ℕ) {s : List Char} (h : trimStart s = s) :
    (stripDimensionsFuel n s).2 <+: s := by
  induction n generalizing s with
  | zero => exact List.prefix_rfl
  | succ n ih =>
    rw [stripDimensionsFuel]
    split
    · rename_i stripped hstripped
      have hfront : stripped <+: s := ⟨_, (stripSuffix_eq_some hstripped).symm⟩
      have hstart := trimStart_of_front h hfront
      have htrimmed := trim_front hstart
      exact (ih (trimStart_of_front hstart htrimmed)).trans (htrimmed.trans hfront)
    · exact List.prefix_rfl

theorem trim_stripDimensionsFuel (n : ℕ) {s : List Char} (h : trim s = s) :
    trim (stripDimensionsFuel n s).2 = (stripDimensionsFuel n s).2 := by
  induction n generalizing s with
  | zero => exact h
  | succ n ih =>
    rw [stripDimensionsFuel]
    split
    · exact ih (trim_trim _)
    · exact h

theorem stripDimensions_front {s : List Char} (h : trimStart s = s) : (stripDimensions s).2 <+: s :=
  stripDimensionsFuel_front _ h

theorem trim_stripDimensions {s : List Char} (h : trim s = s) :
    trim (stripDimensions s).2 = (stripDimensions s).2 :=
  trim_stripDimensionsFuel _ h

theorem stripDimensions_of_zero {s : List Char} (h : (stripDimensions s).1 = 0) : stripDimensions s = (0, s) := by
  rw [stripDimensions] at h ⊢
  generalize s.length = n at h ⊢
  cases n with
  | zero => rfl
  | succ n =>
    rw [stripDimensionsFuel] at h ⊢
    split at h
    · exact absurd h (Nat.succ_ne_zero _)
    · rfl

theorem stripDimensionsFuel_zero_of_length {n : ℕ} {s : List Char} (h : s.length ≤ n) :
    stripSuffix ['[', ']'] (stripDimensionsFuel n s).2 = none := by
  induction n generalizing s with
  | zero =>
    obtain rfl := List.length_eq_zero_iff.mp (Nat.le_zero.mp h)
    rfl
  | succ n ih =>
    rw [stripDimensionsFuel]
    split
    · rename_i stripped hstripped
      have hparts := congrArg List.length (stripSuffix_eq_some hstripped)
      rw [List.length_append] at hparts
      have htrim := trim_length_le stripped
      exact ih (by simp at hparts; omega)
    · rename_i hnone
      exact hnone

theorem stripDimensions_again (s : List Char) : (stripDimensions (stripDimensions s).2).1 = 0 := by
  have hnone := stripDimensionsFuel_zero_of_length (le_refl s.length)
  rw [stripDimensions]
  cases (stripDimensions s).2.length with
  | zero => rfl
  | succ n =>
    rw [stripDimensionsFuel]
    rw [stripDimensions, hnone]

/-! ## Pieces -/

section Pieces

variable {sep : Char}

theorem exists_splitTopLevel (sep : Char) (depth : ℤ) (s : List Char) :
    ∃ piece pieces, splitTopLevel sep depth s = piece :: pieces := by
  have hprepend : ∀ (c : Char) (pieces : List (List Char)), ∃ first rest, prepend c pieces = first :: rest := by
    intro c pieces
    cases pieces with
    | nil => exact ⟨_, _, rfl⟩
    | cons piece pieces => exact ⟨_, _, rfl⟩
  cases s with
  | nil => exact ⟨_, _, rfl⟩
  | cons c s =>
    rw [splitTopLevel]
    split_ifs
    · exact hprepend _ _
    · exact hprepend _ _
    · exact ⟨_, _, rfl⟩
    · exact hprepend _ _

/-- The separators are what the pieces lack. -/
theorem sum_splitTopLevel (sep : Char) (depth : ℤ) (s : List Char) :
    ((splitTopLevel sep depth s).map List.length).sum + (splitTopLevel sep depth s).length = s.length + 1 := by
  have hprepend : ∀ (c : Char) (depth : ℤ) (s : List Char),
      ((splitTopLevel sep depth s).map List.length).sum + (splitTopLevel sep depth s).length = s.length + 1 →
      ((prepend c (splitTopLevel sep depth s)).map List.length).sum +
        (prepend c (splitTopLevel sep depth s)).length = s.length + 1 + 1 := by
    intro c depth s ih
    obtain ⟨piece, pieces, hsplit⟩ := exists_splitTopLevel sep depth s
    rw [hsplit] at ih ⊢
    simp only [prepend, List.map_cons, List.sum_cons, List.length_cons] at ih ⊢
    omega
  induction s generalizing depth with
  | nil => rfl
  | cons c s ih =>
    rw [splitTopLevel, List.length_cons]
    split_ifs
    · exact hprepend c _ s (ih _)
    · exact hprepend c _ s (ih _)
    · rw [List.map_cons, List.sum_cons, List.length_cons, List.length_nil, Nat.zero_add, ← add_assoc, ih]
    · exact hprepend c _ s (ih _)

theorem length_add_of_mem_splitTopLevel {depth : ℤ} {s piece : List Char} (h : piece ∈ splitTopLevel sep depth s) :
    piece.length + (splitTopLevel sep depth s).length ≤ s.length + 1 := by
  rw [← sum_splitTopLevel sep depth s]
  exact Nat.add_le_add_right (List.le_sum_of_mem (List.mem_map_of_mem h)) _

/-- No separator of a text stands outside of its brackets. -/
def Uncut (sep : Char) (depth : ℤ) (s : List Char) : Prop :=
  splitTopLevel sep depth s = [s]

theorem uncut_nil (sep : Char) (depth : ℤ) : Uncut sep depth [] :=
  rfl

/-- The depth behind a character. -/
def depthBehind (c : Char) (depth : ℤ) : ℤ :=
  if c = '<' then depth + 1 else if c = '>' then depth - 1 else depth

theorem splitTopLevel_cons (sep : Char) (depth : ℤ) (c : Char) (s : List Char) :
    splitTopLevel sep depth (c :: s) =
      if c = sep ∧ depth = 0 ∧ c ≠ '<' ∧ c ≠ '>' then [] :: splitTopLevel sep depth s
      else prepend c (splitTopLevel sep (depthBehind c depth) s) := by
  rw [splitTopLevel, depthBehind]
  split_ifs <;> first | rfl | tauto

theorem prepend_eq_singleton {c : Char} {s : List Char} {depth : ℤ} :
    prepend c (splitTopLevel sep depth s) = [c :: s] ↔ Uncut sep depth s := by
  obtain ⟨piece, pieces, hsplit⟩ := exists_splitTopLevel sep depth s
  rw [Uncut, hsplit, prepend]
  simp

theorem uncut_cons {depth : ℤ} {c : Char} {s : List Char} :
    Uncut sep depth (c :: s) ↔
      ¬ (c = sep ∧ depth = 0 ∧ c ≠ '<' ∧ c ≠ '>') ∧ Uncut sep (depthBehind c depth) s := by
  rw [Uncut, splitTopLevel_cons]
  split_ifs with hcut
  · exact iff_of_false (by simp) fun h => h.1 hcut
  · rw [prepend_eq_singleton, and_iff_right hcut]

theorem Uncut.of_front {depth : ℤ} {s p : List Char} (h : Uncut sep depth s) (hp : p <+: s) :
    Uncut sep depth p := by
  induction p generalizing depth s with
  | nil => exact uncut_nil sep depth
  | cons c p ih =>
    obtain ⟨rest, rfl⟩ := hp
    obtain ⟨hsep, hrest⟩ := uncut_cons.mp h
    exact uncut_cons.mpr ⟨hsep, ih hrest ⟨rest, rfl⟩⟩

theorem uncut_of_mem {depth : ℤ} {s first : List Char} {others : List (List Char)}
    (h : splitTopLevel sep depth s = first :: others) :
    Uncut sep depth first ∧ ∀ piece ∈ others, Uncut sep 0 piece := by
  induction s generalizing depth first others with
  | nil =>
    obtain ⟨rfl, rfl⟩ := List.cons.inj h
    exact ⟨uncut_nil sep depth, fun piece hpiece => absurd hpiece (List.not_mem_nil)⟩
  | cons c s ih =>
    rw [splitTopLevel_cons] at h
    split_ifs at h with hcut
    · obtain ⟨rfl, rfl⟩ := List.cons.inj h
      obtain ⟨piece, pieces, hsplit⟩ := exists_splitTopLevel sep depth s
      obtain ⟨hpiece, hpieces⟩ := ih hsplit
      refine ⟨uncut_nil sep depth, fun other hother => ?_⟩
      rw [hsplit, List.mem_cons] at hother
      rcases hother with rfl | hother
      · exact hcut.2.1 ▸ hpiece
      · exact hpieces other hother
    · obtain ⟨piece, pieces, hsplit⟩ := exists_splitTopLevel sep (depthBehind c depth) s
      obtain ⟨hpiece, hpieces⟩ := ih hsplit
      rw [hsplit, prepend] at h
      obtain ⟨rfl, rfl⟩ := List.cons.inj h
      exact ⟨uncut_cons.mpr ⟨hcut, hpiece⟩, hpieces⟩

theorem uncut_trimStart {s : List Char} (h : Uncut sep 0 s) : Uncut sep 0 (trimStart s) := by
  induction s with
  | nil => exact h
  | cons c s ih =>
    rw [trimStart, List.dropWhile_cons]
    split_ifs with hblank
    · have hdepth : depthBehind c 0 = 0 := by
        have hopen : c ≠ '<' := fun heq => absurd (heq ▸ hblank) (by decide)
        have hclose : c ≠ '>' := fun heq => absurd (heq ▸ hblank) (by decide)
        rw [depthBehind, if_neg hopen, if_neg hclose]
      have hrest := (uncut_cons.mp h).2
      rw [hdepth] at hrest
      exact ih hrest
    · exact h

theorem uncut_trim {s : List Char} (h : Uncut sep 0 s) : Uncut sep 0 (trim s) :=
  (uncut_trimStart h).of_front (trimEnd_front _)

theorem splitTopLevel_first_front {depth : ℤ} {s first : List Char} {others : List (List Char)}
    (h : splitTopLevel sep depth s = first :: others) : first <+: s := by
  induction s generalizing depth first others with
  | nil =>
    obtain ⟨rfl, rfl⟩ := List.cons.inj h
    exact List.prefix_rfl
  | cons c s ih =>
    rw [splitTopLevel_cons] at h
    split_ifs at h
    · obtain ⟨rfl, rfl⟩ := List.cons.inj h
      exact List.nil_prefix
    · obtain ⟨piece, pieces, hsplit⟩ := exists_splitTopLevel sep (depthBehind c depth) s
      rw [hsplit, prepend] at h
      obtain ⟨rfl, rfl⟩ := List.cons.inj h
      exact (List.prefix_cons_inj c).mpr (ih hsplit)

end Pieces

end JavaAnalyzer.Language
