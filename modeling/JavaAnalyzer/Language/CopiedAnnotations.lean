import JavaAnalyzer.Library.Glob

/-! # Patterns of copied annotations

`matches_pattern` of `language/java/lombok/utils.rs`, which tells from the patterns of the setting
`lombok.copyableAnnotations` which annotations are copied. The position in the text is the text behind it. -/

namespace JavaAnalyzer.Language.Lombok
set_option autoImplicit false
open Glob

/-- The loop over the parts, from the one at `i`, on the text behind the parts before it. -/
def matchParts (count : ℕ) : ℕ → List (List Char) → List Char → Bool
  | _, [], _ => true
  | i, part :: parts, text =>
    if part.isEmpty then matchParts count (i + 1) parts text
    else if i = 0 then
      if part.isPrefixOf text then matchParts count (i + 1) parts (text.drop part.length) else false
    else if i = count - 1 then part.isSuffixOf text
    else
      match behindFirst part text with
      | some behind => matchParts count (i + 1) parts behind
      | none => false

def matchesPattern (text pattern : List Char) : Bool :=
  if '*' ∉ pattern then text == pattern
  else
    match pattern.splitOn '*' with
    | [front, back] => front.isPrefixOf text && back.isSuffixOf text
    | parts => matchParts parts.length 0 parts text

/-! ## Two stars or more -/

section Parts

variable {parts : List (List Char)} {text : List Char}

/-- Behind a star the parts are found when they fill it. On the parts: those before the last are looked for from left
to right, and an empty part joins two stars. -/
theorem matchParts_behind {count i : ℕ} (hi : 0 < i) (hcount : i + parts.length = count) (hne : parts ≠ [])
    (hfree : ∀ part ∈ parts, '*' ∉ part) :
    matchParts count i parts text = true ↔ Fills '*' ('*' :: ['*'].intercalate parts) text := by
  induction parts generalizing i text with
  | nil => exact absurd rfl hne
  | cons part parts ih =>
    obtain ⟨hpart, hparts⟩ := List.forall_mem_cons.mp hfree
    rw [List.length_cons] at hcount
    rw [matchParts, if_neg (Nat.ne_of_gt hi)]
    cases parts with
    | nil =>
      rw [List.intercalate_singleton, fills_suffix_iff hpart, if_pos (show i = count - 1 by simp at hcount; omega)]
      cases part with
      | nil => exact iff_of_true rfl (List.nil_suffix)
      | cons c part => exact List.isSuffixOf_iff_suffix
    | cons second parts =>
      have hlast : i ≠ count - 1 := by
        rw [List.length_cons] at hcount
        omega
      have hrest : ∀ behind : List Char, matchParts count (i + 1) (second :: parts) behind = true ↔
          Fills '*' ('*' :: ['*'].intercalate (second :: parts)) behind := fun behind =>
        ih (Nat.succ_pos i) (by omega) (List.cons_ne_nil _ _) hparts
      rw [if_neg hlast, List.intercalate_cons_cons, List.append_assoc, List.singleton_append]
      cases part with
      | nil => rw [List.isEmpty_nil, if_pos rfl, hrest, List.nil_append, fills_star_star_iff]
      | cons c part =>
        rw [List.isEmpty_cons, if_neg Bool.false_ne_true, fills_first_iff hpart]
        cases behindFirst (c :: part) text with
        | none => exact iff_of_false Bool.false_ne_true nofun
        | some behind => simp only [hrest, Option.some.injEq, exists_eq_left']

theorem matchParts_iff (hlength : 1 < parts.length) (hfree : ∀ part ∈ parts, '*' ∉ part) :
    matchParts parts.length 0 parts text = true ↔ Fills '*' (['*'].intercalate parts) text := by
  obtain ⟨front, second, parts, rfl⟩ : ∃ front second rest, parts = front :: second :: rest := by
    match parts, hlength with
    | front :: second :: rest, _ => exact ⟨front, second, rest, rfl⟩
  obtain ⟨hfront, hparts⟩ := List.forall_mem_cons.mp hfree
  have hrest : ∀ behind : List Char, matchParts (front :: second :: parts).length 1 (second :: parts) behind = true ↔
      Fills '*' ('*' :: ['*'].intercalate (second :: parts)) behind := fun behind =>
    matchParts_behind Nat.one_pos (Nat.add_comm _ _) (List.cons_ne_nil _ _) hparts
  rw [matchParts, if_pos rfl, List.intercalate_cons_cons, List.append_assoc, List.singleton_append,
    fills_append_iff hfront]
  cases front with
  | nil => simp only [List.isEmpty_nil, if_true, hrest, List.nil_append, exists_eq_left']
  | cons c front =>
    rw [List.isEmpty_cons, if_neg Bool.false_ne_true]
    by_cases hprefix : c :: front <+: text
    · obtain ⟨behind, rfl⟩ := hprefix
      rw [if_pos (List.isPrefixOf_iff_prefix.mpr (List.prefix_append _ _)), List.drop_left, hrest]
      simp only [List.append_cancel_left_eq, exists_eq_left']
    · rw [if_neg (mt List.isPrefixOf_iff_prefix.mp hprefix)]
      refine iff_of_false Bool.false_ne_true fun h => ?_
      obtain ⟨behind, rfl, -⟩ := h
      exact hprefix (List.prefix_append _ _)

end Parts

/-! ## One star -/

/-- The only star stands between a start and an end of the text that overlap in it. -/
def EndsOverlap (text pattern : List Char) : Prop :=
  ∃ front back, pattern = front ++ '*' :: back ∧ '*' ∉ front ∧ '*' ∉ back ∧ front <+: text ∧ back <:+ text ∧
    text.length < front.length + back.length

theorem ends_iff {text front back : List Char} :
    (∃ behind, text = front ++ behind ∧ back <:+ behind) ↔
      front <+: text ∧ back <:+ text ∧ front.length + back.length ≤ text.length := by
  constructor
  · rintro ⟨behind, rfl, hback⟩
    refine ⟨List.prefix_append _ _, hback.trans (List.suffix_append _ _), ?_⟩
    rw [List.length_append]
    exact Nat.add_le_add_left hback.length_le _
  · rintro ⟨⟨behind, rfl⟩, hback, hlength⟩
    rw [List.length_append] at hlength
    exact ⟨behind, rfl, List.suffix_of_suffix_length_le hback (List.suffix_append _ _) (by omega)⟩

theorem matchesPattern_one {text front back : List Char} (hfront : '*' ∉ front) (hback : '*' ∉ back) :
    matchesPattern text (front ++ '*' :: back) = true ↔ front <+: text ∧ back <:+ text := by
  have hstar : '*' ∈ front ++ '*' :: back := List.mem_append_right _ List.mem_cons_self
  rw [matchesPattern, if_neg (not_not_intro hstar), List.splitOn_append_cons_self_of_not_mem hfront,
    List.splitOn_eq_singleton hback]
  rw [Bool.and_eq_true, List.isPrefixOf_iff_prefix, List.isSuffixOf_iff_suffix]

theorem fills_one_iff {text front back : List Char} (hfront : '*' ∉ front) (hback : '*' ∉ back) :
    Fills '*' (front ++ '*' :: back) text ↔
      matchesPattern text (front ++ '*' :: back) = true ∧ front.length + back.length ≤ text.length := by
  rw [fills_ends_iff hfront hback, ends_iff, matchesPattern_one hfront hback, and_assoc]

theorem endsOverlap_one {text front back : List Char} (hfront : '*' ∉ front) (hback : '*' ∉ back) :
    EndsOverlap text (front ++ '*' :: back) ↔
      matchesPattern text (front ++ '*' :: back) = true ∧ text.length < front.length + back.length := by
  rw [matchesPattern_one hfront hback]
  constructor
  · rintro ⟨front', back', heq, hfront', hback', hends⟩
    have hsplit := congrArg (List.splitOn '*') heq
    rw [List.splitOn_append_cons_self_of_not_mem hfront, List.splitOn_append_cons_self_of_not_mem hfront',
      List.splitOn_eq_singleton hback, List.splitOn_eq_singleton hback'] at hsplit
    rw [List.cons.injEq, List.singleton_inj] at hsplit
    obtain ⟨rfl, rfl⟩ := hsplit
    exact ⟨⟨hends.1, hends.2.1⟩, hends.2.2⟩
  · exact fun h => ⟨front, back, rfl, hfront, hback, h.1.1, h.1.2, h.2⟩

theorem exists_parts {pattern : List Char} (h : '*' ∈ pattern) :
    (∃ front back, pattern = front ++ '*' :: back ∧ '*' ∉ front ∧ '*' ∉ back) ∨ 2 < (pattern.splitOn '*').length := by
  have hpattern : ['*'].intercalate (pattern.splitOn '*') = pattern := List.intercalate_splitOn '*'
  have hfree := @splitOn_free _ _ '*' pattern
  match hparts : pattern.splitOn '*' with
  | [] => exact absurd hparts (List.splitOn_ne_nil '*' pattern)
  | [part] =>
    rw [hparts, List.intercalate_singleton] at hpattern
    rw [hparts] at hfree
    exact absurd (hpattern ▸ h) (hfree part List.mem_cons_self)
  | [front, back] =>
    rw [hparts, List.intercalate_cons_cons, List.intercalate_singleton, List.append_assoc] at hpattern
    rw [hparts, List.forall_mem_cons, List.forall_mem_singleton] at hfree
    exact .inl ⟨front, back, hpattern.symm, hfree⟩
  | first :: second :: third :: rest =>
    refine .inr ?_
    rw [List.length_cons, List.length_cons, List.length_cons]
    omega

theorem matchesPattern_many {text pattern : List Char} (h : '*' ∈ pattern)
    (hmany : 2 < (pattern.splitOn '*').length) :
    matchesPattern text pattern = true ↔ Fills '*' pattern text := by
  have hfills := @matchParts_iff (pattern.splitOn '*') text (by omega) splitOn_free
  rw [List.intercalate_splitOn '*'] at hfills
  rw [matchesPattern, if_neg (not_not_intro h), ← hfills]
  match pattern.splitOn '*', hmany with
  | first :: second :: third :: rest, _ => rfl

/-- A text fits a pattern exactly when it is the pattern with texts put in for the stars, unless the pattern has one
star only and the text starts and ends as it asks, with the start and the end overlapping. -/
theorem matchesPattern_fills_iff (text pattern : List Char) :
    (matchesPattern text pattern = true ↔ Fills '*' pattern text) ↔ ¬ EndsOverlap text pattern := by
  by_cases hstar : '*' ∈ pattern
  · rcases exists_parts hstar with ⟨front, back, rfl, hfront, hback⟩ | hmany
    · rw [fills_one_iff hfront hback, endsOverlap_one hfront hback, ← Nat.not_le]
      tauto
    · refine iff_of_true (matchesPattern_many hstar hmany) ?_
      rintro ⟨front, back, rfl, hfront, hback, -⟩
      rw [List.splitOn_append_cons_self_of_not_mem hfront, List.splitOn_eq_singleton hback] at hmany
      exact absurd hmany (Nat.lt_irrefl 2)
  · refine iff_of_true ?_ ?_
    · rw [matchesPattern, if_pos hstar, fills_literals_iff hstar, beq_iff_eq]
    · rintro ⟨front, back, rfl, -⟩
      exact hstar (List.mem_append_right _ List.mem_cons_self)

/-- `aba` starts with `ab` and ends with `ba`. -/
theorem overlap_matched : ¬ ∀ text pattern : List Char, matchesPattern text pattern = true ↔ Fills '*' pattern text := by
  intro hall
  have hfills := (hall "aba".toList ("ab".toList ++ '*' :: "ba".toList)).mp (by decide)
  exact absurd ((fills_one_iff (by decide) (by decide)).mp hfills).2 (by decide)

end JavaAnalyzer.Language.Lombok
