import JavaAnalyzer.Library.Splice

/-! # Semantic token deltas

`diff_semantic_tokens` of `lsp/handlers/semantic_tokens.rs`: the tokens that the old and the new list
share at the front and at the end are left, and one edit replaces what is between. A client keeps the
tokens as one list of integers, five a token, and an edit speaks of positions in that list. -/

namespace JavaAnalyzer.Lsp
set_option autoImplicit false
open Splice

structure SemanticToken where
  deltaLine : UInt32
  deltaStart : UInt32
  length : UInt32
  tokenType : UInt32
  tokenModifiersBitset : UInt32
deriving DecidableEq, Repr

structure SemanticTokensEdit where
  start : UInt32
  deleteCount : UInt32
  data : Option (List SemanticToken)
deriving DecidableEq, Repr

def diffSemanticTokens (old new : List SemanticToken) : List SemanticTokensEdit :=
  if old.isEmpty && new.isEmpty then []
  else
    let prefixLen := commonPrefixLength old new
    if prefixLen = old.length ∧ prefixLen = new.length then []
    else
      let suffixLen := commonPrefixLength (old.drop prefixLen).reverse (new.drop prefixLen).reverse
      let oldEnd := old.length - suffixLen
      let newEnd := new.length - suffixLen
      let replacement := (new.take newEnd).drop prefixLen
      [{ start := UInt32.ofNat prefixLen
         deleteCount := UInt32.ofNat (oldEnd - prefixLen)
         data := if replacement.isEmpty then none else some replacement }]

/-! ## The client -/

def SemanticToken.encode (token : SemanticToken) : List UInt32 :=
  [token.deltaLine, token.deltaStart, token.length, token.tokenType, token.tokenModifiersBitset]

def encodeTokens (tokens : List SemanticToken) : List UInt32 :=
  tokens.flatMap SemanticToken.encode

/-- One edit, on the list of integers. -/
def SemanticTokensEdit.apply (edit : SemanticTokensEdit) (integers : List UInt32) : List UInt32 :=
  splice integers edit.start.toNat edit.deleteCount.toNat (encodeTokens (edit.data.getD []))

/-- The edits speak of the list before any of them, so the last one is applied first. -/
def applyEdits (integers : List UInt32) (edits : List SemanticTokensEdit) : List UInt32 :=
  edits.foldr SemanticTokensEdit.apply integers

/-- `new` is `old` with `inserted` after the common prefix. -/
structure Inserted (old new front inserted back : List SemanticToken) : Prop where
  old_eq : old = front ++ back
  new_eq : new = front ++ inserted ++ back
  apart : Apart back (inserted ++ back)

/-- The integers of the prefix that the position of an edit, counted in tokens, leaves behind it. -/
def afterStart (front : List SemanticToken) : List UInt32 :=
  (encodeTokens front).drop (front.length % 2 ^ 32)

/-- Nothing is deleted, and the inserted integers may as well stand before the integers of the prefix
that the position leaves behind it. -/
def DeltaFaithful (old new : List SemanticToken) : Prop :=
  ∃ front inserted back, Inserted old new front inserted back ∧
    encodeTokens inserted ++ afterStart front = afterStart front ++ encodeTokens inserted

/-! ## The encoding -/

@[simp] theorem encodeTokens_append (xs ys : List SemanticToken) :
    encodeTokens (xs ++ ys) = encodeTokens xs ++ encodeTokens ys :=
  List.flatMap_append

@[simp] theorem length_encodeTokens (tokens : List SemanticToken) :
    (encodeTokens tokens).length = 5 * tokens.length := by
  induction tokens with
  | nil => rfl
  | cons token tokens ih =>
    rw [encodeTokens, List.flatMap_cons, List.length_append, ← encodeTokens, ih,
      List.length_cons, SemanticToken.encode]
    simp only [List.length_cons, List.length_nil]
    omega

/-! ## The edit -/

/-- The parts of the old and the new list around the edit. -/
structure Trimmed (old new front deleted inserted back : List SemanticToken) : Prop where
  old_eq : old = front ++ deleted ++ back
  new_eq : new = front ++ inserted ++ back
  apart : Apart (deleted ++ back) (inserted ++ back)
  apart_end : Apart deleted.reverse inserted.reverse

theorem exists_trimmed (old new : List SemanticToken) :
    ∃ front deleted inserted back, Trimmed old new front deleted inserted back := by
  obtain ⟨front, oldRest, newRest, hold, hnew, hapart⟩ := exists_commonPrefix old new
  obtain ⟨back, deleted, inserted, hdeleted, hinserted, hend⟩ :=
    exists_commonPrefix oldRest.reverse newRest.reverse
  have holdRest : oldRest = deleted.reverse ++ back.reverse := by
    rw [← List.reverse_append, ← hdeleted, List.reverse_reverse]
  have hnewRest : newRest = inserted.reverse ++ back.reverse := by
    rw [← List.reverse_append, ← hinserted, List.reverse_reverse]
  refine ⟨front, deleted.reverse, inserted.reverse, back.reverse, ?_, ?_, ?_, ?_⟩
  · rw [hold, holdRest, List.append_assoc]
  · rw [hnew, hnewRest, List.append_assoc]
  · rw [← holdRest, ← hnewRest]
    exact hapart
  · simpa using hend

/-- The edit that is answered, with the two counts in tokens. -/
def Trimmed.edit (front deleted inserted : List SemanticToken) : SemanticTokensEdit where
  start := UInt32.ofNat front.length
  deleteCount := UInt32.ofNat deleted.length
  data := if inserted.isEmpty then none else some inserted

theorem Trimmed.length_old {old new front deleted inserted back : List SemanticToken}
    (h : Trimmed old new front deleted inserted back) :
    old.length = front.length + deleted.length + back.length := by
  rw [h.old_eq, List.length_append, List.length_append]

theorem Trimmed.length_new {old new front deleted inserted back : List SemanticToken}
    (h : Trimmed old new front deleted inserted back) :
    new.length = front.length + inserted.length + back.length := by
  rw [h.new_eq, List.length_append, List.length_append]

theorem Trimmed.diff_eq {old new front deleted inserted back : List SemanticToken}
    (h : Trimmed old new front deleted inserted back) :
    diffSemanticTokens old new =
      if deleted = [] ∧ inserted = [] then [] else [Trimmed.edit front deleted inserted] := by
  have hshared : commonPrefixLength old new = front.length := by
    rw [h.old_eq, h.new_eq, List.append_assoc, List.append_assoc]
    exact commonPrefixLength_append front h.apart
  have hold : old.drop front.length = deleted ++ back := by
    rw [h.old_eq, List.append_assoc, List.drop_left]
  have hnew : new.drop front.length = inserted ++ back := by
    rw [h.new_eq, List.append_assoc, List.drop_left]
  have hsuffix : commonPrefixLength (old.drop front.length).reverse
      (new.drop front.length).reverse = back.length := by
    rw [hold, hnew, List.reverse_append, List.reverse_append,
      commonPrefixLength_append back.reverse h.apart_end, List.length_reverse]
  have holdLength := h.length_old
  have hnewLength := h.length_new
  have hreplacement : (new.take (new.length - back.length)).drop front.length = inserted := by
    rw [h.new_eq, List.length_append, Nat.add_sub_cancel, List.take_left, List.drop_left]
  by_cases hequal : deleted = [] ∧ inserted = []
  · obtain ⟨hdeleted, hinserted⟩ := hequal
    have hback : back = [] := by
      have hapart := h.apart
      rw [hdeleted, hinserted] at hapart
      cases back with
      | nil => rfl
      | cons token back => exact absurd rfl (hapart token rfl)
    have hlength : front.length = old.length ∧ front.length = new.length := by
      rw [holdLength, hnewLength, hdeleted, hinserted, hback]
      exact ⟨rfl, rfl⟩
    simp only [diffSemanticTokens, hshared, if_pos hlength, hdeleted, hinserted, and_self,
      if_true, ite_self]
  · have hlength : ¬ (front.length = old.length ∧ front.length = new.length) := by
      intro hlength
      apply hequal
      constructor
      · exact List.length_eq_zero_iff.mp (by omega)
      · exact List.length_eq_zero_iff.mp (by omega)
    have hempty : ¬ (old.isEmpty && new.isEmpty) = true := by
      intro hempty
      simp only [Bool.and_eq_true, List.isEmpty_iff] at hempty
      have holdNil : old.length = 0 := by rw [hempty.1, List.length_nil]
      have hnewNil : new.length = 0 := by rw [hempty.2, List.length_nil]
      exact hlength ⟨by omega, by omega⟩
    have hcount : old.length - back.length - front.length = deleted.length := by omega
    rw [if_neg hequal]
    simp only [diffSemanticTokens, hshared, hsuffix, hreplacement, hcount, if_neg hlength,
      if_neg hempty, Trimmed.edit]

/-- What the client holds after the edit. -/
theorem Trimmed.apply_edit {old new front deleted inserted back : List SemanticToken}
    (h : Trimmed old new front deleted inserted back) :
    (Trimmed.edit front deleted inserted).apply (encodeTokens old) =
      splice (encodeTokens old) (front.length % 2 ^ 32) (deleted.length % 2 ^ 32)
        (encodeTokens inserted) := by
  have hdata : (Trimmed.edit front deleted inserted).data.getD [] = inserted := by
    cases inserted <;> rfl
  rw [SemanticTokensEdit.apply, hdata]
  rfl

/-- An edit that replaces nothing by nothing is left out, and would change nothing. -/
theorem Trimmed.applyEdits_eq {old new front deleted inserted back : List SemanticToken}
    (h : Trimmed old new front deleted inserted back) :
    applyEdits (encodeTokens old) (diffSemanticTokens old new) =
      splice (encodeTokens old) (front.length % 2 ^ 32) (deleted.length % 2 ^ 32)
        (encodeTokens inserted) := by
  rw [h.diff_eq, ← h.apply_edit]
  split
  · rename_i hequal
    rw [h.apply_edit, hequal.1, hequal.2]
    simp [applyEdits, splice, encodeTokens]
  · rfl

/-- The client ends up with as many integers as it should only if nothing was deleted. -/
theorem Trimmed.deleted_eq_nil {old new front deleted inserted back : List SemanticToken}
    (h : Trimmed old new front deleted inserted back)
    (heq : splice (encodeTokens old) (front.length % 2 ^ 32) (deleted.length % 2 ^ 32)
      (encodeTokens inserted) = encodeTokens new) : deleted = [] := by
  have hfront := Nat.mod_le front.length (2 ^ 32)
  have hdeleted := Nat.mod_le deleted.length (2 ^ 32)
  have holdLength := h.length_old
  have hnewLength := h.length_new
  have hinside : front.length % 2 ^ 32 + deleted.length % 2 ^ 32 ≤ (encodeTokens old).length := by
    rw [length_encodeTokens]
    omega
  have hlength := length_splice hinside (encodeTokens inserted)
  rw [heq] at hlength
  simp only [length_encodeTokens] at hlength
  exact List.length_eq_zero_iff.mp (by omega)

/-- Without a deletion the edit puts the inserted integers where its position points. -/
theorem splice_encodeTokens_iff (front inserted back : List SemanticToken) :
    splice (encodeTokens (front ++ back)) (front.length % 2 ^ 32) 0 (encodeTokens inserted) =
        encodeTokens (front ++ inserted ++ back) ↔
      encodeTokens inserted ++ afterStart front = afterStart front ++ encodeTokens inserted := by
  have hsplit : encodeTokens front =
      (encodeTokens front).take (front.length % 2 ^ 32) ++ afterStart front :=
    (List.take_append_drop _ _).symm
  have hlength : ((encodeTokens front).take (front.length % 2 ^ 32)).length =
      front.length % 2 ^ 32 := by
    have hfront := Nat.mod_le front.length (2 ^ 32)
    rw [List.length_take, length_encodeTokens]
    omega
  generalize (encodeTokens front).take (front.length % 2 ^ 32) = start at hsplit hlength
  rw [encodeTokens_append, encodeTokens_append, encodeTokens_append, hsplit, ← hlength,
    List.append_assoc start, splice_append]
  constructor
  · intro heq
    simp only [List.append_assoc, List.append_cancel_left_eq] at heq
    rw [← List.append_assoc, ← List.append_assoc, List.append_cancel_right_eq] at heq
    exact heq
  · intro heq
    simp only [List.append_assoc, List.append_cancel_left_eq]
    rw [← List.append_assoc, ← List.append_assoc, heq]

theorem Trimmed.of_inserted {old new front inserted back : List SemanticToken}
    (h : Inserted old new front inserted back) : Trimmed old new front [] inserted back := by
  refine ⟨?_, h.new_eq, h.apart, ?_⟩
  · rw [h.old_eq, List.append_nil]
  · intro token htoken
    cases htoken

/-! ## When the client obtains the new tokens -/

/-- The delta gives the client the new tokens exactly when nothing is deleted and the insertion may
stand where the position, counted in tokens, points. -/
theorem delta_reproduces_iff (old new : List SemanticToken) :
    applyEdits (encodeTokens old) (diffSemanticTokens old new) = encodeTokens new ↔
      DeltaFaithful old new := by
  constructor
  · intro heq
    obtain ⟨front, deleted, inserted, back, h⟩ := exists_trimmed old new
    rw [h.applyEdits_eq] at heq
    have hdeleted := h.deleted_eq_nil heq
    have hinserted : Inserted old new front inserted back := by
      have hold := h.old_eq
      have hapart := h.apart
      rw [hdeleted, List.append_nil] at hold
      rw [hdeleted, List.nil_append] at hapart
      exact ⟨hold, h.new_eq, hapart⟩
    refine ⟨front, inserted, back, hinserted, ?_⟩
    rw [hdeleted, hinserted.old_eq, hinserted.new_eq] at heq
    exact (splice_encodeTokens_iff front inserted back).mp heq
  · intro hfaithful
    obtain ⟨front, inserted, back, hinserted, hcomm⟩ := hfaithful
    rw [(Trimmed.of_inserted hinserted).applyEdits_eq, hinserted.old_eq, hinserted.new_eq]
    exact (splice_encodeTokens_iff front inserted back).mpr hcomm

/-- A token is appended, and its integers land after the first integer of the old one. -/
theorem delta_shifts_appended : ¬ ∀ old new : List SemanticToken,
    applyEdits (encodeTokens old) (diffSemanticTokens old new) = encodeTokens new := by
  intro hall
  exact absurd (hall [⟨0, 0, 5, 0, 0⟩] [⟨0, 0, 5, 0, 0⟩, ⟨1, 0, 3, 1, 0⟩]) (by decide)

end JavaAnalyzer.Lsp
