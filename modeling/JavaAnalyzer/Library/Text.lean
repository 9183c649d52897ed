import Mathlib

/-! # Scanning character lists

The few text primitives the signature readers are made of: splitting at the first occurrence of a
delimiter, breaking before a class of delimiters, dropping one optional character, trimming. Each
reader primitive comes with what it does on a text whose first part is free of the delimiter, which is
the form the readers' round trips need. -/

namespace JavaAnalyzer.Text
set_option autoImplicit false

/-! ## Splitting at the first delimiter -/

/-- The text before and after the first `c`. -/
def splitOnce (c : Char) : List Char → Option (List Char × List Char)
  | [] => none
  | d :: s => if d = c then some ([], s) else (splitOnce c s).map fun p => (d :: p.1, p.2)

theorem splitOnce_append {c : Char} {pre : List Char} (h : c ∉ pre) (rest : List Char) :
    splitOnce c (pre ++ c :: rest) = some (pre, rest) := by
  induction pre with
  | nil => simp [splitOnce]
  | cons d pre ih =>
    have hd : d ≠ c := fun e => h (by simp [e])
    have hpre : c ∉ pre := fun m => h (List.mem_cons_of_mem d m)
    simp [splitOnce, hd, ih hpre]

theorem splitOnce_eq {c : Char} {s pre rest : List Char} (h : splitOnce c s = some (pre, rest)) :
    s = pre ++ c :: rest ∧ c ∉ pre := by
  induction s generalizing pre with
  | nil => simp [splitOnce] at h
  | cons d s ih =>
    by_cases hd : d = c
    · simp only [splitOnce, hd, if_true, Option.some.injEq, Prod.mk.injEq] at h
      obtain ⟨rfl, rfl⟩ := h
      simp [hd]
    · simp only [splitOnce, hd, if_false, Option.map_eq_some_iff, Prod.mk.injEq] at h
      obtain ⟨⟨pre', rest'⟩, hs, rfl, rfl⟩ := h
      obtain ⟨rfl, hc⟩ := ih hs
      refine ⟨rfl, ?_⟩
      simp only [List.mem_cons, not_or]
      exact ⟨fun e => hd e.symm, hc⟩

/-! ## Breaking before a class of delimiters -/

/-- The longest part of `s` before a character of `stop`, and what follows from there on. -/
def breakAt (stop : Char → Bool) (s : List Char) : List Char × List Char :=
  (s.takeWhile fun c => !stop c, s.dropWhile fun c => !stop c)

theorem breakAt_append {stop : Char → Bool} {pre : List Char} (h : ∀ c ∈ pre, stop c = false)
    {d : Char} (hd : stop d = true) (rest : List Char) :
    breakAt stop (pre ++ d :: rest) = (pre, d :: rest) := by
  have hpre : ∀ c ∈ pre, (!stop c) = true := fun c hc => by simp [h c hc]
  simp only [breakAt, Prod.mk.injEq]
  constructor
  · rw [List.takeWhile_append_of_pos hpre]
    simp [hd]
  · rw [List.dropWhile_append_of_pos hpre]
    simp [hd]

theorem breakAt_fst_free (stop : Char → Bool) (s : List Char) :
    ∀ c ∈ (breakAt stop s).1, stop c = false := by
  intro c hc
  simpa using List.mem_takeWhile_imp hc

theorem breakAt_snd_length (stop : Char → Bool) (s : List Char) :
    (breakAt stop s).2.length ≤ s.length :=
  (List.dropWhile_sublist _).length_le

/-! ## One optional character -/

/-- `s` without a leading `c`, if it has one. -/
def skipChar (c : Char) : List Char → List Char
  | [] => []
  | d :: s => if d = c then s else d :: s

@[simp] theorem skipChar_self (c : Char) (s : List Char) : skipChar c (c :: s) = s := by
  simp [skipChar]

theorem skipChar_length (c : Char) (s : List Char) : (skipChar c s).length ≤ s.length := by
  cases s with
  | nil => simp [skipChar]
  | cons d s =>
    by_cases h : d = c
    · simp [skipChar, h]
    · simp [skipChar, h]

/-! ## Trimming -/

/-- The characters with the Unicode property `White_Space`. -/
def isWhitespace (c : Char) : Bool :=
  (9 ≤ c.toNat && c.toNat ≤ 13) || (0x2000 ≤ c.toNat && c.toNat ≤ 0x200A) ||
    [0x20, 0x85, 0xA0, 0x1680, 0x2028, 0x2029, 0x202F, 0x205F, 0x3000].contains c.toNat

def trimStart (s : List Char) : List Char :=
  s.dropWhile isWhitespace

def trimEnd (s : List Char) : List Char :=
  (trimStart s.reverse).reverse

def trim (s : List Char) : List Char :=
  trimEnd (trimStart s)

/-! ## The last delimiter -/

/-- The text behind the last `c`, or all of it. -/
def afterLast (c : Char) (s : List Char) : List Char :=
  (s.reverse.takeWhile fun d => d ≠ c).reverse

/-- The text before the last `c`. -/
def beforeLast (c : Char) (s : List Char) : Option (List Char) :=
  if c ∈ s then some (s.reverse.dropWhile fun d => d ≠ c).tail.reverse else none

theorem beforeLast_append_cons {c : Char} (front : List Char) {back : List Char} (h : c ∉ back) :
    beforeLast c (front ++ c :: back) = some front := by
  have hall : ∀ d ∈ back.reverse, decide (d ≠ c) = true := by
    intro d hd
    exact decide_eq_true fun heq => h (heq ▸ List.mem_reverse.mp hd)
  rw [beforeLast, if_pos (by simp), List.reverse_append, List.reverse_cons, List.append_assoc,
    List.dropWhile_append_of_pos hall]
  simp

theorem append_cons_inj_last {c : Char} {front front' back back' : List Char} (h : c ∉ back)
    (h' : c ∉ back') (heq : front ++ c :: back = front' ++ c :: back') :
    front = front' ∧ back = back' := by
  have hfront : some front = some front' := by
    rw [← beforeLast_append_cons front h, heq, beforeLast_append_cons front' h']
  obtain rfl := Option.some.inj hfront
  exact ⟨rfl, (List.cons.inj (List.append_cancel_left heq)).2⟩

end JavaAnalyzer.Text
