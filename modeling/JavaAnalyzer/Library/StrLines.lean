import JavaAnalyzer.Library.TextPlaces
import JavaAnalyzer.Library.TextTrim

/-! # Lines of texts put together

What `str::lines` gives for a text made of two: the lines of both where the first ends with a line feed, otherwise the
last line of the first goes on in the second. With it what is looked for at the beginning of a line, and the last
element of a list with a property as a loop over the numbered elements finds it. -/

namespace JavaAnalyzer.TextPlaces
set_option autoImplicit false
open TextLines Text

/-! ## Whole lines -/

/-- The text ends with a line feed, or is empty. -/
def Closed (text : List Char) : Prop :=
  text = [] ∨ text.getLast? = some '\n'

theorem strLines_ne_nil {text : List Char} (h : text ≠ []) : strLines text ≠ [] := by
  fun_cases strLines text with
  | case1 => exact absurd rfl h
  | case2 => exact List.cons_ne_nil _ _
  | case3 => exact List.cons_ne_nil _ _
  | case4 c rest =>
    cases strLines rest with
    | nil => exact List.cons_ne_nil _ _
    | cons => exact List.cons_ne_nil _ _

theorem strLines_plain {c : Char} {rest : List Char} (hc : c ≠ '\n')
    (hpair : ∀ more, c = '\r' → rest = '\n' :: more → False) :
    strLines (c :: rest) = prepend c (strLines rest) := by
  rw [strLines, if_neg hc]
  exact hpair

theorem prepend_append (c : Char) {ls : List (List Char)} (h : ls ≠ []) (more : List (List Char)) :
    prepend c (ls ++ more) = prepend c ls ++ more := by
  cases ls with
  | nil => exact absurd rfl h
  | cons => rfl

theorem tail_prepend (c : Char) (ls : List (List Char)) : (prepend c ls).tail = ls.tail := by
  cases ls <;> rfl

theorem Closed.of_cons {c : Char} {rest : List Char} (h : Closed (c :: rest)) : Closed rest := by
  cases rest with
  | nil => exact .inl rfl
  | cons d rest =>
    rcases h with h | h
    · cases h
    · exact .inr (by rwa [List.getLast?_cons_cons] at h)

theorem strLines_append {front : List Char} (h : Closed front) (back : List Char) :
    strLines (front ++ back) = strLines front ++ strLines back := by
  fun_induction strLines front with
  | case1 => rfl
  | case2 rest ih =>
    have hrest := ih h.of_cons.of_cons
    rw [List.cons_append, List.cons_append, strLines, hrest, List.cons_append]
  | case3 rest hpair ih =>
    rw [List.cons_append, strLines, if_pos rfl, ih h.of_cons, List.cons_append]
    intro more hcr
    cases hcr
  | case4 c rest hpair hc ih =>
    -- The rest is not empty, as the text ends with a line feed.
    have hrest : rest ≠ [] := by
      rintro rfl
      rcases h with h | h
      · cases h
      · exact hc (Option.some.inj h)
    rw [List.cons_append, strLines_plain hc, ih h.of_cons, prepend_append c (strLines_ne_nil hrest)]
    intro more hcr heq
    obtain ⟨d, tail, rfl⟩ := List.exists_cons_of_ne_nil hrest
    exact hpair tail hcr (by rw [(List.cons.inj heq).1])

/-- One line, with its line feed. -/
theorem strLines_line {line : List Char} (hline : '\n' ∉ line) (hlast : line.getLast? ≠ some '\r')
    (back : List Char) : strLines (line ++ '\n' :: back) = line :: strLines back := by
  induction line with
  | nil =>
    rw [List.nil_append, strLines, if_pos rfl]
    intro more hcr
    cases hcr
  | cons c line ih =>
    have hc : c ≠ '\n' := fun h => hline (h ▸ List.mem_cons_self)
    have hrest : line.getLast? ≠ some '\r' := by
      cases line with
      | nil => simp
      | cons d line => rwa [List.getLast?_cons_cons] at hlast
    rw [List.cons_append, strLines_plain hc, ih (fun h => hline (List.mem_cons_of_mem _ h)) hrest]
    · rfl
    · rintro more rfl heq
      cases line with
      | nil => exact hlast rfl
      | cons d line => exact hline (by rw [(List.cons.inj heq).1]; simp)

theorem strLines_closed_line {front line : List Char} (hfront : Closed front) (hline : '\n' ∉ line)
    (hlast : line.getLast? ≠ some '\r') (back : List Char) :
    strLines (front ++ (line ++ '\n' :: back)) = strLines front ++ line :: strLines back := by
  rw [strLines_append hfront, strLines_line hline hlast]

/-! ## The line that goes on -/

/-- What stands in front of a text on its first line changes no other line. -/
theorem tail_strLines_append {line : List Char} (hline : '\n' ∉ line) (back : List Char) :
    (strLines (line ++ back)).tail = (strLines back).tail := by
  induction line with
  | nil => rfl
  | cons c line ih =>
    have hrest : '\n' ∉ line := fun h => hline (List.mem_cons_of_mem _ h)
    have hc : c ≠ '\n' := fun h => hline (h ▸ List.mem_cons_self)
    by_cases hpair : ∃ more, c = '\r' ∧ line ++ back = '\n' :: more
    · obtain ⟨more, rfl, heq⟩ := hpair
      cases line with
      | nil =>
        rw [List.nil_append] at heq
        have hfeed : strLines ('\n' :: more) = [] :: strLines more := by
          rw [strLines, if_pos rfl]
          intro _ hcr
          cases hcr
        rw [heq, hfeed]
        rfl
      | cons d line => exact absurd (by rw [(List.cons.inj heq).1]; simp) hrest
    · rw [List.cons_append, strLines_plain hc fun more hcr heq => hpair ⟨more, hcr, heq⟩, tail_prepend,
        ih hrest]

/-- The first line is the beginning of the text. -/
theorem first_line_front {text line : List Char} {others : List (List Char)}
    (h : strLines text = line :: others) : line <+: text := by
  fun_induction strLines text generalizing line others with
  | case1 => cases h
  | case2 rest ih =>
    obtain ⟨rfl, -⟩ := List.cons.inj h
    exact List.nil_prefix
  | case3 rest hpair ih =>
    obtain ⟨rfl, -⟩ := List.cons.inj h
    exact List.nil_prefix
  | case4 c rest hpair hc ih =>
    cases hrest : strLines rest with
    | nil =>
      rw [hrest] at h
      obtain ⟨rfl, -⟩ := List.cons.inj h
      exact ⟨rest, rfl⟩
    | cons first more =>
      rw [hrest] at h
      obtain ⟨rfl, -⟩ := List.cons.inj h
      exact List.cons_prefix_cons.mpr ⟨rfl, ih hrest⟩

theorem exists_closed_front (text : List Char) :
    ∃ front, text = front ++ afterLast '\n' text ∧ Closed front ∧ '\n' ∉ afterLast '\n' text := by
  by_cases h : '\n' ∈ text
  · obtain ⟨front, back, heq, hback⟩ := exists_last h
    have hafter : afterLast '\n' text = back := by rw [heq, afterLast_append_cons front back hback]
    refine ⟨front ++ ['\n'], ?_, .inr (by simp), by rwa [hafter]⟩
    rw [hafter, heq, List.append_assoc]
    rfl
  · refine ⟨[], ?_, .inl rfl, ?_⟩
    · rw [afterLast_of_notMem h, List.nil_append]
    · rwa [afterLast_of_notMem h]

/-! ## Words at the beginning of a line -/

/-- A word at the beginning of two texts ends with the first, if it has no character with which the second begins
behind its own first one. -/
theorem front_of_front_append {word text back : List Char} {c : Char} (h : word <+: text ++ c :: back)
    (htext : text ≠ []) (hc : c ∉ word.tail) : word <+: text := by
  rcases Nat.le_total word.length text.length with hle | hle
  · exact List.prefix_of_prefix_length_le h (List.prefix_append ..) hle
  · obtain ⟨more, rfl⟩ := List.prefix_of_prefix_length_le (List.prefix_append text (c :: back)) h hle
    cases more with
    | nil => rw [List.append_nil]
    | cons d more =>
      have hd : d = c := (List.cons_prefix_cons.mp ((List.prefix_append_right_inj text).mp h)).1
      obtain ⟨e, text, rfl⟩ := List.exists_cons_of_ne_nil htext
      exact absurd (by simp [hd]) hc

/-- A word at the beginning of two texts is one of the first, if that has a character that the word has not. -/
theorem front_of_front_mark {word text back : List Char} {c : Char} (h : word <+: text ++ back)
    (hc : c ∈ text) (hnot : c ∉ word) : word <+: text := by
  rcases Nat.le_total word.length text.length with hle | hle
  · exact List.prefix_of_prefix_length_le h (List.prefix_append ..) hle
  · exact absurd ((List.prefix_of_prefix_length_le (List.prefix_append ..) h hle).subset hc) hnot

theorem trimStart_append {text : List Char} (h : ¬Blank text) (back : List Char) :
    trimStart (text ++ back) = trimStart text ++ back := by
  rw [trimStart, List.dropWhile_append, if_neg]
  · rfl
  · intro hempty
    exact h (List.dropWhile_eq_nil_iff.mp (List.isEmpty_iff.mp hempty))

theorem trimStart_ne_nil {text : List Char} (h : ¬Blank text) : trimStart text ≠ [] := fun hnil =>
  h (List.dropWhile_eq_nil_iff.mp hnil)

/-- What a line begins with, blanks aside, a text that begins with the line begins with. -/
theorem front_trimStart_of_front {word line text : List Char} (hword : word <+: trim line) (hne : word ≠ [])
    (h : line <+: text) : word <+: trimStart text := by
  obtain ⟨back, rfl⟩ := h
  have hstart : word <+: trimStart line := hword.trans (trimEnd_front _)
  have hnot : ¬Blank line := by
    intro hblank
    rw [show trimStart line = [] from List.dropWhile_eq_nil_iff.mpr hblank] at hstart
    exact hne (List.prefix_nil.mp hstart)
  rw [trimStart_append hnot]
  exact hstart.trans (List.prefix_append ..)

/-! ## The last element with a property -/

section LastIndex

variable {α : Type} {p : α → Bool}

/-- The element at the place has the property and none behind it has. -/
def LastAt (p : α → Bool) (xs : List α) (n : ℕ) : Prop :=
  (∃ x, xs[n]? = some x ∧ p x = true) ∧ ∀ m x, n < m → xs[m]? = some x → p x = false

/-- A loop over the numbered elements that remembers the last one with the property. -/
def noteLast (p : α → Bool) (found : Option ℕ) (entry : α × ℕ) : Option ℕ :=
  if p entry.1 then some entry.2 else found

def lastIndex (p : α → Bool) (xs : List α) : Option ℕ :=
  xs.zipIdx.foldl (noteLast p) none

theorem lastIndex_append (xs : List α) (x : α) :
    lastIndex p (xs ++ [x]) = if p x then some xs.length else lastIndex p xs := by
  simp [lastIndex, noteLast, List.zipIdx_append]

theorem lastIndex_eq_none {xs : List α} : lastIndex p xs = none ↔ ∀ x ∈ xs, p x = false := by
  induction xs using List.reverseRecOn with
  | nil => simp [lastIndex]
  | append_singleton xs x ih =>
    rw [lastIndex_append]
    by_cases hx : p x = true
    · simp [hx]
    · rw [if_neg hx, ih]
      simp only [List.mem_append, List.mem_singleton, or_imp, forall_and, forall_eq]
      exact ⟨fun h => ⟨h, Bool.eq_false_iff.mpr hx⟩, And.left⟩

theorem lastIndex_eq_some {xs : List α} {n : ℕ} : lastIndex p xs = some n ↔ LastAt p xs n := by
  induction xs using List.reverseRecOn with
  | nil => simp [lastIndex, LastAt]
  | append_singleton xs x ih =>
    rw [lastIndex_append]
    have hat : (xs ++ [x])[xs.length]? = some x := List.getElem?_concat_length
    have hbefore : ∀ m < xs.length, (xs ++ [x])[m]? = xs[m]? := fun m hm => List.getElem?_append_left hm
    have hbehind : ∀ m y, (xs ++ [x])[m]? = some y → m ≤ xs.length := fun m y hy => by
      have hlt := (List.getElem?_eq_some_iff.mp hy).1
      simp only [List.length_append, List.length_cons, List.length_nil] at hlt
      omega
    by_cases hx : p x = true
    · rw [if_pos hx, Option.some.injEq]
      constructor
      · rintro rfl
        refine ⟨⟨x, hat, hx⟩, fun m y hm hy => ?_⟩
        exact absurd (hbehind m y hy) (by omega)
      · rintro ⟨⟨y, hy, -⟩, hlast⟩
        have hle := hbehind n y hy
        by_contra hne
        have hfalse := hlast xs.length x (by omega) hat
        rw [hx] at hfalse
        cases hfalse
    · rw [if_neg hx, ih]
      constructor
      · rintro ⟨⟨y, hy, hpy⟩, hlast⟩
        have hlt := (List.getElem?_eq_some_iff.mp hy).1
        refine ⟨⟨y, by rw [hbefore n hlt, hy], hpy⟩, fun m z hm hz => ?_⟩
        rcases Nat.lt_or_eq_of_le (hbehind m z hz) with hlt | rfl
        · exact hlast m z hm (by rw [← hbefore m hlt, hz])
        · rw [hat, Option.some.injEq] at hz
          rw [← hz]
          exact Bool.eq_false_iff.mpr hx
      · rintro ⟨⟨y, hy, hpy⟩, hlast⟩
        rcases Nat.lt_or_eq_of_le (hbehind n y hy) with hlt | rfl
        · refine ⟨⟨y, by rw [← hbefore n hlt, hy], hpy⟩, fun m z hm hz => ?_⟩
          have hlt := (List.getElem?_eq_some_iff.mp hz).1
          exact hlast m z hm (by rw [hbefore m hlt, hz])
        · rw [hat, Option.some.injEq] at hy
          exact absurd (hy ▸ hpy) hx

/-- Two such loops in one. -/
theorem foldl_noteLast {q : α → Bool} (entries : List (α × ℕ)) (found : Option ℕ × Option ℕ) :
    entries.foldl (fun found entry => (noteLast p found.1 entry, noteLast q found.2 entry)) found =
      (entries.foldl (noteLast p) found.1, entries.foldl (noteLast q) found.2) := by
  induction entries generalizing found with
  | nil => rfl
  | cons entry entries ih => rw [List.foldl_cons, ih, List.foldl_cons, List.foldl_cons]

end LastIndex

end JavaAnalyzer.TextPlaces
