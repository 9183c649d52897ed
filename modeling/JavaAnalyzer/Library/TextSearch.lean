import JavaAnalyzer.Library.TextLines

/-! # Searching a text by bytes

The first and the last place of a text that matches, as the bytes before it. What matches is asked of the
text from the place on, so that a character of a class, a word and whatever else is looked for are cases
of one search. -/

namespace JavaAnalyzer.TextSearch
set_option autoImplicit false
open TextLines

section Search

variable (hits : List Char → Bool)

/-- The bytes before the first place that matches. -/
def firstByte : List Char → Option ℕ
  | [] => if hits [] then some 0 else none
  | c :: rest => if hits (c :: rest) then some 0 else (firstByte rest).map (c.utf8Size + ·)

/-- The bytes before the last place that matches. -/
def lastByte : List Char → Option ℕ
  | [] => if hits [] then some 0 else none
  | c :: rest =>
    match lastByte rest with
    | some byte => some (c.utf8Size + byte)
    | none => if hits (c :: rest) then some 0 else none

/-- The text matches behind `front`. -/
def HitsBehind (text front : List Char) : Prop :=
  ∃ back, text = front ++ back ∧ hits back = true

/-- The first place that matches is behind `front`. -/
def FirstBehind (text front : List Char) : Prop :=
  HitsBehind hits text front ∧ ∀ other, HitsBehind hits text other → front.length ≤ other.length

/-- The last place that matches is behind `front`. -/
def LastBehind (text front : List Char) : Prop :=
  HitsBehind hits text front ∧ ∀ other, HitsBehind hits text other → other.length ≤ front.length

variable {hits}

theorem hitsBehind_nil {text : List Char} : HitsBehind hits text [] ↔ hits text = true := by
  constructor
  · intro h
    obtain ⟨back, htext, hback⟩ := h
    rwa [htext]
  · exact fun h => ⟨text, rfl, h⟩

theorem hitsBehind_cons {c : Char} {text front : List Char} :
    HitsBehind hits (c :: text) (c :: front) ↔ HitsBehind hits text front := by
  constructor
  · intro h
    obtain ⟨back, htext, hback⟩ := h
    exact ⟨back, List.tail_eq_of_cons_eq htext, hback⟩
  · intro h
    obtain ⟨back, htext, hback⟩ := h
    exact ⟨back, by rw [htext, List.cons_append], hback⟩

theorem HitsBehind.cases {c : Char} {text front : List Char} (h : HitsBehind hits (c :: text) front) :
    front = [] ∨ ∃ rest, front = c :: rest ∧ HitsBehind hits text rest := by
  cases front with
  | nil => exact Or.inl rfl
  | cons d rest =>
    obtain ⟨back, htext, hback⟩ := h
    rw [List.cons_append, List.cons.injEq] at htext
    exact Or.inr ⟨rest, by rw [htext.1], back, htext.2, hback⟩

theorem hitsBehind_of_nil {front : List Char} (h : HitsBehind hits [] front) : front = [] := by
  obtain ⟨back, htext, -⟩ := h
  exact (List.append_eq_nil_iff.mp htext.symm).1

theorem firstByte_spec (text : List Char) :
    match firstByte hits text with
    | some byte => ∃ front, FirstBehind hits text front ∧ byteLength front = byte
    | none => ∀ front, ¬ HitsBehind hits text front := by
  fun_induction firstByte hits text with
  | case1 hhit => exact ⟨[], ⟨hitsBehind_nil.mpr hhit, fun _ _ => Nat.zero_le _⟩, rfl⟩
  | case2 hhit =>
    intro front h
    rw [hitsBehind_of_nil h] at h
    exact hhit (hitsBehind_nil.mp h)
  | case3 c rest hhit => exact ⟨[], ⟨hitsBehind_nil.mpr hhit, fun _ _ => Nat.zero_le _⟩, rfl⟩
  | case4 c rest hhit ih =>
    have hfirst : ∀ other, HitsBehind hits (c :: rest) other →
        ∃ behind, other = c :: behind ∧ HitsBehind hits rest behind := by
      intro other h
      cases h.cases with
      | inl hnil =>
        rw [hnil] at h
        exact absurd (hitsBehind_nil.mp h) hhit
      | inr hbehind => exact hbehind
    cases hbyte : firstByte hits rest with
    | none =>
      rw [hbyte] at ih
      intro front h
      obtain ⟨behind, -, hbehind⟩ := hfirst front h
      exact ih behind hbehind
    | some byte =>
      rw [hbyte] at ih
      obtain ⟨front, ⟨hfront, hleast⟩, hlength⟩ := ih
      refine ⟨c :: front, ⟨hitsBehind_cons.mpr hfront, fun other h => ?_⟩, ?_⟩
      · obtain ⟨behind, rfl, hbehind⟩ := hfirst other h
        exact Nat.succ_le_succ (hleast behind hbehind)
      · rw [byteLength_cons, hlength]

theorem lastByte_spec (text : List Char) :
    match lastByte hits text with
    | some byte => ∃ front, LastBehind hits text front ∧ byteLength front = byte
    | none => ∀ front, ¬ HitsBehind hits text front := by
  fun_induction lastByte hits text with
  | case1 hhit =>
    refine ⟨[], ⟨hitsBehind_nil.mpr hhit, fun other h => ?_⟩, rfl⟩
    rw [hitsBehind_of_nil h]
  | case2 hhit =>
    intro front h
    rw [hitsBehind_of_nil h] at h
    exact hhit (hitsBehind_nil.mp h)
  | case3 c rest byte hbyte ih =>
    rw [hbyte] at ih
    obtain ⟨front, ⟨hfront, hmost⟩, hlength⟩ := ih
    refine ⟨c :: front, ⟨hitsBehind_cons.mpr hfront, fun other h => ?_⟩, ?_⟩
    · cases h.cases with
      | inl hnil =>
        rw [hnil]
        exact Nat.zero_le _
      | inr hbehind =>
        obtain ⟨behind, rfl, hbehind⟩ := hbehind
        exact Nat.succ_le_succ (hmost behind hbehind)
    · rw [byteLength_cons, hlength]
  | case4 c rest hbyte hhit ih =>
    rw [hbyte] at ih
    refine ⟨[], ⟨hitsBehind_nil.mpr hhit, fun other h => ?_⟩, rfl⟩
    cases h.cases with
    | inl hnil => rw [hnil]
    | inr hbehind =>
      obtain ⟨behind, -, hbehind⟩ := hbehind
      exact absurd hbehind (ih behind)
  | case5 c rest hbyte hhit ih =>
    rw [hbyte] at ih
    intro front h
    cases h.cases with
    | inl hnil =>
      rw [hnil] at h
      exact hhit (hitsBehind_nil.mp h)
    | inr hbehind =>
      obtain ⟨behind, -, hbehind⟩ := hbehind
      exact ih behind hbehind

theorem FirstBehind.unique {text front other : List Char} (h : FirstBehind hits text front)
    (hother : FirstBehind hits text other) : front = other := by
  have hlength := Nat.le_antisymm (h.2 other hother.1) (hother.2 front h.1)
  obtain ⟨back, htext, -⟩ := h.1
  obtain ⟨more, hmore, -⟩ := hother.1
  exact (List.append_inj (htext.symm.trans hmore) hlength).1

theorem LastBehind.unique {text front other : List Char} (h : LastBehind hits text front)
    (hother : LastBehind hits text other) : front = other := by
  have hlength := Nat.le_antisymm (hother.2 front h.1) (h.2 other hother.1)
  obtain ⟨back, htext, -⟩ := h.1
  obtain ⟨more, hmore, -⟩ := hother.1
  exact (List.append_inj (htext.symm.trans hmore) hlength).1

/-- A search that ends in all cases is told by what it finds, when that is one place at most. -/
theorem search_iff {result : Option ℕ} {found places : List Char → Prop}
    (hplaces : ∀ front, found front → places front)
    (hunique : ∀ front other, found front → found other → front = other)
    (hspec : match result with
      | some byte => ∃ front, found front ∧ byteLength front = byte
      | none => ∀ front, ¬ places front) :
    (result = none ↔ ∀ front, ¬ places front) ∧
      ∀ byte, result = some byte ↔ ∃ front, found front ∧ byteLength front = byte := by
  cases result with
  | none =>
    refine ⟨⟨fun _ => hspec, fun _ => rfl⟩, fun byte => ⟨fun h => (by cases h), fun h => ?_⟩⟩
    obtain ⟨front, hfront, -⟩ := h
    exact absurd (hplaces front hfront) (hspec front)
  | some byte =>
    obtain ⟨front, hfront, rfl⟩ := hspec
    refine ⟨⟨fun h => (by cases h), fun h => absurd (hplaces front hfront) (h front)⟩, fun byte => ?_⟩
    rw [Option.some.injEq]
    refine ⟨fun h => ⟨front, hfront, h⟩, fun h => ?_⟩
    obtain ⟨other, hother, rfl⟩ := h
    rw [hunique front other hfront hother]

theorem firstByte_iff (text : List Char) :
    (firstByte hits text = none ↔ ∀ front, ¬ HitsBehind hits text front) ∧
      ∀ byte, firstByte hits text = some byte ↔
        ∃ front, FirstBehind hits text front ∧ byteLength front = byte :=
  search_iff (fun _ h => h.1) (fun _ _ h hother => h.unique hother) (firstByte_spec text)

theorem lastByte_iff (text : List Char) :
    (lastByte hits text = none ↔ ∀ front, ¬ HitsBehind hits text front) ∧
      ∀ byte, lastByte hits text = some byte ↔
        ∃ front, LastBehind hits text front ∧ byteLength front = byte :=
  search_iff (fun _ h => h.1) (fun _ _ h hother => h.unique hother) (lastByte_spec text)

end Search

/-! ## The text before a byte -/

/-- The text before a byte, which must be the first of a character or the end. -/
def upToByte (text : List Char) (byte : ℕ) : Option (List Char) :=
  (charAtByte text byte).map text.take

theorem charAtByte_spec {text : List Char} {byte n : ℕ} (h : charAtByte text byte = some n) :
    byteLength (text.take n) = byte := by
  fun_induction charAtByte text byte generalizing n with
  | case1 text =>
    cases h
    rfl
  | case2 => cases h
  | case3 c rest byte hinside => cases h
  | case4 c rest byte hinside ih =>
    obtain ⟨m, hm, rfl⟩ := Option.map_eq_some_iff.mp h
    rw [List.take_succ_cons, byteLength_cons, ih hm]
    omega

theorem upToByte_eq_some_iff {text : List Char} {byte : ℕ} {cut : List Char} :
    upToByte text byte = some cut ↔ cut <+: text ∧ byteLength cut = byte := by
  constructor
  · intro h
    obtain ⟨n, hn, rfl⟩ := Option.map_eq_some_iff.mp h
    exact ⟨List.take_prefix n text, charAtByte_spec hn⟩
  · intro h
    obtain ⟨⟨rest, rfl⟩, rfl⟩ := h
    rw [upToByte, charAtByte_append, Option.map_some, List.take_left]

end JavaAnalyzer.TextSearch
