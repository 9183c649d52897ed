import JavaAnalyzer.Library.Text

/-! # Trimmed texts

What trimming keeps: a text that starts with no blank is only cut at its end, as are its prefixes. -/

namespace JavaAnalyzer.Text
set_option autoImplicit false

/-! ## Classes of characters -/

/-- A test tells two characters apart. -/
theorem ne_of_test {test : Char → Bool} {c d : Char} (hc : test c = true) (hd : test d = false) : c ≠ d := by
  rintro rfl
  exact Bool.false_ne_true (hd.symm.trans hc)

/-! ## Trimming -/

theorem trimStart_of_front {s p : List Char} (h : trimStart s = s) (hp : p <+: s) : trimStart p = p := by
  rw [trimStart, List.dropWhile_eq_self_iff] at h ⊢
  intro hl
  obtain ⟨rest, rfl⟩ := hp
  have hfirst := h (by rw [List.length_append]; omega)
  rwa [List.getElem_append_left hl] at hfirst

theorem trimStart_trimStart (s : List Char) : trimStart (trimStart s) = trimStart s :=
  List.dropWhile_idempotent _ _

theorem trimEnd_front (s : List Char) : trimEnd s <+: s :=
  List.rdropWhile_prefix _ s

theorem trimEnd_trimEnd (s : List Char) : trimEnd (trimEnd s) = trimEnd s :=
  List.rdropWhile_idempotent _ _

theorem trimStart_trim (s : List Char) : trimStart (trim s) = trim s :=
  trimStart_of_front (trimStart_trimStart s) (trimEnd_front _)

theorem trim_trim (s : List Char) : trim (trim s) = trim s := by
  rw [trim, trimStart_trim, trim, trimEnd_trimEnd]

theorem trim_of_starts {s : List Char} (h : trimStart s = s) : trim s = trimEnd s := by
  rw [trim, h]

theorem trim_front {s : List Char} (h : trimStart s = s) : trim s <+: s := by
  rw [trim_of_starts h]
  exact trimEnd_front s

theorem trimStart_of_trim {s : List Char} (h : trim s = s) : trimStart s = s := by
  rw [← h, trimStart_trim]

theorem trimStart_suffix (s : List Char) : trimStart s <:+ s :=
  List.dropWhile_suffix _

theorem trim_length_le (s : List Char) : (trim s).length ≤ s.length :=
  (trimEnd_front _).length_le.trans (trimStart_suffix s).length_le

/-! ## Blanks around a text -/

def Blank (s : List Char) : Prop :=
  ∀ c ∈ s, isWhitespace c = true

theorem blank_nil : Blank [] :=
  fun _ h => absurd h List.not_mem_nil

theorem trimStart_blank_append {b : List Char} (hb : Blank b) (s : List Char) :
    trimStart (b ++ s) = trimStart s :=
  List.dropWhile_append_of_pos hb

theorem trimEnd_append_blank (s : List Char) {b : List Char} (hb : Blank b) :
    trimEnd (s ++ b) = trimEnd s := by
  rw [trimEnd, List.reverse_append, trimStart_blank_append fun c hc => hb c (List.mem_reverse.mp hc),
    trimEnd]

theorem trim_append_blank (s : List Char) {b : List Char} (hb : Blank b) : trim (s ++ b) = trim s := by
  rw [trim, trimStart, List.dropWhile_append]
  split
  · rename_i hnil
    have hstart : trimStart s = [] := List.isEmpty_iff.mp hnil
    have hblank : trimStart b = [] := List.dropWhile_eq_nil_iff.mpr hb
    rw [trim, hstart, show List.dropWhile isWhitespace b = [] from hblank]
  · exact trimEnd_append_blank _ hb

theorem trim_blank_append {b : List Char} (hb : Blank b) (s : List Char) : trim (b ++ s) = trim s := by
  rw [trim, trimStart_blank_append hb, trim]

/-- A text that starts and ends with characters that are no blanks. -/
structure Solid (s : List Char) : Prop where
  ne_nil : s ≠ []
  head : ∀ c ∈ s.head?, isWhitespace c = false
  last : ∀ c ∈ s.getLast?, isWhitespace c = false

theorem Solid.trim_eq {s : List Char} (h : Solid s) : trim s = s := by
  have hstart : ∀ t : List Char, (∀ c ∈ t.head?, isWhitespace c = false) → trimStart t = t := by
    intro t ht
    cases t with
    | nil => rfl
    | cons c t => exact List.dropWhile_cons_of_neg (by rw [ht c rfl]; exact Bool.false_ne_true)
  rw [trim, hstart s h.head, trimEnd, hstart s.reverse fun c hc => h.last c (by rwa [List.head?_reverse] at hc),
    List.reverse_reverse]

theorem solid_singleton {c : Char} (hc : isWhitespace c = false) : Solid [c] where
  ne_nil := List.cons_ne_nil c []
  head d hd := by rwa [Option.some.inj (Option.mem_def.mp hd).symm]
  last d hd := by rwa [Option.some.inj (Option.mem_def.mp hd).symm]

/-- Whatever stands between two such texts. -/
theorem Solid.append {s t : List Char} (hs : Solid s) (between : List Char) (ht : Solid t) :
    Solid (s ++ between ++ t) where
  ne_nil h := ht.ne_nil (List.append_eq_nil_iff.mp h).2
  head c hc := by
    rw [List.append_assoc, List.head?_append_of_ne_nil _ hs.ne_nil] at hc
    exact hs.head c hc
  last c hc := by
    rw [List.getLast?_append_of_ne_nil _ ht.ne_nil] at hc
    exact ht.last c hc

theorem trim_append_solid (s : List Char) {t : List Char} (ht : Solid t) : trim (s ++ t) = trimStart s ++ t := by
  have hsolid : Solid (trimStart s ++ t) := by
    refine ⟨fun h => ht.ne_nil (List.append_eq_nil_iff.mp h).2, fun c hc => ?_, fun c hc => ?_⟩
    · cases hstart : trimStart s with
      | nil =>
        rw [hstart] at hc
        exact ht.head c hc
      | cons d rest =>
        have hnot := List.head?_dropWhile_not isWhitespace s
        rw [show s.dropWhile isWhitespace = d :: rest from hstart] at hnot
        rw [hstart] at hc
        obtain rfl := Option.some.inj hc
        simpa using hnot
    · rw [List.getLast?_append_of_ne_nil _ ht.ne_nil] at hc
      exact ht.last c hc
  have hsplit : s ++ t = s.takeWhile isWhitespace ++ (trimStart s ++ t) := by
    rw [← List.append_assoc]
    exact congrArg (· ++ t) List.takeWhile_append_dropWhile.symm
  rw [hsplit, trim_blank_append fun c hc => List.mem_takeWhile_imp hc, hsolid.trim_eq]

theorem exists_trim (s : List Char) : ∃ b b', s = b ++ trim s ++ b' ∧ Blank b ∧ Blank b' := by
  refine ⟨s.takeWhile isWhitespace, (trimStart s).rtakeWhile isWhitespace, ?_,
    fun c hc => List.mem_takeWhile_imp hc, fun c hc => List.mem_rtakeWhile_imp hc⟩
  rw [List.append_assoc]
  change s = s.takeWhile isWhitespace ++
    ((trimStart s).rdropWhile isWhitespace ++ (trimStart s).rtakeWhile isWhitespace)
  rw [List.rdropWhile_append_rtakeWhile]
  exact List.takeWhile_append_dropWhile.symm

theorem count_trim {c : Char} (hc : isWhitespace c = false) (s : List Char) :
    (trim s).count c = s.count c := by
  have hblank : ∀ b, Blank b → b.count c = 0 := fun b hb =>
    List.count_eq_zero.mpr fun hmem => Bool.false_ne_true (hc.symm.trans (hb c hmem))
  obtain ⟨b, b', heq, hb, hb'⟩ := exists_trim s
  conv_rhs => rw [heq]
  rw [List.count_append, List.count_append, hblank b hb, hblank b' hb', zero_add, add_zero]

/-- What stands between two characters that are no blanks is kept. -/
theorem mem_trim_of_between {x y : List Char} {c d e : Char} (hx : d ∈ x) (hd : isWhitespace d = false)
    (hy : e ∈ y) (he : isWhitespace e = false) : c ∈ trim (x ++ c :: y) := by
  obtain ⟨b, b', heq, hb, hb'⟩ := exists_trim (x ++ c :: y)
  rw [List.append_assoc] at heq
  have hnotBack : e ∉ b' := fun hmem => Bool.false_ne_true (he.symm.trans (hb' e hmem))
  rcases List.append_eq_append_iff.mp heq with ⟨front, rfl, -⟩ | ⟨front, rfl, hback⟩
  · -- All of the first part would be blank.
    exact absurd (hb d (List.mem_append_left _ hx)) (by rw [hd]; exact Bool.false_ne_true)
  · rcases List.append_eq_append_iff.mp hback with ⟨tail, -, rfl⟩ | ⟨tail, htrim, hrest⟩
    · exact absurd (List.mem_append_right _ (List.mem_cons_of_mem _ hy)) hnotBack
    · cases tail with
      | nil =>
        have hback : b' = c :: y := hrest.symm
        exact absurd (hback ▸ List.mem_cons_of_mem _ hy) hnotBack
      | cons c' tail =>
        obtain ⟨rfl, -⟩ := List.cons.inj hrest
        rw [htrim]
        exact List.mem_append_right _ List.mem_cons_self

/-! ## The first delimiter -/

theorem splitOnce_eq_none {c : Char} {s : List Char} : splitOnce c s = none ↔ c ∉ s := by
  induction s with
  | nil => simp [splitOnce]
  | cons d s ih =>
    by_cases hd : d = c
    · simp [splitOnce, hd]
    · simp [splitOnce, hd, ih, Ne.symm hd]

end JavaAnalyzer.Text
