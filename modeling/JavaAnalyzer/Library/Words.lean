import JavaAnalyzer.Library.TextTrim

/-! # Words of a text

The words between blanks, the text with single spaces between them, and the first place of a longer separator. A
character that is no blank stands in one word, which is what a reader by words sees of a text (`words_around`). -/

namespace JavaAnalyzer.Words
set_option autoImplicit false
open Text

/-- `str::split_whitespace` -/
def words (s : List Char) : List (List Char) :=
  (s.splitOnP isWhitespace).filter (· ≠ [])

/-- The words with single spaces between them. -/
def collapse (s : List Char) : List Char :=
  [' '].intercalate (words s)

/-! ## Words and blanks -/

theorem words_nil : words [] = [] := rfl

theorem words_append_blank_cons (x : List Char) {c : Char} (hc : isWhitespace c = true) (y : List Char) :
    words (x ++ c :: y) = words x ++ words y := by
  rw [words, List.splitOnP_append_cons _ _ hc, List.filter_append, words, words]

theorem words_of_free {s : List Char} (hne : s ≠ []) (h : ∀ c ∈ s, isWhitespace c = false) : words s = [s] := by
  rw [words, List.splitOnP_eq_singleton h, List.filter_cons_of_pos (by simpa using hne), List.filter_nil]

theorem words_blank_append {b : List Char} (hb : Blank b) (y : List Char) : words (b ++ y) = words y := by
  induction b with
  | nil => rfl
  | cons c b ih =>
    have hrest : Blank b := fun d hd => hb d (List.mem_cons_of_mem _ hd)
    have hstep := words_append_blank_cons [] (hb c List.mem_cons_self) (b ++ y)
    rw [List.nil_append, words_nil, List.nil_append] at hstep
    rw [List.cons_append, hstep, ih hrest]

theorem words_of_blank {b : List Char} (hb : Blank b) : words b = [] := by
  rw [← List.append_nil b, words_blank_append hb, words_nil]

/-- Blanks between two texts keep their words apart. -/
theorem words_append_gap (x : List Char) {b : List Char} (hb : Blank b) (hne : b ≠ []) (y : List Char) :
    words (x ++ (b ++ y)) = words x ++ words y := by
  obtain ⟨c, b, rfl⟩ := List.exists_cons_of_ne_nil hne
  rw [List.cons_append, words_append_blank_cons x (hb c List.mem_cons_self),
    words_blank_append fun d hd => hb d (List.mem_cons_of_mem _ hd)]

theorem words_append_blank (x : List Char) {b : List Char} (hb : Blank b) : words (x ++ b) = words x := by
  cases b with
  | nil => rw [List.append_nil]
  | cons c b =>
    rw [words_append_blank_cons x (hb c List.mem_cons_self),
      words_of_blank fun d hd => hb d (List.mem_cons_of_mem _ hd), List.append_nil]

theorem words_append_of_head (x : List Char) {y : List Char} (h : ∀ c ∈ y.head?, isWhitespace c = true) :
    words (x ++ y) = words x ++ words y := by
  cases y with
  | nil => rw [List.append_nil, words_nil, List.append_nil]
  | cons c y =>
    have hskip := words_append_blank_cons [] (h c rfl) y
    rw [List.nil_append, words_nil, List.nil_append] at hskip
    rw [words_append_blank_cons x (h c rfl), hskip]

theorem words_trim (s : List Char) : words (trim s) = words s := by
  obtain ⟨b, b', heq, hb, hb'⟩ := exists_trim s
  conv_rhs => rw [heq]
  rw [List.append_assoc, words_blank_append hb, words_append_blank _ hb']

/-- The words hold all characters that are no blanks, and nothing else. -/
theorem flatten_words (s : List Char) : (words s).flatten = s.filter fun c => !isWhitespace c := by
  induction hlen : s.length using Nat.strong_induction_on generalizing s with
  | _ n ih =>
    by_cases hs : ∀ c ∈ s, isWhitespace c = false
    · rw [List.filter_eq_self.mpr fun c hc => by rw [hs c hc]; rfl]
      by_cases hne : s = []
      · rw [hne]
        rfl
      · rw [words_of_free hne hs, List.flatten_singleton]
    · push Not at hs
      obtain ⟨c, hc, hblank⟩ := hs
      obtain ⟨x, y, rfl⟩ := List.append_of_mem hc
      have hc' : isWhitespace c = true := by simpa using hblank
      rw [List.length_append, List.length_cons] at hlen
      rw [words_append_blank_cons x hc', List.flatten_append, ih x.length (by omega) x rfl,
        ih y.length (by omega) y rfl, List.filter_append, List.filter_cons_of_neg (by rw [hc']; decide)]

theorem free_of_mem_words {s w : List Char} (h : w ∈ words s) : w ≠ [] ∧ ∀ c ∈ w, isWhitespace c = false := by
  refine ⟨by simpa using (List.mem_filter.mp h).2, fun c hc => ?_⟩
  have hmem : c ∈ (words s).flatten := List.mem_flatten_of_mem h hc
  rw [flatten_words, List.mem_filter] at hmem
  simpa using hmem.2

theorem exists_mem_words_iff {s : List Char} {c : Char} (hc : isWhitespace c = false) :
    (∃ w ∈ words s, c ∈ w) ↔ c ∈ s := by
  rw [← List.mem_flatten, flatten_words, List.mem_filter, hc]
  exact and_iff_left rfl

/-! ## The word around a character -/

/-- No word, or one. -/
def wordOf (s : List Char) : List (List Char) :=
  if s = [] then [] else [s]

theorem words_of_wordOf {s : List Char} (h : ∀ c ∈ s, isWhitespace c = false) : words s = wordOf s := by
  by_cases hne : s = []
  · rw [hne]
    rfl
  · rw [words_of_free hne h, wordOf, if_neg hne]

theorem words_front (y : List Char) : words y = wordOf (y.takeWhile fun c => !isWhitespace c) ++
    words (y.dropWhile fun c => !isWhitespace c) := by
  have hfree : ∀ c ∈ y.takeWhile fun c => !isWhitespace c, isWhitespace c = false := fun c hc => by
    simpa using List.mem_takeWhile_imp hc
  conv_lhs => rw [← List.takeWhile_append_dropWhile (p := fun c => !isWhitespace c) (l := y)]
  cases hrest : y.dropWhile fun c => !isWhitespace c with
  | nil => rw [List.append_nil, words_nil, List.append_nil, words_of_wordOf hfree]
  | cons c rest =>
    have hc : isWhitespace c = true := by
      have hhead := List.head?_dropWhile_not (fun c => !isWhitespace c) y
      rw [hrest] at hhead
      simpa using hhead
    have hskip := words_append_blank_cons [] hc rest
    rw [List.nil_append, words_nil, List.nil_append] at hskip
    rw [words_append_blank_cons _ hc, words_of_wordOf hfree, hskip]

theorem words_cons_of_free {c : Char} (hc : isWhitespace c = false) (y : List Char) :
    words (c :: y) = (c :: y.takeWhile fun c => !isWhitespace c) :: words (y.dropWhile fun c => !isWhitespace c) := by
  rw [words_front, List.takeWhile_cons_of_pos (by simpa using hc), List.dropWhile_cons_of_pos (by simpa using hc)]
  rfl

/-- The words behind a place, whether a word goes on there or not. -/
theorem words_back (x : List Char) : ∃ W u, (∀ c ∈ u, isWhitespace c = false) ∧ words x = W ++ wordOf u ∧
    ∀ y, words (x ++ y) = W ++ words (u ++ y) := by
  have hfree : ∀ c ∈ x.rtakeWhile fun c => !isWhitespace c, isWhitespace c = false := fun c hc => by
    simpa using List.mem_rtakeWhile_imp hc
  have hx : x = (x.rdropWhile fun c => !isWhitespace c) ++ x.rtakeWhile fun c => !isWhitespace c :=
    List.rdropWhile_append_rtakeWhile.symm
  rcases List.eq_nil_or_concat (x.rdropWhile fun c => !isWhitespace c) with hnil | ⟨front, d, hfront⟩
  · rw [hnil, List.nil_append] at hx
    refine ⟨[], x, hx ▸ hfree, ?_, fun y => (List.nil_append _).symm⟩
    rw [words_of_wordOf (hx ▸ hfree), List.nil_append]
  · have hd : isWhitespace d = true := by
      have hlast := List.rdropWhile_last_not (fun c => !isWhitespace c) x (by rw [hfront]; simp)
      simpa [hfront] using hlast
    refine ⟨words front, x.rtakeWhile fun c => !isWhitespace c, hfree, ?_, fun y => ?_⟩
    · conv_lhs => rw [hx, hfront, List.concat_append, words_append_blank_cons _ hd, words_of_wordOf hfree]
    · conv_lhs => rw [hx, hfront, List.concat_append, List.append_assoc, List.cons_append,
        words_append_blank_cons _ hd]

/-- A character that is no blank stands in one word; what is left of it ends the words before, and what is right of it
begins those behind. -/
theorem words_around (x : List Char) {c : Char} (hc : isWhitespace c = false) (y : List Char) :
    ∃ W u v W', words (x ++ c :: y) = W ++ (u ++ c :: v) :: W' ∧ words x = W ++ wordOf u ∧
      words y = wordOf v ++ W' := by
  obtain ⟨W, u, hfree, hx, hy⟩ := words_back x
  refine ⟨W, u, y.takeWhile fun c => !isWhitespace c, words (y.dropWhile fun c => !isWhitespace c), ?_, hx,
    words_front y⟩
  have hkeep : ∀ d ∈ u, (!isWhitespace d) = true := fun d hd => by rw [hfree d hd]; rfl
  rw [hy, words_front, List.takeWhile_append_of_pos hkeep, List.dropWhile_append_of_pos hkeep,
    List.takeWhile_cons_of_pos (by simpa using hc), List.dropWhile_cons_of_pos (by simpa using hc), wordOf,
    if_neg (by simp)]
  rfl

/-- The first word that a reader takes, when it takes none of those before the character and each with it. -/
theorem find_words_around {take : List Char → Bool} (x : List Char) {c : Char} (hc : isWhitespace c = false)
    (y : List Char) (hx : ∀ w ∈ words x, take w = false) (htake : ∀ w, c ∈ w → take w = true) :
    ∃ w, (words (x ++ c :: y)).find? take = some w ∧ c ∈ w := by
  obtain ⟨W, u, v, W', hwords, hfront, -⟩ := words_around x hc y
  refine ⟨u ++ c :: v, ?_, by simp⟩
  rw [hwords, List.find?_append, List.find?_eq_none.mpr fun w hw => by
    rw [hx w (by rw [hfront]; exact List.mem_append_left _ hw)]
    exact Bool.false_ne_true]
  rw [Option.none_or, List.find?_cons_of_pos (htake _ (by simp))]

/-! ## Collapsed texts -/

theorem intercalate_append {α : Type} {sep : List α} {A B : List (List α)} (hA : A ≠ []) (hB : B ≠ []) :
    sep.intercalate (A ++ B) = sep.intercalate A ++ sep ++ sep.intercalate B := by
  induction A with
  | nil => exact absurd rfl hA
  | cons a A ih =>
    cases A with
    | nil => rw [List.singleton_append, List.intercalate_cons_of_ne_nil hB, List.intercalate_singleton]
    | cons a' A =>
      rw [List.cons_append, List.intercalate_cons_of_ne_nil (by simp), ih (List.cons_ne_nil _ _),
        List.intercalate_cons_of_ne_nil (List.cons_ne_nil _ _)]
      simp

theorem words_intercalate {ws : List (List Char)} (h : ∀ w ∈ ws, w ≠ [] ∧ ∀ c ∈ w, isWhitespace c = false) :
    words ([' '].intercalate ws) = ws := by
  induction ws with
  | nil => rfl
  | cons w ws ih =>
    have hw := h w List.mem_cons_self
    have hrest := ih fun w' hw' => h w' (List.mem_cons_of_mem _ hw')
    cases ws with
    | nil => rw [List.intercalate_singleton, words_of_free hw.1 hw.2]
    | cons w' ws =>
      rw [List.intercalate_cons_of_ne_nil (List.cons_ne_nil _ _), List.append_assoc, List.singleton_append,
        words_append_blank_cons _ (by decide), words_of_free hw.1 hw.2, hrest]
      rfl

theorem words_collapse (s : List Char) : words (collapse s) = words s :=
  words_intercalate fun _ hw => free_of_mem_words hw

theorem blank_of_words_eq_nil {s : List Char} (h : words s = []) : Blank s := by
  intro c hc
  by_contra hcon
  obtain ⟨w, hw, -⟩ := (exists_mem_words_iff (by simpa using hcon)).mpr hc
  rw [h] at hw
  exact absurd hw List.not_mem_nil

/-- A text of one word is that word with blanks around it. -/
theorem words_eq_singleton_iff {s t : List Char} (hne : t ≠ []) (ht : ∀ c ∈ t, isWhitespace c = false) :
    words s = [t] ↔ trim s = t := by
  constructor
  · intro h
    rw [← words_trim, words_front] at h
    have hsplit := List.takeWhile_append_dropWhile (p := fun c => !isWhitespace c) (l := trim s)
    cases hfront : (trim s).takeWhile fun c => !isWhitespace c with
    | nil =>
      rw [hfront, List.nil_append] at hsplit
      rw [hfront, hsplit] at h
      cases hs : trim s with
      | nil =>
        rw [hs] at h
        exact absurd h (List.cons_ne_nil t []).symm
      | cons c rest =>
        have hstart := trimStart_trim s
        rw [hs, List.takeWhile_cons] at hfront
        have hc : isWhitespace c = true := by
          by_contra hcon
          rw [if_pos (by simpa using hcon)] at hfront
          exact List.cons_ne_nil _ _ hfront
        rw [hs, trimStart, List.dropWhile_cons_of_pos hc] at hstart
        have hlen := (List.dropWhile_suffix isWhitespace (l := rest)).length_le
        rw [hstart, List.length_cons] at hlen
        omega
    | cons c front =>
      rw [hfront, wordOf, if_neg (List.cons_ne_nil _ _), List.singleton_append, List.cons.injEq] at h
      obtain ⟨hword, hrest⟩ := h
      have hblank := blank_of_words_eq_nil hrest
      rw [hfront] at hsplit
      rw [← trim_trim, ← hsplit, trim_append_blank _ hblank, hword]
      exact (Solid.mk hne (fun c hc => ht c (List.mem_of_mem_head? hc)) fun c hc =>
        ht c (List.mem_of_mem_getLast? hc)).trim_eq
  · rintro rfl
    rw [← words_trim, words_of_free hne ht]

theorem collapse_eq_iff {s t : List Char} (hne : t ≠ []) (ht : ∀ c ∈ t, isWhitespace c = false) :
    collapse s = t ↔ trim s = t := by
  rw [← words_eq_singleton_iff hne ht]
  constructor
  · intro h
    rw [← words_collapse, h, words_of_free hne ht]
  · intro h
    rw [collapse, h, List.intercalate_singleton]

theorem collapse_words_before (W : List (List Char)) (u w : List Char) : ∃ b, Blank b ∧
    [' '].intercalate (W ++ [u ++ w]) = [' '].intercalate (W ++ wordOf u) ++ (b ++ w) := by
  have hspace : Blank [' '] := fun c hc => by rw [List.mem_singleton.mp hc]; decide
  unfold wordOf
  split
  · rename_i hu
    rw [hu, List.nil_append, List.append_nil]
    by_cases hW : W = []
    · exact ⟨[], blank_nil, by rw [hW, List.nil_append, List.intercalate_singleton]; rfl⟩
    · exact ⟨[' '], hspace, by
        rw [intercalate_append hW (List.cons_ne_nil _ _), List.intercalate_singleton, List.append_assoc]⟩
  · refine ⟨[], blank_nil, ?_⟩
    rw [List.nil_append]
    by_cases hW : W = []
    · rw [hW, List.nil_append, List.nil_append, List.intercalate_singleton, List.intercalate_singleton]
    · rw [intercalate_append hW (List.cons_ne_nil _ _), intercalate_append hW (List.cons_ne_nil _ _),
        List.intercalate_singleton, List.intercalate_singleton, List.append_assoc _ u]

theorem collapse_words_after (w v : List Char) (W : List (List Char)) : ∃ b, Blank b ∧
    [' '].intercalate ((w ++ v) :: W) = w ++ (b ++ [' '].intercalate (wordOf v ++ W)) := by
  have hspace : Blank [' '] := fun c hc => by rw [List.mem_singleton.mp hc]; decide
  unfold wordOf
  split
  · rename_i hv
    rw [hv, List.append_nil, List.nil_append]
    by_cases hW : W = []
    · exact ⟨[], blank_nil, by rw [hW]; simp⟩
    · exact ⟨[' '], hspace, by rw [List.intercalate_cons_of_ne_nil hW, List.append_assoc]⟩
  · refine ⟨[], blank_nil, ?_⟩
    rw [List.nil_append, List.singleton_append]
    by_cases hW : W = []
    · rw [hW, List.intercalate_singleton, List.intercalate_singleton]
    · rw [List.intercalate_cons_of_ne_nil hW, List.intercalate_cons_of_ne_nil hW]
      simp only [List.append_assoc]

/-- Collapsing a text collapses what is on both sides of a character. -/
theorem collapse_around (x : List Char) {c : Char} (hc : isWhitespace c = false) (y : List Char) :
    ∃ b b', Blank b ∧ Blank b' ∧ collapse (x ++ c :: y) = collapse x ++ b ++ c :: (b' ++ collapse y) := by
  obtain ⟨W, u, v, W', hwords, hx, hy⟩ := words_around x hc y
  obtain ⟨b', hb', hafter⟩ := collapse_words_after (u ++ [c]) v W'
  obtain ⟨b, hb, hbefore⟩ := collapse_words_before W u (c :: (b' ++ collapse y))
  refine ⟨b, b', hb, hb', ?_⟩
  have hword : (u ++ c :: v) :: W' = ((u ++ [c]) ++ v) :: W' := by simp
  have hback : [' '].intercalate ((u ++ c :: v) :: W') = u ++ c :: (b' ++ collapse y) := by
    rw [hword, hafter, collapse, hy]
    simp
  rw [collapse, hwords, collapse, hx, List.append_assoc, ← hbefore]
  by_cases hW : W = []
  · rw [hW, List.nil_append, List.nil_append, hback, List.intercalate_singleton]
  · rw [intercalate_append hW (List.cons_ne_nil _ _), hback, intercalate_append hW (List.cons_ne_nil _ _),
      List.intercalate_singleton]

theorem splitOn_append_cons {sep : Char} {x : List Char} (h : sep ∉ x) (y : List Char) :
    (x ++ sep :: y).splitOn sep = x :: y.splitOn sep := by
  rw [List.splitOn_eq_splitOnP, List.splitOn_eq_splitOnP]
  refine List.splitOnP_append_cons_of_forall_mem (fun c hc => ?_) sep (by simp) y
  simpa using fun heq : c = sep => h (heq ▸ hc)

theorem splitOn_of_not_mem {sep : Char} {s : List Char} (h : sep ∉ s) : s.splitOn sep = [s] := by
  rw [List.splitOn_eq_splitOnP]
  exact List.splitOnP_eq_singleton fun c hc => by simpa using fun heq : c = sep => h (heq ▸ hc)

theorem mem_collapse_iff {s : List Char} {c : Char} (hc : isWhitespace c = false) : c ∈ collapse s ↔ c ∈ s := by
  rw [← exists_mem_words_iff hc, words_collapse, exists_mem_words_iff hc]

theorem solid_of_free {s : List Char} (hne : s ≠ []) (h : ∀ c ∈ s, isWhitespace c = false) : Solid s :=
  ⟨hne, fun c hc => h c (List.mem_of_mem_head? hc), fun c hc => h c (List.mem_of_mem_getLast? hc)⟩

theorem solid_intercalate {ws : List (List Char)} (hne : ws ≠ [])
    (h : ∀ w ∈ ws, w ≠ [] ∧ ∀ c ∈ w, isWhitespace c = false) : Solid ([' '].intercalate ws) := by
  induction ws with
  | nil => exact absurd rfl hne
  | cons w ws ih =>
    have hw := h w List.mem_cons_self
    cases ws with
    | nil =>
      rw [List.intercalate_singleton]
      exact solid_of_free hw.1 hw.2
    | cons w' ws =>
      rw [List.intercalate_cons_of_ne_nil (List.cons_ne_nil _ _)]
      exact (solid_of_free hw.1 hw.2).append _
        (ih (List.cons_ne_nil _ _) fun w' hw' => h w' (List.mem_cons_of_mem _ hw'))

theorem trim_collapse (s : List Char) : trim (collapse s) = collapse s := by
  by_cases hne : words s = []
  · rw [collapse, hne]
    rfl
  · exact (solid_intercalate hne fun _ hw => free_of_mem_words hw).trim_eq

theorem pieces_blank_append {sep : Char} {b : List Char} (hb : Blank b) (hsep : sep ∉ b) (z : List Char) :
    ((b ++ z).splitOn sep).map trim = (z.splitOn sep).map trim := by
  by_cases hmem : sep ∈ z
  · obtain ⟨x, y, rfl, hx⟩ := List.eq_append_cons_of_mem hmem
    rw [← List.append_assoc, splitOn_append_cons (by rw [List.mem_append, not_or]; exact ⟨hsep, hx⟩),
      splitOn_append_cons hx, List.map_cons, List.map_cons, trim_blank_append hb]
  · rw [splitOn_of_not_mem (by rw [List.mem_append, not_or]; exact ⟨hsep, hmem⟩), splitOn_of_not_mem hmem,
      List.map_singleton, List.map_singleton, trim_blank_append hb]

/-- The pieces of a collapsed text are the collapsed pieces. -/
theorem pieces_collapse {sep : Char} (hsep : isWhitespace sep = false) (s : List Char) :
    ((collapse s).splitOn sep).map trim = (s.splitOn sep).map collapse := by
  induction hlen : s.length using Nat.strong_induction_on generalizing s with
  | _ n ih =>
    have hfree : ∀ b, Blank b → sep ∉ b := fun b hb hmem => by
      rw [hb sep hmem] at hsep
      cases hsep
    by_cases hmem : sep ∈ s
    · obtain ⟨x, y, rfl, hx⟩ := List.eq_append_cons_of_mem hmem
      obtain ⟨b, b', hb, hb', heq⟩ := collapse_around x hsep y
      have hfront : sep ∉ collapse x ++ b := by
        rw [List.mem_append, not_or, mem_collapse_iff hsep]
        exact ⟨hx, hfree b hb⟩
      rw [List.length_append, List.length_cons] at hlen
      rw [heq, splitOn_append_cons hfront, splitOn_append_cons hx, List.map_cons, List.map_cons,
        trim_append_blank _ hb, trim_collapse, pieces_blank_append hb' (hfree b' hb'), ih y.length (by omega) y rfl]
    · rw [splitOn_of_not_mem hmem, splitOn_of_not_mem (by rwa [mem_collapse_iff hsep]), List.map_singleton,
        List.map_singleton, trim_collapse]

/-! ## The first place of a separator -/

/-- `str::split_once` -/
def splitOnceText (sep : List Char) : List Char → Option (List Char × List Char)
  | [] => if sep = [] then some ([], []) else none
  | c :: s =>
    if sep.isPrefixOf (c :: s) then some ([], (c :: s).drop sep.length)
    else (splitOnceText sep s).map fun parts => (c :: parts.1, parts.2)

theorem splitOnceText_eq {sep s x y : List Char} (h : splitOnceText sep s = some (x, y)) : s = x ++ (sep ++ y) := by
  induction s generalizing x with
  | nil =>
    rw [splitOnceText] at h
    split at h
    · rename_i hsep
      obtain ⟨rfl, rfl⟩ := Prod.mk.inj (Option.some.inj h)
      rw [hsep]
      rfl
    · cases h
  | cons c s ih =>
    rw [splitOnceText] at h
    split at h
    · rename_i hfront
      obtain ⟨rest, hrest⟩ := List.isPrefixOf_iff_prefix.mp hfront
      obtain ⟨rfl, rfl⟩ := Prod.mk.inj (Option.some.inj h)
      rw [List.nil_append, ← hrest, List.drop_left]
    · obtain ⟨⟨x', y'⟩, hparts, heq⟩ := Option.map_eq_some_iff.mp h
      obtain ⟨rfl, rfl⟩ := Prod.mk.inj heq
      rw [ih hparts, List.cons_append]

theorem splitOnceText_append {d : Char} {sep x : List Char} (hx : d ∉ x) (y : List Char) :
    splitOnceText (d :: sep) (x ++ (d :: sep ++ y)) = some (x, y) := by
  induction x with
  | nil =>
    have hfront : (d :: sep).isPrefixOf (d :: sep ++ y) = true :=
      List.isPrefixOf_iff_prefix.mpr (List.prefix_append _ _)
    rw [List.nil_append, List.cons_append, splitOnceText, ← List.cons_append, if_pos hfront, List.drop_left]
  | cons c x ih =>
    rw [List.mem_cons, not_or] at hx
    have hfront : ¬(d :: sep).isPrefixOf (c :: (x ++ (d :: sep ++ y))) = true := fun h => by
      obtain ⟨rest, hrest⟩ := List.isPrefixOf_iff_prefix.mp h
      exact hx.1 (List.cons.inj hrest).1
    rw [List.cons_append, splitOnceText, if_neg hfront, ih hx.2, Option.map_some]

theorem splitOnceText_of_not_mem {d : Char} {sep s : List Char} (h : d ∉ s) : splitOnceText (d :: sep) s = none := by
  cases hparts : splitOnceText (d :: sep) s with
  | none => rfl
  | some parts =>
    exact absurd (by rw [splitOnceText_eq (y := parts.2) (x := parts.1) hparts]; simp) h

end JavaAnalyzer.Words
