import Mathlib.Algebra.BigOperators.Group.List.Basic
import JavaAnalyzer.Library.TextLines
import JavaAnalyzer.Library.TextTrim

/-! # Texts split by a scan

A scanner goes over a text and cuts it at some of the separators, as its state tells it. Chunks joined by the separator
come back from such a split exactly when the scanner cuts where they were joined and nowhere else, and it is enough to
look at the pieces without the blanks around them. -/

namespace JavaAnalyzer.ScannedSplit
set_option autoImplicit false
open Text TextLines

/-- How the scanner goes on behind a character, and at which characters it cuts. -/
structure Scanner (σ : Type) where
  step : σ → Char → σ
  cuts : σ → Char → Bool

variable {σ : Type} (scan : Scanner σ)

namespace Scanner

def run (s : σ) (text : List Char) : σ :=
  text.foldl scan.step s

def pieces : σ → List Char → List (List Char)
  | _, [] => [[]]
  | s, c :: text =>
    if scan.cuts s c then [] :: pieces (scan.step s c) text else prepend c (pieces (scan.step s c) text)

/-- The number of cuts. -/
def count : σ → List Char → ℕ
  | _, [] => 0
  | s, c :: text => (if scan.cuts s c then 1 else 0) + count (scan.step s c) text

/-- The text is not cut. -/
def Uncut : σ → List Char → Prop
  | _, [] => True
  | s, c :: text => scan.cuts s c = false ∧ Uncut (scan.step s c) text

/-- The chunks joined by the separator are cut where they are joined and nowhere else. -/
def CutsBetween (sep : Char) : σ → List (List Char) → Prop
  | _, [] => True
  | s, [chunk] => scan.Uncut s chunk
  | s, chunk :: next :: rest =>
    scan.Uncut s chunk ∧ scan.cuts (scan.run s chunk) sep = true ∧
      CutsBetween sep (scan.step (scan.run s chunk) sep) (next :: rest)

end Scanner

/-! ## Pieces and chunks -/

section Pieces

variable {scan} {s : σ} {sep : Char} {chunk text : List Char}

theorem exists_pieces (scan : Scanner σ) (s : σ) (text : List Char) :
    ∃ piece rest, scan.pieces s text = piece :: rest := by
  cases text with
  | nil => exact ⟨[], [], rfl⟩
  | cons c text =>
    rw [Scanner.pieces]
    split_ifs
    · exact ⟨_, _, rfl⟩
    · cases scan.pieces (scan.step s c) text with
      | nil => exact ⟨_, _, rfl⟩
      | cons => exact ⟨_, _, rfl⟩

theorem run_append (scan : Scanner σ) (s : σ) (front back : List Char) :
    scan.run s (front ++ back) = scan.run (scan.run s front) back :=
  List.foldl_append

/-- What is not cut stays in one piece with what follows. -/
theorem pieces_append (h : scan.Uncut s chunk) (back : List Char) {piece : List Char} {rest : List (List Char)}
    (hback : scan.pieces (scan.run s chunk) back = piece :: rest) :
    scan.pieces s (chunk ++ back) = (chunk ++ piece) :: rest := by
  induction chunk generalizing s with
  | nil => exact hback
  | cons c chunk ih =>
    rw [List.cons_append, Scanner.pieces, if_neg (by rw [h.1]; exact Bool.false_ne_true), ih h.2 hback]
    rfl

theorem pieces_uncut (h : scan.Uncut s chunk) : scan.pieces s chunk = [chunk] := by
  have hpieces := pieces_append h [] (rfl : scan.pieces (scan.run s chunk) [] = [[]])
  rwa [List.append_nil] at hpieces

theorem count_uncut (h : scan.Uncut s chunk) (back : List Char) :
    scan.count s (chunk ++ back) = scan.count (scan.run s chunk) back := by
  induction chunk generalizing s with
  | nil => rfl
  | cons c chunk ih =>
    rw [List.cons_append, Scanner.count, if_neg (by rw [h.1]; exact Bool.false_ne_true), Nat.zero_add]
    exact ih h.2

theorem Uncut.of_front {front : List Char} (h : scan.Uncut s chunk) (hfront : front <+: chunk) :
    scan.Uncut s front := by
  induction front generalizing s chunk with
  | nil => trivial
  | cons c front ih =>
    obtain ⟨back, rfl⟩ := hfront
    exact ⟨h.1, ih h.2 ⟨back, rfl⟩⟩

/-- Chunks that are cut where they are joined come back. -/
theorem pieces_intercalate {chunks : List (List Char)} (hne : chunks ≠ []) (h : scan.CutsBetween sep s chunks) :
    scan.pieces s ([sep].intercalate chunks) = chunks := by
  induction chunks generalizing s with
  | nil => exact absurd rfl hne
  | cons chunk rest ih =>
    cases rest with
    | nil =>
      rw [List.intercalate_singleton]
      exact pieces_uncut h
    | cons next rest =>
      obtain ⟨huncut, hcut, hrest⟩ := h
      have hback : scan.pieces (scan.run s chunk) ([sep] ++ [sep].intercalate (next :: rest)) =
          [] :: next :: rest := by
        rw [List.singleton_append, Scanner.pieces, if_pos hcut, ih (List.cons_ne_nil _ _) hrest]
      rw [List.intercalate_cons_cons, List.append_assoc, pieces_append huncut _ hback, List.append_nil]

/-- Joined again, the pieces are the text. -/
theorem intercalate_pieces (hsep : ∀ s c, scan.cuts s c = true → c = sep) (s : σ) (text : List Char) :
    [sep].intercalate (scan.pieces s text) = text := by
  induction text generalizing s with
  | nil => rfl
  | cons c text ih =>
    have hrest := ih (scan.step s c)
    obtain ⟨piece, rest, hpieces⟩ := exists_pieces scan (scan.step s c) text
    rw [Scanner.pieces]
    split_ifs with hcut
    · obtain rfl := hsep s c hcut
      rw [hpieces] at hrest
      rw [hpieces, List.intercalate_cons_cons, hrest]
      rfl
    · rw [hpieces] at hrest ⊢
      cases rest with
      | nil =>
        rw [List.intercalate_singleton] at hrest
        rw [prepend, List.intercalate_singleton, hrest]
      | cons next rest =>
        rw [List.intercalate_cons_cons] at hrest
        rw [prepend, List.intercalate_cons_cons, List.cons_append, List.cons_append, hrest]

theorem prepend_eq_cons {c d : Char} {piece : List Char} {pieces rest : List (List Char)} (hne : pieces ≠ [])
    (h : prepend c pieces = (d :: piece) :: rest) : c = d ∧ pieces = piece :: rest := by
  obtain ⟨first, others, rfl⟩ := List.exists_cons_of_ne_nil hne
  rw [prepend, List.cons.injEq, List.cons.injEq] at h
  exact ⟨h.1.1, congrArg₂ List.cons h.1.2 h.2⟩

theorem prepend_ne_nil_cons {c : Char} {pieces rest : List (List Char)} : prepend c pieces ≠ [] :: rest := by
  cases pieces with
  | nil => exact fun h => absurd (List.cons.inj h).1 (List.cons_ne_nil _ _)
  | cons => exact fun h => absurd (List.cons.inj h).1 (List.cons_ne_nil _ _)

theorem pieces_ne_nil (scan : Scanner σ) (s : σ) (text : List Char) : scan.pieces s text ≠ [] := by
  obtain ⟨piece, rest, hpieces⟩ := exists_pieces scan s text
  rw [hpieces]
  exact List.cons_ne_nil _ _

theorem uncut_of_pieces (h : scan.pieces s chunk = [chunk]) : scan.Uncut s chunk := by
  induction chunk generalizing s with
  | nil => trivial
  | cons c chunk ih =>
    rw [Scanner.pieces] at h
    split_ifs at h with hcut
    · exact absurd (List.cons.inj h).1.symm (List.cons_ne_nil _ _)
    · exact ⟨by simpa using hcut, ih (prepend_eq_cons (pieces_ne_nil _ _ _) h).2⟩

/-- A chunk that is the first piece is not cut, and is cut off where it ends. -/
theorem first_of_pieces {back : List Char} {more : List (List Char)}
    (h : scan.pieces s (chunk ++ sep :: back) = chunk :: more) :
    scan.Uncut s chunk ∧ scan.cuts (scan.run s chunk) sep = true ∧
      scan.pieces (scan.step (scan.run s chunk) sep) back = more := by
  induction chunk generalizing s with
  | nil =>
    rw [List.nil_append, Scanner.pieces] at h
    split_ifs at h with hcut
    · exact ⟨trivial, hcut, (List.cons.inj h).2⟩
    · exact absurd h prepend_ne_nil_cons
  | cons c chunk ih =>
    rw [List.cons_append, Scanner.pieces] at h
    split_ifs at h with hcut
    · exact absurd (List.cons.inj h).1.symm (List.cons_ne_nil _ _)
    · obtain ⟨huncut, hrest⟩ := ih (prepend_eq_cons (pieces_ne_nil _ _ _) h).2
      exact ⟨⟨by simpa using hcut, huncut⟩, hrest⟩

/-- Chunks come back exactly when they are cut where they are joined and nowhere else. -/
theorem pieces_intercalate_iff {chunks : List (List Char)} (hne : chunks ≠ []) :
    scan.pieces s ([sep].intercalate chunks) = chunks ↔ scan.CutsBetween sep s chunks := by
  refine ⟨fun h => ?_, pieces_intercalate hne⟩
  induction chunks generalizing s with
  | nil => exact absurd rfl hne
  | cons chunk rest ih =>
    cases rest with
    | nil =>
      rw [List.intercalate_singleton] at h
      exact uncut_of_pieces h
    | cons next rest =>
      rw [List.intercalate_cons_cons, List.append_assoc, List.singleton_append] at h
      obtain ⟨huncut, hcut, hrest⟩ := first_of_pieces h
      exact ⟨huncut, hcut, ih (List.cons_ne_nil _ _) hrest⟩

/-- The chunks before a place in one of them, and that one up to the place, begin the text. -/
theorem prefix_intercalate (sep : Char) {chunks : List (List Char)} {i : ℕ} {front back : List Char}
    (h : chunks[i]? = some (front ++ back)) :
    (chunks.take i).flatMap (· ++ [sep]) ++ front <+: [sep].intercalate chunks := by
  induction chunks generalizing i with
  | nil => cases h
  | cons chunk rest ih =>
    cases i with
    | zero =>
      obtain rfl : chunk = front ++ back := Option.some.inj h
      cases rest with
      | nil => exact ⟨back, by simp⟩
      | cons next rest => exact ⟨back ++ sep :: [sep].intercalate (next :: rest), by simp [List.intercalate_cons_cons]⟩
    | succ i =>
      cases rest with
      | nil => cases h
      | cons next rest =>
        rw [List.take_succ_cons, List.flatMap_cons, List.intercalate_cons_cons, List.append_assoc,
          List.prefix_append_right_inj]
        exact ih h

/-- Within chunk number `i` there are `i` cuts before. -/
theorem count_intercalate {chunks : List (List Char)} (h : scan.CutsBetween sep s chunks) {i : ℕ}
    {front back : List Char} (hi : chunks[i]? = some (front ++ back)) :
    scan.count s ((chunks.take i).flatMap (· ++ [sep]) ++ front) = i := by
  induction chunks generalizing s i with
  | nil => cases hi
  | cons chunk rest ih =>
    cases i with
    | zero =>
      obtain rfl : chunk = front ++ back := Option.some.inj hi
      have huncut : scan.Uncut s front := by
        cases rest with
        | nil => exact Uncut.of_front h (List.prefix_append _ _)
        | cons => exact Uncut.of_front h.1 (List.prefix_append _ _)
      have hcount := count_uncut huncut []
      rwa [List.append_nil] at hcount
    | succ i =>
      cases rest with
      | nil => cases hi
      | cons next rest =>
        obtain ⟨huncut, hcut, hrest⟩ := h
        have hlater := ih hrest hi
        rw [List.take_succ_cons, List.flatMap_cons, List.append_assoc, List.append_assoc, count_uncut huncut,
          List.singleton_append, Scanner.count, if_pos hcut, hlater, Nat.add_comm]

theorem uncut_iff :
    scan.Uncut s text ↔ ∀ front c back, text = front ++ c :: back → scan.cuts (scan.run s front) c = false := by
  induction text generalizing s with
  | nil => exact iff_of_true trivial fun front c back h => absurd h (List.append_ne_nil_of_right_ne_nil _
      (List.cons_ne_nil _ _)).symm
  | cons d text ih =>
    rw [Scanner.Uncut, ih]
    constructor
    · rintro ⟨hfirst, hrest⟩ front c back h
      cases front with
      | nil =>
        obtain ⟨rfl, rfl⟩ := List.cons.inj h
        exact hfirst
      | cons e front =>
        obtain ⟨rfl, rfl⟩ := List.cons.inj h
        exact hrest front c back rfl
    · intro h
      exact ⟨h [] d text rfl, fun front c back htext => h (d :: front) c back (by rw [htext]; rfl)⟩

/-- States that the scanner does not tell apart. -/
structure Alike (scan : Scanner σ) (R : σ → σ → Prop) : Prop where
  step : ∀ {s t : σ} (c : Char), R s t → R (scan.step s c) (scan.step t c)
  cuts : ∀ {s t : σ} (c : Char), R s t → scan.cuts s c = scan.cuts t c

theorem Alike.run {R : σ → σ → Prop} (h : Alike scan R) {s t : σ} (hst : R s t) (text : List Char) :
    R (scan.run s text) (scan.run t text) := by
  induction text generalizing s t with
  | nil => exact hst
  | cons c text ih => exact ih (h.step c hst)

theorem Alike.uncut {R : σ → σ → Prop} (h : Alike scan R) {s t : σ} (hst : R s t) (text : List Char) :
    scan.Uncut s text ↔ scan.Uncut t text := by
  rw [uncut_iff, uncut_iff]
  exact forall₄_congr fun front c _ _ => by rw [h.cuts c (h.run hst front)]

/-- Where the scanner begins anew behind each cut, each chunk is a matter of its own. -/
theorem cutsBetween_iff {R : σ → σ → Prop} (h : Alike scan R) {start : σ}
    (hreset : ∀ s, scan.cuts s sep = true → R (scan.step s sep) start) {chunks : List (List Char)} (hs : R s start) :
    scan.CutsBetween sep s chunks ↔ (∀ chunk ∈ chunks.dropLast, scan.cuts (scan.run start chunk) sep = true) ∧
      ∀ chunk ∈ chunks, scan.Uncut start chunk := by
  induction chunks generalizing s with
  | nil => exact iff_of_true trivial ⟨fun _ hc => absurd hc List.not_mem_nil, fun _ hc => absurd hc List.not_mem_nil⟩
  | cons chunk rest ih =>
    have hcuts := h.cuts sep (h.run hs chunk)
    cases rest with
    | nil => simp [Scanner.CutsBetween, h.uncut hs]
    | cons next rest =>
      rw [Scanner.CutsBetween, h.uncut hs, hcuts, List.dropLast_cons_cons, List.forall_mem_cons, List.forall_mem_cons]
      constructor
      · rintro ⟨huncut, hcut, hrest⟩
        obtain ⟨hclosed, hall⟩ := (ih (hreset _ (hcuts.trans hcut))).mp hrest
        exact ⟨⟨hcut, hclosed⟩, huncut, hall⟩
      · rintro ⟨⟨hcut, hclosed⟩, huncut, hall⟩
        exact ⟨huncut, hcut, (ih (hreset _ (hcuts.trans hcut))).mpr ⟨hclosed, hall⟩⟩

end Pieces

/-! ## Without the blanks -/

section Trimmed

variable {sep : Char}

theorem count_intercalate_sep (sep : Char) (chunks : List (List Char)) :
    ([sep].intercalate chunks).count sep = (chunks.map (List.count sep)).sum + (chunks.length - 1) := by
  induction chunks with
  | nil => rfl
  | cons chunk rest ih =>
    cases rest with
    | nil => simp
    | cons next rest =>
      rw [List.intercalate_cons_cons, List.count_append, List.count_append, ih, List.count_singleton_self]
      simp only [List.map_cons, List.sum_cons, List.length_cons]
      omega

theorem count_intercalate_of_ne {c : Char} (h : c ≠ sep) (chunks : List (List Char)) :
    ([sep].intercalate chunks).count c = (chunks.map (List.count c)).sum := by
  induction chunks with
  | nil => rfl
  | cons chunk rest ih =>
    cases rest with
    | nil => simp
    | cons next rest =>
      rw [List.intercalate_cons_cons, List.count_append, List.count_append, ih, List.count_singleton,
        if_neg (by simpa using h.symm), Nat.add_zero, ← List.sum_cons, ← List.map_cons]

/-- The texts without the blanks around them, those that are left. -/
def trimmed (chunks : List (List Char)) : List (List Char) :=
  (chunks.map trim).filter (· ≠ [])

theorem sum_count_trimmed {c : Char} (hc : isWhitespace c = false) (chunks : List (List Char)) :
    ((trimmed chunks).map (List.count c)).sum = (chunks.map (List.count c)).sum := by
  induction chunks with
  | nil => rfl
  | cons chunk rest ih =>
    rw [trimmed] at ih ⊢
    rw [List.map_cons, List.map_cons, List.sum_cons, ← ih, ← count_trim hc chunk]
    by_cases hempty : trim chunk = []
    · rw [hempty, List.filter_cons_of_neg (by simp), List.count_nil, Nat.zero_add]
    · rw [List.filter_cons_of_pos (by simpa using hempty), List.map_cons, List.sum_cons]

theorem blank_append_inj {b b' x y : List Char} {c d : Char} (hb : Blank b) (hb' : Blank b')
    (hc : isWhitespace c = false) (hd : isWhitespace d = false) (h : b ++ c :: x = b' ++ d :: y) :
    b = b' ∧ c :: x = d :: y := by
  have htake : ∀ {b x : List Char} {c : Char}, Blank b → isWhitespace c = false →
      (b ++ c :: x).takeWhile isWhitespace = b := by
    intro b x c hb hc
    rw [List.takeWhile_append_of_pos hb, List.takeWhile_cons_of_neg (by rw [hc]; exact Bool.false_ne_true),
      List.append_nil]
  have heq : b = b' := by rw [← htake (x := x) hb hc, h, htake hb' hd]
  exact ⟨heq, List.append_cancel_left (heq ▸ h)⟩

/-- Two chunks with the same text between their blanks, each up to a separator, are one. -/
theorem chunk_eq_of_trim {chunk chunk' back back' : List Char} (hsep : isWhitespace sep = false)
    (htrim : trim chunk = trim chunk') (hne : trim chunk ≠ []) (h : chunk ++ sep :: back = chunk' ++ sep :: back') :
    chunk = chunk' ∧ back = back' := by
  obtain ⟨b, e, hchunk, hb, he⟩ := exists_trim chunk
  obtain ⟨b', e', hchunk', hb', he'⟩ := exists_trim chunk'
  rw [← htrim] at hchunk'
  have hstart := trimStart_trim chunk
  obtain ⟨c, text, htext⟩ := List.exists_cons_of_ne_nil hne
  rw [htext] at hchunk hchunk' hstart
  have hc : isWhitespace c = false := by
    by_contra hblank
    have hlen := congrArg List.length hstart
    rw [trimStart, List.dropWhile_cons_of_pos (by simpa using hblank)] at hlen
    exact absurd hlen (Nat.ne_of_lt (Nat.lt_succ_of_le (List.dropWhile_suffix _).length_le))
  rw [hchunk, hchunk'] at h ⊢
  simp only [List.append_assoc, List.cons_append] at h ⊢
  obtain ⟨rfl, hrest⟩ := blank_append_inj hb hb' hc hc h
  obtain ⟨rfl, hback⟩ := blank_append_inj he he' hsep hsep (List.append_cancel_left (List.cons.inj hrest).2)
  exact ⟨rfl, (List.cons.inj hback).2⟩

theorem chunks_eq_of_map_trim {chunks chunks' : List (List Char)} (hsep : isWhitespace sep = false)
    (hne : ∀ chunk ∈ chunks', trim chunk ≠ []) (hjoin : [sep].intercalate chunks = [sep].intercalate chunks')
    (htrim : chunks.map trim = chunks'.map trim) : chunks = chunks' := by
  induction chunks generalizing chunks' with
  | nil => exact (List.map_eq_nil_iff.mp htrim.symm).symm
  | cons chunk rest ih =>
    obtain ⟨chunk', rest', rfl⟩ : ∃ chunk' rest', chunks' = chunk' :: rest' := by
      cases chunks' with
      | nil => cases htrim
      | cons chunk' rest' => exact ⟨chunk', rest', rfl⟩
    obtain ⟨hfirst, hrest⟩ := List.cons.inj htrim
    cases rest with
    | nil =>
      obtain rfl := List.map_eq_nil_iff.mp hrest.symm
      rw [List.intercalate_singleton, List.intercalate_singleton] at hjoin
      rw [hjoin]
    | cons next rest =>
      obtain ⟨next', rest'', rfl⟩ : ∃ next' rest'', rest' = next' :: rest'' := by
        cases rest' with
        | nil => cases hrest
        | cons next' rest'' => exact ⟨next', rest'', rfl⟩
      rw [List.intercalate_cons_cons, List.intercalate_cons_cons, List.append_assoc, List.append_assoc,
        List.singleton_append, List.singleton_append] at hjoin
      have hsolid := hne chunk' List.mem_cons_self
      rw [← hfirst] at hsolid
      obtain ⟨rfl, hback⟩ := chunk_eq_of_trim hsep hfirst hsolid hjoin
      rw [ih (fun c hc => hne c (List.mem_cons_of_mem _ hc)) hback hrest]

/-- Chunks that make up a text are told by what is left of them without blanks. -/
theorem chunks_eq_of_trimmed {chunks chunks' : List (List Char)} (hsep : isWhitespace sep = false)
    (hchunks : chunks ≠ []) (hchunks' : chunks' ≠ []) (honly : ∀ chunk ∈ chunks', trim chunk = [] → chunks' = [chunk])
    (hjoin : [sep].intercalate chunks = [sep].intercalate chunks') (htrim : trimmed chunks = trimmed chunks') :
    chunks = chunks' := by
  have hlen : chunks.length = chunks'.length := by
    have hcount := congrArg (List.count sep) hjoin
    rw [count_intercalate_sep, count_intercalate_sep, ← sum_count_trimmed hsep chunks,
      ← sum_count_trimmed hsep chunks', htrim] at hcount
    have hpos := List.length_pos_iff.mpr hchunks
    have hpos' := List.length_pos_iff.mpr hchunks'
    omega
  by_cases hsingle : ∃ chunk', chunks' = [chunk']
  · obtain ⟨chunk', rfl⟩ := hsingle
    obtain ⟨chunk, rfl⟩ := List.length_eq_one_iff.mp hlen
    rw [List.intercalate_singleton, List.intercalate_singleton] at hjoin
    rw [hjoin]
  · have hsolid : ∀ chunk ∈ chunks', trim chunk ≠ [] :=
      fun chunk hmem hempty => hsingle ⟨chunk, honly chunk hmem hempty⟩
    have hall' : trimmed chunks' = chunks'.map trim := by
      refine List.filter_eq_self.mpr fun text htext => ?_
      obtain ⟨chunk, hmem, rfl⟩ := List.mem_map.mp htext
      simpa using hsolid chunk hmem
    have hall : trimmed chunks = chunks.map trim := by
      refine List.filter_sublist.eq_of_length ?_
      change (trimmed chunks).length = _
      rw [htrim, hall', List.length_map, List.length_map, hlen]
    exact chunks_eq_of_map_trim hsep hsolid hjoin (by rw [← hall, htrim, hall'])

/-- Of a split whose pieces are trimmed, the arguments come back exactly when it cuts where they were joined and nowhere
else. -/
theorem trimmed_pieces_iff {scan : Scanner σ} {s : σ} {chunks : List (List Char)} (hsep : isWhitespace sep = false)
    (hcuts : ∀ s c, scan.cuts s c = true → c = sep) (hne : chunks ≠ [])
    (honly : ∀ chunk ∈ chunks, trim chunk = [] → chunks = [chunk]) :
    trimmed (scan.pieces s ([sep].intercalate chunks)) = trimmed chunks ↔ scan.CutsBetween sep s chunks := by
  rw [← pieces_intercalate_iff hne]
  refine ⟨fun h => ?_, fun h => by rw [h]⟩
  exact chunks_eq_of_trimmed hsep (pieces_ne_nil _ _ _) hne honly (intercalate_pieces hcuts s _) h

end Trimmed

end JavaAnalyzer.ScannedSplit
