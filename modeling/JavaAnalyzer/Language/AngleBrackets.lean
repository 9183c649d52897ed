import JavaAnalyzer.Language.TypeCutting

/-! # Angle brackets

The depth of a text in angle brackets, and what the scanners of `language/java/utils.rs` do on texts whose
brackets are closed: the closing bracket of such a text is found, and such texts are split at the commas
between them. -/

namespace JavaAnalyzer.Language
set_option autoImplicit false
open Text TextLines

/-! ## Depth -/

/-- How much deeper a text ends than it starts. -/
def angles : List Char → ℤ
  | [] => 0
  | c :: s => depthBehind c 0 + angles s

theorem depthBehind_eq (c : Char) (depth : ℤ) : depthBehind c depth = depth + depthBehind c 0 := by
  rw [depthBehind, depthBehind]
  split_ifs
  · omega
  · omega
  · omega

theorem depthBehind_of_plain {c : Char} (hopen : c ≠ '<') (hclose : c ≠ '>') (depth : ℤ) :
    depthBehind c depth = depth := by
  rw [depthBehind, if_neg hopen, if_neg hclose]

theorem angles_append (s t : List Char) : angles (s ++ t) = angles s + angles t := by
  induction s with
  | nil => rw [List.nil_append, angles, zero_add]
  | cons c s ih => rw [List.cons_append, angles, angles, ih, add_assoc]

theorem closingAngle_cons (depth : ℤ) (i : ℕ) (c : Char) (s : List Char) :
    closingAngle depth i (c :: s) =
      if c = '>' ∧ depth = 1 then some i else closingAngle (depthBehind c depth) (i + 1) s := by
  rw [closingAngle, depthBehind]
  by_cases hopen : c = '<'
  · rw [if_pos hopen, if_pos hopen, if_neg fun h => absurd (hopen ▸ h.1) (by decide)]
  rw [if_neg hopen, if_neg hopen]
  by_cases hclose : c = '>'
  · rw [if_pos hclose, if_pos hclose]
    by_cases hone : depth = 1
    · rw [if_pos (by omega), if_pos ⟨hclose, hone⟩]
    · rw [if_neg (by omega), if_neg fun h => hone h.2]
  · rw [if_neg hclose, if_neg hclose, if_neg fun h => hclose h.1]

/-- The place that is found is that of a bracket, and the depth in front of it is one. -/
theorem closingAngle_spec {depth : ℤ} {i j : ℕ} {s : List Char} (h : closingAngle depth i s = some j) :
    ∃ front rest, s = front ++ '>' :: rest ∧ j = i + front.length ∧ depth + angles front = 1 := by
  induction s generalizing depth i with
  | nil => cases h
  | cons c s ih =>
    rw [closingAngle_cons] at h
    split_ifs at h with hfound
    · obtain ⟨rfl, hdepth⟩ := hfound
      obtain rfl := Option.some.inj h
      exact ⟨[], s, rfl, rfl, by rw [angles, hdepth]; rfl⟩
    · obtain ⟨front, rest, rfl, rfl, hdepth⟩ := ih h
      refine ⟨c :: front, rest, rfl, by rw [List.length_cons]; omega, ?_⟩
      rw [depthBehind_eq] at hdepth
      rw [angles]
      omega

/-- Nothing is found in a text that stays inside of the brackets. -/
theorem closingAngle_inside {depth : ℤ} {i : ℕ} {s : List Char}
    (h : ∀ front, front <+: s → 0 < depth + angles front) (rest : List Char) :
    closingAngle depth i (s ++ rest) = closingAngle (depth + angles s) (i + s.length) rest := by
  induction s generalizing depth i with
  | nil => simp [angles]
  | cons c s ih =>
    have hfirst := h [c] ⟨s, rfl⟩
    rw [List.cons_append, closingAngle_cons, if_neg, ih]
    · rw [depthBehind_eq, angles, List.length_cons, add_assoc, add_assoc, Nat.add_comm 1]
    · intro front hfront
      have hdeep := h (c :: front) ((List.prefix_cons_inj c).mpr hfront)
      rw [angles] at hdeep
      rw [depthBehind_eq]
      omega
    · rintro ⟨rfl, rfl⟩
      exact absurd hfirst (by decide)

/-! ## Sealed texts -/

/-- A text that ends as deep as it starts and is never less deep in between. From a depth on no comma of it
separates arguments. -/
structure Sealed (least : ℤ) (s : List Char) : Prop where
  uncut : ∀ depth, least ≤ depth → Uncut ',' depth s
  deep : ∀ front, front <+: s → 0 ≤ angles front
  level : angles s = 0

theorem uncut_append {sep : Char} {depth : ℤ} {s t : List Char} (hs : Uncut sep depth s)
    (ht : Uncut sep (depth + angles s) t) : Uncut sep depth (s ++ t) := by
  induction s generalizing depth with
  | nil =>
    rw [angles, add_zero] at ht
    exact ht
  | cons c s ih =>
    obtain ⟨hcut, hs⟩ := uncut_cons.mp hs
    rw [List.cons_append, uncut_cons]
    refine ⟨hcut, ih hs ?_⟩
    rw [depthBehind_eq, add_assoc]
    exact ht

theorem Sealed.mono {least more : ℤ} {s : List Char} (h : Sealed least s) (hle : least ≤ more) :
    Sealed more s :=
  ⟨fun depth hdepth => h.uncut depth (hle.trans hdepth), h.deep, h.level⟩

theorem Sealed.append {least : ℤ} {s t : List Char} (hs : Sealed least s) (ht : Sealed least t) :
    Sealed least (s ++ t) where
  uncut depth hdepth := uncut_append (hs.uncut depth hdepth)
    (ht.uncut _ (by rw [hs.level]; omega))
  deep front hfront := by
    rcases List.prefix_or_prefix_of_prefix hfront (List.prefix_append s t) with hshort | ⟨rest, rfl⟩
    · exact hs.deep front hshort
    · rw [angles_append, hs.level, zero_add]
      exact ht.deep rest ((List.prefix_append_right_inj s).mp hfront)
  level := by rw [angles_append, hs.level, ht.level, zero_add]

theorem sealed_nil (least : ℤ) : Sealed least [] where
  uncut depth _ := uncut_nil ',' depth
  deep front hfront := by rw [List.prefix_nil.mp hfront]; exact le_rfl
  level := rfl

theorem sealed_singleton {c : Char} (hopen : c ≠ '<') (hclose : c ≠ '>') {least : ℤ}
    (hcut : c = ',' → 0 < least) : Sealed least [c] where
  uncut depth hdepth := by
    refine uncut_cons.mpr ⟨fun h => ?_, uncut_nil ',' _⟩
    have hpos := hcut h.1
    omega
  deep front hfront := by
    have hlevel : angles [c] = 0 := by rw [angles, depthBehind_of_plain hopen hclose]; rfl
    obtain rfl | ⟨rest, rfl, hrest⟩ := List.prefix_cons_iff.mp hfront
    · exact le_rfl
    · rw [List.prefix_nil.mp hrest, hlevel]
  level := by rw [angles, depthBehind_of_plain hopen hclose]; rfl

/-- A text without brackets and commas. -/
def Plain (s : List Char) : Prop :=
  ∀ c ∈ s, c ≠ '<' ∧ c ≠ '>' ∧ c ≠ ','

theorem Plain.sealed {s : List Char} (h : Plain s) (least : ℤ) : Sealed least s := by
  induction s with
  | nil => exact sealed_nil least
  | cons c s ih =>
    obtain ⟨hopen, hclose, hcomma⟩ := h c List.mem_cons_self
    exact (sealed_singleton hopen hclose fun h => absurd h hcomma).append
      (ih fun d hd => h d (List.mem_cons_of_mem c hd))

theorem Sealed.intercalate {least : ℤ} (hleast : 0 < least) {pieces : List (List Char)}
    (h : ∀ piece ∈ pieces, Sealed least piece) : Sealed least ([','].intercalate pieces) := by
  induction pieces with
  | nil => exact sealed_nil least
  | cons piece pieces ih =>
    cases pieces with
    | nil =>
      rw [List.intercalate_singleton]
      exact h piece List.mem_cons_self
    | cons next pieces =>
      rw [List.intercalate_cons_cons]
      exact ((h piece List.mem_cons_self).append
        (sealed_singleton (by decide) (by decide) fun _ => hleast)).append
          (ih fun other hother => h other (List.mem_cons_of_mem piece hother))

/-- Inside of brackets commas may stand anywhere. -/
theorem Sealed.brackets {s : List Char} (h : Sealed 1 s) : Sealed 0 ('<' :: (s ++ ['>'])) where
  uncut depth hdepth := by
    refine uncut_cons.mpr ⟨fun h => h.2.2.1 rfl, ?_⟩
    rw [show depthBehind '<' depth = depth + 1 from rfl]
    refine uncut_append (h.uncut _ (by omega)) ?_
    exact uncut_cons.mpr ⟨fun h => h.2.2.2 rfl, uncut_nil ',' _⟩
  deep front hfront := by
    obtain rfl | ⟨rest, rfl, hrest⟩ := List.prefix_cons_iff.mp hfront
    · exact le_rfl
    · rw [angles, show depthBehind '<' 0 = 1 from rfl]
      rcases List.prefix_concat_iff.mp hrest with rfl | hinside
      · rw [angles_append, h.level]
        decide
      · have hdeep := h.deep rest hinside
        omega
  level := by
    rw [angles, angles_append, h.level]
    decide

/-- The bracket after a sealed text closes the one in front of it. -/
theorem closingAngle_sealed {s : List Char} (h : Sealed 1 s) (i : ℕ) (rest : List Char) :
    closingAngle 0 i ('<' :: (s ++ '>' :: rest)) = some (i + 1 + s.length) := by
  rw [closingAngle_cons, if_neg (by decide), show depthBehind '<' 0 = 1 from rfl, closingAngle_inside,
    h.level, add_zero, closingAngle_cons, if_pos ⟨rfl, rfl⟩]
  intro front hfront
  have hdeep := h.deep front hfront
  omega

/-! ## Splitting -/

theorem splitTopLevel_append_sep {depth : ℤ} {s : List Char} (h : Uncut ',' depth s)
    (hlevel : depth + angles s = 0) (rest : List Char) :
    splitTopLevel ',' depth (s ++ ',' :: rest) = s :: splitTopLevel ',' 0 rest := by
  induction s generalizing depth with
  | nil =>
    obtain rfl : depth = 0 := by rw [angles, add_zero] at hlevel; exact hlevel
    rw [List.nil_append, splitTopLevel_cons, if_pos (by decide)]
  | cons c s ih =>
    obtain ⟨hcut, hs⟩ := uncut_cons.mp h
    rw [angles, ← add_assoc, ← depthBehind_eq] at hlevel
    rw [List.cons_append, splitTopLevel_cons, if_neg hcut, ih hs hlevel]
    rfl

/-- Pieces that are not cut, each but the last one as deep at its end as at its start. -/
theorem splitTopLevel_pieces {pieces : List (List Char)} (huncut : ∀ piece ∈ pieces, Uncut ',' 0 piece)
    (hlevel : ∀ piece ∈ pieces.dropLast, angles piece = 0) (hne : pieces ≠ []) :
    splitTopLevel ',' 0 ([','].intercalate pieces) = pieces := by
  induction pieces with
  | nil => exact absurd rfl hne
  | cons piece pieces ih =>
    have hpiece := huncut piece List.mem_cons_self
    cases pieces with
    | nil =>
      rw [List.intercalate_singleton]
      exact hpiece
    | cons next pieces =>
      rw [List.dropLast_cons_cons] at hlevel
      rw [List.intercalate_cons_cons, List.append_assoc, List.singleton_append,
        splitTopLevel_append_sep hpiece (by rw [hlevel piece List.mem_cons_self]; rfl),
        ih (fun other hother => huncut other (List.mem_cons_of_mem piece hother))
          (fun other hother => hlevel other (List.mem_cons_of_mem piece hother)) (List.cons_ne_nil _ _)]

theorem splitTopLevel_intercalate {pieces : List (List Char)} (h : ∀ piece ∈ pieces, Sealed 0 piece)
    (hne : pieces ≠ []) : splitTopLevel ',' 0 ([','].intercalate pieces) = pieces :=
  splitTopLevel_pieces (fun piece hpiece => (h piece hpiece).uncut 0 le_rfl)
    (fun piece hpiece => (h piece (List.mem_of_mem_dropLast hpiece)).level) hne

theorem isWhitespace_plain {c : Char} (h : isWhitespace c = true) : c ≠ '<' ∧ c ≠ '>' ∧ c ≠ ',' :=
  ⟨ne_of_test h (by decide), ne_of_test h (by decide), ne_of_test h (by decide)⟩

theorem map_trim_splitTopLevel_blank {b : List Char} (hb : Blank b) (s : List Char) :
    (splitTopLevel ',' 0 (b ++ s)).map trim = (splitTopLevel ',' 0 s).map trim := by
  induction b with
  | nil => rfl
  | cons c b ih =>
    have hc := hb c List.mem_cons_self
    obtain ⟨hopen, hclose, hcomma⟩ := isWhitespace_plain hc
    obtain ⟨piece, pieces, hsplit⟩ := exists_splitTopLevel ',' 0 (b ++ s)
    have hrest := ih fun d hd => hb d (List.mem_cons_of_mem c hd)
    have hblank : Blank [c] := fun d hd => by rw [List.mem_singleton.mp hd]; exact hc
    rw [List.cons_append, splitTopLevel_cons, if_neg fun h => hcomma h.1, depthBehind_of_plain hopen hclose]
    rw [hsplit, List.map_cons] at hrest
    rw [hsplit, prepend, List.map_cons, ← hrest]
    exact congrArg (· :: pieces.map trim) (trim_blank_append hblank piece)

/-- Blanks at the end of a text go to its last piece. -/
theorem splitTopLevel_append_blank {b : List Char} (hb : Blank b) (depth : ℤ) (s : List Char) :
    List.Forall₂ (fun piece piece' => ∃ b, Blank b ∧ piece = piece' ++ b)
      (splitTopLevel ',' depth (s ++ b)) (splitTopLevel ',' depth s) := by
  induction s generalizing depth with
  | nil =>
    have hplain : Plain b := fun c hc => isWhitespace_plain (hb c hc)
    have huncut : splitTopLevel ',' depth b = [b] := (hplain.sealed depth).uncut depth le_rfl
    rw [List.nil_append, huncut]
    exact .cons ⟨b, hb, rfl⟩ .nil
  | cons c s ih =>
    rw [List.cons_append, splitTopLevel_cons, splitTopLevel_cons]
    split_ifs
    · exact .cons ⟨[], fun c hc => absurd hc List.not_mem_nil, rfl⟩ (ih depth)
    · have hrest := ih (depthBehind c depth)
      obtain ⟨piece, pieces, hsplit⟩ := exists_splitTopLevel ',' (depthBehind c depth) (s ++ b)
      obtain ⟨piece', pieces', hsplit'⟩ := exists_splitTopLevel ',' (depthBehind c depth) s
      rw [hsplit, hsplit'] at hrest ⊢
      obtain _ | ⟨⟨b', hb', rfl⟩, hothers⟩ := hrest
      exact .cons ⟨b', hb', rfl⟩ hothers

theorem splitJavaGenericArgs_trim (s : List Char) : splitJavaGenericArgs (trim s) = splitJavaGenericArgs s := by
  obtain ⟨b, b', heq, hb, hb'⟩ := exists_trim s
  have hmap : (splitTopLevel ',' 0 s).map trim = (splitTopLevel ',' 0 (trim s)).map trim := by
    conv_lhs => rw [heq, List.append_assoc, map_trim_splitTopLevel_blank hb]
    rw [← List.forall₂_eq_eq_eq, List.forall₂_map_left_iff, List.forall₂_map_right_iff]
    refine (splitTopLevel_append_blank hb' 0 (trim s)).imp fun piece piece' h => ?_
    obtain ⟨b, hb, rfl⟩ := h
    exact trim_append_blank piece' hb
  rw [splitJavaGenericArgs, splitJavaGenericArgs, hmap]

/-- The arguments of a text are the sealed texts it is joined from. -/
theorem splitJavaGenericArgs_intercalate {pieces : List (List Char)}
    (h : ∀ piece ∈ pieces, Sealed 0 piece ∧ trim piece ≠ []) (hne : pieces ≠ []) :
    splitJavaGenericArgs (trim ([','].intercalate pieces)) = pieces.map trim := by
  rw [splitJavaGenericArgs_trim, splitJavaGenericArgs,
    splitTopLevel_intercalate (fun piece hpiece => (h piece hpiece).1) hne, List.filter_eq_self]
  intro arg harg
  obtain ⟨piece, hpiece, rfl⟩ := List.mem_map.mp harg
  simpa using (h piece hpiece).2

/-! ## Counting -/

theorem sum_count_splitTopLevel {c : Char} (hc : c ≠ ',') (depth : ℤ) (s : List Char) :
    ((splitTopLevel ',' depth s).map (List.count c)).sum = s.count c := by
  induction s generalizing depth with
  | nil => rfl
  | cons d s ih =>
    rw [splitTopLevel_cons]
    split_ifs with hcut
    · rw [List.map_cons, List.sum_cons, ih, List.count_nil, zero_add, List.count_cons_of_ne]
      exact hcut.1 ▸ hc.symm
    · have hrest := ih (depthBehind d depth)
      obtain ⟨piece, pieces, hsplit⟩ := exists_splitTopLevel ',' (depthBehind d depth) s
      rw [hsplit, List.map_cons, List.sum_cons] at hrest
      rw [hsplit, prepend, List.map_cons, List.sum_cons, List.count_cons, List.count_cons, ← hrest]
      omega

/-- A character that is no comma and no blank is in one of the arguments. -/
theorem sum_count_splitJavaGenericArgs {c : Char} (hc : c ≠ ',') (hblank : isWhitespace c = false)
    (s : List Char) : ((splitJavaGenericArgs s).map (List.count c)).sum = s.count c := by
  rw [← sum_count_splitTopLevel hc 0 s, splitJavaGenericArgs]
  generalize splitTopLevel ',' 0 s = pieces
  induction pieces with
  | nil => rfl
  | cons piece pieces ih =>
    rw [List.map_cons, List.filter_cons, List.map_cons, List.sum_cons, ← count_trim hblank piece, ← ih]
    split
    · rw [List.map_cons, List.sum_cons]
    · rename_i hempty
      have hnil : trim piece = [] := by simpa using hempty
      rw [hnil, List.count_nil, zero_add]

end JavaAnalyzer.Language
