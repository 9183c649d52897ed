import JavaAnalyzer.Semantic.Generics
import JavaAnalyzer.Semantic.SignatureGrammar

/-! # Scanning signatures for brackets and semicolons

The readers of type parameters look for the bracket that closes the parameters and for the semicolon that ends a bound,
and count the brackets between. What these scans do with the texts of the grammar, and which type a text writes. -/

namespace JavaAnalyzer.Semantic
set_option autoImplicit false
open Text Jvm

namespace JvmType

/-! ## Closing brackets -/

/-- The text has its own brackets in pairs. -/
def Closes (s : List Char) : Prop :=
  ∀ depth : ℕ, 0 < depth → ∀ rest, closeAngle depth (s ++ rest) = (closeAngle depth rest).map fun p => (s ++ p.1, p.2)

theorem closes_free {s : List Char} (h : ∀ c ∈ s, c ≠ '<' ∧ c ≠ '>') : Closes s := by
  induction s with
  | nil => exact fun depth _ rest => by simp
  | cons c s ih =>
    obtain ⟨hc, hs⟩ := List.forall_mem_cons.mp h
    intro depth hdepth rest
    rw [List.cons_append, closeAngle, if_neg hc.1, if_neg hc.2, ih hs depth hdepth, Option.map_map]
    rfl

theorem Closes.append {s t : List Char} (hs : Closes s) (ht : Closes t) : Closes (s ++ t) := by
  intro depth hdepth rest
  rw [List.append_assoc, hs depth hdepth, ht depth hdepth, Option.map_map]
  simp only [Function.comp_def, List.append_assoc]

theorem Closes.cons {c : Char} {s : List Char} (hc : c ≠ '<' ∧ c ≠ '>') (h : Closes s) : Closes (c :: s) :=
  (closes_free (List.forall_mem_singleton.mpr hc)).append h

theorem Closes.angle {s : List Char} (h : Closes s) : Closes ('<' :: (s ++ ['>'])) := by
  intro depth hdepth rest
  rw [List.cons_append, List.append_assoc, List.singleton_append, closeAngle, if_pos rfl,
    h (depth + 1) (Nat.succ_pos depth), closeAngle, if_neg (by decide), if_pos rfl,
    if_neg (by omega), Nat.add_sub_cancel, Option.map_map, Option.map_map]
  simp only [Function.comp_def, List.cons_append, List.append_assoc, List.nil_append]

theorem Derives.closes {n : Nonterminal} {s : List Char} (h : Derives n s) : Closes s := by
  have hname : ∀ {name : List Char}, isIdentifier name = true → Closes name := fun hname =>
    closes_free fun c hc => by
      have hfree := (identifier_free hname).2 c hc
      simp only [List.mem_cons, List.not_mem_nil, or_false, not_or] at hfree
      exact ⟨hfree.2.2.2.2.1, hfree.2.2.2.2.2.1⟩
  have hchar : ∀ {c : Char}, c ≠ '<' ∧ c ≠ '>' → Closes [c] := fun hc =>
    closes_free (List.forall_mem_singleton.mpr hc)
  induction h with
  | base h => exact hchar ⟨by rintro rfl; exact absurd h (by decide), by rintro rfl; exact absurd h (by decide)⟩
  | reference _ ih => exact ih
  | object _ ih => exact (ih.append (hchar (by decide))).cons (by decide)
  | typeVariable h => exact ((hname h).append (hchar (by decide))).cons (by decide)
  | array _ ih => exact ih.cons (by decide)
  | outermost _ ih => exact ih
  | suffix _ _ ih ih' => exact ih.append (ih'.cons (by decide))
  | simple _ ih => exact ih
  | package h _ ih => exact (hname h).append (ih.cons (by decide))
  | plain h => exact hname h
  | generic h _ ih => exact (hname h).append ih.angle
  | last _ ih => exact ih
  | more _ _ ih ih' => exact ih.append ih'
  | any => exact hchar (by decide)
  | invariant _ ih => exact ih
  | bounded hc _ ih =>
    refine ih.cons ?_
    rcases hc with rfl | rfl <;> decide

/-! ## The end of a bound -/

/-- From `least` open brackets on, a bound goes on behind the text. -/
def Passes (least : ℤ) (s : List Char) : Prop :=
  ∀ depth : ℤ, least ≤ depth → ∀ rest, skipBound depth (s ++ rest) = skipBound depth rest

theorem Passes.mono {least most : ℤ} {s : List Char} (h : Passes least s) (hle : least ≤ most) : Passes most s :=
  fun depth hdepth rest => h depth (hle.trans hdepth) rest

theorem passes_free {s : List Char} (h : ∀ c ∈ s, c ≠ '<' ∧ c ≠ '>' ∧ c ≠ ';') (least : ℤ) : Passes least s := by
  intro depth _ rest
  induction s with
  | nil => rfl
  | cons c s ih =>
    obtain ⟨hc, hs⟩ := List.forall_mem_cons.mp h
    rw [List.cons_append, skipBound, if_neg hc.1, if_neg hc.2.1, if_neg fun hend => hc.2.2 hend.1, ih hs]

theorem passes_semicolon : Passes 1 [';'] := by
  intro depth hdepth rest
  rw [List.singleton_append, skipBound, if_neg (by decide), if_neg (by decide), if_neg (by omega)]

theorem Passes.append {least : ℤ} {s t : List Char} (hs : Passes least s) (ht : Passes least t) :
    Passes least (s ++ t) := by
  intro depth hdepth rest
  rw [List.append_assoc, hs depth hdepth, ht depth hdepth]

theorem Passes.cons {least : ℤ} {c : Char} {s : List Char} (hc : c ≠ '<' ∧ c ≠ '>' ∧ c ≠ ';') (h : Passes least s) :
    Passes least (c :: s) :=
  (passes_free (List.forall_mem_singleton.mpr hc) least).append h

theorem Passes.angle {s : List Char} (h : Passes 1 s) : Passes 0 ('<' :: (s ++ ['>'])) := by
  intro depth hdepth rest
  rw [List.cons_append, List.append_assoc, List.singleton_append, skipBound, if_pos rfl, h (depth + 1) (by omega),
    skipBound, if_neg (by decide), if_pos rfl, Int.add_sub_cancel]

/-- A bound ends with the text if that ends with a semicolon, and else goes on behind it. -/
structure EndsBound (s : List Char) : Prop where
  inside : Passes 1 s
  ends : s.getLast? = some ';' → ∀ rest, skipBound 0 (s ++ rest) = rest
  goesOn : s.getLast? ≠ some ';' → Passes 0 s

theorem endsBound_semicolon {s : List Char} (h : Passes 0 s) : EndsBound (s ++ [';']) where
  inside := (h.mono (by decide)).append passes_semicolon
  ends _ rest := by
    rw [List.append_assoc, h 0 le_rfl, List.singleton_append, skipBound, if_neg (by decide), if_neg (by decide),
      if_pos ⟨rfl, rfl⟩]
  goesOn hlast := absurd List.getLast?_concat hlast

theorem EndsBound.cons {c : Char} {s : List Char} (hc : c ≠ '<' ∧ c ≠ '>' ∧ c ≠ ';') (h : EndsBound s) :
    EndsBound (c :: s) := by
  have hpass : ∀ least, Passes least [c] := passes_free (List.forall_mem_singleton.mpr hc)
  refine ⟨(hpass 1).append h.inside, fun hlast rest => ?_, fun hlast => ?_⟩
  · rw [List.cons_append, ← List.singleton_append, hpass 0 0 le_rfl]
    cases s with
    | nil => exact absurd (Option.some.inj hlast) hc.2.2
    | cons d s => exact h.ends (by rwa [List.getLast?_cons_cons] at hlast) rest
  · cases s with
    | nil => exact hpass 0
    | cons d s =>
      rw [List.getLast?_cons_cons] at hlast
      exact (hpass 0).append (h.goesOn hlast)

/-- What the scan for the end of a bound does with the texts of a nonterminal. -/
def Scans : Nonterminal → List Char → Prop
  | .javaType | .referenceType | .typeArgument => EndsBound
  | .classType | .packagedClass | .simpleClass => Passes 0
  | .typeArguments => Passes 1

theorem identifier_passes {name : List Char} (h : isIdentifier name = true) (least : ℤ) : Passes least name :=
  passes_free (fun c hc => by
    have hfree := (identifier_free h).2 c hc
    simp only [List.mem_cons, List.not_mem_nil, or_false, not_or] at hfree
    exact ⟨hfree.2.2.2.2.1, hfree.2.2.2.2.2.1, hfree.2.1⟩) least

theorem Derives.scans {n : Nonterminal} {s : List Char} (h : Derives n s) : Scans n s := by
  have hchar : ∀ {c : Char}, c ≠ '<' ∧ c ≠ '>' ∧ c ≠ ';' → ∀ least, Passes least [c] := fun hc =>
    passes_free (List.forall_mem_singleton.mpr hc)
  have halone : ∀ {c : Char}, c ≠ '<' ∧ c ≠ '>' ∧ c ≠ ';' → EndsBound [c] := fun hc =>
    ⟨hchar hc 1, fun hlast => absurd (Option.some.inj hlast) hc.2.2, fun _ => hchar hc 0⟩
  induction h with
  | base h =>
    refine halone ⟨?_, ?_, ?_⟩ <;> rintro rfl <;> exact absurd h (by decide)
  | reference _ ih => exact ih
  | object _ ih => exact @endsBound_semicolon ('L' :: _) (ih.cons (by decide))
  | @typeVariable name h =>
    exact @endsBound_semicolon ('T' :: name) ((identifier_passes h 0).cons (by decide))
  | array _ ih => exact EndsBound.cons (by decide) ih
  | outermost _ ih => exact ih
  | suffix _ _ ih ih' => exact ih.append (ih'.cons (by decide))
  | simple _ ih => exact ih
  | package h _ ih => exact (identifier_passes h 0).append (ih.cons (by decide))
  | plain h => exact identifier_passes h 0
  | generic h _ ih => exact (identifier_passes h 0).append ih.angle
  | last _ ih => exact ih.inside
  | more _ _ ih ih' => exact ih.inside.append ih'
  | any => exact halone (by decide)
  | invariant _ ih => exact ih
  | bounded hc _ ih =>
    refine EndsBound.cons ?_ ih
    rcases hc with rfl | rfl <;> decide

/-! ## The type that a text writes -/

/-- A type, if nothing is nested in a class with type arguments. -/
def WritesType (s : List Char) : Prop :=
  ¬ NestsInGeneric s → ∃ t : JvmType, t.wellFormed = true ∧ t.signature = s

def WritesArgs (s : List Char) : Prop :=
  ¬ NestsInGeneric s → ∃ ts : List JvmType, ts ≠ [] ∧ wellFormedArgs ts = true ∧ signatures ts = s

/-- A name, with type arguments perhaps. -/
def WritesClass (s : List Char) : Prop :=
  ¬ NestsInGeneric s → ∃ name : List Char, (∀ c ∈ name, endsClassName c = false) ∧
    (s = name ∨ ∃ ts : List JvmType, ts ≠ [] ∧ wellFormedArgs ts = true ∧ s = name ++ '<' :: (signatures ts ++ ['>']))

theorem not_nests_of_part {s t : List Char} (h : s <:+: t) (ht : ¬ NestsInGeneric t) : ¬ NestsInGeneric s :=
  fun hs => ht (hs.trans h)

theorem wellFormed_name {name : List Char} (h : ∀ c ∈ name, endsClassName c = false) :
    ((String.ofList name).toList.all fun c => !endsClassName c) = true := by
  rw [String.toList_ofList, List.all_eq_true]
  intro c hc
  rw [h c hc, Bool.not_false]

theorem writesType_class {s : List Char} (h : WritesClass s) : WritesType ('L' :: (s ++ [';'])) := by
  intro hplain
  obtain ⟨name, hname, rfl | ⟨ts, hne, hts, rfl⟩⟩ := h (not_nests_of_part ⟨['L'], [';'], rfl⟩ hplain)
  · refine ⟨.object (String.ofList s) [], ?_, ?_⟩
    · rw [wellFormed, wellFormed_name hname]
      rfl
    · rw [signature, String.toList_ofList]
      rfl
  · refine ⟨.object (String.ofList name) ts, ?_, ?_⟩
    · rw [wellFormed, wellFormed_name hname, hts]
      rfl
    · rw [signature, String.toList_ofList, if_neg (mt List.isEmpty_iff.mp hne)]
      simp

theorem WritesClass.before {name s : List Char} (hname : ∀ c ∈ name, endsClassName c = false) (h : WritesClass s) :
    WritesClass (name ++ s) := by
  intro hplain
  obtain ⟨name', hname', rfl | ⟨ts, hne, hts, rfl⟩⟩ := h (not_nests_of_part (List.suffix_append name s).isInfix hplain)
  · exact ⟨name ++ s, List.forall_mem_append.mpr ⟨hname, hname'⟩, .inl rfl⟩
  · exact ⟨name ++ name', List.forall_mem_append.mpr ⟨hname, hname'⟩, .inr ⟨ts, hne, hts, by simp⟩⟩

theorem WritesClass.suffix {s t : List Char} (hs : WritesClass s) (ht : WritesClass t) :
    WritesClass (s ++ '.' :: t) := by
  intro hplain
  obtain ⟨name, hname, rfl | ⟨ts, -, -, rfl⟩⟩ := hs (not_nests_of_part (List.prefix_append s _).isInfix hplain)
  · have hdot : ∀ c ∈ s ++ ['.'], endsClassName c = false :=
      List.forall_mem_append.mpr ⟨hname, List.forall_mem_singleton.mpr (by decide)⟩
    have hboth := ht.before hdot
    rw [List.append_assoc, List.singleton_append] at hboth
    exact hboth hplain
  · exact absurd ⟨name ++ '<' :: signatures ts, t, by simp⟩ hplain

/-- Which type the texts of a nonterminal write. -/
def Writes : Nonterminal → List Char → Prop
  | .javaType | .referenceType | .typeArgument => WritesType
  | .classType | .packagedClass | .simpleClass => WritesClass
  | .typeArguments => WritesArgs

theorem Derives.writes {n : Nonterminal} {s : List Char} (h : Derives n s) : Writes n s := by
  have hname : ∀ {name : List Char}, isIdentifier name = true → ∀ c ∈ name, endsClassName c = false :=
    fun h c hc => (identifier_name h c hc).1
  induction h with
  | @base c h =>
    refine fun _ => ⟨.primitive c, ?_, rfl⟩
    rw [wellFormed, List.contains_iff_mem]
    exact List.mem_cons_of_mem _ h
  | reference _ ih => exact ih
  | object _ ih => exact writesType_class ih
  | @typeVariable name h =>
    refine fun _ => ⟨.typeVar (String.ofList name), ?_, by rw [signature, String.toList_ofList]⟩
    have hfree : ';' ∉ name := fun hmem => absurd (hname h _ hmem) (by decide)
    simpa [wellFormed] using hfree
  | array _ ih =>
    intro hplain
    obtain ⟨t, ht, rfl⟩ := ih (not_nests_of_part (List.suffix_cons _ _).isInfix hplain)
    exact ⟨.array t, ht, rfl⟩
  | outermost _ ih => exact ih
  | suffix _ _ ih ih' => exact WritesClass.suffix ih ih'
  | simple _ ih => exact ih
  | @package name s h _ ih =>
    have hslash : ∀ c ∈ name ++ ['/'], endsClassName c = false :=
      List.forall_mem_append.mpr ⟨hname h, List.forall_mem_singleton.mpr (by decide)⟩
    have hboth := WritesClass.before hslash ih
    rwa [List.append_assoc, List.singleton_append] at hboth
  | @plain name h => exact fun _ => ⟨name, hname h, .inl rfl⟩
  | @generic name args h _ ih =>
    intro hplain
    obtain ⟨ts, hne, hts, rfl⟩ := ih (not_nests_of_part ⟨name ++ ['<'], ['>'], by simp⟩ hplain)
    exact ⟨name, hname h, .inr ⟨ts, hne, hts, rfl⟩⟩
  | last _ ih =>
    intro hplain
    obtain ⟨t, ht, rfl⟩ := ih hplain
    exact ⟨[t], List.cons_ne_nil _ _, by rw [wellFormedArgs, ht]; rfl, List.append_nil _⟩
  | more _ _ ih ih' =>
    intro hplain
    obtain ⟨t, ht, rfl⟩ := ih (not_nests_of_part (List.prefix_append _ _).isInfix hplain)
    obtain ⟨ts, -, hts, rfl⟩ := ih' (not_nests_of_part (List.suffix_append _ _).isInfix hplain)
    exact ⟨t :: ts, List.cons_ne_nil _ _, by rw [wellFormedArgs, ht, hts]; rfl, rfl⟩
  | any => exact fun _ => ⟨.wildcard, rfl, rfl⟩
  | invariant _ ih => exact ih
  | @bounded c s hc _ ih =>
    intro hplain
    obtain ⟨t, ht, rfl⟩ := ih (not_nests_of_part (List.suffix_cons _ _).isInfix hplain)
    refine ⟨.wildcardBound c t, ?_, rfl⟩
    rw [wellFormed, ht, Bool.and_true, Bool.or_eq_true, decide_eq_true_eq, decide_eq_true_eq]
    exact hc

/-- A type of the grammar is read as a type with this signature exactly when nothing is nested in a class with type
arguments. -/
theorem Derives.read_iff {s : List Char} (h : Derives .javaType s) :
    (∃ t : JvmType, t.wellFormed = true ∧ t.signature = s) ↔ ¬ NestsInGeneric s := by
  constructor
  · rintro ⟨t, ht, rfl⟩
    refine h.whole_iff.mp ⟨t, ?_⟩
    have hread := parse_signature ht []
    rwa [List.append_nil] at hread
  · exact h.writes

/-! ## The characters of a type that was read -/

section Characters

variable {d : Char}

theorem not_mem_skipChar {c : Char} {s : List Char} (h : d ∉ s) : d ∉ skipChar c s := by
  cases s with
  | nil => exact h
  | cons e s =>
    rw [skipChar]
    split_ifs
    · exact fun hmem => h (List.mem_cons_of_mem e hmem)
    · exact h

theorem not_mem_class {name : List Char} {args : List JvmType} (hd : d ∉ ['L', '<', '>', ';']) (hname : d ∉ name)
    (hargs : d ∉ signatures args) : d ∉ (JvmType.object (String.ofList name) args).signature := by
  rw [signature, String.toList_ofList]
  simp only [List.mem_cons, List.not_mem_nil, or_false, not_or] at hd
  split_ifs <;> simp [hd, hname, hargs]

mutual

theorem parseFuel_free (hd : d ∉ ['L', '<', '>', ';']) : ∀ {fuel : ℕ} {s : List Char} {p : JvmType × List Char},
    d ∉ s → parseFuel fuel s = some p → d ∉ p.1.signature ∧ d ∉ p.2
  | 0, _, _, _, h => by simp [parseFuel] at h
  | _ + 1, [], _, _, h => by simp [parseFuel] at h
  | fuel + 1, c :: s, p, hs, h => by
      obtain ⟨hc, hs⟩ := not_or.mp (mt List.mem_cons.mpr hs)
      simp only [parseFuel] at h
      split_ifs at h with hL hT hA hany hbound hprimitive
      · have hsplit : s = (breakAt endsClassName s).1 ++ (breakAt endsClassName s).2 :=
          List.takeWhile_append_dropWhile.symm
        rw [hsplit, List.mem_append, not_or] at hs
        split at h
        · rename_i rest hrest
          obtain ⟨q, hq, rfl⟩ := Option.map_eq_some_iff.mp h
          rw [hrest] at hs
          obtain ⟨hargs, hleft⟩ := parseArgsFuel_free hd (fun hmem => hs.2 (List.mem_cons_of_mem _ hmem)) hq
          exact ⟨not_mem_class hd hs.1 hargs, not_mem_skipChar hleft⟩
        · cases h
          exact ⟨not_mem_class hd hs.1 List.not_mem_nil, not_mem_skipChar hs.2⟩
      · obtain ⟨q, hq, rfl⟩ := Option.map_eq_some_iff.mp h
        obtain ⟨rfl, -⟩ := splitOnce_eq hq
        simp only [List.mem_append, List.mem_cons, not_or] at hs
        refine ⟨?_, hs.2.2⟩
        rw [signature, String.toList_ofList, ← hT]
        simp [hc, hs]
      · obtain ⟨q, hq, rfl⟩ := Option.map_eq_some_iff.mp h
        obtain ⟨hinner, hleft⟩ := parseFuel_free hd hs hq
        rw [signature, ← hA]
        exact ⟨List.not_mem_cons_of_ne_of_not_mem hc hinner, hleft⟩
      · cases h
        rw [signature, ← hany]
        exact ⟨List.not_mem_cons_of_ne_of_not_mem hc List.not_mem_nil, hs⟩
      · obtain ⟨q, hq, rfl⟩ := Option.map_eq_some_iff.mp h
        obtain ⟨hinner, hleft⟩ := parseFuel_free hd hs hq
        exact ⟨List.not_mem_cons_of_ne_of_not_mem hc hinner, hleft⟩
      · cases h
        exact ⟨List.not_mem_cons_of_ne_of_not_mem hc List.not_mem_nil, hs⟩

theorem parseArgsFuel_free (hd : d ∉ ['L', '<', '>', ';']) : ∀ {fuel : ℕ} {s : List Char}
    {p : List JvmType × List Char}, d ∉ s → parseArgsFuel fuel s = some p → d ∉ signatures p.1 ∧ d ∉ p.2
  | 0, _, _, _, h => by simp [parseArgsFuel] at h
  | _ + 1, [], _, _, h => by simp [parseArgsFuel] at h
  | fuel + 1, c :: s, p, hs, h => by
      simp only [parseArgsFuel] at h
      split_ifs at h
      · cases h
        exact ⟨List.not_mem_nil, fun hmem => hs (List.mem_cons_of_mem c hmem)⟩
      · obtain ⟨q, hq, h⟩ := Option.bind_eq_some_iff.mp h
        obtain ⟨r, hr, rfl⟩ := Option.map_eq_some_iff.mp h
        obtain ⟨hfirst, hleft⟩ := parseFuel_free hd hs hq
        obtain ⟨hmore, hbehind⟩ := parseArgsFuel_free hd hleft hr
        exact ⟨fun hmem => (List.mem_append.mp hmem).elim hfirst hmore, hbehind⟩

end

theorem parseMany_free (hd : d ∉ ['L', '<', '>', ';']) {s : List Char} (h : d ∉ s) :
    d ∉ signatures (parseMany s).1 := by
  rw [parseMany]
  induction s.length generalizing s with
  | zero => exact List.not_mem_nil
  | succ fuel ih =>
    rw [parseManyFuel]
    cases hread : parse s with
    | none => exact List.not_mem_nil
    | some p =>
      obtain ⟨hfirst, hleft⟩ := parseFuel_free hd h hread
      exact fun hmem => (List.mem_append.mp hmem).elim hfirst (ih hleft)

end Characters

end JvmType

end JavaAnalyzer.Semantic
