import JavaAnalyzer.Semantic.JvmType

/-! # The text a read consumes

`JvmType::parse` cuts types off the front of a text, and the renderer of members reads the cut text a
second time. `parse_consumed`: the part a read takes off is read as the same type, with nothing left
over. What is behind the part matters in one place only, a class type without its semicolon, so the
induction lets it vary as long as it starts the same way. -/

namespace JavaAnalyzer.Semantic
set_option autoImplicit false
open Text

namespace JvmType

/-! ## Equations without fuel -/

/-- The argument loop on its own. -/
def parseArgs (s : List Char) : Option (List JvmType × List Char) :=
  parseArgsFuel (2 * s.length + 2) s

theorem parseArgsFuel_stable {s : List Char} {fuel : ℕ} (h : 2 * s.length + 2 ≤ fuel) :
    parseArgsFuel fuel s = parseArgs s :=
  (parseFuel_and_args_stable s.length).2 s le_rfl fuel _ h le_rfl

theorem parseArgs_cons (c : Char) (s : List Char) : parseArgs (c :: s) =
    if c = '>' then some ([], s)
    else (parse (c :: s)).bind fun p => (parseArgs p.2).map fun q => (p.1 :: q.1, q.2) := by
  have hs : parseFuel (2 * s.length + 3) (c :: s) = parse (c :: s) :=
    parseFuel_stable (by rw [List.length_cons]; omega)
  rw [parseArgs, List.length_cons, show 2 * (s.length + 1) + 2 = 2 * s.length + 3 + 1 by omega,
    parseArgsFuel, hs]
  split_ifs
  · rfl
  · refine Option.bind_congr fun p hp => ?_
    have hlen := parse_length hp
    rw [List.length_cons] at hlen
    rw [parseArgsFuel_stable (by omega)]

theorem className_cases (s : List Char) : ∃ name, (∀ c ∈ name, endsClassName c = false) ∧
    (s = name ∨ ∃ r, s = name ++ '<' :: r ∨ s = name ++ ';' :: r) := by
  refine ⟨(breakAt endsClassName s).1, breakAt_fst_free endsClassName s, ?_⟩
  have hsplit : s = (breakAt endsClassName s).1 ++ (breakAt endsClassName s).2 :=
    List.takeWhile_append_dropWhile.symm
  cases htail : (breakAt endsClassName s).2 with
  | nil => exact .inl (by rwa [htail, List.append_nil] at hsplit)
  | cons d r =>
    have hd : endsClassName d = true := by
      have hdrop : s.dropWhile (fun c => !endsClassName c) = d :: r := htail
      have hnot := List.head?_dropWhile_not (fun c => !endsClassName c) s
      rw [hdrop] at hnot
      simpa using hnot
    rw [htail] at hsplit
    simp only [endsClassName, Bool.or_eq_true, decide_eq_true_eq] at hd
    rcases hd with rfl | rfl
    · exact .inr ⟨r, .inl hsplit⟩
    · exact .inr ⟨r, .inr hsplit⟩

section Equations

variable {name : List Char} (hname : ∀ c ∈ name, endsClassName c = false) (r : List Char)
include hname

theorem parse_classArgs : parse ('L' :: (name ++ '<' :: r)) = (parseArgs r).map fun p =>
    (.object (String.ofList name) p.1, skipChar ';' p.2) := by
  have hb := breakAt_append hname (d := '<') (by decide) r
  have hfuel : parseArgsFuel (2 * ('L' :: (name ++ '<' :: r)).length) r = parseArgs r :=
    parseArgsFuel_stable (by simp only [List.length_cons, List.length_append]; omega)
  rw [parse, parseFuel, if_pos rfl, hb]
  simp only [hfuel]

theorem parse_className : parse ('L' :: (name ++ ';' :: r)) =
    some (.object (String.ofList name) [], r) := by
  have hb := breakAt_append hname (d := ';') (by decide) r
  simp [parse, parseFuel, hb]

theorem parse_unclosedName : parse ('L' :: name) = some (.object (String.ofList name) [], []) := by
  have hb : breakAt endsClassName name = (name, []) := by
    simp only [breakAt, Prod.mk.injEq, List.takeWhile_eq_self_iff, List.dropWhile_eq_nil_iff]
    exact ⟨fun c hc => by simp [hname c hc], fun c hc => by simp [hname c hc]⟩
  simp [parse, parseFuel, hb, skipChar]

end Equations

theorem parse_cons {c : Char} (hc : c ≠ 'L') (s : List Char) : parse (c :: s) =
    if c = 'T' then
      (splitOnce ';' s).map fun p => (.typeVar (String.ofList p.1), p.2)
    else if c = '[' then
      (parse s).map fun p => (.array p.1, p.2)
    else if c = '*' then
      some (.wildcard, s)
    else if c = '+' ∨ c = '-' then
      (parse s).map fun p => (.wildcardBound c p.1, p.2)
    else if c ∈ primitiveChars then
      some (.primitive c, s)
    else
      none := by
  have hs : parseFuel (2 * s.length + 2) s = parse s := parseFuel_stable (by omega)
  rw [parse, List.length_cons, show 2 * (s.length + 1) + 1 = 2 * s.length + 2 + 1 by omega, parseFuel,
    if_neg hc, hs]

/-! ## Reads of a part -/

/-- A read of `s` takes a part `used` off and reads the same type from it, alone or with a text behind
it that starts as `rest` does. -/
def ReadsExactly (s : List Char) (t : JvmType) (rest : List Char) : Prop :=
  ∃ used, s = used ++ rest ∧ ∀ rest' : List Char,
    rest' = [] ∨ rest'.head? = rest.head? → parse (used ++ rest') = some (t, rest')

/-- The same for an argument list, whose bracket closes it whatever follows. -/
def ReadsArgsExactly (s : List Char) (ts : List JvmType) (rest : List Char) : Prop :=
  ∃ used, s = used ++ rest ∧ ∀ rest' : List Char, parseArgs (used ++ rest') = some (ts, rest')

theorem readsExactly_class {s : List Char} {t : JvmType} {rest : List Char}
    (hargs : ∀ u, u.length < s.length → ∀ ts rest, parseArgs u = some (ts, rest) →
      ReadsArgsExactly u ts rest)
    (h : parse ('L' :: s) = some (t, rest)) : ReadsExactly ('L' :: s) t rest := by
  obtain ⟨name, hname, rfl | ⟨r, rfl | rfl⟩⟩ := className_cases s
  · rw [parse_unclosedName hname] at h
    cases h
    refine ⟨'L' :: s, (List.append_nil _).symm, fun rest' hrest' => ?_⟩
    obtain rfl : rest' = [] := by simpa using hrest'
    rw [List.append_nil, parse_unclosedName hname]
  · rw [parse_classArgs hname] at h
    obtain ⟨⟨ts, tail⟩, hts, hpair⟩ := Option.map_eq_some_iff.mp h
    obtain ⟨used, rfl, hused⟩ := hargs r (by simp; omega) ts tail hts
    obtain ⟨rfl, rfl⟩ := Prod.mk.inj hpair
    clear h
    have hread (rest' : List Char) (suffix : List Char) :
        parse ('L' :: (name ++ '<' :: (used ++ suffix ++ rest'))) =
          some (.object (String.ofList name) ts, skipChar ';' (suffix ++ rest')) := by
      rw [parse_classArgs hname, List.append_assoc, hused]
      rfl
    cases tail with
    | nil =>
      refine ⟨'L' :: (name ++ '<' :: used), by simp [skipChar], fun rest' hrest' => ?_⟩
      obtain rfl : rest' = [] := by simpa [skipChar] using hrest'
      simpa [skipChar] using hread [] []
    | cons d tail =>
      by_cases hd : d = ';'
      · subst hd
        refine ⟨'L' :: (name ++ '<' :: (used ++ [';'])), by simp, fun rest' _ => ?_⟩
        simpa using hread rest' [';']
      · refine ⟨'L' :: (name ++ '<' :: used), by simp [skipChar, hd], fun rest' hrest' => ?_⟩
        have hskip : skipChar ';' rest' = rest' := by
          rcases hrest' with rfl | hhead
          · rfl
          · cases rest' with
            | nil => rfl
            | cons e rest' =>
              obtain rfl : e = d := by simpa [skipChar, hd] using hhead
              simp [skipChar, hd]
        simpa [hskip] using hread rest' []
  · rw [parse_className hname] at h
    cases h
    refine ⟨'L' :: (name ++ [';']), by simp, fun rest' _ => ?_⟩
    simpa using parse_className hname rest'

theorem readsExactly_cons {c : Char} {s : List Char} {t : JvmType} {rest : List Char}
    (hargs : ∀ u, u.length < s.length → ∀ ts rest, parseArgs u = some (ts, rest) →
      ReadsArgsExactly u ts rest)
    (htype : ∀ t rest, parse s = some (t, rest) → ReadsExactly s t rest)
    (h : parse (c :: s) = some (t, rest)) : ReadsExactly (c :: s) t rest := by
  by_cases hL : c = 'L'
  · subst hL
    exact readsExactly_class hargs h
  rw [parse_cons hL] at h
  split_ifs at h with hT harr hwild hbound hprim
  · subst hT
    obtain ⟨⟨name, tail⟩, hsplit, hpair⟩ := Option.map_eq_some_iff.mp h
    obtain ⟨rfl, rfl⟩ := Prod.mk.inj hpair
    obtain ⟨rfl, hfree⟩ := splitOnce_eq hsplit
    refine ⟨'T' :: (name ++ [';']), by simp, fun rest' _ => ?_⟩
    simp [parse_cons, splitOnce_append hfree]
  · subst harr
    obtain ⟨⟨inner, tail⟩, hinner, hpair⟩ := Option.map_eq_some_iff.mp h
    obtain ⟨rfl, rfl⟩ := Prod.mk.inj hpair
    obtain ⟨used, rfl, hused⟩ := htype inner tail hinner
    refine ⟨'[' :: used, rfl, fun rest' hrest' => ?_⟩
    simp [parse_cons, hused rest' hrest']
  · cases h
    exact ⟨[c], rfl, fun rest' _ => by simp [parse_cons, hwild]⟩
  · obtain ⟨⟨inner, tail⟩, hinner, hpair⟩ := Option.map_eq_some_iff.mp h
    obtain ⟨rfl, rfl⟩ := Prod.mk.inj hpair
    obtain ⟨used, rfl, hused⟩ := htype inner tail hinner
    refine ⟨c :: used, rfl, fun rest' hrest' => ?_⟩
    rw [List.cons_append, parse_cons hL, if_neg hT, if_neg harr, if_neg hwild, if_pos hbound,
      hused rest' hrest']
    rfl
  · cases h
    refine ⟨[c], rfl, fun rest' _ => ?_⟩
    rw [List.cons_append, parse_cons hL, if_neg hT, if_neg harr, if_neg hwild, if_neg hbound,
      if_pos hprim]
    rfl

theorem readsArgsExactly_cons {c : Char} {s : List Char} {ts : List JvmType} {rest : List Char}
    (htype : ∀ t rest, parse (c :: s) = some (t, rest) → ReadsExactly (c :: s) t rest)
    (hargs : ∀ u, u.length < (c :: s).length → ∀ ts rest, parseArgs u = some (ts, rest) →
      ReadsArgsExactly u ts rest)
    (h : parseArgs (c :: s) = some (ts, rest)) : ReadsArgsExactly (c :: s) ts rest := by
  rw [parseArgs_cons] at h
  split_ifs at h with hc
  · cases h
    exact ⟨[c], rfl, fun rest' => by rw [List.cons_append, parseArgs_cons, if_pos hc]; rfl⟩
  · obtain ⟨⟨t, tail⟩, ht, h⟩ := Option.bind_eq_some_iff.mp h
    obtain ⟨⟨ts, tail'⟩, hts, hpair⟩ := Option.map_eq_some_iff.mp h
    obtain ⟨rfl, rfl⟩ := Prod.mk.inj hpair
    obtain ⟨used, hs, hused⟩ := htype t tail ht
    obtain ⟨used', rfl, hused'⟩ := hargs tail (parse_length ht) ts tail' hts
    refine ⟨used ++ used', by rw [hs, List.append_assoc], fun rest' => ?_⟩
    -- The arguments behind the first one start as they did, their part is not empty.
    have hne : used' ≠ [] := by
      rintro rfl
      simpa [parseArgs, parseArgsFuel] using hused' []
    have hread := hused (used' ++ rest') (.inr (by
      rw [List.head?_append_of_ne_nil _ hne, List.head?_append_of_ne_nil _ hne]))
    obtain ⟨d, u, hd⟩ : ∃ d u, used ++ (used' ++ rest') = d :: u := by
      cases hu : used ++ (used' ++ rest') with
      | nil => simp_all
      | cons d u => exact ⟨d, u, rfl⟩
    have hdc : d = c := by
      cases used with
      | nil =>
        cases used' with
        | nil => exact absurd rfl hne
        | cons e used' =>
          obtain ⟨rfl, -⟩ := List.cons.inj hd
          exact (List.cons.inj hs).1.symm
      | cons e used =>
        obtain ⟨rfl, -⟩ := List.cons.inj hd
        exact (List.cons.inj hs).1.symm
    rw [List.append_assoc, hd, parseArgs_cons, if_neg (hdc ▸ hc), ← hd, hread, Option.bind_some,
      hused']
    rfl

theorem readsExactly_and_args (n : ℕ) :
    (∀ s : List Char, s.length ≤ n → ∀ t rest, parse s = some (t, rest) → ReadsExactly s t rest) ∧
    (∀ s : List Char, s.length ≤ n → ∀ ts rest, parseArgs s = some (ts, rest) →
      ReadsArgsExactly s ts rest) := by
  induction n with
  | zero =>
    refine ⟨fun s hs t rest h => ?_, fun s hs ts rest h => ?_⟩
    all_goals
      obtain rfl : s = [] := List.length_eq_zero_iff.mp (by omega)
      simp [parse, parseFuel, parseArgs, parseArgsFuel] at h
  | succ n ih =>
    obtain ⟨ihT, ihA⟩ := ih
    have hT : ∀ s : List Char, s.length ≤ n + 1 → ∀ t rest, parse s = some (t, rest) →
        ReadsExactly s t rest := by
      intro s hs t rest h
      cases s with
      | nil => simp [parse, parseFuel] at h
      | cons c s =>
        rw [List.length_cons] at hs
        exact readsExactly_cons (fun u hu => ihA u (by omega)) (ihT s (by omega)) h
    refine ⟨hT, fun s hs ts rest h => ?_⟩
    cases s with
    | nil => simp [parseArgs, parseArgsFuel] at h
    | cons c s =>
      rw [List.length_cons] at hs
      exact readsArgsExactly_cons (hT (c :: s) hs)
        (fun u hu => ihA u (by rw [List.length_cons] at hu; omega)) h

/-- The consumed text alone is read as the same type. -/
theorem parse_consumed {s : List Char} {t : JvmType} {rest : List Char}
    (h : parse s = some (t, rest)) :
    parse (s.take (s.length - rest.length)) = some (t, []) := by
  obtain ⟨used, rfl, hused⟩ := (readsExactly_and_args s.length).1 s le_rfl t rest h
  rw [List.length_append, Nat.add_sub_cancel, List.take_left]
  simpa using hused [] (.inl rfl)

end JvmType

end JavaAnalyzer.Semantic
