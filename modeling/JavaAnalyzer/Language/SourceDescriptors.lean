import JavaAnalyzer.Language.ParameterTexts

/-! # Descriptors of source methods

`build_java_descriptor` cuts the text of a parameter list at commas, each parameter at the last blank, the
modifiers at spaces and the dimensions at tight brackets. Where these places are those between the tokens,
the descriptor is that of the erasures. -/

namespace JavaAnalyzer.Language
set_option autoImplicit false
open Text TextLines

/-! ## Modifiers -/

theorem stripModifiersFuel_blank {b : List Char} (hb : Blank b) (n : ℕ) (s : List Char) :
    stripModifiersFuel (n + 1) (b ++ s) = stripModifiersFuel (n + 1) s := by
  rw [stripModifiersFuel, stripModifiersFuel, trimStart_blank_append hb]

/-- A modifier that ends at a space is stripped, with the white space behind it. -/
theorem stripModifiersFuel_modifier {m : ParameterModifier} (h : m.EndsAtSpace) {n : ℕ} {s : List Char}
    (hne : s ≠ []) (hlen : (m.text ++ s).length ≤ n) :
    ∃ k, s.length ≤ k ∧ stripModifiersFuel n (m.text ++ s) = stripModifiersFuel k s := by
  have hpos := List.length_pos_iff.mpr hne
  cases m with
  | final gap =>
    obtain ⟨b, hgap⟩ : ∃ b, gap.1 = ' ' :: b := by
      rw [ParameterModifier.EndsAtSpace] at h
      cases hgap : gap.1 with
      | nil => rw [hgap] at h; cases h
      | cons c b => rw [hgap] at h; exact ⟨b, by rw [Option.some.inj h]⟩
    have hb : Blank b := fun c hc => gap.blank c (hgap ▸ List.mem_cons_of_mem _ hc)
    have htext : ParameterModifier.text (.final gap) ++ s = "final ".toList ++ (b ++ s) := by
      rw [ParameterModifier.text, hgap]
      simp
    rw [htext, List.length_append, List.length_append, show "final ".toList.length = 6 from rfl] at hlen
    obtain ⟨k, rfl⟩ : ∃ k, n = k + 1 + 1 := ⟨n - 2, by omega⟩
    have hstart : trimStart ("final ".toList ++ (b ++ s)) = "final ".toList ++ (b ++ s) := rfl
    refine ⟨k + 1, by omega, ?_⟩
    rw [htext, stripModifiersFuel, hstart, if_pos (List.isPrefixOf_iff_prefix.mpr ⟨_, rfl⟩),
      show "final ".length = "final ".toList.length from rfl, List.drop_left, stripModifiersFuel_blank hb]
  | annotationUse lead name solid plain args gap =>
    obtain ⟨hspace, hgap⟩ := h
    obtain ⟨front, b, heq, hfront⟩ := List.eq_append_cons_of_mem hgap
    have hb : Blank b := fun c hc => gap.blank c (heq ▸ List.mem_append_right _ (List.mem_cons_of_mem _ hc))
    have htext : ParameterModifier.text (.annotationUse lead name solid plain args gap) ++ s =
        ('@' :: (lead.1 ++ name.text ++ ParameterModifier.argumentsText args ++ front)) ++ ' ' :: (b ++ s) := by
      rw [ParameterModifier.text, heq]
      simp
    have hskipped : ' ' ∉ '@' :: (lead.1 ++ name.text ++ ParameterModifier.argumentsText args ++ front) := by
      rintro (_ | ⟨_, hmem⟩)
      rcases List.mem_append.mp hmem with hmem | hmem
      · exact hspace hmem
      · exact hfront hmem
    rw [htext, List.length_append, List.length_cons, List.length_cons, @List.length_append _ b s] at hlen
    obtain ⟨k, rfl⟩ : ∃ k, n = k + 1 + 1 := ⟨n - 2, by omega⟩
    refine ⟨k + 1, by omega, ?_⟩
    generalize lead.1 ++ name.text ++ ParameterModifier.argumentsText args ++ front = skipped at htext hskipped
    have hstart : trimStart (('@' :: skipped) ++ ' ' :: (b ++ s)) = ('@' :: skipped) ++ ' ' :: (b ++ s) := rfl
    rw [htext, stripModifiersFuel, hstart, if_neg (by simp), if_pos (by rfl), splitOnce_append hskipped]
    exact stripModifiersFuel_blank hb k s

/-- What is left of a parameter's type without its modifiers. -/
theorem stripModifiersFuel_modifiers {mods : List ParameterModifier} (h : ∀ m ∈ mods, m.EndsAtSpace) {n : ℕ}
    {s : List Char} (hbare : Bare s) (hne : s ≠ [])
    (hlen : (mods.flatMap ParameterModifier.text ++ s).length ≤ n) :
    stripModifiersFuel n (mods.flatMap ParameterModifier.text ++ s) = s := by
  induction mods generalizing n with
  | nil => exact stripModifiersFuel_of_bare n hbare
  | cons m mods ih =>
    have hrest : mods.flatMap ParameterModifier.text ++ s ≠ [] := fun hnil =>
      hne (List.append_eq_nil_iff.mp hnil).2
    rw [List.flatMap_cons, List.append_assoc] at hlen ⊢
    obtain ⟨k, hk, hstrip⟩ := stripModifiersFuel_modifier (h m List.mem_cons_self) hrest hlen
    rw [hstrip, ih (fun m hm => h m (List.mem_cons_of_mem _ hm)) hk]

theorem FormalParameter.bareType_typeText {p : FormalParameter} (h : ∀ m ∈ p.modifiers, m.EndsAtSpace) :
    bareType p.typeText = p.type.text ++ dotsText p.dots := by
  have hsolid := p.solid_type
  rw [bareType, p.solid_typeText.trim_eq, stripLeadingJavaTypeModifiers, typeText,
    stripModifiersFuel_modifiers h p.startsWithName.bare hsolid.ne_nil le_rfl, hsolid.trim_eq]

/-! ## Dimensions -/

theorem stripSuffix_append (s suffix : List Char) : stripSuffix suffix (s ++ suffix) = some s := by
  rw [stripSuffix, if_pos (List.isSuffixOf_iff_suffix.mpr ⟨s, rfl⟩), List.length_append, Nat.add_sub_cancel,
    List.take_left]

theorem stripSuffix_of_last {s front : List Char} {c : Char} (h : c ∉ s.getLast?) :
    stripSuffix (front ++ [c]) s = none := by
  rw [stripSuffix, if_neg]
  intro hsuffix
  obtain ⟨t, rfl⟩ := List.isSuffixOf_iff_suffix.mp hsuffix
  exact h (by simp)

/-- Tight brackets are counted one after the other. -/
theorem stripDimensionsFuel_dims {element : List Char} (hsolid : Solid element) (hends : Undimensioned element)
    {dims : List Dimension} (h : ∀ d ∈ dims, d.inner.1 = []) {n : ℕ}
    (hlen : (element ++ dims.flatMap Dimension.text).length ≤ n) :
    stripDimensionsFuel n (element ++ dims.flatMap Dimension.text) = (dims.length, element) := by
  induction dims using List.reverseRecOn generalizing n with
  | nil =>
    rw [List.flatMap_nil, List.append_nil]
    cases n with
    | zero => rfl
    | succ n =>
      rw [stripDimensionsFuel, show ['[', ']'] = ['['] ++ [']'] from rfl,
        stripSuffix_of_last fun hc => (hends ']' hc).1 rfl]
      rfl
  | append_singleton dims d ih =>
    have hfront := solid_dims hsolid dims
    have htext : element ++ (dims ++ [d]).flatMap Dimension.text =
        element ++ dims.flatMap Dimension.text ++ d.lead.1 ++ ['[', ']'] := by
      rw [List.flatMap_append, List.flatMap_singleton, d.text_eq (h d (by simp))]
      simp
    rw [htext, List.length_append, List.length_append, show ['[', ']'].length = 2 from rfl] at hlen
    obtain ⟨n, rfl⟩ : ∃ k, n = k + 1 := ⟨n - 1, by omega⟩
    rw [htext, stripDimensionsFuel, stripSuffix_append]
    simp only
    rw [trim_append_blank _ d.lead.blank, hfront.trim_eq, ih (fun d hd => h d (by simp [hd])) (by omega),
      List.length_append, List.length_singleton]

/-! ## The descriptor of a type -/

theorem uncut_of_not_mem {sep : Char} {s : List Char} (h : sep ∉ s) (depth : ℤ) : Uncut sep depth s := by
  induction s generalizing depth with
  | nil => exact uncut_nil sep depth
  | cons c s ih =>
    refine uncut_cons.mpr ⟨?_, ih (fun hmem => h (List.mem_cons_of_mem c hmem)) _⟩
    rintro ⟨rfl, -⟩
    exact h List.mem_cons_self

theorem ElementType.bounds (e : ElementType) : splitTopLevelJavaIntersectionBounds e.text = [e.text] := by
  have huncut := uncut_of_not_mem e.amp_not_mem 0
  rw [splitTopLevelJavaIntersectionBounds_eq]
  · rw [huncut, List.map_singleton, e.solid.trim_eq]
  · intro piece hpiece
    rw [huncut, List.mem_singleton] at hpiece
    rw [hpiece, e.solid.trim_eq]
    exact e.solid.ne_nil

section Erasure

variable {internal : String → String} {ctx : SourceTypeCtx}

theorem primitiveLetter_word (p : PrimitiveType) : primitiveLetter p.word.toList = some p.letter := by
  rw [primitiveLetter, String.ofList_toList]
  cases p <;> rfl

theorem mem_reservedWords_of_letter {word : List Char} {letter : Char}
    (h : primitiveLetter word = some letter) : String.ofList word ∈ reservedWords := by
  rw [primitiveLetter] at h
  split at h
  all_goals first | cases h; done | (rename_i heq; rw [heq]; decide)

/-- A qualified name is no primitive type: it has a dot or is not reserved. -/
theorem primitiveLetter_dottedName {front : List TypeSegment} {last : TypeSegment}
    (h : ∀ s ∈ front ++ [last], String.ofList s.name ∉ reservedWords) :
    primitiveLetter (dottedName front last) = none := by
  cases hletter : primitiveLetter (dottedName front last) with
  | none => rfl
  | some letter =>
    have hmem := mem_reservedWords_of_letter hletter
    cases front with
    | nil => exact absurd hmem (h last (by simp))
    | cons s front =>
      have hdot : '.' ∈ dottedName (s :: front) last := by simp [dottedName]
      have hplain : reservedWords.all (fun word => !word.toList.contains '.') = true := by decide
      have hall := List.all_eq_true.mp hplain _ hmem
      rw [String.toList_ofList] at hall
      simp [hdot] at hall

/-- The name that is left of a type without dimensions has the descriptor of its erasure. -/
theorem ElementType.nameDescriptor_eq : {e : ElementType} → e.Readable internal ctx →
    ctx.nameDescriptor (trim (((splitJavaGenericBase e.text).map Prod.fst).getD e.text)) = e.erasure internal
  | primitive p, _ => by
    have hplain : '<' ∉ p.word.toList := fun hmem => (isIdentifierChar_cases (p.word_chars '<' hmem)).2.1 rfl
    rw [text, splitJavaGenericBase_plain hplain, Option.map_some, Option.getD_some, trim_trim,
      (solid_of_identifierChars p.word_chars p.word_ne_nil).trim_eq, SourceTypeCtx.nameDescriptor,
      primitiveLetter_word]
    rfl
  | reference ty solid unreserved, ⟨hnamed, hresolve⟩ => by
    have hsplit : (splitJavaGenericBase ty.text).map Prod.fst = some ty.qualifiedName := by
      have hfaithful := hnamed.splitFaithfully
      rw [ClassTypeText.SplitFaithfully] at hfaithful
      split at hfaithful
      · rw [hfaithful, Option.map_some]
      · obtain ⟨argsText, hsplit, -⟩ := hfaithful
        rw [hsplit, Option.map_some]
    rw [text, hsplit, Option.getD_some, ClassTypeText.qualifiedName, (solid_dottedName ty.segments).trim_eq,
      SourceTypeCtx.nameDescriptor, primitiveLetter_dottedName unreserved]
    exact congrArg (fun name => 'L' :: (String.toList name ++ [';'])) hresolve

/-- A text that is cut to the type and its dots. -/
theorem SourceType.toDescriptor_of_cut {t : SourceType} (h : t.Readable internal ctx) {ty : List Char}
    {dots : Option Gap} (hcut : bareType ty = t.text ++ FormalParameter.dotsText dots) :
    ctx.toDescriptor ty = t.erasure internal dots.toList.length := by
  have hdims : stripDimensions t.text = (t.dims.length, t.element.text) :=
    stripDimensionsFuel_dims t.element.solid t.element.undimensioned h.dims le_rfl
  have hname := ElementType.nameDescriptor_eq h.element
  rw [bareType] at hcut
  rw [SourceTypeCtx.toDescriptor, hcut]
  cases dots with
  | none =>
    have hlast : stripSuffix ['.', '.', '.'] t.text = none := by
      refine @stripSuffix_of_last t.text ['.', '.'] '.' fun hc => ?_
      rcases t.dims.eq_nil_or_concat with hnil | ⟨front, d, hdims⟩
      · rw [text, hnil, List.flatMap_nil, List.append_nil] at hc
        exact (t.element.undimensioned '.' hc).2 rfl
      · rw [text, hdims, List.concat_eq_append, List.flatMap_append, List.flatMap_singleton, Dimension.text,
          ← List.cons_append, ← List.append_assoc, ← List.append_assoc, ← List.append_assoc,
          List.getLast?_concat] at hc
        exact absurd hc (by decide)
    simp only [FormalParameter.dotsText, List.append_nil, hlast, Option.getD_none, Option.isSome_none,
      Bool.false_eq_true, if_false, t.solid.trim_eq, hdims, t.element.bounds, List.head?_cons, Option.getD_some]
    exact congrArg (List.replicate _ '[' ++ ·) hname
  | some gap =>
    have hstrip : stripSuffix ['.', '.', '.'] (t.text ++ FormalParameter.dotsText (some gap)) =
        some (t.text ++ gap.1) := by
      rw [FormalParameter.dotsText, ← List.append_assoc, stripSuffix_append]
    simp only [hstrip, Option.getD_some, Option.isSome_some, if_true, trim_append_blank _ gap.blank,
      t.solid.trim_eq, hdims, t.element.bounds, List.head?_cons]
    exact congrArg (List.replicate _ '[' ++ ·) hname

theorem ReturnType.toDescriptor_eq {ret : ReturnType} (h : ret.Readable internal ctx) :
    ctx.toDescriptor (trim ret.text) = ret.erasure internal := by
  cases ret with
  | void => rfl
  | type t =>
    refine @SourceType.toDescriptor_of_cut internal ctx t h _ none ?_
    have hbare := t.startsWithName.bare
    rw [text, t.solid.trim_eq, bareType_of_bare hbare t.solid.trim_eq, FormalParameter.dotsText, List.append_nil]

/-! ## The type of a parameter -/

theorem beforeTopBlank_append {back : List Char} (h : ∀ c ∈ back, c ≠ '<' ∧ c ≠ '>' ∧ c ≠ ' ' ∧ c ≠ '\t')
    {blank : Char} (hblank : blank = ' ' ∨ blank = '\t') (front : List Char) :
    beforeTopBlank 0 (back ++ blank :: front) = some front := by
  induction back with
  | nil => rcases hblank with rfl | rfl <;> rfl
  | cons c back ih =>
    obtain ⟨hopen, hclose, hspace, htab⟩ := h c List.mem_cons_self
    rw [List.cons_append, beforeTopBlank, if_neg hclose, if_neg hopen, if_neg (by tauto)]
    exact ih fun d hd => h d (List.mem_cons_of_mem c hd)

/-- The last space or tab of a text. -/
theorem exists_last_blank {b : List Char} (h : ' ' ∈ b ∨ '\t' ∈ b) :
    ∃ front blank back, b = front ++ blank :: back ∧ (blank = ' ' ∨ blank = '\t') ∧ ' ' ∉ back ∧ '\t' ∉ back := by
  induction b with
  | nil => simp at h
  | cons c b ih =>
    by_cases hrest : ' ' ∈ b ∨ '\t' ∈ b
    · obtain ⟨front, blank, back, rfl, hback⟩ := ih hrest
      exact ⟨c :: front, blank, back, rfl, hback⟩
    · rw [not_or] at hrest
      refine ⟨[], c, b, rfl, ?_, hrest⟩
      rcases h with h | h
      · exact .inl ((List.mem_cons.mp h).resolve_right hrest.1).symm
      · exact .inr ((List.mem_cons.mp h).resolve_right hrest.2).symm

theorem ParameterName.solid (name : ParameterName) : Solid name.text :=
  solid_of_identifierChars name.chars name.ne_nil

namespace FormalParameter

variable {p : FormalParameter}

theorem extractParamType_text (hgap : ' ' ∈ p.gap.1 ∨ '\t' ∈ p.gap.1) (hdims : p.dims = []) :
    extractParamType (trim p.text) = p.typeText := by
  obtain ⟨front, blank, back, heq, hblank, hspace, htab⟩ := exists_last_blank hgap
  have hfront : Blank front := fun c hc => p.gap.blank c (heq ▸ List.mem_append_left _ hc)
  have htrim : trim p.text = p.typeText ++ p.gap.1 ++ p.name.text := by
    rw [text, hdims, List.flatMap_nil, List.append_nil, trim_append_blank _ p.trail.blank, List.append_assoc,
      List.append_assoc, trim_blank_append p.lead.blank, ← List.append_assoc]
    exact (p.solid_typeText.append p.gap.1 p.name.solid).trim_eq
  have hreverse : (p.typeText ++ p.gap.1 ++ p.name.text).reverse =
      (back ++ p.name.text).reverse ++ blank :: (p.typeText ++ front).reverse := by
    rw [heq]
    simp
  have hback : ∀ c ∈ (back ++ p.name.text).reverse, c ≠ '<' ∧ c ≠ '>' ∧ c ≠ ' ' ∧ c ≠ '\t' := by
    intro c hc
    rcases List.mem_append.mp (List.mem_reverse.mp hc) with hc | hc
    · obtain ⟨hopen, hclose, -⟩ := TypeSegment.plain_of_blank p.gap.2 c
        (heq ▸ List.mem_append_right _ (List.mem_cons_of_mem _ hc))
      exact ⟨hopen, hclose, fun h => hspace (h ▸ hc), fun h => htab (h ▸ hc)⟩
    · obtain ⟨-, hopen, hclose, -⟩ := isIdentifierChar_cases (p.name.chars c hc)
      have hchar := p.name.chars c hc
      exact ⟨hopen, hclose, ne_of_test hchar (by decide), ne_of_test hchar (by decide)⟩
  rw [htrim, extractParamType, hreverse, beforeTopBlank_append hback hblank]
  simp only [List.reverse_reverse]
  rw [trim_append_blank _ hfront, p.solid_typeText.trim_eq]

/-- Of a readable parameter, the component is the descriptor of its erasure. -/
theorem toDescriptor_eq (h : p.Readable internal ctx) :
    ctx.toDescriptor (extractParamType (trim p.text)) = p.erasure internal := by
  rw [extractParamType_text h.gap h.dims,
    SourceType.toDescriptor_of_cut h.type (bareType_typeText h.modifiers), erasure, h.dims, List.length_nil, Nat.zero_add]

end FormalParameter

/-! ## The parameters of a list -/

/-- The parentheses around a text that has none at its ends. -/
theorem strip_parentheses {inner : List Char} (hhead : ∀ c ∈ inner.head?, c ≠ '(')
    (hlast : ∀ c ∈ inner.getLast?, c ≠ ')') :
    ((('(' :: (inner ++ [')'])).dropWhile (· = '(')).reverse.dropWhile (· = ')')).reverse = inner := by
  have hopen : (inner ++ [')']).dropWhile (· = '(') = inner ++ [')'] := by
    cases inner with
    | nil => rfl
    | cons c inner => exact List.dropWhile_cons_of_neg (by simpa using hhead c rfl)
  have hclose : inner.reverse.dropWhile (· = ')') = inner.reverse := by
    cases hrev : inner.reverse with
    | nil => rfl
    | cons c rest =>
      have hc : c ∈ inner.getLast? := by rw [← List.head?_reverse, hrev]; rfl
      exact List.dropWhile_cons_of_neg (by simpa using hlast c hc)
  rw [List.dropWhile_cons_of_pos (by rfl), hopen, List.reverse_append, List.reverse_singleton,
    List.singleton_append, List.dropWhile_cons_of_pos (by rfl), hclose, List.reverse_reverse]

namespace FormalParameters

variable {ps : FormalParameters}

theorem trim_inner_ne_nil (h : ps.params ≠ []) : trim ps.inner ≠ [] := by
  obtain ⟨p, others, hparams⟩ := List.exists_cons_of_ne_nil h
  obtain ⟨c, name, hname⟩ := List.exists_cons_of_ne_nil p.name.ne_nil
  have hc : isWhitespace c = false := (isIdentifierChar_cases (p.name.chars c (by simp [hname]))).1
  have htext : c ∈ p.text := by simp [FormalParameter.text, hname]
  have hmem : c ∈ ps.inner := by
    rw [inner_of_ne_nil h, hparams, List.map_cons]
    cases others with
    | nil => rwa [List.map_nil, List.intercalate_singleton]
    | cons next others =>
      rw [List.map_cons, List.intercalate_cons_cons]
      simp [htext]
  intro hnil
  have hcount := count_trim hc ps.inner
  rw [hnil, List.count_nil] at hcount
  exact (List.count_pos_iff.mpr hmem).ne hcount

/-- A list that is cut at the commas between its parameters. -/
theorem splitParams_inner (hcommas : ∀ p ∈ ps.params, Uncut ',' 0 p.text)
    (hlevels : ∀ p ∈ ps.params.dropLast, angles p.text = 0) (h : ps.params ≠ []) :
    splitParams ps.inner = ps.params.map FormalParameter.text := by
  have hsplit : splitTopLevel ',' 0 ps.inner = ps.params.map FormalParameter.text := by
    rw [inner_of_ne_nil h]
    refine splitTopLevel_pieces ?_ ?_ (by simpa using h)
    · intro piece hpiece
      obtain ⟨p, hp, rfl⟩ := List.mem_map.mp hpiece
      exact hcommas p hp
    · intro piece hpiece
      rw [← List.map_dropLast] at hpiece
      obtain ⟨p, hp, rfl⟩ := List.mem_map.mp hpiece
      exact hlevels p hp
  rw [splitParams, hsplit, if_neg]
  intro hlast
  obtain ⟨p, -, hnil⟩ := List.mem_map.mp (List.mem_of_mem_getLast? (Option.mem_def.mpr hlast))
  exact p.ne_nil hnil

theorem paramTypeTexts_text (h : ps.Readable internal ctx) :
    SourceTypeCtx.paramTypeTexts ps.text =
      ps.params.map fun p => extractParamType (trim p.text) := by
  have hsolid : Solid ('(' :: (ps.inner ++ [')'])) := by
    have hclose : Solid [')'] := solid_singleton (by decide)
    have happend := (solid_singleton (c := '(') (by decide)).append ps.inner hclose
    simpa only [List.singleton_append, List.cons_append, List.nil_append] using happend
  obtain ⟨hhead, hlast⟩ := inner_ends fun p hp => (h.params p hp).dims
  have hinner := strip_parentheses hhead hlast
  have htrim : trim ps.text = '(' :: (ps.inner ++ [')']) := hsolid.trim_eq
  simp only [SourceTypeCtx.paramTypeTexts, htrim, hinner]
  by_cases hparams : ps.params = []
  · have hgap : trim ps.inner = [] := by
      rw [inner, hparams]
      exact List.append_nil ps.gap.1 ▸ trim_blank_append ps.gap.blank []
    rw [hgap, hparams]
    rfl
  · rw [if_neg (by simpa using trim_inner_ne_nil hparams), splitParams_inner h.commas h.levels hparams,
      List.map_map]
    rfl

end FormalParameters

/-- A readable list of parameters and return type have the descriptor of their erasures. -/
theorem describes_erasure_of_readable {ps : FormalParameters} {ret : ReturnType}
    (h : ps.Readable internal ctx) (hret : ret.Readable internal ctx) : ctx.DescribesErasure internal ps ret := by
  have hparts : (SourceTypeCtx.paramTypeTexts ps.text).map ctx.toDescriptor =
      ps.params.map (FormalParameter.erasure internal) := by
    rw [FormalParameters.paramTypeTexts_text h, List.map_map]
    refine List.map_congr_left fun p hp => ?_
    rw [Function.comp_apply, FormalParameter.toDescriptor_eq (h.params p hp)]
  refine ⟨?_, hparts⟩
  rw [SourceTypeCtx.buildJavaDescriptor, FormalParameters.descriptor, List.flatMap_def, List.flatMap_def, hparts,
    ReturnType.toDescriptor_eq hret]

end Erasure

/-! ## Two parameter lists -/

def noGap : Gap := ⟨[], fun _ hc => absurd hc List.not_mem_nil⟩

def spaceGap : Gap := ⟨[' '], List.all_eq_true.mp (by decide)⟩

/-- A parameter with one space in front of its name. -/
def spacedParameter (modifiers : List ParameterModifier) (type : SourceType) (name : ParameterName)
    (dims : List Dimension) : FormalParameter where
  lead := noGap
  modifiers := modifiers
  type := type
  dots := none
  gap := spaceGap
  name := name
  dims := dims
  trail := noGap
  arity h := absurd h (by decide)

def nameA : ParameterName := ⟨['a'], by decide, List.all_eq_true.mp (by decide), by decide⟩

def nameB : ParameterName := ⟨['b'], by decide, List.all_eq_true.mp (by decide), by decide⟩

/-- A file of the package `p` with the class `p/List` in its index. -/
def listCtx : SourceTypeCtx where
  package := some "p"
  imports := []
  view := .new [Index.BucketIndex.new.addClasses [.bare (some "p") "List" "p/List" none .unknown]]

/-- `List<A>` -/
def listOfA : ClassTypeText where
  front := []
  last := ClassTypeText.tightSegment ['L', 'i', 's', 't'] (some [['A']])
  segments s hs := by
    rw [List.mem_singleton.mp hs]
    exact ClassTypeText.wellFormed_tightSegment (by decide) (by decide) (by decide)
  arguments s hs args hargs arg harg := by
    rw [List.mem_singleton.mp hs] at hargs
    obtain rfl := Option.some.inj hargs
    rw [List.mem_singleton.mp harg]
    exact ClassTypeText.isTypeText_name (by decide) (by decide)

def listElement : ElementType :=
  .reference listOfA
    ((solid_singleton (c := 'L') (by decide)).append ['i', 's', 't', '<', 'A']
      (solid_singleton (c := '>') (by decide)))
    fun s hs => by
      rw [List.mem_singleton.mp hs]
      decide

theorem listElement_readable : listElement.Readable ("p/" ++ ·) listCtx := by
  refine ⟨⟨fun s hs => absurd hs List.not_mem_nil, fun s hs => absurd hs List.not_mem_nil,
    fun s hs => absurd hs List.not_mem_nil, fun _ s hs c hc => ?_⟩, by rfl⟩
  rw [List.mem_singleton.mp hs] at hc
  have hbytes : ['L', 'i', 's', 't'].all (fun c => decide (c.utf8Size = 1)) = true := by decide
  exact of_decide_eq_true (List.all_eq_true.mp hbytes c hc)

theorem spacedParameter_readable {internal : String → String} {ctx : SourceTypeCtx}
    {modifiers : List ParameterModifier} {element : ElementType} {name : ParameterName}
    (hmods : ∀ m ∈ modifiers, m.EndsAtSpace) (h : element.Readable internal ctx) :
    (spacedParameter modifiers ⟨element, []⟩ name []).Readable internal ctx :=
  ⟨hmods, ⟨h, fun _ hd => absurd hd List.not_mem_nil⟩, .inl List.mem_cons_self, rfl⟩

/-- `(final List<A> a,int b)` -/
def finalListAndInt : FormalParameters where
  params := [spacedParameter [.final spaceGap] ⟨listElement, []⟩ nameA [],
    spacedParameter [] ⟨.primitive .int, []⟩ nameB []]
  gap := noGap
  arity p hp := by
    rw [List.dropLast_cons_cons, List.dropLast_singleton, List.mem_singleton] at hp
    rw [hp]
    rfl

theorem describes_finalListAndInt :
    finalListAndInt.text = "(final List<A> a,int b)".toList ∧
      listCtx.DescribesErasure ("p/" ++ ·) finalListAndInt (.type ⟨listElement, []⟩) := by
  refine ⟨by decide, describes_erasure_of_readable ⟨?_, ?_, ?_⟩
    ⟨listElement_readable, fun _ hd => absurd hd List.not_mem_nil⟩⟩
  · refine List.forall_mem_cons.mpr ⟨spacedParameter_readable ?_ listElement_readable,
      List.forall_mem_singleton.mpr (spacedParameter_readable (fun _ hm => absurd hm List.not_mem_nil) trivial)⟩
    exact List.forall_mem_singleton.mpr rfl
  · refine List.forall_mem_cons.mpr ⟨?_, List.forall_mem_singleton.mpr ?_⟩
    · exact show splitTopLevel ',' 0 _ = [_] by decide
    · exact show splitTopLevel ',' 0 _ = [_] by decide
  · exact List.forall_mem_singleton.mpr (by decide)

/-- `(int a[])` -/
def bracketsOnName : FormalParameters where
  params := [spacedParameter [] ⟨.primitive .int, []⟩ nameA [⟨noGap, noGap⟩]]
  gap := noGap
  arity _ hp := absurd hp List.not_mem_nil

/-- The brackets behind the name are lost. -/
theorem brackets_on_name_lost :
    bracketsOnName.text = "(int a[])".toList ∧
      listCtx.buildJavaDescriptor bracketsOnName.text (ReturnType.void).text = "(I)V".toList ∧
      ¬ listCtx.DescribesErasure ("p/" ++ ·) bracketsOnName .void := by
  have hbuilt : listCtx.buildJavaDescriptor bracketsOnName.text (ReturnType.void).text = "(I)V".toList := by
    decide
  refine ⟨by decide, hbuilt, ?_⟩
  rintro ⟨h, -⟩
  rw [hbuilt] at h
  exact absurd h (by decide)

end JavaAnalyzer.Language
