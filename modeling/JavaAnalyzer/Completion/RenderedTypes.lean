import JavaAnalyzer.Completion.RenderedNames
import JavaAnalyzer.Library.ScannedSplit
import JavaAnalyzer.Semantic.SourceTypeText

/-! # Rendered types

The texts that `type_name_to_source_style` of `language/java/render.rs` makes of class types, and the types that
`resolve_type_name_strict` finds for them. -/

namespace JavaAnalyzer.Completion
set_option autoImplicit false
open Index IndexView Text TextLines TextPlaces Semantic ElementWise JavaAnalyzer.Language

/-! ## Class types -/

mutual

/-- A type of a class in a named package, with arguments and dimensions. -/
inductive IsClassType (view : IndexView) : TypeName → Prop
  | mk {internal pkg : String} {c : ClassMetadata} {args : List TypeName} {dims : ℕ}
      (hget : view.getClass internal = some c) (hpkg : c.package = some pkg)
      (hargs : ∀ a ∈ args, IsTypeArgument view a) : IsClassType view ⟨internal, .internal, args, dims⟩

inductive IsTypeArgument (view : IndexView) : TypeName → Prop
  | type {t : TypeName} (h : IsClassType view t) : IsTypeArgument view t
  | unbounded : IsTypeArgument view TypeName.wildcard
  | extendsBound {t : TypeName} (h : IsClassType view t) : IsTypeArgument view (TypeName.wildcardExtends t)
  | superBound {t : TypeName} (h : IsClassType view t) : IsTypeArgument view (TypeName.wildcardSuper t)

end

theorem IsClassType.inductOn {view : IndexView} {P Q : TypeName → Prop}
    (mk : ∀ internal pkg c args dims, view.getClass internal = some c → c.package = some pkg → (∀ a ∈ args, Q a) →
      P ⟨internal, .internal, args, dims⟩)
    (type : ∀ t, P t → Q t) (unbounded : Q TypeName.wildcard)
    (extendsBound : ∀ t, P t → Q (TypeName.wildcardExtends t))
    (superBound : ∀ t, P t → Q (TypeName.wildcardSuper t)) {t : TypeName} (h : IsClassType view t) : P t :=
  @IsClassType.rec view (fun t _ => P t) (fun a _ => Q a)
    (fun {_ _ _ _ _} hget hpkg _ ih => mk _ _ _ _ _ hget hpkg ih) (fun {t} _ ih => type t ih) unbounded
    (fun {t} _ ih => extendsBound t ih) (fun {t} _ ih => superBound t ih) t h

mutual

/-- The class types in a type, itself included. -/
def classTypes : TypeName → List TypeName
  | ⟨base, kind, args, dims⟩ =>
    (if kind = .internal then [⟨base, kind, args, dims⟩] else []) ++ classTypesOfAll args

def classTypesOfAll : List TypeName → List TypeName
  | [] => []
  | t :: ts => classTypes t ++ classTypesOfAll ts

end

theorem classTypesOfAll_eq (types : List TypeName) : classTypesOfAll types = types.flatMap classTypes := by
  induction types with
  | nil => rfl
  | cons t types ih => rw [classTypesOfAll, ih, List.flatMap_cons]

/-! ## Texts -/

/-- The names of the classes of an index. -/
def symbolProvider (view : IndexView) : SymbolProvider :=
  ⟨view.getSourceTypeName⟩

/-- The text of a type. -/
def renderText (view : IndexView) (t : TypeName) : List Char :=
  (typeNameToSourceStyle (symbolProvider view) t).toList

theorem typeNamesToSourceStyle_eq (provider : SymbolProvider) (types : List TypeName) :
    typeNamesToSourceStyle provider types = types.map (typeNameToSourceStyle provider) := by
  induction types with
  | nil => rfl
  | cons t types ih => rw [typeNamesToSourceStyle, ih, List.map_cons]

/-- The pieces between the commas of some arguments: all but the first begin with a blank. -/
def argumentPieces : List (List Char) → List (List Char)
  | [] => []
  | arg :: args => arg :: args.map (' ' :: ·)

/-- The arguments in their brackets. -/
def angleText (args : List (List Char)) : List Char :=
  if args.isEmpty then [] else '<' :: ([','].intercalate (argumentPieces args) ++ ['>'])

def dimsText (n : ℕ) : List Char :=
  (dims n).toList

theorem dimsText_succ (n : ℕ) : dimsText (n + 1) = dimsText n ++ ['[', ']'] := by
  rw [dimsText, dimsText, dims, dims, List.replicate_succ', String.join_append, String.toList_append]
  rfl

theorem intercalate_pieces (args : List (List Char)) :
    [',', ' '].intercalate args = [','].intercalate (argumentPieces args) := by
  induction args with
  | nil => rfl
  | cons arg args ih =>
    cases args with
    | nil => rfl
    | cons next args =>
      rw [List.intercalate_cons_cons, ih, argumentPieces, argumentPieces, List.map_cons, List.intercalate_cons_cons]
      cases args with
      | nil => simp
      | cons third args => simp [List.intercalate_cons_cons]

/-- The text of a class type: its name, its arguments and its dimensions. -/
theorem renderText_class {view : IndexView} {internal name : String} {args : List TypeName} {dims : ℕ}
    (hslash : '/' ∈ internal.toList) (hname : view.getSourceTypeName internal = some name) :
    renderText view ⟨internal, .internal, args, dims⟩ =
      name.toList ++ angleText (args.map (renderText view)) ++ dimsText dims := by
  have hne : ∀ word : String, '/' ∉ word.toList → internal ≠ word := by
    rintro word hword rfl
    exact hword hslash
  have hbase : ∀ rendered, baseInSourceStyle (symbolProvider view) internal rendered = name := by
    intro rendered
    have hprimitive : internal ∉ ["byte", "char", "double", "float", "int", "long", "short", "boolean", "void"] := by
      intro hmem
      have hall : ∀ word ∈ ["byte", "char", "double", "float", "int", "long", "short", "boolean", "void"],
          '/' ∉ word.toList := by decide +kernel
      exact hall internal hmem hslash
    have hsource : sourceName (symbolProvider view) internal = name :=
      (congrArg (fun found => Option.getD found _) hname).trans rfl
    unfold baseInSourceStyle
    rw [if_neg hprimitive, if_neg (hne "*" (by decide)), if_neg (hne "+" (by decide)),
      if_neg (hne "-" (by decide)), hsource]
  rw [renderText, typeNameToSourceStyle, typeNamesToSourceStyle_eq, if_neg (by decide), hbase]
  simp only [decide_eq_false (hne "+" (by decide)), decide_eq_false (hne "-" (by decide)), Bool.or_false]
  rw [String.toList_append, angleText, dimsText]
  congr 1
  cases args with
  | nil => simp
  | cons a args =>
    simp only [List.map_cons, List.isEmpty_cons, Bool.false_eq_true, if_false, String.toList_append,
      String.toList_intercalate, List.append_assoc]
    rw [show ", ".toList = [',', ' '] from rfl, intercalate_pieces]
    simp only [List.map_map]
    rfl

theorem renderText_extends (view : IndexView) (t : TypeName) :
    renderText view (.wildcardExtends t) = "? extends ".toList ++ renderText view t := by
  rw [renderText, TypeName.wildcardExtends, TypeName.withArgsAndKind, typeNameToSourceStyle,
    typeNamesToSourceStyle_eq]
  simp [baseInSourceStyle, dims, renderText]

theorem renderText_super (view : IndexView) (t : TypeName) :
    renderText view (.wildcardSuper t) = "? super ".toList ++ renderText view t := by
  rw [renderText, TypeName.wildcardSuper, TypeName.withArgsAndKind, typeNameToSourceStyle,
    typeNamesToSourceStyle_eq]
  simp [baseInSourceStyle, dims, renderText]

theorem renderText_wildcard (view : IndexView) : renderText view .wildcard = ['?'] := by
  rw [renderText, TypeName.wildcard, TypeName.withKind, TypeName.withArgsAndKind, typeNameToSourceStyle,
    typeNamesToSourceStyle_eq]
  simp [baseInSourceStyle, dims]

/-! ## The cut of a text -/

/-- The text of a type or an argument: nothing to trim, and nothing outside of its brackets that cuts it. -/
structure TypeText (s : List Char) : Prop where
  solid : Solid s
  sealed : Sealed 0 s
  amp : '&' ∉ s

section Cut

variable {segments : List String}

theorem mem_dotted {c : Char} (hnames : ∀ s ∈ segments, IsName s) (h : c ∈ (".".intercalate segments).toList) :
    isIdentifierChar c = true ∨ c = '.' := by
  rcases PathSegments.mem_path h with hsep | ⟨s, hs, hc⟩
  · exact .inr (by simpa using hsep)
  · exact .inl ((hnames s hs).chars c hc)

theorem typeText_dotted (hnames : ∀ s ∈ segments, IsName s) (hne : segments ≠ []) :
    TypeText (".".intercalate segments).toList where
  solid := PathSegments.solid_path (fun s hs => (hnames s hs).identifier.solid) hne
  sealed := by
    refine Plain.sealed (fun c hc => ?_) 0
    rcases mem_dotted hnames hc with hchar | rfl
    · obtain ⟨-, hopen, hclose, hcomma, -⟩ := isIdentifierChar_cases hchar
      exact ⟨hopen, hclose, hcomma⟩
    · decide
  amp h := by
    rcases mem_dotted hnames h with hchar | hdot
    · exact absurd hchar (by decide)
    · exact absurd hdot (by decide)

/-- A text that begins with a dotted name has no modifiers in front. -/
theorem bare_dotted (hnames : ∀ s ∈ segments, IsName s) (hlong : 1 < segments.length) (rest : List Char) :
    Bare ((".".intercalate segments).toList ++ rest) := by
  match segments with
  | first :: next :: others =>
    have hfirst := hnames first List.mem_cons_self
    have htext : (".".intercalate (first :: next :: others)).toList ++ rest =
        first.toList ++ '.' :: ((".".intercalate (next :: others)).toList ++ rest) := by
      rw [String.intercalate_cons_cons, String.toList_append, String.toList_append]
      simp
    rw [htext]
    obtain ⟨c, word, hword⟩ := List.exists_cons_of_ne_nil hfirst.ne_nil
    have hc : isIdentifierChar c = true := hfirst.chars c (hword ▸ List.mem_cons_self)
    refine ⟨?_, ?_, ?_⟩
    · rw [hword]
      exact List.dropWhile_cons_of_neg (by rw [(isIdentifierChar_cases hc).1]; exact Bool.false_ne_true)
    · rintro ⟨more, hmore⟩
      have hdrop : (first.toList ++ '.' :: ((".".intercalate (next :: others)).toList ++ rest)).dropWhile
          isIdentifierChar = '.' :: ((".".intercalate (next :: others)).toList ++ rest) := by
        rw [List.dropWhile_append_of_pos hfirst.chars]
        rfl
      rw [← hmore] at hdrop
      exact absurd (congrArg List.head? hdrop) (by simp [List.dropWhile, isIdentifierChar])
    · intro hat
      rw [hword] at hat
      obtain rfl := Option.some.inj hat
      exact absurd hc (by decide)

theorem sealed_pieces {args : List (List Char)} (h : ∀ arg ∈ args, Sealed 0 arg) :
    ∀ piece ∈ argumentPieces args, Sealed 0 piece := by
  cases args with
  | nil => exact fun _ hp => absurd hp List.not_mem_nil
  | cons arg args =>
    intro piece hpiece
    rcases List.mem_cons.mp hpiece with rfl | hpiece
    · exact h piece List.mem_cons_self
    · obtain ⟨other, hother, rfl⟩ := List.mem_map.mp hpiece
      exact @Sealed.append 0 [' '] other (sealed_singleton (by decide) (by decide) fun h => absurd h (by decide))
        (h other (List.mem_cons_of_mem _ hother))

theorem map_trim_pieces {args : List (List Char)} (h : ∀ arg ∈ args, Solid arg) :
    (argumentPieces args).map trim = args := by
  cases args with
  | nil => rfl
  | cons arg args =>
    rw [argumentPieces, List.map_cons, (h arg List.mem_cons_self).trim_eq, List.map_map]
    congr 1
    refine (List.map_congr_left fun other hother => ?_).trans (List.map_id _)
    have hblank : Blank [' '] := fun c hc => by rw [List.mem_singleton.mp hc]; decide
    exact (trim_blank_append hblank other).trans (h other (List.mem_cons_of_mem _ hother)).trim_eq

theorem amp_not_mem_angleText {args : List (List Char)} (h : ∀ arg ∈ args, '&' ∉ arg) : '&' ∉ angleText args := by
  have hpieces : '&' ∉ [','].intercalate (argumentPieces args) := by
    refine amp_not_mem_intercalate fun piece hpiece => ?_
    cases args with
    | nil => cases hpiece
    | cons arg args =>
      rcases List.mem_cons.mp hpiece with rfl | hpiece
      · exact h piece List.mem_cons_self
      · obtain ⟨other, hother, rfl⟩ := List.mem_map.mp hpiece
        simpa using h other (List.mem_cons_of_mem _ hother)
  rw [angleText]
  split
  · exact List.not_mem_nil
  · simpa using hpieces

theorem sealed_inside_angles {args : List (List Char)} (h : ∀ arg ∈ args, Sealed 0 arg) :
    Sealed 1 ([','].intercalate (argumentPieces args)) :=
  Sealed.intercalate Int.one_pos fun piece hpiece => (sealed_pieces h piece hpiece).mono (by decide)

theorem sealed_angleText {args : List (List Char)} (h : ∀ arg ∈ args, Sealed 0 arg) : Sealed 0 (angleText args) := by
  rw [angleText]
  split
  · exact sealed_nil 0
  · exact (sealed_inside_angles h).brackets

theorem sublist_intercalate {sep : List Char} {pieces : List (List Char)} {piece : List Char} (h : piece ∈ pieces) :
    piece.Sublist (sep.intercalate pieces) := by
  induction pieces with
  | nil => cases h
  | cons first pieces ih =>
    cases pieces with
    | nil =>
      rw [List.intercalate_singleton, List.mem_singleton.mp h]
    | cons next pieces =>
      rw [List.intercalate_cons_cons]
      rcases List.mem_cons.mp h with rfl | h
      · exact (List.sublist_append_left piece sep).trans (List.sublist_append_left _ _)
      · exact (ih h).trans (List.sublist_append_right _ _)

theorem length_lt_angleText {args : List (List Char)} {arg : List Char} (h : arg ∈ args) :
    arg.length < (angleText args).length := by
  have hpiece : ∃ piece ∈ argumentPieces args, arg.Sublist piece := by
    cases args with
    | nil => cases h
    | cons first args =>
      rcases List.mem_cons.mp h with rfl | h
      · exact ⟨arg, List.mem_cons_self, List.Sublist.refl arg⟩
      · exact ⟨' ' :: arg, List.mem_cons_of_mem _ (List.mem_map_of_mem h), List.sublist_cons_self ' ' arg⟩
  obtain ⟨piece, hmem, hsub⟩ := hpiece
  have hlength := (hsub.trans (@sublist_intercalate [','] _ _ hmem)).length_le
  rw [angleText, if_neg (by simpa using List.ne_nil_of_mem h), List.length_cons, List.length_append]
  omega

theorem plain_dimsText (n : ℕ) : Plain (dimsText n) := by
  induction n with
  | zero => exact fun _ hc => absurd hc List.not_mem_nil
  | succ n ih =>
    rw [dimsText_succ]
    intro c hc
    rcases List.mem_append.mp hc with hc | hc
    · exact ih c hc
    · simp only [List.mem_cons, List.not_mem_nil, or_false] at hc
      rcases hc with rfl | rfl <;> decide

theorem solid_dimsText {s : List Char} (h : Solid s) (n : ℕ) : Solid (s ++ dimsText n) := by
  induction n with
  | zero => simpa [dimsText, dims] using h
  | succ n ih =>
    rw [dimsText_succ, ← List.append_assoc]
    have hbrackets : Solid ['[', ']'] :=
      @Solid.append ['['] [']'] (solid_singleton (by decide)) [] (solid_singleton (by decide))
    simpa using ih.append [] hbrackets

theorem stripDimensions_dimsText {s : List Char} (h : Solid s) (hlast : s.getLast? ≠ some ']') (n : ℕ) :
    stripDimensions (s ++ dimsText n) = (n, s) := by
  induction n with
  | zero =>
    obtain ⟨c, hc⟩ := Option.isSome_iff_exists.mp (List.getLast?_isSome.mpr h.ne_nil)
    rw [dimsText, dims, List.replicate_zero]
    simpa using stripDimensions_of_last hc fun heq => hlast (heq ▸ hc)
  | succ n ih =>
    rw [dimsText_succ, ← List.append_assoc, stripDimensions_brackets, (solid_dimsText h n).trim_eq, ih]

/-- The name and the arguments of a class type. -/
def coreText (name : List Char) (args : List (List Char)) : List Char :=
  name ++ angleText args

variable {args : List (List Char)}

theorem solid_coreText {name : List Char} (hname : Solid name) (args : List (List Char)) :
    Solid (coreText name args) := by
  rw [coreText, angleText]
  split
  · rwa [List.append_nil]
  · have hangle := hname.append ('<' :: [','].intercalate (argumentPieces args))
      (solid_singleton (c := '>') (by decide))
    simpa using hangle

theorem last_coreText (hnames : ∀ s ∈ segments, IsName s) (args : List (List Char)) :
    (coreText (".".intercalate segments).toList args).getLast? ≠ some ']' := by
  rw [coreText, angleText]
  split
  · rw [List.append_nil]
    intro hlast
    rcases mem_dotted hnames (List.mem_of_getLast? hlast) with hchar | hdot
    · exact absurd hchar (by decide)
    · exact absurd hdot (by decide)
  · rw [← List.cons_append, ← List.append_assoc, List.getLast?_concat]
    decide

/-- The text of a class type with a dotted name is cut at its dimensions and nowhere else. -/
theorem typeText_class (hnames : ∀ s ∈ segments, IsName s) (hne : segments ≠ []) (hargs : ∀ arg ∈ args, TypeText arg)
    (n : ℕ) : TypeText (coreText (".".intercalate segments).toList args ++ dimsText n) where
  solid := solid_dimsText (solid_coreText (typeText_dotted hnames hne).solid args) n
  sealed := by
    have hangles := sealed_angleText fun arg harg => (hargs arg harg).sealed
    exact ((typeText_dotted hnames hne).sealed.append hangles).append ((plain_dimsText n).sealed 0)
  amp h := by
    rw [coreText] at h
    rcases List.mem_append.mp h with h | h
    · rcases List.mem_append.mp h with h | h
      · exact (typeText_dotted hnames hne).amp h
      · exact amp_not_mem_angleText (fun arg harg => (hargs arg harg).amp) h
    · induction n with
      | zero => cases h
      | succ n ih =>
        rw [dimsText_succ] at h
        rcases List.mem_append.mp h with h | h
        · exact ih (List.mem_append_right _ h) h
        · revert h
          decide

theorem typeCore_class (hnames : ∀ s ∈ segments, IsName s) (hlong : 1 < segments.length)
    (hargs : ∀ arg ∈ args, TypeText arg) (n : ℕ) :
    bareType (coreText (".".intercalate segments).toList args ++ dimsText n) =
        coreText (".".intercalate segments).toList args ++ dimsText n ∧
      typeCore (coreText (".".intercalate segments).toList args ++ dimsText n) =
        (n, coreText (".".intercalate segments).toList args) := by
  have hne : segments ≠ [] := List.ne_nil_of_length_pos (by omega)
  have htext := (typeText_class hnames hne hargs n).solid.trim_eq
  have hbare : bareType (coreText (".".intercalate segments).toList args ++ dimsText n) =
      coreText (".".intercalate segments).toList args ++ dimsText n := by
    refine bareType_of_bare ?_ htext
    rw [coreText, List.append_assoc]
    exact bare_dotted hnames hlong _
  refine ⟨hbare, ?_⟩
  rw [typeCore, hbare]
  exact stripDimensions_dimsText (solid_coreText (typeText_dotted hnames hne).solid args) (last_coreText hnames args) n

theorem bounds_coreText (hnames : ∀ s ∈ segments, IsName s) (hne : segments ≠ []) (hargs : ∀ arg ∈ args, TypeText arg) :
    splitTopLevelJavaIntersectionBounds (coreText (".".intercalate segments).toList args) =
      [coreText (".".intercalate segments).toList args] := by
  have hsolid := solid_coreText (typeText_dotted hnames hne).solid args
  have hamp : '&' ∉ coreText (".".intercalate segments).toList args := fun h =>
    (typeText_class hnames hne hargs 0).amp (List.mem_append_left _ h)
  have huncut := uncut_of_not_mem hamp 0
  rw [splitTopLevelJavaIntersectionBounds_eq]
  · rw [huncut, List.map_singleton, hsolid.trim_eq]
  · rw [huncut, List.forall_mem_singleton, hsolid.trim_eq]
    exact hsolid.ne_nil

theorem lt_not_mem_dotted (hnames : ∀ s ∈ segments, IsName s) : '<' ∉ (".".intercalate segments).toList := by
  intro h
  rcases mem_dotted hnames h with hchar | hdot
  · exact absurd hchar (by decide)
  · exact absurd hdot (by decide)

end Cut

/-! ## Angle brackets -/

mutual

/-- How many class types of a type have arguments. -/
def angleCount : TypeName → ℕ
  | ⟨_, kind, args, _⟩ => (if kind = .internal ∧ args ≠ [] then 1 else 0) + angleCounts args

def angleCounts : List TypeName → ℕ
  | [] => 0
  | t :: ts => angleCount t + angleCounts ts

end

theorem angleCounts_eq (types : List TypeName) : angleCounts types = (types.map angleCount).sum := by
  induction types with
  | nil => rfl
  | cons t types ih => rw [angleCounts, ih, List.map_cons, List.sum_cons]

theorem trim_sublist (s : List Char) : (trim s).Sublist s := by
  obtain ⟨b, b', heq, -, -⟩ := exists_trim s
  conv_rhs => rw [heq]
  exact (List.sublist_append_right b _).trans (List.sublist_append_left _ b')

theorem stripModifiersFuel_sublist (n : ℕ) (s : List Char) : (stripModifiersFuel n s).Sublist s := by
  induction n generalizing s with
  | zero => exact List.Sublist.refl s
  | succ n ih =>
    have hstart := (trimStart_suffix s).sublist
    rw [stripModifiersFuel]
    split
    · exact (ih _).trans ((List.drop_sublist _ _).trans hstart)
    · split
      · split
        · rename_i front rest hsplit
          have hrest : rest.Sublist (trimStart s) := by
            rw [(splitOnce_eq hsplit).1]
            exact (List.sublist_cons_self _ rest).trans (List.sublist_append_right front _)
          exact (ih rest).trans (hrest.trans hstart)
        · exact hstart
      · exact hstart

theorem typeCore_sublist (s : List Char) : (typeCore s).2.Sublist s := by
  refine (typeCore_front s).sublist.trans ?_
  exact (trim_sublist _).trans ((stripModifiersFuel_sublist _ _).trans (trim_sublist s))

/-- The arguments of a text stand in it before a closing bracket. -/
theorem args_sublist {s name args : List Char} (h : splitJavaGenericBase s = some (name, some args)) :
    (args ++ ['>']).Sublist s := by
  rw [splitJavaGenericBase] at h
  split at h
  · cases h
  · rename_i start _
    obtain ⟨i, hclosing, heq⟩ := Option.map_eq_some_iff.mp h
    obtain ⟨-, hargs⟩ := Prod.mk.inj heq
    obtain rfl := Option.some.inj hargs
    obtain ⟨front, rest, hfront, rfl, -⟩ := closingAngle_spec hclosing
    have hback : s.drop (byteLength (s.take start) + front.length) = '>' :: rest := by
      rw [← List.drop_drop, hfront, List.drop_left]
    rw [← List.take_append_drop (byteLength (s.take start) + front.length) s, hback]
    refine ((trim_sublist _).trans ?_).append (List.singleton_sublist.mpr List.mem_cons_self)
    rw [← hback, List.take_append_drop]
    exact List.drop_sublist _ _

section Counts

variable {ctx : SourceTypeCtx}

theorem amp_not_mem_piece {args piece : List Char} (h : '&' ∉ args) (hpiece : piece ∈ splitJavaGenericArgs args) :
    '&' ∉ piece := by
  have hsum := @sum_count_splitJavaGenericArgs '&' (by decide) (by decide) args
  rw [List.count_eq_zero.mpr h] at hsum
  exact List.count_eq_zero.mp (List.sum_eq_zero_iff.mp hsum _ (List.mem_map_of_mem hpiece))

theorem sum_angleCount_le {resolve : List Char → Option TypeName} {pieces : List (List Char)} {types : List TypeName}
    (hle : ∀ piece u, piece ∈ pieces → resolve piece = some u → angleCount u ≤ piece.count '>')
    (h : List.Forall₂ (fun piece u => resolve piece = some u) pieces types) :
    (types.map angleCount).sum ≤ (pieces.map (List.count '>')).sum := by
  induction h with
  | nil => exact le_rfl
  | @cons piece u pieces types hfirst _ ih =>
    rw [List.map_cons, List.map_cons, List.sum_cons, List.sum_cons]
    exact Nat.add_le_add (hle piece u List.mem_cons_self hfirst)
      (ih fun piece u hp => hle piece u (List.mem_cons_of_mem _ hp))

/-- A resolved type has no more types with arguments than its text has closing brackets. -/
theorem angleCount_resolved (fuel : ℕ) :
    (∀ s t, '&' ∉ s → ctx.resolveTypeNameStrictFuel fuel s = some t → angleCount t ≤ s.count '>') ∧
      ∀ s t, '&' ∉ s → ctx.resolveTypeArgTypeFuel fuel s = some t → angleCount t ≤ s.count '>' := by
  induction fuel with
  | zero => exact ⟨fun _ _ _ h => (by cases h), fun _ _ _ h => (by cases h)⟩
  | succ fuel ih =>
    obtain ⟨ihType, ihArg⟩ := ih
    constructor
    · intro s t hamp h
      have hcore := typeCore_sublist s
      have hbounds : ¬ 1 < (splitTopLevelJavaIntersectionBounds (typeCore s).2).length := by
        have huncut := uncut_of_not_mem (fun hmem => hamp (hcore.mem hmem)) 0
        rw [splitTopLevelJavaIntersectionBounds, huncut, List.map_singleton]
        exact not_lt.mpr (List.length_filter_le _ _)
      obtain ⟨name, args, internal, types, hsplit, -, htypes, rfl⟩ := ctx.resolveTypeNameStrictFuel_class hbounds h
      cases args with
      | none =>
        obtain rfl := List.forall₂_nil_left_iff.mp htypes
        exact Nat.zero_le _
      | some args =>
        have hinside := (args_sublist hsplit).trans hcore
        have hargs : '&' ∉ args := fun hmem => hamp (hinside.mem (List.mem_append_left _ hmem))
        have hclosing : args.count '>' + 1 ≤ s.count '>' := by
          have hcount := hinside.count_le '>'
          rwa [List.count_append, List.count_singleton_self] at hcount
        have hsum : (types.map angleCount).sum ≤ ((splitJavaGenericArgs args).map (List.count '>')).sum :=
          sum_angleCount_le (fun piece u hpiece hu => ihArg piece u (amp_not_mem_piece hargs hpiece) hu) htypes
        rw [sum_count_splitJavaGenericArgs (by decide) (by decide)] at hsum
        rw [SourceTypeCtx.classType, angleCount, angleCounts_eq]
        split
        · omega
        · omega
    · intro s t hamp h
      have htrim := trim_sublist s
      rw [SourceTypeCtx.resolveTypeArgTypeFuel] at h
      split_ifs at h
      · obtain rfl := Option.some.inj h
        exact Nat.zero_le _
      · obtain ⟨u, hu, rfl⟩ := Option.map_eq_some_iff.mp h
        have hbound := (List.drop_sublist "? extends ".length (trim s)).trans htrim
        have hcount := ihArg _ u (fun hmem => hamp (hbound.mem hmem)) hu
        exact (Nat.zero_add _).le.trans (hcount.trans (hbound.count_le _))
      · obtain ⟨u, hu, rfl⟩ := Option.map_eq_some_iff.mp h
        have hbound := (List.drop_sublist "? super ".length (trim s)).trans htrim
        have hcount := ihArg _ u (fun hmem => hamp (hbound.mem hmem)) hu
        exact (Nat.zero_add _).le.trans (hcount.trans (hbound.count_le _))
      · obtain ⟨resolved, hresolved, h⟩ := Option.bind_eq_some_iff.mp h
        split_ifs at h
        obtain rfl := Option.some.inj h
        exact (ihType _ _ (fun hmem => hamp (htrim.mem hmem)) hresolved).trans (htrim.count_le _)

end Counts

theorem count_inside_angles (args : List (List Char)) :
    ([','].intercalate (argumentPieces args)).count '>' = (args.map (List.count '>')).sum := by
  rw [ScannedSplit.count_intercalate_of_ne (by decide)]
  cases args with
  | nil => rfl
  | cons arg args =>
    rw [argumentPieces, List.map_cons, List.map_cons, List.map_map]
    exact congrArg (List.sum ∘ List.cons _) (List.map_congr_left fun other _ => List.count_cons_of_ne (by decide))

theorem count_angleText (args : List (List Char)) :
    (angleText args).count '>' = (args.map (List.count '>')).sum + if args = [] then 0 else 1 := by
  cases args with
  | nil => rfl
  | cons arg args =>
    rw [angleText, if_neg (by simp), if_neg (List.cons_ne_nil arg args), List.count_cons_of_ne (by decide),
      List.count_append, count_inside_angles]
    rfl

theorem count_dimsText (n : ℕ) : (dimsText n).count '>' = 0 :=
  List.count_eq_zero.mpr fun h => (plain_dimsText n '>' h).2.1 rfl

/-! ## Resolving what is rendered -/

section Rendered

variable {view : IndexView} (hnames : ∀ c ∈ view.records, BinaryNamed c)

include hnames

/-- The class of a class type, with the segments of its name. -/
theorem exists_class {internal pkg : String} {c : ClassMetadata} (hget : view.getClass internal = some c)
    (hpkg : c.package = some pkg) : '/' ∈ internal.toList ∧ ∃ segments, Segments view c segments ∧
      view.getSourceTypeName internal = some (".".intercalate segments) := by
  obtain ⟨segments, hsegments⟩ := exists_segments hnames hget hpkg
  obtain ⟨hc, rfl⟩ := record_of_getClass hget
  refine ⟨?_, segments, hsegments, hsegments.source⟩
  obtain ⟨tail, -, hinternal⟩ := (hnames c hc).named.named.package
  rw [hinternal, hpkg, toList_buildInternalName]
  exact List.mem_append_right _ List.mem_cons_self

end Rendered

/-- What holds of the text of a type. -/
structure Rendered (view : IndexView) (t : TypeName) : Prop where
  text : TypeText (renderText view t)
  count : (renderText view t).count '>' = angleCount t

section Rendered

variable {view : IndexView}

theorem rendered_wildcard : Rendered view .wildcard where
  text := by
    rw [renderText_wildcard]
    exact ⟨solid_singleton (by decide), sealed_singleton (by decide) (by decide) fun h => absurd h (by decide),
      by decide⟩
  count := by
    rw [renderText_wildcard]
    rfl

/-- A word with a question mark in front of a type. -/
theorem typeText_bound {word s : List Char} (hword : word.all (fun c => c ≠ '<' && c ≠ '>' && c ≠ ',' && c ≠ '&'))
    (h : TypeText s) : TypeText ('?' :: word ++ s) ∧ ('?' :: word ++ s).count '>' = s.count '>' := by
  have hall : ∀ c ∈ word, (c ≠ '<' ∧ c ≠ '>' ∧ c ≠ ',') ∧ c ≠ '&' := by
    intro c hc
    have htest := List.all_eq_true.mp hword c hc
    simpa [and_assoc] using htest
  have hplain : Plain ('?' :: word) := fun c hc => by
    rcases List.mem_cons.mp hc with rfl | hc
    · decide
    · exact (hall c hc).1
  refine ⟨⟨?_, (hplain.sealed 0).append h.sealed, ?_⟩, ?_⟩
  · exact @Solid.append ['?'] s (solid_singleton (by decide)) word h.solid
  · rw [List.mem_append, List.mem_cons]
    rintro ((hamp | hamp) | hamp)
    · exact absurd hamp (by decide)
    · exact (hall '&' hamp).2 rfl
    · exact h.amp hamp
  · rw [List.count_append, List.count_eq_zero.mpr fun hclose => (hplain '>' hclose).2.1 rfl, Nat.zero_add]

theorem Rendered.extendsBound {t : TypeName} (h : Rendered view t) : Rendered view (.wildcardExtends t) := by
  obtain ⟨htext, hcount⟩ := @typeText_bound " extends ".toList _ (by decide +kernel) h.text
  constructor
  · rw [renderText_extends]
    exact htext
  · rw [renderText_extends]
    refine hcount.trans (h.count.trans ?_)
    exact (Nat.zero_add (angleCount t)).symm

theorem Rendered.superBound {t : TypeName} (h : Rendered view t) : Rendered view (.wildcardSuper t) := by
  obtain ⟨htext, hcount⟩ := @typeText_bound " super ".toList _ (by decide +kernel) h.text
  constructor
  · rw [renderText_super]
    exact htext
  · rw [renderText_super]
    refine hcount.trans (h.count.trans ?_)
    exact (Nat.zero_add (angleCount t)).symm

theorem rendered_class {c : ClassMetadata} {segments : List String} (hsegments : Segments view c segments)
    (hslash : '/' ∈ c.internalName.toList) {args : List TypeName} (hargs : ∀ a ∈ args, Rendered view a) (dims : ℕ) :
    Rendered view ⟨c.internalName, .internal, args, dims⟩ where
  text := by
    rw [renderText_class hslash hsegments.source]
    refine typeText_class hsegments.names (List.ne_nil_of_length_pos (by have := hsegments.long; omega)) ?_ dims
    intro arg harg
    obtain ⟨a, ha, rfl⟩ := List.mem_map.mp harg
    exact (hargs a ha).text
  count := by
    have hname : ((".".intercalate segments).toList).count '>' = 0 := List.count_eq_zero.mpr fun h => by
      rcases mem_dotted hsegments.names h with hchar | hdot
      · exact absurd hchar (by decide)
      · exact absurd hdot (by decide)
    have hcounts : (args.map (renderText view)).map (List.count '>') = args.map angleCount := by
      rw [List.map_map]
      exact List.map_congr_left fun a ha => (hargs a ha).count
    rw [renderText_class hslash hsegments.source, List.count_append, List.count_append, hname, count_dimsText,
      count_angleText, hcounts, angleCount, angleCounts_eq]
    cases args with
    | nil => rfl
    | cons a args => simp [Nat.add_comm]

end Rendered

/-! ## Resolving -/

/-- The name of a class of an index has only characters of one byte. -/
def OneByteName (view : IndexView) (internal : String) : Prop :=
  ∀ name, view.getSourceTypeName internal = some name → ∀ c ∈ name.toList, c.utf8Size = 1

/-- The name of a class type leads to its class, and arguments behind it are found. -/
structure FoundByName (view : IndexView) (t : TypeName) : Prop where
  leads : LongestFrontLeads view t.baseInternal
  bytes : t.args ≠ [] → OneByteName view t.baseInternal

/-- No simple name in scope in the file is the first segment of the name of a class. -/
def FirstSegmentFree (ctx : SourceTypeCtx) (internal : String) : Prop :=
  ∀ name, ctx.view.getSourceTypeName internal = some name →
    ∀ s ∈ (dottedParts name.toList).head?, ctx.resolveSimpleStrict s = none

section Resolving

variable {ctx : SourceTypeCtx} {c : ClassMetadata} {segments : List String} {args : List TypeName}

/-- The resolution of the text of a class type, from the cut of its name and arguments. -/
theorem resolve_cut (hsegments : Segments ctx.view c segments) {pieces : List (List Char)}
    (hpieces : ∀ piece ∈ pieces, TypeText piece) (fuel n : ℕ) :
    ctx.resolveTypeNameStrictFuel (fuel + 1) (coreText (".".intercalate segments).toList pieces ++ dimsText n) =
      (splitJavaGenericBase (coreText (".".intercalate segments).toList pieces)).bind fun split =>
        (ctx.resolveBaseInternal split.1).bind fun baseInternal =>
          (match split.2 with
            | some args =>
              ((splitJavaGenericArgs args).mapM (ctx.resolveTypeArgTypeFuel fuel)).map fun (argTypes : List TypeName) =>
                if argTypes.isEmpty then TypeName.internal baseInternal
                else TypeName.internalWithArgs baseInternal argTypes
            | none => some (TypeName.internal baseInternal)).map fun (t : TypeName) =>
              if 0 < n then t.withArrayDims n else t := by
  have hne : segments ≠ [] := List.ne_nil_of_length_pos (by have := hsegments.long; omega)
  obtain ⟨hbare, hcore⟩ := typeCore_class hsegments.names hsegments.long hpieces n
  have hfilled : (coreText (".".intercalate segments).toList pieces ++ dimsText n).isEmpty = false := by
    simpa using (typeText_class hsegments.names hne hpieces n).solid.ne_nil
  have hbounds := bounds_coreText hsegments.names hne hpieces
  rw [ctx.resolveTypeNameStrictFuel_eq, hbare, hcore]
  simp only [hfilled, hbounds, Bool.false_eq_true, if_false, List.length_singleton, lt_irrefl]
  all_goals rfl

theorem withDims_eq_iff {internal internal' : String} {args args' : List TypeName} {n : ℕ} :
    (if 0 < n then (⟨internal, .internal, args, 0⟩ : TypeName).withArrayDims n
      else ⟨internal, .internal, args, 0⟩) = ⟨internal', .internal, args', n⟩ ↔
      internal = internal' ∧ args = args' := by
  rw [withArrayDims_of_pos rfl n]
  constructor
  · intro h
    obtain ⟨hinternal, -, hargs, -⟩ := TypeName.mk.inj h
    exact ⟨hinternal, hargs⟩
  · rintro ⟨rfl, rfl⟩
    rfl

theorem trimmed_pieces {texts : List (List Char)} (h : ∀ piece ∈ texts, TypeText piece) :
    ∀ piece ∈ argumentPieces texts, Sealed 0 piece ∧ trim piece ≠ [] := by
  intro piece hpiece
  refine ⟨sealed_pieces (fun text htext => (h text htext).sealed) piece hpiece, ?_⟩
  have htrim := List.mem_map_of_mem (f := trim) hpiece
  rw [map_trim_pieces fun text htext => (h text htext).solid] at htrim
  exact (h _ htrim).solid.ne_nil

/-- The arguments of a resolved class type are what the texts of its arguments are resolved to. -/
theorem resolved_args {resolved : Option (List TypeName)} {internal internal' : String} {a : TypeName} {n : ℕ}
    (h : (resolved.map fun (argTypes : List TypeName) =>
        if argTypes.isEmpty then TypeName.internal internal else TypeName.internalWithArgs internal argTypes).map
          (fun (t : TypeName) => if 0 < n then t.withArrayDims n else t) =
      some ⟨internal', .internal, a :: args, n⟩) :
    ∃ types, resolved = some types ∧ internal = internal' ∧ types = a :: args := by
  obtain ⟨t, ht, htype⟩ := Option.map_eq_some_iff.mp h
  obtain ⟨types, htypes, rfl⟩ := Option.map_eq_some_iff.mp ht
  refine ⟨types, htypes, ?_⟩
  cases types with
  | nil =>
    obtain ⟨-, hargs⟩ := withDims_eq_iff.mp htype
    cases hargs
  | cons b types => exact withDims_eq_iff.mp htype

theorem resolve_class (hnames : ∀ c ∈ ctx.view.records, BinaryNamed c) (hsegments : Segments ctx.view c segments)
    (hget : ctx.view.getClass c.internalName = some c) (hslash : '/' ∈ c.internalName.toList)
    (hscope : FirstSegmentFree ctx c.internalName) (hargs : ∀ a ∈ args, Rendered ctx.view a) {fuel n : ℕ}
    {Good : TypeName → Prop} (hgood : ∀ a ∈ args,
      ctx.resolveTypeArgTypeFuel fuel (renderText ctx.view a) = some a ↔ Good a) :
    ctx.resolveTypeNameStrictFuel (fuel + 1) (renderText ctx.view ⟨c.internalName, .internal, args, n⟩) =
        some ⟨c.internalName, .internal, args, n⟩ ↔
      FoundByName ctx.view ⟨c.internalName, .internal, args, n⟩ ∧ ∀ a ∈ args, Good a := by
  have hjava : ∀ c ∈ ctx.view.records, JavaNamed c := fun c hc => (hnames c hc).named
  have hne : segments ≠ [] := List.ne_nil_of_length_pos (by have := hsegments.long; omega)
  have hpieces : ∀ piece ∈ args.map (renderText ctx.view), TypeText piece := by
    intro piece hpiece
    obtain ⟨a, ha, rfl⟩ := List.mem_map.mp hpiece
    exact (hargs a ha).text
  have hsolid := (typeText_dotted hsegments.names hne).solid
  have hlt := lt_not_mem_dotted hsegments.names
  have hbase := resolveBaseInternal_iff hjava hsegments hget fun s hs => hscope _ hsegments.source s (by
    rwa [dottedParts_path (fun s hs => (hsegments.names s hs).identifier) hne])
  have hcut := resolve_cut hsegments hpieces fuel n
  rw [renderText_class hslash hsegments.source]
  rw [coreText] at hcut
  rw [hcut]
  cases args with
  | nil =>
    have hplain : splitJavaGenericBase ((".".intercalate segments).toList ++ angleText ([].map (renderText ctx.view))) =
        some ((".".intercalate segments).toList, none) := by
      rw [List.map_nil, angleText, if_pos (by rfl), List.append_nil, splitJavaGenericBase_plain hlt, hsolid.trim_eq]
    rw [hplain, Option.bind_some, Option.bind_eq_some_iff]
    constructor
    · rintro ⟨internal, hinternal, htype⟩
      rw [Option.map_some, Option.some.injEq] at htype
      obtain ⟨rfl, -⟩ := withDims_eq_iff.mp htype
      exact ⟨⟨hbase.mp hinternal, fun h => absurd rfl h⟩, fun a ha => absurd ha List.not_mem_nil⟩
    · rintro ⟨hfound, -⟩
      exact ⟨_, hbase.mpr hfound.leads, congrArg some (withDims_eq_iff.mpr ⟨rfl, rfl⟩)⟩
  | cons a args =>
    have hwithArgs : splitJavaGenericBase ((".".intercalate segments).toList ++
        angleText ((a :: args).map (renderText ctx.view))) = splitJavaGenericBase ((".".intercalate segments).toList ++
          '<' :: ([','].intercalate (argumentPieces ((a :: args).map (renderText ctx.view))) ++ '>' :: [])) := by
      rw [angleText, if_neg (by simp)]
    have hinside := sealed_inside_angles fun piece hpiece => (hpieces piece hpiece).sealed
    rw [hwithArgs]
    by_cases hbytes : byteLength (".".intercalate segments).toList = (".".intercalate segments).toList.length
    · have hone : OneByteName ctx.view c.internalName := by
        intro name hname
        obtain rfl := Option.some.inj (hsegments.source.symm.trans hname)
        exact (byteLength_eq_length_iff _).mp hbytes
      rw [splitJavaGenericBase_bytes hlt hinside hbytes, hsolid.trim_eq, Option.bind_some, Option.bind_eq_some_iff]
      have hsplitArgs : splitJavaGenericArgs
          (trim ([','].intercalate (argumentPieces ((a :: args).map (renderText ctx.view))))) =
            (a :: args).map (renderText ctx.view) := by
        rw [splitJavaGenericArgs_intercalate (trimmed_pieces hpieces) (by simp [argumentPieces]),
          map_trim_pieces fun piece hpiece => (hpieces piece hpiece).solid]
      dsimp only
      rw [hsplitArgs]
      constructor
      · rintro ⟨internal, hinternal, htype⟩
        obtain ⟨types, htypes, rfl, htypesEq⟩ := resolved_args htype
        refine ⟨⟨hbase.mp hinternal, fun _ => hone⟩, fun b hb => ?_⟩
        rw [htypesEq, mapM_eq_some_iff, List.forall₂_map_left_iff, List.forall₂_same] at htypes
        exact (hgood b hb).mp (htypes b hb)
      · rintro ⟨hfound, hall⟩
        refine ⟨_, hbase.mpr hfound.leads, ?_⟩
        have htypes : ((a :: args).map (renderText ctx.view)).mapM (ctx.resolveTypeArgTypeFuel fuel) =
            some (a :: args) := by
          rw [mapM_eq_some_iff, List.forall₂_map_left_iff, List.forall₂_same]
          exact fun b hb => (hgood b hb).mpr (hall b hb)
        rw [htypes, Option.map_some, Option.map_some]
        exact congrArg some (withDims_eq_iff.mpr ⟨rfl, rfl⟩)
    · refine iff_of_false (fun h => ?_) fun h => hbytes ((byteLength_eq_length_iff _).mpr
        (h.1.bytes (List.cons_ne_nil a args) _ hsegments.source))
      have hmore := lt_of_le_of_ne (length_le_byteLength _) (Ne.symm hbytes)
      obtain ⟨⟨name, found⟩, hsplit, h⟩ := Option.bind_eq_some_iff.mp h
      obtain ⟨internal, -, htype⟩ := Option.bind_eq_some_iff.mp h
      cases found with
      | none =>
        rw [splitJavaGenericBase_bracket hlt] at hsplit
        obtain ⟨i, -, heq⟩ := Option.map_eq_some_iff.mp hsplit
        cases heq
      | some found =>
        obtain ⟨types, htypes, -, rfl⟩ := resolved_args htype
        have hamp : '&' ∉ found := fun hmem => by
          have hcore := (args_sublist hsplit).mem (List.mem_append_left _ hmem)
          rw [show '<' :: ([','].intercalate (argumentPieces ((a :: args).map (renderText ctx.view))) ++ ['>']) =
            angleText ((a :: args).map (renderText ctx.view)) by rw [angleText, if_neg (by simp)]] at hcore
          exact (typeText_class hsegments.names hne hpieces 0).amp (List.mem_append_left _ hcore)
        have hfewer := splitJavaGenericBase_skips hlt hinside List.not_mem_nil hmore hsplit
        have hsum := sum_angleCount_le (fun piece u hpiece hu =>
          (angleCount_resolved fuel).2 piece u (amp_not_mem_piece hamp hpiece) hu) (mapM_eq_some_iff.mp htypes)
        rw [sum_count_splitJavaGenericArgs (by decide) (by decide)] at hsum
        have hcounts : ([','].intercalate (argumentPieces ((a :: args).map (renderText ctx.view)))).count '>' =
            ((a :: args).map angleCount).sum := by
          rw [count_inside_angles, List.map_map]
          exact congrArg List.sum (List.map_congr_left fun b hb => (hargs b hb).count)
        omega

/-- The classes of a type are found by their names, and the types that are arguments in it are no arrays. -/
structure Resolvable (view : IndexView) (t : TypeName) : Prop where
  found : ∀ u ∈ classTypes t, FoundByName view u
  noArrays : ∀ u ∈ classTypesOfAll t.args, u.arrayDims = 0

/-- The same for an argument. -/
def ResolvableArgument (view : IndexView) (a : TypeName) : Prop :=
  ∀ u ∈ classTypes a, FoundByName view u ∧ u.arrayDims = 0

theorem resolvable_class {internal : String} {n : ℕ} :
    Resolvable ctx.view ⟨internal, .internal, args, n⟩ ↔
      FoundByName ctx.view ⟨internal, .internal, args, n⟩ ∧ ∀ a ∈ args, ResolvableArgument ctx.view a := by
  have htypes : classTypes ⟨internal, .internal, args, n⟩ =
      ⟨internal, .internal, args, n⟩ :: args.flatMap classTypes := by
    rw [classTypes, if_pos rfl, classTypesOfAll_eq, List.singleton_append]
  constructor
  · rintro ⟨hfound, hno⟩
    rw [htypes, List.forall_mem_cons] at hfound
    rw [classTypesOfAll_eq] at hno
    exact ⟨hfound.1, fun a ha u hu => ⟨hfound.2 u (List.mem_flatMap.mpr ⟨a, ha, hu⟩),
      hno u (List.mem_flatMap.mpr ⟨a, ha, hu⟩)⟩⟩
  · rintro ⟨hfound, hargs⟩
    refine ⟨?_, ?_⟩
    · rw [htypes, List.forall_mem_cons]
      refine ⟨hfound, fun u hu => ?_⟩
      obtain ⟨a, ha, hu⟩ := List.mem_flatMap.mp hu
      exact (hargs a ha u hu).1
    · rw [classTypesOfAll_eq]
      intro u hu
      obtain ⟨a, ha, hu⟩ := List.mem_flatMap.mp hu
      exact (hargs a ha u hu).2

/-- What is resolved for the text of a type. -/
structure TypeResolves (ctx : SourceTypeCtx) (t : TypeName) : Prop where
  rendered : Rendered ctx.view t
  isClass : t.kind = .internal ∧ '/' ∈ t.baseInternal.toList
  first : ∀ c ∈ (renderText ctx.view t).head?, c ≠ '?'
  resolves : (∀ u ∈ classTypes t, FirstSegmentFree ctx u.baseInternal) → ∀ fuel,
    2 * (renderText ctx.view t).length + 1 ≤ fuel →
      (ctx.resolveTypeNameStrictFuel fuel (renderText ctx.view t) = some t ↔ Resolvable ctx.view t)

structure ArgumentResolves (ctx : SourceTypeCtx) (a : TypeName) : Prop where
  rendered : Rendered ctx.view a
  resolves : (∀ u ∈ classTypes a, FirstSegmentFree ctx u.baseInternal) → ∀ fuel,
    2 * (renderText ctx.view a).length + 2 ≤ fuel →
      (ctx.resolveTypeArgTypeFuel fuel (renderText ctx.view a) = some a ↔ ResolvableArgument ctx.view a)

theorem classTypes_eq {t : TypeName} (h : t.kind = .internal) : classTypes t = t :: classTypesOfAll t.args := by
  obtain ⟨base, kind, args, dims⟩ := t
  rw [classTypes, if_pos h, List.singleton_append]

theorem TypeResolves.argument {t : TypeName} (h : TypeResolves ctx t) : ArgumentResolves ctx t := by
  refine ⟨h.rendered, fun hscope fuel hfuel => ?_⟩
  obtain ⟨fuel, rfl⟩ : ∃ k, fuel = k + 1 := ⟨fuel - 1, by omega⟩
  have hsolid := h.rendered.text.solid
  have hword : ∀ word : List Char, word.head? = some '?' → ¬ word.isPrefixOf (renderText ctx.view t) = true := by
    intro word hhead hpre
    obtain ⟨rest, hrest⟩ := List.isPrefixOf_iff_prefix.mp hpre
    exact h.first '?' (by rw [← hrest, List.head?_append, hhead]; rfl) rfl
  have hquestion : renderText ctx.view t ≠ ['?'] := fun heq => h.first '?' (by rw [heq]; rfl) rfl
  have hempty : ¬ (renderText ctx.view t).isEmpty = true := by simpa using hsolid.ne_nil
  have hresolves := h.resolves hscope fuel (by omega)
  rw [SourceTypeCtx.resolveTypeArgTypeFuel, hsolid.trim_eq, if_neg hempty, if_neg hquestion,
    if_neg (hword _ rfl), if_neg (hword _ rfl)]
  have hargument : ResolvableArgument ctx.view t ↔ Resolvable ctx.view t ∧ t.arrayDims = 0 := by
    rw [ResolvableArgument, classTypes_eq h.isClass.1, List.forall_mem_cons]
    constructor
    · rintro ⟨⟨hfound, hdims⟩, hall⟩
      refine ⟨⟨?_, fun u hu => (hall u hu).2⟩, hdims⟩
      rw [classTypes_eq h.isClass.1]
      exact List.forall_mem_cons.mpr ⟨hfound, fun u hu => (hall u hu).1⟩
    · rintro ⟨⟨hfound, hno⟩, hdims⟩
      rw [classTypes_eq h.isClass.1, List.forall_mem_cons] at hfound
      exact ⟨⟨hfound.1, hdims⟩, fun u hu => ⟨hfound.2 u hu, hno u hu⟩⟩
  rw [hargument, ← hresolves, Option.bind_eq_some_iff]
  constructor
  · rintro ⟨resolved, hresolved, hkept⟩
    split_ifs at hkept with harray
    obtain rfl := Option.some.inj hkept
    refine ⟨hresolved, Nat.eq_zero_of_not_pos fun hpos => harray ?_⟩
    rw [TypeName.isArray, decide_eq_true hpos, Bool.true_or]
  · rintro ⟨hresolved, hdims⟩
    refine ⟨t, hresolved, ?_⟩
    obtain ⟨hkind, hslash⟩ := h.isClass
    have herased : t.erasedInternal = t.baseInternal := by
      obtain ⟨base, kind, args, dims⟩ := t
      obtain rfl : kind = .internal := hkind
      rfl
    have hprimitive : SourceTypeCtx.isPrimitiveBase t.baseInternal = false := by
      refine Bool.eq_false_of_not_eq_true fun hmem => ?_
      have hall : ∀ word ∈ ["void", "boolean", "byte", "char", "short", "int", "long", "float", "double"],
          '/' ∉ word.toList := by decide +kernel
      exact hall _ (List.contains_iff_mem.mp hmem) hslash
    rw [TypeName.isArray, TypeName.isIntersection, hdims, hkind, herased, hprimitive]
    simp [hslash]

/-- A wildcard with a bound is resolved where its bound is. -/
theorem ArgumentResolves.bound {t : TypeName} (h : ArgumentResolves ctx t) {word : List Char}
    {wrap : TypeName → TypeName} (hrendered : Rendered ctx.view (wrap t))
    (htext : renderText ctx.view (wrap t) = word ++ renderText ctx.view t)
    (hstep : ∀ fuel s, Solid (word ++ s) → ctx.resolveTypeArgTypeFuel (fuel + 1) (word ++ s) =
      (ctx.resolveTypeArgTypeFuel fuel s).map wrap)
    (hword : word ≠ []) (hinj : Function.Injective wrap) (htypes : classTypes (wrap t) = classTypes t) :
    ArgumentResolves ctx (wrap t) := by
  refine ⟨hrendered, fun hscope fuel hfuel => ?_⟩
  obtain ⟨fuel, rfl⟩ : ∃ k, fuel = k + 1 := ⟨fuel - 1, by omega⟩
  have hlength := List.length_pos_of_ne_nil hword
  have hsolid := hrendered.text.solid
  rw [htext] at hsolid hfuel ⊢
  rw [List.length_append] at hfuel
  rw [htypes] at hscope
  rw [hstep fuel _ hsolid, ResolvableArgument, htypes, ← ResolvableArgument, ← h.resolves hscope fuel (by omega)]
  exact Option.map_eq_some_iff.trans ⟨fun ⟨u, hu, heq⟩ => hinj heq ▸ hu, fun hu => ⟨t, hu, rfl⟩⟩

theorem ArgumentResolves.extendsBound {t : TypeName} (h : ArgumentResolves ctx t) :
    ArgumentResolves ctx (.wildcardExtends t) := by
  refine h.bound h.rendered.extendsBound (renderText_extends ctx.view t) (fun fuel s hsolid => ?_) (by decide)
    (fun t u heq => (List.cons.inj (TypeName.mk.inj heq).2.2.1).1) (List.append_nil _)
  rw [SourceTypeCtx.resolveTypeArgTypeFuel, hsolid.trim_eq]
  rfl

theorem ArgumentResolves.superBound {t : TypeName} (h : ArgumentResolves ctx t) :
    ArgumentResolves ctx (.wildcardSuper t) := by
  refine h.bound h.rendered.superBound (renderText_super ctx.view t) (fun fuel s hsolid => ?_) (by decide)
    (fun t u heq => (List.cons.inj (TypeName.mk.inj heq).2.2.1).1) (List.append_nil _)
  rw [SourceTypeCtx.resolveTypeArgTypeFuel, hsolid.trim_eq]
  rfl

theorem argumentResolves_wildcard : ArgumentResolves ctx .wildcard := by
  refine ⟨rendered_wildcard, fun _ fuel hfuel => ?_⟩
  obtain ⟨fuel, rfl⟩ : ∃ k, fuel = k + 1 := ⟨fuel - 1, by omega⟩
  rw [renderText_wildcard]
  exact iff_of_true rfl fun u hu => absurd hu List.not_mem_nil

theorem typeResolves_class (hnames : ∀ c ∈ ctx.view.records, BinaryNamed c) {internal pkg : String} {n : ℕ}
    (hget : ctx.view.getClass internal = some c) (hpkg : c.package = some pkg)
    (hargs : ∀ a ∈ args, ArgumentResolves ctx a) : TypeResolves ctx ⟨internal, .internal, args, n⟩ := by
  obtain ⟨hslash, segments, hsegments, hsource⟩ := exists_class hnames hget hpkg
  obtain ⟨hc, rfl⟩ := record_of_getClass hget
  have hrendered := fun a ha => (hargs a ha).rendered
  refine ⟨rendered_class hsegments hslash hrendered n, ⟨rfl, hslash⟩, ?_, fun hscope fuel hfuel => ?_⟩
  · rw [renderText_class hslash hsource, List.append_assoc]
    obtain ⟨first, name, hname⟩ := List.exists_cons_of_ne_nil
      (typeText_dotted hsegments.names (List.ne_nil_of_length_pos (by have := hsegments.long; omega))).solid.ne_nil
    rw [hname]
    rintro d hd rfl
    obtain rfl := Option.some.inj hd
    rcases mem_dotted hsegments.names (hname ▸ List.mem_cons_self) with hchar | hdot
    · exact absurd hchar (by decide)
    · exact absurd hdot (by decide)
  · obtain ⟨fuel, rfl⟩ : ∃ k, fuel = k + 1 := ⟨fuel - 1, by omega⟩
    rw [classTypes_eq rfl, List.forall_mem_cons] at hscope
    rw [resolvable_class]
    refine resolve_class hnames hsegments hget hslash hscope.1 hrendered fun a ha => ?_
    refine (hargs a ha).resolves (fun u hu => hscope.2 u ?_) fuel ?_
    · rw [classTypesOfAll_eq]
      exact List.mem_flatMap.mpr ⟨a, ha, hu⟩
    · have hlength := length_lt_angleText (List.mem_map_of_mem (f := renderText ctx.view) ha)
      rw [renderText_class hslash hsource, List.length_append, List.length_append] at hfuel
      omega

theorem typeResolves (hnames : ∀ c ∈ ctx.view.records, BinaryNamed c) {t : TypeName} (h : IsClassType ctx.view t) :
    TypeResolves ctx t := by
  refine @IsClassType.inductOn _ _ (ArgumentResolves ctx)
    (fun _ _ _ _ _ hget hpkg hargs => typeResolves_class hnames hget hpkg hargs) (fun _ h => h.argument)
    argumentResolves_wildcard (fun _ h => h.argument.extendsBound) (fun _ h => h.argument.superBound) _ h

/-- The text of a class type is resolved to the type exactly where its classes are found by their names and no array is
an argument in it. -/
theorem rendered_type_resolves_iff (hnames : ∀ c ∈ ctx.view.records, BinaryNamed c) {t : TypeName}
    (h : IsClassType ctx.view t) (hscope : ∀ u ∈ classTypes t, FirstSegmentFree ctx u.baseInternal) :
    ctx.resolveTypeNameStrict (typeNameToSourceStyle (symbolProvider ctx.view) t).toList = some t ↔
      Resolvable ctx.view t :=
  (typeResolves hnames h).resolves hscope _ (Nat.le_succ _)

end Resolving

section Examples

/-- A top-level class of the package `p`. -/
def topLevelOfP (name : String) : ClassMetadata :=
  .bare (some "p") name ("p/" ++ name) none (.jar "lib.jar")

theorem binaryNamed_topLevelOfP {name : String} (hname : IsName name)
    (hplain : ("p/" ++ name).toList.all (fun x => x ≠ '.' && x ≠ '*') = true) : BinaryNamed (topLevelOfP name) where
  named := javaNamed_of_tail name ⟨hname.identifier.slash_not_mem, rfl⟩
    (fun x hx => by simpa using List.all_eq_true.mp hplain x hx) ⟨hname.ne_nil, hname.identifier.plain⟩
    identifier_packageSegments rfl
  name := hname
  package := by
    have hsegments : packageSegments (some "p") = ["p"] := by decide
    rw [topLevelOfP, ClassMetadata.bare, hsegments, List.forall_mem_singleton]
    exact ⟨by decide, List.all_eq_true.mp (by decide)⟩
  owner _ howner := by cases howner

/-- A file of no package, with two classes of the package `p` in the index. -/
def twoClassesCtx (first second : String) : SourceTypeCtx where
  package := none
  imports := []
  view := .new [BucketIndex.new.addArchiveClasses [topLevelOfP first, topLevelOfP second]]

/-- The name of a top-level class is the longest front of itself. -/
theorem longestFrontLeads_whole {view : IndexView} {internal name : String}
    (hsource : view.getSourceTypeName internal = some name) (hlong : 1 < (dottedParts name.toList).length)
    (hpath : "/".intercalate (dottedParts name.toList) = internal) (hget : (view.getClass internal).isSome) :
    LongestFrontLeads view internal := by
  refine ⟨name, dottedParts name.toList, [], hsource, (List.append_nil _).symm, ⟨hlong, ?_, ?_, hget⟩, ?_⟩
  · rw [hpath]
    exact hget
  · rw [hpath]
    exact .done internal
  · intro front back found hsplit hlonger
    have hlength := congrArg List.length hsplit
    rw [List.length_append] at hlength
    omega

/-- `p.Map<p.B, ? extends p.B>[]` -/
theorem rendered_type_resolves_map :
    let ctx := twoClassesCtx "Map" "B"
    let b := TypeName.internal "p/B"
    let t : TypeName := ⟨"p/Map", .internal, [b, .wildcardExtends b], 1⟩
    ctx.resolveTypeNameStrict (typeNameToSourceStyle (symbolProvider ctx.view) t).toList = some t := by
  intro ctx b t
  have hrecords : ctx.view.records = [topLevelOfP "Map", topLevelOfP "B"] := by decide
  have hmap : IsName "Map" := ⟨by decide, List.all_eq_true.mp (by decide)⟩
  have hb : IsName "B" := ⟨by decide, List.all_eq_true.mp (by decide)⟩
  have hnames : ∀ c ∈ ctx.view.records, BinaryNamed c := by
    rw [hrecords, List.forall_mem_cons, List.forall_mem_singleton]
    exact ⟨binaryNamed_topLevelOfP hmap (by decide +kernel), binaryNamed_topLevelOfP hb (by decide +kernel)⟩
  have hsourceMap : ctx.view.getSourceTypeName "p/Map" = some "p.Map" := by decide
  have hsourceB : ctx.view.getSourceTypeName "p/B" = some "p.B" := by decide
  have hclassB : IsClassType ctx.view b :=
    @IsClassType.mk ctx.view "p/B" "p" (topLevelOfP "B") [] 0 (by decide) rfl fun _ ha => absurd ha List.not_mem_nil
  have hclass : IsClassType ctx.view t := by
    refine @IsClassType.mk ctx.view "p/Map" "p" (topLevelOfP "Map") _ 1 (by decide) rfl ?_
    rw [List.forall_mem_cons, List.forall_mem_singleton]
    exact ⟨.type hclassB, .extendsBound hclassB⟩
  have htypes : classTypes t = [t, b, b] := rfl
  have hfree : ∀ internal name, ctx.view.getSourceTypeName internal = some name →
      (dottedParts name.toList).head? = some "p" → FirstSegmentFree ctx internal := by
    intro internal name hsource hhead name' hname' s hs
    obtain rfl := Option.some.inj (hsource.symm.trans hname')
    obtain rfl := Option.some.inj (hhead.symm.trans hs)
    decide
  have hfreeB := hfree "p/B" "p.B" hsourceB (by decide)
  have hfoundB : FoundByName ctx.view b :=
    ⟨longestFrontLeads_whole hsourceB (by decide) (by decide) (by decide), fun h => absurd rfl h⟩
  have hfoundMap : FoundByName ctx.view t := by
    refine ⟨longestFrontLeads_whole hsourceMap (by decide) (by decide) (by decide), fun _ name hname => ?_⟩
    obtain rfl := Option.some.inj (hsourceMap.symm.trans hname)
    exact List.forall_iff_forall_mem.mp (by simp [List.Forall, Char.utf8Size])
  refine (rendered_type_resolves_iff hnames hclass ?_).mpr ⟨?_, ?_⟩
  · rw [htypes, List.forall_mem_cons, List.forall_mem_cons, List.forall_mem_singleton]
    exact ⟨hfree "p/Map" "p.Map" hsourceMap (by decide), hfreeB, hfreeB⟩
  · rw [htypes, List.forall_mem_cons, List.forall_mem_cons, List.forall_mem_singleton]
    exact ⟨hfoundMap, hfoundB, hfoundB⟩
  · have hinner : classTypesOfAll t.args = [b, b] := rfl
    rw [hinner, List.forall_mem_cons, List.forall_mem_singleton]
    exact ⟨rfl, rfl⟩

/-- For `p.Ä<p.B>` the arguments are looked for behind their first bracket, as the name has a byte more than it has
characters, and for `p.Map<p.B[]>` an array is no argument: neither is resolved. -/
theorem rendered_types_lost :
    let argument (outer : String) (dims : ℕ) : TypeName :=
      ⟨"p/" ++ outer, .internal, [⟨"p/B", .internal, [], dims⟩], 0⟩
    let wide := twoClassesCtx "Ä" "B"
    let plain := twoClassesCtx "Map" "B"
    UniqueSourceNames wide.view ∧ IsClassType wide.view (argument "Ä" 0) ∧ wide.resolveSimpleStrict "p" = none ∧
      wide.resolveTypeNameStrict (typeNameToSourceStyle (symbolProvider wide.view) (argument "Ä" 0)).toList ≠
        some (argument "Ä" 0) ∧
      UniqueSourceNames plain.view ∧ IsClassType plain.view (argument "Map" 1) ∧
      plain.resolveSimpleStrict "p" = none ∧
      plain.resolveTypeNameStrict (typeNameToSourceStyle (symbolProvider plain.view) (argument "Map" 1)).toList ≠
        some (argument "Map" 1) := by
  intro argument wide plain
  have hnone : ∀ {resolved : Option TypeName} {t : TypeName}, resolved.isNone = true → resolved ≠ some t := by
    rintro _ _ hnone rfl
    cases hnone
  have hclass : ∀ {outer : String} {dims : ℕ}, (twoClassesCtx outer "B").view.getClass ("p/" ++ outer) =
      some (topLevelOfP outer) → (twoClassesCtx outer "B").view.getClass "p/B" = some (topLevelOfP "B") →
        IsClassType (twoClassesCtx outer "B").view (argument outer dims) := by
    intro outer dims houter hb
    refine @IsClassType.mk _ _ "p" (topLevelOfP outer) _ 0 houter rfl ?_
    rw [List.forall_mem_singleton]
    exact .type (@IsClassType.mk _ _ "p" (topLevelOfP "B") [] dims hb rfl fun _ ha => absurd ha List.not_mem_nil)
  exact ⟨uniqueSourceNames_of_records (by decide), hclass (by decide) (by decide), by decide,
    hnone (by decide +kernel), uniqueSourceNames_of_records (by decide), hclass (by decide) (by decide), by decide,
    hnone (by decide +kernel)⟩

end Examples

end JavaAnalyzer.Completion
