import JavaAnalyzer.Library.TextTrim
import JavaAnalyzer.Semantic.Generics
import JavaAnalyzer.Semantic.TypeName

/-! # Receivers as texts

The resolver hands the type of a receiver on as the text of `to_internal_with_generics` and takes it apart again
with `split_internal_name`. -/

namespace JavaAnalyzer.Semantic
set_option autoImplicit false
open Text

/-- The type names of the types that a signature can state. -/
def TypeName.IsSignatureType (t : TypeName) : Prop :=
  ∃ signature : JvmType, signature.wellFormed = true ∧ signature.toTypeName = t

namespace TypeName

/-! ## The text of a type -/

def dimsText (dims : ℕ) : List Char :=
  (List.replicate dims ['[', ']']).flatten

/-- The type arguments are part of the text. -/
def WritesArgs (t : TypeName) : Prop :=
  t.args ≠ [] ∧ t.kind ≠ .wildcardExtends ∧ t.kind ≠ .wildcardSuper

instance (t : TypeName) : Decidable t.WritesArgs :=
  decidable_of_iff (t.args.isEmpty = false ∧ t.kind ≠ .wildcardExtends ∧ t.kind ≠ .wildcardSuper) (by
    rw [WritesArgs, List.isEmpty_eq_false_iff])

/-- The text of a type that is no intersection, without its dimensions. -/
def ownText (t : TypeName) : List Char :=
  if t.WritesArgs then t.baseInternal.toList ++ '<' :: ((jvmSignatures t.args).flatten ++ ['>'])
  else t.baseInternal.toList

mutual

/-- `to_internal_with_generics` -/
def internalWithGenerics : TypeName → List Char
  | ⟨base, kind, args, dims⟩ =>
    (if kind = .intersection then [' ', '&', ' '].intercalate (internalsWithGenerics args)
    else ownText ⟨base, kind, args, dims⟩) ++ dimsText dims

def internalsWithGenerics : List TypeName → List (List Char)
  | [] => []
  | t :: ts => internalWithGenerics t :: internalsWithGenerics ts

end

/-! ## The leading bound -/

/-- The bound that `erased_internal` takes the name of, or the type itself. -/
def leadingBound : TypeName → TypeName
  | ⟨_, .intersection, primary :: _, _⟩ => primary.leadingBound
  | t => t

/-- The text behind the leading bound's own. -/
def textBehind : TypeName → List Char
  | ⟨_, .intersection, primary :: rest, dims⟩ =>
    primary.textBehind ++ (rest.flatMap fun bound => [' ', '&', ' '] ++ bound.internalWithGenerics) ++ dimsText dims
  | t => dimsText t.arrayDims

/-- There are no dimensions and no bounds behind the leading one. -/
def WrittenAlone : TypeName → Bool
  | ⟨_, .intersection, primary :: rest, dims⟩ => rest.isEmpty && dims == 0 && primary.WrittenAlone
  | t => t.arrayDims == 0

/-- The erased name and the type arguments come back. They are those of the leading bound. -/
def ReceiverTextFaithful (t : TypeName) : Prop :=
  (splitInternalName (String.ofList t.internalWithGenerics)).1 = t.erasedInternal ∧
    (splitInternalName (String.ofList t.internalWithGenerics)).2.map JvmType.toTypeName = t.leadingBound.args

theorem boundInduction {P : TypeName → Prop} (own : ∀ t : TypeName, t.kind ≠ .intersection ∨ t.args = [] → P t)
    (bound : ∀ base primary rest dims, P primary → P ⟨base, .intersection, primary :: rest, dims⟩) : ∀ t, P t
  | ⟨_, _, [], _⟩ => own _ (.inr rfl)
  | ⟨base, kind, primary :: rest, dims⟩ => by
      by_cases hkind : kind = .intersection
      · subst hkind
        exact bound base primary rest dims (boundInduction own bound primary)
      · exact own _ (.inl hkind)

theorem own_eqs {t : TypeName} (h : t.kind ≠ .intersection ∨ t.args = []) :
    t.leadingBound = t ∧ t.textBehind = dimsText t.arrayDims ∧ t.WrittenAlone = (t.arrayDims == 0) ∧
      t.erasedInternal = t.baseInternal := by
  obtain ⟨base, kind, args, dims⟩ := t
  cases args with
  | nil => cases kind <;> exact ⟨rfl, rfl, rfl, rfl⟩
  | cons primary rest =>
    cases kind with
    | intersection => exact absurd rfl (h.resolve_right (List.cons_ne_nil primary rest))
    | _ => exact ⟨rfl, rfl, rfl, rfl⟩

theorem erasedInternal_eq (t : TypeName) : t.erasedInternal = t.leadingBound.baseInternal := by
  induction t using boundInduction with
  | own t h => rw [(own_eqs h).1, (own_eqs h).2.2.2]
  | bound base primary rest dims ih => rw [erasedInternal, leadingBound, ih]

theorem internalsWithGenerics_eq (types : List TypeName) :
    internalsWithGenerics types = types.map internalWithGenerics := by
  induction types with
  | nil => rfl
  | cons t types ih => rw [internalsWithGenerics, ih, List.map_cons]

theorem intercalate_cons {sep first : List Char} (rest : List (List Char)) :
    sep.intercalate (first :: rest) = first ++ rest.flatMap fun text => sep ++ text := by
  induction rest generalizing first with
  | nil => simp [List.intercalate]
  | cons second rest ih =>
    have hstep : sep.intercalate (first :: second :: rest) = first ++ (sep ++ sep.intercalate (second :: rest)) := by
      simp [List.intercalate, List.intersperse]
    rw [hstep, ih, List.flatMap_cons, List.append_assoc]

theorem internalWithGenerics_eq {t : TypeName} (h : t.leadingBound.kind ≠ .intersection) :
    t.internalWithGenerics = t.leadingBound.ownText ++ t.textBehind := by
  induction t using boundInduction with
  | own t hown =>
    obtain ⟨hleading, hbehind, -⟩ := own_eqs hown
    rw [hleading] at h
    rw [hleading, hbehind]
    obtain ⟨base, kind, args, dims⟩ := t
    rw [internalWithGenerics, if_neg h]
  | bound base primary rest dims ih =>
    rw [leadingBound] at h
    rw [internalWithGenerics, if_pos rfl, leadingBound, textBehind, internalsWithGenerics_eq, List.map_cons,
      intercalate_cons, List.flatMap_map, ih h]
    simp only [List.append_assoc]

/-! ## What stands behind the leading bound -/

theorem dimsText_succ (dims : ℕ) : dimsText (dims + 1) = '[' :: ']' :: dimsText dims := by
  rw [dimsText, List.replicate_succ, List.flatten_cons]
  rfl

theorem dimsText_eq_nil_iff (dims : ℕ) : dimsText dims = [] ↔ dims = 0 := by
  cases dims with
  | zero => exact iff_of_true rfl rfl
  | succ dims => rw [dimsText_succ]; simp

theorem textBehind_eq_nil_iff (t : TypeName) : t.textBehind = [] ↔ t.WrittenAlone = true := by
  induction t using boundInduction with
  | own t h => rw [(own_eqs h).2.1, (own_eqs h).2.2.1, dimsText_eq_nil_iff, beq_iff_eq]
  | bound base primary rest dims ih =>
    rw [textBehind, WrittenAlone, Bool.and_eq_true, Bool.and_eq_true, beq_iff_eq, ← ih, List.append_eq_nil_iff,
      List.append_eq_nil_iff, dimsText_eq_nil_iff, List.isEmpty_iff]
    cases rest with
    | nil => simp; tauto
    | cons bound rest => simp

theorem textBehind_head (t : TypeName) : t.textBehind.head? ≠ some '<' := by
  induction t using boundInduction with
  | own t h =>
    rw [(own_eqs h).2.1]
    cases t.arrayDims with
    | zero => exact nofun
    | succ dims => rw [dimsText_succ]; simp
  | bound base primary rest dims ih =>
    rw [textBehind, List.append_assoc]
    cases hprimary : primary.textBehind with
    | cons c text => simpa [hprimary] using ih
    | nil =>
      cases rest with
      | cons bound rest => simp
      | nil =>
        cases dims with
        | zero => exact nofun
        | succ dims => rw [dimsText_succ]; simp

/-! ## Signature types -/

theorem toTypeName_kind (t : JvmType) (h : t.wellFormed = true) : t.toTypeName.kind ≠ .intersection := by
  induction t using JvmType.inductOn with
  | array inner ih => exact ih h
  | wildcardBound c inner ih =>
    rw [JvmType.wellFormed, Bool.and_eq_true, Bool.or_eq_true, decide_eq_true_eq, decide_eq_true_eq] at h
    rcases h.1 with rfl | rfl <;> exact nofun
  | _ => exact nofun

theorem jvmSignature_wrapArray {t : TypeName} (h : t.kind ≠ .intersection) :
    t.wrapArray.jvmSignature = '[' :: t.jvmSignature := by
  obtain ⟨base, kind, args, dims⟩ := t
  cases kind with
  | intersection => exact absurd rfl h
  | internal | sourceLike | capture =>
    simp only [wrapArray, jvmSignature, List.replicate_succ]
    split <;> rfl
  | _ => simp only [wrapArray, jvmSignature, List.replicate_succ, List.cons_append]

mutual

theorem jvmSignature_toTypeName : ∀ t : JvmType, t.wellFormed = true → t.toTypeName.jvmSignature = t.signature
  | .object name args, h => by
      rw [JvmType.wellFormed, Bool.and_eq_true] at h
      have hargs := jvmSignatures_toTypeNames args h.2
      cases args with
      | nil => rfl
      | cons arg args =>
        rw [JvmType.toTypeName, internalWithArgs, withArgsAndKind, jvmSignature, JvmType.signature, ← hargs]
        rfl
  | .typeVar name, _ => rfl
  | .array inner, h => by
      rw [JvmType.wellFormed] at h
      rw [JvmType.toTypeName, JvmType.signature, ← jvmSignature_toTypeName inner h,
        jvmSignature_wrapArray (toTypeName_kind inner h)]
  | .primitive c, h => by
      rw [JvmType.wellFormed, List.contains_iff_mem] at h
      simp only [JvmType.primitiveChars, List.mem_cons, List.not_mem_nil, or_false] at h
      rcases h with rfl | rfl | rfl | rfl | rfl | rfl | rfl | rfl | rfl <;> rfl
  | .wildcard, _ => rfl
  | .wildcardBound c inner, h => by
      rw [JvmType.wellFormed, Bool.and_eq_true, Bool.or_eq_true, decide_eq_true_eq, decide_eq_true_eq] at h
      rw [JvmType.signature, ← jvmSignature_toTypeName inner h.2]
      rcases h.1 with rfl | rfl <;> rfl

theorem jvmSignatures_toTypeNames : ∀ ts : List JvmType, JvmType.wellFormedArgs ts = true →
    (jvmSignatures (JvmType.toTypeNames ts)).flatten = JvmType.signatures ts
  | [], _ => rfl
  | t :: ts, h => by
      rw [JvmType.wellFormedArgs, Bool.and_eq_true] at h
      rw [JvmType.toTypeNames, jvmSignatures, JvmType.signatures, List.flatten_cons, jvmSignature_toTypeName t h.1,
        jvmSignatures_toTypeNames ts h.2]

end

theorem toTypeName_stated (t : JvmType) (h : t.wellFormed = true) :
    t.toTypeName.kind ≠ .unknown ∧ t.toTypeName.kind ≠ .null ∧ t.toTypeName.kind ≠ .sourceLike := by
  induction t using JvmType.inductOn with
  | array inner ih => exact ih h
  | wildcardBound c inner ih =>
    rw [JvmType.wellFormed, Bool.and_eq_true, Bool.or_eq_true, decide_eq_true_eq, decide_eq_true_eq] at h
    rcases h.1 with rfl | rfl <;> exact ⟨nofun, nofun, nofun⟩
  | _ => exact ⟨nofun, nofun, nofun⟩

theorem typeNameToJvmType_toTypeName {t : JvmType} (h : t.wellFormed = true) :
    typeNameToJvmType t.toTypeName = some t := by
  obtain ⟨hunknown, hnull, hsource⟩ := toTypeName_stated t h
  have hread : JvmType.parse t.toTypeName.jvmSignature = some (t, []) := by
    rw [jvmSignature_toTypeName t h, ← List.append_nil t.signature]
    exact JvmType.parse_signature h []
  rw [typeNameToJvmType, if_neg (by simp only [hunknown, hnull, hsource, or_false, not_false_iff]), hread]
  rfl

/-- A signature type is written the same through its type name, and read back from it. -/
theorem signature_type_corresponds (t : JvmType) (h : t.wellFormed = true) :
    String.ofList t.toTypeName.jvmSignature = t.toSignatureString ∧ typeNameToJvmType t.toTypeName = some t :=
  ⟨congrArg String.ofList (jvmSignature_toTypeName t h), typeNameToJvmType_toTypeName h⟩

/-- `Map<? super K[], List<int[][]>>[]` -/
theorem nested_type_corresponds :
    let t : JvmType := .array (.object "java/util/Map" [.wildcardBound '-' (.array (.typeVar "K")),
      .object "java/util/List" [.array (.array (.primitive 'I'))]])
    String.ofList t.toTypeName.jvmSignature = t.toSignatureString ∧ typeNameToJvmType t.toTypeName = some t :=
  signature_type_corresponds _ (by decide)

theorem parseMany_wellFormed (s : List Char) : ∀ t ∈ (JvmType.parseMany s).1, t.wellFormed = true := by
  rw [JvmType.parseMany]
  induction s.length generalizing s with
  | zero => exact fun t ht => absurd ht List.not_mem_nil
  | succ fuel ih =>
    rw [JvmType.parseManyFuel]
    cases hread : JvmType.parse s with
    | none => exact fun t ht => absurd ht List.not_mem_nil
    | some p => exact List.forall_mem_cons.mpr ⟨JvmType.parse_wellFormed hread, ih p.2⟩

theorem parseMany_arguments {ts : List JvmType} (h : JvmType.wellFormedArgs ts = true) (behind : List Char) :
    (JvmType.parseMany (JvmType.signatures ts ++ '>' :: behind)).1 = ts := by
  induction ts with
  | nil =>
    have hnone : JvmType.parse ('>' :: behind) = none := by
      rw [JvmType.parse, JvmType.parseFuel]
      rfl
    rw [JvmType.signatures, List.nil_append, JvmType.parseMany, List.length_cons, JvmType.parseManyFuel, hnone]
  | cons t ts ih =>
    rw [JvmType.wellFormedArgs, Bool.and_eq_true] at h
    rw [JvmType.signatures, List.append_assoc,
      JvmType.parseMany_of_parse (JvmType.parse_signature h.1 _), ih h.2]

theorem toTypeNames_eq_map (ts : List JvmType) : JvmType.toTypeNames ts = ts.map JvmType.toTypeName := by
  induction ts with
  | nil => rfl
  | cons t ts ih => rw [JvmType.toTypeNames, ih, List.map_cons]

theorem exists_signatures {args : List TypeName} (h : ∀ arg ∈ args, arg.IsSignatureType) :
    ∃ ts, JvmType.wellFormedArgs ts = true ∧ JvmType.toTypeNames ts = args := by
  induction args with
  | nil => exact ⟨[], rfl, rfl⟩
  | cons arg args ih =>
    obtain ⟨t, ht, rfl⟩ := h arg List.mem_cons_self
    obtain ⟨ts, hts, rfl⟩ := ih fun arg harg => h arg (List.mem_cons_of_mem _ harg)
    exact ⟨t :: ts, by rw [JvmType.wellFormedArgs, ht, hts]; rfl, rfl⟩

/-! ## What comes back -/

theorem splitInternalName_plain {s : List Char} (h : '<' ∉ s) :
    splitInternalName (String.ofList s) = (String.ofList s, []) := by
  have hnone : splitOnce '<' s = none := by
    cases hsplit : splitOnce '<' s with
    | none => rfl
    | some p =>
      obtain ⟨rfl, -⟩ := splitOnce_eq hsplit
      exact absurd (by simp) h
  rw [splitInternalName, String.toList_ofList, hnone]

theorem splitInternalName_args {base rest : List Char} (h : '<' ∉ base) :
    splitInternalName (String.ofList (base ++ '<' :: rest)) =
      (String.ofList base, (JvmType.parseMany rest.dropLast).1) := by
  rw [splitInternalName, String.toList_ofList, splitOnce_append h]

theorem splitInternalName_free (s : List Char) : '<' ∉ (splitInternalName (String.ofList s)).1.toList := by
  rw [splitInternalName, String.toList_ofList]
  cases hsplit : splitOnce '<' s with
  | none =>
    rw [String.toList_ofList]
    exact splitOnce_eq_none.mp hsplit
  | some p =>
    rw [String.toList_ofList]
    exact (splitOnce_eq hsplit).2

theorem splitInternalName_behind {base behind : List Char} (h : '<' ∉ base) (hbehind : behind.head? ≠ some '<') :
    (splitInternalName (String.ofList (base ++ behind))).1 = String.ofList base ↔ behind = [] := by
  constructor
  · intro hname
    by_cases hbracket : '<' ∈ base ++ behind
    · obtain ⟨front, rest, hsplit, hfree⟩ : ∃ front rest, base ++ behind = front ++ '<' :: rest ∧ '<' ∉ front := by
        cases hsplit : splitOnce '<' (base ++ behind) with
        | none => exact absurd hbracket (splitOnce_eq_none.mp hsplit)
        | some p => exact ⟨p.1, p.2, splitOnce_eq hsplit⟩
      rw [hsplit, splitInternalName_args hfree] at hname
      obtain rfl : front = base := String.ofList_injective hname
      rw [List.append_cancel_left hsplit] at hbehind
      exact absurd rfl hbehind
    · rw [splitInternalName_plain hbracket] at hname
      exact List.append_right_eq_self.mp (String.ofList_injective hname)
  · rintro rfl
    rw [List.append_nil, splitInternalName_plain h]

end TypeName

end JavaAnalyzer.Semantic
