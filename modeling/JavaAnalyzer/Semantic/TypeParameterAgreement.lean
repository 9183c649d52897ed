import JavaAnalyzer.Semantic.ReceiverText
import JavaAnalyzer.Semantic.TypeParameterBounds

/-! # The readers of type parameters agree

When the names, the bounds and the types of a method that are read are those that a signature of the grammar declares. -/

namespace JavaAnalyzer.Semantic
set_option autoImplicit false
open Text Jvm JvmType

namespace TypeParameter

/-! ## The map of bounds -/

/-- The map of type parameters that were read as declared. -/
def declaredBounds (params : List TypeParameter) : TypeParameterBounds :=
  params.foldl (fun bounds p => bounds.insert (String.ofList p.name) (readTypes p.bounds)) ∅

theorem declaredBounds_concat (params : List TypeParameter) (p : TypeParameter) :
    declaredBounds (params ++ [p]) = (declaredBounds params).insert (String.ofList p.name) (readTypes p.bounds) :=
  List.foldl_concat ..

theorem mem_declaredBounds {params : List TypeParameter} {name : String} :
    name ∈ declaredBounds params ↔ ∃ p ∈ params, String.ofList p.name = name := by
  induction params using List.reverseRecOn with
  | nil => exact iff_of_false (AList.notMem_empty name) nofun
  | append_singleton params p ih =>
    rw [declaredBounds_concat, AList.mem_insert, ih, or_comm, eq_comm]
    simp only [List.mem_append, List.mem_singleton, or_and_right, exists_or, exists_eq_left]

theorem lookup_declaredBounds {params : List TypeParameter} {name : String} {types : List JvmType}
    (h : (declaredBounds params).lookup name = some types) :
    ∃ p ∈ params, String.ofList p.name = name ∧ readTypes p.bounds = types := by
  induction params using List.reverseRecOn with
  | nil => cases h
  | append_singleton params p ih =>
    rw [declaredBounds_concat] at h
    by_cases hname : name = String.ofList p.name
    · subst hname
      rw [AList.lookup_insert, Option.some.injEq] at h
      exact ⟨p, by simp, rfl, h⟩
    · rw [AList.lookup_insert_ne hname] at h
      obtain ⟨q, hq, hfound⟩ := ih h
      exact ⟨q, List.mem_append_left _ hq, hfound⟩

theorem parseTypeParameterBounds_declaration {params : List TypeParameter} (h : params ≠ []) (rest : List Char)
    (htrim : ∀ p ∈ params, trim p.name = p.name) (hended : ∀ p ∈ params.dropLast, p.Ended)
    (hplain : ∀ p ∈ params, Plain p.bounds) :
    parseTypeParameterBounds (String.ofList (declaration params ++ rest)) = declaredBounds params := by
  have hlength : params.length ≤ (texts params).length := by
    have hsum := List.length_le_sum_of_one_le (params.map (List.length ∘ text)) fun n hn => by
      obtain ⟨p, -, rfl⟩ := List.mem_map.mp hn
      rw [Function.comp_apply, text, List.length_append, List.length_cons]
      omega
    rw [List.length_map] at hsum
    rw [texts, List.length_flatMap]
    exact hsum
  rw [parseTypeParameterBounds, String.toList_ofList, typeParameterPrefix_declaration h]
  exact readTypeParameters_texts htrim hplain hended hlength ∅

theorem boundsAgree_of_read {params : List TypeParameter} {rest : List Char}
    (hread : parseTypeParameterBounds (String.ofList (declaration params ++ rest)) = declaredBounds params)
    (hplain : ∀ p ∈ params, Plain p.bounds) (hsame : SameBounds params) : BoundsAgree params rest where
  names name := by rw [hread, mem_declaredBounds]
  bounds p hp := by
    rw [hread]
    obtain ⟨types, htypes⟩ := Option.isSome_iff_exists.mp
      (AList.lookup_isSome.mpr (mem_declaredBounds.mpr ⟨p, hp, rfl⟩))
    obtain ⟨q, hq, hname, rfl⟩ := lookup_declaredBounds htypes
    rw [hsame q hq p hp (String.ofList_injective hname)] at htypes
    exact ⟨_, htypes, (readTypes_write (fun b hb => .reference (p.bounds_derive b hb)) (hplain p hp)).1⟩

theorem BoundsAgree.plain {params : List TypeParameter} {rest : List Char} (h : BoundsAgree params rest) :
    ∀ p ∈ params, Plain p.bounds := by
  intro p hp
  obtain ⟨types, hlookup, hwrite⟩ := h.bounds p hp
  exact plain_of_write (fun b hb => .reference (p.bounds_derive b hb))
    (parseTypeParameterBounds_wellFormed _ _ types hlookup) hwrite

theorem BoundsAgree.same {params : List TypeParameter} {rest : List Char} (h : BoundsAgree params rest) :
    SameBounds params := by
  intro p hp q hq hname
  obtain ⟨types, hlookup, hwrite⟩ := h.bounds p hp
  obtain ⟨others, hlookup', hwrite'⟩ := h.bounds q hq
  rw [← hname] at hlookup'
  obtain rfl := Option.some.inj (hlookup.symm.trans hlookup')
  exact hwrite.symm.trans hwrite'

theorem namesAgree_iff {params : List TypeParameter} (h : params ≠ []) (rest : List Char) :
    NamesAgree params rest ↔ (∀ p ∈ params, trim p.name = p.name) ∧ ∀ p ∈ params.dropLast, p.Ended := by
  rw [NamesAgree, parseClassTypeParameters, String.toList_ofList, typeParameterPrefix_declaration h]
  exact namesIn_iff params

/-! ## The types of a method -/

theorem parseMethodSignatureTypes_text (params : List TypeParameter) (paramTypes : List (List Char))
    (returnType : List Char) :
    parseMethodSignatureTypes (String.ofList (methodSignature params paramTypes returnType)) =
      parseMethodTypes ('(' :: (paramTypes.flatten ++ ')' :: returnType)) := by
  rw [parseMethodSignatureTypes, String.toList_ofList, methodSignature]
  cases params with
  | nil => rfl
  | cons p params =>
    have htexts := typeParameterPrefix_declaration (List.cons_ne_nil p params)
      ('(' :: (paramTypes.flatten ++ ')' :: returnType))
    rw [declaration, if_neg (by simp)] at htexts ⊢
    rw [List.cons_append] at htexts ⊢
    rw [htexts, Option.bind_some]
    rfl

theorem signatures_eq_flatten (types : List JvmType) : signatures types = (types.map signature).flatten := by
  induction types with
  | nil => rfl
  | cons t types ih => rw [signatures, ih, List.map_cons, List.flatten_cons]

theorem exists_returnType {returnType : List Char} (h : Derives .javaType returnType ∨ returnType = ['V']) :
    (∃ t : JvmType, t.wellFormed = true ∧ t.signature = returnType) ↔ ¬ NestsInGeneric returnType := by
  rcases h with h | rfl
  · exact h.read_iff
  · exact iff_of_true ⟨.primitive 'V', by decide, rfl⟩ (by decide)

/-- The types of a method come back exactly if no parameter type has a closing parenthesis in a name and nothing is
nested in a class with type arguments. -/
theorem methodTypesAgree_iff (params : List TypeParameter) {paramTypes : List (List Char)} {returnType : List Char}
    (hparams : ∀ s ∈ paramTypes, Derives .javaType s) (hreturn : Derives .javaType returnType ∨ returnType = ['V']) :
    MethodTypesAgree params paramTypes returnType ↔
      (∀ s ∈ paramTypes, ')' ∉ s) ∧ Plain paramTypes ∧ ¬ NestsInGeneric returnType := by
  have hfree : (∀ s ∈ paramTypes, ')' ∉ s) ↔ ')' ∉ paramTypes.flatten := by
    rw [List.mem_flatten, not_exists]
    exact forall_congr' fun s => (not_and (a := s ∈ paramTypes)).symm
  rw [MethodTypesAgree, parseMethodSignatureTypes_text, hfree, parseMethodTypes]
  constructor
  · rintro ⟨types, hread, hwrite, hret⟩
    have hwhole : paramTypes.flatten = signatures types.1 := by
      rw [signatures_eq_flatten, show _ = paramTypes from hwrite]
    have hparen : ')' ∉ paramTypes.flatten := by
      intro hmem
      obtain ⟨front, back, hsplit, hfront⟩ := List.eq_append_cons_of_mem hmem
      rw [hsplit, List.append_assoc, List.cons_append, splitOnce_append hfront, Option.bind_some] at hread
      dsimp only at hread
      split_ifs at hread
      obtain ⟨ret, -, rfl⟩ := Option.map_eq_some_iff.mp hread
      rw [hwhole] at hmem
      exact parseMany_free (by decide) hfront hmem
    rw [splitOnce_append hparen, Option.bind_some] at hread
    dsimp only at hread
    split_ifs at hread
    obtain ⟨ret, hreadRet, rfl⟩ := Option.map_eq_some_iff.mp hread
    exact ⟨hparen, plain_of_write hparams (TypeName.parseMany_wellFormed _) hwrite,
      (exists_returnType hreturn).mp ⟨ret.1, parse_wellFormed hreadRet, hret⟩⟩
  · rintro ⟨hparen, hplain, hplainReturn⟩
    obtain ⟨hwrite, hwellFormed⟩ := readTypes_write hparams hplain
    obtain ⟨t, ht, hsignature⟩ := (exists_returnType hreturn).mpr hplainReturn
    have hwhole : signatures (readTypes paramTypes) = paramTypes.flatten := by
      rw [signatures_eq_flatten, show _ = paramTypes from hwrite]
    have hmany := parseMany_signatures (wellFormedArgs_iff.mpr hwellFormed)
    have hret := parse_signature ht []
    rw [List.append_nil, hsignature] at hret
    rw [hwhole] at hmany
    refine ⟨(readTypes paramTypes, t), ?_, hwrite, hsignature⟩
    rw [splitOnce_append hparen, Option.bind_some, hmany, hret]
    rfl

/-- For the type parameters of a class or a method and for a method all that is declared is read exactly if: no name
begins or ends with whitespace, every type parameter but the last ends with a semicolon, type parameters of one name have
the same bounds, nothing is nested in a class with type arguments, and no parameter type has a closing parenthesis in a
name. -/
theorem type_parameters_agree_iff {params : List TypeParameter} (h : params ≠ []) (rest : List Char)
    (methodParams : List TypeParameter) {paramTypes : List (List Char)} {returnType : List Char}
    (hparams : ∀ s ∈ paramTypes, Derives .javaType s) (hreturn : Derives .javaType returnType ∨ returnType = ['V']) :
    (NamesAgree params rest ∧ BoundsAgree params rest ∧ MethodTypesAgree methodParams paramTypes returnType) ↔
      ((∀ p ∈ params, trim p.name = p.name) ∧ ∀ p ∈ params.dropLast, p.Ended) ∧
        ((∀ p ∈ params, Plain p.bounds) ∧ SameBounds params) ∧
        (∀ s ∈ paramTypes, ')' ∉ s) ∧ Plain paramTypes ∧ ¬ NestsInGeneric returnType := by
  rw [methodTypesAgree_iff methodParams hparams hreturn, namesAgree_iff h]
  refine and_congr_right fun hnames => and_congr_left fun _ => ?_
  constructor
  · exact fun hbounds => ⟨hbounds.plain, hbounds.same⟩
  · rintro ⟨hplain, hsame⟩
    exact boundsAgree_of_read (parseTypeParameterBounds_declaration h rest hnames.1 hnames.2 hplain) hplain hsame

/-! ## Examples -/

theorem comparable_derives : Derives .referenceType "Ljava/lang/Comparable<TT;>;".toList :=
  .object (.outermost (@Derives.package "java".toList _ (by decide) (@Derives.package "lang".toList _ (by decide)
    (.simple (@Derives.generic "Comparable".toList _ (by decide)
      (.last (.invariant (@Derives.typeVariable ['T'] (by decide)))))))))

theorem closeable_derives : Derives .referenceType "Ljava/io/Closeable;".toList :=
  .object (.outermost (@Derives.package "java".toList _ (by decide) (@Derives.package "io".toList _ (by decide)
    (.simple (@Derives.plain "Closeable".toList (by decide))))))

/-- `T::Ljava/lang/Comparable<TT;>;` -/
def comparableParameter : TypeParameter where
  name := ['T']
  classBound := none
  interfaceBounds := ["Ljava/lang/Comparable<TT;>;".toList]
  name_identifier := by decide
  classBound_derives := nofun
  interfaceBounds_derive := List.forall_mem_singleton.mpr comparable_derives

/-- `U:TT;:Ljava/io/Closeable;` -/
def closeableParameter : TypeParameter where
  name := ['U']
  classBound := some "TT;".toList
  interfaceBounds := ["Ljava/io/Closeable;".toList]
  name_identifier := by decide
  classBound_derives b hb := by
    cases hb
    exact @Derives.typeVariable ['T'] (by decide)
  interfaceBounds_derive := List.forall_mem_singleton.mpr closeable_derives

/-- The signature `<T::Ljava/lang/Comparable<TT;>;U:TT;:Ljava/io/Closeable;>(Ljava/io/Closeable;[I)V` -/
theorem comparable_parameters_agree :
    NamesAgree [comparableParameter, closeableParameter] "Ljava/lang/Object;".toList ∧
      BoundsAgree [comparableParameter, closeableParameter] "Ljava/lang/Object;".toList ∧
      MethodTypesAgree [comparableParameter, closeableParameter] ["Ljava/io/Closeable;".toList, "[I".toList] ['V'] :=
  (type_parameters_agree_iff (List.cons_ne_nil _ _) "Ljava/lang/Object;".toList
    [comparableParameter, closeableParameter]
    (List.forall_mem_cons.mpr ⟨.reference closeable_derives,
      List.forall_mem_singleton.mpr (.reference (.array (.base (by decide))))⟩) (.inr rfl)).mpr
    ⟨⟨List.forall_mem_cons.mpr ⟨by decide, List.forall_mem_singleton.mpr (by decide)⟩,
        List.forall_mem_singleton.mpr (by decide)⟩,
      ⟨List.forall_mem_cons.mpr ⟨List.forall_mem_singleton.mpr (by decide),
          List.forall_mem_singleton.mpr (List.forall_mem_cons.mpr ⟨by decide, List.forall_mem_singleton.mpr (by decide)⟩)⟩,
        by
          simp only [SameBounds, List.forall_mem_cons, List.not_mem_nil, false_imp_iff, implies_true, and_true,
            true_and]
          exact ⟨fun h => absurd h (by decide), fun h => absurd h (by decide)⟩⟩,
      List.forall_mem_cons.mpr ⟨by decide, List.forall_mem_singleton.mpr (by decide)⟩,
      List.forall_mem_cons.mpr ⟨by decide, List.forall_mem_singleton.mpr (by decide)⟩, by decide⟩

/-- `T:Lp/Outer<TT;>.Inner;` -/
def innerParameter : TypeParameter where
  name := ['T']
  classBound := some "Lp/Outer<TT;>.Inner;".toList
  interfaceBounds := []
  name_identifier := by decide
  classBound_derives b hb := by
    cases hb
    have hvariable : Derives .typeArguments "TT;".toList := .last (.invariant (@Derives.typeVariable ['T'] (by decide)))
    have houter : Derives .classType "p/Outer<TT;>".toList :=
      .outermost (@Derives.package ['p'] _ (by decide)
        (.simple (@Derives.generic "Outer".toList _ (by decide) hvariable)))
    exact .object (.suffix houter (@Derives.plain "Inner".toList (by decide)))
  interfaceBounds_derive := nofun

/-- Of the bound `Lp/Outer<TT;>.Inner;` only `Lp/Outer<TT;>;` is read. -/
theorem inner_bound_cut : ¬ ∀ (params : List TypeParameter) (rest : List Char) (methodParams : List TypeParameter)
    (paramTypes : List (List Char)) (returnType : List Char), params ≠ [] → (∀ s ∈ paramTypes, Derives .javaType s) →
    (Derives .javaType returnType ∨ returnType = ['V']) →
    NamesAgree params rest ∧ BoundsAgree params rest ∧ MethodTypesAgree methodParams paramTypes returnType := by
  intro hall
  have hagree := (hall [innerParameter] [] [] [] ['V'] (List.cons_ne_nil _ _) nofun (.inr rfl)).2.1
  have hplain := hagree.plain innerParameter List.mem_cons_self "Lp/Outer<TT;>.Inner;".toList List.mem_cons_self
  revert hplain
  decide

end TypeParameter

end JavaAnalyzer.Semantic
