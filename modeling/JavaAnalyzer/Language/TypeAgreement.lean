import JavaAnalyzer.Language.TypeTranslations

/-! # Where the translations of source types agree

The signature of a text and that of its type, by the length of the text: in front of equal rests both tell
the same names. The descriptor only has the name of the erasure. -/

namespace JavaAnalyzer.Language
set_option autoImplicit false
open JavaAnalyzer.Index IndexView Semantic Text TextLines ElementWise

namespace SourceTypeCtx

variable (ctx : SourceTypeCtx)

/-! ## Signatures of types that read alike -/

theorem jvmSignatures_eq (types : List TypeName) :
    TypeName.jvmSignatures types = types.map TypeName.jvmSignature := by
  induction types with
  | nil => rfl
  | cons t types ih => rw [TypeName.jvmSignatures, ih, List.map_cons]

theorem jvmSignature_classType (internal : String) (args : List TypeName) (dims : ℕ) :
    (classType internal args dims).jvmSignature = List.replicate dims '[' ++ 'L' :: (internal.toList ++
      if args.isEmpty then [';'] else '<' :: (args.flatMap TypeName.jvmSignature ++ ['>', ';'])) := by
  rw [classType, TypeName.jvmSignature, jvmSignatures_eq, List.flatMap_def]
  cases args <;> rfl

theorem jvmSignature_intersectionType (t : TypeName) (types : List TypeName) (dims : ℕ) :
    (intersectionType (t :: types) dims).jvmSignature = List.replicate dims '[' ++ t.jvmSignature := by
  rw [intersectionType, TypeName.jvmSignature, TypeName.jvmSignatures]

theorem readsAlike_iff {name : List Char} : ctx.readsAlike name = true ↔
    ctx.resolveBaseInternal name = some (ctx.signatureClass name) ∧ primitiveLetter name = none ∧
      looksLikeTypeVar (ctx.signatureClass name).toList = false := by
  simp [readsAlike, and_assoc]

theorem classSignature_of_readsAlike {fuel : ℕ} {name : List Char} (h : ctx.readsAlike name = true)
    (args : Option (List Char)) :
    ctx.classSignature fuel name args = 'L' :: ((ctx.signatureClass name).toList ++
      if args.isNone then [';']
      else '<' :: ((argTexts args).flatMap (ctx.sourceTypeToSignatureFuel fuel) ++ ['>', ';'])) := by
  obtain ⟨-, hprimitive, hvar⟩ := ctx.readsAlike_iff.mp h
  rw [classSignature, hprimitive, hvar]
  rfl

/-- Brackets stand where there are arguments. -/
theorem isNone_eq_isEmpty {args : Option (List Char)} {types : List TypeName} {R : List Char → TypeName → Prop}
    (hforall : List.Forall₂ R (argTexts args) types) (hempty : (args.isNone || !(argTexts args).isEmpty) = true) :
    args.isNone = types.isEmpty := by
  have hlen := hforall.length_eq
  cases args with
  | none =>
    obtain rfl := List.length_eq_zero_iff.mp hlen.symm
    rfl
  | some args =>
    cases types with
    | nil =>
      rw [List.length_eq_zero_iff.mp hlen] at hempty
      exact absurd hempty (by simp)
    | cons t types => rfl

/-- What the translations of the texts of one length have in common. -/
structure SignaturesAgree (n : ℕ) : Prop where
  types : ∀ {domain strict reads : ℕ} {ty : List Char} {t : TypeName}, isSourceTypeFuel domain ty = true →
    ctx.resolveTypeNameStrictFuel strict ty = some t → ctx.namesReadAlikeFuel reads ty = true → ty.length < n →
    ctx.sourceTypeToSignatureFuel n ty = t.jvmSignature
  arguments : ∀ {domain strict reads : ℕ} {arg : List Char} {t : TypeName}, isTypeArgumentFuel domain arg = true →
    ctx.resolveTypeArgTypeFuel strict arg = some t → ctx.argumentReadsAlikeFuel reads arg = true → arg.length < n →
    ctx.sourceTypeToSignatureFuel n arg = t.jvmSignature

theorem signatures_agree (n : ℕ) : ctx.SignaturesAgree n := by
  induction n with
  | zero => exact ⟨fun _ _ _ h => absurd h (Nat.not_lt_zero _), fun _ _ _ h => absurd h (Nat.not_lt_zero _)⟩
  | succ n ih =>
    have htypes : ∀ {domain strict reads : ℕ} {ty : List Char} {t : TypeName}, isSourceTypeFuel domain ty = true →
        ctx.resolveTypeNameStrictFuel strict ty = some t → ctx.namesReadAlikeFuel reads ty = true →
        ty.length < n + 1 → ctx.sourceTypeToSignatureFuel (n + 1) ty = t.jvmSignature := by
      intro domain strict reads ty t hdomain hstrict hreads hlen
      obtain _ | domain := domain
      · exact absurd hdomain (by simp [isSourceTypeFuel])
      obtain _ | strict := strict
      · exact absurd hstrict (by simp [resolveTypeNameStrictFuel])
      obtain _ | reads := reads
      · exact absurd hreads (by simp [namesReadAlikeFuel])
      obtain ⟨⟨hwild, harity⟩, hshape⟩ := isSourceTypeFuel_cases hdomain
      rw [ctx.sourceTypeToSignatureFuel_eq hwild harity]
      rw [namesReadAlikeFuel] at hreads
      rcases hshape with ⟨bound, second, others, htext, hbounds⟩ | ⟨name, args, htext, hargs⟩
      · obtain ⟨first, types, hfirst, rfl⟩ := ctx.resolveTypeNameStrictFuel_intersection htext hstrict
        rw [htext.bounds] at hreads ⊢
        simp only [Bool.and_eq_true, decide_eq_true_iff] at hreads
        have hshorter := htext.shorter bound List.mem_cons_self
        rw [jvmSignature_intersectionType, hreads.1]
        exact ih.types (hbounds bound List.mem_cons_self) hfirst hreads.2 (by omega)
      · have hmany : ¬ 1 < (splitTopLevelJavaIntersectionBounds (typeCore ty).2).length := by
          rw [htext.bounds]
          exact lt_irrefl 1
        obtain ⟨name', args', internal, types, hsplit, hinternal, hforall, rfl⟩ :=
          ctx.resolveTypeNameStrictFuel_class hmany hstrict
        rw [htext.split] at hsplit
        obtain ⟨rfl, rfl⟩ := Prod.mk.inj (Option.some.inj hsplit)
        rw [htext.bounds, htext.split] at hreads ⊢
        simp only [Bool.and_eq_true, List.all_eq_true] at hreads
        obtain ⟨⟨hname, hempty⟩, hall⟩ := hreads
        obtain ⟨hbase, -, -⟩ := ctx.readsAlike_iff.mp hname
        obtain rfl := Option.some.inj (hinternal.symm.trans hbase)
        have hflat : (argTexts args).flatMap (ctx.sourceTypeToSignatureFuel n) = types.flatMap TypeName.jvmSignature :=
          flatMap_eq_of_forall₂ hforall fun arg harg u hu => ih.arguments (hargs arg harg) hu (hall arg harg)
            ((htext.shorter arg harg).trans_le (Nat.le_of_lt_succ hlen))
        rw [Option.getD_some, ctx.classSignature_of_readsAlike hname, jvmSignature_classType, hflat,
          isNone_eq_isEmpty hforall hempty]
    refine ⟨htypes, ?_⟩
    intro domain strict reads arg t hdomain hstrict hreads hlen
    obtain _ | domain := domain
    · exact absurd hdomain (by simp [isTypeArgumentFuel])
    obtain _ | strict := strict
    · exact absurd hstrict (by simp [resolveTypeArgTypeFuel])
    obtain _ | reads := reads
    · exact absurd hreads (by simp [argumentReadsAlikeFuel])
    rw [isTypeArgumentFuel] at hdomain
    rw [argumentReadsAlikeFuel] at hreads
    rcases ctx.resolveTypeArgTypeFuel_cases n hstrict with
      ⟨hplain, rfl⟩ | ⟨bound, letter, wrap, u, hwildcard, hu, rfl⟩ | ⟨hquestion, hbound, ht, -⟩
    · rw [ctx.sourceTypeToSignatureFuel_question n hplain]
      rfl
    · rw [if_neg hwildcard.question, hwildcard.isBound] at hdomain hreads
      have hshorter := hwildcard.shorter
      rw [hwildcard.signature, hwildcard.wrapped, ih.arguments hdomain hu hreads (by omega)]
    · rw [if_neg hquestion, hbound] at hdomain hreads
      rw [← ctx.sourceTypeToSignatureFuel_trim]
      exact htypes hdomain ht hreads ((trim_length_le arg).trans_lt hlen)

/-! ## Names in signatures that agree -/

theorem isPlainName_slashed {name : String} (h : IsPlainName name) : IsPlainName (BucketState.slashed name) := by
  intro c hc
  rw [BucketState.slashed, String.toList_ofList] at hc
  obtain ⟨d, hd, rfl⟩ := List.mem_map.mp hc
  split
  · rfl
  · exact h d hd

theorem isPlainName_of_qualified {name : List Char} (h : isQualifiedName name = true) :
    IsPlainName (String.ofList name) := by
  intro c hc
  have hjoined : ['.'].intercalate (name.splitOn '.') = name := List.intercalate_splitOn '.'
  rw [String.toList_ofList, ← hjoined] at hc
  rcases mem_intercalate hc with hdot | ⟨segment, hsegment, hmem⟩
  · rw [List.mem_singleton.mp hdot]
    rfl
  · have hall := List.all_eq_true.mp h segment hsegment
    rw [Bool.and_eq_true, List.all_eq_true] at hall
    have hchar := hall.2 c hmem
    by_contra hstop
    rw [Bool.not_eq_false, Bool.or_eq_true, decide_eq_true_iff, decide_eq_true_iff] at hstop
    rcases hstop with rfl | rfl
    · exact absurd hchar (by decide)
    · exact absurd hchar (by decide)

section Plain

variable {ctx} (hplain : ctx.PlainIndex)

include hplain

theorem PlainIndex.of_getClass {internal : String} {c : ClassMetadata} (h : ctx.view.getClass internal = some c) :
    IsPlainName c.internalName :=
  hplain c (record_of_getClass h).1

theorem PlainIndex.of_classExists {internal : String} (h : ctx.classExists internal = true) : IsPlainName internal := by
  obtain ⟨c, hc⟩ := Option.isSome_iff_exists.mp h
  exact (record_of_getClass hc).2 ▸ hplain.of_getClass hc

theorem PlainIndex.of_resolveSimpleStrict {simple internal : String}
    (h : ctx.resolveSimpleStrict simple = some internal) : IsPlainName internal := by
  rw [resolveSimpleStrict_eq] at h
  exact hplain.of_classExists (LevelLookup.known_of_lookup h)

theorem PlainIndex.of_resolveQualifiedTypePath {path : String} {head : String → Option String} {c : ClassMetadata}
    (h : ctx.view.resolveQualifiedTypePath path head = some c) : IsPlainName c.internalName := by
  rw [IndexView.resolveQualifiedTypePath] at h
  split at h
  · exact absurd h (by simp)
  · split at h
    · exact hplain.of_getClass h
    · obtain ⟨split, -, hfound⟩ := List.exists_of_findSome?_eq_some h
      obtain ⟨owner, -, hclass⟩ := Option.bind_eq_some_iff.mp hfound
      exact hplain.of_getClass hclass

theorem PlainIndex.of_nestedByName {parts : List String} {internal : String}
    (h : ctx.nestedByName parts = some internal) : IsPlainName internal := by
  obtain ⟨split, -, hfound⟩ := List.exists_of_findSome?_eq_some h
  obtain ⟨owner, -, hcandidate⟩ := Option.bind_eq_some_iff.mp hfound
  simp only [] at hcandidate
  split at hcandidate
  · rename_i hexists
    rw [← Option.some.inj hcandidate]
    exact hplain.of_classExists hexists
  · exact absurd hcandidate (by simp)

theorem PlainIndex.of_resolveBaseInternal {name : List Char} {internal : String}
    (h : ctx.resolveBaseInternal name = some internal) : IsPlainName internal := by
  have hknown : ∀ known, (if ctx.classExists known then some known else none) = some internal →
      IsPlainName internal := by
    intro known hknown
    split at hknown
    · rename_i hexists
      rw [← Option.some.inj hknown]
      exact hplain.of_classExists hexists
    · exact absurd hknown (by simp)
  rw [resolveBaseInternal] at h
  simp only [] at h
  split at h
  · exact hknown _ h
  · split at h
    · split at h
      · rename_i resolved hresolved
        rw [← Option.some.inj h]
        exact hplain.of_resolveQualifiedTypePath hresolved
      · split at h
        · exact absurd h (by simp)
        · split at h
          · rename_i hexists
            rw [← Option.some.inj h]
            exact hplain.of_classExists hexists
          · exact hplain.of_nestedByName h
    · exact hplain.of_resolveSimpleStrict h

theorem PlainIndex.of_signatureClass {name : List Char} (hname : isQualifiedName name = true) :
    IsPlainName (ctx.signatureClass name) := by
  refine isPlainName_slashed ?_
  rw [resolveSimple]
  cases hstrict : ctx.resolveSimpleStrict (String.ofList name) with
  | none => exact isPlainName_of_qualified hname
  | some internal => exact hplain.of_resolveSimpleStrict hstrict

end Plain

theorem append_inj_of_plain {name name' : String} (h : IsPlainName name) (h' : IsPlainName name') {c c' : Char}
    (hc : (c = ';' || c = '<') = true) (hc' : (c' = ';' || c' = '<') = true) {rest rest' : List Char}
    (heq : name.toList ++ c :: rest = name'.toList ++ c' :: rest') : name = name' ∧ c = c' ∧ rest = rest' := by
  have hbreak := congrArg (breakAt fun d => d = ';' || d = '<') heq
  rw [breakAt_append h hc, breakAt_append h' hc', Prod.mk.injEq, List.cons.injEq] at hbreak
  exact ⟨String.toList_injective hbreak.1, hbreak.2⟩

theorem primitiveLetter_ne {name : List Char} {letter : Char} (h : primitiveLetter name = some letter) :
    letter ≠ 'L' ∧ letter ≠ '[' := by
  rw [primitiveLetter] at h
  split at h <;> simp only [Option.some.injEq, reduceCtorEq] at h <;> subst h <;> decide

theorem classSignature_class {fuel : ℕ} {name rest rest' : List Char} {args : Option (List Char)}
    (h : ctx.classSignature fuel name args ++ rest = 'L' :: rest') :
    primitiveLetter name = none ∧ looksLikeTypeVar (ctx.signatureClass name).toList = false := by
  rw [classSignature] at h
  split at h
  · rename_i letter hletter
    exact absurd (List.cons.inj h).1 (primitiveLetter_ne hletter).1
  · rename_i hnone
    refine ⟨hnone, ?_⟩
    split at h
    · exact absurd (List.cons.inj h).1 (by decide)
    · rename_i hvar
      exact eq_false_of_ne_true hvar

/-- What equal signatures of the texts of one length tell about their names. -/
structure SignaturesTell (n : ℕ) : Prop where
  types : ∀ {domain strict reads : ℕ} {ty rest rest' : List Char} {t : TypeName}, isSourceTypeFuel domain ty = true →
    ctx.resolveTypeNameStrictFuel strict ty = some t → ty.length < n → 2 * ty.length + 2 ≤ reads →
    ctx.sourceTypeToSignatureFuel n ty ++ rest = t.jvmSignature ++ rest' →
    ctx.namesReadAlikeFuel reads ty = true ∧ rest = rest'
  arguments : ∀ {domain strict reads : ℕ} {arg rest rest' : List Char} {t : TypeName},
    isTypeArgumentFuel domain arg = true → ctx.resolveTypeArgTypeFuel strict arg = some t → arg.length < n →
    2 * arg.length + 3 ≤ reads → ctx.sourceTypeToSignatureFuel n arg ++ rest = t.jvmSignature ++ rest' →
    ctx.argumentReadsAlikeFuel reads arg = true ∧ rest = rest'

/-- The signature of a class tells that its name and its arguments read alike. -/
theorem classSignature_tells (hplain : ctx.PlainIndex) {fuel : ℕ} (reads : ℕ) {name : List Char} {args : Option (List Char)}
    {internal : String} {types : List TypeName} {R : List Char → TypeName → Prop}
    (hname : isQualifiedName name = true) (hinternal : ctx.resolveBaseInternal name = some internal)
    (hforall : List.Forall₂ R (argTexts args) types)
    (htell : ∀ arg ∈ argTexts args, ∀ u, R arg u → ∀ rest rest',
      ctx.sourceTypeToSignatureFuel fuel arg ++ rest = u.jvmSignature ++ rest' →
        ctx.argumentReadsAlikeFuel reads arg = true ∧ rest = rest')
    {rest rest' : List Char}
    (heq : ctx.classSignature fuel name args ++ rest = 'L' :: (internal.toList ++
      if types.isEmpty then [';'] else '<' :: (types.flatMap TypeName.jvmSignature ++ ['>', ';'])) ++ rest') :
    ctx.readsAlike name = true ∧ (args.isNone || !(argTexts args).isEmpty) = true ∧
      (∀ arg ∈ argTexts args, ctx.argumentReadsAlikeFuel reads arg = true) ∧ rest = rest' := by
  obtain ⟨hprimitive, hvar⟩ := ctx.classSignature_class heq
  rw [classSignature, hprimitive, hvar] at heq
  have hname := hplain.of_signatureClass hname
  have hplain := hplain.of_resolveBaseInternal hinternal
  have hreads : ctx.signatureClass name = internal → ctx.readsAlike name = true := by
    rintro rfl
    exact ctx.readsAlike_iff.mpr ⟨hinternal, hprimitive, hvar⟩
  cases args with
  | none =>
    obtain rfl := List.length_eq_zero_iff.mp hforall.length_eq.symm
    simp only [Bool.false_eq_true, if_false, Option.isNone_none, if_true, List.isEmpty_nil, List.cons_append,
      List.append_assoc, List.cons.injEq, true_and, List.nil_append] at heq
    obtain ⟨hclass, -, hrest⟩ := append_inj_of_plain hname hplain rfl rfl heq
    exact ⟨hreads hclass, rfl, fun arg harg => absurd harg List.not_mem_nil, hrest⟩
  | some args =>
    simp only [Bool.false_eq_true, if_false, Option.isNone_some, List.cons_append,
      List.append_assoc, List.cons.injEq, true_and] at heq
    cases types with
    | nil =>
      simp only [List.isEmpty_nil, if_true, List.cons_append, List.nil_append] at heq
      exact absurd (append_inj_of_plain hname hplain rfl rfl heq).2.1 (by decide)
    | cons u types =>
      simp only [List.isEmpty_cons, Bool.false_eq_true, if_false, List.cons_append, List.append_assoc] at heq
      obtain ⟨hclass, -, hrest⟩ := append_inj_of_plain hname hplain rfl rfl heq
      obtain ⟨hall, hend⟩ := flatMap_tell hforall htell hrest
      refine ⟨hreads hclass, ?_, hall, ?_⟩
      · cases hargs : argTexts (some args) with
        | nil =>
          rw [hargs] at hforall
          exact absurd hforall.length_eq (by simp)
        | cons arg others => rfl
      · simpa using hend

theorem classSignature_head (fuel : ℕ) (name : List Char) (args : Option (List Char)) :
    ∃ c rest, ctx.classSignature fuel name args = c :: rest ∧ c ≠ '[' := by
  rw [classSignature]
  split
  · rename_i letter hletter
    exact ⟨letter, [], rfl, (primitiveLetter_ne hletter).2⟩
  · split
    · exact ⟨_, _, rfl, by decide⟩
    · exact ⟨_, _, rfl, by decide⟩

theorem dims_eq_zero {dims inner : ℕ} {c : Char} (hc : c ≠ '[') {rest rest' : List Char}
    (heq : List.replicate inner '[' ++ c :: rest = List.replicate dims '[' ++ (List.replicate inner '[' ++ rest')) :
    dims = 0 := by
  rw [← List.append_assoc, List.replicate_append_replicate, Nat.add_comm dims inner,
    ← List.replicate_append_replicate, List.append_assoc] at heq
  cases dims with
  | zero => rfl
  | succ dims => exact absurd (List.cons.inj (List.append_cancel_left heq)).1 hc

/-- The signature of an intersection has no dimensions in front of those of the first bound. -/
theorem intersection_dims {domain strict n : ℕ} {ty bound second rest rest' : List Char} {others : List (List Char)}
    {first : TypeName} (htext : IsIntersectionText ty bound second others) (hdomain : isSourceTypeFuel domain bound = true)
    (hfirst : ctx.resolveTypeNameStrictFuel strict bound = some first) (hlen : bound.length < n)
    (heq : ctx.sourceTypeToSignatureFuel n bound ++ rest =
      List.replicate (typeCore ty).1 '[' ++ first.jvmSignature ++ rest') : (typeCore ty).1 = 0 := by
  obtain _ | domain := domain
  · exact absurd hdomain (by simp [isSourceTypeFuel])
  obtain _ | strict := strict
  · exact absurd hfirst (by simp [resolveTypeNameStrictFuel])
  obtain _ | n := n
  · exact absurd hlen (Nat.not_lt_zero _)
  obtain ⟨⟨hwild, harity⟩, hshape⟩ := isSourceTypeFuel_cases hdomain
  obtain ⟨name, args, internal, types, -, -, -, rfl⟩ := ctx.resolveTypeNameStrictFuel_class htext.first_not_many hfirst
  rw [ctx.sourceTypeToSignatureFuel_eq hwild harity] at heq
  rcases hshape with ⟨b, c, bs, hmany, -⟩ | ⟨name', args', hclass, -⟩
  · exact absurd (by rw [hmany.bounds]; simp) htext.first_not_many
  · obtain ⟨c, tail, hhead, hc⟩ := ctx.classSignature_head n name' args'
    rw [hclass.bounds, hclass.split] at heq
    simp only [Option.getD_some, hhead, jvmSignature_classType, List.append_assoc, List.cons_append] at heq
    exact dims_eq_zero hc heq

theorem signatures_tell (hplain : ctx.PlainIndex) (n : ℕ) : ctx.SignaturesTell n := by
  induction n with
  | zero => exact ⟨fun _ _ h => absurd h (Nat.not_lt_zero _), fun _ _ h => absurd h (Nat.not_lt_zero _)⟩
  | succ n ih =>
    have htypes : ∀ {domain strict reads : ℕ} {ty rest rest' : List Char} {t : TypeName},
        isSourceTypeFuel domain ty = true → ctx.resolveTypeNameStrictFuel strict ty = some t → ty.length < n + 1 →
        2 * ty.length + 2 ≤ reads → ctx.sourceTypeToSignatureFuel (n + 1) ty ++ rest = t.jvmSignature ++ rest' →
        ctx.namesReadAlikeFuel reads ty = true ∧ rest = rest' := by
      intro domain strict reads ty rest rest' t hdomain hstrict hlen hreads heq
      obtain _ | domain := domain
      · exact absurd hdomain (by simp [isSourceTypeFuel])
      obtain _ | strict := strict
      · exact absurd hstrict (by simp [resolveTypeNameStrictFuel])
      obtain _ | reads := reads
      · exact absurd hreads (by omega)
      obtain ⟨⟨hwild, harity⟩, hshape⟩ := isSourceTypeFuel_cases hdomain
      rw [ctx.sourceTypeToSignatureFuel_eq hwild harity] at heq
      rw [namesReadAlikeFuel]
      rcases hshape with ⟨bound, second, others, htext, hbounds⟩ | ⟨name, args, htext, hargs⟩
      · obtain ⟨first, types, hfirst, rfl⟩ := ctx.resolveTypeNameStrictFuel_intersection htext hstrict
        have hshorter := htext.shorter bound List.mem_cons_self
        have hdomain := hbounds bound List.mem_cons_self
        rw [htext.bounds] at heq ⊢
        rw [jvmSignature_intersectionType] at heq
        have hdims := ctx.intersection_dims htext hdomain hfirst (by omega) heq
        rw [hdims] at heq ⊢
        have hbound : ctx.namesReadAlikeFuel reads bound = true ∧ rest = rest' :=
          ih.types hdomain hfirst (by omega) (by omega) heq
        exact ⟨by simpa using hbound.1, hbound.2⟩
      · have hmany : ¬ 1 < (splitTopLevelJavaIntersectionBounds (typeCore ty).2).length := by
          rw [htext.bounds]
          exact lt_irrefl 1
        obtain ⟨name', args', internal, types, hsplit, hinternal, hforall, rfl⟩ :=
          ctx.resolveTypeNameStrictFuel_class hmany hstrict
        rw [htext.split] at hsplit
        obtain ⟨rfl, rfl⟩ := Prod.mk.inj (Option.some.inj hsplit)
        rw [htext.bounds, htext.split] at heq ⊢
        rw [jvmSignature_classType, List.append_assoc, List.append_assoc] at heq
        obtain ⟨hname, hempty, hall, hend⟩ := ctx.classSignature_tells hplain reads htext.qualified
          hinternal hforall
          (fun arg harg u hu rest rest' => ih.arguments (hargs arg harg) hu
            ((htext.shorter arg harg).trans_le (Nat.le_of_lt_succ hlen)) (by
              have hshorter := htext.shorter arg harg
              omega))
          (List.append_cancel_left heq)
        refine ⟨?_, hend⟩
        simp only [Bool.and_eq_true, List.all_eq_true]
        exact ⟨⟨hname, hempty⟩, hall⟩
    refine ⟨htypes, ?_⟩
    intro domain strict reads arg rest rest' t hdomain hstrict hlen hreads heq
    obtain _ | domain := domain
    · exact absurd hdomain (by simp [isTypeArgumentFuel])
    obtain _ | strict := strict
    · exact absurd hstrict (by simp [resolveTypeArgTypeFuel])
    obtain _ | reads := reads
    · exact absurd hreads (by omega)
    rw [isTypeArgumentFuel] at hdomain
    rw [argumentReadsAlikeFuel]
    rcases ctx.resolveTypeArgTypeFuel_cases n hstrict with
      ⟨hquestion, rfl⟩ | ⟨bound, letter, wrap, u, hwildcard, hu, rfl⟩ | ⟨hquestion, hbound, ht, -⟩
    · rw [if_pos hquestion]
      rw [ctx.sourceTypeToSignatureFuel_question n hquestion] at heq
      exact ⟨rfl, (List.cons.inj heq).2⟩
    · rw [if_neg hwildcard.question, hwildcard.isBound] at hdomain ⊢
      have hshorter := hwildcard.shorter
      rw [hwildcard.signature, hwildcard.wrapped] at heq
      exact ih.arguments hdomain hu (by omega) (by omega) (List.cons.inj heq).2
    · rw [if_neg hquestion, hbound] at hdomain ⊢
      rw [← ctx.sourceTypeToSignatureFuel_trim] at heq
      have hshorter := trim_length_le arg
      exact htypes hdomain ht (by omega) (by omega) heq

/-! ## Descriptors -/

theorem trim_splitJavaGenericBase {s name : List Char} {args : Option (List Char)}
    (h : splitJavaGenericBase s = some (name, args)) : trim name = name := by
  rw [splitJavaGenericBase] at h
  split at h
  · obtain ⟨rfl, -⟩ := Prod.mk.inj (Option.some.inj h)
    exact trim_trim s
  · obtain ⟨i, -, hcut⟩ := Option.map_eq_some_iff.mp h
    obtain ⟨rfl, -⟩ := Prod.mk.inj hcut
    exact trim_trim _

theorem erasedName_of_split {ty name : List Char} {args : Option (List Char)}
    (h : splitJavaGenericBase (erasedText ty) = some (name, args)) : erasedName ty = name := by
  rw [erasedName, h]
  exact trim_splitJavaGenericBase h

theorem erasedDescriptor_classType (internal : String) (args : List TypeName) (dims : ℕ) :
    (classType internal args dims).erasedDescriptor =
      List.replicate dims '[' ++ 'L' :: (internal.toList ++ [';']) :=
  rfl

theorem erasedDescriptor_intersectionType (t : TypeName) (types : List TypeName) (dims : ℕ) :
    (intersectionType (t :: types) dims).erasedDescriptor = List.replicate dims '[' ++ t.erasedDescriptor :=
  rfl

/-- The descriptor of a name keeps its dots, where a signature has slashes. -/
theorem nameDescriptor_eq_iff {name : List Char} {internal : String} (hname : ctx.readsAlike name = true)
    (hinternal : ctx.resolveBaseInternal name = some internal) :
    ctx.nameDescriptor name = 'L' :: (internal.toList ++ [';']) ↔
      (ctx.resolveSimple (String.ofList name)).toList.contains '.' = false := by
  obtain ⟨hbase, hprimitive, -⟩ := ctx.readsAlike_iff.mp hname
  obtain rfl := Option.some.inj (hinternal.symm.trans hbase)
  rw [nameDescriptor, hprimitive]
  simp only [List.cons.injEq, true_and, List.append_cancel_right_eq]
  rw [← Bool.not_eq_true, List.contains_iff_mem]
  constructor
  · intro heq
    rw [heq]
    exact not_mem_slashed _
  · intro hdot
    rw [signatureClass, slashed_of_not_mem hdot]

theorem nameDescriptor_head (name : List Char) : ∃ c rest, ctx.nameDescriptor name = c :: rest ∧ c ≠ '[' := by
  rw [nameDescriptor]
  split
  · rename_i letter hletter
    exact ⟨letter, [], rfl, (primitiveLetter_ne hletter).2⟩
  · exact ⟨_, _, rfl, by decide⟩

theorem readsAlike_of_classText {fuel : ℕ} {ty name : List Char} {args : Option (List Char)}
    (htext : IsClassText ty name args) (h : ctx.namesReadAlikeFuel (fuel + 1) ty = true) :
    ctx.readsAlike name = true := by
  rw [namesReadAlikeFuel, htext.bounds, htext.split] at h
  simp only [Bool.and_eq_true] at h
  exact h.1.1

theorem nameDescriptor_of_classText {dims strict reads : ℕ} {ty name : List Char} {args : Option (List Char)}
    {t : TypeName} (htext : IsClassText ty name args) (hdims : (typeCore ty).1 = dims)
    (hstrict : ctx.resolveTypeNameStrictFuel strict ty = some t) (hreads : ctx.namesReadAlikeFuel reads ty = true) :
    List.replicate dims '[' ++ ctx.nameDescriptor name = t.erasedDescriptor ↔
      (ctx.resolveSimple (String.ofList name)).toList.contains '.' = false := by
  obtain _ | strict := strict
  · exact absurd hstrict (by simp [resolveTypeNameStrictFuel])
  obtain _ | reads := reads
  · exact absurd hreads (by simp [namesReadAlikeFuel])
  have hmany : ¬ 1 < (splitTopLevelJavaIntersectionBounds (typeCore ty).2).length := by
    rw [htext.bounds]
    exact lt_irrefl 1
  obtain ⟨name', args', internal, types, hsplit, hinternal, -, rfl⟩ :=
    ctx.resolveTypeNameStrictFuel_class hmany hstrict
  rw [htext.split] at hsplit
  obtain ⟨rfl, rfl⟩ := Prod.mk.inj (Option.some.inj hsplit)
  rw [erasedDescriptor_classType, hdims, List.append_cancel_left_eq]
  exact ctx.nameDescriptor_eq_iff (ctx.readsAlike_of_classText htext hreads) hinternal

/-- Where the names read alike, the descriptor is that of the erasure exactly if the erased name reads alike
in it too. -/
theorem descriptor_iff {domain strict reads : ℕ} {ty : List Char} {t : TypeName}
    (hdomain : isSourceTypeFuel domain ty = true) (hstrict : ctx.resolveTypeNameStrictFuel strict ty = some t)
    (hreads : ctx.namesReadAlikeFuel reads ty = true) :
    ctx.toDescriptor ty = t.erasedDescriptor ↔ ctx.erasureReadsAlike ty = true := by
  obtain _ | domain := domain
  · exact absurd hdomain (by simp [isSourceTypeFuel])
  obtain _ | strict := strict
  · exact absurd hstrict (by simp [resolveTypeNameStrictFuel])
  obtain _ | reads := reads
  · exact absurd hreads (by simp [namesReadAlikeFuel])
  obtain ⟨⟨-, harity⟩, hshape⟩ := isSourceTypeFuel_cases hdomain
  rw [ctx.toDescriptor_eq harity, erasureReadsAlike, Bool.and_eq_true, decide_eq_true_iff, Bool.not_eq_true']
  rcases hshape with ⟨bound, second, others, htext, hbounds⟩ | ⟨name, args, htext, hargs⟩
  · obtain ⟨first, types, hfirst, rfl⟩ := ctx.resolveTypeNameStrictFuel_intersection htext hstrict
    rw [namesReadAlikeFuel, htext.bounds] at hreads
    simp only [Bool.and_eq_true, decide_eq_true_iff] at hreads
    have herased : erasedText ty = bound := by rw [erasedText, htext.bounds]; rfl
    have hcore : typeCore bound = stripDimensions bound := by rw [typeCore, htext.bare]
    obtain _ | domain := domain
    · exact absurd (hbounds bound List.mem_cons_self) (by simp [isSourceTypeFuel])
    obtain ⟨-, ⟨b, c, bs, hmany, -⟩ | ⟨name, args, hclass, -⟩⟩ :=
      isSourceTypeFuel_cases (hbounds bound List.mem_cons_self)
    · exact absurd (by rw [hmany.bounds]; simp) htext.first_not_many
    rw [erasedDescriptor_intersectionType, List.append_cancel_left_eq, herased]
    by_cases hdims : (stripDimensions bound).1 = 0
    · have hbound : typeCore bound = (0, bound) := hcore.trans (stripDimensions_of_zero hdims)
      have hname : erasedName ty = name := erasedName_of_split (by rw [herased, ← hclass.split, hbound])
      rw [hname, and_iff_right hdims]
      exact ctx.nameDescriptor_of_classText hclass (by rw [hbound]) hfirst hreads.2
    · obtain ⟨strict, rfl⟩ : ∃ n, strict = n + 1 := Nat.exists_eq_succ_of_ne_zero fun hzero =>
        absurd (hzero ▸ hfirst) (by simp [resolveTypeNameStrictFuel])
      obtain ⟨name, args, internal, types, -, -, -, rfl⟩ :=
        ctx.resolveTypeNameStrictFuel_class htext.first_not_many hfirst
      refine iff_of_false (fun heq => ?_) fun h => hdims h.1
      obtain ⟨c, rest, hhead, hc⟩ := ctx.nameDescriptor_head (erasedName ty)
      rw [hhead, erasedDescriptor_classType, hcore] at heq
      obtain ⟨n, hn⟩ := Nat.exists_eq_succ_of_ne_zero hdims
      rw [hn] at heq
      exact hc (List.cons.inj heq).1
  · have herased : erasedText ty = (typeCore ty).2 := by rw [erasedText, htext.bounds]; rfl
    have hname : erasedName ty = name := erasedName_of_split (by rw [herased]; exact htext.split)
    have hdims : (stripDimensions (typeCore ty).2).1 = 0 := stripDimensions_again _
    rw [hname, herased, and_iff_right hdims]
    exact ctx.nameDescriptor_of_classText htext rfl hstrict hreads

/-- Where the names read alike, the translations agree; over an index of plain names, only there. -/
theorem translations_agree {ty : List Char} {t : TypeName} (hty : isSourceType ty = true)
    (h : ctx.resolveTypeNameStrict ty = some t) :
    (ctx.translationsReadAlike ty = true → ctx.TranslationsAgree ty t) ∧
      (ctx.PlainIndex → ctx.TranslationsAgree ty t → ctx.translationsReadAlike ty = true) := by
  rw [translationsReadAlike, Bool.and_eq_true]
  constructor
  · rintro ⟨hnames, herasure⟩
    exact ⟨(ctx.descriptor_iff hty h hnames).mpr herasure,
      (ctx.signatures_agree _).types hty h hnames (Nat.lt_succ_self _)⟩
  · rintro hplain ⟨hdescriptor, hsignature⟩
    have hnames : ctx.namesReadAlike ty = true :=
      ((ctx.signatures_tell hplain _).types hty h (Nat.lt_succ_self _) le_rfl
        (congrArg (· ++ []) hsignature)).1
    exact ⟨hnames, (ctx.descriptor_iff hty h hnames).mp hdescriptor⟩

/-! ## A qualified name -/

/-- A file without imports, with the class `p.C` in its index. -/
def qualifiedNameCtx : SourceTypeCtx where
  package := none
  imports := []
  view := .new [BucketIndex.new.addClasses [.bare (some "p") "C" "p/C" none .unknown]]

/-- A file that imports the class. -/
def importedNameCtx : SourceTypeCtx :=
  { qualifiedNameCtx with imports := ["p.C"] }

theorem mem_of_mem_records_new {classes : List ClassMetadata} {c : ClassMetadata}
    (h : c ∈ (IndexView.new [BucketIndex.new.addClasses classes]).records) : c ∈ classes := by
  have hmem : c ∈ (BucketIndex.new.addClasses classes).iterAllClasses := by
    obtain ⟨layer, hlayer, hc⟩ := List.mem_flatMap.mp h
    obtain rfl := List.mem_singleton.mp hlayer
    exact hc
  have hget := (BucketState.getClass_addClasses BucketState.invariant_new classes none c.internalName).symm.trans
    (BucketIndex.mem_iterAllClasses.mp hmem)
  rcases Option.or_eq_some_iff.mp hget with hnamed | ⟨-, hnew⟩
  · exact (BucketState.mem_of_lastNamed hnamed).1
  · exact absurd hnew (by simp [BucketState.getClass, BucketState.new])

theorem translations_agree_imported :
    importedNameCtx.TranslationsAgree "C<?>[]".toList ⟨"p/C", .internal, [.wildcard], 1⟩ ∧
      importedNameCtx.PlainIndex ∧ importedNameCtx.translationsReadAlike "C<?>[]".toList = true :=
  have hplain : importedNameCtx.PlainIndex := by
    intro c hc
    obtain rfl := List.mem_singleton.mp (mem_of_mem_records_new hc)
    change ∀ d ∈ ['p', '/', 'C'], (d = ';' || d = '<') = false
    simp
  have hagree := importedNameCtx.translations_agree (by decide) rfl
  ⟨hagree.1 (by decide), hplain, hagree.2 hplain (hagree.1 (by decide))⟩

/-- The descriptor of a qualified name keeps its dots. -/
theorem qualified_name_keeps_dots :
    isSourceType "p.C".toList = true ∧
      qualifiedNameCtx.resolveTypeNameStrict "p.C".toList = some ⟨"p/C", .internal, [], 0⟩ ∧
      qualifiedNameCtx.toDescriptor "p.C".toList = "Lp.C;".toList ∧
      qualifiedNameCtx.sourceTypeToSignature "p.C".toList = "Lp/C;".toList ∧
      ¬ qualifiedNameCtx.TranslationsAgree "p.C".toList ⟨"p/C", .internal, [], 0⟩ :=
  ⟨by decide, rfl, by decide, by decide, fun h => absurd h.1 (by decide)⟩

end SourceTypeCtx

end JavaAnalyzer.Language
