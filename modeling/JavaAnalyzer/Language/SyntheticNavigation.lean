import JavaAnalyzer.Language.SyntheticCollisions

/-! # Navigating to synthesized methods

A method and its definition are put together separately. They agree but for `@ToString` and the static factories,
whose methods return a bare class name, which is no descriptor. -/

namespace JavaAnalyzer.Language
set_option autoImplicit false
open JavaAnalyzer.Index Lombok Jvm

/-! ## Descriptors -/

/-- Field types between parentheses and a field type behind them, or `V`. -/
def IsMethodDescriptor (s : List Char) : Prop :=
  ∃ (types : List (List Char)) (ret : List Char), (∀ t ∈ types, isFieldType t = true) ∧
    (ret = ['V'] ∨ isFieldType ret = true) ∧ s = '(' :: (types.flatten ++ ')' :: ret)

/-- The characters that a field type ends with. -/
def fieldTypeEnds : List Char :=
  ';' :: baseChars

theorem getLast?_isFieldType {s : List Char} (h : isFieldType s = true) :
    ∃ c ∈ fieldTypeEnds, s.getLast? = some c := by
  induction s with
  | nil => cases h
  | cons c s ih =>
    simp only [isFieldType] at h
    split_ifs at h with hL hA
    · split at h
      · rename_i name hs
        obtain ⟨rfl, -⟩ := Text.splitOnce_eq hs
        exact ⟨';', List.mem_cons_self, by rw [← List.cons_append, List.getLast?_concat]⟩
      · cases h
    · obtain ⟨d, hd, hlast⟩ := ih h
      exact ⟨d, hd, by rw [List.getLast?_cons, hlast]; rfl⟩
    · simp only [Bool.and_eq_true, List.isEmpty_iff, List.contains_iff_mem] at h
      obtain ⟨rfl, hc⟩ := h
      exact ⟨c, List.mem_cons_of_mem _ hc, rfl⟩

theorem IsMethodDescriptor.getLast? {s : List Char} (h : IsMethodDescriptor s) :
    ∃ c ∈ 'V' :: fieldTypeEnds, s.getLast? = some c := by
  obtain ⟨types, ret, -, hret, rfl⟩ := h
  obtain ⟨c, hc, hlast⟩ : ∃ c ∈ 'V' :: fieldTypeEnds, ret.getLast? = some c := by
    rcases hret with rfl | hret
    · exact ⟨'V', List.mem_cons_self, rfl⟩
    · obtain ⟨c, hc, hlast⟩ := getLast?_isFieldType hret
      exact ⟨c, List.mem_cons_of_mem _ hc, hlast⟩
  refine ⟨c, hc, ?_⟩
  rw [List.getLast?_cons, List.getLast?_append, List.getLast?_cons, hlast]
  rfl

/-! ## Methods and their definitions -/

theorem plainMethod_desc (name : String) (params : List MethodParam) (flags : UInt16)
    (returnType : Option String) :
    (plainMethod name params flags returnType).desc = parametersText params ++ returnType.getD "V" := rfl

@[simp] theorem parametersText_nil : parametersText [] = "()" := by decide

@[simp] theorem parametersText_singleton (p : MethodParam) : parametersText [p] = "(" ++ p.descriptor ++ ")" := by
  simp [parametersText, String.join]

/-- The offers whose method returns a bare class name. -/
inductive Misdescribed (explicitMethods : List MethodSummary) : Offer → Prop
  | toString : Misdescribed explicitMethods (toStringOffer explicitMethods "java/lang/String")
  | staticFactory (constructorType : LombokConstructorType) (params : List MethodParam) (name : String) :
    Misdescribed explicitMethods (staticFactoryOffer explicitMethods constructorType params name)

theorem Misdescribed.not_isMethodDescriptor {explicitMethods : List MethodSummary} {offer : Offer}
    (h : Misdescribed explicitMethods offer) : ¬ IsMethodDescriptor offer.method.desc.toList := by
  intro hdesc
  obtain ⟨c, hc, hlast⟩ := hdesc.getLast?
  cases h with
  | toString =>
    rw [show (toStringOffer explicitMethods "java/lang/String").method.desc.toList.getLast? = some 'g' by
      rw [toStringOffer, plainMethod_desc]; decide] at hlast
    obtain rfl := Option.some.inj hlast
    revert hc
    decide
  | staticFactory constructorType params name =>
    rw [staticFactoryOffer, plainMethod_desc, Option.getD_some, String.toList_append, List.getLast?_append,
      show "java/lang/Object".toList.getLast? = some 't' by decide, Option.some_or] at hlast
    obtain rfl := Option.some.inj hlast
    revert hc
    decide

/-- The recorded descriptors are those of the methods, but for the offers that are misdescribed. -/
def AllDescribed (explicitMethods : List MethodSummary) (offers : List Offer) : Prop :=
  ∀ offer ∈ offers, offer.method.desc = offer.descriptor ∨ Misdescribed explicitMethods offer

namespace AllDescribed

variable {explicitMethods : List MethodSummary} {offers offers' : List Offer}

theorem nil : AllDescribed explicitMethods [] := fun _ h => absurd h List.not_mem_nil

theorem singleton {offer : Offer} (h : offer.method.desc = offer.descriptor) :
    AllDescribed explicitMethods [offer] := by
  intro other hother
  obtain rfl := List.mem_singleton.mp hother
  exact .inl h

theorem append (h : AllDescribed explicitMethods offers) (h' : AllDescribed explicitMethods offers') :
    AllDescribed explicitMethods (offers ++ offers') :=
  fun offer hoffer => (List.mem_append.mp hoffer).elim (h offer) (h' offer)

theorem ite {c : Prop} [Decidable c] (h : AllDescribed explicitMethods offers)
    (h' : AllDescribed explicitMethods offers') : AllDescribed explicitMethods (if c then offers else offers') := by
  split
  · exact h
  · exact h'

theorem flatMap {β : Type} {ask : β → List Offer} (h : ∀ b, AllDescribed explicitMethods (ask b)) (l : List β) :
    AllDescribed explicitMethods (l.flatMap ask) := by
  intro offer hoffer
  obtain ⟨b, -, hb⟩ := List.mem_flatMap.mp hoffer
  exact h b offer hb

end AllDescribed

/-! ## The rules -/

section

variable {input : SyntheticInput} {explicitMethods : List MethodSummary} {explicitFields : List FieldSummary}

theorem described_toString :
    AllDescribed explicitMethods [toStringOffer explicitMethods "Ljava/lang/String;"] :=
  .singleton (by rw [toStringOffer, plainMethod_desc]; rfl)

theorem described_equalsAndHashCode (hasEquals hasHashCode : Bool) :
    AllDescribed explicitMethods (equalsAndHashCodeOffers hasEquals hasHashCode) := by
  intro offer h
  simp only [equalsAndHashCodeOffers, List.mem_cons, List.not_mem_nil, or_false] at h
  rcases h with rfl | rfl | rfl <;> exact .inl (by rw [plainMethod_desc]; rfl)

theorem described_constructors (constructorType : LombokConstructorType) (params : List MethodParam)
    (access : AccessLevel) (staticName : Option String) : AllDescribed explicitMethods
      (constructorOffers explicitMethods constructorType params access staticName) := by
  intro offer h
  rcases List.mem_cons.mp h with rfl | hfactory
  · exact .inl rfl
  · obtain ⟨name, -, rfl⟩ := Option.map_eq_some_iff.mp (Option.mem_toList.mp hfactory)
    exact .inr (.staticFactory ..)

theorem described_generateGetter (field : FieldSummary) (anno : Option AnnotationSummary) :
    AllDescribed explicitMethods (generateGetter input explicitMethods field anno) :=
  .ite .nil (.singleton (by rw [getterOffer, plainMethod_desc, parametersText_nil, Option.getD_some]))

theorem described_generateSetter (field : FieldSummary) (anno : Option AnnotationSummary) :
    AllDescribed explicitMethods (generateSetter input explicitMethods field anno) :=
  .ite .nil (.singleton (by simp [setterOffer, plainMethod_desc, String.append_assoc]))

theorem described_unlessForbidden {generate : Option AnnotationSummary → List Offer}
    (h : ∀ anno, AllDescribed explicitMethods (generate anno))
    (fieldAnno : Option AnnotationSummary) : AllDescribed explicitMethods (unlessForbidden generate fieldAnno) := by
  unfold unlessForbidden
  split
  · exact .ite .nil (h _)
  · exact h _

theorem described_record : AllDescribed explicitMethods (RecordRule.offers input explicitMethods) := by
  refine .ite .nil fun offer h => ?_
  rcases List.mem_cons.mp h with rfl | haccessor
  · exact .inl rfl
  · obtain ⟨component, -, rfl⟩ := List.mem_map.mp haccessor
    exact .inl (by rw [RecordRule.accessorOffer, plainMethod_desc, parametersText_nil, Option.getD_some])

theorem described_data : AllDescribed explicitMethods (DataRule.offers input explicitMethods explicitFields) := by
  refine .ite ?_ .nil
  split
  · exact .nil
  · refine ((AllDescribed.append (.flatMap (fun field => ?_) _) ?_).append ?_).append ?_
    · exact .ite .nil (.append (.ite .nil (described_unlessForbidden (described_generateGetter field) _))
        (.ite .nil (described_unlessForbidden (described_generateSetter field) _)))
    · exact .ite .nil described_toString
    · exact .ite .nil (described_equalsAndHashCode _ _)
    · exact .ite .nil (described_constructors _ _ _ _)

theorem described_value : AllDescribed explicitMethods (ValueRule.offers input explicitMethods explicitFields) := by
  refine .ite ?_ .nil
  split
  · exact .nil
  · refine ((AllDescribed.append (.ite .nil (.flatMap (fun field => ?_) _)) ?_).append ?_).append ?_
    · exact .ite .nil (described_unlessForbidden (described_generateGetter field) _)
    · exact .ite .nil described_toString
    · exact .ite .nil (described_equalsAndHashCode _ _)
    · exact .ite .nil (described_constructors _ _ _ _)

theorem described_getterSetter :
    AllDescribed explicitMethods (GetterSetterRule.offers input explicitMethods explicitFields) := by
  refine .ite (.flatMap (fun field => .append (.ite (.ite .nil ?_) .nil) (.ite ?_ .nil)) _) .nil
  · exact described_generateGetter field _
  · exact described_generateSetter field _

theorem described_toStringRule : AllDescribed explicitMethods (ToStringRule.offers input explicitMethods) := by
  refine .ite (fun offer h => ?_) .nil
  obtain rfl := List.mem_singleton.mp h
  exact .inr .toString

theorem described_constructorRule :
    AllDescribed explicitMethods (ConstructorRule.offers input explicitMethods explicitFields) := by
  refine .ite (.append (.append (.flatMap (fun anno => .ite .nil ?_) _) (.flatMap (fun anno => ?_) _))
    (.flatMap (fun anno => ?_) _)) .nil
  · exact described_constructors _ _ _ _
  · exact described_constructors _ _ _ _
  · exact described_constructors _ _ _ _

theorem described_builder : AllDescribed explicitMethods (BuilderRule.offers input explicitMethods) := by
  unfold BuilderRule.offers
  split
  · exact .nil
  · rename_i anno _
    have hbuilder (name : String) (flags : UInt16) : AllDescribed explicitMethods
        [BuilderRule.builderOffer explicitMethods name (BuilderRule.builderClassName input anno) flags] :=
      .singleton (by simp [BuilderRule.builderOffer, plainMethod_desc, ← String.append_assoc])
    exact (hbuilder _ _).append (.ite (hbuilder _ _) .nil)

theorem described_with : AllDescribed explicitMethods (WithRule.offers input explicitMethods explicitFields) := by
  refine .ite (.flatMap (fun field => .ite (.singleton ?_) .nil) _) .nil
  simp [WithRule.withOffer, plainMethod_desc]

theorem described_offers : AllDescribed explicitMethods (offers input explicitMethods explicitFields) :=
  described_record.append described_data |>.append described_value |>.append described_getterSetter
    |>.append described_toStringRule |>.append (.ite (described_equalsAndHashCode _ _) .nil)
    |>.append described_constructorRule |>.append described_builder |>.append described_with

end

/-! ## Navigating -/

/-- A method has a descriptor, a definition under its name and descriptor, and a node that they lead to. -/
structure Navigable (input : SyntheticInput) (m : MethodSummary) : Prop where
  wellFormed : IsMethodDescriptor m.desc.toList
  recorded : ∃ d ∈ (synthesizeForBody input).definitions,
    d.kind = .method ∧ d.name = m.name ∧ d.descriptor = some m.desc
  resolves : (resolveSyntheticDefinition input .method m.name (some m.desc)).isSome

/-- The offers over the members of the body. -/
def bodyOffers (input : SyntheticInput) : List Offer :=
  offers input (methodsOf (explicitMembers input)) (fieldsOf (explicitMembers input))

def madeBodyOffers (input : SyntheticInput) : List Offer :=
  madeOffers input (methodsOf (explicitMembers input)) (fieldsOf (explicitMembers input))

/-- The node of an offer is found, or that of another one with its name and descriptor. -/
def Placed (input : SyntheticInput) (offer : Offer) : Prop :=
  ∃ other ∈ madeBodyOffers input, other.method.name = offer.method.name ∧ other.descriptor = offer.descriptor ∧
    (nodeOfOrigin input.decl other.origin).isSome

/-- What the annotations and the body must be like for all methods to be navigable. -/
structure OffersPlaced (input : SyntheticInput) : Prop where
  /-- There is no `toString` of `@ToString` and no static factory, if not as explicit methods. -/
  misdescribed : ∀ offer ∈ bodyOffers input, Misdescribed (methodsOf (explicitMembers input)) offer →
    offer.answered = true
  /-- The descriptors of the fields, components and owners make up descriptors. -/
  wellFormed : ∀ offer ∈ madeBodyOffers input, IsMethodDescriptor offer.descriptor.toList
  placed : ∀ offer ∈ madeBodyOffers input, Placed input offer

section

variable {input : SyntheticInput}

theorem mem_methods_iff {m : MethodSummary} : m ∈ (synthesizeForBody input).methods ↔
    ∃ offer ∈ madeBodyOffers input, offer.method = m := by
  rw [synthesizeForBody, synthesizeForType_methods, List.mem_map, madeBodyOffers]

theorem mem_definitions_iff {d : SyntheticDefinition} (hkind : d.kind = .method)
    (hdescriptor : d.descriptor.isSome) : d ∈ (synthesizeForBody input).definitions ↔
      ∃ offer ∈ madeBodyOffers input, offer.definition = d := by
  rw [synthesizeForBody, mem_synthesizeForType_definitions _ _ _ hkind hdescriptor, madeBodyOffers]

theorem eq_delegateOffer {explicitFields : List FieldSummary} {offer : Offer}
    (h : offer ∈ DelegateRule.offers input explicitFields) :
    ∃ field source, offer = DelegateRule.delegateOffer field source := by
  unfold DelegateRule.offers at h
  split at h
  · obtain ⟨field, -, hfield⟩ := List.mem_flatMap.mp h
    unfold DelegateRule.fieldOffers at hfield
    split at hfield
    · cases hfield
    · split at hfield
      · cases hfield
      · obtain ⟨source, -, hsource⟩ := List.mem_flatMap.mp hfield
        unfold DelegateRule.sourceOffers at hsource
        split at hsource
        · cases hsource
        · exact ⟨field, source, List.mem_singleton.mp hsource⟩
  · cases h

/-- A made offer is an offer of the annotations, or one of a delegated method, which is described. -/
theorem mem_madeBodyOffers {offer : Offer} (h : offer ∈ madeBodyOffers input) :
    (offer ∈ bodyOffers input ∧ offer.answered = false) ∨ offer.method.desc = offer.descriptor := by
  rcases List.mem_append.mp h with hmade | hdelegated
  · exact .inl (mem_made.mp hmade)
  · obtain ⟨field, source, rfl⟩ := eq_delegateOffer ((Dedup.dedupBy_sublist _ _).subset hdelegated)
    exact .inr rfl

theorem desc_of_made (hmisdescribed : ∀ offer ∈ bodyOffers input,
    Misdescribed (methodsOf (explicitMembers input)) offer → offer.answered = true) {offer : Offer}
    (h : offer ∈ madeBodyOffers input) : offer.method.desc = offer.descriptor := by
  rcases mem_madeBodyOffers h with ⟨hoffer, hnot⟩ | hdesc
  · refine (described_offers offer hoffer).resolve_right fun hmis => ?_
    rw [hmisdescribed offer hoffer hmis] at hnot
    cases hnot
  · exact hdesc

/-- A definition that leads to a node is found under its name and descriptor. -/
theorem resolves_iff {name descriptor : String} :
    (resolveSyntheticDefinition input .method name (some descriptor)).isSome ↔
      ∃ offer ∈ madeBodyOffers input, offer.method.name = name ∧ offer.descriptor = descriptor ∧
        (nodeOfOrigin input.decl offer.origin).isSome := by
  rw [resolveSyntheticDefinition, List.findSome?_isSome_iff]
  constructor
  · rintro ⟨d, hd, hnode⟩
    split at hnode
    · rename_i hmatch
      simp only [Option.isNone_some, Bool.false_or, Bool.and_eq_true, decide_eq_true_eq] at hmatch
      obtain ⟨⟨hkind, hname⟩, hdescriptor⟩ := hmatch
      obtain ⟨offer, hoffer, rfl⟩ := (mem_definitions_iff hkind (by rw [hdescriptor]; rfl)).mp hd
      exact ⟨offer, hoffer, hname, Option.some.inj hdescriptor, hnode⟩
    · cases hnode
  · rintro ⟨offer, hoffer, rfl, rfl, hnode⟩
    refine ⟨offer.definition, (mem_definitions_iff rfl rfl).mpr ⟨offer, hoffer, rfl⟩, ?_⟩
    simp only [Offer.definition]
    simpa using hnode

end

/-! ## A `toString` without a descriptor -/

/-- `@ToString class Person { }` -/
def toStringNode : Node :=
  .mk "class_declaration" none "@ToString class Person { }"
    [.mk "modifiers" none "@ToString" [], .mk "class" none "class" [],
     .mk "identifier" (some "name") "Person" [], .mk "class_body" (some "body") "{ }" []]

def toStringInput : SyntheticInput where
  ctx := { personCtx with
    annotationsIn n := if n.text = "@ToString" then [markerAnno Annotations.toString] else [] }
  decl := toStringNode.cursor
  ownerInternal := some "Person"
  toUppercase c := [c.toUpper]

end JavaAnalyzer.Language
