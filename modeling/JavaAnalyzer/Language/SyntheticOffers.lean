import JavaAnalyzer.Language.DelegateRule
import JavaAnalyzer.Library.Dedup

/-! # What is synthesized

All rules but the last make the offers that no explicit method answers. The rule for `@Delegate` adds the
methods of its types that are not there yet, the first of every name and descriptor. -/

namespace JavaAnalyzer.Language
set_option autoImplicit false
open JavaAnalyzer.Index Lombok Dedup

/-! ## The rules without `@Delegate` -/

/-- All that the annotations ask for, in the order of the rules. -/
def offers (input : SyntheticInput) (explicitMethods : List MethodSummary) (explicitFields : List FieldSummary) :
    List Offer :=
  RecordRule.offers input explicitMethods ++ DataRule.offers input explicitMethods explicitFields ++
    ValueRule.offers input explicitMethods explicitFields ++
    GetterSetterRule.offers input explicitMethods explicitFields ++ ToStringRule.offers input explicitMethods ++
    EqualsAndHashCodeRule.offers input explicitMethods ++
    ConstructorRule.offers input explicitMethods explicitFields ++ BuilderRule.offers input explicitMethods ++
    WithRule.offers input explicitMethods explicitFields

/-- The definitions of fields, which enums and logs have. -/
def fieldDefinitions (input : SyntheticInput) (explicitFields : List FieldSummary) : List SyntheticDefinition :=
  (EnumRule.synthesize input explicitFields).definitions ++ (LogRule.synthesize input explicitFields).definitions

section Rules

variable (input : SyntheticInput) (explicitMethods : List MethodSummary) (explicitFields : List FieldSummary)

def ruleSet : SyntheticMemberSet :=
  (ruleSets input explicitMethods explicitFields).foldl SyntheticMemberSet.append {}

theorem enumRule_synthesize : (EnumRule.synthesize input explicitFields).methods = [] ∧
    (EnumRule.synthesize input explicitFields).nestedClasses = [] ∧
    ∀ d ∈ (EnumRule.synthesize input explicitFields).definitions, d.kind = .field := by
  unfold EnumRule.synthesize
  split
  · exact ⟨rfl, rfl, fun d hd => absurd hd List.not_mem_nil⟩
  · refine ⟨rfl, rfl, fun d hd => ?_⟩
    obtain ⟨name, -, rfl⟩ := List.mem_map.mp hd
    rfl

theorem logRule_synthesize : (LogRule.synthesize input explicitFields).methods = [] ∧
    (LogRule.synthesize input explicitFields).nestedClasses = [] ∧
    ∀ d ∈ (LogRule.synthesize input explicitFields).definitions, d.kind = .field := by
  unfold LogRule.synthesize
  dsimp only
  split
  · split
    · exact ⟨rfl, rfl, fun d hd => absurd hd List.not_mem_nil⟩
    · refine ⟨rfl, rfl, fun d hd => ?_⟩
      rw [List.mem_singleton] at hd
      rw [hd]
  · exact ⟨rfl, rfl, fun d hd => absurd hd List.not_mem_nil⟩

theorem kind_of_mem_fieldDefinitions {d : SyntheticDefinition} (hd : d ∈ fieldDefinitions input explicitFields) :
    d.kind = .field := by
  rcases List.mem_append.mp hd with henum | hlog
  · exact (enumRule_synthesize input explicitFields).2.2 d henum
  · exact (logRule_synthesize input explicitFields).2.2 d hlog

theorem ruleSet_methods : (ruleSet input explicitMethods explicitFields).methods =
    (Offer.made (offers input explicitMethods explicitFields)).map Offer.method := by
  simp only [ruleSet, ruleSets, List.foldl_cons, List.foldl_nil, SyntheticMemberSet.append,
    SyntheticMemberSet.pushed, BuilderRule.synthesize, (enumRule_synthesize input explicitFields).1,
    (logRule_synthesize input explicitFields).1, Offer.made, offers, List.filter_append, List.map_append,
    List.nil_append, List.append_nil]

theorem ruleSet_nestedClasses : (ruleSet input explicitMethods explicitFields).nestedClasses =
    ((BuilderRule.builderAnno input).map (BuilderRule.generateBuilderClass input explicitFields)).toList := by
  simp only [ruleSet, ruleSets, List.foldl_cons, List.foldl_nil, SyntheticMemberSet.append,
    SyntheticMemberSet.pushed, BuilderRule.synthesize, (enumRule_synthesize input explicitFields).2.1,
    (logRule_synthesize input explicitFields).2.1, List.nil_append, List.append_nil]

theorem mem_ruleSet_definitions {d : SyntheticDefinition} :
    d ∈ (ruleSet input explicitMethods explicitFields).definitions ↔
      d ∈ fieldDefinitions input explicitFields ∨
        d ∈ (Offer.made (offers input explicitMethods explicitFields)).map Offer.definition := by
  simp only [ruleSet, ruleSets, List.foldl_cons, List.foldl_nil, SyntheticMemberSet.append,
    SyntheticMemberSet.pushed, BuilderRule.synthesize, Offer.made, offers, fieldDefinitions, List.filter_append,
    List.map_append, List.nil_append, List.mem_append]
  tauto

end Rules

/-! ## Delegated methods -/

/-- What `has_method` compares. -/
def nameAndDesc (m : MethodSummary) : String × String :=
  (m.name, m.desc)

theorem hasMethod_iff {methods : List MethodSummary} {m : MethodSummary} :
    hasMethod methods m.name m.desc = true ↔ nameAndDesc m ∈ methods.map nameAndDesc := by
  simp [hasMethod, nameAndDesc]

theorem delegateOffer_key (field : FieldSummary) (source : MethodSummary) :
    nameAndDesc (DelegateRule.delegateOffer field source).method = nameAndDesc source := rfl

namespace DelegateRule

/-- A method is asked for unless it is one of `Object`. -/
def sourceOffers (field : FieldSummary) (source : MethodSummary) : List Offer :=
  if isObjectMethod source.name then [] else [delegateOffer field source]

/-- The methods that a field asks to delegate. -/
def fieldOffers (input : SyntheticInput) (field : FieldSummary) : List Offer :=
  match findDelegateAnnotation field.annotations with
  | none => []
  | some anno =>
    if isFieldStatic field then [] else (delegateMethods input field anno).flatMap (sourceOffers field)

/-- All delegated methods, in the order of the fields. -/
def offers (input : SyntheticInput) (explicitFields : List FieldSummary) : List Offer :=
  if ["class_declaration", "interface_declaration"].contains input.decl.kind then
    explicitFields.flatMap (fieldOffers input)
  else []

/-- The first offer of every name and descriptor that is not there yet. -/
def added (present : List MethodSummary) (delegated : List Offer) : List Offer :=
  dedupBy (fun offer => nameAndDesc offer.method) (present.map nameAndDesc) delegated

/-- A member set with offers added behind it. Markers do not count, as they have no descriptor. -/
structure Extends (out result : SyntheticMemberSet) (offers : List Offer) : Prop where
  methods : result.methods = out.methods ++ offers.map Offer.method
  definitions : ∀ d : SyntheticDefinition, d.descriptor.isSome →
    (d ∈ result.definitions ↔ d ∈ out.definitions ∨ d ∈ offers.map Offer.definition)
  nestedClasses : result.nestedClasses = out.nestedClasses

theorem Extends.refl (out : SyntheticMemberSet) : Extends out out [] :=
  ⟨(List.append_nil _).symm, fun d _ => by simp, rfl⟩

theorem Extends.trans {out middle result : SyntheticMemberSet} {offers offers' : List Offer}
    (h : Extends out middle offers) (h' : Extends middle result offers') :
    Extends out result (offers ++ offers') := by
  refine ⟨?_, fun d hd => ?_, h'.nestedClasses.trans h.nestedClasses⟩
  · rw [h'.methods, h.methods, List.map_append, List.append_assoc]
  · rw [h'.definitions d hd, h.definitions d hd, List.map_append, List.mem_append, or_assoc]

theorem extends_pushed (out : SyntheticMemberSet) (field : FieldSummary) (source : MethodSummary) :
    Extends out (out.append (.pushed [delegateOffer field source])) [delegateOffer field source] :=
  ⟨rfl, fun _ _ => List.mem_append, List.append_nil _⟩

theorem extends_marker (out : SyntheticMemberSet) (field : FieldSummary) :
    Extends out (out.append { definitions := [marker field] }) [] := by
  refine ⟨rfl, fun d hd => ?_, List.append_nil _⟩
  have hne : d ≠ marker field := by
    rintro rfl
    cases hd
  simp [SyntheticMemberSet.append, hne]

section

variable {explicitMethods : List MethodSummary} {out result : SyntheticMemberSet}

/-- What is added after other offers were. -/
theorem added_append {delegated : List Offer}
    (h : Extends out result (added (explicitMethods ++ out.methods) delegated)) (later : List Offer) :
    added (explicitMethods ++ out.methods) (delegated ++ later) =
      added (explicitMethods ++ out.methods) delegated ++ added (explicitMethods ++ result.methods) later := by
  have hkeys : (explicitMethods ++ result.methods).map nameAndDesc =
      (explicitMethods ++ out.methods).map nameAndDesc ++
        (added (explicitMethods ++ out.methods) delegated).map fun offer => nameAndDesc offer.method := by
    rw [h.methods, ← List.append_assoc, List.map_append, List.map_map]
    rfl
  rw [added, dedupBy_append]
  refine congrArg (added (explicitMethods ++ out.methods) delegated ++ ·) (dedupBy_congr fun offer _ => ?_)
  rw [hkeys, List.mem_append, List.mem_append]
  exact or_comm

/-- One method is delegated unless it is one of `Object` or is there. -/
theorem extends_generateDelegateMethod (field : FieldSummary) (out : SyntheticMemberSet)
    (source : MethodSummary) : Extends out (generateDelegateMethod explicitMethods field out source)
      (added (explicitMethods ++ out.methods) (sourceOffers field source)) := by
  unfold generateDelegateMethod sourceOffers
  have hpresent : (hasMethod explicitMethods source.name source.desc ||
      hasMethod out.methods source.name source.desc) = true ↔
      nameAndDesc source ∈ (explicitMethods ++ out.methods).map nameAndDesc := by
    rw [Bool.or_eq_true, hasMethod_iff, hasMethod_iff, List.map_append, List.mem_append]
  cases hobject : isObjectMethod source.name with
  | true =>
    rw [if_pos rfl, ite_self, if_pos rfl]
    exact .refl out
  | false =>
    rw [if_neg Bool.false_ne_true, if_neg Bool.false_ne_true, added, dedupBy.eq_2, delegateOffer_key]
    by_cases hmem : nameAndDesc source ∈ (explicitMethods ++ out.methods).map nameAndDesc
    · rw [if_pos (hpresent.mpr hmem), if_pos hmem]
      exact .refl out
    · rw [if_neg (mt hpresent.mp hmem), if_neg hmem]
      exact extends_pushed out field source

theorem extends_foldl {β : Type} (step : SyntheticMemberSet → β → SyntheticMemberSet) (ask : β → List Offer)
    (hstep : ∀ out b, Extends out (step out b) (added (explicitMethods ++ out.methods) (ask b)))
    (l : List β) (out : SyntheticMemberSet) :
    Extends out (l.foldl step out) (added (explicitMethods ++ out.methods) (l.flatMap ask)) := by
  induction l generalizing out with
  | nil => exact .refl out
  | cons b l ih =>
    rw [List.foldl_cons, List.flatMap_cons, added_append (hstep out b)]
    exact (hstep out b).trans (ih (step out b))

theorem extends_ofField (input : SyntheticInput) (out : SyntheticMemberSet) (field : FieldSummary) :
    Extends out (ofField input explicitMethods out field)
      (added (explicitMethods ++ out.methods) (fieldOffers input field)) := by
  unfold ofField fieldOffers
  cases findDelegateAnnotation field.annotations with
  | none => exact .refl out
  | some anno =>
    dsimp only
    split
    · exact .refl out
    · have hfold := extends_foldl (generateDelegateMethod explicitMethods field) (sourceOffers field)
        (extends_generateDelegateMethod field) (delegateMethods input field anno) out
      have hboth := hfold.trans (extends_marker _ field)
      rwa [List.append_nil] at hboth

theorem extends_synthesize (input : SyntheticInput) (explicitFields : List FieldSummary)
    (out : SyntheticMemberSet) : Extends out (synthesize input explicitMethods explicitFields out)
      (added (explicitMethods ++ out.methods) (offers input explicitFields)) := by
  unfold synthesize offers
  split
  · exact extends_foldl _ _ (extends_ofField input) explicitFields out
  · exact .refl out

end

end DelegateRule

/-! ## Everything that is synthesized -/

section

variable (input : SyntheticInput) (explicitMethods : List MethodSummary) (explicitFields : List FieldSummary)

/-- The offers of delegated methods that no explicit method and no other offer has. -/
def delegatedOffers : List Offer :=
  DelegateRule.added
    (explicitMethods ++ (Offer.made (offers input explicitMethods explicitFields)).map Offer.method)
    (DelegateRule.offers input explicitFields)

/-- What is made of all offers. -/
def madeOffers : List Offer :=
  Offer.made (offers input explicitMethods explicitFields) ++
    delegatedOffers input explicitMethods explicitFields

theorem extends_synthesizeForType : DelegateRule.Extends (ruleSet input explicitMethods explicitFields)
    (synthesizeForType input explicitMethods explicitFields)
    (delegatedOffers input explicitMethods explicitFields) := by
  have h := @DelegateRule.extends_synthesize explicitMethods input explicitFields
    (ruleSet input explicitMethods explicitFields)
  rwa [ruleSet_methods] at h

theorem synthesizeForType_methods : (synthesizeForType input explicitMethods explicitFields).methods =
    (madeOffers input explicitMethods explicitFields).map Offer.method := by
  rw [(extends_synthesizeForType input explicitMethods explicitFields).methods, ruleSet_methods, madeOffers,
    List.map_append]

/-- The definitions of methods that have a descriptor are those of the offers that are made. -/
theorem mem_synthesizeForType_definitions {d : SyntheticDefinition} (hkind : d.kind = .method)
    (hdescriptor : d.descriptor.isSome) :
    d ∈ (synthesizeForType input explicitMethods explicitFields).definitions ↔
      ∃ offer ∈ madeOffers input explicitMethods explicitFields, offer.definition = d := by
  have hfield : d ∉ fieldDefinitions input explicitFields := by
    intro hd
    rw [kind_of_mem_fieldDefinitions input explicitFields hd] at hkind
    cases hkind
  rw [(extends_synthesizeForType input explicitMethods explicitFields).definitions d hdescriptor,
    mem_ruleSet_definitions, or_iff_right hfield, ← List.mem_append, ← List.map_append, List.mem_map, madeOffers]

theorem synthesizeForType_nestedClasses :
    (synthesizeForType input explicitMethods explicitFields).nestedClasses =
      ((BuilderRule.builderAnno input).map (BuilderRule.generateBuilderClass input explicitFields)).toList := by
  rw [(extends_synthesizeForType input explicitMethods explicitFields).nestedClasses, ruleSet_nestedClasses]

end

end JavaAnalyzer.Language
