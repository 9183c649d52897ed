import JavaAnalyzer.Language.SyntheticOffers

/-! # Methods that collide

A rule looks at the explicit methods only, and not at what the rules before it have made. So two annotations
that ask for one member make it twice. -/

namespace JavaAnalyzer.Language
set_option autoImplicit false
open JavaAnalyzer.Index Lombok

/-- The name and the descriptors of the parameters, by which a class tells its methods apart. -/
def methodSignature (m : MethodSummary) : String × List String :=
  (m.name, m.params.map MethodParam.descriptor)

/-- What the annotations, the fields and the explicit methods must be like for all methods to be told apart. -/
structure AskedOnce (input : SyntheticInput) (explicitMethods : List MethodSummary)
    (explicitFields : List FieldSummary) : Prop where
  explicit : (explicitMethods.map methodSignature).Nodup
  /-- What is offered under the signature of an explicit method is answered, whatever that returns. -/
  answered : ∀ offer ∈ offers input explicitMethods explicitFields,
    methodSignature offer.method ∈ explicitMethods.map methodSignature → offer.answered = true
  /-- Of two offers of one signature, one at least is answered. -/
  apart : (offers input explicitMethods explicitFields).Pairwise fun offer other =>
    methodSignature offer.method = methodSignature other.method →
      offer.answered = true ∨ other.answered = true
  /-- What is to be delegated besides has a signature that no other method has. -/
  delegated : ∀ offer ∈ delegatedOffers input explicitMethods explicitFields,
    methodSignature offer.method ∉ explicitMethods.map methodSignature ∧
      ∀ other ∈ offers input explicitMethods explicitFields,
        methodSignature other.method = methodSignature offer.method → other.answered = true
  delegatedApart : ((delegatedOffers input explicitMethods explicitFields).map
    fun offer => methodSignature offer.method).Nodup

section

variable {input : SyntheticInput} {explicitMethods : List MethodSummary} {explicitFields : List FieldSummary}

theorem mem_made {offers : List Offer} {offer : Offer} :
    offer ∈ Offer.made offers ↔ offer ∈ offers ∧ offer.answered = false := by
  rw [Offer.made, List.mem_filter, Bool.not_eq_true']

/-- The made offers are apart where no two are left unanswered. -/
theorem nodup_made_iff (offers : List Offer) :
    ((Offer.made offers).map fun offer => methodSignature offer.method).Nodup ↔
      offers.Pairwise fun offer other => methodSignature offer.method = methodSignature other.method →
        offer.answered = true ∨ other.answered = true := by
  rw [List.Nodup, List.pairwise_map, Offer.made, List.pairwise_filter]
  refine List.Pairwise.iff fun offer other => ?_
  cases offer.answered <;> cases other.answered <;> simp

theorem made_apart_iff {offers : List Offer} {signature : String × List String} :
    (∀ offer ∈ Offer.made offers, methodSignature offer.method ≠ signature) ↔
      ∀ offer ∈ offers, methodSignature offer.method = signature → offer.answered = true := by
  constructor
  · intro h offer hoffer hsame
    by_contra hnot
    exact h offer (mem_made.mpr ⟨hoffer, Bool.eq_false_of_not_eq_true hnot⟩) hsame
  · intro h offer hoffer hsame
    obtain ⟨hmem, hnot⟩ := mem_made.mp hoffer
    rw [h offer hmem hsame] at hnot
    cases hnot

end

/-! ## Two getters of one field -/

def markerAnno (internalName : String) : AnnotationSummary where
  internalName := internalName
  runtimeVisible := true
  elements := []

/-- `@Data class Person { @Getter private int age; }` -/
def personNode : Node :=
  .mk "class_declaration" none "@Data class Person { @Getter private int age; }"
    [.mk "modifiers" none "@Data" [], .mk "class" none "class" [],
     .mk "identifier" (some "name") "Person" [],
     .mk "class_body" (some "body") "{ @Getter private int age; }"
      [.mk "field_declaration" none "@Getter private int age;"
        [.mk "modifiers" none "@Getter private" [], .mk "integral_type" (some "type") "int" [],
         .mk "variable_declarator" (some "declarator") "age" [.mk "identifier" (some "name") "age" []]]]]

/-- The annotations of the class and of its field. -/
def personCtx : MemberCtx where
  typeCtx := ⟨none, [], .new []⟩
  annotationsIn n :=
    if n.text = "@Data" then [markerAnno Annotations.data]
    else if n.text = "@Getter private" then [markerAnno Annotations.getter]
    else []

def personInput : SyntheticInput where
  ctx := personCtx
  decl := personNode.cursor
  ownerInternal := some "Person"
  toUppercase c := [c.toUpper]

end JavaAnalyzer.Language
