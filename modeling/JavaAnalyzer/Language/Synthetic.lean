import JavaAnalyzer.Language.Lombok

/-! # Synthetic members

The member sets of `language/java/synthetic/common.rs`, with the rules for records and enums. A rule considers
methods one after another, and drops those that an explicit method already answers: what it considers, with
the outcome of that test, is an `Offer`. -/

namespace JavaAnalyzer.Language
set_option autoImplicit false
open JavaAnalyzer.Index Lombok

/-! ## Definitions -/

inductive SyntheticOrigin where
  | recordComponentAccessor (componentName : String)
  | recordCanonicalConstructor
  | enumConstant (constantName : String)
  | lombokGetter (fieldName : String)
  | lombokSetter (fieldName : String)
  | lombokToString
  | lombokEquals
  | lombokHashCode
  | lombokConstructor (constructorType : LombokConstructorType)
  | lombokBuilder
  | lombokWith (fieldName : String)
  | lombokDelegate (fieldName : String)
  | lombokLog
deriving DecidableEq

inductive SyntheticDefinitionKind where
  | method
  | field
deriving DecidableEq

structure SyntheticDefinition where
  kind : SyntheticDefinitionKind
  name : String
  descriptor : Option String
  origin : SyntheticOrigin
deriving DecidableEq

structure SyntheticMemberSet where
  methods : List MethodSummary := []
  fields : List FieldSummary := []
  definitions : List SyntheticDefinition := []
  nestedClasses : List ClassMetadata := []

/-- What is pushed after what. -/
def SyntheticMemberSet.append (out added : SyntheticMemberSet) : SyntheticMemberSet where
  methods := out.methods ++ added.methods
  fields := out.fields ++ added.fields
  definitions := out.definitions ++ added.definitions
  nestedClasses := out.nestedClasses ++ added.nestedClasses

structure SyntheticInput where
  ctx : MemberCtx
  decl : Cursor
  ownerInternal : Option String
  /-- `char::to_uppercase` -/
  toUppercase : Char → List Char

/-! ## Offers -/

/-- A method that a rule is about to push with its definition, unless an explicit method answers it. -/
structure Offer where
  method : MethodSummary
  descriptor : String
  origin : SyntheticOrigin
  answered : Bool

namespace Offer

def definition (offer : Offer) : SyntheticDefinition where
  kind := .method
  name := offer.method.name
  descriptor := some offer.descriptor
  origin := offer.origin

/-- The offers that are pushed. -/
def made (offers : List Offer) : List Offer :=
  offers.filter fun offer => !offer.answered

end Offer

/-- What is pushed of the offers. -/
def SyntheticMemberSet.pushed (offers : List Offer) : SyntheticMemberSet where
  methods := (Offer.made offers).map Offer.method
  definitions := (Offer.made offers).map Offer.definition

/-- `has_method` of the rules -/
def hasMethod (methods : List MethodSummary) (name descriptor : String) : Bool :=
  methods.any fun method => method.name = name && method.desc = descriptor

/-- A method without annotations, as all rules make them. -/
def plainMethod (name : String) (params : List MethodParam) (accessFlags : UInt16)
    (returnType : Option String) : MethodSummary where
  name := name
  params := params
  annotations := []
  accessFlags := accessFlags
  isSynthetic := false
  genericSignature := none
  returnType := returnType

/-- A field without annotations. -/
def plainField (name descriptor : String) (accessFlags : UInt16) : FieldSummary where
  name := name
  descriptor := descriptor
  accessFlags := accessFlags
  annotations := []
  isSynthetic := false
  genericSignature := none

def parametersText (params : List MethodParam) : String :=
  "(" ++ String.join (params.map MethodParam.descriptor) ++ ")"

/-- `first_child_of_kind(decl, "modifiers")` and its annotations. -/
def SyntheticInput.classAnnotations (input : SyntheticInput) : List AnnotationSummary :=
  declaredAnnotations input.ctx input.decl.node

/-! ## Records -/

namespace RecordRule

structure RecordComponent where
  name : String
  sourceType : String
  descriptor : String

def recordParameterNode (decl : Cursor) : Option Node :=
  (decl.node.childByFieldName "parameters").or (decl.node.firstChildOfKind "formal_parameters")

def componentOf (ctx : MemberCtx) (child : Node) : Option RecordComponent :=
  (child.childByFieldName "name").map fun nameNode =>
    let typeText := (((child.childByFieldName "type").map fun n =>
      String.ofList (Text.trim n.text.toList)).filter fun s => s ≠ "").getD "java.lang.Object"
    { name := nameNode.text
      sourceType := typeText
      descriptor := String.ofList (ctx.typeCtx.toDescriptor typeText.toList) }

def recordComponents (ctx : MemberCtx) (decl : Cursor) : List RecordComponent :=
  if decl.kind = "record_declaration" then
    match recordParameterNode decl with
    | some params => (params.children.filter isParameter).filterMap (componentOf ctx)
    | none => []
  else []

def findRecordComponentNode (decl : Cursor) (componentName : String) : Option Node :=
  (recordParameterNode decl).bind fun params => (params.children.filter isParameter).findSome? fun child =>
    (child.childByFieldName "name").filter fun nameNode => nameNode.text = componentName

def constructorOffer (components : List RecordComponent) (explicitMethods : List MethodSummary) : Offer :=
  let params := components.map fun component =>
    { descriptor := component.descriptor, name := component.name, annotations := [] }
  let descriptor := parametersText params ++ "V"
  { method := plainMethod "<init>" params accPublic none
    descriptor := descriptor
    origin := .recordCanonicalConstructor
    answered := hasMethod explicitMethods "<init>" descriptor }

def accessorOffer (explicitMethods : List MethodSummary) (component : RecordComponent) : Offer where
  method := plainMethod component.name [] accPublic (some component.descriptor)
  descriptor := "()" ++ component.descriptor
  origin := .recordComponentAccessor component.name
  answered := hasMethod explicitMethods component.name ("()" ++ component.descriptor)

def offers (input : SyntheticInput) (explicitMethods : List MethodSummary) : List Offer :=
  let components := recordComponents input.ctx input.decl
  if components.isEmpty then []
  else constructorOffer components explicitMethods :: components.map (accessorOffer explicitMethods)

end RecordRule

/-! ## Enums -/

namespace EnumRule

def isEnumConstant (n : Node) : Bool :=
  ["enum_constant", "enum_constant_declaration"].contains n.kind

def enumConstantNameNode (n : Node) : Option Node :=
  ((n.childByFieldName "name").or (n.childByFieldName "identifier")).or (n.firstChildOfKind "identifier")

def enumConstantNames (decl : Cursor) : List String :=
  if decl.kind = "enum_declaration" then
    match decl.node.childByFieldName "body" with
    | some body => (body.children.filter isEnumConstant).filterMap fun child =>
        (enumConstantNameNode child).map Node.text
    | none => []
  else []

def findEnumConstantNode (decl : Cursor) (constantName : String) : Option Node :=
  (decl.node.childByFieldName "body").bind fun body =>
    (body.children.filter isEnumConstant).findSome? fun child =>
      (enumConstantNameNode child).filter fun nameNode => nameNode.text = constantName

/-- The constants that no explicit field declares. -/
def synthesize (input : SyntheticInput) (explicitFields : List FieldSummary) : SyntheticMemberSet :=
  match input.ownerInternal with
  | none => {}
  | some ownerInternal =>
    let names := (enumConstantNames input.decl).filter fun name =>
      !explicitFields.any fun field => field.name = name
    { fields := names.map fun name =>
        plainField name ("L" ++ ownerInternal ++ ";") (accPublic ||| accStatic ||| accFinal)
      definitions := names.map fun name =>
        { kind := .field, name := name, descriptor := none, origin := .enumConstant name } }

end EnumRule

end JavaAnalyzer.Language
