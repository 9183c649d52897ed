import JavaAnalyzer.Index.Hierarchy
import JavaAnalyzer.Language.LombokRules
import JavaAnalyzer.Language.StrictTypes

/-! # Delegated methods, and all rules together

The rule for `@Delegate` reads what the rules before it have pushed, so it takes the member set along. Behind it
are `synthesize_for_type` and `resolve_synthetic_definition`. -/

namespace JavaAnalyzer.Language
set_option autoImplicit false
open JavaAnalyzer.Index JavaAnalyzer.Semantic Lombok Jvm Text

/-- `parse_single_type_to_internal` -/
def parseSingleTypeToInternal (ty : List Char) : Option TypeName :=
  match JvmType.parse ty with
  | none => none
  | some (.primitive _, _) => none
  | some (jvmType, _) => some jvmType.toTypeName

namespace DelegateRule

/-! ## Types to delegate to -/

def findDelegateAnnotation (annotations : List AnnotationSummary) : Option AnnotationSummary :=
  (findLombokAnno annotations Annotations.delegate).or
    (annotations.find? fun anno => anno.internalName = "lombok/Delegate")

def getTypesParameter (anno : AnnotationSummary) : List String :=
  match getAnnotationValue anno "types" with
  | some (.array items) => items.filterMap fun
    | .class className => some className
    | _ => none
  | some (.class className) => [className]
  | _ => []

/-- `LFilter;` and `pkg/Filter` are searched as `Filter`. -/
def simpleTypeName (typeName : String) : List Char :=
  afterLast '/' (((typeName.toList.dropWhile (· = 'L')).reverse.dropWhile (· = ';')).reverse)

def isType (simpleName : List Char) (n : Node) : Bool :=
  ["interface_declaration", "class_declaration"].contains n.kind &&
    (n.childByFieldName "name").any fun nameNode => nameNode.text.toList = simpleName

def extractMethodsFromType (input : SyntheticInput) (type : Cursor) : Option (List MethodSummary) :=
  (type.childByFieldName "body").map fun body => methodsOf (extractClassMembersFromBody input.ctx body)

/-- The types nested in the declaration come before those beside it. -/
def findTypeMethodsInSource (input : SyntheticInput) (typeName : String) : Option (List MethodSummary) :=
  let among (parent : Option Cursor) : Option Cursor :=
    parent.bind fun parent => parent.children.find? fun child => isType (simpleTypeName typeName) child.node
  ((among (input.decl.childByFieldName "body")).or (among input.decl.parent)).bind (extractMethodsFromType input)

def resolveDelegateTypeInternal (input : SyntheticInput) (typeName : String) : Option String :=
  let trimmed := trim typeName.toList
  ((parseSingleTypeToInternal typeName.toList).map TypeName.erasedInternal).or
    (if '/' ∈ trimmed then some (String.ofList trimmed)
    else (input.ctx.typeCtx.resolveTypeNameStrict trimmed).map TypeName.erasedInternal)

def findTypeMethodsInIndex (input : SyntheticInput) (typeName : String) : Option (List MethodSummary) :=
  (resolveDelegateTypeInternal input typeName).bind fun internal =>
    let methods := (input.ctx.typeCtx.view.collectInheritedMembers internal).1
    if methods.isEmpty then none else some methods

def findTypeMethods (input : SyntheticInput) (typeName : String) : Option (List MethodSummary) :=
  (findTypeMethodsInSource input typeName).or (findTypeMethodsInIndex input typeName)

/-- The methods of all types that a field delegates to. -/
def delegateMethods (input : SyntheticInput) (field : FieldSummary) (anno : AnnotationSummary) :
    List MethodSummary :=
  let types := getTypesParameter anno
  (if types.isEmpty then [field.descriptor] else types).flatMap fun typeName =>
    (findTypeMethods input typeName).getD []

/-! ## Delegating -/

def isObjectMethod (methodName : String) : Bool :=
  ["equals", "hashCode", "toString", "clone", "finalize", "getClass", "notify", "notifyAll", "wait"].contains
    methodName

def delegateOffer (field : FieldSummary) (source : MethodSummary) : Offer where
  method := { source with annotations := [], accessFlags := accPublic, isSynthetic := false }
  descriptor := source.desc
  origin := .lombokDelegate field.name
  answered := false

def generateDelegateMethod (explicitMethods : List MethodSummary) (field : FieldSummary)
    (out : SyntheticMemberSet) (source : MethodSummary) : SyntheticMemberSet :=
  if hasMethod explicitMethods source.name source.desc || hasMethod out.methods source.name source.desc then out
  else if isObjectMethod source.name then out
  else out.append (.pushed [delegateOffer field source])

/-- The definition that marks a field with delegated methods. -/
def marker (field : FieldSummary) : SyntheticDefinition where
  kind := .method
  name := "$delegate$" ++ field.name
  descriptor := none
  origin := .lombokDelegate field.name

def generateDelegateMethods (input : SyntheticInput) (explicitMethods : List MethodSummary)
    (out : SyntheticMemberSet) (field : FieldSummary) (anno : AnnotationSummary) : SyntheticMemberSet :=
  ((delegateMethods input field anno).foldl (generateDelegateMethod explicitMethods field) out).append
    { definitions := [marker field] }

def ofField (input : SyntheticInput) (explicitMethods : List MethodSummary) (out : SyntheticMemberSet)
    (field : FieldSummary) : SyntheticMemberSet :=
  match findDelegateAnnotation field.annotations with
  | none => out
  | some anno =>
    if isFieldStatic field then out else generateDelegateMethods input explicitMethods out field anno

def synthesize (input : SyntheticInput) (explicitMethods : List MethodSummary)
    (explicitFields : List FieldSummary) (out : SyntheticMemberSet) : SyntheticMemberSet :=
  if ["class_declaration", "interface_declaration"].contains input.decl.kind then
    explicitFields.foldl (ofField input explicitMethods) out
  else out

end DelegateRule

/-! ## All rules -/

/-- The member sets of the rules before the last one, in the order of `SYNTHETIC_RULES`. -/
def ruleSets (input : SyntheticInput) (explicitMethods : List MethodSummary)
    (explicitFields : List FieldSummary) : List SyntheticMemberSet :=
  [.pushed (RecordRule.offers input explicitMethods),
   EnumRule.synthesize input explicitFields,
   .pushed (DataRule.offers input explicitMethods explicitFields),
   .pushed (ValueRule.offers input explicitMethods explicitFields),
   .pushed (GetterSetterRule.offers input explicitMethods explicitFields),
   .pushed (ToStringRule.offers input explicitMethods),
   .pushed (EqualsAndHashCodeRule.offers input explicitMethods),
   .pushed (ConstructorRule.offers input explicitMethods explicitFields),
   BuilderRule.synthesize input explicitMethods explicitFields,
   .pushed (WithRule.offers input explicitMethods explicitFields),
   LogRule.synthesize input explicitFields]

def synthesizeForType (input : SyntheticInput) (explicitMethods : List MethodSummary)
    (explicitFields : List FieldSummary) : SyntheticMemberSet :=
  DelegateRule.synthesize input explicitMethods explicitFields
    ((ruleSets input explicitMethods explicitFields).foldl SyntheticMemberSet.append {})

/-! ## Finding the node of a definition -/

/-- The declarator of a field among the children of the body. -/
def findFieldNode (decl : Cursor) (fieldName : String) : Option Node :=
  (decl.node.childByFieldName "body").bind fun body =>
    (body.children.filter fun child => child.kind = "field_declaration").findSome? fun child =>
      (child.children.filter fun declarator => declarator.kind = "variable_declarator").findSome? fun declarator =>
        (declarator.childByFieldName "name").filter fun nameNode => nameNode.text = fieldName

def nodeOfOrigin (decl : Cursor) : SyntheticOrigin → Option Node
  | .recordComponentAccessor componentName => RecordRule.findRecordComponentNode decl componentName
  | .recordCanonicalConstructor => (RecordRule.recordParameterNode decl).or (decl.node.childByFieldName "name")
  | .enumConstant constantName => EnumRule.findEnumConstantNode decl constantName
  | .lombokGetter fieldName | .lombokSetter fieldName | .lombokWith fieldName | .lombokDelegate fieldName =>
    findFieldNode decl fieldName
  | .lombokToString | .lombokEquals | .lombokHashCode | .lombokConstructor _ | .lombokBuilder | .lombokLog =>
    decl.node.childByFieldName "name"

/-- The members that the body of a declaration declares. -/
def explicitMembers (input : SyntheticInput) : List CurrentClassMember :=
  ((input.decl.childByFieldName "body").map (extractClassMembersFromBody input.ctx)).getD []

/-- `synthesize_for_type` over the explicit members of the body. -/
def synthesizeForBody (input : SyntheticInput) : SyntheticMemberSet :=
  synthesizeForType input (methodsOf (explicitMembers input)) (fieldsOf (explicitMembers input))

def resolveSyntheticDefinition (input : SyntheticInput) (kind : SyntheticDefinitionKind) (name : String)
    (descriptor : Option String) : Option Node :=
  (synthesizeForBody input).definitions.findSome? fun definition =>
    if definition.kind = kind && definition.name = name &&
        (descriptor.isNone || definition.descriptor = descriptor) then
      nodeOfOrigin input.decl definition.origin
    else none

end JavaAnalyzer.Language
