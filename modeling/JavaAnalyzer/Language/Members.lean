import JavaAnalyzer.Index.Metadata
import JavaAnalyzer.Jvm.Descriptor
import JavaAnalyzer.Language.ClassParser
import JavaAnalyzer.Language.SourceTypes

/-! # Members of a class body

The extraction of methods and fields of `language/java/members.rs`: from the declarations of a class body,
and from error nodes. -/

namespace JavaAnalyzer.Language
set_option autoImplicit false
open JavaAnalyzer.Index Jvm Text

inductive CurrentClassMember where
  | method (method : MethodSummary)
  | field (field : FieldSummary)
deriving DecidableEq

def CurrentClassMember.name : CurrentClassMember → String
  | method m => m.name
  | field f => f.name

def methodsOf (members : List CurrentClassMember) : List MethodSummary :=
  members.filterMap fun
    | .method m => some m
    | .field _ => none

def fieldsOf (members : List CurrentClassMember) : List FieldSummary :=
  members.filterMap fun
    | .field f => some f
    | .method _ => none

/-- What the extraction reads of its file beside the nodes. -/
structure MemberCtx where
  typeCtx : SourceTypeCtx
  /-- `parse_annotations_in_node` -/
  annotationsIn : Node → List AnnotationSummary

/-! ## Words and flags -/

def javaKeywords : List String :=
  ["public", "private", "protected", "static", "final", "abstract", "synchronized", "volatile", "transient",
    "native", "strictfp", "void", "int", "long", "double", "float", "boolean", "byte", "short", "char", "class",
    "interface", "enum", "extends", "implements", "return", "new", "this", "super", "null", "true", "false",
    "if", "else", "for", "while", "do", "switch", "case", "break", "continue", "default", "try", "catch",
    "finally", "throw", "throws", "import", "package", "instanceof", "assert"]

def isJavaKeyword (name : String) : Bool :=
  javaKeywords.contains name

/-- The names that no method of a source has. -/
def isMethodName (name : String) : Bool :=
  name ≠ "<init>" && name ≠ "<clinit>" && !isJavaKeyword name

def accPublic : UInt16 := 0x0001

def accPrivate : UInt16 := 0x0002

def accProtected : UInt16 := 0x0004

def accStatic : UInt16 := 0x0008

def accFinal : UInt16 := 0x0010

def accVarargs : UInt16 := 0x0080

def accAbstract : UInt16 := 0x0400

def containsText (needle s : List Char) : Bool :=
  s.tails.any needle.isPrefixOf

/-- The flags of the words that a text contains. -/
def flagsOfWords (words : List (String × UInt16)) (text : String) : UInt16 :=
  words.foldl (fun flags word =>
    if containsText word.1.toList text.toList then flags ||| word.2 else flags) 0

def parseJavaModifiers (text : String) : UInt16 :=
  flagsOfWords [("public", accPublic), ("private", accPrivate), ("protected", accProtected),
    ("static", accStatic), ("final", accFinal), ("abstract", accAbstract)] text

/-! ## Types of members -/

namespace Node

/-- `first_child_of_kinds` -/
def firstChildOfKinds (n : Node) (kinds : List String) : Option Node :=
  n.children.find? fun child => kinds.contains child.kind

/-- The declared type of a member, of one of the kinds, and the dimensions behind its name. -/
def declaredTypeText (kinds : List String) (n : Node) (defaultType : String) : List Char :=
  let type := ((n.childByFieldName "type").filter fun child => kinds.contains child.kind).or
    (n.firstChildOfKinds kinds)
  ((type.map text).getD defaultType ++ ((n.childByFieldName "dimensions").map text).getD "").toList

end Node

/-- `is_method_return_type_kind` -/
def methodReturnTypeKinds : List String :=
  ["void_type", "integral_type", "floating_point_type", "boolean_type", "type_identifier",
    "scoped_type_identifier", "array_type", "generic_type"]

def declaredReturnTypeText (n : Node) (defaultType : String) : List Char :=
  n.declaredTypeText methodReturnTypeKinds defaultType

/-! ## Type parameters -/

/-- One type parameter with its bounds, none of them for a nameless one. -/
def typeParameterSignature (typeCtx : SourceTypeCtx) (param : Node) : List Char :=
  match (param.firstChildOfKinds ["identifier", "type_identifier"]).map fun id => trim id.text.toList with
  | none => []
  | some name =>
    if name.isEmpty then []
    else
      let bounds := ((param.firstChildOfKind "type_bound").bind fun bound =>
        if "extends".toList.isPrefixOf (trim bound.text.toList) then
          some (splitTopLevelJavaIntersectionBounds (trim ((trim bound.text.toList).drop "extends".length)))
        else none).getD []
      name ++ if bounds.isEmpty then ":Ljava/lang/Object;".toList
        else bounds.flatMap fun bound => ':' :: typeCtx.sourceTypeToSignature bound

def extractTypeParametersPrefix (typeCtx : SourceTypeCtx) (n : Node) : Option (List Char) :=
  ((n.childByFieldName "type_parameters").or (n.firstChildOfKind "type_parameters")).bind fun params =>
    let signatures := (params.children.filter fun child => child.kind = "type_parameter").flatMap
      (typeParameterSignature typeCtx)
    if signatures.isEmpty then none else some ('<' :: (signatures ++ ['>']))

/-- `extract_generic_signature` -/
def extractGenericSignature (typeCtx : SourceTypeCtx) (n : Node) (descriptor : List Char) : Option String :=
  (extractTypeParametersPrefix typeCtx n).map fun params => String.ofList (params ++ descriptor)

def buildSourceMethodGenericSignature (typeCtx : SourceTypeCtx) (n : Node) (paramsText retType : List Char) :
    Option String :=
  (extractTypeParametersPrefix typeCtx n).map fun params => String.ofList
    (params ++ '(' :: ((SourceTypeCtx.paramTypeTexts paramsText).flatMap typeCtx.sourceTypeToSignature ++
      ')' :: typeCtx.sourceTypeToSignature (trim retType)))

/-! ## Parameters -/

def extractParamNameNode (param : Node) : Option Node :=
  (param.childByFieldName "name").or
    (param.children.findSome? fun child =>
      if child.kind = "identifier" then some child
      else if child.kind = "variable_declarator" then
        (child.childByFieldName "name").or (child.firstChildOfKind "identifier")
      else none)

/-- The parameters of the descriptor take the names and annotations of the parameter nodes, in order. -/
def fillParams (ctx : MemberCtx) : List (List Char) → List Node → List MethodParam
  | type :: types, child :: children =>
    { descriptor := String.ofList type
      name := ((extractParamNameNode child).map Node.text).getD ""
      annotations := ctx.annotationsIn ((child.childByFieldName "modifiers").getD child) } ::
      fillParams ctx types children
  | types, [] => types.map fun type => { descriptor := String.ofList type, name := "", annotations := [] }
  | [], _ => []

def isParameter (n : Node) : Bool :=
  ["formal_parameter", "spread_parameter"].contains n.kind

def parseParams (ctx : MemberCtx) (descriptor : List Char) (formals : Node) : List MethodParam :=
  fillParams ctx (splitParamDescriptors descriptor) (formals.children.filter isParameter)

def hasSpreadParameter (formals : Node) : Bool :=
  formals.children.any fun child => child.kind = "spread_parameter"

/-- The text of the parameters of a declaration, if it has some. -/
def formalsText (formals : Option Node) : List Char :=
  ((formals.map Node.text).getD "()").toList

/-- A method as its descriptor and parameter nodes give it. -/
def methodOf (ctx : MemberCtx) (name : String) (formals : Option Node) (descriptor : List Char)
    (flags : UInt16) (annotations : List AnnotationSummary) (genericSignature : Option String) :
    MethodSummary where
  name := name
  params := (formals.map (parseParams ctx descriptor)).getD []
  annotations := annotations
  accessFlags := if (formals.map hasSpreadParameter).getD false then flags ||| accVarargs else flags
  isSynthetic := false
  genericSignature := genericSignature
  returnType := parseReturnTypeFromDescriptor (String.ofList descriptor)

/-! ## Declarations -/

/-- The flags of a declaration's modifiers. -/
def declaredFlags (n : Node) : UInt16 :=
  ((n.firstChildOfKind "modifiers").map fun modifiers => parseJavaModifiers modifiers.text).getD 0

def declaredAnnotations (ctx : MemberCtx) (n : Node) : List AnnotationSummary :=
  ((n.firstChildOfKind "modifiers").map ctx.annotationsIn).getD []

def orPublic (flags : UInt16) : UInt16 :=
  if flags = 0 then accPublic else flags

def parseMethodNode (ctx : MemberCtx) (n : Node) : Option CurrentClassMember :=
  let formals := n.firstChildOfKind "formal_parameters"
  let retType := declaredReturnTypeText n "void"
  (((n.firstChildOfKind "identifier").map Node.text).filter isMethodName).map fun name =>
    let descriptor := ctx.typeCtx.buildJavaDescriptor (formalsText formals) retType
    .method (methodOf ctx name formals descriptor (orPublic (declaredFlags n)) (declaredAnnotations ctx n)
      ((buildSourceMethodGenericSignature ctx.typeCtx n (formalsText formals) retType).or
        (extractGenericSignature ctx.typeCtx n descriptor)))

def parseAnnotationElementNode (ctx : MemberCtx) (n : Node) : Option CurrentClassMember :=
  let retType := declaredReturnTypeText n ""
  ((((n.childByFieldName "name").or (n.firstChildOfKind "identifier")).map Node.text).filter fun name =>
    !isJavaKeyword name).bind fun name =>
      if retType.isEmpty then none
      else some (.method (methodOf ctx name none (ctx.typeCtx.buildJavaDescriptor ['(', ')'] retType)
        (accPublic ||| accAbstract ||| declaredFlags n) (declaredAnnotations ctx n) none))

/-- The parameters of a constructor. A compact one has those of its record. -/
def constructorParams (ancestors : List Node) (n : Node) : Option Node :=
  match ancestors.find? fun ancestor => ancestor.kind = "record_declaration" with
  | some record =>
    if n.kind = "compact_constructor_declaration" then
      (record.childByFieldName "parameters").or (record.firstChildOfKind "formal_parameters")
    else n.firstChildOfKind "formal_parameters"
  | none => n.firstChildOfKind "formal_parameters"

def parseConstructorNode (ctx : MemberCtx) (ancestors : List Node) (n : Node) : CurrentClassMember :=
  let formals := constructorParams ancestors n
  let descriptor := ctx.typeCtx.buildJavaDescriptor (formalsText formals) "void".toList
  .method { methodOf ctx "<init>" formals descriptor (orPublic (declaredFlags n)) (declaredAnnotations ctx n)
    (extractGenericSignature ctx.typeCtx n descriptor) with returnType := none }

/-- The kinds that `parse_field_node` knows as the type of a field. -/
def fieldTypeKinds : List String :=
  ["void_type", "integral_type", "floating_point_type", "boolean_type", "type_identifier", "array_type",
    "generic_type"]

/-- The last child of a kind counts, as it overwrites those before it. -/
def lastChildOfKinds (n : Node) (kinds : List String) : Option Node :=
  n.children.reverse.find? fun child => kinds.contains child.kind

/-- The names that the declarators of a field declare. -/
def fieldNames (n : Node) : List String :=
  (n.children.filter fun child => child.kind = "variable_declarator").filterMap fun declarator =>
    ((declarator.firstChildOfKind "identifier").map Node.text).filter fun name => !isJavaKeyword name

def parseFieldNode (ctx : MemberCtx) (n : Node) : List CurrentClassMember :=
  let modifiers := lastChildOfKinds n ["modifiers"]
  let flags := (modifiers.map fun m => parseJavaModifiers m.text).getD 0
  let fieldType := ((lastChildOfKinds n fieldTypeKinds).map Node.text).getD "Object"
  (fieldNames n).map fun name =>
    .field {
      name := name
      descriptor := String.ofList (ctx.typeCtx.toDescriptor fieldType.toList)
      accessFlags := orPublic flags
      annotations := (modifiers.map ctx.annotationsIn).getD []
      isSynthetic := false
      genericSignature := none }

/-! ## Members in error nodes -/

/-- The text of the nearest node of the kinds, on the nodes before a place from the last one on. -/
def nearestText (kinds : List String) (before : List Node) (defaultText : String) : String :=
  ((before.find? fun n => kinds.contains n.kind).map Node.text).getD defaultText

/-- The annotations of the modifiers before a place, else of an error node before it. -/
def annotationsBefore (ctx : MemberCtx) (before : List Node) : List AnnotationSummary :=
  match before.find? fun n => n.kind = "modifiers" with
  | some modifiers => ctx.annotationsIn modifiers
  | none => ((before.filter fun n => n.kind = "ERROR").map ctx.annotationsIn).find? (!·.isEmpty) |>.getD []

/-- A method of a `formal_parameters` node: its name and return type are the nearest before it. -/
def partialOfParams (ctx : MemberCtx) (found : List String) (before : List Node) (formals : Node) :
    Option CurrentClassMember :=
  ((before.find? fun n => n.kind = "identifier").map Node.text).bind fun name =>
    if name = "<init>" || name = "<clinit>" || found.contains name then none
    else
      let flags := ((before.find? fun n => n.kind = "modifiers").map fun m => parseJavaModifiers m.text).getD 0
      some (.method (methodOf ctx name (some formals)
        (ctx.typeCtx.buildJavaDescriptor formals.text.toList
          (nearestText methodReturnTypeKinds before "void").toList)
        flags (annotationsBefore ctx before) none))

/-- What the nodes before a method invocation say about the method. -/
structure PartialMethod where
  flags : UInt16
  annotations : List AnnotationSummary
  retType : String

/-- The first type counts. -/
def PartialMethod.withType (m : PartialMethod) (n : Node) : PartialMethod :=
  if methodReturnTypeKinds.contains n.kind && m.retType = "void" then { m with retType := n.text } else m

/-- A child of an error node before the invocation. -/
def PartialMethod.readErrorChild (m : PartialMethod) (n : Node) : PartialMethod :=
  if ["identifier", "static", "private", "public", "protected"].contains n.kind then
    { m with flags := m.flags ||| parseJavaModifiers n.text }
  else m.withType n

def PartialMethod.readBefore (ctx : MemberCtx) (m : PartialMethod) (n : Node) : PartialMethod :=
  if n.kind = "identifier" then
    { m with annotations := ctx.annotationsIn n, flags := m.flags ||| parseJavaModifiers n.text }
  else if n.kind = "ERROR" then
    n.children.foldl readErrorChild
      { m with annotations := if m.annotations.isEmpty then ctx.annotationsIn n else m.annotations }
  else m.withType n

/-- A method of a `method_invocation` node. Its parameters are not taken over. -/
def partialOfInvocation (ctx : MemberCtx) (found : List String) (before : List Node) (invocation : Node) :
    Option CurrentClassMember :=
  ((invocation.childByFieldName "name").map Node.text).bind fun name =>
    if !isMethodName name || found.contains name then none
    else
      let m := before.foldl (PartialMethod.readBefore ctx) { flags := 0, annotations := [], retType := "void" }
      let args := ((invocation.childByFieldName "arguments").map Node.text).getD "()"
      some (.method (methodOf ctx name none (ctx.typeCtx.buildJavaDescriptor args.toList m.retType.toList)
        (orPublic m.flags) m.annotations none))

/-- The children of a kind, each with the nodes before it from the last one on. -/
def placesOf (kind : String) : List Node → List Node → List (List Node × Node)
  | _, [] => []
  | before, n :: nodes =>
    if n.kind = kind then (before, n) :: placesOf kind (n :: before) nodes
    else placesOf kind (n :: before) nodes

def parsePartialMethodsFromError (ctx : MemberCtx) (error : Node) (alreadyFound : List CurrentClassMember) :
    List CurrentClassMember :=
  let found := alreadyFound.map CurrentClassMember.name
  (placesOf "formal_parameters" [] error.children).filterMap
      (fun place => partialOfParams ctx found place.1 place.2) ++
    (placesOf "method_invocation" [] error.children).filterMap
      (fun place => partialOfInvocation ctx found place.1 place.2)

/-- `local_variable_declaration` and an error node that starts with `(`. -/
def parseMisreadMethod (ctx : MemberCtx) (decl error : Node) : Option CurrentClassMember :=
  let modifiers := lastChildOfKinds decl ["modifiers"]
  let flags := (modifiers.map fun m => flagsOfWords [("static", accStatic), ("public", accPublic),
    ("private", accPrivate), ("protected", accProtected)] m.text).getD 0
  let retType := ((lastChildOfKinds decl methodReturnTypeKinds).map Node.text).getD "void"
  let name := (decl.children.reverse.findSome? fun child =>
    if child.kind = "variable_declarator" then child.childByFieldName "name" else none).map Node.text
  (name.filter isMethodName).map fun name =>
    let formals := error.firstChildOfKind "formal_parameters"
    .method (methodOf ctx name formals (ctx.typeCtx.buildJavaDescriptor (formalsText formals) retType.toList)
      flags ((modifiers.map ctx.annotationsIn).getD []) none)

/-- Declarations that the parser left in an error node of a method body. -/
def misplacedMembers (ctx : MemberCtx) (n : Node) : List CurrentClassMember :=
  if n.kind = "method_declaration" then (parseMethodNode ctx n).toList
  else if n.kind = "field_declaration" then parseFieldNode ctx n
  else []

/-- The children of a method body, with the members found before. -/
def recoverFromBody (ctx : MemberCtx) (members : List CurrentClassMember) :
    List Node → List CurrentClassMember
  | [] => members
  | child :: nodes =>
    if child.kind = "ERROR" then
      recoverFromBody ctx (members ++ parsePartialMethodsFromError ctx child members ++
        child.children.flatMap (misplacedMembers ctx)) nodes
    else if child.kind = "local_variable_declaration" then
      match nodes with
      | [] => members
      | next :: rest =>
        if next.kind = "ERROR" && (trimStart next.text.toList).head? = some '(' then
          match parseMisreadMethod ctx child next with
          | some m => recoverFromBody ctx (members ++ [m]) rest
          | none => recoverFromBody ctx members (next :: rest)
        else recoverFromBody ctx members (next :: rest)
    else recoverFromBody ctx (members ++ misplacedMembers ctx child) nodes

/-! ## Members of a body -/

/-- A method, and what its body holds of others. -/
def methodMembers (ctx : MemberCtx) (n : Node) : List CurrentClassMember :=
  recoverFromBody ctx (parseMethodNode ctx n).toList
    (((n.childByFieldName "body").map Node.children).getD [])

/-- The kinds whose children are read as members too. -/
def bodyKinds : List String :=
  ["class_body", "interface_body", "enum_body", "enum_body_declarations", "program"]

mutual

def membersOfChild (ctx : MemberCtx) (allowNestedTypes : Bool) (ancestors : List Node) :
    Node → List CurrentClassMember
  | .mk kind field text children =>
    if ["constructor_declaration", "compact_constructor_declaration"].contains kind then
      if allowNestedTypes then []
      else [parseConstructorNode ctx ancestors (.mk kind field text children)]
    else if kind = "method_declaration" then methodMembers ctx (.mk kind field text children)
    else if kind = "annotation_type_element_declaration" then
      (parseAnnotationElementNode ctx (.mk kind field text children)).toList
    else if kind = "field_declaration" then parseFieldNode ctx (.mk kind field text children)
    else if classDeclKinds.contains kind && !allowNestedTypes then []
    else if classDeclKinds.contains kind || bodyKinds.contains kind then
      membersOfChildren ctx allowNestedTypes (.mk kind field text children :: ancestors) children
    else []

/-- `collect_valid_members_impl`, over the children of a node with the nodes from it up. -/
def membersOfChildren (ctx : MemberCtx) (allowNestedTypes : Bool) (ancestors : List Node) :
    List Node → List CurrentClassMember
  | [] => []
  | n :: nodes =>
    membersOfChild ctx allowNestedTypes ancestors n ++ membersOfChildren ctx allowNestedTypes ancestors nodes

end

def extractValidMembersOnly (ctx : MemberCtx) (body : Cursor) : List CurrentClassMember :=
  membersOfChildren ctx false body.path body.node.children

def extractErrorRecoveryMembers (ctx : MemberCtx) (n : Node) (alreadyFound : List CurrentClassMember) :
    List CurrentClassMember :=
  if n.kind = "ERROR" then
    parsePartialMethodsFromError ctx n alreadyFound ++
      (n.children.filter fun child => child.kind = "ERROR").flatMap fun child =>
        parsePartialMethodsFromError ctx child alreadyFound
  else []

def extractErrorRecoveryMembersFromBody (ctx : MemberCtx) (body : Node)
    (alreadyFound : List CurrentClassMember) : List CurrentClassMember :=
  (body.children.filter fun child => child.kind = "ERROR").flatMap fun child =>
    extractErrorRecoveryMembers ctx child alreadyFound

def extractClassMembersFromBody (ctx : MemberCtx) (body : Cursor) : List CurrentClassMember :=
  let members := extractValidMembersOnly ctx body
  members ++ extractErrorRecoveryMembersFromBody ctx body.node members

end JavaAnalyzer.Language
