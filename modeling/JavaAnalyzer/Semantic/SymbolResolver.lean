import JavaAnalyzer.Index.GlobalIndex
import JavaAnalyzer.Index.HierarchyRefs
import JavaAnalyzer.Index.CachedQueries
import JavaAnalyzer.Language.DelegateRule
import JavaAnalyzer.Language.Members
import JavaAnalyzer.Language.StrictTypes
import JavaAnalyzer.Semantic.EnclosingOwner

/-! # Names and symbols

`semantic/types/symbol_resolver.rs`: `classify_name` says whether a dotted name is a package, a type or an expression,
and `resolve_bare_id` leads from it to a symbol. The walk over the segments looks fields and member types up in the
index; where it fails, the whole name is tried as a type and as a package. -/

namespace JavaAnalyzer.Index
set_option autoImplicit false

namespace IndexView

variable (view : IndexView)

/-! ## Nested classes of a view -/

def getClassRef (internalName : String) : Option TypeRef :=
  (view.getClassRefByInternal internalName).bind view.typeRefFromClassRef

def resolveDirectInnerClassRef (ownerInternal simpleName : String) : Option TypeRef :=
  (view.resolveDirectInnerClass ownerInternal simpleName).bind fun c => view.getClassRef c.internalName

def lookupMemberTypeRefInHierarchy (classInternal simpleName : String) : Option TypeRef :=
  (view.hierarchyOrder classInternal).findSome? fun ownerRef =>
    (view.classRefInternalName ownerRef).bind fun owner => view.resolveDirectInnerClassRef owner simpleName

/-- The class of the package whose internal name ends this way, when there is one such class. -/
def resolveInternalHintToClass (internalHint : String) : Option ClassMetadata :=
  (Text.beforeLast '/' internalHint.toList).bind fun pkg =>
    match (view.mergeClassRefs (view.layerClassesInPackageRefs (String.ofList pkg))).filter
        (view.classRefMatchesInternalNameTail (String.ofList (Text.afterLast '/' internalHint.toList))) with
    | [only] => view.resolveClassRef only
    | _ => none

/-- The owners around a class, up to the first that is not found. -/
def ownerChain : ℕ → ClassMetadata → List String
  | 0, _ => []
  | depth + 1, cur =>
    match cur.innerClassOf with
    | none => []
    | some owner => owner :: ((view.getClass owner).map (ownerChain depth)).getD []

def resolveScopedInnerClass (enclosingInternal simpleName : String) : Option ClassMetadata :=
  ((view.getClass enclosingInternal).or (view.resolveInternalHintToClass enclosingInternal)).bind fun enclosing =>
    CachedView.nearestScoped (enclosing.internalName :: view.ownerChain 65 enclosing) enclosing.package simpleName
      (match enclosing.package with
        | some pkg => view.classesInPackage pkg
        | none => view.getClassesBySimpleName simpleName)

end IndexView

end JavaAnalyzer.Index

namespace JavaAnalyzer.Semantic
open Index JavaAnalyzer.Language Text

/-- A descriptor of one type as the name of the type. -/
def singletonDescriptorToType (desc : List Char) : Option String :=
  match desc with
  | ['B'] => some "byte"
  | ['C'] => some "char"
  | ['D'] => some "double"
  | ['F'] => some "float"
  | ['I'] => some "int"
  | ['J'] => some "long"
  | ['S'] => some "short"
  | ['Z'] => some "boolean"
  | ['V'] => some "void"
  | 'L' :: rest => if rest.getLast? = some ';' then some (.ofList rest.dropLast) else none
  | _ => none

def TypeName.boundsForLookup (ty : TypeName) : List TypeName :=
  if ty.isIntersection then ty.args else [ty]

namespace SymbolResolver

/-! ## Contexts and answers -/

structure LocalVar where
  name : String
  typeInternal : TypeName

/-- What the resolver reads of a `SemanticContext`. -/
structure SemanticContext where
  localVariables : List LocalVar
  flowTypeOverrides : AList (fun _ : String => TypeName)
  staticImports : List String
  enclosingInternalName : Option String
  enclosingPackage : Option String
  inferredPackage : Option String
  enclosingClassChain : List String
  typeCtx : Option SourceTypeCtx
  currentClassSuperName : Option String

inductive ExpressionNameBase where
  | localVar (name : String)
  | field (owner name : String) (isStatic : Bool)
  | this
  | super
  | value

inductive NameClassification where
  | package (internalName : String)
  | type (internalName : String) (ty : TypeName)
  | expression (ty : TypeName) (base : ExpressionNameBase)

inductive ResolvedSymbol where
  | class (typeRef : TypeRef)
  | method (methodRef : MethodRef)
  | field (fieldRef : FieldRef)

/-- A type by its internal name. -/
def NameClassification.ofInternal (internalName : String) : NameClassification :=
  .type internalName (TypeName.internal internalName)

/-! ## Fields -/

def fieldTypeName (field : FieldRef) : Option TypeName :=
  ((singletonDescriptorToType field.descriptor.toList).map TypeName.new).or
    (parseSingleTypeToInternal field.descriptor.toList)

def FieldRef.isStatic (field : FieldRef) : Bool :=
  field.accessFlags &&& accStatic ≠ 0

/-- A field as an expression of its type. -/
def fieldExpression (field : FieldRef) : Option NameClassification :=
  (fieldTypeName field).map fun ty =>
    .expression ty (.field field.owner.internalName field.name (FieldRef.isStatic field))

section Resolver

variable (fuel : ℕ) (view : IndexView) (ctx : SemanticContext)

def lookupFieldCandidate (receiver : TypeName) (name : String) : Option FieldRef :=
  receiver.boundsForLookup.findSome? fun bound => view.lookupFieldInHierarchyRef bound.erasedInternal name

def lookupStaticFieldCandidate (receiver : TypeName) (name : String) : Option FieldRef :=
  (lookupFieldCandidate view receiver name).filter FieldRef.isStatic

/-- The fields of a name that the static imports import. -/
def staticImportFields (name : String) : List FieldRef :=
  ctx.staticImports.filterMap fun imp =>
    (beforeLast '.' imp.toList).bind fun ownerDot =>
      let memberName := String.ofList (afterLast '.' imp.toList)
      if memberName ≠ "*" ∧ memberName ≠ name then none
      else lookupStaticFieldCandidate view (TypeName.internal (BucketState.slashed (String.ofList ownerDot))) name

def lookupStaticImportField (name : String) : Option FieldRef :=
  match Dedup.dedupBy (fun f : FieldRef => (f.owner.internalName, f.descriptor)) []
      (staticImportFields view ctx name) with
  | [field] => some field
  | _ => none

/-! ## Types -/

/-- A walk over the owners that the fuel does not do for finds nothing. -/
def resolveEnclosingOwnerType (simpleName : String) : Option String :=
  (resolveEnclosingOwnerInternal fuel (some view) ctx.enclosingInternalName ctx.enclosingPackage
    ctx.enclosingClassChain simpleName).join

def resolveInTypeCtx (head : String) : Option String :=
  ctx.typeCtx.bind fun typeCtx =>
    (typeCtx.resolveSimpleStrict head).or ((typeCtx.resolveTypeNameStrict head.toList).map TypeName.erasedInternal)

def resolveTypeHead (head : String) : Option String :=
  if '/' ∈ head.toList then (view.getClass head).map ClassMetadata.internalName
  else
    ((if '.' ∈ head.toList then (view.getClass (BucketState.slashed head)).map ClassMetadata.internalName else none).or
      (resolveEnclosingOwnerType fuel view ctx head)).or
    ((resolveInTypeCtx ctx head).or
      ((ctx.enclosingInternalName.bind fun enclosing => view.resolveScopedInnerClass enclosing head).map
        ClassMetadata.internalName))

/-- `resolve_type_name` when the cache does not answer. -/
def resolveTypeName (name : String) : Option String :=
  ((view.resolveQualifiedTypePath name (resolveTypeHead fuel view ctx)).map ClassMetadata.internalName).or
    (if '.' ∉ name.toList ∧ '/' ∉ name.toList then resolveTypeHead fuel view ctx name else none)

/-- `resolve_super_name` -/
def resolveSuperName (typeCtx : SourceTypeCtx) (raw : String) : Option String :=
  let raw := String.ofList (trim raw.toList)
  if raw.isEmpty then none
  else if '/' ∈ raw.toList then some raw
  else ((typeCtx.resolveTypeNameStrict raw.toList).map TypeName.erasedInternal).or (typeCtx.resolveSimpleStrict raw)

def javaLangObject : String := "java/lang/Object"

def resolveDirectSuperOwner : Option String :=
  ctx.enclosingInternalName.bind fun enclosing =>
    let declared := ctx.typeCtx.bind fun typeCtx => ctx.currentClassSuperName.bind (resolveSuperName typeCtx)
    let indexed := (view.getClass enclosing).bind fun c =>
      match c.superName with
      | some raw => (ctx.typeCtx.bind fun typeCtx => resolveSuperName typeCtx raw).or
          (if '/' ∈ raw.toList ∨ (view.getClass raw).isSome then some raw else none)
      | none => none
    (declared.or indexed).or (if enclosing = javaLangObject then none else some javaLangObject)

/-! ## Names -/

def isSuperReceiverExpr (expr : String) : Bool :=
  trim expr.toList = "super".toList

def isJavaIdentifierSegment (segment : String) : Bool :=
  !segment.isEmpty && !isJavaKeyword segment &&
    segment.toList.all fun c => c.isAlphanum || c = '_' || c = '$'

def isNameHeadSegment (segment : String) : Bool :=
  segment = "this" || isSuperReceiverExpr segment || isJavaIdentifierSegment segment

/-- A package that holds classes. -/
def classifyPackage (internalName : String) : Option NameClassification :=
  if view.hasPackage internalName then some (.package internalName) else none

/-- The innermost local of the name, with the type that the flow gives it. -/
def classifyLocal (name : String) : Option NameClassification :=
  (ctx.localVariables.reverse.find? fun v => v.name = name).map fun v =>
    .expression ((ctx.flowTypeOverrides.lookup name).getD v.typeInternal) (.localVar v.name)

def classifyType (name : String) : Option NameClassification :=
  (resolveTypeName fuel view ctx name).map .ofInternal

def classifySimpleName (name : String) : Option NameClassification :=
  if name = "this" then
    ctx.enclosingInternalName.map fun enclosing => .expression (TypeName.internal enclosing) .this
  else if isSuperReceiverExpr name then
    (resolveDirectSuperOwner view ctx).map fun owner => .expression (TypeName.internal owner) .super
  else
    ((classifyLocal ctx name).or
      (ctx.enclosingInternalName.bind fun enclosing =>
        (lookupFieldCandidate view (TypeName.internal enclosing) name).bind fieldExpression)).or
    (((lookupStaticImportField view ctx name).bind fieldExpression).or
      ((classifyType fuel view ctx name).or (classifyPackage view (BucketState.slashed name))))

def advanceNameClassification (current : NameClassification) (segment : String) : Option NameClassification :=
  if isJavaIdentifierSegment segment then
    match current with
    | .package internalName =>
      (classifyPackage view (internalName ++ "/" ++ segment)).or
        ((view.getClass (internalName ++ "/" ++ segment)).map fun c => .ofInternal c.internalName)
    | .type internalName ty =>
      ((lookupStaticFieldCandidate view ty segment).bind fieldExpression).or
        ((view.lookupMemberTypeRefInHierarchy internalName segment).map fun inner => .ofInternal inner.internalName)
    | .expression ty _ =>
      if ty.isArray ∧ segment = "length" then some (.expression (TypeName.new "int") .value)
      else (lookupFieldCandidate view ty segment).bind fieldExpression
  else none

/-- The whole name as a type, or else as a package. -/
def classifyWhole (name : String) : Option NameClassification :=
  (classifyType fuel view ctx name).or (classifyPackage view (BucketState.slashed name))

/-- The walk over the segments. -/
def classifySegments (head : String) (parts : List String) : Option NameClassification :=
  parts.foldlM (advanceNameClassification view) =<< classifySimpleName fuel view ctx head

def classifyName (name : String) : Option NameClassification :=
  let name := String.ofList (trim name.toList)
  if '/' ∈ name.toList then
    ((view.getClass name).map fun c => .ofInternal c.internalName).or (classifyPackage view name)
  else
    match IndexView.dottedParts name.toList with
    | [] => none
    | head :: parts =>
      if isNameHeadSegment head && parts.all isJavaIdentifierSegment then
        (classifySegments fuel view ctx head parts).or (classifyWhole fuel view ctx name)
      else classifyWhole fuel view ctx name

/-- The symbol of a classified name. -/
def symbolOf : NameClassification → Option ResolvedSymbol
  | .package _ => none
  | .type internalName _ => some (.class (.source internalName))
  | .expression _ (.field owner name _) => (view.lookupFieldInHierarchyRef owner name).map .field
  | .expression ty _ =>
    some (.class (.source ((resolveTypeName fuel view ctx ty.erasedInternal).getD ty.erasedInternal)))

def resolveBareId (id : String) : Option ResolvedSymbol :=
  (classifyName fuel view ctx id).bind (symbolOf fuel view ctx)

end Resolver

end SymbolResolver

end JavaAnalyzer.Semantic
