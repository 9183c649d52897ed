import JavaAnalyzer.Language.Synthetic

/-! # The Lombok rules

`language/java/lombok/rules`, without the rule for `@Delegate`. Where several rules have the same function, it
stands once in front of them. -/

namespace JavaAnalyzer.Language
set_option autoImplicit false
open JavaAnalyzer.Index Lombok

/-- Class-like declarations, for most rules. -/
def isClassLike (kind : String) : Bool :=
  ["class_declaration", "enum_declaration", "record_declaration"].contains kind

/-! ## Accessors -/

def staticFlag (field : FieldSummary) : UInt16 :=
  if isFieldStatic field then accStatic else 0

def getterOffer (input : SyntheticInput) (explicitMethods : List MethodSummary) (field : FieldSummary)
    (anno : Option AnnotationSummary) : Offer :=
  let name := computeGetterName input.toUppercase .new field.name field.descriptor
  { method := plainMethod name [] ((accessLevelOf anno).toAccessFlags ||| staticFlag field)
      (some field.descriptor)
    descriptor := "()" ++ field.descriptor
    origin := .lombokGetter field.name
    answered := hasMethod explicitMethods name ("()" ++ field.descriptor) }

/-- `generate_getter` of `@Data` and `@Value` -/
def generateGetter (input : SyntheticInput) (explicitMethods : List MethodSummary) (field : FieldSummary)
    (anno : Option AnnotationSummary) : List Offer :=
  if accessLevelOf anno = .noneLevel then []
  else [getterOffer input explicitMethods field anno]

def setterOffer (input : SyntheticInput) (explicitMethods : List MethodSummary) (field : FieldSummary)
    (anno : Option AnnotationSummary) : Offer :=
  let name := computeSetterName input.toUppercase .new field.name
  { method := plainMethod name [{ descriptor := field.descriptor, name := field.name, annotations := [] }]
      ((accessLevelOf anno).toAccessFlags ||| staticFlag field) none
    descriptor := "(" ++ field.descriptor ++ ")V"
    origin := .lombokSetter field.name
    answered := hasMethod explicitMethods name ("(" ++ field.descriptor ++ ")V") }

def generateSetter (input : SyntheticInput) (explicitMethods : List MethodSummary) (field : FieldSummary)
    (anno : Option AnnotationSummary) : List Offer :=
  if accessLevelOf anno = .noneLevel then []
  else [setterOffer input explicitMethods field anno]

/-! ## Methods of `Object` -/

/-- Name and empty parameters count, and not the return type. -/
def hasToString (explicitMethods : List MethodSummary) : Bool :=
  explicitMethods.any fun m => m.name = "toString" && m.params.isEmpty

def toStringOffer (explicitMethods : List MethodSummary) (returnType : String) : Offer where
  method := plainMethod "toString" [] accPublic (some returnType)
  descriptor := "()Ljava/lang/String;"
  origin := .lombokToString
  answered := hasToString explicitMethods

def otherParam : MethodParam where
  descriptor := "Ljava/lang/Object;"
  name := "other"
  annotations := []

/-- `equals`, `hashCode` and `canEqual`, all or none of them. -/
def equalsAndHashCodeOffers (hasEquals hasHashCode : Bool) : List Offer :=
  [{ method := plainMethod "equals" [otherParam] accPublic (some "Z")
     descriptor := "(Ljava/lang/Object;)Z"
     origin := .lombokEquals
     answered := hasEquals || hasHashCode },
   { method := plainMethod "hashCode" [] accPublic (some "I")
     descriptor := "()I"
     origin := .lombokHashCode
     answered := hasEquals || hasHashCode },
   { method := plainMethod "canEqual" [otherParam] accProtected (some "Z")
     descriptor := "(Ljava/lang/Object;)Z"
     origin := .lombokEquals
     answered := hasEquals || hasHashCode }]

/-! ## Constructors -/

def constructorAnnotations : List String :=
  [Annotations.noArgsConstructor, Annotations.requiredArgsConstructor, Annotations.allArgsConstructor]

/-- `has_any_explicit_constructor`, of the annotations, or `has_any_constructor_in_source`. -/
def hasExplicitConstructor (classAnnotations : List AnnotationSummary) (explicitMethods : List MethodSummary) :
    Bool :=
  (constructorAnnotations.any fun name => (findLombokAnno classAnnotations name).isSome) ||
    explicitMethods.any fun m => m.name = "<init>"

def hasNonnullAnnotation (field : FieldSummary) : Bool :=
  field.annotations.any fun a =>
    ["lombok/NonNull", "NonNull", "NotNull", "Nonnull"].contains a.internalName ||
      ["/NonNull", "/NotNull", "/Nonnull"].any (endsWith a.internalName)

def isCopyableAnnotation (anno : AnnotationSummary) : Bool :=
  ["NonNull", "NotNull", "Nonnull", "Nullable"].any fun word =>
    containsText word.toList anno.internalName.toList

def getAllNonStaticFields (fields : List FieldSummary) : List FieldSummary :=
  fields.filter fun f => !isFieldStatic f

def getRequiredFields (fields : List FieldSummary) : List FieldSummary :=
  fields.filter fun f => !isFieldStatic f && (isFieldFinal f || hasNonnullAnnotation f)

def hasUninitializedFinalFields (fields : List FieldSummary) : Bool :=
  fields.any fun f => isFieldFinal f && !isFieldStatic f

def buildConstructorParams (fields : List FieldSummary) : List MethodParam :=
  fields.map fun f =>
    { descriptor := f.descriptor
      name := f.name
      annotations := f.annotations.filter isCopyableAnnotation }

def buildConstructorDescriptor (params : List MethodParam) : String :=
  parametersText params ++ "V"

def constructorExists (explicitMethods : List MethodSummary) (descriptor : String) : Bool :=
  hasMethod explicitMethods "<init>" descriptor

def constructorOffer (explicitMethods : List MethodSummary) (constructorType : LombokConstructorType)
    (params : List MethodParam) (access : AccessLevel) : Offer where
  method := plainMethod "<init>" params access.toAccessFlags none
  descriptor := buildConstructorDescriptor params
  origin := .lombokConstructor constructorType
  answered := constructorExists explicitMethods (buildConstructorDescriptor params)

/-- Only a constructor that is pushed gets a static factory. A method of the name with as many parameters
answers it. -/
def staticFactoryOffer (explicitMethods : List MethodSummary) (constructorType : LombokConstructorType)
    (params : List MethodParam) (staticName : String) : Offer where
  method := plainMethod staticName params (accPublic ||| accStatic) (some "java/lang/Object")
  descriptor := parametersText params ++ "Ljava/lang/Object;"
  origin := .lombokConstructor constructorType
  answered := constructorExists explicitMethods (buildConstructorDescriptor params) ||
    explicitMethods.any fun m => m.name = staticName && m.params.length = params.length

/-- The static factory of a constructor, if its annotation names one. -/
def staticFactoryOffers (explicitMethods : List MethodSummary) (constructorType : LombokConstructorType)
    (params : List MethodParam) (staticName : Option String) : List Offer :=
  ((staticName.filter fun name => name ≠ "").map
    (staticFactoryOffer explicitMethods constructorType params)).toList

def constructorOffers (explicitMethods : List MethodSummary) (constructorType : LombokConstructorType)
    (params : List MethodParam) (access : AccessLevel) (staticName : Option String) : List Offer :=
  constructorOffer explicitMethods constructorType params access ::
    staticFactoryOffers explicitMethods constructorType params staticName

/-! ## `@Data` and `@Value` -/

/-- An accessor of a field without an annotation of its own, or with one that does not forbid it. -/
def unlessForbidden (generate : Option AnnotationSummary → List Offer) (fieldAnno : Option AnnotationSummary) :
    List Offer :=
  match fieldAnno with
  | some anno => if parseAccessLevel anno = .noneLevel then [] else generate (some anno)
  | none => generate none

namespace DataRule

def gettersAndSetters (input : SyntheticInput) (explicitMethods : List MethodSummary)
    (hasExplicitGetter hasExplicitSetter : Bool) (field : FieldSummary) : List Offer :=
  if isFieldStatic field then []
  else
    (if hasExplicitGetter then []
      else unlessForbidden (generateGetter input explicitMethods field)
        (findLombokAnno field.annotations Annotations.getter)) ++
    (if hasExplicitSetter || isFieldFinal field then []
      else unlessForbidden (generateSetter input explicitMethods field)
        (findLombokAnno field.annotations Annotations.setter))

def offers (input : SyntheticInput) (explicitMethods : List MethodSummary) (explicitFields : List FieldSummary) :
    List Offer :=
  if isClassLike input.decl.kind then
    match findLombokAnno input.classAnnotations Annotations.data with
    | none => []
    | some dataAnno =>
      let has (name : String) := (findLombokAnno input.classAnnotations name).isSome
      explicitFields.flatMap (gettersAndSetters input explicitMethods (has Annotations.getter)
          (has Annotations.setter)) ++
        (if has Annotations.toString then [] else [toStringOffer explicitMethods "Ljava/lang/String;"]) ++
        (if has Annotations.equalsAndHashCode then []
          else equalsAndHashCodeOffers (hasMethod explicitMethods "equals" "(Ljava/lang/Object;)Z")
            (hasMethod explicitMethods "hashCode" "()I")) ++
        (if hasExplicitConstructor input.classAnnotations explicitMethods then []
          else constructorOffers explicitMethods .requiredArgs
            (buildConstructorParams (getRequiredFields explicitFields)) .publicLevel
            (getStringParam dataAnno "staticConstructor"))
  else []

end DataRule

namespace ValueRule

def getters (input : SyntheticInput) (explicitMethods : List MethodSummary) (field : FieldSummary) :
    List Offer :=
  if isFieldStatic field then []
  else unlessForbidden (generateGetter input explicitMethods field)
    (findLombokAnno field.annotations Annotations.getter)

def offers (input : SyntheticInput) (explicitMethods : List MethodSummary) (explicitFields : List FieldSummary) :
    List Offer :=
  if isClassLike input.decl.kind then
    match findLombokAnno input.classAnnotations Annotations.value with
    | none => []
    | some valueAnno =>
      let has (name : String) := (findLombokAnno input.classAnnotations name).isSome
      (if has Annotations.getter then [] else explicitFields.flatMap (getters input explicitMethods)) ++
        (if has Annotations.toString then [] else [toStringOffer explicitMethods "Ljava/lang/String;"]) ++
        (if has Annotations.equalsAndHashCode then []
          else equalsAndHashCodeOffers (hasMethod explicitMethods "equals" "(Ljava/lang/Object;)Z")
            (hasMethod explicitMethods "hashCode" "()I")) ++
        (if hasExplicitConstructor input.classAnnotations explicitMethods then []
          else constructorOffers explicitMethods .allArgs
            (buildConstructorParams (getAllNonStaticFields explicitFields)) .publicLevel
            (getStringParam valueAnno "staticConstructor"))
  else []

end ValueRule

/-! ## `@Getter` and `@Setter` -/

namespace GetterSetterRule

/-- A lazy getter needs a final field. -/
def generateGetter (input : SyntheticInput) (explicitMethods : List MethodSummary) (field : FieldSummary)
    (anno : Option AnnotationSummary) : List Offer :=
  if (anno.map fun a => getBoolParam a "lazy" false).getD false && !isFieldFinal field then []
  else Language.generateGetter input explicitMethods field anno

def ofField (input : SyntheticInput) (explicitMethods : List MethodSummary)
    (classGetter classSetter : Option AnnotationSummary) (field : FieldSummary) : List Offer :=
  let fieldGetter := findLombokAnno field.annotations Annotations.getter
  let fieldSetter := findLombokAnno field.annotations Annotations.setter
  (if shouldGenerateForField field classGetter fieldGetter then
    generateGetter input explicitMethods field (fieldGetter.or classGetter) else []) ++
  (if !isFieldFinal field && shouldGenerateForField field classSetter fieldSetter then
    generateSetter input explicitMethods field (fieldSetter.or classSetter) else [])

def offers (input : SyntheticInput) (explicitMethods : List MethodSummary) (explicitFields : List FieldSummary) :
    List Offer :=
  if isClassLike input.decl.kind || input.decl.kind = "interface_declaration" then
    explicitFields.flatMap (ofField input explicitMethods
      (findLombokAnno input.classAnnotations Annotations.getter)
      (findLombokAnno input.classAnnotations Annotations.setter))
  else []

end GetterSetterRule

/-! ## `@ToString` and `@EqualsAndHashCode` -/

/-- The return type is not written as a descriptor here. -/
def ToStringRule.offers (input : SyntheticInput) (explicitMethods : List MethodSummary) : List Offer :=
  if isClassLike input.decl.kind && (findLombokAnno input.classAnnotations Annotations.toString).isSome then
    [toStringOffer explicitMethods "java/lang/String"]
  else []

namespace EqualsAndHashCodeRule

/-- `has_method` of this rule, which does not look at return types. -/
def hasEquals (explicitMethods : List MethodSummary) : Bool :=
  explicitMethods.any fun m => m.name = "equals" &&
    match m.params with
    | [param] => param.descriptor = "Ljava/lang/Object;" || param.descriptor = "LObject;"
    | _ => false

def hasHashCode (explicitMethods : List MethodSummary) : Bool :=
  explicitMethods.any fun m => m.name = "hashCode" && m.params.isEmpty

def offers (input : SyntheticInput) (explicitMethods : List MethodSummary) : List Offer :=
  if isClassLike input.decl.kind &&
      (findLombokAnno input.classAnnotations Annotations.equalsAndHashCode).isSome then
    equalsAndHashCodeOffers (hasEquals explicitMethods) (hasHashCode explicitMethods)
  else []

end EqualsAndHashCodeRule

/-! ## Constructor annotations -/

namespace ConstructorRule

def parseConstructorAccessLevel (anno : AnnotationSummary) : AccessLevel :=
  (((getAnnotationValue anno "access").bind AccessLevel.fromAnnotationValue).or
    ((getAnnotationValue anno "value").bind AccessLevel.fromAnnotationValue)).getD .publicLevel

/-- The constructor of one annotation. Enums have private constructors. -/
def annotationOffers (input : SyntheticInput) (explicitMethods : List MethodSummary)
    (constructorType : LombokConstructorType) (fields : List FieldSummary) (anno : AnnotationSummary) :
    List Offer :=
  constructorOffers explicitMethods constructorType (buildConstructorParams fields)
    (if input.decl.kind = "enum_declaration" then .privateLevel else parseConstructorAccessLevel anno)
    (getStringParam anno "staticName")

def noArgsOffers (input : SyntheticInput) (explicitMethods : List MethodSummary)
    (explicitFields : List FieldSummary) (anno : AnnotationSummary) : List Offer :=
  if !getBoolParam anno "force" false && hasUninitializedFinalFields explicitFields then []
  else annotationOffers input explicitMethods .noArgs [] anno

def offers (input : SyntheticInput) (explicitMethods : List MethodSummary) (explicitFields : List FieldSummary) :
    List Offer :=
  if isClassLike input.decl.kind then
    let find (name : String) := (findLombokAnno input.classAnnotations name).toList
    (find Annotations.noArgsConstructor).flatMap (noArgsOffers input explicitMethods explicitFields) ++
      (find Annotations.requiredArgsConstructor).flatMap
        (annotationOffers input explicitMethods .requiredArgs (getRequiredFields explicitFields)) ++
      (find Annotations.allArgsConstructor).flatMap
        (annotationOffers input explicitMethods .allArgs (getAllNonStaticFields explicitFields))
  else []

end ConstructorRule

/-! ## `@Builder` -/

namespace BuilderRule

def getClassName (decl : Cursor) : String :=
  ((decl.node.childByFieldName "name").map Node.text).getD ""

def methodExists (methods : List MethodSummary) (name descriptorStart : String) : Bool :=
  methods.any fun m => m.name = name && descriptorStart.toList.isPrefixOf m.desc.toList

def builderOffer (explicitMethods : List MethodSummary) (name builderClassName : String) (accessFlags : UInt16) :
    Offer where
  method := plainMethod name [] accessFlags (some ("L" ++ builderClassName ++ ";"))
  descriptor := "()L" ++ builderClassName ++ ";"
  origin := .lombokBuilder
  answered := methodExists explicitMethods name "()"

/-- The annotation of a class that gets a builder. -/
def builderAnno (input : SyntheticInput) : Option AnnotationSummary :=
  if input.decl.kind = "class_declaration" && getClassName input.decl ≠ "" then
    findLombokAnno input.classAnnotations Annotations.builder
  else none

def builderClassName (input : SyntheticInput) (anno : AnnotationSummary) : String :=
  (getStringParam anno "builderClassName").getD (getClassName input.decl ++ "Builder")

def generateBuilderClass (input : SyntheticInput) (explicitFields : List FieldSummary)
    (anno : AnnotationSummary) : ClassMetadata :=
  let ownerInternal := input.ownerInternal.getD (getClassName input.decl)
  let fields := getAllNonStaticFields explicitFields
  { package := some ""
    name := builderClassName input anno
    internalName := ownerInternal ++ "$" ++ builderClassName input anno
    superName := some "java/lang/Object"
    interfaces := []
    annotations := []
    methods := (fields.map fun field =>
        plainMethod field.name [{ descriptor := field.descriptor, name := field.name, annotations := [] }]
          accPublic (some ("L" ++ builderClassName input anno ++ ";"))) ++
      [plainMethod ((getStringParam anno "buildMethodName").getD "build") [] accPublic
        (some ("L" ++ ownerInternal ++ ";")),
       plainMethod "toString" [] accPublic (some "Ljava/lang/String;")]
    fields := fields.map fun field => plainField field.name field.descriptor 0
    accessFlags := (parseAccessLevel anno).toAccessFlags ||| accStatic
    genericSignature := none
    innerClassOf := some ownerInternal
    origin := .unknown }

def offers (input : SyntheticInput) (explicitMethods : List MethodSummary) : List Offer :=
  match builderAnno input with
  | none => []
  | some anno =>
    builderOffer explicitMethods ((getStringParam anno "builderMethodName").getD "builder")
        (builderClassName input anno) ((parseAccessLevel anno).toAccessFlags ||| accStatic) ::
      if getBoolParam anno "toBuilder" false then
        [builderOffer explicitMethods "toBuilder" (builderClassName input anno) accPublic]
      else []

def synthesize (input : SyntheticInput) (explicitMethods : List MethodSummary)
    (explicitFields : List FieldSummary) : SyntheticMemberSet :=
  { SyntheticMemberSet.pushed (offers input explicitMethods) with
    nestedClasses := ((builderAnno input).map (generateBuilderClass input explicitFields)).toList }

end BuilderRule

/-! ## `@With` -/

namespace WithRule

def shouldGenerateWithForField (field : FieldSummary)
    (classLevelAnno fieldLevelAnno : Option AnnotationSummary) : Bool :=
  !isFieldStatic field && (fieldLevelAnno.or classLevelAnno).any fun anno => parseAccessLevel anno ≠ .noneLevel

def withOffer (input : SyntheticInput) (explicitMethods : List MethodSummary) (field : FieldSummary)
    (anno : Option AnnotationSummary) : Offer :=
  let name := computeWithName input.toUppercase .new field.name
  let returnDescriptor := (input.ownerInternal.map fun owner => "L" ++ owner ++ ";").getD "Ljava/lang/Object;"
  let descriptor := "(" ++ field.descriptor ++ ")" ++ returnDescriptor
  { method := plainMethod name
      [{ descriptor := field.descriptor
         name := field.name
         annotations := if isFieldNonNull field then
           [{ internalName := Annotations.nonNull, runtimeVisible := true, elements := [] }] else [] }]
      (accessLevelOf anno).toAccessFlags (some returnDescriptor)
    descriptor := descriptor
    origin := .lombokWith field.name
    answered := hasMethod explicitMethods name descriptor }

/-- `@With`, else the deprecated `@Wither`. -/
def findWith (annotations : List AnnotationSummary) : Option AnnotationSummary :=
  (findLombokAnno annotations Annotations.withField).or (findLombokAnno annotations Annotations.wither)

def ofField (input : SyntheticInput) (explicitMethods : List MethodSummary) (field : FieldSummary) : List Offer :=
  let classAnno := findWith input.classAnnotations
  let fieldAnno := findWith field.annotations
  if shouldGenerateWithForField field classAnno fieldAnno then
    [withOffer input explicitMethods field (fieldAnno.or classAnno)]
  else []

def offers (input : SyntheticInput) (explicitMethods : List MethodSummary) (explicitFields : List FieldSummary) :
    List Offer :=
  if ["class_declaration", "record_declaration", "interface_declaration"].contains input.decl.kind then
    explicitFields.flatMap (ofField input explicitMethods)
  else []

end WithRule

/-! ## Logs -/

namespace LogRule

/-- The annotations of the frameworks and the types of their loggers, in the order of the search. -/
def frameworks : List (String × String) :=
  [("lombok/extern/slf4j/Slf4j", "Lorg/slf4j/Logger;"),
   ("lombok/extern/java/Log", "Ljava/util/logging/Logger;"),
   ("lombok/extern/log4j/Log4j", "Lorg/apache/log4j/Logger;"),
   ("lombok/extern/log4j/Log4j2", "Lorg/apache/logging/log4j/Logger;"),
   ("lombok/extern/apachecommons/CommonsLog", "Lorg/apache/commons/logging/Log;"),
   ("lombok/extern/jbosslog/JBossLog", "Lorg/jboss/logging/Logger;"),
   ("lombok/extern/flogger/Flogger", "Lcom/google/common/flogger/FluentLogger;"),
   ("lombok/extern/slf4j/XSlf4j", "Lorg/slf4j/ext/XLogger;")]

def findLoggerType (annotations : List AnnotationSummary) : Option String :=
  (frameworks.find? fun framework => (findLombokAnno annotations framework.1).isSome).map Prod.snd

def synthesize (input : SyntheticInput) (explicitFields : List FieldSummary) : SyntheticMemberSet :=
  let fieldName := LombokConfig.new.logFieldName
  if isClassLike input.decl.kind && !explicitFields.any fun f => f.name = fieldName then
    match findLoggerType input.classAnnotations with
    | none => {}
    | some loggerType =>
      { fields := [plainField fieldName loggerType
          (accPrivate ||| accFinal ||| if LombokConfig.new.logFieldIsStatic then accStatic else 0)]
        definitions := [{ kind := .field, name := fieldName, descriptor := some loggerType, origin := .lombokLog }] }
  else {}

end LogRule

end JavaAnalyzer.Language
