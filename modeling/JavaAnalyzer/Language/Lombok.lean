import JavaAnalyzer.Language.Members

/-! # Lombok annotations

Access levels, the parameters of annotations and the names of accessors of `language/java/lombok`. All rules
run on the empty configuration, of which the settings that they read are kept. `char::to_uppercase`, which gives
one or more characters, is a parameter. -/

namespace JavaAnalyzer.Language.Lombok
set_option autoImplicit false
open JavaAnalyzer.Index Text

/-! ## Access levels -/

inductive AccessLevel where
  | publicLevel
  | protectedLevel
  | packageLevel
  | privateLevel
  | moduleLevel
  | noneLevel
deriving DecidableEq

namespace AccessLevel

def toAccessFlags : AccessLevel → UInt16
  | publicLevel => accPublic
  | protectedLevel => accProtected
  | privateLevel => accPrivate
  | packageLevel | moduleLevel | noneLevel => 0

def fromAnnotationValue : AnnotationValue → Option AccessLevel
  | .enum _ "PUBLIC" => some publicLevel
  | .enum _ "PROTECTED" => some protectedLevel
  | .enum _ "PACKAGE" => some packageLevel
  | .enum _ "PRIVATE" => some privateLevel
  | .enum _ "MODULE" => some moduleLevel
  | .enum _ "NONE" => some noneLevel
  | _ => none

end AccessLevel

inductive LombokConstructorType where
  | noArgs
  | requiredArgs
  | allArgs
deriving DecidableEq

/-! ## Names of annotations -/

namespace Annotations

def getter : String := "lombok/Getter"

def setter : String := "lombok/Setter"

def toString : String := "lombok/ToString"

def equalsAndHashCode : String := "lombok/EqualsAndHashCode"

def noArgsConstructor : String := "lombok/NoArgsConstructor"

def requiredArgsConstructor : String := "lombok/RequiredArgsConstructor"

def allArgsConstructor : String := "lombok/AllArgsConstructor"

def data : String := "lombok/Data"

def value : String := "lombok/Value"

def builder : String := "lombok/Builder"

def withField : String := "lombok/With"

def wither : String := "lombok/experimental/Wither"

def nonNull : String := "lombok/NonNull"

def delegate : String := "lombok/experimental/Delegate"

end Annotations

/-! ## Reading annotations -/

/-- The annotation has the full internal name or its simple name. -/
def isLombokAnno (internalName : String) (anno : AnnotationSummary) : Bool :=
  anno.internalName = internalName || anno.internalName.toList = afterLast '/' internalName.toList

/-- `find_lombok_annotation` -/
def findLombokAnno (annotations : List AnnotationSummary) (internalName : String) :
    Option AnnotationSummary :=
  annotations.find? (isLombokAnno internalName)

/-- `has_lombok_annotation` -/
def hasLombokAnno (annotations : List AnnotationSummary) (internalName : String) : Bool :=
  annotations.any (isLombokAnno internalName)

def getAnnotationValue (anno : AnnotationSummary) (key : String) : Option AnnotationValue :=
  anno.elements.lookup key

def parseAccessLevel (anno : AnnotationSummary) : AccessLevel :=
  ((getAnnotationValue anno "value").bind AccessLevel.fromAnnotationValue).getD .publicLevel

/-- The access of an annotation, public without one. -/
def accessLevelOf (anno : Option AnnotationSummary) : AccessLevel :=
  (anno.map parseAccessLevel).getD .publicLevel

def getBoolParam (anno : AnnotationSummary) (key : String) (default : Bool) : Bool :=
  match getAnnotationValue anno key with
  | some (.boolean b) => b
  | _ => default

def getStringParam (anno : AnnotationSummary) (key : String) : Option String :=
  match getAnnotationValue anno key with
  | some (.string s) => some s
  | _ => none

/-- `matches_field_in_array` -/
def matchesFieldInArray (fieldName : String) : AnnotationValue → Bool
  | .string s => s = fieldName
  | .array items => items.any fun
    | .string s => s = fieldName
    | _ => false
  | _ => false

def isFieldExcluded (fieldName : String) (anno : AnnotationSummary) : Bool :=
  (getAnnotationValue anno "exclude").any (matchesFieldInArray fieldName) ||
    (getAnnotationValue anno "of").any fun value => !matchesFieldInArray fieldName value

/-! ## Fields -/

def isFieldStatic (field : FieldSummary) : Bool :=
  field.accessFlags &&& accStatic ≠ 0

def isFieldFinal (field : FieldSummary) : Bool :=
  field.accessFlags &&& accFinal ≠ 0

def isFieldNonNull (field : FieldSummary) : Bool :=
  hasLombokAnno field.annotations Annotations.nonNull

/-- A getter or a setter is asked for by the annotation of the field, else by that of the class. -/
def shouldGenerateForField (field : FieldSummary) (classLevelAnno fieldLevelAnno : Option AnnotationSummary) :
    Bool :=
  match fieldLevelAnno with
  | some anno => parseAccessLevel anno ≠ .noneLevel
  | none =>
    if isFieldStatic field then false
    else
      match classLevelAnno with
      | some anno => !isFieldExcluded field.name anno && parseAccessLevel anno ≠ .noneLevel
      | none => false

/-! ## Settings -/

structure LombokConfig where
  settings : AList fun _ : String => String

namespace LombokConfig

def new : LombokConfig :=
  ⟨∅⟩

variable (config : LombokConfig)

def get (key : String) : Option String :=
  config.settings.lookup key

def getBool (key : String) : Option Bool :=
  (config.get key).bind fun
    | "true" => some true
    | "false" => some false
    | _ => none

def accessorsFluent : Bool :=
  (config.getBool "lombok.accessors.fluent").getD false

def accessorsPrefixes : List (List Char) :=
  ((config.get "lombok.accessors.prefix").map fun s =>
    ((s.toList.splitOn ';').map trim).filter fun p => !p.isEmpty).getD []

def logFieldName : String :=
  (config.get "lombok.log.fieldName").getD "log"

def logFieldIsStatic : Bool :=
  (config.getBool "lombok.log.fieldIsStatic").getD true

end LombokConfig

/-! ## Names of accessors -/

section

variable (toUppercase : Char → List Char) (config : LombokConfig)

def capitalizeFirst : List Char → List Char
  | [] => []
  | first :: rest => toUppercase first ++ rest

/-- The first prefix that leaves something is taken off. -/
def stripFieldPrefix (fieldName : List Char) : List Char :=
  (config.accessorsPrefixes.findSome? fun p =>
    if p.isPrefixOf fieldName && p.length < fieldName.length then some (fieldName.drop p.length)
    else none).getD fieldName

def computeGetterName (fieldName fieldDescriptor : String) : String :=
  let baseName := stripFieldPrefix config fieldName.toList
  if config.accessorsFluent then String.ofList baseName
  else (if fieldDescriptor = "Z" then "is" else "get") ++ String.ofList (capitalizeFirst toUppercase baseName)

def computeSetterName (fieldName : String) : String :=
  let baseName := stripFieldPrefix config fieldName.toList
  if config.accessorsFluent then String.ofList baseName
  else "set" ++ String.ofList (capitalizeFirst toUppercase baseName)

def computeWithName (fieldName : String) : String :=
  "with" ++ String.ofList (capitalizeFirst toUppercase (stripFieldPrefix config fieldName.toList))

end

end JavaAnalyzer.Language.Lombok
