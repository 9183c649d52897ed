import JavaAnalyzer.Completion.OverrideProvider
import JavaAnalyzer.Completion.Scorer
import JavaAnalyzer.Semantic.ReceiverText
import JavaAnalyzer.Semantic.SymbolResolver

/-! # Members of a receiver

`MemberProvider::provide` of `language/java/completion/providers/member.rs`: the members that are offered behind a
receiver, a type or nothing, and the casts that go with them where the flow narrowed a local. How the type of a
receiver is found, and the texts that are only shown, are parameters (`Readers`). -/

namespace JavaAnalyzer.Completion

/-! ## Access -/

structure AccessFilter where
  hidePrivate : Bool
  hideSynthetic : Bool

namespace AccessFilter

def memberCompletion : AccessFilter := ⟨true, true⟩

def sameClass : AccessFilter := ⟨false, true⟩

/-- `is_method_accessible` and `is_field_accessible` -/
def isAccessible (filter : AccessFilter) (accessFlags : UInt16) (isSynthetic : Bool) : Bool :=
  !(filter.hidePrivate && OverrideProvider.hasFlag Language.accPrivate accessFlags) &&
    !(filter.hideSynthetic && isSynthetic)

end AccessFilter

/-! ## Candidates -/

namespace CompletionCandidate

def withDetail (c : CompletionCandidate) (detail : String) : CompletionCandidate :=
  { c with detail := some detail }

def withScore (c : CompletionCandidate) (score : ℚ) : CompletionCandidate :=
  { c with score := score }

def withFilterText (c : CompletionCandidate) (text : String) : CompletionCandidate :=
  { c with insertion := { c.insertion with filterText := some text } }

def withReplacementMode (c : CompletionCandidate) (mode : Lsp.ReplacementMode) : CompletionCandidate :=
  { c with insertion := { c.insertion with replacement := mode } }

def withMemberAccessCastRewrite (c : CompletionCandidate) (receiverExpr castType : String) : CompletionCandidate :=
  { c with insertion := { c.insertion with memberAccessRewrite := some ⟨receiverExpr, castType⟩ } }

end CompletionCandidate

namespace MemberProvider
set_option autoImplicit false
open Index JavaAnalyzer.Language Semantic Text OverrideProvider

/-! ## Places -/

inductive AccessReceiverKind where
  | unknown
  | expression
  | type (classInternalName : String)
deriving DecidableEq

inductive CursorLocation where
  | memberAccess (receiverKind : AccessReceiverKind) (receiverSemanticType : Option TypeName)
      (receiverType : Option String) (typed receiverExpr : String) (hasArguments : Bool)
  | expression (typed : String)
  | methodArgument (typed : String)
  | other

/-- What the provider reads of the place of the cursor. -/
structure SemanticContext where
  location : CursorLocation
  typedChainReceiver : Option TypeName
  enclosingClass : Option String
  enclosingInternalName : Option String
  effectivePackage : Option String
  localVariables : List SymbolResolver.LocalVar
  flowTypeOverrides : AList (fun _ : String => TypeName)
  currentClassMemberList : List CurrentClassMember
  enclosingClassMember : Option CurrentClassMember
  charAfterCursor : Option Char

structure Readers where
  provider : SymbolProvider
  tables : CaseTables
  /-- The pattern matcher, for a pattern that is not empty. -/
  fuzzyScore : String → String → Option ℕ
  resolveReceiverType : String → Option TypeName
  normalizeReceiverOwner : TypeName → TypeName
  /-- `to_internal_with_generics_for_substitution` -/
  substitutionText : TypeName → String
  sourceMethodLabel : MethodSummary → String
  sourceMemberDetail : CurrentClassMember → String
  /-- The names and the details of the classes in a class that are visible. -/
  visibleInnerClasses : String → List (String × String)

def memberFlags : CurrentClassMember → UInt16
  | .method m => m.accessFlags
  | .field f => f.accessFlags

def isStatic (member : CurrentClassMember) : Bool :=
  hasFlag accStatic (memberFlags member)

def isConstructorName (name : String) : Bool :=
  name ∈ ["<init>", "<clinit>"]

namespace SemanticContext

variable (ctx : SemanticContext)

def isInStaticContext : Bool :=
  ctx.enclosingClassMember.any isStatic

def isFollowedByOpener : Bool :=
  ctx.charAfterCursor.any fun c => c ∈ ['(', '<', '{', '[']

/-- `is_same_enclosing_class_internal` -/
def isSameEnclosingClass (classInternal : String) : Bool :=
  ctx.enclosingInternalName = some classInternal ||
    ctx.enclosingClass.any fun enclosingSimple =>
      String.ofList (afterLast '$' (afterLast '/' classInternal.toList)) = enclosingSimple &&
        match ctx.effectivePackage with
        | none => true
        | some pkg => String.ofList ((beforeLast '/' classInternal.toList).getD []) = pkg

/-- `is_likely_static_receiver` -/
def isLikelyStaticReceiver (expr : String) : Bool :=
  expr ∉ ["this", "super"] && '(' ∉ expr.toList && '.' ∉ expr.toList &&
    ctx.localVariables.all fun v => v.name ≠ expr

end SemanticContext

section

variable (readers : Readers) (view : IndexView) (ctx : SemanticContext)

/-! ## Matching -/

def fuzzyMatch (pattern candidate : String) : Option ℕ :=
  if pattern = "" then some 0 else readers.fuzzyScore pattern candidate

/-- A stable sort, the higher scores first. -/
def fuzzyFilterSort (pattern : String) (items : List CurrentClassMember) : List (CurrentClassMember × ℕ) :=
  (items.filterMap fun item => (fuzzyMatch readers pattern item.name).map fun score => (item, score)).mergeSort
    fun a b => b.2 ≤ a.2

/-- The name contains the text, in lower case. Where both are ASCII, whatever the case. -/
def nameMatchesMemberText (name : String) (lowered : Option (List Char)) : Bool :=
  match lowered with
  | none => true
  | some p =>
    if (name.toList ++ p).all fun c => c.val < 128 then containsText (p.map Char.toLower) (name.toList.map Char.toLower)
    else containsText p (readers.tables.toLowercase name.toList)

/-! ## Members of the file -/

def sourceCandidate (enclosing : String) (member : CurrentClassMember) (score : ℕ) : CompletionCandidate :=
  match member with
  | .method m =>
    ((((CompletionCandidate.new (readers.sourceMethodLabel m) m.name
      (if isStatic member then .staticMethod m.desc enclosing else .method m.desc enclosing) "member").withDetail
        (readers.sourceMemberDetail member)).withFilterText m.name).withScore (70 + score / 10)).withCallableInsert
          m.name (m.params.map MethodParam.name) ctx.isFollowedByOpener
  | .field f =>
    ((CompletionCandidate.new f.name f.name
      (if isStatic member then .staticField f.descriptor enclosing else .field f.descriptor enclosing)
      "member").withDetail (readers.sourceMemberDetail member)).withScore (70 + score / 10)

def provideSourceMembers (typed : String) (keep : CurrentClassMember → Bool) : List CompletionCandidate :=
  (fuzzyFilterSort readers typed (ctx.currentClassMemberList.filter fun member =>
    !isConstructorName member.name && keep member)).map fun p =>
      sourceCandidate readers ctx (ctx.enclosingInternalName.getD "") p.1 p.2

/-- `provide_from_source_members` -/
def provideFromSourceMembers (typed : String) (implicitReceiver : Bool) : List CompletionCandidate :=
  provideSourceMembers readers ctx typed fun member =>
    !(implicitReceiver && ctx.isInStaticContext && !isStatic member)

def provideStaticSourceMembers (typed : String) : List CompletionCandidate :=
  provideSourceMembers readers ctx typed isStatic

/-! ## Types -/

/-- The class text behind which static members are offered, and what is typed of the member. -/
def staticReceiver : Option (String × String) :=
  match ctx.location with
  | .memberAccess (.type classInternalName) _ _ typed _ _ => some (classInternalName, typed)
  | .memberAccess .unknown none none typed receiverExpr false =>
    if ctx.isLikelyStaticReceiver receiverExpr then some (receiverExpr, typed) else none
  | _ => none

/-- The class of a text: by internal name, or by simple name, one of the own package first. -/
def staticClass (text : String) : Option ClassMetadata :=
  (view.getClass text).or
    ((ctx.effectivePackage.bind fun pkg =>
      (view.getClassesBySimpleName text).find? fun c => c.package = some pkg).or
    (view.getClassesBySimpleName text).head?)

def staticMethodCandidate (c : ClassMetadata) (m : MethodSummary) (score : ℕ) : CompletionCandidate :=
  (((((CompletionCandidate.new (methodLabel readers.provider c.internalName c m) m.name
    (.staticMethod m.desc c.internalName) "member").withCallableInsert m.name (m.params.map MethodParam.name)
      ctx.isFollowedByOpener).withFilterText m.name).withDetail
        (methodDetail readers.provider c.internalName c m)).withScore (50 + score / 10))

def staticFieldCandidate (c : ClassMetadata) (f : FieldSummary) (score : ℕ) : CompletionCandidate :=
  ((CompletionCandidate.new f.name f.name (.staticField f.descriptor c.internalName) "member").withDetail
    (fieldDetail readers.provider c.internalName c f)).withScore (50 + score / 10)

def innerClassCandidate (inner : String × String) (score : ℕ) : CompletionCandidate :=
  ((((CompletionCandidate.new inner.1 inner.1 .className "member").withReplacementMode .memberSegment).withFilterText
    inner.1).withDetail inner.2).withScore (62 + score / 10)

def staticMembers (c : ClassMetadata) (typed : String) : List CompletionCandidate :=
  let filter := if ctx.isSameEnclosingClass c.internalName then AccessFilter.sameClass else .memberCompletion
  ((c.methods.filter fun m => !isConstructorName m.name && hasFlag accStatic m.accessFlags &&
      filter.isAccessible m.accessFlags m.isSynthetic).filterMap fun m =>
        (fuzzyMatch readers typed m.name).map (staticMethodCandidate readers ctx c m)) ++
    ((c.fields.filter fun f => hasFlag accStatic f.accessFlags &&
      filter.isAccessible f.accessFlags f.isSynthetic).filterMap fun f =>
        (fuzzyMatch readers typed f.name).map (staticFieldCandidate readers c f)) ++
    (readers.visibleInnerClasses c.internalName).filterMap fun inner =>
      (fuzzyMatch readers typed inner.1).map (innerClassCandidate inner)

def provideStaticAccess : Option (List CompletionCandidate) :=
  (staticReceiver ctx).map fun (text, typed) =>
    match staticClass view ctx text with
    | none => if ctx.enclosingClass = some text then provideStaticSourceMembers readers ctx typed else []
    | some c =>
      if ctx.isSameEnclosingClass c.internalName && !ctx.currentClassMemberList.isEmpty then
        provideStaticSourceMembers readers ctx typed
      else staticMembers readers ctx c typed

/-! ## Casts -/

structure FlowReceiverCastPlan where
  receiverExpr : String
  castType : String
  declaredType : TypeName

def renderCastType (ty : TypeName) : String :=
  String.ofList (ty.erasedInternal.toList.map fun c => if c = '/' ∨ c = '$' then '.' else c) ++ dims ty.arrayDims

def isSimpleIdentifier (expr : List Char) : Bool :=
  expr.head?.any (fun c => c.isAlpha || c = '_' || c = '$') && expr.all fun c => c.isAlphanum || c = '_' || c = '$'

def buildFlowReceiverCastPlan (receiverExpr : String) (resolvedEffective : TypeName) :
    Option FlowReceiverCastPlan :=
  let receiver := String.ofList (trim receiverExpr.toList)
  if isSimpleIdentifier receiver.toList then
    (ctx.flowTypeOverrides.lookup receiver).bind fun narrowed =>
      if narrowed.erasedInternal ≠ resolvedEffective.erasedInternal then none
      else (ctx.localVariables.find? fun v => v.name = receiver).bind fun v =>
        if v.typeInternal.erasedInternal = narrowed.erasedInternal then none
        else if (view.getClass v.typeInternal.erasedInternal).isNone ||
            (view.getClass narrowed.erasedInternal).isNone then none
        else some ⟨receiver, renderCastType narrowed, v.typeInternal⟩
  else none

def needsCastForMethod (declared : TypeName) (key : String × String) : Bool :=
  !(view.collectInheritedMembers declared.erasedInternal).1.any fun m => methodKey m = key

def needsCastForField (declared : TypeName) (key : String × String) : Bool :=
  !(view.collectInheritedMembers declared.erasedInternal).2.any fun f => (f.name, f.descriptor) = key

/-! ## Members of the hierarchy -/

/-- What the loops over the members are given. -/
structure Search where
  filter : AccessFilter
  typed : String
  useFuzzyMatch : Bool
  cast : Option FlowReceiverCastPlan
  allowStatic : Bool
  onlyStatic : Bool

/-- A score where patterns are matched, nothing but the fact where names contain the text. -/
def matchScore (search : Search) (name : String) : Option (Option ℕ) :=
  if search.useFuzzyMatch then (fuzzyMatch readers search.typed name).map some
  else if nameMatchesMemberText readers name
      (if search.typed = "" then none else some (readers.tables.toLowercase search.typed.toList)) then some none
  else none

/-- The texts of a receiver: its own and the one that types are substituted from. -/
structure ReceiverTexts where
  classInternal : String
  forSubstitution : String

def withOptions (c : CompletionCandidate) (search : Search) (needsCast : FlowReceiverCastPlan → Bool)
    (score : Option ℕ) : CompletionCandidate :=
  let cast := match search.cast with
    | some plan => if needsCast plan then c.withMemberAccessCastRewrite plan.receiverExpr plan.castType else c
    | none => c
  match score with
  | some score => cast.withScore (50 + score / 10)
  | none => cast

def methodCandidate (search : Search) (receiver : ReceiverTexts) (c : ClassMetadata) (m : MethodSummary)
    (score : Option ℕ) : CompletionCandidate :=
  withOptions ((((CompletionCandidate.new (methodLabel readers.provider receiver.forSubstitution c m) m.name
    (if hasFlag accStatic m.accessFlags then .staticMethod m.desc receiver.classInternal
      else .method m.desc receiver.classInternal) "member").withCallableInsert m.name (m.params.map MethodParam.name)
        ctx.isFollowedByOpener).withFilterText m.name).withDetail
          (methodDetail readers.provider receiver.forSubstitution c m))
    search (fun plan => needsCastForMethod view plan.declaredType (methodKey m)) score

def fieldCandidate (search : Search) (receiver : ReceiverTexts) (c : ClassMetadata) (f : FieldSummary)
    (score : Option ℕ) : CompletionCandidate :=
  withOptions ((CompletionCandidate.new f.name f.name
    (if hasFlag accStatic f.accessFlags then .staticField f.descriptor receiver.classInternal
      else .field f.descriptor receiver.classInternal) "member").withDetail
        (fieldDetail readers.provider receiver.forSubstitution c f))
    search (fun plan => needsCastForField view plan.declaredType (f.name, f.descriptor)) score

structure Gathered where
  results : List CompletionCandidate
  seenMethods : List (String × String)
  seenFields : List String

/-- The static members go with bare names and `this`, the others with all receivers outside of static code. -/
def staticAllowed (search : Search) (accessFlags : UInt16) : Bool :=
  if hasFlag accStatic accessFlags then search.allowStatic else !search.onlyStatic

def pushMemberMethodCandidate (search : Search) (receiver : ReceiverTexts) (c : ClassMetadata) (gathered : Gathered)
    (m : MethodSummary) : Gathered :=
  if isConstructorName m.name then gathered
  else if gathered.seenMethods.contains (methodKey m) then gathered
  else
    let gathered := { gathered with seenMethods := methodKey m :: gathered.seenMethods }
    if !search.filter.isAccessible m.accessFlags m.isSynthetic then gathered
    else match matchScore readers search m.name with
      | none => gathered
      | some score =>
        if !staticAllowed search m.accessFlags then gathered
        else { gathered with
          results := gathered.results ++ [methodCandidate readers view ctx search receiver c m score] }

def pushMemberFieldCandidate (search : Search) (receiver : ReceiverTexts) (c : ClassMetadata) (gathered : Gathered)
    (f : FieldSummary) : Gathered :=
  if f.name ∈ gathered.seenFields then gathered
  else
    let gathered := { gathered with seenFields := f.name :: gathered.seenFields }
    if !search.filter.isAccessible f.accessFlags f.isSynthetic then gathered
    else match matchScore readers search f.name with
      | none => gathered
      | some score =>
        if !staticAllowed search f.accessFlags then gathered
        else { gathered with results := gathered.results ++ [fieldCandidate readers view search receiver c f score] }

/-- The loop over the classes of one bound of the receiver. -/
def gatherBound (search : Search) (gathered : Gathered) (bound : TypeName) : Gathered :=
  let receiver : ReceiverTexts := ⟨String.ofList bound.internalWithGenerics, readers.substitutionText bound⟩
  (view.mro bound.erasedInternal).foldl (fun gathered c =>
    c.fields.foldl (pushMemberFieldCandidate readers view search receiver c)
      (c.methods.foldl (pushMemberMethodCandidate readers view ctx search receiver c) gathered)) gathered

/-- `provide_array_members` -/
def provideArrayMembers (typed : String) (receiver : TypeName) : List CompletionCandidate :=
  let search : Search := ⟨.memberCompletion, typed, false, none, false, false⟩
  let texts : ReceiverTexts := ⟨"java/lang/Object", readers.substitutionText receiver⟩
  let lengthField := if (matchScore readers search "length").isSome then
    [((CompletionCandidate.new "length" "length" (.field "I" "[array]") "member").withDetail
      "array intrinsic field — int length").withScore 90] else []
  let start : Gathered := ⟨lengthField, [], []⟩
  ((view.mro "java/lang/Object").foldl (fun (gathered : Gathered) (c : ClassMetadata) =>
    c.methods.foldl (pushMemberMethodCandidate readers view ctx search texts c) gathered) start).results

/-! ## The provider -/

/-- A receiver with a type: what is typed of the member, the type, and how it is written. -/
structure Receiver where
  semanticType : Option TypeName
  ownerInternal : Option String
  typed : String
  expr : String
  isBare : Bool

def receiverOf : Option Receiver :=
  match ctx.location with
  | .memberAccess _ semanticType receiverType typed expr _ =>
    some ⟨semanticType, (semanticType.map TypeName.erasedInternal).or receiverType, typed, expr, false⟩
  | .expression typed | .methodArgument typed => some ⟨none, none, typed, "", true⟩
  | .other => none

namespace Receiver

variable (r : Receiver)

def isThis : Bool := r.expr = "this"

def isSuper : Bool := trim r.expr.toList = "super".toList

def isImplicit : Bool := r.expr = ""

/-- The type that the receiver is found to have. -/
def resolvedOriginal : Option TypeName :=
  ((r.semanticType.or (r.ownerInternal.map TypeName.new)).or
    (if r.isThis || r.isSuper then none else ctx.typedChainReceiver)).or (readers.resolveReceiverType r.expr)

/-- The type whose members are offered. -/
def resolvedEffective (original : TypeName) : TypeName :=
  readers.normalizeReceiverOwner
    (if r.isThis || r.isSuper then original else ctx.typedChainReceiver.getD original)

def isSameClass (effective : TypeName) : Bool :=
  (r.isThis || r.isImplicit) && ctx.isSameEnclosingClass effective.erasedInternal

def search (effective : TypeName) : Search where
  filter := if r.isSameClass ctx effective then .sameClass else .memberCompletion
  typed := r.typed
  useFuzzyMatch := r.isBare
  cast := if r.isThis || r.isSuper then none else buildFlowReceiverCastPlan view ctx r.expr effective
  allowStatic := r.isThis || r.isImplicit
  onlyStatic := r.isImplicit && ctx.isInStaticContext

/-- The members of the file, where the receiver is the class around the cursor. -/
def sourceMembers : List CompletionCandidate :=
  if (r.isThis || r.isImplicit) && !ctx.currentClassMemberList.isEmpty then
    provideFromSourceMembers readers ctx r.typed r.isImplicit
  else []

end Receiver

/-- The name that a candidate's member has. -/
def memberName (c : CompletionCandidate) : String :=
  c.insertion.filterText.getD c.label

/-- The members of the file are seen. -/
def seed (candidates : List CompletionCandidate) : Gathered where
  results := candidates
  seenMethods := candidates.filterMap fun c =>
    match c.kind with
    | .method descriptor _ | .staticMethod descriptor _ => some (memberName c, descriptor)
    | _ => none
  seenFields := candidates.filterMap fun c =>
    match c.kind with
    | .field _ _ | .staticField _ _ => some c.label
    | _ => none

def provideFor (r : Receiver) : List CompletionCandidate :=
  if (r.isThis || r.isSuper) && ctx.isInStaticContext then []
  else match r.resolvedOriginal readers ctx with
    | none =>
      if r.isBare && !ctx.currentClassMemberList.isEmpty then provideFromSourceMembers readers ctx r.typed true else []
    | some original =>
      let effective := r.resolvedEffective readers ctx original
      if effective.isArray then provideArrayMembers readers view ctx r.typed effective
      else (effective.boundsForLookup.foldl (gatherBound readers view ctx (r.search view ctx effective))
        (seed (r.sourceMembers readers ctx))).results

def provide : List CompletionCandidate :=
  (provideStaticAccess readers view ctx).getD (((receiverOf ctx).map (provideFor readers view ctx)).getD [])

end

end MemberProvider

end JavaAnalyzer.Completion
