import JavaAnalyzer.Completion.Candidate
import JavaAnalyzer.Completion.GeneratedBodies
import JavaAnalyzer.Completion.ImportUtils
import JavaAnalyzer.Index.HierarchyReach
import JavaAnalyzer.Language.Render

/-! # Methods to override

`OverrideProvider::provide` of `language/java/completion/providers/override_member.rs`: which methods of the ancestors
of a class it offers, and the candidates it builds for them. `MayOverride` says which methods the class may override
(JLS 8.4.8). -/

namespace JavaAnalyzer.Completion.OverrideProvider
set_option autoImplicit false
open Index IndexView JavaAnalyzer.Language Jvm Text

/-- What the provider reads of the place of the cursor. -/
structure SemanticContext where
  isClassMemberPosition : Bool
  /-- What is typed where an expression stands, `none` in any other location. -/
  expressionText : Option String
  enclosingInternalName : Option String
  enclosingClass : Option String
  currentClassMemberList : List CurrentClassMember
  charAfterCursor : Option Char

def SemanticContext.isFollowedByOpener (ctx : SemanticContext) : Bool :=
  ctx.charAfterCursor.any fun c => c ∈ ['(', '<', '{', '[']

/-! ## The filters -/

def accInterface : UInt16 := 0x0200

def hasFlag (flag flags : UInt16) : Bool :=
  flags &&& flag ≠ 0

/-- The name and the descriptor. -/
def methodKey (m : MethodSummary) : String × String :=
  (m.name, m.desc)

def isOverridable (m : MethodSummary) : Bool :=
  m.name ∉ ["<init>", "<clinit>"] && !m.isSynthetic && !hasFlag accPrivate m.accessFlags &&
    !hasFlag accStatic m.accessFlags && !hasFlag accFinal m.accessFlags

/-- At least two bytes of the front of `public` or `protected`. -/
def isAccessModifierText (typed : String) : Bool :=
  let p := trim typed.toList
  2 ≤ TextLines.byteLength p && (p.isPrefixOf "public".toList || p.isPrefixOf "protected".toList)

def collectCurrentClassMethods (view : IndexView) (enclosing : String) : List (String × String) :=
  ((view.getClass enclosing).map fun c => c.methods.map methodKey).getD []

def countParams (descriptor : String) : ℕ :=
  (splitParamDescriptors descriptor.toList).length

/-- `blocked_by_source`: a method of this name in the source has as many parameters, or no descriptor. -/
def blockedBySource (ctx : SemanticContext) (m : MethodSummary) : Bool :=
  (methodsOf ctx.currentClassMemberList).any fun own =>
    own.name = m.name && (own.desc.isEmpty || countParams own.desc = m.params.length)

/-- What the method of an ancestor has to pass. -/
def passes (view : IndexView) (ctx : SemanticContext) (enclosing : String) (m : MethodSummary) : Bool :=
  isOverridable m && !(collectCurrentClassMethods view enclosing).contains (methodKey m) && !blockedBySource ctx m

/-- `parse_strict_method_signature`: the parameter types and the return type, where all of them are resolved. -/
def parseStrictMethodSignature (provider : SymbolProvider) (descriptor : List Char) :
    Option (List String × String) := do
  let inner ← paramText descriptor
  let split ← splitOnce ')' descriptor
  let params ← (descriptorTypes inner).mapM (descriptorToSourceType provider)
  let returned ← descriptorToSourceType provider split.2
  return (params, returned)

/-- A method of an ancestor with its types in the source. -/
structure Offered where
  owner : ClassMetadata
  method : MethodSummary
  params : List String
  returnType : String

def declarations (c : ClassMetadata) : List (ClassMetadata × MethodSummary) :=
  c.methods.map fun m => (c, m)

/-- The loop of `provide`: the methods that candidates are built for. -/
def offeredMethods (provider : SymbolProvider) (view : IndexView) (ctx : SemanticContext) (enclosing : String) :
    List Offered :=
  (Dedup.dedupBy (fun d => methodKey d.2) [] ((((view.mro enclosing).drop 1).flatMap declarations).filter fun d =>
    passes view ctx enclosing d.2)).filterMap fun d =>
      (parseStrictMethodSignature provider d.2.desc.toList).map fun signature => ⟨d.1, d.2, signature.1, signature.2⟩

/-! ## Bodies -/

inductive OverrideBodyStrategy where
  | interfaceThrow
  | superCall
  | objectEquals
  | objectHashCode
  | objectToString
deriving DecidableEq

def classifyBodyStrategy (m : MethodSummary) (definingClass : ClassMetadata) : OverrideBodyStrategy :=
  if definingClass.internalName = "java/lang/Object" then
    if methodKey m = ("equals", "(Ljava/lang/Object;)Z") then .objectEquals
    else if methodKey m = ("hashCode", "()I") then .objectHashCode
    else if methodKey m = ("toString", "()Ljava/lang/String;") then .objectToString
    else .superCall
  else if hasFlag accInterface definingClass.accessFlags then .interfaceThrow
  else .superCall

/-- The types and names of the parameters. -/
def buildParamBindings (m : MethodSummary) (paramsSource : List String) (strategy : OverrideBodyStrategy) :
    List (String × String) :=
  (paramsSource.mapIdx fun i ty =>
    (ty, if strategy = .objectEquals ∧ i = 0 then "o" else "arg" ++ toString i)).take m.params.length

def renderParamDeclarations (bindings : List (String × String)) : String :=
  ", ".intercalate (bindings.map fun param => param.1 ++ " " ++ param.2)

def buildSuperCallBody (m : MethodSummary) (bindings : List (String × String)) : String :=
  let call := "super." ++ m.name ++ "(" ++ ", ".intercalate (bindings.map Prod.snd) ++ ")"
  if m.returnType.isSome then "return " ++ call ++ ";" else call ++ ";"

def selectToStringFields (fields : List FieldSummary) : List FieldSummary :=
  fields.filter fun field => !field.isSynthetic && !hasFlag accStatic field.accessFlags &&
    field.name.toList.head? ≠ some '$'

def fieldToStringExpr (field : FieldSummary) : String :=
  match descriptorArrayDepth field.descriptor with
  | 0 => "this." ++ field.name
  | 1 => "java.util.Arrays.toString(this." ++ field.name ++ ")"
  | _ => "java.util.Arrays.deepToString(this." ++ field.name ++ ")"

def buildToStringBody (currentClassName : String) (fields : List FieldSummary) : String :=
  let printable := selectToStringFields fields
  if printable.isEmpty then "return \"" ++ currentClassName ++ "\x7b\x7d\";"
  else
    "\n".intercalate (("return \"" ++ currentClassName ++ "\x7b\" +") ::
      (printable.mapIdx fun i field => "        \"" ++ (if i = 0 then "" else ", ") ++ field.name ++ "=\" + " ++
        fieldToStringExpr field ++ " +") ++ ["        '\x7d';"])

def buildMethodBody (strategy : OverrideBodyStrategy) (m : MethodSummary) (bindings : List (String × String))
    (fields : List FieldSummary) (currentClassName : String) : String :=
  match strategy with
  | .interfaceThrow => "throw new RuntimeException(\"Not implemented yet\");"
  | .superCall => buildSuperCallBody m bindings
  | .objectEquals => buildEqualsBody currentClassName fields
  | .objectHashCode => buildHashCodeBody fields
  | .objectToString => buildToStringBody currentClassName fields

def indentBlock (block : String) (spaces : ℕ) : String :=
  "\n".intercalate ((TextPlaces.strLines block.toList).map fun line =>
    .ofList (List.replicate spaces ' ' ++ line))

/-! ## Candidates -/

def collectCurrentClassFields (view : IndexView) (ctx : SemanticContext) (enclosing : String) : List FieldSummary :=
  let sourceFields := fieldsOf ctx.currentClassMemberList
  if sourceFields.isEmpty then ((view.getClass enclosing).map ClassMetadata.fields).getD [] else sourceFields

/-- The last piece between slashes and dollar signs. -/
def lastPiece (s : List Char) : List Char :=
  (s.reverse.takeWhile fun c => c ≠ '/' && c ≠ '$').reverse

def currentClassName (view : IndexView) (ctx : SemanticContext) (enclosing : String) : String :=
  (ctx.enclosingClass.or ((view.getClass enclosing).map ClassMetadata.name)).getD (.ofList (lastPiece enclosing.toList))

def visibility (m : MethodSummary) : String :=
  if hasFlag accPublic m.accessFlags then "public"
  else if hasFlag accProtected m.accessFlags then "protected"
  else ""

def buildCandidate (view : IndexView) (ctx : SemanticContext) (fields : List FieldSummary) (className : String)
    (offered : Offered) : CompletionCandidate :=
  let m := offered.method
  let strategy := classifyBodyStrategy m offered.owner
  let bindings := buildParamBindings m offered.params strategy
  let params := renderParamDeclarations bindings
  let label := String.ofList (trim
    (visibility m ++ " " ++ offered.returnType ++ " " ++ m.name ++ "(" ++ params ++ ")").toList)
  let head := "@Override\n" ++ (if visibility m = "" then "" else visibility m ++ " ") ++ offered.returnType
  let insertText :=
    if ctx.isFollowedByOpener then head ++ "  " ++ m.name ++ "("
    else head ++ " " ++ m.name ++ "(" ++ params ++ ") \x7b\n" ++
      indentBlock (buildMethodBody strategy m bindings fields className) 4 ++ "\n\x7d"
  let display := (view.getSourceTypeName offered.owner.internalName).getD (.ofList
    (offered.owner.internalName.toList.map fun c => if c ∈ ['/', '$'] then '.' else c))
  let base := CompletionCandidate.new label insertText (.method m.desc offered.owner.internalName) "override"
  { base with
    insertion := { base.insertion with replacement := .accessModifierPrefix, filterText := some label }
    detail := some ("@Override — " ++ display)
    score := 65 }

def candidatesFor (provider : SymbolProvider) (view : IndexView) (ctx : SemanticContext) (enclosing : String) :
    List CompletionCandidate :=
  (offeredMethods provider view ctx enclosing).map
    (buildCandidate view ctx (collectCurrentClassFields view ctx enclosing) (currentClassName view ctx enclosing))

def provide (provider : SymbolProvider) (view : IndexView) (ctx : SemanticContext) : List CompletionCandidate :=
  match ctx.isClassMemberPosition, ctx.expressionText, ctx.enclosingInternalName with
  | true, some typed, some enclosing =>
    if isAccessModifierText typed then candidatesFor provider view ctx enclosing else []
  | _, _, _ => []

/-! ## What a class may override -/

def isInterface (c : ClassMetadata) : Bool :=
  hasFlag accInterface c.accessFlags

/-- A method that can be inherited: no constructor, no bridge, neither private nor static. -/
def isInstanceMethod (m : MethodSummary) : Bool :=
  m.name ∉ ["<init>", "<clinit>"] && !m.isSynthetic && !hasFlag accPrivate m.accessFlags &&
    !hasFlag accStatic m.accessFlags

structure IsAncestor (view : IndexView) (enclosing : String) (c : ClassMetadata) : Prop where
  found : view.getClass c.internalName = some c
  reached : view.ReachesClass enclosing c.internalName
  ne : c.internalName ≠ enclosing

structure Declaration where
  owner : ClassMetadata
  method : MethodSummary
deriving DecidableEq

def Declaration.key (d : Declaration) : String × String :=
  methodKey d.method

/-- A method of a class can be seen in another class. -/
def Declaration.AccessibleIn (d : Declaration) (c : ClassMetadata) : Prop :=
  isInterface d.owner ∨ hasFlag accPublic d.method.accessFlags ∨ hasFlag accProtected d.method.accessFlags ∨
    c.package = d.owner.package

section Rules

-- `subsignature owner m owner' m'`: the signature of one method, as a member of its class, is a subsignature of the
-- other's (JLS 8.4.2).
variable (view : IndexView) (subsignature : String → MethodSummary → String → MethodSummary → Prop) (enclosing : String)

structure DeclaredAbove (d : Declaration) : Prop where
  ancestor : IsAncestor view enclosing d.owner
  declared : d.method ∈ d.owner.methods

/-- The method of one ancestor overrides the method of another (JLS 8.4.8.1 and 9.4.1.1). -/
structure Overrides (o d : Declaration) : Prop where
  below : view.ReachesClass o.owner.internalName d.owner.internalName
  ne : o.owner.internalName ≠ d.owner.internalName
  kind : isInterface o.owner → isInterface d.owner
  instanceMethod : isInstanceMethod o.method
  accessible : d.AccessibleIn o.owner
  signature : subsignature o.owner.internalName o.method d.owner.internalName d.method

/-- The method comes down to the class along its superclasses and interfaces. -/
structure Reaches (d : Declaration) : Prop extends DeclaredAbove view enclosing d where
  instanceMethod : isInstanceMethod d.method
  accessible : ∀ c, view.getClass c.internalName = some c → view.ReachesClass enclosing c.internalName →
    view.ReachesClass c.internalName d.owner.internalName → isInterface c = false → d.AccessibleIn c
  notOverridden : ∀ o, DeclaredAbove view enclosing o → ¬ Overrides view subsignature o d

/-- The method is inherited: a concrete method of a superclass is in front of an interface's (JLS 8.4.8). -/
structure Inherited (d : Declaration) : Prop extends Reaches view subsignature enclosing d where
  notImplemented : isInterface d.owner → ∀ o, Reaches view subsignature enclosing o → isInterface o.owner = false →
    hasFlag accAbstract o.method.accessFlags = false →
      ¬ subsignature o.owner.internalName o.method d.owner.internalName d.method

/-- The methods of the source class: those of its text, and those that the index has of it. -/
def ownMethods (ctx : SemanticContext) : List MethodSummary :=
  methodsOf ctx.currentClassMemberList ++ ((view.getClass enclosing).map ClassMetadata.methods).getD []

/-- An inherited method that is not final and that the source class does not override yet. -/
structure MayOverride (ctx : SemanticContext) (d : Declaration) : Prop
    extends Inherited view subsignature enclosing d where
  notFinal : hasFlag accFinal d.method.accessFlags = false
  notYet : ∀ m ∈ ownMethods view enclosing ctx, ¬ subsignature enclosing m d.owner.internalName d.method

/-- The offered names and descriptors are those of the methods the class may override, each once. -/
structure OffersExactly (ctx : SemanticContext) (offered : List (String × String)) : Prop where
  once : offered.Nodup
  mem_iff : ∀ key, key ∈ offered ↔ ∃ d, MayOverride view subsignature enclosing ctx d ∧ d.key = key

/-- The methods of the ancestors, the nearest with each name and generic signature, where the class has none of them. -/
def nearestMethods : List MethodSummary :=
  Dedup.dedupBy MethodSummary.shadowKey
    ((((view.hierarchyClasses enclosing).head?.map ClassMetadata.methods).getD []).map MethodSummary.shadowKey)
    (((view.hierarchyClasses enclosing).drop 1).flatMap ClassMetadata.methods)

/-- The flags, the own names with descriptors and the own numbers of parameters let through what the rules let. -/
structure FiltersAgree (ctx : SemanticContext) : Prop where
  allowed : ∀ m ∈ nearestMethods view enclosing, passes view ctx enclosing m →
    ∃ d, MayOverride view subsignature enclosing ctx d ∧ d.key = methodKey m
  complete : ∀ d, MayOverride view subsignature enclosing ctx d →
    ∃ m ∈ nearestMethods view enclosing, methodKey m = d.key ∧ passes view ctx enclosing m

end Rules

/-! ## The offered methods -/

section Offered

variable {view : IndexView} {enclosing : String} {ctx : SemanticContext} {provider : SymbolProvider}

/-- Behind the class itself the order keeps the nearest methods. -/
theorem mro_methods (view : IndexView) (enclosing : String) :
    ((view.mro enclosing).drop 1).flatMap ClassMetadata.methods = nearestMethods view enclosing := by
  rw [nearestMethods, mro, hierarchyClasses]
  cases horder : view.hierarchyOrder enclosing with
  | nil => rfl
  | cons classRef order =>
    have hmem : classRef ∈ view.hierarchyOrder enclosing := horder ▸ List.mem_cons_self
    obtain ⟨c, hreads, -⟩ := reads_hierarchyOrder hmem
    rw [projectHierarchyClasses, hreads.resolve, resolveClassRefs, List.filterMap_cons_some hreads.resolve]
    refine (projectHierarchyClasses_methods _ _ order).trans ?_
    simp only [List.append_nil, List.head?_cons, Option.map_some, Option.getD_some, List.drop_one, List.tail_cons]
    rfl

theorem getClass_of_mem_hierarchyClasses {c : ClassMetadata} (h : c ∈ view.hierarchyClasses enclosing) :
    view.getClass c.internalName = some c := by
  obtain ⟨classRef, horder, hresolve⟩ := List.mem_filterMap.mp h
  obtain ⟨c', hreads, hget⟩ := reads_hierarchyOrder horder
  obtain rfl := Option.some.inj (hreads.resolve.symm.trans hresolve)
  rw [getClass, hget, Option.bind_some, hreads.resolve]

/-- The ancestors are what the order holds behind the class itself. -/
theorem isAncestor_iff {c : ClassMetadata} :
    IsAncestor view enclosing c ↔ c ∈ (view.hierarchyClasses enclosing).drop 1 := by
  have hlists := (hierarchyOrder_lists view enclosing).2
  cases hclasses : view.hierarchyClasses enclosing with
  | nil =>
    rw [hclasses] at hlists
    refine ⟨fun h => absurd ((hlists.mem_iff _).mpr h.reached) List.not_mem_nil, fun h => absurd h List.not_mem_nil⟩
  | cons first rest =>
    rw [hclasses] at hlists
    have hreached : view.ReachesClass enclosing first.internalName := (hlists.mem_iff _).mp List.mem_cons_self
    obtain rfl : first.internalName = enclosing := Option.some.inj (hlists.head hreached.start_found)
    rw [List.drop_one, List.tail_cons]
    constructor
    · intro h
      obtain ⟨c', hc', hname⟩ := List.mem_map.mp ((hlists.mem_iff _).mpr h.reached)
      have hfound := getClass_of_mem_hierarchyClasses (hclasses ▸ hc')
      rw [hname] at hfound
      obtain rfl := Option.some.inj (h.found.symm.trans hfound)
      exact (List.mem_cons.mp hc').resolve_left fun he => h.ne (congrArg ClassMetadata.internalName he)
    · intro h
      have hmem : c ∈ first :: rest := List.mem_cons_of_mem first h
      refine ⟨getClass_of_mem_hierarchyClasses (hclasses ▸ hmem), (hlists.mem_iff _).mp (List.mem_map_of_mem hmem), ?_⟩
      intro he
      have hnodup := hlists.nodup
      rw [List.map_cons, List.nodup_cons] at hnodup
      exact hnodup.1 (he ▸ List.mem_map_of_mem h)

theorem declaredAbove_of_nearest {m : MethodSummary} (h : m ∈ nearestMethods view enclosing) :
    ∃ d, DeclaredAbove view enclosing d ∧ d.method = m := by
  obtain ⟨c, hc, hm⟩ := List.mem_flatMap.mp ((Dedup.dedupBy_sublist _ _).subset h)
  exact ⟨⟨c, m⟩, ⟨isAncestor_iff.mpr hc, hm⟩, rfl⟩

theorem declarations_methods (classes : List ClassMetadata) :
    (classes.flatMap declarations).map Prod.snd = classes.flatMap ClassMetadata.methods := by
  rw [List.map_flatMap]
  refine List.flatMap_congr fun c _ => ?_
  rw [declarations, List.map_map]
  exact List.map_id _

theorem map_offered {declared : List (ClassMetadata × MethodSummary)}
    (h : ∀ d ∈ declared, (parseStrictMethodSignature provider d.2.desc.toList).isSome) :
    (declared.filterMap fun d => (parseStrictMethodSignature provider d.2.desc.toList).map fun signature =>
      (⟨d.1, d.2, signature.1, signature.2⟩ : Offered)).map (fun o => methodKey o.method) =
        declared.map fun d => methodKey d.2 := by
  induction declared with
  | nil => rfl
  | cons d declared ih =>
    obtain ⟨signature, hsignature⟩ := Option.isSome_iff_exists.mp (h d List.mem_cons_self)
    rw [List.filterMap_cons_some (by rw [hsignature, Option.map_some]), List.map_cons, List.map_cons,
      ih fun e he => h e (List.mem_cons_of_mem d he)]

/-- Every method that passes the filters is offered once, where its types are resolved. -/
theorem offered_keys
    (hresolve : ∀ d, DeclaredAbove view enclosing d →
      (parseStrictMethodSignature provider d.method.desc.toList).isSome) :
    let offered := (offeredMethods provider view ctx enclosing).map fun o => methodKey o.method
    offered.Nodup ∧ ∀ key, key ∈ offered ↔
      ∃ m ∈ nearestMethods view enclosing, methodKey m = key ∧ passes view ctx enclosing m := by
  intro offered
  have hoffered : offered = (Dedup.dedupBy methodKey []
      ((nearestMethods view enclosing).filter (passes view ctx enclosing))).map methodKey := by
    rw [← mro_methods, ← declarations_methods, List.filter_map, Dedup.dedupBy_map, List.map_map]
    have hsome : ∀ d ∈ Dedup.dedupBy (fun d => methodKey d.2) [] ((((view.mro enclosing).drop 1).flatMap
        declarations).filter fun d => passes view ctx enclosing d.2),
        (parseStrictMethodSignature provider d.2.desc.toList).isSome := by
      intro d hd
      have hmem := List.mem_map_of_mem (f := Prod.snd) (List.mem_filter.mp ((Dedup.dedupBy_sublist _ _).subset hd)).1
      rw [declarations_methods, mro_methods] at hmem
      obtain ⟨e, he, hmethod⟩ := declaredAbove_of_nearest hmem
      exact hmethod ▸ hresolve e he
    exact map_offered hsome
  rw [hoffered]
  refine ⟨Dedup.nodup_map_dedupBy _ _, fun key => ?_⟩
  constructor
  · intro h
    obtain ⟨m, hm, rfl⟩ := List.mem_map.mp h
    obtain ⟨hnear, hpass⟩ := List.mem_filter.mp ((Dedup.dedupBy_sublist _ _).subset hm)
    exact ⟨m, hnear, rfl, hpass⟩
  · rintro ⟨m, hnear, rfl, hpass⟩
    obtain ⟨m', hm', hkey⟩ := @Dedup.exists_mem_dedupBy _ _ _ methodKey _ _ (List.mem_filter.mpr ⟨hnear, hpass⟩)
    exact hkey ▸ List.mem_map_of_mem hm'

end Offered

section Examples

/-- The subsignatures where no class is generic: the same name and the same parameter types. -/
def sameParameters (_ : String) (m : MethodSummary) (_ : String) (m' : MethodSummary) : Prop :=
  m.name = m'.name ∧ m.params.map MethodParam.descriptor = m'.params.map MethodParam.descriptor

instance (owner owner' : String) (m m' : MethodSummary) : Decidable (sameParameters owner m owner' m') :=
  inferInstanceAs (Decidable (_ ∧ _))

/-- `public int compute(..)` with one parameter -/
def computeOf (descriptor : String) : MethodSummary :=
  ⟨"compute", [⟨descriptor, "arg0", []⟩], [], accPublic, false, none, some "I"⟩

theorem isInstanceMethod_computeOf (descriptor : String) : isInstanceMethod (computeOf descriptor) = true := by
  have h : isInstanceMethod (computeOf "I") = true := by decide
  exact h

def computeParent : ClassMetadata :=
  { ClassMetadata.bare (some "com/example") "Parent" "com/example/Parent" none (.jar "lib.jar") with
    methods := [computeOf "I", computeOf "Ljava/lang/String;"] }

def computeView : IndexView :=
  .new [BucketIndex.new.addArchiveClasses [.bare (some "java/lang") "String" "java/lang/String" none (.jar "lib.jar"),
    computeParent, { ClassMetadata.bare (some "com/example") "Child" "com/example/Child" none (.jar "lib.jar") with
      superName := some "com/example/Parent" }]]

def computeCtx (members : List CurrentClassMember) : SemanticContext :=
  ⟨true, some "pub", some "com/example/Child", some "Child", members, none⟩

theorem ancestor_computeView {c : ClassMetadata} (h : IsAncestor computeView "com/example/Child" c) :
    c = computeParent := by
  have hancestors : (computeView.hierarchyClasses "com/example/Child").drop 1 = [computeParent] := by decide
  rw [isAncestor_iff, hancestors] at h
  exact List.mem_singleton.mp h

theorem computeParent_ancestor : IsAncestor computeView "com/example/Child" computeParent :=
  isAncestor_iff.mpr (by decide)

/-- What the parent declares can be overridden where the child declares no method with these parameters. -/
theorem mayOverride_compute {members : List CurrentClassMember} {descriptor : String}
    (hdeclared : computeOf descriptor ∈ computeParent.methods)
    (hnew : ∀ m ∈ methodsOf members, ¬ sameParameters "" m "" (computeOf descriptor)) :
    MayOverride computeView sameParameters "com/example/Child" (computeCtx members)
      ⟨computeParent, computeOf descriptor⟩ where
  ancestor := computeParent_ancestor
  declared := hdeclared
  instanceMethod := isInstanceMethod_computeOf descriptor
  accessible _ _ _ _ _ := .inr (.inl (by decide : hasFlag accPublic accPublic = true))
  notOverridden o hoverrider h := h.ne (congrArg ClassMetadata.internalName (ancestor_computeView hoverrider.ancestor))
  notImplemented h := absurd h (by decide : ¬ isInterface computeParent)
  notFinal := (by decide : hasFlag accFinal accPublic = false)
  notYet m hm := by
    have hindexed : ((computeView.getClass "com/example/Child").map ClassMetadata.methods).getD [] = [] := by decide
    rw [ownMethods, hindexed, List.append_nil] at hm
    exact hnew m hm

end Examples

end JavaAnalyzer.Completion.OverrideProvider
