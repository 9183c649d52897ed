import JavaAnalyzer.Language.SyntaxTree
import JavaAnalyzer.Semantic.ArgumentMapping

/-! # Parameter hints

`collect_parameter_hints` of `language/java/inlay_hints.rs` puts the name of a parameter before each argument of a call.
The arguments are the named children of the argument list, and the call is resolved by their texts with
`resolve_selected_call` of `editor_semantics.rs`. A comment is a named child of the list that it stands in. -/

namespace JavaAnalyzer.Language
set_option autoImplicit false
open Index Semantic

/-! ## Resolving a call -/

inductive JavaInvocationSite where
  | method (receiverExpr methodName : String) (argTexts : List String)
  | constructor (callText : String) (argTexts : List String)
deriving DecidableEq, Repr

def JavaInvocationSite.argTexts : JavaInvocationSite → List String
  | .method _ _ argTexts => argTexts
  | .constructor _ argTexts => argTexts

structure ResolvedMethodCandidate where
  method : MethodSummary
  receiverForSubstitution : String

structure ResolvedJavaCall where
  receiver : TypeName
  receiverForSubstitution : String
  method : MethodSummary
  invocationMode : OverloadInvocationMode
  argTexts : List String
  argTypes : List TypeName

def ResolvedJavaCall.parameterNameForArgument (call : ResolvedJavaCall) (argIndex : ℕ) : Option String :=
  let params := call.method.params.map MethodParam.name
  let paramLen := params.length
  if paramLen = 0 then none
  else
    match call.invocationMode with
    | .fixed => params[argIndex]?
    | .varargs => params[min argIndex (paramLen - 1)]?

/-- What is known at a place of the source: the types of expressions and receivers, and the candidates that a type has
for a call. -/
structure CallScope where
  view : IndexView
  evalContext : EvalContext
  evaluateFunctionalArgCompatibility : String → JvmType → FunctionalCompatStatus
  resolveExpressionType : String → Option TypeName
  resolveReceiverType : String → Option TypeName
  collectMethodCandidates : TypeName → String → List ResolvedMethodCandidate
  collectConstructorCandidates : TypeName → List ResolvedMethodCandidate
  /-- `to_internal_with_generics_for_substitution` -/
  internalName : TypeName → String

namespace CallScope

variable (scope : CallScope)

def argTypesOf (argTexts : List String) : List TypeName :=
  argTexts.map fun arg => (scope.resolveExpressionType arg).getD .unknown

/-- The arguments that the overload is selected by. -/
def selectionArgs (argTexts : List String) (selectionUnknownArgIndex : Option ℕ) : CallArgs where
  count := argTexts.length
  types :=
    match selectionUnknownArgIndex with
    | some argIndex => (scope.argTypesOf argTexts).set argIndex .unknown
    | none => scope.argTypesOf argTexts
  texts := argTexts

def resolveSelectedCall (receiver : TypeName) (candidates : List ResolvedMethodCandidate) (argTexts : List String)
    (selectionUnknownArgIndex : Option ℕ) : Option ResolvedJavaCall :=
  if candidates.isEmpty then none
  else
    (selectOverloadMatchWithCallsite scope.view scope.evaluateFunctionalArgCompatibility (scope.internalName receiver)
      (scope.selectionArgs argTexts selectionUnknownArgIndex) scope.evalContext
      (candidates.map ResolvedMethodCandidate.method)).bind fun selected =>
        (candidates.find? fun candidate =>
          candidate.method.name = selected.method.name &&
            candidate.method.desc = selected.method.desc).map fun method =>
            { receiver := receiver
              receiverForSubstitution := method.receiverForSubstitution
              method := method.method
              invocationMode := selected.mode
              argTexts := argTexts
              argTypes := scope.argTypesOf argTexts }

def resolveInvocation (site : JavaInvocationSite) (selectionUnknownArgIndex : Option ℕ) : Option ResolvedJavaCall :=
  match site with
  | .method receiverExpr methodName argTexts =>
    (scope.resolveReceiverType receiverExpr).bind fun receiver => scope.resolveSelectedCall receiver
      (scope.collectMethodCandidates receiver methodName) argTexts selectionUnknownArgIndex
  | .constructor callText argTexts =>
    (scope.resolveExpressionType callText).bind fun receiver => scope.resolveSelectedCall receiver
      (scope.collectConstructorCandidates receiver) argTexts selectionUnknownArgIndex

end CallScope

/-! ## Hints -/

def invocationArguments (n : Node) : Option Node :=
  n.childByFieldName "arguments"

/-- The tokens of an argument list are its children without a name. -/
def argumentListTokens : List String :=
  ["(", ",", ")"]

def namedArgumentNodes (arguments : Node) : List Node :=
  arguments.children.filter fun child => !argumentListTokens.contains child.kind

def invocationArgTexts (n : Node) : List String :=
  (((invocationArguments n).map namedArgumentNodes).getD []).map Node.text

def invocationSiteForNode (n : Node) : Option JavaInvocationSite :=
  if n.kind = "method_invocation" then
    (n.childByFieldName "name").map fun nameNode =>
      .method (((n.childByFieldName "object").map Node.text).getD "this") nameNode.text (invocationArgTexts n)
  else if n.kind = "object_creation_expression" then some (.constructor n.text (invocationArgTexts n))
  else none

def shouldSkipParameterHint (paramName : String) (argNode : Node) : Bool :=
  argNode.kind = "identifier" && argNode.text = paramName

/-- A hint for a parameter: the node that it is put before, and its text. -/
structure ParameterHint where
  before : Node
  label : String

/-- The hint before an argument, from the name of the parameter. -/
def hintBefore (inRange : Node → Bool) (argNode : Node) (paramName : Option String) : Option ParameterHint :=
  if !inRange argNode then none
  else paramName.bind fun paramName =>
    if shouldSkipParameterHint paramName argNode then none
    else some { before := argNode, label := paramName ++ ":" }

/-- The hints of one call. -/
def callHints (contextAt : Node → Option CallScope) (inRange : Node → Bool) (n : Node) : List ParameterHint :=
  match invocationSiteForNode n, invocationArguments n with
  | some site, some arguments =>
    match (contextAt arguments).bind fun scope => scope.resolveInvocation site none with
    | some call => (namedArgumentNodes arguments).zipIdx.filterMap fun p =>
        hintBefore inRange p.1 (call.parameterNameForArgument p.2)
    | none => []
  | _, _ => []

mutual

def collectParameterHints (contextAt : Node → Option CallScope) (inRange : Node → Bool) : Node → List ParameterHint
  | .mk kind field text children =>
    if !inRange (.mk kind field text children) then []
    else callHints contextAt inRange (.mk kind field text children) ++
      collectParameterHintsOf contextAt inRange children

def collectParameterHintsOf (contextAt : Node → Option CallScope) (inRange : Node → Bool) :
    List Node → List ParameterHint
  | [] => []
  | n :: nodes => collectParameterHints contextAt inRange n ++ collectParameterHintsOf contextAt inRange nodes

end

/-! ## Alignment -/

def commentKinds : List String :=
  ["line_comment", "block_comment"]

def isCommentNode (n : Node) : Bool :=
  commentKinds.contains n.kind

/-- The arguments of an argument list, in order. -/
def argumentsOf (arguments : Node) : List Node :=
  (namedArgumentNodes arguments).filter fun child => !isCommentNode child

/-- The parameter that receives an argument. By variable arity the last one receives all arguments behind the others. -/
def receivingParameter (method : MethodSummary) : OverloadInvocationMode → ℕ → Option MethodParam
  | .fixed, argIndex => method.params[argIndex]?
  | .varargs, argIndex =>
    if argIndex + 1 < method.params.length then method.params[argIndex]? else method.params.getLast?

/-- The overload is selected by the texts of the arguments, and the hints name the parameters that receive them. -/
structure Aligned (arguments : Node) (argTexts : List String) (call : ResolvedJavaCall) (hints : List ParameterHint) :
    Prop where
  texts : argTexts = (argumentsOf arguments).map Node.text
  hints : hints.Sublist ((argumentsOf arguments).zipIdx.filterMap fun p =>
    (receivingParameter call.method call.invocationMode p.2).map fun param => ⟨p.1, param.name ++ ":"⟩)

theorem parameterNameForArgument_eq (call : ResolvedJavaCall) (argIndex : ℕ) :
    call.parameterNameForArgument argIndex =
      (receivingParameter call.method call.invocationMode argIndex).map MethodParam.name := by
  rw [ResolvedJavaCall.parameterNameForArgument, List.length_map]
  split_ifs with hnone
  · have hparams := List.eq_nil_of_length_eq_zero hnone
    cases call.invocationMode <;> simp [receivingParameter, hparams]
  · cases call.invocationMode with
    | fixed => exact List.getElem?_map ..
    | varargs =>
      dsimp only [receivingParameter]
      rw [List.getElem?_map]
      split_ifs with hfront
      · rw [Nat.min_eq_left (by omega)]
      · rw [Nat.min_eq_right (by omega), List.getLast?_eq_getElem?]

theorem hintBefore_some {inRange : Node → Bool} {argNode : Node} {paramName : Option String} {hint : ParameterHint}
    (h : hintBefore inRange argNode paramName = some hint) :
    (paramName.map fun paramName => (⟨argNode, paramName ++ ":"⟩ : ParameterHint)) = some hint := by
  rw [hintBefore] at h
  split_ifs at h
  obtain ⟨name, rfl, h⟩ := Option.bind_eq_some_iff.mp h
  exact (Option.ite_none_left_eq_some.mp h).2

/-- What is kept of a list with some elements dropped is in order. -/
theorem filterMap_sublist {α β : Type} {f g : α → Option β} (hfg : ∀ a b, f a = some b → g a = some b)
    (items : List α) :
    (items.filterMap f).Sublist (items.filterMap g) := by
  induction items with
  | nil => exact .slnil
  | cons a items ih =>
    cases hf : f a with
    | some b =>
      rw [List.filterMap_cons_some hf, List.filterMap_cons_some (hfg a b hf)]
      exact ih.cons_cons b
    | none =>
      rw [List.filterMap_cons_none hf]
      cases hg : g a with
      | some b =>
        rw [List.filterMap_cons_some hg]
        exact ih.cons b
      | none =>
        rw [List.filterMap_cons_none hg]
        exact ih

theorem argumentsOf_eq_iff {arguments : Node} :
    (argumentsOf arguments).length = (namedArgumentNodes arguments).length ↔
      ∀ child ∈ arguments.children, isCommentNode child = false := by
  rw [argumentsOf, List.length_filter_eq_length_iff]
  constructor
  · intro h child hchild
    by_cases hcomment : isCommentNode child = true
    · have hnamed : argumentListTokens.contains child.kind = false := by
        obtain hkind | hkind : child.kind = "line_comment" ∨ child.kind = "block_comment" := by
          simpa [isCommentNode, commentKinds] using hcomment
        · rw [hkind]
          decide
        · rw [hkind]
          decide
      have hkept := h child (List.mem_filter.mpr ⟨hchild, by rw [hnamed, Bool.not_false]⟩)
      rwa [Bool.not_eq_true'] at hkept
    · exact Bool.eq_false_of_not_eq_true hcomment
  · intro h child hchild
    rw [h child (List.mem_filter.mp hchild).1, Bool.not_false]

section Tree

variable (contextAt : Node → Option CallScope) (inRange : Node → Bool)

mutual

/-- Each hint of a tree is one of a call in the tree. -/
theorem mem_collectParameterHints : ∀ (root : Node) (hint : ParameterHint),
    hint ∈ collectParameterHints contextAt inRange root → ∃ n ∈ root.subnodes, hint ∈ callHints contextAt inRange n
  | .mk kind field text children, hint, h => by
    rw [collectParameterHints] at h
    split_ifs at h
    · exact absurd h List.not_mem_nil
    · rcases List.mem_append.mp h with h | h
      · exact ⟨_, List.mem_cons_self, h⟩
      · obtain ⟨n, hn, hhint⟩ := mem_collectParameterHintsOf children hint h
        exact ⟨n, List.mem_cons_of_mem _ hn, hhint⟩

theorem mem_collectParameterHintsOf : ∀ (nodes : List Node) (hint : ParameterHint),
    hint ∈ collectParameterHintsOf contextAt inRange nodes →
      ∃ n ∈ Node.subnodesOf nodes, hint ∈ callHints contextAt inRange n
  | [], _, h => absurd h List.not_mem_nil
  | n :: nodes, hint, h => by
    rcases List.mem_append.mp h with h | h
    · obtain ⟨m, hm, hhint⟩ := mem_collectParameterHints n hint h
      exact ⟨m, List.mem_append_left _ hm, hhint⟩
    · obtain ⟨m, hm, hhint⟩ := mem_collectParameterHintsOf nodes hint h
      exact ⟨m, List.mem_append_right _ hm, hhint⟩

end

end Tree

section Call

variable {contextAt : Node → Option CallScope} {inRange : Node → Bool} {n arguments : Node} {site : JavaInvocationSite}
  {scope : CallScope} {call : ResolvedJavaCall}

theorem invocationSiteForNode_argTexts (hsite : invocationSiteForNode n = some site)
    (harguments : invocationArguments n = some arguments) :
    site.argTexts = (namedArgumentNodes arguments).map Node.text := by
  rw [invocationSiteForNode] at hsite
  have htexts : invocationArgTexts n = (namedArgumentNodes arguments).map Node.text := by
    rw [invocationArgTexts, harguments]
    rfl
  split_ifs at hsite
  · obtain ⟨nameNode, -, rfl⟩ := Option.map_eq_some_iff.mp hsite
    exact htexts
  · cases hsite
    exact htexts

theorem callHints_eq (hsite : invocationSiteForNode n = some site)
    (harguments : invocationArguments n = some arguments) (hscope : contextAt arguments = some scope)
    (hcall : scope.resolveInvocation site none = some call) :
    callHints contextAt inRange n = (namedArgumentNodes arguments).zipIdx.filterMap fun p =>
      hintBefore inRange p.1 (call.parameterNameForArgument p.2) := by
  rw [callHints, hsite, harguments]
  dsimp only
  rw [hscope, Option.bind_some, hcall]

/-- The hints of a call for which a method is selected are aligned exactly where no comment is in the argument list. -/
theorem parameter_hints_aligned_iff (hsite : invocationSiteForNode n = some site)
    (harguments : invocationArguments n = some arguments) (hscope : contextAt arguments = some scope)
    (hcall : scope.resolveInvocation site none = some call) :
    Aligned arguments site.argTexts call (callHints contextAt inRange n) ↔
      ∀ child ∈ arguments.children, isCommentNode child = false := by
  rw [← argumentsOf_eq_iff]
  constructor
  · intro h
    have hlen := congrArg List.length h.texts
    rw [invocationSiteForNode_argTexts hsite harguments, List.length_map, List.length_map] at hlen
    exact hlen.symm
  · intro hlen
    have hsame : argumentsOf arguments = namedArgumentNodes arguments :=
      List.filter_sublist.eq_of_length hlen
    refine ⟨by rw [hsame, invocationSiteForNode_argTexts hsite harguments], ?_⟩
    rw [callHints_eq hsite harguments hscope hcall, hsame]
    refine filterMap_sublist (fun p hint hhint => ?_) _
    have hname := hintBefore_some hhint
    rwa [parameterNameForArgument_eq, Option.map_map] at hname

end Call

/-! ## Comments -/

/-- A scope where only the receiver is known, with `void m(String... args)`. -/
def variableArityScope : CallScope where
  view := .new []
  evalContext := ⟨fun _ _ => none⟩
  evaluateFunctionalArgCompatibility := fun _ _ => .inPart
  resolveExpressionType := fun _ => none
  resolveReceiverType := fun _ => some (.withKind "A" .internal)
  collectMethodCandidates := fun _ _ => [⟨variableArity, "A"⟩]
  collectConstructorCandidates := fun _ => []
  internalName := TypeName.baseInternal

def token (text : String) : Node :=
  .mk text none text []

def identifierNode (name : String) : Node :=
  .mk "identifier" none name []

/-- A call of `m`, from its argument list. -/
def callOfM (text : String) (children : List Node) : Node :=
  .mk "method_invocation" none ("m" ++ text)
    [.mk "identifier" (some "name") "m" [], .mk "argument_list" (some "arguments") text children]

/-- The argument list of `m(a, b)`. -/
def plainArguments : List Node :=
  [token "(", identifierNode "a", token ",", identifierNode "b", token ")"]

/-- The argument list of `m(/* c */ a)`. -/
def commentedArguments : List Node :=
  [token "(", .mk "block_comment" none "/* c */" [], identifierNode "a", token ")"]

def callWithTwo (first second : String) : ResolvedJavaCall where
  receiver := .withKind "A" .internal
  receiverForSubstitution := "A"
  method := variableArity
  invocationMode := .varargs
  argTexts := [first, second]
  argTypes := [.unknown, .unknown]

theorem resolve_two (first second : String) (h : functionalArgumentIndexes [first, second] = []) :
    variableArityScope.resolveInvocation (.method "this" "m" [first, second]) none =
      some (callWithTwo first second) := by
  have hselected : selectOverloadMatchWithCallsite (.new []) (fun _ _ => .inPart) "A"
      ⟨2, [.unknown, .unknown], [first, second]⟩ ⟨fun _ _ => none⟩ [variableArity] =
        some ⟨variableArity, .varargs, -1⟩ := by
    rw [selectOverloadMatchWithCallsite, h]
    exact (by decide : selectOverloadMatch [variableArity] 2 [.unknown, .unknown] =
      some ⟨variableArity, .varargs, -1⟩)
  change ((selectOverloadMatchWithCallsite _ _ _ _ _ _).bind _) = _
  exact (congrArg (Option.bind · _) hselected).trans rfl

/-- The name of the parameter is put before the comment, and the comment is an argument that the overload is selected
by. -/
theorem comment_is_argument : ∃ arguments call,
    invocationSiteForNode (callOfM "(/* c */ a)" commentedArguments) = some (.method "this" "m" ["/* c */", "a"]) ∧
      invocationArguments (callOfM "(/* c */ a)" commentedArguments) = some arguments ∧
        variableArityScope.resolveInvocation (.method "this" "m" ["/* c */", "a"]) none = some call ∧
          ¬ Aligned arguments ["/* c */", "a"] call (callHints (fun _ => some variableArityScope) (fun _ => true)
            (callOfM "(/* c */ a)" commentedArguments)) := by
  refine ⟨_, callWithTwo "/* c */" "a", rfl, rfl, resolve_two _ _ (by decide), fun h => ?_⟩
  exact absurd (congrArg List.length h.texts) (by decide)

/-- `m(a, b)` -/
theorem parameter_hints_aligned_plain : Aligned (.mk "argument_list" (some "arguments") "(a, b)" plainArguments)
    ["a", "b"] (callWithTwo "a" "b") (callHints (fun _ => some variableArityScope) (fun _ => true)
      (callOfM "(a, b)" plainArguments)) :=
  (parameter_hints_aligned_iff rfl rfl rfl (resolve_two "a" "b" (by decide))).mpr (by decide)

end JavaAnalyzer.Language
