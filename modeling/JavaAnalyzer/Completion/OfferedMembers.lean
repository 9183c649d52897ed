import JavaAnalyzer.Completion.MemberProvider

/-! # Which members are offered

The loops of `MemberProvider` keep, of all members along a walk, the first one of each key, and build a candidate
for those of them that pass. From this list follow the members that are offered behind an expression, the casts
that their edits need, and where static members go. -/

namespace JavaAnalyzer.Completion.MemberProvider
set_option autoImplicit false
open Index JavaAnalyzer.Language Semantic Text OverrideProvider

/-! ## Members -/

inductive Member where
  | method (m : MethodSummary)
  | field (f : FieldSummary)

namespace Member

def name : Member → String
  | .method m => m.name
  | .field f => f.name

def accessFlags : Member → UInt16
  | .method m => m.accessFlags
  | .field f => f.accessFlags

def isSynthetic : Member → Bool
  | .method m => m.isSynthetic
  | .field f => f.isSynthetic

def isConstructor : Member → Bool
  | .method m => isConstructorName m.name
  | .field _ => false

/-- Of the members with one key the first one hides the others. -/
def key : Member → (String × String) ⊕ String
  | .method m => .inl (methodKey m)
  | .field f => .inr f.name

/-- The name and the descriptor of a method or of a field. -/
def signature : Member → (String × String) ⊕ (String × String)
  | .method m => .inl (methodKey m)
  | .field f => .inr (f.name, f.descriptor)

end Member

def classMembers (c : ClassMetadata) : List Member :=
  c.methods.map .method ++ c.fields.map .field

/-- The members along the hierarchies of the bounds of a type, without what is overridden or hidden in each. -/
def membersOf (view : IndexView) (t : TypeName) : List Member :=
  t.boundsForLookup.flatMap fun bound => (view.mro bound.erasedInternal).flatMap classMembers

/-- The member that a candidate stands for. -/
def offered (c : CompletionCandidate) : Option ((String × String) ⊕ (String × String)) :=
  match c.kind with
  | .method descriptor _ | .staticMethod descriptor _ => some (.inl (memberName c, descriptor))
  | .field descriptor _ | .staticField descriptor _ => some (.inr (memberName c, descriptor))
  | _ => none

/-! ## Items of a walk -/

/-- A member as the loops come to it. -/
structure Item where
  receiver : ReceiverTexts
  owner : ClassMetadata
  member : Member

def Item.key (item : Item) : (String × String) ⊕ String :=
  item.member.key

def Gathered.seen (gathered : Gathered) : List ((String × String) ⊕ String) :=
  gathered.seenMethods.map .inl ++ gathered.seenFields.map .inr

section

variable (readers : Readers) (view : IndexView) (ctx : SemanticContext) (search : Search)

def push (gathered : Gathered) (item : Item) : Gathered :=
  match item.member with
  | .method m => pushMemberMethodCandidate readers view ctx search item.receiver item.owner gathered m
  | .field f => pushMemberFieldCandidate readers view search item.receiver item.owner gathered f

/-- What a member has to pass once its key is new. -/
def passesSearch (member : Member) : Bool :=
  search.filter.isAccessible member.accessFlags member.isSynthetic &&
    (matchScore readers search member.name).isSome && staticAllowed search member.accessFlags

def build (item : Item) (score : Option ℕ) : CompletionCandidate :=
  match item.member with
  | .method m => methodCandidate readers view ctx search item.receiver item.owner m score
  | .field f => fieldCandidate readers view search item.receiver item.owner f score

def candidateOf (item : Item) : Option CompletionCandidate :=
  if passesSearch readers search item.member then
    (matchScore readers search item.member.name).map (build readers view ctx search item)
  else none

variable {readers view ctx search}

theorem push_not_member {gathered : Gathered} {item : Item} (h : item.member.isConstructor = true) :
    push readers view ctx search gathered item = gathered := by
  obtain ⟨receiver, owner, m | f⟩ := item
  · exact if_pos h
  · cases h

theorem push_seen {gathered : Gathered} {item : Item} (h : item.key ∈ gathered.seen) :
    push readers view ctx search gathered item = gathered := by
  obtain ⟨receiver, owner, m | f⟩ := item
  · have hseen : methodKey m ∈ gathered.seenMethods := by simpa [Item.key, Member.key, Gathered.seen] using h
    simp only [push, pushMemberMethodCandidate, if_pos (List.contains_iff_mem.mpr hseen), ite_self]
  · have hseen : f.name ∈ gathered.seenFields := by simpa [Item.key, Member.key, Gathered.seen] using h
    simp only [push, pushMemberFieldCandidate, if_pos hseen]

/-- The checks of a new member and what they lead to. -/
theorem pushed_eq (gathered : Gathered) (item : Item) :
    (if !search.filter.isAccessible item.member.accessFlags item.member.isSynthetic then gathered
      else match matchScore readers search item.member.name with
        | none => gathered
        | some score =>
          if !staticAllowed search item.member.accessFlags then gathered
          else { gathered with results := gathered.results ++ [build readers view ctx search item score] }) =
      ⟨gathered.results ++ (candidateOf readers view ctx search item).toList, gathered.seenMethods,
        gathered.seenFields⟩ := by
  rw [candidateOf, passesSearch]
  cases haccess : search.filter.isAccessible item.member.accessFlags item.member.isSynthetic with
  | false => simp
  | true =>
    cases hscore : matchScore readers search item.member.name with
    | none => simp
    | some score => cases hstatic : staticAllowed search item.member.accessFlags <;> simp

theorem push_new {gathered : Gathered} {item : Item} (hmember : item.member.isConstructor = false)
    (h : item.key ∉ gathered.seen) :
    (push readers view ctx search gathered item).results =
        gathered.results ++ (candidateOf readers view ctx search item).toList ∧
      ∀ k, k ∈ (push readers view ctx search gathered item).seen ↔ k ∈ item.key :: gathered.seen := by
  obtain ⟨receiver, owner, m | f⟩ := item
  · have hname : ¬ isConstructorName m.name = true := Bool.eq_false_iff.mp hmember
    have hnew : methodKey m ∉ gathered.seenMethods := by simpa [Item.key, Member.key, Gathered.seen] using h
    have hpush : push readers view ctx search gathered ⟨receiver, owner, .method m⟩ =
        ⟨gathered.results ++ (candidateOf readers view ctx search ⟨receiver, owner, .method m⟩).toList,
          methodKey m :: gathered.seenMethods, gathered.seenFields⟩ := by
      simp only [push, pushMemberMethodCandidate, if_neg hname, if_neg (mt List.contains_iff_mem.mp hnew)]
      exact pushed_eq { gathered with seenMethods := methodKey m :: gathered.seenMethods } ⟨receiver, owner, .method m⟩
    rw [hpush]
    exact ⟨rfl, fun k => by simp [Item.key, Member.key, Gathered.seen]⟩
  · have hnew : f.name ∉ gathered.seenFields := by simpa [Item.key, Member.key, Gathered.seen] using h
    have hpush : push readers view ctx search gathered ⟨receiver, owner, .field f⟩ =
        ⟨gathered.results ++ (candidateOf readers view ctx search ⟨receiver, owner, .field f⟩).toList,
          gathered.seenMethods, f.name :: gathered.seenFields⟩ := by
      simp only [push, pushMemberFieldCandidate, if_neg hnew]
      exact pushed_eq { gathered with seenFields := f.name :: gathered.seenFields } ⟨receiver, owner, .field f⟩
    rw [hpush]
    refine ⟨rfl, fun k => ?_⟩
    simp only [Gathered.seen, Item.key, Member.key, List.map_cons, List.mem_append, List.mem_cons]
    exact or_left_comm

/-- The loop over the items of a walk. -/
theorem foldl_push (items : List Item) (gathered : Gathered) :
    (items.foldl (push readers view ctx search) gathered).results = gathered.results ++
      (Dedup.dedupBy Item.key gathered.seen (items.filter fun item => !item.member.isConstructor)).filterMap
        (candidateOf readers view ctx search) := by
  induction items generalizing gathered with
  | nil => simp [Dedup.dedupBy]
  | cons item items ih =>
    rw [List.foldl_cons, ih]
    cases hmember : item.member.isConstructor with
    | true => rw [push_not_member hmember, List.filter_cons_of_neg (by rw [hmember]; exact Bool.false_ne_true)]
    | false =>
      rw [List.filter_cons_of_pos (by rw [hmember]; rfl), Dedup.dedupBy]
      split_ifs with hseen
      · rw [push_seen hseen]
      · obtain ⟨hresults, hseen'⟩ := @push_new readers view ctx search _ _ hmember hseen
        rw [hresults, Dedup.dedupBy_congr fun x _ => hseen' (Item.key x), List.append_assoc, List.filterMap_cons]
        cases candidateOf readers view ctx search item <;> rfl

end

/-! ## The walk of a receiver -/

section

variable (readers : Readers) (view : IndexView)

def classItems (receiver : ReceiverTexts) (c : ClassMetadata) : List Item :=
  (classMembers c).map (Item.mk receiver c)

def boundItems (bound : TypeName) : List Item :=
  (view.mro bound.erasedInternal).flatMap
    (classItems ⟨String.ofList bound.internalWithGenerics, readers.substitutionText bound⟩)

def walk (t : TypeName) : List Item :=
  t.boundsForLookup.flatMap (boundItems readers view)

variable {readers view} {ctx : SemanticContext} {search : Search}

theorem foldl_gatherBound (t : TypeName) (gathered : Gathered) :
    (t.boundsForLookup.foldl (gatherBound readers view ctx search) gathered).results = gathered.results ++
      (Dedup.dedupBy Item.key gathered.seen
        ((walk readers view t).filter fun item => !item.member.isConstructor)).filterMap
          (candidateOf readers view ctx search) := by
  have hbound : ∀ (gathered : Gathered) (bound : TypeName), gatherBound readers view ctx search gathered bound =
      (boundItems readers view bound).foldl (push readers view ctx search) gathered := by
    intro gathered bound
    rw [gatherBound, boundItems, List.foldl_flatMap]
    refine List.foldl_ext _ _ _ fun gathered c _ => ?_
    rw [classItems, classMembers, List.foldl_map, List.foldl_append, List.foldl_map, List.foldl_map]
    rfl
  rw [← foldl_push, walk, List.foldl_flatMap]
  exact congrArg Gathered.results (List.foldl_ext _ _ _ fun gathered bound _ => hbound gathered bound)

theorem walk_members (t : TypeName) : (walk readers view t).map Item.member = membersOf view t := by
  have hclass : ∀ receiver c, (classItems receiver c).map Item.member = classMembers c := by
    intro receiver c
    rw [classItems, List.map_map]
    exact List.map_id _
  simp only [walk, boundItems, membersOf, List.map_flatMap, hclass]

/-- The members that a walk leads to, of each key the first one. -/
theorem kept_members (t : TypeName) :
    (Dedup.dedupBy Item.key [] ((walk readers view t).filter fun item => !item.member.isConstructor)).map
        Item.member =
      Dedup.dedupBy Member.key [] ((membersOf view t).filter fun m => !m.isConstructor) := by
  rw [← @walk_members readers view t, List.filter_map, Dedup.dedupBy_map]
  rfl

end

/-! ## What a candidate stands for -/

section

variable {readers : Readers} {view : IndexView} {ctx : SemanticContext} {search : Search}

theorem withOptions_kind (c : CompletionCandidate) (needsCast : FlowReceiverCastPlan → Bool) (score : Option ℕ) :
    (withOptions c search needsCast score).kind = c.kind ∧
      memberName (withOptions c search needsCast score) = memberName c := by
  unfold withOptions
  cases search.cast with
  | none => cases score <;> exact ⟨rfl, rfl⟩
  | some plan =>
    have hcast : ∀ c : CompletionCandidate,
        (c.withMemberAccessCastRewrite plan.receiverExpr plan.castType).kind = c.kind ∧
          memberName (c.withMemberAccessCastRewrite plan.receiverExpr plan.castType) = memberName c :=
      fun c => ⟨rfl, rfl⟩
    simp only
    split_ifs
    · cases score <;> exact hcast c
    · cases score <;> exact ⟨rfl, rfl⟩

theorem memberName_new (label text : String) (kind : CandidateKind) (source : String) :
    memberName (.new label text kind source) = label := by
  unfold memberName CompletionCandidate.new
  split_ifs <;> rfl

theorem withCallableInsert_kind (c : CompletionCandidate) (name : String) (params : List String) (paren : Bool) :
    (c.withCallableInsert name params paren).kind = c.kind := by
  unfold CompletionCandidate.withCallableInsert
  split_ifs <;> rfl

def isInstanceKind : CandidateKind → Bool
  | .method .. | .field .. => true
  | _ => false

def isStaticKind : CandidateKind → Bool
  | .staticMethod .. | .staticField .. => true
  | _ => false

/-- A candidate stands for its member, and is static if that is. -/
theorem build_kind (item : Item) (score : Option ℕ) :
    offered (build readers view ctx search item score) = some item.member.signature ∧
      isStaticKind (build readers view ctx search item score).kind = hasFlag accStatic item.member.accessFlags ∧
      isInstanceKind (build readers view ctx search item score).kind =
        !hasFlag accStatic item.member.accessFlags := by
  obtain ⟨receiver, owner, m | f⟩ := item
  · have hkind : (methodCandidate readers view ctx search receiver owner m score).kind =
        if hasFlag accStatic m.accessFlags then .staticMethod m.desc receiver.classInternal
        else .method m.desc receiver.classInternal := by
      rw [methodCandidate, (withOptions_kind _ _ _).1]
      exact withCallableInsert_kind _ _ _ _
    have hname : memberName (methodCandidate readers view ctx search receiver owner m score) = m.name := by
      rw [methodCandidate, (withOptions_kind _ _ _).2]
      rfl
    simp only [build, offered, hkind, hname, Member.accessFlags]
    cases hasFlag accStatic m.accessFlags <;> exact ⟨rfl, rfl, rfl⟩
  · have hkind : (fieldCandidate readers view search receiver owner f score).kind =
        if hasFlag accStatic f.accessFlags then .staticField f.descriptor receiver.classInternal
        else .field f.descriptor receiver.classInternal := by
      rw [fieldCandidate, (withOptions_kind _ _ _).1]
      rfl
    have hname : memberName (fieldCandidate readers view search receiver owner f score) = f.name := by
      rw [fieldCandidate, (withOptions_kind _ _ _).2]
      exact memberName_new f.name f.name _ "member"
    simp only [build, offered, hkind, hname, Member.accessFlags]
    cases hasFlag accStatic f.accessFlags <;> exact ⟨rfl, rfl, rfl⟩

theorem candidateOf_eq_some {item : Item} {c : CompletionCandidate}
    (h : candidateOf readers view ctx search item = some c) :
    passesSearch readers search item.member = true ∧ ∃ score, c = build readers view ctx search item score := by
  rw [candidateOf] at h
  split_ifs at h with hpasses
  obtain ⟨score, -, rfl⟩ := Option.map_eq_some_iff.mp h
  exact ⟨hpasses, score, rfl⟩

theorem map_offered (items : List Item) :
    (items.filterMap (candidateOf readers view ctx search)).map offered =
      ((items.map Item.member).filter (passesSearch readers search)).map fun m => some m.signature := by
  induction items with
  | nil => rfl
  | cons item items ih =>
    cases hpasses : passesSearch readers search item.member with
    | false =>
      have hnone : candidateOf readers view ctx search item = none :=
        if_neg (by rw [hpasses]; exact Bool.false_ne_true)
      rw [List.filterMap_cons_none hnone, ih, List.map_cons, List.filter_cons_of_neg (by simp [hpasses])]
    | true =>
      have hscore := hpasses
      rw [passesSearch, Bool.and_eq_true, Bool.and_eq_true] at hscore
      obtain ⟨score, hscore⟩ := Option.isSome_iff_exists.mp hscore.1.2
      have hsome : candidateOf readers view ctx search item = some (build readers view ctx search item score) := by
        rw [candidateOf, if_pos hpasses, hscore, Option.map_some]
      rw [List.filterMap_cons_some hsome, List.map_cons, List.map_cons, List.filter_cons_of_pos hpasses, List.map_cons,
        ih, (build_kind item score).1]

end

/-! ## Behind an expression -/

/-- A receiver that is written out, and is no `this` or `super`. -/
structure Receiver.Explicit (r : Receiver) : Prop where
  notThis : r.isThis = false
  notSuper : r.isSuper = false
  notImplicit : r.isImplicit = false
  notBare : r.isBare = false

section

variable {readers : Readers} {view : IndexView} {ctx : SemanticContext} {r : Receiver} {original : TypeName}

theorem provideFor_walk (hplace : ((r.isThis || r.isSuper) && ctx.isInStaticContext) = false)
    (horiginal : r.resolvedOriginal readers ctx = some original)
    (harray : (r.resolvedEffective readers ctx original).isArray = false) :
    provideFor readers view ctx r = r.sourceMembers readers ctx ++
      (Dedup.dedupBy Item.key (seed (r.sourceMembers readers ctx)).seen
        ((walk readers view (r.resolvedEffective readers ctx original)).filter fun item =>
          !item.member.isConstructor)).filterMap
          (candidateOf readers view ctx (r.search view ctx (r.resolvedEffective readers ctx original))) := by
  rw [provideFor, hplace, if_neg Bool.false_ne_true, horiginal]
  simp only [harray, Bool.false_eq_true, if_false]
  exact foldl_gatherBound _ _

theorem Receiver.Explicit.provideFor (h : r.Explicit) (horiginal : r.resolvedOriginal readers ctx = some original)
    (harray : (r.resolvedEffective readers ctx original).isArray = false) :
    provideFor readers view ctx r = (Dedup.dedupBy Item.key []
        ((walk readers view (r.resolvedEffective readers ctx original)).filter fun item =>
          !item.member.isConstructor)).filterMap
          (candidateOf readers view ctx (r.search view ctx (r.resolvedEffective readers ctx original))) := by
  have hsource : r.sourceMembers readers ctx = [] := by
    rw [Receiver.sourceMembers, h.notThis, h.notImplicit]
    rfl
  rw [provideFor_walk (by rw [h.notThis, h.notSuper]; rfl) horiginal harray, hsource]
  rfl

/-- What a member of the hierarchy has to be behind an expression. -/
def isOffered (readers : Readers) (typed : String) (m : Member) : Bool :=
  !hasFlag accPrivate m.accessFlags && !m.isSynthetic && !hasFlag accStatic m.accessFlags &&
    nameMatchesMemberText readers m.name
      (if typed = "" then none else some (readers.tables.toLowercase typed.toList))

theorem Receiver.Explicit.passesSearch (h : r.Explicit) (effective : TypeName) (m : Member) :
    passesSearch readers (r.search view ctx effective) m = isOffered readers r.typed m := by
  simp only [MemberProvider.passesSearch, Receiver.search, Receiver.isSameClass, h.notThis, h.notImplicit, h.notBare,
    AccessFilter.isAccessible, AccessFilter.memberCompletion, matchScore, staticAllowed, isOffered]
  cases hasFlag accPrivate m.accessFlags <;> cases m.isSynthetic <;> cases hasFlag accStatic m.accessFlags <;>
    cases nameMatchesMemberText readers m.name
      (if r.typed = "" then none else some (readers.tables.toLowercase r.typed.toList)) <;> simp

/-- The cursor is behind an expression whose type is found, and is no array type. -/
structure BehindExpression (readers : Readers) (ctx : SemanticContext) (r : Receiver) (effective : TypeName) :
    Prop where
  receiver : receiverOf ctx = some r
  notStatic : staticReceiver ctx = none
  explicit : r.Explicit
  type : ∃ original, r.resolvedOriginal readers ctx = some original ∧
    r.resolvedEffective readers ctx original = effective
  notArray : effective.isArray = false

theorem BehindExpression.provide_eq {effective : TypeName} (h : BehindExpression readers ctx r effective) :
    provide readers view ctx = MemberProvider.provideFor readers view ctx r := by
  rw [provide, provideStaticAccess, h.notStatic, h.receiver]
  rfl

/-- Behind an expression are offered, of all members along the hierarchies of its type, the first one of each key, if
it is no constructor, not private, synthetic or static, and its name contains what is typed. -/
theorem expression_members {effective : TypeName} (h : BehindExpression readers ctx r effective) :
    (provide readers view ctx).map offered =
      ((Dedup.dedupBy Member.key [] ((membersOf view effective).filter fun m => !m.isConstructor)).filter
        (isOffered readers r.typed)).map fun m => some m.signature := by
  obtain ⟨original, horiginal, heffective⟩ := h.type
  rw [h.provide_eq, h.explicit.provideFor horiginal (by rw [heffective]; exact h.notArray), heffective, map_offered,
    kept_members, show MemberProvider.passesSearch readers _ = _ from funext (h.explicit.passesSearch effective)]

/-- `public int name()` -/
def petMethod (name : String) : MethodSummary :=
  ⟨name, [], [], accPublic, false, none, some "I"⟩

def petClass (name : String) (superName : Option String) (method : String) : ClassMetadata :=
  { ClassMetadata.bare (some "p") name ("p/" ++ name) none .unknown with
    superName := superName, methods := [petMethod method] }

def petView : IndexView :=
  .new [BucketIndex.new.addClasses [petClass "Animal" none "age", petClass "Dog" (some "p/Animal") "tail"]]

def petReaders : Readers where
  provider := ⟨petView.getSourceTypeName⟩
  tables := ⟨List.map Char.toLower, Char.isUpper, fun _ _ => rfl⟩
  fuzzyScore _ _ := none
  resolveReceiverType _ := none
  normalizeReceiverOwner := id
  substitutionText := TypeName.erasedInternal
  sourceMethodLabel := MethodSummary.name
  sourceMemberDetail := CurrentClassMember.name
  visibleInnerClasses _ := []

/-- Behind `pet`, an animal that the flow narrowed to a dog. -/
def petContext : SemanticContext where
  location := .memberAccess .expression (some (TypeName.internal "p/Dog")) none "" "pet" false
  typedChainReceiver := none
  enclosingClass := none
  enclosingInternalName := none
  effectivePackage := none
  localVariables := [⟨"pet", TypeName.internal "p/Animal"⟩]
  flowTypeOverrides := AList.singleton "pet" (TypeName.internal "p/Dog")
  currentClassMemberList := []
  enclosingClassMember := none
  charAfterCursor := none

def petReceiver : Receiver :=
  ⟨some (TypeName.internal "p/Dog"), some "p/Dog", "", "pet", false⟩

theorem behind_pet : BehindExpression petReaders petContext petReceiver (TypeName.internal "p/Dog") where
  receiver := rfl
  notStatic := rfl
  explicit := ⟨rfl, by decide, rfl, rfl⟩
  type := ⟨_, rfl, rfl⟩
  notArray := rfl

theorem expression_members_pet :
    (provide petReaders petView petContext).map offered =
      [some (.inl (methodKey (petMethod "tail"))), some (.inl (methodKey (petMethod "age")))] := by
  rw [@expression_members petReaders petView petContext petReceiver _ behind_pet]
  decide

/-! ## Casts -/

/-- A type has the member that a candidate stands for. -/
def HasMember (view : IndexView) (t : TypeName) (c : CompletionCandidate) : Prop :=
  ∃ m ∈ (view.mro t.erasedInternal).flatMap classMembers, offered c = some m.signature

/-- A member that a type has not. -/
def needsCast (view : IndexView) (declared : TypeName) : Member → Bool
  | .method m => needsCastForMethod view declared (methodKey m)
  | .field f => needsCastForField view declared (f.name, f.descriptor)

theorem needsCast_iff {t : TypeName} {member : Member} :
    needsCast view t member = true ↔
      ∀ m ∈ (view.mro t.erasedInternal).flatMap classMembers, m.signature ≠ member.signature := by
  have hmembers : ∀ P : Member → Prop, (∀ m ∈ (view.mro t.erasedInternal).flatMap classMembers, P m) ↔
      (∀ m ∈ (view.collectInheritedMembers t.erasedInternal).1, P (.method m)) ∧
        ∀ f ∈ (view.collectInheritedMembers t.erasedInternal).2, P (.field f) := by
    intro P
    rw [← view.mro_methods, ← view.mro_fields]
    simp only [List.mem_flatMap, classMembers, List.mem_append, List.mem_map]
    constructor
    · intro h
      constructor
      · rintro m ⟨c, hc, hm⟩
        exact h _ ⟨c, hc, .inl ⟨m, hm, rfl⟩⟩
      · rintro f ⟨c, hc, hf⟩
        exact h _ ⟨c, hc, .inr ⟨f, hf, rfl⟩⟩
    · rintro ⟨hmethods, hfields⟩ _ ⟨c, hc, ⟨m, hm, rfl⟩ | ⟨f, hf, rfl⟩⟩
      · exact hmethods m ⟨c, hc, hm⟩
      · exact hfields f ⟨c, hc, hf⟩
  rw [hmembers]
  cases member with
  | method m => simp [needsCast, needsCastForMethod, Member.signature]
  | field f => simp [needsCast, needsCastForField, Member.signature]

theorem withOptions_rewrite {search : Search} {c : CompletionCandidate} {needsCast : FlowReceiverCastPlan → Bool}
    {score : Option ℕ} {plan : FlowReceiverCastPlan} (hc : c.insertion.memberAccessRewrite = none)
    (hcast : search.cast = some plan) :
    (withOptions c search needsCast score).insertion.memberAccessRewrite =
      if needsCast plan then some ⟨plan.receiverExpr, plan.castType⟩ else none := by
  unfold withOptions
  rw [hcast]
  simp only
  split_ifs
  · cases score <;> rfl
  · cases score <;> exact hc

theorem buildFlowReceiverCastPlan_spec {receiverExpr : String} {effective : TypeName} {plan : FlowReceiverCastPlan}
    (h : buildFlowReceiverCastPlan view ctx receiverExpr effective = some plan) :
    ∃ narrowed v, ctx.flowTypeOverrides.lookup plan.receiverExpr = some narrowed ∧
      ctx.localVariables.find? (fun v => v.name = plan.receiverExpr) = some v ∧
      plan = ⟨String.ofList (trim receiverExpr.toList), renderCastType narrowed, v.typeInternal⟩ ∧
      narrowed.erasedInternal = effective.erasedInternal := by
  rw [buildFlowReceiverCastPlan] at h
  split_ifs at h with hident
  obtain ⟨narrowed, hnarrowed, h⟩ := Option.bind_eq_some_iff.mp h
  split_ifs at h with hsame
  obtain ⟨v, hv, h⟩ := Option.bind_eq_some_iff.mp h
  split_ifs at h with hdeclared hindexed
  cases h
  exact ⟨narrowed, v, hnarrowed, hv, rfl, not_not.mp hsame⟩

theorem memberAccessRewrite_withCallableInsert (c : CompletionCandidate) (name : String) (params : List String)
    (paren : Bool) : (c.withCallableInsert name params paren).insertion.memberAccessRewrite =
      c.insertion.memberAccessRewrite := by
  unfold CompletionCandidate.withCallableInsert
  split_ifs <;> rfl

theorem memberAccessRewrite_new (label text : String) (kind : CandidateKind) (source : String) :
    (CompletionCandidate.new label text kind source).insertion.memberAccessRewrite = none := by
  unfold CompletionCandidate.new
  split_ifs <;> rfl

theorem build_rewrite {search : Search} {plan : FlowReceiverCastPlan} (hcast : search.cast = some plan) (item : Item)
    (score : Option ℕ) : (build readers view ctx search item score).insertion.memberAccessRewrite =
      if needsCast view plan.declaredType item.member then some ⟨plan.receiverExpr, plan.castType⟩ else none := by
  obtain ⟨receiver, owner, m | f⟩ := item
  · refine withOptions_rewrite ?_ hcast
    exact (memberAccessRewrite_withCallableInsert _ _ _ _).trans (memberAccessRewrite_new _ _ _ _)
  · exact withOptions_rewrite (memberAccessRewrite_new f.name f.name _ "member") hcast

/-- A candidate of a walk is a member of the type, and its edit casts the receiver exactly if the declared type has
no such member. -/
theorem candidateOf_cast {search : Search} {plan : FlowReceiverCastPlan} (hcast : search.cast = some plan)
    {t : TypeName} (ht : t.isIntersection = false) {item : Item} (hitem : item ∈ walk readers view t)
    {c : CompletionCandidate} (hc : candidateOf readers view ctx search item = some c) :
    HasMember view t c ∧ (¬ HasMember view plan.declaredType c →
        c.insertion.memberAccessRewrite = some ⟨plan.receiverExpr, plan.castType⟩) ∧
      (HasMember view plan.declaredType c → c.insertion.memberAccessRewrite = none) := by
  obtain ⟨-, score, rfl⟩ := candidateOf_eq_some hc
  have hoffered := (@build_kind readers view ctx search item score).1
  have hneeds : needsCast view plan.declaredType item.member = true ↔
      ¬ HasMember view plan.declaredType (build readers view ctx search item score) := by
    rw [needsCast_iff, HasMember, hoffered]
    simp [eq_comm]
  have hmem : item.member ∈ membersOf view t := by
    rw [← @walk_members readers view t]
    exact List.mem_map_of_mem hitem
  rw [membersOf, TypeName.boundsForLookup, ht, if_neg Bool.false_ne_true, List.flatMap_singleton] at hmem
  refine ⟨⟨item.member, hmem, hoffered⟩, fun hnot => ?_, fun hhas => ?_⟩
  · rw [build_rewrite hcast, if_pos (hneeds.mpr hnot)]
  · rw [build_rewrite hcast, if_neg fun hneeded => hneeds.mp hneeded hhas]

/-- The receiver as an accepted candidate leaves it: cast to the narrowed type, or as it is declared. -/
def editedReceiverType (c : CompletionCandidate) (declared narrowed : TypeName) : TypeName :=
  if c.insertion.memberAccessRewrite.isSome then narrowed else declared

/-- Behind a local that the flow narrowed, every candidate is a member of the type that the receiver has once it is
accepted, and the receiver is cast for just the members that the declared type has not. -/
theorem narrowed_receiver_casts {effective : TypeName} (h : BehindExpression readers ctx r effective)
    (hone : effective.isIntersection = false) {plan : FlowReceiverCastPlan}
    (hplan : buildFlowReceiverCastPlan view ctx r.expr effective = some plan) :
    ∃ narrowed v, ctx.flowTypeOverrides.lookup plan.receiverExpr = some narrowed ∧
      ctx.localVariables.find? (fun v => v.name = plan.receiverExpr) = some v ∧
      ∀ c ∈ provide readers view ctx, HasMember view (editedReceiverType c v.typeInternal narrowed) c ∧
        (HasMember view v.typeInternal c → c.insertion.memberAccessRewrite = none) ∧
        (¬ HasMember view v.typeInternal c →
          c.insertion.memberAccessRewrite = some ⟨plan.receiverExpr, renderCastType narrowed⟩) := by
  obtain ⟨narrowed, v, hnarrowed, hv, hspec, hsame⟩ := buildFlowReceiverCastPlan_spec hplan
  refine ⟨narrowed, v, hnarrowed, hv, fun c hc => ?_⟩
  obtain ⟨original, horiginal, heffective⟩ := h.type
  rw [h.provide_eq, h.explicit.provideFor horiginal (by rw [heffective]; exact h.notArray), heffective] at hc
  obtain ⟨item, hitem, hc⟩ := List.mem_filterMap.mp hc
  have hwalk : item ∈ walk readers view effective :=
    (List.mem_filter.mp ((Dedup.dedupBy_sublist _ _).subset hitem)).1
  have hcast : (r.search view ctx effective).cast = some plan := by
    rw [Receiver.search, h.explicit.notThis, h.explicit.notSuper]
    exact hplan
  obtain ⟨hmember, hneeded, hneedless⟩ := candidateOf_cast hcast hone hwalk hc
  have hdeclared : plan.declaredType = v.typeInternal := by rw [hspec]
  have htext : plan.castType = renderCastType narrowed := by rw [hspec]
  rw [hdeclared] at hneeded hneedless
  rw [htext] at hneeded
  refine ⟨?_, hneedless, hneeded⟩
  by_cases hhas : HasMember view v.typeInternal c
  · rw [editedReceiverType, hneedless hhas]
    exact hhas
  · rw [editedReceiverType, hneeded hhas]
    simp only [Option.isSome_some, if_true]
    rw [HasMember, hsame]
    exact hmember

theorem narrowed_receiver_casts_pet :
    (provide petReaders petView petContext).length = 2 ∧
      ∀ c ∈ provide petReaders petView petContext,
        (HasMember petView (TypeName.internal "p/Animal") c → c.insertion.memberAccessRewrite = none) ∧
          (¬ HasMember petView (TypeName.internal "p/Animal") c →
            c.insertion.memberAccessRewrite = some ⟨"pet", "p.Dog"⟩) := by
  have hplan : buildFlowReceiverCastPlan petView petContext "pet" (TypeName.internal "p/Dog") =
      some ⟨"pet", "p.Dog", TypeName.internal "p/Animal"⟩ := rfl
  obtain ⟨narrowed, v, hnarrowed, hv, hcasts⟩ :=
    @narrowed_receiver_casts petReaders petView petContext petReceiver _ behind_pet rfl _ hplan
  cases (rfl : petContext.flowTypeOverrides.lookup "pet" = some (TypeName.internal "p/Dog")).symm.trans hnarrowed
  cases (rfl : petContext.localVariables.find? (fun v => v.name = "pet") = some _).symm.trans hv
  exact ⟨by decide, fun c hc => ⟨(hcasts c hc).2.1, (hcasts c hc).2.2⟩⟩

end

/-! ## Static members -/

section

variable {readers : Readers} {view : IndexView} {ctx : SemanticContext} {search : Search}

theorem sourceCandidate_kind (enclosing : String) (member : CurrentClassMember) (score : ℕ) :
    isStaticKind (sourceCandidate readers ctx enclosing member score).kind = isStatic member ∧
      isInstanceKind (sourceCandidate readers ctx enclosing member score).kind = !isStatic member := by
  cases member with
  | method m =>
    rw [sourceCandidate, withCallableInsert_kind]
    change isStaticKind (if _ then _ else _) = _ ∧ isInstanceKind (if _ then _ else _) = _
    cases isStatic (.method m) <;> exact ⟨rfl, rfl⟩
  | field f =>
    change isStaticKind (if _ then _ else _) = _ ∧ isInstanceKind (if _ then _ else _) = _
    cases isStatic (.field f) <;> exact ⟨rfl, rfl⟩

theorem exists_of_mem_provideSourceMembers {typed : String} {keep : CurrentClassMember → Bool}
    {c : CompletionCandidate} (hc : c ∈ provideSourceMembers readers ctx typed keep) :
    ∃ member score, keep member = true ∧
      c = sourceCandidate readers ctx (ctx.enclosingInternalName.getD "") member score := by
  obtain ⟨p, hp, rfl⟩ := List.mem_map.mp hc
  rw [fuzzyFilterSort, List.mem_mergeSort] at hp
  obtain ⟨member, hmember, hscore⟩ := List.mem_filterMap.mp hp
  obtain ⟨score, -, rfl⟩ := Option.map_eq_some_iff.mp hscore
  have hkeep := (List.mem_filter.mp hmember).2
  exact ⟨member, score, (Bool.and_eq_true_iff.mp hkeep).2, rfl⟩

/-- Candidates of a walk are static where static members are allowed, and others where they are not required. -/
theorem candidateOf_static {item : Item} {c : CompletionCandidate}
    (hc : candidateOf readers view ctx search item = some c) :
    (isStaticKind c.kind = true → search.allowStatic = true) ∧
      (isInstanceKind c.kind = true → search.onlyStatic = false) := by
  obtain ⟨hpasses, score, rfl⟩ := candidateOf_eq_some hc
  obtain ⟨-, hstatic, hinstance⟩ := @build_kind readers view ctx search item score
  have hallowed := (Bool.and_eq_true_iff.mp hpasses).2
  rw [hstatic, hinstance]
  rw [staticAllowed] at hallowed
  split_ifs at hallowed with hflag
  · exact ⟨fun _ => hallowed, fun h => by simp [hflag] at h⟩
  · exact ⟨fun h => absurd h hflag, fun _ => (Bool.not_eq_true' _).mp hallowed⟩

theorem sourceMembers_static {typed : String} {implicitReceiver : Bool} {c : CompletionCandidate}
    (hc : c ∈ provideFromSourceMembers readers ctx typed implicitReceiver) (himplicit : implicitReceiver = true)
    (hstatic : ctx.isInStaticContext = true) : isInstanceKind c.kind = false := by
  obtain ⟨member, score, hkeep, rfl⟩ := exists_of_mem_provideSourceMembers hc
  rw [himplicit, hstatic, Bool.true_and, Bool.true_and, Bool.not_not] at hkeep
  rw [(sourceCandidate_kind _ member score).2, hkeep]
  rfl

theorem mem_staticMembers {owner : ClassMetadata} {typed : String} {c : CompletionCandidate}
    (hc : c ∈ staticMembers readers ctx owner typed) : isInstanceKind c.kind = false := by
  rw [staticMembers] at hc
  rcases List.mem_append.mp hc with hc | hc
  · rcases List.mem_append.mp hc with hc | hc
    · obtain ⟨m, -, hc⟩ := List.mem_filterMap.mp hc
      obtain ⟨score, -, rfl⟩ := Option.map_eq_some_iff.mp hc
      have hkind : (staticMethodCandidate readers ctx owner m score).kind = .staticMethod m.desc owner.internalName :=
        withCallableInsert_kind _ _ _ _
      rw [hkind]
      rfl
    · obtain ⟨f, -, hc⟩ := List.mem_filterMap.mp hc
      obtain ⟨score, -, rfl⟩ := Option.map_eq_some_iff.mp hc
      rfl
  · obtain ⟨inner, -, hc⟩ := List.mem_filterMap.mp hc
    obtain ⟨score, -, rfl⟩ := Option.map_eq_some_iff.mp hc
    rfl

/-- Behind a class, static members and classes only. -/
theorem mem_provideStaticAccess {candidates : List CompletionCandidate}
    (h : provideStaticAccess readers view ctx = some candidates) {c : CompletionCandidate} (hc : c ∈ candidates) :
    isInstanceKind c.kind = false := by
  have hsource : ∀ typed, c ∈ provideStaticSourceMembers readers ctx typed → isInstanceKind c.kind = false := by
    intro typed hc
    obtain ⟨member, score, hkeep, rfl⟩ := exists_of_mem_provideSourceMembers hc
    rw [(sourceCandidate_kind _ member score).2, hkeep]
    rfl
  obtain ⟨⟨text, typed⟩, -, rfl⟩ := Option.map_eq_some_iff.mp h
  simp only at hc
  cases hclass : staticClass view ctx text with
  | none =>
    rw [hclass] at hc
    simp only at hc
    split_ifs at hc
    · exact hsource typed hc
    · cases hc
  | some owner =>
    rw [hclass] at hc
    simp only at hc
    split_ifs at hc
    · exact hsource typed hc
    · exact mem_staticMembers hc

end

/-! ## The static rule of a place -/

section

variable {readers : Readers} {view : IndexView} {ctx : SemanticContext} {r : Receiver}

/-- The type that the receiver is found to have is an array type. -/
def Receiver.IsArray (readers : Readers) (ctx : SemanticContext) (r : Receiver) : Prop :=
  ∃ original, r.resolvedOriginal readers ctx = some original ∧
    (r.resolvedEffective readers ctx original).isArray = true

theorem foldl_methods (search : Search) (receiver : ReceiverTexts) (classes : List ClassMetadata)
    (gathered : Gathered) :
    classes.foldl (fun (gathered : Gathered) (c : ClassMetadata) =>
        c.methods.foldl (pushMemberMethodCandidate readers view ctx search receiver c) gathered) gathered =
      (classes.flatMap fun c => c.methods.map fun m => Item.mk receiver c (.method m)).foldl
        (push readers view ctx search) gathered := by
  rw [List.foldl_flatMap]
  refine List.foldl_ext _ _ _ fun gathered c _ => ?_
  rw [List.foldl_map]
  rfl

theorem mem_provideArrayMembers {typed : String} {t : TypeName} {c : CompletionCandidate}
    (hc : c ∈ provideArrayMembers readers view ctx typed t) : isStaticKind c.kind = false := by
  rw [provideArrayMembers, foldl_methods, foldl_push, List.mem_append] at hc
  rcases hc with hc | hc
  · split_ifs at hc
    · rw [List.mem_singleton.mp hc]
      rfl
    · cases hc
  · obtain ⟨item, -, hitem⟩ := List.mem_filterMap.mp hc
    exact Bool.eq_false_iff.mpr fun hstatic => Bool.false_ne_true ((candidateOf_static hitem).1 hstatic)

theorem provideFromSource_static {typed : String} {implicitReceiver : Bool} {c : CompletionCandidate}
    (hc : c ∈ provideFromSourceMembers readers ctx typed implicitReceiver)
    (hown : r.isThis = true ∨ r.isImplicit = true) (himplicit : r.isImplicit = true → implicitReceiver = true) :
    (isStaticKind c.kind = true → r.isThis = true ∨ r.isImplicit = true) ∧
      (ctx.isInStaticContext = true → r.isImplicit = true → isInstanceKind c.kind = true →
        r.IsArray readers ctx) := by
  refine ⟨fun _ => hown, fun hstatic hbare hkind => ?_⟩
  rw [sourceMembers_static hc (himplicit hbare) hstatic] at hkind
  cases hkind

theorem provideFor_static {c : CompletionCandidate} (hc : c ∈ provideFor readers view ctx r)
    (hplace : ((r.isThis || r.isSuper) && ctx.isInStaticContext) = false)
    (hbare : r.isBare = true → r.isImplicit = true) :
    (isStaticKind c.kind = true → r.isThis = true ∨ r.isImplicit = true) ∧
      (ctx.isInStaticContext = true → r.isImplicit = true → isInstanceKind c.kind = true →
        r.IsArray readers ctx) := by
  cases horiginal : r.resolvedOriginal readers ctx with
  | none =>
    rw [provideFor, hplace, if_neg Bool.false_ne_true, horiginal] at hc
    simp only at hc
    split_ifs at hc with hsource
    · exact provideFromSource_static hc (.inr (hbare (Bool.and_eq_true_iff.mp hsource).1)) fun _ => rfl
    · cases hc
  | some original =>
    cases harray : (r.resolvedEffective readers ctx original).isArray with
    | true =>
      rw [provideFor, hplace, if_neg Bool.false_ne_true, horiginal] at hc
      simp only [harray, if_true] at hc
      refine ⟨fun hstatic => ?_, fun _ _ _ => ⟨original, horiginal, harray⟩⟩
      rw [mem_provideArrayMembers hc] at hstatic
      cases hstatic
    | false =>
      rw [provideFor_walk hplace horiginal harray, List.mem_append] at hc
      rcases hc with hc | hc
      · rw [Receiver.sourceMembers] at hc
        split_ifs at hc with hsource
        · have hown := (Bool.and_eq_true_iff.mp hsource).1
          exact provideFromSource_static hc ((Bool.or_eq_true _ _).mp hown) id
        · cases hc
      · obtain ⟨item, -, hitem⟩ := List.mem_filterMap.mp hc
        obtain ⟨hyes, hno⟩ := candidateOf_static hitem
        refine ⟨fun hstatic => (Bool.or_eq_true _ _).mp (hyes hstatic), fun hstatic himplicit hkind => ?_⟩
        have honly := hno hkind
        rw [Receiver.search, himplicit, hstatic] at honly
        cases honly

theorem receiverOf_bare (h : receiverOf ctx = some r) : r.isBare = true → r.isImplicit = true := by
  intro hbare
  rw [receiverOf] at h
  split at h <;> cases h
  · cases hbare
  · rfl
  · rfl

/-- Behind a class no member of an instance is offered; elsewhere static members are offered with bare names and
behind `this` only, and in static code nothing is behind `this` and `super`, and with bare names no member of an
instance but those of an array. -/
theorem static_members {c : CompletionCandidate} (hc : c ∈ provide readers view ctx) :
    (staticReceiver ctx ≠ none → isInstanceKind c.kind = false) ∧
      (staticReceiver ctx = none → ∃ r, receiverOf ctx = some r ∧
        (isStaticKind c.kind = true → r.isThis = true ∨ r.isImplicit = true) ∧
        (ctx.isInStaticContext = true → r.isThis = false ∧ r.isSuper = false ∧
          (r.isImplicit = true → isInstanceKind c.kind = true → r.IsArray readers ctx))) := by
  rw [provide] at hc
  cases hplace : staticReceiver ctx with
  | some place =>
    refine ⟨fun _ => ?_, fun h => absurd h (Option.some_ne_none _)⟩
    have haccess : provideStaticAccess readers view ctx ≠ none := by
      rw [provideStaticAccess, hplace]
      exact Option.some_ne_none _
    obtain ⟨candidates, hcandidates⟩ := Option.ne_none_iff_exists'.mp haccess
    rw [hcandidates, Option.getD_some] at hc
    exact mem_provideStaticAccess hcandidates hc
  | none =>
    refine ⟨fun h => absurd rfl h, fun _ => ?_⟩
    have haccess : provideStaticAccess readers view ctx = none := by
      rw [provideStaticAccess, hplace]
      rfl
    rw [haccess, Option.getD_none] at hc
    cases hreceiver : receiverOf ctx with
    | none =>
      rw [hreceiver] at hc
      cases hc
    | some r =>
      rw [hreceiver, Option.map_some, Option.getD_some] at hc
      refine ⟨r, rfl, ?_⟩
      cases hown : (r.isThis || r.isSuper) && ctx.isInStaticContext with
      | true =>
        rw [provideFor, if_pos hown] at hc
        cases hc
      | false =>
        obtain ⟨hstatic, hinstance⟩ := provideFor_static hc hown (receiverOf_bare hreceiver)
        refine ⟨hstatic, fun hctx => ?_⟩
        rw [hctx, Bool.and_true, Bool.or_eq_false_iff] at hown
        exact ⟨hown.1, hown.2, hinstance hctx⟩

theorem static_members_pet :
    (provide petReaders petView petContext).length = 2 ∧
      ∀ c ∈ provide petReaders petView petContext, isStaticKind c.kind = false := by
  refine ⟨by decide, fun c hc => ?_⟩
  obtain ⟨-, hplace⟩ := @static_members petReaders petView petContext c hc
  obtain ⟨r, hr, hstatic, -⟩ := hplace rfl
  cases (rfl : receiverOf petContext = some petReceiver).symm.trans hr
  refine Bool.eq_false_iff.mpr fun h => ?_
  rcases hstatic h with h | h <;> cases h

end

end JavaAnalyzer.Completion.MemberProvider
