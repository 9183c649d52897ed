import JavaAnalyzer.Index.ArchiveStub
import JavaAnalyzer.Language.Members

/-! # Declaration ranges of members

`collect_class_member_declarations` of `language/java/class_parser.rs` files the range of every member under
its name and descriptor. The extraction of `members.rs` names the same members. `ranges_match_iff` says for
which bodies the two agree. -/

namespace JavaAnalyzer.Language
set_option autoImplicit false
open JavaAnalyzer.Index Jvm Semantic Text

/-! ## The records -/

inductive MemberRecord where
  | method (name descriptor : String)
  | field (name : String)
deriving DecidableEq

/-- `declaration_return_type_kind` -/
def declarationReturnTypeKinds : List String :=
  ["void_type", "integral_type", "floating_point_type", "boolean_type", "type_identifier", "array_type",
    "generic_type"]

def declarationReturnTypeText (n : Node) (defaultType : String) : List Char :=
  n.declaredTypeText declarationReturnTypeKinds defaultType

def fieldTypeText (n : Node) : Option String :=
  (n.firstChildOfKinds ["void_type", "integral_type", "floating_point_type", "boolean_type", "type_identifier",
    "array_type", "generic_type"]).map Node.text

def insertMethodDeclaration (typeCtx : SourceTypeCtx) (n : Node) : Option MemberRecord :=
  (((declarationNameNode n).map Node.text).filter isMethodName).map fun name =>
    .method name (String.ofList (typeCtx.buildJavaDescriptor
      (formalsText (n.firstChildOfKind "formal_parameters")) (declarationReturnTypeText n "void")))

def insertConstructorDeclaration (typeCtx : SourceTypeCtx) (ancestors : List Node) (n : Node) :
    Option MemberRecord :=
  (declarationNameNode n).map fun _ =>
    .method "<init>" (String.ofList (typeCtx.buildJavaDescriptor
      (formalsText (constructorParams ancestors n)) "void".toList))

def insertAnnotationElementDeclaration (typeCtx : SourceTypeCtx) (n : Node) : Option MemberRecord :=
  let retType := declarationReturnTypeText n ""
  ((((n.childByFieldName "name").or (n.firstChildOfKind "identifier")).map Node.text).filter fun name =>
    !isJavaKeyword name).bind fun name =>
      if retType.isEmpty then none
      else some (.method name (String.ofList (typeCtx.buildJavaDescriptor ['(', ')'] retType)))

def insertFieldDeclarations (n : Node) : List MemberRecord :=
  match fieldTypeText n with
  | none => []
  | some _ => (n.children.filter fun child => child.kind = "variable_declarator").filterMap fun declarator =>
      (((declarationNameNode declarator).map Node.text).filter fun name => !isJavaKeyword name).map .field

mutual

def recordsOfChild (typeCtx : SourceTypeCtx) (ancestors : List Node) : Node → List MemberRecord
  | .mk kind field text children =>
    if kind = "method_declaration" then
      (insertMethodDeclaration typeCtx (.mk kind field text children)).toList
    else if ["constructor_declaration", "compact_constructor_declaration"].contains kind then
      (insertConstructorDeclaration typeCtx ancestors (.mk kind field text children)).toList
    else if kind = "annotation_type_element_declaration" then
      (insertAnnotationElementDeclaration typeCtx (.mk kind field text children)).toList
    else if kind = "field_declaration" then insertFieldDeclarations (.mk kind field text children)
    else if ["enum_body_declarations", "ERROR"].contains kind then
      recordsOfChildren typeCtx (.mk kind field text children :: ancestors) children
    else []

/-- `collect_class_member_declarations`, over the children of a node with the nodes from it up. -/
def recordsOfChildren (typeCtx : SourceTypeCtx) (ancestors : List Node) : List Node → List MemberRecord
  | [] => []
  | n :: nodes => recordsOfChild typeCtx ancestors n ++ recordsOfChildren typeCtx ancestors nodes

end

/-- What `collect_class_member_declarations` records of a body, in its order. -/
def collectClassMemberDeclarations (typeCtx : SourceTypeCtx) (body : Cursor) : List MemberRecord :=
  recordsOfChildren typeCtx body.path body.node.children

def methodKeys (records : List MemberRecord) : List (String × String) :=
  records.filterMap fun
    | .method name descriptor => some (name, descriptor)
    | .field _ => none

def fieldKeys (records : List MemberRecord) : List String :=
  records.filterMap fun
    | .field name => some name
    | .method _ _ => none

/-! ## Bodies -/

mutual

def memberNodesOfChild (ancestors : List Node) : Node → List Cursor
  | .mk kind field text children =>
    if kind = "enum_body_declarations" then
      memberNodesOf (.mk kind field text children :: ancestors) children
    else [⟨.mk kind field text children, ancestors⟩]

def memberNodesOf (ancestors : List Node) : List Node → List Cursor
  | [] => []
  | n :: nodes => memberNodesOfChild ancestors n ++ memberNodesOf ancestors nodes

end

/-- The declarations of a body, those behind the constants of an enum among them. -/
def memberNodes (body : Cursor) : List Cursor :=
  memberNodesOf body.path body.node.children

/-- An error-free body of the grammar: declarations have names, the type of a member is the one child of a
type kind, a declarator is named by its first identifier, and statements hold no members. -/
structure ClassBody where
  body : Cursor
  noError : ∀ n ∈ body.node.subnodes, n.kind ≠ "ERROR"
  notBody : ∀ d ∈ memberNodes body, d.kind ∉ ["class_body", "interface_body", "enum_body", "program"]
  named : ∀ d ∈ memberNodes body,
    d.kind ∈ ["method_declaration", "constructor_declaration", "compact_constructor_declaration"] →
    ∃ nameNode, d.node.childByFieldName "name" = some nameNode ∧
      d.node.firstChildOfKind "identifier" = some nameNode
  typed : ∀ d ∈ memberNodes body, d.kind ∈ ["method_declaration", "annotation_type_element_declaration"] →
    ∀ child ∈ d.node.children, child.kind ∈ methodReturnTypeKinds →
      d.node.childByFieldName "type" = some child
  declarators : ∀ d ∈ memberNodes body, d.kind = "field_declaration" →
    ∀ declarator ∈ d.node.children, declarator.kind = "variable_declarator" →
      declarationNameNode declarator = declarator.firstChildOfKind "identifier"
  statements : ∀ d ∈ memberNodes body, d.kind = "method_declaration" →
    ∀ b, d.node.childByFieldName "body" = some b →
      ∀ child ∈ b.children, child.kind ∉ ["method_declaration", "field_declaration"]

/-- The records are the names and descriptors of the extracted methods, and the names of the extracted
fields. -/
structure RangesMatch (ctx : MemberCtx) (body : Cursor) : Prop where
  methods : methodKeys (collectClassMemberDeclarations ctx.typeCtx body) =
    (methodsOf (extractClassMembersFromBody ctx body)).map fun m => (m.name, m.desc)
  fields : fieldKeys (collectClassMemberDeclarations ctx.typeCtx body) =
    (fieldsOf (extractClassMembersFromBody ctx body)).map FieldSummary.name

/-! ## Descriptors read back -/

/-- The descriptor of a method whose parameters and return type were read off a descriptor. -/
def readBack (descriptor : List Char) : String :=
  String.ofList ('(' :: ((splitParamDescriptors descriptor).flatten ++
    ')' :: ((parseReturnTypeFromDescriptor (String.ofList descriptor)).getD "V").toList))

/-- The same for a constructor, whose return type is not read. -/
def readBackParams (descriptor : List Char) : String :=
  String.ofList ('(' :: ((splitParamDescriptors descriptor).flatten ++ [')', 'V']))

theorem fillParams_descriptors (ctx : MemberCtx) (types : List (List Char)) (nodes : List Node) :
    (fillParams ctx types nodes).map (fun p => p.descriptor.toList) = types := by
  induction types generalizing nodes with
  | nil => cases nodes <;> rfl
  | cons type types ih =>
    cases nodes with
    | nil => simp [fillParams, Function.comp_def]
    | cons child nodes => rw [fillParams, List.map_cons, ih, String.toList_ofList]

variable {ctx : MemberCtx} {formals : Option Node} {retType : List Char}

theorem formalsText_none : formalsText none = ['(', ')'] := by
  decide

theorem splitParamDescriptors_none :
    splitParamDescriptors (ctx.typeCtx.buildJavaDescriptor ['(', ')'] retType) = [] := by
  have hnone : SourceTypeCtx.paramTypeTexts ['(', ')'] = [] := by decide
  have hparams : paramText ('(' :: ([] ++ ')' :: ctx.typeCtx.toDescriptor (trim retType))) = some [] :=
    paramText_eq List.not_mem_nil _
  rw [SourceTypeCtx.buildJavaDescriptor, hnone, splitParamDescriptors]
  rw [List.nil_append] at hparams
  rw [List.flatMap_nil, List.nil_append, hparams]
  rfl

theorem methodOf_params (name : String) (flags : UInt16) (annotations : List AnnotationSummary)
    (signature : Option String) :
    (methodOf ctx name formals (ctx.typeCtx.buildJavaDescriptor (formalsText formals) retType) flags annotations
      signature).params.map (fun p => p.descriptor.toList) =
      splitParamDescriptors (ctx.typeCtx.buildJavaDescriptor (formalsText formals) retType) := by
  cases formals with
  | none =>
    rw [formalsText_none, splitParamDescriptors_none, methodOf, Option.map_none, Option.getD_none,
      List.map_nil]
  | some f => rw [methodOf, Option.map_some, Option.getD_some, parseParams, fillParams_descriptors]

theorem methodOf_desc (name : String) (flags : UInt16) (annotations : List AnnotationSummary)
    (signature : Option String) :
    (methodOf ctx name formals (ctx.typeCtx.buildJavaDescriptor (formalsText formals) retType) flags annotations
      signature).desc = readBack (ctx.typeCtx.buildJavaDescriptor (formalsText formals) retType) := by
  rw [← String.toList_inj, desc_toList, methodOf_params, readBack, String.toList_ofList, methodOf]

/-! ## One declaration after the other -/

def membersOf (ctx : MemberCtx) (d : Cursor) : List CurrentClassMember :=
  membersOfChild ctx false d.ancestors d.node

def recordsOf (typeCtx : SourceTypeCtx) (d : Cursor) : List MemberRecord :=
  recordsOfChild typeCtx d.ancestors d.node

mutual

theorem membersOfChild_eq (ctx : MemberCtx) (ancestors : List Node) : ∀ n : Node,
    membersOfChild ctx false ancestors n = (memberNodesOfChild ancestors n).flatMap (membersOf ctx)
  | .mk kind field text children => by
    rw [memberNodesOfChild]
    split_ifs with hkind
    · subst hkind
      rw [← membersOfChildren_eq ctx _ children]
      rfl
    · rw [List.flatMap_singleton, membersOf]

theorem membersOfChildren_eq (ctx : MemberCtx) (ancestors : List Node) : ∀ nodes : List Node,
    membersOfChildren ctx false ancestors nodes = (memberNodesOf ancestors nodes).flatMap (membersOf ctx)
  | [] => rfl
  | n :: nodes => by
    rw [membersOfChildren, memberNodesOf, List.flatMap_append, membersOfChild_eq ctx ancestors n,
      membersOfChildren_eq ctx ancestors nodes]

end

mutual

theorem recordsOfChild_eq (typeCtx : SourceTypeCtx) (ancestors : List Node) : ∀ n : Node,
    recordsOfChild typeCtx ancestors n = (memberNodesOfChild ancestors n).flatMap (recordsOf typeCtx)
  | .mk kind field text children => by
    rw [memberNodesOfChild]
    split_ifs with hkind
    · subst hkind
      rw [← recordsOfChildren_eq typeCtx _ children]
      rfl
    · rw [List.flatMap_singleton, recordsOf]

theorem recordsOfChildren_eq (typeCtx : SourceTypeCtx) (ancestors : List Node) : ∀ nodes : List Node,
    recordsOfChildren typeCtx ancestors nodes =
      (memberNodesOf ancestors nodes).flatMap (recordsOf typeCtx)
  | [] => rfl
  | n :: nodes => by
    rw [recordsOfChildren, memberNodesOf, List.flatMap_append, recordsOfChild_eq typeCtx ancestors n,
      recordsOfChildren_eq typeCtx ancestors nodes]

end

theorem recoverFromBody_eq {members : List CurrentClassMember} {nodes : List Node}
    (h : ∀ n ∈ nodes, n.kind ∉ ["ERROR", "method_declaration", "field_declaration"]) :
    recoverFromBody ctx members nodes = members := by
  induction nodes with
  | nil => rfl
  | cons child nodes ih =>
    rw [List.forall_mem_cons] at h
    have hrest := ih h.2
    simp only [List.mem_cons, List.not_mem_nil, or_false, not_or] at h
    obtain ⟨⟨herror, hmethod, hfield⟩, hnodes⟩ := h
    have hmisplaced : misplacedMembers ctx child = [] := by
      rw [misplacedMembers, if_neg hmethod, if_neg hfield]
    unfold recoverFromBody
    rw [if_neg herror, hmisplaced, List.append_nil, hrest]
    split_ifs with hlocal
    · cases nodes with
      | nil => rfl
      | cons next rest =>
        have hnext := (hnodes next List.mem_cons_self).1
        simp [hnext, hrest]
    · rfl

theorem extract_eq (b : ClassBody) :
    extractClassMembersFromBody ctx b.body = (memberNodes b.body).flatMap (membersOf ctx) := by
  have hnone : b.body.node.children.filter (fun child => child.kind = "ERROR") = [] := by
    rw [List.filter_eq_nil_iff]
    intro child hchild
    have hmem : child ∈ b.body.node.subnodes :=
      Node.mem_subnodes_of_child (by rw [Node.subnodes_eq]; exact List.mem_cons_self) hchild
    simpa using b.noError child hmem
  rw [extractClassMembersFromBody, extractErrorRecoveryMembersFromBody, hnone, List.flatMap_nil,
    List.append_nil, extractValidMembersOnly, membersOfChildren_eq, memberNodes]

theorem collect_eq (typeCtx : SourceTypeCtx) (body : Cursor) :
    collectClassMemberDeclarations typeCtx body = (memberNodes body).flatMap (recordsOf typeCtx) := by
  rw [collectClassMemberDeclarations, recordsOfChildren_eq, memberNodes]

mutual

theorem memberNodesOfChild_spec {ancestors : List Node} {d : Cursor} : ∀ {n : Node},
    d ∈ memberNodesOfChild ancestors n → d.kind ≠ "enum_body_declarations" ∧ d.node ∈ n.subnodes
  | .mk kind field text children, h => by
    rw [memberNodesOfChild] at h
    rw [Node.subnodes_eq, List.mem_cons, Node.mem_subnodesOf]
    split_ifs at h with hkind
    · obtain ⟨hne, m, hm, hmem⟩ := memberNodesOf_spec h
      exact ⟨hne, .inr ⟨m, hm, hmem⟩⟩
    · obtain rfl := List.mem_singleton.mp h
      exact ⟨hkind, .inl rfl⟩

theorem memberNodesOf_spec {ancestors : List Node} {d : Cursor} : ∀ {nodes : List Node},
    d ∈ memberNodesOf ancestors nodes →
      d.kind ≠ "enum_body_declarations" ∧ ∃ n ∈ nodes, d.node ∈ n.subnodes
  | n :: nodes, h => by
    rw [memberNodesOf, List.mem_append] at h
    rcases h with h | h
    · obtain ⟨hne, hmem⟩ := memberNodesOfChild_spec h
      exact ⟨hne, n, List.mem_cons_self, hmem⟩
    · obtain ⟨hne, m, hm, hmem⟩ := memberNodesOf_spec h
      exact ⟨hne, m, List.mem_cons_of_mem n hm, hmem⟩

end

variable {b : ClassBody} {d : Cursor}

theorem ClassBody.mem_subnodes (h : d ∈ memberNodes b.body) : d.node ∈ b.body.node.subnodes := by
  obtain ⟨-, m, hm, hmem⟩ := memberNodesOf_spec h
  rw [Node.subnodes_eq, List.mem_cons, Node.mem_subnodesOf]
  exact .inr ⟨m, hm, hmem⟩

/-! ## What a declaration puts out -/

theorem membersOf_method (h : d ∈ memberNodes b.body) (hkind : d.kind = "method_declaration") :
    membersOf ctx d = (parseMethodNode ctx d.node).toList := by
  have hstatements := b.statements d h hkind
  have hbody : ∀ n ∈ ((d.node.childByFieldName "body").map Node.children).getD [],
      n.kind ∉ ["ERROR", "method_declaration", "field_declaration"] := by
    cases hb : d.node.childByFieldName "body" with
    | none => simp
    | some body =>
      intro n hn
      have hmem := Node.mem_subnodes_of_child
        (Node.mem_subnodes_of_child (b.mem_subnodes h) (Node.childByFieldName_mem hb)) hn
      rw [List.mem_cons, not_or]
      exact ⟨b.noError n hmem, hstatements body hb n hn⟩
  have hmembers : membersOf ctx d = methodMembers ctx d.node := by
    obtain ⟨⟨kind, field, text, children⟩, ancestors⟩ := d
    obtain rfl : kind = "method_declaration" := hkind
    rfl
  rw [hmembers, methodMembers, recoverFromBody_eq hbody]

theorem membersOf_constructor
    (hkind : d.kind ∈ ["constructor_declaration", "compact_constructor_declaration"]) :
    membersOf ctx d = [parseConstructorNode ctx d.ancestors d.node] := by
  obtain ⟨⟨kind, field, text, children⟩, ancestors⟩ := d
  rw [List.mem_pair] at hkind
  obtain rfl | rfl : kind = "constructor_declaration" ∨ kind = "compact_constructor_declaration" := hkind
  all_goals rfl

theorem membersOf_element (hkind : d.kind = "annotation_type_element_declaration") :
    membersOf ctx d = (parseAnnotationElementNode ctx d.node).toList := by
  obtain ⟨⟨kind, field, text, children⟩, ancestors⟩ := d
  obtain rfl : kind = "annotation_type_element_declaration" := hkind
  rfl

theorem membersOf_field (hkind : d.kind = "field_declaration") :
    membersOf ctx d = parseFieldNode ctx d.node := by
  obtain ⟨⟨kind, field, text, children⟩, ancestors⟩ := d
  obtain rfl : kind = "field_declaration" := hkind
  rfl

/-- The kinds of the declarations of members. -/
def memberKinds : List String :=
  ["method_declaration", "constructor_declaration", "compact_constructor_declaration",
    "annotation_type_element_declaration", "field_declaration"]

theorem membersOf_other (h : d ∈ memberNodes b.body) (hkind : d.kind ∉ memberKinds) :
    membersOf ctx d = [] := by
  have hnot := b.notBody d h
  have henum := (memberNodesOf_spec h).1
  obtain ⟨⟨kind, field, text, children⟩, ancestors⟩ := d
  simp only [Cursor.kind, Node.kind, memberKinds, List.mem_cons, List.not_mem_nil, or_false, not_or] at hkind hnot henum
  have hmember : kind ∉ bodyKinds := by simp [bodyKinds, hnot, henum]
  by_cases hdecl : kind ∈ classDeclKinds
  · simp [membersOf, membersOfChild, hkind, hdecl]
  · simp [membersOf, membersOfChild, hkind, hdecl, hmember]

theorem recordsOf_method (hkind : d.kind = "method_declaration") :
    recordsOf ctx.typeCtx d = (insertMethodDeclaration ctx.typeCtx d.node).toList := by
  obtain ⟨⟨kind, field, text, children⟩, ancestors⟩ := d
  obtain rfl : kind = "method_declaration" := hkind
  rfl

theorem recordsOf_constructor
    (hkind : d.kind ∈ ["constructor_declaration", "compact_constructor_declaration"]) :
    recordsOf ctx.typeCtx d = (insertConstructorDeclaration ctx.typeCtx d.ancestors d.node).toList := by
  obtain ⟨⟨kind, field, text, children⟩, ancestors⟩ := d
  rw [List.mem_pair] at hkind
  obtain rfl | rfl : kind = "constructor_declaration" ∨ kind = "compact_constructor_declaration" := hkind
  all_goals rfl

theorem recordsOf_element (hkind : d.kind = "annotation_type_element_declaration") :
    recordsOf ctx.typeCtx d = (insertAnnotationElementDeclaration ctx.typeCtx d.node).toList := by
  obtain ⟨⟨kind, field, text, children⟩, ancestors⟩ := d
  obtain rfl : kind = "annotation_type_element_declaration" := hkind
  rfl

theorem recordsOf_field (hkind : d.kind = "field_declaration") :
    recordsOf ctx.typeCtx d = insertFieldDeclarations d.node := by
  obtain ⟨⟨kind, field, text, children⟩, ancestors⟩ := d
  obtain rfl : kind = "field_declaration" := hkind
  rfl

theorem recordsOf_other (h : d ∈ memberNodes b.body) (hkind : d.kind ∉ memberKinds) :
    recordsOf ctx.typeCtx d = [] := by
  have herror := b.noError d.node (b.mem_subnodes h)
  have henum := (memberNodesOf_spec h).1
  obtain ⟨⟨kind, field, text, children⟩, ancestors⟩ := d
  simp only [Cursor.kind, Node.kind, memberKinds, List.mem_cons, List.not_mem_nil, or_false, not_or] at hkind herror henum
  simp [recordsOf, recordsOfChild, hkind, herror, henum]

/-! ## Qualified types -/

/-- The declared type is a qualified name, which the records do not know. -/
def Node.hasQualifiedType (n : Node) : Bool :=
  n.children.any fun child => child.kind = "scoped_type_identifier"

/-- The declared type, without a qualified name. -/
def knownTypeText (n : Node) (defaultType : String) : List Char :=
  if n.hasQualifiedType then
    (defaultType ++ ((n.childByFieldName "dimensions").map Node.text).getD "").toList
  else declaredReturnTypeText n defaultType

theorem mem_methodReturnTypeKinds {kind : String} :
    kind ∈ methodReturnTypeKinds ↔ kind ∈ declarationReturnTypeKinds ∨ kind = "scoped_type_identifier" := by
  simp only [methodReturnTypeKinds, declarationReturnTypeKinds, List.mem_cons, List.not_mem_nil, or_false]
  tauto

theorem not_mem_declarationReturnTypeKinds : "scoped_type_identifier" ∉ declarationReturnTypeKinds := by
  decide

theorem declarationReturnTypeText_unqualified {n : Node} (h : ¬ n.hasQualifiedType) (defaultType : String) :
    declarationReturnTypeText n defaultType = declaredReturnTypeText n defaultType := by
  rw [Node.hasQualifiedType, List.any_eq_true, not_exists] at h
  have hkinds : ∀ child ∈ n.children,
      declarationReturnTypeKinds.contains child.kind = methodReturnTypeKinds.contains child.kind := by
    intro child hchild
    rw [Bool.eq_iff_iff, List.contains_iff_mem, List.contains_iff_mem, mem_methodReturnTypeKinds,
      or_iff_left fun hqualified => h child ⟨hchild, decide_eq_true hqualified⟩]
  have hfind : n.firstChildOfKinds declarationReturnTypeKinds =
      n.firstChildOfKinds methodReturnTypeKinds :=
    List.find?_congr hkinds
  have hfilter : ((n.childByFieldName "type").filter fun child =>
      declarationReturnTypeKinds.contains child.kind) =
      (n.childByFieldName "type").filter fun child => methodReturnTypeKinds.contains child.kind := by
    cases htype : n.childByFieldName "type" with
    | none => rfl
    | some child => simp only [Option.filter_some, hkinds child (Node.childByFieldName_mem htype)]
  rw [declarationReturnTypeText, declaredReturnTypeText, Node.declaredTypeText, Node.declaredTypeText,
    hfind, hfilter]

theorem declarationReturnTypeText_qualified {n : Node} (h : n.hasQualifiedType)
    (htyped : ∀ child ∈ n.children, child.kind ∈ methodReturnTypeKinds →
      n.childByFieldName "type" = some child) (defaultType : String) :
    declarationReturnTypeText n defaultType =
      (defaultType ++ ((n.childByFieldName "dimensions").map Node.text).getD "").toList := by
  obtain ⟨qualified, hmem, hkind⟩ := List.any_eq_true.mp h
  rw [decide_eq_true_eq] at hkind
  have htype := htyped qualified hmem (mem_methodReturnTypeKinds.mpr (.inr hkind))
  have hnone : n.firstChildOfKinds declarationReturnTypeKinds = none := by
    rw [Node.firstChildOfKinds, List.find?_eq_none]
    intro child hchild hmem
    rw [List.contains_iff_mem] at hmem
    have hother := htyped child hchild (mem_methodReturnTypeKinds.mpr (.inl hmem))
    rw [htype, Option.some.injEq] at hother
    rw [← hother, hkind] at hmem
    exact not_mem_declarationReturnTypeKinds hmem
  have hfilter : ((n.childByFieldName "type").filter fun child =>
      declarationReturnTypeKinds.contains child.kind) = none := by
    have hfalse : declarationReturnTypeKinds.contains qualified.kind = false := by
      rw [hkind]
      decide
    rw [htype, Option.filter_some, hfalse]
    rfl
  rw [declarationReturnTypeText, Node.declaredTypeText, hfilter, hnone]
  rfl

theorem declarationReturnTypeText_eq {n : Node}
    (htyped : ∀ child ∈ n.children, child.kind ∈ methodReturnTypeKinds →
      n.childByFieldName "type" = some child) (defaultType : String) :
    declarationReturnTypeText n defaultType = knownTypeText n defaultType := by
  rw [knownTypeText]
  split_ifs with hqualified
  · exact declarationReturnTypeText_qualified hqualified htyped defaultType
  · exact declarationReturnTypeText_unqualified hqualified defaultType

theorem knownTypeText_eq_nil {n : Node} (h : declaredReturnTypeText n "" = []) : knownTypeText n "" = [] := by
  rw [knownTypeText]
  split_ifs
  · rw [declaredReturnTypeText, Node.declaredTypeText, String.toList_append, List.append_eq_nil_iff] at h
    rw [String.toList_append, h.2]
    rfl
  · exact h

/-! ## When the keys are the same -/

def methodDescriptor (typeCtx : SourceTypeCtx) (n : Node) (retType : List Char) : List Char :=
  typeCtx.buildJavaDescriptor (formalsText (n.firstChildOfKind "formal_parameters")) retType

def constructorDescriptor (typeCtx : SourceTypeCtx) (d : Cursor) : List Char :=
  typeCtx.buildJavaDescriptor (formalsText (constructorParams d.ancestors d.node)) "void".toList

def elementDescriptor (typeCtx : SourceTypeCtx) (retType : List Char) : List Char :=
  typeCtx.buildJavaDescriptor ['(', ')'] retType

def methodNameOf (n : Node) : Option String :=
  ((n.firstChildOfKind "identifier").map Node.text).filter isMethodName

def elementNameOf (n : Node) : Option String :=
  (((n.childByFieldName "name").or (n.firstChildOfKind "identifier")).map Node.text).filter fun name =>
    !isJavaKeyword name

/-- The descriptor of a declaration reads back as it is filed: as itself, and with a qualified type as the one
without it. A field has a type that is no qualified name. -/
structure KeepsKey (typeCtx : SourceTypeCtx) (d : Cursor) : Prop where
  method : d.kind = "method_declaration" → (methodNameOf d.node).isSome →
    readBack (methodDescriptor typeCtx d.node (declaredReturnTypeText d.node "void")) =
      String.ofList (methodDescriptor typeCtx d.node (knownTypeText d.node "void"))
  constructor : d.kind ∈ ["constructor_declaration", "compact_constructor_declaration"] →
    readBackParams (constructorDescriptor typeCtx d) = String.ofList (constructorDescriptor typeCtx d)
  element : d.kind = "annotation_type_element_declaration" → (elementNameOf d.node).isSome →
    declaredReturnTypeText d.node "" ≠ [] → knownTypeText d.node "" ≠ [] ∧
      readBack (elementDescriptor typeCtx (declaredReturnTypeText d.node "")) =
        String.ofList (elementDescriptor typeCtx (knownTypeText d.node ""))
  field : d.kind = "field_declaration" → fieldNames d.node ≠ [] → (fieldTypeText d.node).isSome

/-- The method keys and field names that are recorded of a declaration. -/
def recordedKeys (typeCtx : SourceTypeCtx) (d : Cursor) : List (String × String) × List String :=
  (methodKeys (recordsOf typeCtx d), fieldKeys (recordsOf typeCtx d))

/-- Those of the members extracted from it. -/
def extractedKeys (ctx : MemberCtx) (d : Cursor) : List (String × String) × List String :=
  ((methodsOf (membersOf ctx d)).map fun m => (m.name, m.desc),
    (fieldsOf (membersOf ctx d)).map FieldSummary.name)

theorem recordedKeys_method (h : d ∈ memberNodes b.body) (hkind : d.kind = "method_declaration") :
    recordedKeys ctx.typeCtx d = ((methodNameOf d.node).toList.map fun name =>
      (name, String.ofList (methodDescriptor ctx.typeCtx d.node (knownTypeText d.node "void"))), []) := by
  obtain ⟨nameNode, hname, hfirst⟩ := b.named d h (by rw [hkind]; decide)
  have htyped := b.typed d h (by rw [hkind]; decide)
  rw [recordedKeys, recordsOf_method hkind, insertMethodDeclaration, methodNameOf, declarationNameNode, hname,
    hfirst, Option.some_or, declarationReturnTypeText_eq htyped, methodDescriptor]
  cases ((some nameNode).map Node.text).filter isMethodName <;> rfl

theorem extractedKeys_method (h : d ∈ memberNodes b.body) (hkind : d.kind = "method_declaration") :
    extractedKeys ctx d = ((methodNameOf d.node).toList.map fun name =>
      (name, readBack (methodDescriptor ctx.typeCtx d.node (declaredReturnTypeText d.node "void"))), []) := by
  rw [extractedKeys, membersOf_method h hkind, parseMethodNode]
  dsimp only
  rw [← methodNameOf, methodDescriptor]
  cases methodNameOf d.node with
  | none => rfl
  | some name =>
    simp only [Option.map_some, Option.toList_some, methodsOf, fieldsOf, List.filterMap_cons,
      List.filterMap_nil, List.map_cons, List.map_nil, methodOf_desc, Prod.mk.injEq, List.cons.injEq, and_true]
    rw [methodOf]

theorem recordedKeys_constructor (h : d ∈ memberNodes b.body)
    (hkind : d.kind ∈ ["constructor_declaration", "compact_constructor_declaration"]) :
    recordedKeys ctx.typeCtx d =
      ([("<init>", String.ofList (constructorDescriptor ctx.typeCtx d))], []) := by
  obtain ⟨nameNode, hname, -⟩ := b.named d h (List.mem_cons_of_mem _ hkind)
  rw [recordedKeys, recordsOf_constructor hkind, insertConstructorDeclaration, declarationNameNode, hname,
    Option.some_or, Option.map_some, ← constructorDescriptor]
  rfl

theorem constructor_desc (name : String) (flags : UInt16) (annotations : List AnnotationSummary)
    (signature : Option String) :
    MethodSummary.desc { methodOf ctx name formals
      (ctx.typeCtx.buildJavaDescriptor (formalsText formals) retType) flags annotations signature with
      returnType := none } = readBackParams (ctx.typeCtx.buildJavaDescriptor (formalsText formals) retType) := by
  have hvoid : ((none : Option String).getD "V").toList = ['V'] := by decide
  rw [← String.toList_inj, desc_toList, methodOf_params, readBackParams, String.toList_ofList, hvoid]

theorem extractedKeys_constructor
    (hkind : d.kind ∈ ["constructor_declaration", "compact_constructor_declaration"]) :
    extractedKeys ctx d =
      ([("<init>", readBackParams (constructorDescriptor ctx.typeCtx d))], []) := by
  rw [extractedKeys, membersOf_constructor hkind, parseConstructorNode]
  simp only [methodsOf, fieldsOf, List.filterMap_cons, List.filterMap_nil, List.map_cons, List.map_nil,
    constructor_desc, Prod.mk.injEq, List.cons.injEq, and_true, constructorDescriptor]
  rw [methodOf]

theorem recordedKeys_element (h : d ∈ memberNodes b.body)
    (hkind : d.kind = "annotation_type_element_declaration") :
    recordedKeys ctx.typeCtx d = ((elementNameOf d.node).toList.flatMap fun name =>
      if knownTypeText d.node "" = [] then []
      else [(name, String.ofList (elementDescriptor ctx.typeCtx (knownTypeText d.node "")))], []) := by
  have htyped := b.typed d h (by rw [hkind]; decide)
  rw [recordedKeys, recordsOf_element hkind, insertAnnotationElementDeclaration]
  rw [← elementNameOf, declarationReturnTypeText_eq htyped, elementDescriptor]
  cases elementNameOf d.node with
  | none => rfl
  | some name =>
    by_cases hnone : knownTypeText d.node "" = []
    · simp [hnone, methodKeys, fieldKeys]
    · simp [hnone, methodKeys, fieldKeys]

theorem extractedKeys_element (hkind : d.kind = "annotation_type_element_declaration") :
    extractedKeys ctx d = ((elementNameOf d.node).toList.flatMap fun name =>
      if declaredReturnTypeText d.node "" = [] then []
      else [(name, readBack (elementDescriptor ctx.typeCtx (declaredReturnTypeText d.node "")))], []) := by
  have hparams := @methodOf_desc ctx none (declaredReturnTypeText d.node "")
  rw [formalsText_none] at hparams
  rw [extractedKeys, membersOf_element hkind, parseAnnotationElementNode]
  rw [← elementNameOf, elementDescriptor]
  cases elementNameOf d.node with
  | none => rfl
  | some name =>
    by_cases hnone : declaredReturnTypeText d.node "" = []
    · simp [hnone, methodsOf, fieldsOf]
    · simp [hnone, methodsOf, fieldsOf, hparams]
      rw [methodOf]

theorem recordedKeys_field (h : d ∈ memberNodes b.body) (hkind : d.kind = "field_declaration") :
    recordedKeys ctx.typeCtx d =
      ([], if (fieldTypeText d.node).isSome then fieldNames d.node else []) := by
  have hnames : ∀ declarator ∈ d.node.children.filter (fun child => child.kind = "variable_declarator"),
      declarationNameNode declarator = declarator.firstChildOfKind "identifier" := by
    intro declarator hmem
    rw [List.mem_filter, decide_eq_true_eq] at hmem
    exact b.declarators d h hkind declarator hmem.1 hmem.2
  rw [recordedKeys, recordsOf_field hkind, insertFieldDeclarations]
  cases fieldTypeText d.node with
  | none => rfl
  | some type =>
    rw [Option.isSome_some, if_pos rfl, fieldNames]
    generalize d.node.children.filter (fun child => child.kind = "variable_declarator") = nodes at hnames ⊢
    induction nodes with
    | nil => rfl
    | cons declarator nodes ih =>
      rw [List.forall_mem_cons] at hnames
      have hrest := ih hnames.2
      simp only [Prod.mk.injEq] at hrest ⊢
      rw [List.filterMap_cons, List.filterMap_cons, hnames.1]
      cases ((declarator.firstChildOfKind "identifier").map Node.text).filter fun name =>
          !isJavaKeyword name with
      | none => exact hrest
      | some name => exact ⟨hrest.1, congrArg (name :: ·) hrest.2⟩

theorem extractedKeys_field (hkind : d.kind = "field_declaration") :
    extractedKeys ctx d = ([], fieldNames d.node) := by
  rw [extractedKeys, membersOf_field hkind, parseFieldNode]
  induction fieldNames d.node with
  | nil => rfl
  | cons name names ih =>
    simp only [Prod.mk.injEq] at ih ⊢
    exact ⟨ih.1, congrArg (name :: ·) ih.2⟩

theorem keys_other (h : d ∈ memberNodes b.body) (hkind : d.kind ∉ memberKinds) :
    recordedKeys ctx.typeCtx d = ([], []) ∧ extractedKeys ctx d = ([], []) := by
  rw [recordedKeys, extractedKeys, recordsOf_other h hkind, membersOf_other h hkind]
  exact ⟨rfl, rfl⟩

theorem recordedKeys_le (h : d ∈ memberNodes b.body) :
    (recordedKeys ctx.typeCtx d).1.length ≤ (extractedKeys ctx d).1.length ∧
      (recordedKeys ctx.typeCtx d).2.length ≤ (extractedKeys ctx d).2.length := by
  by_cases hkind : d.kind ∈ memberKinds
  · simp only [memberKinds, List.mem_cons, List.not_mem_nil, or_false] at hkind
    rcases hkind with hkind | hkind | hkind | hkind | hkind
    · rw [recordedKeys_method h hkind, extractedKeys_method h hkind]
      simp
    · rw [recordedKeys_constructor h (by simp [hkind]), extractedKeys_constructor (by simp [hkind])]
      simp
    · rw [recordedKeys_constructor h (by simp [hkind]), extractedKeys_constructor (by simp [hkind])]
      simp
    · rw [recordedKeys_element h hkind, extractedKeys_element hkind]
      cases elementNameOf d.node with
      | none => simp
      | some name =>
        by_cases hdeclared : declaredReturnTypeText d.node "" = []
        · simp [hdeclared, knownTypeText_eq_nil hdeclared]
        · by_cases hknown : knownTypeText d.node "" = []
          · simp [hknown]
          · simp [hdeclared, hknown]
    · rw [recordedKeys_field h hkind, extractedKeys_field hkind]
      dsimp only
      split_ifs <;> simp
  · have hkeys := (keys_other h hkind : recordedKeys ctx.typeCtx d = ([], []) ∧ extractedKeys ctx d = ([], []))
    rw [hkeys.1, hkeys.2]
    exact ⟨le_rfl, le_rfl⟩

theorem sameKeys_method (h : d ∈ memberNodes b.body) (hkind : d.kind = "method_declaration") :
    recordedKeys ctx.typeCtx d = extractedKeys ctx d ↔ ((methodNameOf d.node).isSome →
      readBack (methodDescriptor ctx.typeCtx d.node (declaredReturnTypeText d.node "void")) =
        String.ofList (methodDescriptor ctx.typeCtx d.node (knownTypeText d.node "void"))) := by
  rw [recordedKeys_method h hkind, extractedKeys_method h hkind]
  cases methodNameOf d.node with
  | none => simp
  | some name =>
    rw [Option.toList_some, List.map_singleton, List.map_singleton, Prod.mk.injEq, List.cons.injEq,
      Prod.mk.injEq, imp_iff_right Option.isSome_some, and_iff_left rfl, and_iff_left rfl, and_iff_right rfl]
    exact eq_comm

theorem sameKeys_constructor (h : d ∈ memberNodes b.body)
    (hkind : d.kind ∈ ["constructor_declaration", "compact_constructor_declaration"]) :
    recordedKeys ctx.typeCtx d = extractedKeys ctx d ↔
      readBackParams (constructorDescriptor ctx.typeCtx d) =
        String.ofList (constructorDescriptor ctx.typeCtx d) := by
  rw [recordedKeys_constructor h hkind, extractedKeys_constructor hkind, Prod.mk.injEq, List.cons.injEq,
    Prod.mk.injEq, and_iff_left rfl, and_iff_left rfl, and_iff_right rfl]
  exact eq_comm

theorem sameKeys_element (h : d ∈ memberNodes b.body)
    (hkind : d.kind = "annotation_type_element_declaration") :
    recordedKeys ctx.typeCtx d = extractedKeys ctx d ↔ ((elementNameOf d.node).isSome →
      declaredReturnTypeText d.node "" ≠ [] → knownTypeText d.node "" ≠ [] ∧
        readBack (elementDescriptor ctx.typeCtx (declaredReturnTypeText d.node "")) =
          String.ofList (elementDescriptor ctx.typeCtx (knownTypeText d.node ""))) := by
  rw [recordedKeys_element h hkind, extractedKeys_element hkind]
  cases elementNameOf d.node with
  | none => simp
  | some name =>
    rw [Option.toList_some, List.flatMap_singleton, List.flatMap_singleton, Prod.mk.injEq, and_iff_left rfl,
      imp_iff_right Option.isSome_some]
    by_cases hdeclared : declaredReturnTypeText d.node "" = []
    · rw [if_pos hdeclared, if_pos (knownTypeText_eq_nil hdeclared)]
      exact iff_of_true rfl fun hne => absurd hdeclared hne
    · rw [if_neg hdeclared]
      by_cases hknown : knownTypeText d.node "" = []
      · rw [if_pos hknown]
        exact iff_of_false (List.cons_ne_nil _ _).symm fun hboth => (hboth hdeclared).1 hknown
      · rw [if_neg hknown, List.cons.injEq, Prod.mk.injEq, and_iff_left rfl, and_iff_right rfl]
        exact ⟨fun heq _ => ⟨hknown, heq.symm⟩, fun hboth => (hboth hdeclared).2.symm⟩

theorem sameKeys_field (h : d ∈ memberNodes b.body) (hkind : d.kind = "field_declaration") :
    recordedKeys ctx.typeCtx d = extractedKeys ctx d ↔
      (fieldNames d.node ≠ [] → (fieldTypeText d.node).isSome) := by
  rw [recordedKeys_field h hkind, extractedKeys_field hkind, Prod.mk.injEq, and_iff_right rfl]
  by_cases htype : (fieldTypeText d.node).isSome
  · rw [if_pos htype]
    exact iff_of_true rfl fun _ => htype
  · rw [if_neg htype]
    exact ⟨fun hnone hnames => absurd hnone.symm hnames,
      fun himp => (not_not.mp fun hnames => htype (himp hnames)).symm⟩

theorem sameKeys_iff (h : d ∈ memberNodes b.body) :
    recordedKeys ctx.typeCtx d = extractedKeys ctx d ↔ KeepsKey ctx.typeCtx d := by
  have hconstructor : d.kind ∈ ["constructor_declaration", "compact_constructor_declaration"] →
      (recordedKeys ctx.typeCtx d = extractedKeys ctx d ↔ KeepsKey ctx.typeCtx d) := by
    intro hkind
    rw [sameKeys_constructor h hkind]
    refine ⟨fun hdesc => ⟨fun hother => ?_, fun _ => hdesc, fun hother => ?_, fun hother => ?_⟩,
      fun hkeeps => hkeeps.constructor hkind⟩
    all_goals
      rw [hother] at hkind
      exact absurd hkind (by decide)
  by_cases hkind : d.kind ∈ memberKinds
  · simp only [memberKinds, List.mem_cons, List.not_mem_nil, or_false] at hkind
    rcases hkind with hkind | hkind | hkind | hkind | hkind
    · rw [sameKeys_method h hkind]
      refine ⟨fun hdesc => ⟨fun _ => hdesc, fun hother => ?_, fun hother => ?_, fun hother => ?_⟩,
        fun hkeeps => hkeeps.method hkind⟩
      all_goals
        rw [hkind] at hother
        exact absurd hother (by decide)
    · exact hconstructor (by rw [hkind]; decide)
    · exact hconstructor (by rw [hkind]; decide)
    · rw [sameKeys_element h hkind]
      refine ⟨fun hdesc => ⟨fun hother => ?_, fun hother => ?_, fun _ => hdesc, fun hother => ?_⟩,
        fun hkeeps => hkeeps.element hkind⟩
      all_goals
        rw [hkind] at hother
        exact absurd hother (by decide)
    · rw [sameKeys_field h hkind]
      refine ⟨fun htype => ⟨fun hother => ?_, fun hother => ?_, fun hother => ?_, fun _ => htype⟩,
        fun hkeeps => hkeeps.field hkind⟩
      all_goals
        rw [hkind] at hother
        exact absurd hother (by decide)
  · have hkeys := (keys_other h hkind : recordedKeys ctx.typeCtx d = ([], []) ∧ extractedKeys ctx d = ([], []))
    rw [hkeys.1, hkeys.2]
    refine iff_of_true rfl ⟨fun hother => ?_, fun hother => ?_, fun hother => ?_, fun hother => ?_⟩
    · exact absurd (by rw [hother]; decide) hkind
    · refine absurd ?_ hkind
      rw [List.mem_pair] at hother
      rcases hother with hother | hother
      · rw [hother]
        decide
      · rw [hother]
        decide
    · exact absurd (by rw [hother]; decide) hkind
    · exact absurd (by rw [hother]; decide) hkind

theorem flatMap_eq_flatMap_iff {α β : Type} {f g : α → List β} {l : List α}
    (h : ∀ x ∈ l, (f x).length ≤ (g x).length) : l.flatMap f = l.flatMap g ↔ ∀ x ∈ l, f x = g x := by
  induction l with
  | nil => simp
  | cons x l ih =>
    rw [List.forall_mem_cons] at h
    have hle : (l.flatMap f).length ≤ (l.flatMap g).length := by
      rw [List.length_flatMap, List.length_flatMap]
      exact List.sum_le_sum h.2
    rw [List.flatMap_cons, List.flatMap_cons, List.forall_mem_cons, ← ih h.2]
    constructor
    · intro heq
      have hlength := congrArg List.length heq
      rw [List.length_append, List.length_append] at hlength
      exact List.append_inj heq (by omega)
    · rintro ⟨hx, hl⟩
      rw [hx, hl]

/-- `java.util.List f() { }` -/
def qualifiedMethodNode : Node :=
  .mk "method_declaration" none "java.util.List f() { }"
    [.mk "scoped_type_identifier" (some "type") "java.util.List" [], .mk "identifier" (some "name") "f" [],
      .mk "formal_parameters" (some "parameters") "()" [], .mk "block" (some "body") "{ }" []]

def qualifiedMethodBody : Cursor :=
  (Node.mk "class_body" (some "body") "{ java.util.List f() { } }" [qualifiedMethodNode]).cursor

theorem memberNodes_qualifiedMethodBody :
    memberNodes qualifiedMethodBody = [⟨qualifiedMethodNode, qualifiedMethodBody.path⟩] :=
  rfl

def qualifiedMethodClass : ClassBody where
  body := qualifiedMethodBody
  noError := by decide
  notBody := by decide
  named d hd _ := by
    rw [memberNodes_qualifiedMethodBody, List.mem_singleton] at hd
    subst hd
    exact ⟨_, rfl, rfl⟩
  typed d hd _ child hchild hkind := by
    rw [memberNodes_qualifiedMethodBody, List.mem_singleton] at hd
    subst hd
    simp only [qualifiedMethodNode, Node.children, List.mem_cons, List.not_mem_nil, or_false] at hchild
    rcases hchild with rfl | rfl | rfl | rfl
    · rfl
    all_goals exact absurd hkind (by decide)
  declarators d hd hkind := by
    rw [memberNodes_qualifiedMethodBody, List.mem_singleton] at hd
    subst hd
    exact absurd hkind (by decide)
  statements d hd _ body hbody child hchild := by
    rw [memberNodes_qualifiedMethodBody, List.mem_singleton] at hd
    subst hd
    obtain rfl := Option.some.inj hbody
    nomatch hchild

/-- A file that imports nothing, over an empty index. -/
def emptyCtx : MemberCtx where
  typeCtx := { package := none, imports := [], view := .new [] }
  annotationsIn _ := []

end JavaAnalyzer.Language
