import JavaAnalyzer.Language.Symbols

/-! # What an outline lists

A type declaration that is in no method is listed below the type that declares it, and the members of a type below the
type. The walk of the outline looks for type declarations at fewer places, and knows fewer kinds of members. -/

namespace JavaAnalyzer.Language
set_option autoImplicit false
open Index

/-! ## What is declared -/

/-- Where a node stands: directly in the file, directly below a type declaration, among the members in the body of
one, directly below a method, or anywhere else. -/
inductive Level where
  | file
  | type
  | members
  | method
  | code
deriving DecidableEq, Repr

namespace Level

/-- The level of the children of a node. -/
def below (level : Level) (kind : String) (field : Option String) : Level :=
  if classDeclKinds.contains kind then .type
  else if methodSymbolKinds.contains kind then .method
  else if level = .type ∧ field = some "body" then .members
  else if level = .members ∧ kind = "enum_body_declarations" then .members
  else .code

/-- The node is the body of a method. -/
def hides (level : Level) (field : Option String) : Bool :=
  level = .method && field = some "body"

end Level

/-- A declared name, the declaration, and what is declared in it. -/
inductive Entry where
  | mk (name : String) (declaration : Node) (children : List Entry)

/-- The declaration with the children, under its name. -/
def namedEntry (n : Node) (children : List Entry) : List Entry :=
  ((n.childByFieldName "name").map fun nameNode => Entry.mk nameNode.text n children).toList

/-- The members that a node in the body of a type declares, without types. -/
def memberEntries (n : Node) : List Entry :=
  if methodSymbolKinds.contains n.kind || enumConstantKinds.contains n.kind ||
      n.kind = "annotation_type_element_declaration" then namedEntry n []
  else if ["field_declaration", "constant_declaration"].contains n.kind then
    (declaratorNames n).map fun nameNode => .mk nameNode.text n []
  else []

mutual

/-- The declarations in a node, each below the type that declares it, without those in the bodies of methods. -/
def entries (level : Level) : Node → List Entry
  | .mk kind field text children =>
    if level.hides field then []
    else if classDeclKinds.contains kind then namedEntry (.mk kind field text children) (entriesOf .type children)
    else (if level = .members then memberEntries (.mk kind field text children) else []) ++
      entriesOf (level.below kind field) children

def entriesOf (level : Level) : List Node → List Entry
  | [] => []
  | n :: nodes => entries level n ++ entriesOf level nodes

end

mutual

/-- Outside of the bodies of methods, type declarations stand in the file or in the body of a type, and no such body
has annotation elements or constants. -/
def outlined (level : Level) : Node → Bool
  | .mk kind field _ children =>
    level.hides field ||
      if classDeclKinds.contains kind then (level = .file || level = .members) && allOutlined .type children
      else !(level = .members && ["annotation_type_element_declaration", "constant_declaration"].contains kind) &&
        allOutlined (level.below kind field) children

def allOutlined (level : Level) : List Node → Bool
  | [] => true
  | n :: nodes => outlined level n && allOutlined level nodes

end

/-! ## What is listed -/

mutual

def DocumentSymbol.entry : DocumentSymbol → Entry
  | .mk name _ _ range _ none => .mk name range []
  | .mk name _ _ range _ (some children) => .mk name range (symbolEntries children)

def symbolEntries : List DocumentSymbol → List Entry
  | [] => []
  | s :: symbols => s.entry :: symbolEntries symbols

end

mutual

/-- The type declarations that are in no method, with the nodes above them. -/
def typesOutside (level : Level) (ancestors : List Node) : Node → List Cursor
  | .mk kind field text children =>
    if level.hides field then []
    else (if classDeclKinds.contains kind then [⟨.mk kind field text children, ancestors⟩] else []) ++
      typesOutsideOf (level.below kind field) (.mk kind field text children :: ancestors) children

def typesOutsideOf (level : Level) (ancestors : List Node) : List Node → List Cursor
  | [] => []
  | n :: nodes => typesOutside level ancestors n ++ typesOutsideOf level ancestors nodes

end

def namedKinds : List String :=
  classDeclKinds ++ methodSymbolKinds ++ enumConstantKinds ++
    ["annotation_type_element_declaration", "variable_declarator"]

def typeBodyKinds : List String :=
  ["class_body", "interface_body", "enum_body", "annotation_type_body"]

/-- The tree of an error-free file: declarations have names, constants have declarators, a type has one body, no
identifier is a keyword, and the bodies are of the grammar. -/
structure JavaFile where
  root : Node
  noError : ∀ n ∈ root.subnodes, n.kind ≠ "ERROR"
  program : ∀ n ∈ root.children, n.kind ≠ "program"
  named : ∀ n ∈ root.subnodes, n.kind ∈ namedKinds → ∃ nameNode, n.childByFieldName "name" = some nameNode
  declared : ∀ n ∈ root.subnodes, n.kind = "constant_declaration" →
    ∃ declarator ∈ n.children, declarator.kind = "variable_declarator"
  oneBody : ∀ n ∈ root.subnodes, n.kind ∈ classDeclKinds → ∃ kind ∈ typeBodyKinds,
    (n.children.filter fun child => child.field = some "body").map Node.kind = [kind]
  identifiers : ∀ n ∈ root.subnodes, n.kind = "identifier" → isMethodName n.text = true
  bodies : ∀ t ∈ typesOutsideOf .file [root] root.children, ∀ body, t.childByFieldName "body" = some body →
    ∃ b : ClassBody, b.body = body

/-- The names of the symbols of a kind. -/
def symbolNames (kind : SymbolKind) (symbols : List DocumentSymbol) : List String :=
  (symbols.filter fun s => s.kind = kind).map DocumentSymbol.name

namespace JavaFile

variable (file : JavaFile)

/-- Each type declaration and each member is listed once, below the type that declares it. -/
def Complete : Prop :=
  symbolEntries ((collectJavaSymbols file.root).filter fun s => s.kind ≠ .moduleKind) =
    entriesOf .file file.root.children

/-- The fields and methods listed below a type are those of the extraction. -/
def AgreesWithExtraction : Prop :=
  ∀ (ctx : MemberCtx), ∀ t ∈ typesOutsideOf .file [file.root] file.root.children,
    ∀ body, t.childByFieldName "body" = some body →
      symbolNames .fieldKind (bodySymbols t.node.children) =
          (fieldsOf (extractClassMembersFromBody ctx body)).map FieldSummary.name ∧
        symbolNames .methodKind (bodySymbols t.node.children) =
          ((methodsOf (extractClassMembersFromBody ctx body)).map MethodSummary.name).filter (· ≠ "<init>")

end JavaFile

/-! ## Lists of nodes -/

theorem entriesOf_eq (level : Level) (nodes : List Node) : entriesOf level nodes = nodes.flatMap (entries level) := by
  induction nodes with
  | nil => rfl
  | cons n nodes ih => rw [entriesOf, ih, List.flatMap_cons]

theorem allOutlined_eq (level : Level) (nodes : List Node) : allOutlined level nodes = nodes.all (outlined level) := by
  induction nodes with
  | nil => rfl
  | cons n nodes ih => rw [allOutlined, ih, List.all_cons]

theorem symbolEntries_eq (symbols : List DocumentSymbol) : symbolEntries symbols = symbols.map DocumentSymbol.entry := by
  induction symbols with
  | nil => rfl
  | cons s symbols ih => rw [symbolEntries, ih, List.map_cons]

theorem entries_eq (level : Level) (n : Node) : entries level n =
    if level.hides n.field then []
    else if classDeclKinds.contains n.kind then namedEntry n (entriesOf .type n.children)
    else (if level = .members then memberEntries n else []) ++ entriesOf (level.below n.kind n.field) n.children := by
  obtain ⟨kind, field, text, children⟩ := n
  rw [entries]
  rfl

theorem outlined_eq (level : Level) (n : Node) : outlined level n = (level.hides n.field ||
    if classDeclKinds.contains n.kind then (level = .file || level = .members) && allOutlined .type n.children
    else !(level = .members && ["annotation_type_element_declaration", "constant_declaration"].contains n.kind) &&
      allOutlined (level.below n.kind n.field) n.children) := by
  obtain ⟨kind, field, text, children⟩ := n
  rw [outlined]
  rfl

theorem memberSymbols_eq (n : Node) : memberSymbols n =
    if classDeclKinds.contains n.kind then (buildTypeSymbol n).toList
    else if methodSymbolKinds.contains n.kind then (parseMethodSymbol n).toList
    else if enumConstantKinds.contains n.kind then (parseEnumConstantSymbol n).toList
    else if ["enum_body_declarations", "ERROR"].contains n.kind then collectTypeMembers n.children
    else if n.kind = "field_declaration" then parseFieldSymbols n
    else [] := by
  obtain ⟨kind, field, text, children⟩ := n
  rw [memberSymbols]
  rfl

/-- The names of the nodes that are named by the grammar. -/
def Named (nodes : List Node) : Prop :=
  ∀ n ∈ nodes, n.kind ∈ namedKinds → ∃ nameNode, n.childByFieldName "name" = some nameNode

theorem Named.children {n : Node} (h : Named n.subnodes) {child : Node} (hchild : child ∈ n.children) :
    Named child.subnodes := by
  intro m hm
  refine h m ?_
  rw [Node.subnodes_eq, List.mem_cons, Node.mem_subnodesOf]
  exact .inr ⟨child, hchild, hm⟩

theorem Named.self {n : Node} (h : Named n.subnodes) (hkind : n.kind ∈ namedKinds) (children : List Entry) :
    ∃ name, namedEntry n children = [.mk name n children] := by
  obtain ⟨nameNode, hname⟩ := h n (by rw [Node.subnodes_eq]; exact List.mem_cons_self) hkind
  exact ⟨nameNode.text, by rw [namedEntry, hname]; rfl⟩

/-! ## Places without a declaration -/

theorem Level.below_other {level : Level} {kind : String} {field : Option String}
    (hclass : ¬classDeclKinds.contains kind = true) (htype : level = .type → field ≠ some "body")
    (hmembers : level = .members → kind ≠ "enum_body_declarations") :
    level.below kind field = .method ∨ level.below kind field = .code := by
  rw [Level.below]
  split_ifs with hmethod hbody hdecls
  · exact .inl rfl
  · exact absurd hbody.2 (htype hbody.1)
  · exact absurd hdecls.2 (hmembers hdecls.1)
  · exact .inr rfl

/-- A level whose declarations are not looked for. -/
def Level.Apart (level : Level) (n : Node) : Prop :=
  level = .method ∨ level = .code ∨ level = .type ∧ n.field ≠ some "body"

theorem Level.Apart.not_members {level : Level} {n : Node} (h : level.Apart n) : level ≠ .members ∧ level ≠ .file := by
  rcases h with rfl | rfl | ⟨rfl, -⟩ <;> exact ⟨by decide, by decide⟩

theorem Level.Apart.below {level : Level} {n : Node} (h : level.Apart n)
    (hkind : ¬classDeclKinds.contains n.kind = true) :
    level.below n.kind n.field = .method ∨ level.below n.kind n.field = .code := by
  refine Level.below_other hkind (fun htype => ?_) fun hmembers => absurd hmembers h.not_members.1
  subst htype
  rcases h with h | h | ⟨-, hnot⟩
  · cases h
  · cases h
  · exact hnot

/-- At such a place the outline wants no type declarations, and finds none. -/
theorem entries_eq_nil_iff {level : Level} {n : Node} (h : level.Apart n) (hnamed : Named n.subnodes) :
    entries level n = [] ↔ outlined level n = true := by
  induction hsize : n.size using Nat.strong_induction_on generalizing level n with
  | _ size ih =>
    rw [entries_eq, outlined_eq]
    by_cases hhides : level.hides n.field = true
    · simp [hhides]
    rw [if_neg hhides, Bool.eq_false_iff.mpr hhides, Bool.false_or]
    by_cases hkind : classDeclKinds.contains n.kind = true
    · obtain ⟨name, hentry⟩ := hnamed.self (by simp [namedKinds, List.contains_iff_mem.mp hkind])
        (entriesOf .type n.children)
      rw [if_pos hkind, if_pos hkind, hentry]
      simp [h.not_members]
    · have hbelow := h.below hkind
      rw [if_neg hkind, if_neg hkind, if_neg h.not_members.1, List.nil_append, entriesOf_eq, allOutlined_eq,
        List.flatMap_eq_nil_iff, decide_eq_false h.not_members.1, Bool.false_and, Bool.not_false, Bool.true_and,
        List.all_eq_true]
      refine forall₂_congr fun child hchild => ih child.size (hsize ▸ Node.size_lt_of_mem hchild) ?_
        (hnamed.children hchild) rfl
      exact hbelow.imp_right .inl

/-! ## What is listed against what is declared -/

/-- No more is listed than is declared, and the same exactly if the test holds. -/
structure Compared (listed wanted : List Entry) (test : Bool) : Prop where
  length_le : listed.length ≤ wanted.length
  eq_iff : listed = wanted ↔ test = true

namespace Compared

variable {listed listed' wanted wanted' : List Entry} {test test' : Bool}

theorem nothing (h : wanted = [] ↔ test = true) : Compared [] wanted test :=
  ⟨Nat.zero_le _, eq_comm.trans h⟩

theorem more (h : wanted = [] ↔ test = true) : Compared listed (listed ++ wanted) test := by
  refine ⟨by rw [List.length_append]; omega, ?_⟩
  rw [← h]
  exact List.self_eq_append_right

theorem append (h : Compared listed wanted test) (h' : Compared listed' wanted' test') :
    Compared (listed ++ listed') (wanted ++ wanted') (test && test') := by
  have hle := h.length_le
  have hle' := h'.length_le
  refine ⟨by simp only [List.length_append]; omega, ?_⟩
  rw [Bool.and_eq_true, ← h.eq_iff, ← h'.eq_iff]
  constructor
  · intro heq
    have hlength := congrArg List.length heq
    simp only [List.length_append] at hlength
    exact List.append_inj heq (by omega)
  · rintro ⟨rfl, rfl⟩
    rfl

theorem flatMap {nodes : List Node} {f g : Node → List Entry} {p : Node → Bool}
    (h : ∀ n ∈ nodes, Compared (f n) (g n) (p n)) : Compared (nodes.flatMap f) (nodes.flatMap g) (nodes.all p) := by
  induction nodes with
  | nil => exact ⟨Nat.le_refl _, by simp⟩
  | cons n nodes ih =>
    rw [List.flatMap_cons, List.flatMap_cons, List.all_cons]
    exact (h n List.mem_cons_self).append (ih fun m hm => h m (List.mem_cons_of_mem n hm))

end Compared

/-- What the grammar says of the nodes below one. -/
structure Grammatical (n : Node) : Prop where
  noError : ∀ m ∈ n.subnodes, m.kind ≠ "ERROR"
  named : Named n.subnodes
  declared : ∀ m ∈ n.subnodes, m.kind = "constant_declaration" →
    ∃ declarator ∈ m.children, declarator.kind = "variable_declarator"
  oneBody : ∀ m ∈ n.subnodes, m.kind ∈ classDeclKinds → ∃ kind ∈ typeBodyKinds,
    (m.children.filter fun child => child.field = some "body").map Node.kind = [kind]

namespace Grammatical

variable {n : Node}

theorem self_mem (n : Node) : n ∈ n.subnodes := by
  rw [Node.subnodes_eq]
  exact List.mem_cons_self

theorem mem_trans {m k : Node} (hm : m ∈ n.subnodes) (hk : k ∈ m.subnodes) : k ∈ n.subnodes := by
  induction hsize : m.size using Nat.strong_induction_on generalizing m with
  | _ size ih =>
    rw [Node.subnodes_eq, List.mem_cons, Node.mem_subnodesOf] at hk
    rcases hk with rfl | ⟨child, hchild, hk⟩
    · exact hm
    · exact ih child.size (hsize ▸ Node.size_lt_of_mem hchild) (Node.mem_subnodes_of_child hm hchild) hk rfl

theorem below (h : Grammatical n) {m : Node} (hm : m ∈ n.subnodes) : Grammatical m :=
  ⟨fun k hk => h.noError k (mem_trans hm hk), fun k hk => h.named k (mem_trans hm hk),
    fun k hk => h.declared k (mem_trans hm hk), fun k hk => h.oneBody k (mem_trans hm hk)⟩

theorem child (h : Grammatical n) {m : Node} (hm : m ∈ n.children) : Grammatical m :=
  h.below (Node.mem_subnodes_of_child (self_mem n) hm)

/-- Below a node of another kind the outline wants nothing and lists nothing. -/
theorem below_nil_iff (h : Grammatical n) {level : Level} (hlevel : level = .method ∨ level = .code) :
    entriesOf level n.children = [] ↔ allOutlined level n.children = true := by
  rw [entriesOf_eq, allOutlined_eq, List.flatMap_eq_nil_iff, List.all_eq_true]
  exact forall₂_congr fun child hchild =>
    entries_eq_nil_iff (hlevel.imp_right .inl) (h.named.children hchild)

/-- The parts of a type declaration other than its body. -/
theorem header_nil_iff {nodes : List Node} (hnodes : ∀ m ∈ nodes, m ∈ n.children) (h : Grammatical n)
    (hbody : ∀ m ∈ nodes, m.field ≠ some "body") :
    nodes.flatMap (entries .type) = [] ↔ nodes.all (outlined .type) = true := by
  rw [List.flatMap_eq_nil_iff, List.all_eq_true]
  exact forall₂_congr fun child hchild =>
    entries_eq_nil_iff (.inr (.inr ⟨rfl, hbody child hchild⟩)) (h.named.children (hnodes child hchild))

/-- The body of a type declaration, and the level of what stands in it. -/
theorem exists_body (h : Grammatical n) (hkind : n.kind ∈ classDeclKinds) :
    ∃ front body back, n.children = front ++ body :: back ∧ (∀ m ∈ front ++ back, m.field ≠ some "body") ∧
      n.childByFieldName "body" = some body ∧ entries .type body = body.children.flatMap (entries .members) ∧
      outlined .type body = body.children.all (outlined .members) := by
  obtain ⟨kind, hbodyKind, hone⟩ := h.oneBody n (self_mem n) hkind
  obtain ⟨body, rest, hfilter, rfl, hrest⟩ := List.map_eq_cons_iff.mp hone
  rw [List.map_eq_nil_iff] at hrest
  subst hrest
  obtain ⟨front, back, hchildren, hfront, hbody, hback⟩ := List.filter_eq_cons_iff.mp hfilter
  have hfield : body.field = some "body" := of_decide_eq_true hbody
  have hother : ∀ m ∈ front ++ back, m.field ≠ some "body" := by
    intro m hm
    rcases List.mem_append.mp hm with hm | hm
    · simpa using hfront m hm
    · simpa using List.filter_eq_nil_iff.mp hback m hm
  have hfind : n.childByFieldName "body" = some body := by
    rw [Node.childByFieldName, hchildren, List.find?_append, List.find?_eq_none.mpr, Option.none_or,
      List.find?_cons_of_pos]
    · simpa using hfield
    · intro m hm
      simpa using hother m (List.mem_append_left _ hm)
  have hnot : ¬classDeclKinds.contains body.kind = true ∧ ¬methodSymbolKinds.contains body.kind = true := by
    rw [typeBodyKinds] at hbodyKind
    simp only [List.mem_cons, List.not_mem_nil, or_false] at hbodyKind
    rcases hbodyKind with h | h | h | h <;> rw [h] <;> decide
  have hbelow : Level.below .type body.kind body.field = .members := by
    rw [Level.below, if_neg hnot.1, if_neg hnot.2, if_pos ⟨rfl, hfield⟩]
  refine ⟨front, body, back, hchildren, hother, hfind, ?_, ?_⟩
  · rw [entries_eq, hbelow, if_neg hnot.1, entriesOf_eq]
    rfl
  · rw [outlined_eq, hbelow, if_neg hnot.1, allOutlined_eq]
    rfl

/-- A type declaration, when the children of its body have been compared. -/
theorem compare_type (h : Grammatical n) (hkind : n.kind ∈ classDeclKinds)
    (ih : ∀ body ∈ n.children, ∀ m ∈ body.children,
      Compared (symbolEntries (memberSymbols m)) (entries .members m) (outlined .members m)) :
    Compared (symbolEntries (bodySymbols n.children)) (entriesOf .type n.children)
      (allOutlined .type n.children) := by
  obtain ⟨front, body, back, hchildren, hother, hfind, hentries, houtlined⟩ := h.exists_body hkind
  have hmem : ∀ m, m ∈ front ∨ m = body ∨ m ∈ back → m ∈ n.children := fun m hm => by
    rw [hchildren]
    simpa using hm
  have hlisted : bodySymbols n.children = body.children.flatMap memberSymbols := by
    rw [bodySymbols_eq, ← collectTypeMembers_eq]
    exact congrArg (fun found => (Option.map (fun body => collectTypeMembers (Node.children body)) found).getD []) hfind
  have hmembers : Compared (symbolEntries (bodySymbols n.children)) (entries .type body) (outlined .type body) := by
    rw [hlisted, hentries, houtlined, symbolEntries_eq, List.map_flatMap]
    refine Compared.flatMap fun m hm => ?_
    rw [← symbolEntries_eq]
    exact ih body (hmem body (.inr (.inl rfl))) m hm
  have hfront := Compared.nothing (header_nil_iff (fun m hm => hmem m (.inl hm)) h fun m hm =>
    hother m (List.mem_append_left _ hm))
  have hback := Compared.nothing (header_nil_iff (fun m hm => hmem m (.inr (.inr hm))) h fun m hm =>
    hother m (List.mem_append_right _ hm))
  have hall := hfront.append (hmembers.append hback)
  rw [List.nil_append, List.append_nil] at hall
  rwa [entriesOf_eq, allOutlined_eq, hchildren, List.flatMap_append, List.flatMap_cons, List.all_append, List.all_cons,
    ← hchildren]

end Grammatical

/-! ## The members of a body -/

section Members

variable {n : Node} (h : Grammatical n)

include h

/-- A type declaration where it is looked for. -/
theorem compare_listed {level : Level} (hlevel : level = .file ∨ level = .members) (hkind : n.kind ∈ classDeclKinds)
    (ih : ∀ body ∈ n.children, ∀ m ∈ body.children,
      Compared (symbolEntries (memberSymbols m)) (entries .members m) (outlined .members m)) :
    Compared (symbolEntries (buildTypeSymbol n).toList) (entries level n) (outlined level n) := by
  have hhides : level.hides n.field = false := by rcases hlevel with rfl | rfl <;> rfl
  have hlooked : (level = .file || level = .members) = true := by rcases hlevel with rfl | rfl <;> rfl
  obtain ⟨nameNode, hname⟩ := h.named n (Grammatical.self_mem n) (by simp [namedKinds, hkind])
  obtain ⟨-, heq⟩ := h.compare_type hkind ih
  have hlisted : symbolEntries (buildTypeSymbol n).toList =
      [.mk nameNode.text n (symbolEntries (bodySymbols n.children))] := by
    rw [buildTypeSymbol, typeSymbol, hname]
    rfl
  have hwanted : entries level n = [.mk nameNode.text n (entriesOf .type n.children)] := by
    rw [entries_eq, hhides, if_neg Bool.false_ne_true, if_pos (List.contains_iff_mem.mpr hkind), namedEntry, hname]
    rfl
  have htest : outlined level n = allOutlined .type n.children := by
    rw [outlined_eq, hhides, if_pos (List.contains_iff_mem.mpr hkind), hlooked, Bool.false_or, Bool.true_and]
  rw [hlisted, hwanted, htest]
  refine ⟨Nat.le_refl _, ?_⟩
  rw [← heq, List.cons.injEq, Entry.mk.injEq]
  simp

/-- A node in the body that is no type declaration. -/
theorem members_of_other (hkind : n.kind ∉ classDeclKinds) :
    entries .members n = memberEntries n ++ entriesOf (Level.below .members n.kind n.field) n.children ∧
      outlined .members n =
        (!(["annotation_type_element_declaration", "constant_declaration"].contains n.kind) &&
          allOutlined (Level.below .members n.kind n.field) n.children) := by
  have hnot : ¬classDeclKinds.contains n.kind = true := fun hcontains => hkind (List.contains_iff_mem.mp hcontains)
  constructor
  · rw [entries_eq, if_neg hnot]
    rfl
  · rw [outlined_eq, if_neg hnot]
    rfl

theorem compare_member {kinds : List String} (hmem : n.kind ∈ kinds)
    (hkinds : ∀ kind ∈ kinds, kind ∉ classDeclKinds ∧ kind ≠ "enum_body_declarations" ∧
      kind ∉ ["annotation_type_element_declaration", "constant_declaration"])
    {listed : List DocumentSymbol} (hlisted : symbolEntries listed = memberEntries n) :
    Compared (symbolEntries listed) (entries .members n) (outlined .members n) := by
  obtain ⟨hkind, henum, hplain⟩ := hkinds n.kind hmem
  obtain ⟨hwanted, htest⟩ := members_of_other h hkind
  have hplain : ["annotation_type_element_declaration", "constant_declaration"].contains n.kind = false :=
    Bool.eq_false_iff.mpr fun hcontains => hplain (List.contains_iff_mem.mp hcontains)
  have hbelow := @Level.below_other .members n.kind n.field
    (fun hclass => hkind (List.contains_iff_mem.mp hclass)) (fun htype => by cases htype) fun _ => henum
  rw [hwanted, htest, hplain, hlisted, Bool.not_false, Bool.true_and]
  exact .more (h.below_nil_iff hbelow)

theorem method_listed (hkind : methodSymbolKinds.contains n.kind = true) :
    symbolEntries (parseMethodSymbol n).toList = memberEntries n := by
  obtain ⟨nameNode, hname⟩ := h.named n (Grammatical.self_mem n)
    (by simp [namedKinds, List.contains_iff_mem.mp hkind])
  rw [memberEntries, hkind, Bool.true_or, Bool.true_or, if_pos rfl, parseMethodSymbol, namedEntry, hname]
  rfl

theorem enumConstant_listed (hkind : enumConstantKinds.contains n.kind = true) :
    symbolEntries (parseEnumConstantSymbol n).toList = memberEntries n := by
  obtain ⟨nameNode, hname⟩ := h.named n (Grammatical.self_mem n)
    (by simp [namedKinds, List.contains_iff_mem.mp hkind])
  rw [memberEntries, hkind, Bool.or_true, Bool.true_or, if_pos rfl, parseEnumConstantSymbol, namedEntry, hname]
  rfl

omit h in
theorem field_listed (hkind : n.kind = "field_declaration") :
    symbolEntries (parseFieldSymbols n) = memberEntries n := by
  rw [symbolEntries_eq, parseFieldSymbols, List.map_map, memberEntries, hkind]
  rfl

/-- A member of a kind that the outline does not know. -/
theorem memberEntries_unknown (hmethod : ¬methodSymbolKinds.contains n.kind = true)
    (henum : ¬enumConstantKinds.contains n.kind = true) (hfield : n.kind ≠ "field_declaration") :
    memberEntries n = [] ↔ ["annotation_type_element_declaration", "constant_declaration"].contains n.kind = false := by
  rw [memberEntries, Bool.eq_false_iff.mpr hmethod, Bool.eq_false_iff.mpr henum]
  by_cases helement : n.kind = "annotation_type_element_declaration"
  · obtain ⟨name, hentry⟩ := h.named.self (by simp [namedKinds, helement]) []
    simp [helement, hentry]
  by_cases hconstant : n.kind = "constant_declaration"
  · obtain ⟨declarator, hmem, hkind⟩ := h.declared n (Grammatical.self_mem n) hconstant
    obtain ⟨nameNode, hname⟩ := h.named declarator
      (Node.mem_subnodes_of_child (Grammatical.self_mem n) hmem) (by simp [namedKinds, hkind])
    have hdeclared : nameNode ∈ declaratorNames n :=
      List.mem_filterMap.mpr ⟨declarator, List.mem_filter.mpr ⟨hmem, decide_eq_true hkind⟩, hname⟩
    have hne : declaratorNames n ≠ [] := List.ne_nil_of_mem hdeclared
    simp [hconstant, hne]
  · simp [helement, hconstant, hfield]

/-- A declaration that the outline does not know, or no declaration. -/
theorem compare_unknown (hkind : n.kind ∉ classDeclKinds) (hmethod : ¬methodSymbolKinds.contains n.kind = true)
    (henum : ¬enumConstantKinds.contains n.kind = true) (hfield : n.kind ≠ "field_declaration")
    (hdecls : n.kind ≠ "enum_body_declarations") :
    Compared (symbolEntries []) (entries .members n) (outlined .members n) := by
  obtain ⟨hwanted, htest⟩ := members_of_other h hkind
  have hbelow : Level.below .members n.kind n.field = .code := by
    rw [Level.below, if_neg fun hclass => hkind (List.contains_iff_mem.mp hclass), if_neg hmethod,
      if_neg fun hboth => absurd hboth.1 (by decide), if_neg fun hboth => hdecls hboth.2]
  rw [hwanted, htest, hbelow]
  refine .nothing ?_
  rw [List.append_eq_nil_iff, Bool.and_eq_true, Bool.not_eq_true', h.below_nil_iff (.inr rfl),
    memberEntries_unknown h hmethod henum hfield]

end Members

theorem compare_members {n : Node} (h : Grammatical n) :
    Compared (symbolEntries (memberSymbols n)) (entries .members n) (outlined .members n) := by
  induction hsize : n.size using Nat.strong_induction_on generalizing n with
  | _ size ih =>
    rw [memberSymbols_eq]
    split_ifs with hclass hmethod henum hdecls hfield
    · refine compare_listed h (.inr rfl) (List.contains_iff_mem.mp hclass) fun body hbody m hm => ?_
      have hlt := Node.size_lt_of_mem hbody
      have hlt' := Node.size_lt_of_mem hm
      exact ih m.size (by omega) ((h.child hbody).child hm) rfl
    · exact compare_member h (List.contains_iff_mem.mp hmethod) (by decide) (method_listed h hmethod)
    · exact compare_member h (List.contains_iff_mem.mp henum) (by decide) (enumConstant_listed h henum)
    · have hkind : n.kind = "enum_body_declarations" := by
        have hnot := h.noError n (Grammatical.self_mem n)
        rw [List.contains_iff_mem] at hdecls
        simpa [hnot] using hdecls
      obtain ⟨hwanted, htest⟩ := members_of_other h (by rw [hkind]; decide)
      have hbelow : Level.below .members n.kind n.field = .members := by rw [hkind]; rfl
      have hentries : memberEntries n = [] := by rw [memberEntries, hkind]; rfl
      have hknown : ["annotation_type_element_declaration", "constant_declaration"].contains n.kind = false := by
        rw [hkind]
        decide
      rw [hwanted, htest, hbelow, hentries, hknown, List.nil_append, Bool.not_false, Bool.true_and, entriesOf_eq,
        allOutlined_eq, collectTypeMembers_eq, symbolEntries_eq, List.map_flatMap]
      refine Compared.flatMap fun m hm => ?_
      rw [← symbolEntries_eq]
      exact ih m.size (hsize ▸ Node.size_lt_of_mem hm) (h.child hm) rfl
    · exact compare_member h (List.mem_singleton.mpr hfield) (by decide) (field_listed hfield)
    · refine compare_unknown h (fun hmem => hclass (List.contains_iff_mem.mpr hmem)) hmethod henum hfield fun hkind => ?_
      exact hdecls (by rw [hkind]; decide)

/-! ## The declarations of a file -/

theorem topSymbols_eq (n : Node) : topSymbols n =
    if n.kind = "module_declaration" then (buildModuleSymbol n).toList
    else if classDeclKinds.contains n.kind then (buildTypeSymbol n).toList
    else if ["program", "ERROR"].contains n.kind then collectTypeDeclarations n.children
    else [] := by
  obtain ⟨kind, field, text, children⟩ := n
  rw [topSymbols]
  rfl

/-- The symbols of a file without those of modules. -/
def typeSymbols (symbols : List DocumentSymbol) : List DocumentSymbol :=
  symbols.filter fun s => s.kind ≠ .moduleKind

theorem typeSymbols_module (n : Node) : typeSymbols (buildModuleSymbol n).toList = [] := by
  rw [buildModuleSymbol]
  cases n.childByFieldName "name" <;> rfl

theorem typeSymbols_type (n : Node) : typeSymbols (buildTypeSymbol n).toList = (buildTypeSymbol n).toList := by
  rw [buildTypeSymbol, typeSymbol]
  cases n.childByFieldName "name" with
  | none => rfl
  | some nameNode =>
    refine List.filter_eq_self.mpr fun s hs => ?_
    obtain rfl := List.mem_singleton.mp hs
    change decide (typeSymbolKind n ≠ .moduleKind) = true
    rw [typeSymbolKind]
    split_ifs <;> decide

theorem compare_top {n : Node} (h : Grammatical n) (hprogram : n.kind ≠ "program") :
    Compared (symbolEntries (typeSymbols (topSymbols n))) (entries .file n) (outlined .file n) := by
  rw [topSymbols_eq]
  have hother : n.kind ∉ classDeclKinds → Compared [] (entries .file n) (outlined .file n) := by
    intro hkind
    have hnot : ¬classDeclKinds.contains n.kind = true := fun hclass => hkind (List.contains_iff_mem.mp hclass)
    have hbelow := @Level.below_other .file n.kind n.field hnot (fun htype => by cases htype)
      fun hmembers => by cases hmembers
    have hwanted : entries .file n = entriesOf (Level.below .file n.kind n.field) n.children := by
      rw [entries_eq, if_neg hnot]
      rfl
    have htest : outlined .file n = allOutlined (Level.below .file n.kind n.field) n.children := by
      rw [outlined_eq, if_neg hnot]
      rfl
    rw [hwanted, htest]
    exact .nothing (h.below_nil_iff hbelow)
  split_ifs with hmodule hclass hrest
  · rw [typeSymbols_module]
    exact hother (by rw [hmodule]; decide)
  · rw [typeSymbols_type]
    exact compare_listed h (.inl rfl) (List.contains_iff_mem.mp hclass) fun body hbody m hm =>
      compare_members ((h.child hbody).child hm)
  · have hnot := h.noError n (Grammatical.self_mem n)
    rw [List.contains_iff_mem] at hrest
    simp [hprogram, hnot] at hrest
  · exact hother fun hmem => hclass (List.contains_iff_mem.mpr hmem)

namespace JavaFile

variable (file : JavaFile)

theorem grammatical : Grammatical file.root :=
  ⟨file.noError, file.named, file.declared, file.oneBody⟩

theorem complete_iff : file.Complete ↔ allOutlined .file file.root.children = true := by
  have hcompared : Compared (symbolEntries (typeSymbols (collectJavaSymbols file.root)))
      (entriesOf .file file.root.children) (allOutlined .file file.root.children) := by
    rw [collectJavaSymbols, collectTypeDeclarations_eq, typeSymbols, List.filter_flatMap, symbolEntries_eq,
      List.map_flatMap, entriesOf_eq, allOutlined_eq]
    refine Compared.flatMap fun n hn => ?_
    rw [← symbolEntries_eq]
    exact compare_top (file.grammatical.child hn) (file.program n hn)
  exact hcompared.eq_iff

end JavaFile

/-! ## The names of the extraction -/

theorem typesOutsideOf_eq (level : Level) (ancestors : List Node) (nodes : List Node) :
    typesOutsideOf level ancestors nodes = nodes.flatMap (typesOutside level ancestors) := by
  induction nodes with
  | nil => rfl
  | cons n nodes ih => rw [typesOutsideOf, ih, List.flatMap_cons]

theorem typesOutside_eq (level : Level) (ancestors : List Node) (n : Node) : typesOutside level ancestors n =
    if level.hides n.field then []
    else (if classDeclKinds.contains n.kind then [⟨n, ancestors⟩] else []) ++
      typesOutsideOf (level.below n.kind n.field) (n :: ancestors) n.children := by
  obtain ⟨kind, field, text, children⟩ := n
  rw [typesOutside]
  rfl

/-- Below each type declaration everything stands where the outline looks for it, if it does in the file. -/
theorem outlined_of_typesOutside {level : Level} {ancestors : List Node} {n : Node} (h : outlined level n = true)
    {t : Cursor} (ht : t ∈ typesOutside level ancestors n) :
    t.node ∈ n.subnodes ∧ t.kind ∈ classDeclKinds ∧ allOutlined .type t.node.children = true := by
  induction hsize : n.size using Nat.strong_induction_on generalizing level ancestors n with
  | _ size ih =>
    rw [typesOutside_eq] at ht
    rw [outlined_eq] at h
    by_cases hhides : level.hides n.field = true
    · rw [if_pos hhides] at ht
      exact absurd ht List.not_mem_nil
    rw [Bool.eq_false_iff.mpr hhides, Bool.false_or] at h
    rw [if_neg hhides, List.mem_append] at ht
    have hchildren : allOutlined (level.below n.kind n.field) n.children = true := by
      by_cases hclass : classDeclKinds.contains n.kind = true
      · rw [if_pos hclass, Bool.and_eq_true] at h
        rw [Level.below, if_pos hclass]
        exact h.2
      · rw [if_neg hclass, Bool.and_eq_true] at h
        exact h.2
    rcases ht with ht | ht
    · by_cases hclass : classDeclKinds.contains n.kind = true
      · rw [if_pos hclass] at ht
        obtain rfl := List.mem_singleton.mp ht
        rw [Level.below, if_pos hclass] at hchildren
        exact ⟨Grammatical.self_mem n, List.contains_iff_mem.mp hclass, hchildren⟩
      · rw [if_neg hclass] at ht
        exact absurd ht List.not_mem_nil
    · rw [typesOutsideOf_eq, List.mem_flatMap] at ht
      obtain ⟨child, hchild, ht⟩ := ht
      rw [allOutlined_eq, List.all_eq_true] at hchildren
      obtain ⟨hmem, hrest⟩ := ih child.size (hsize ▸ Node.size_lt_of_mem hchild) (hchildren child hchild) ht rfl
      refine ⟨?_, hrest⟩
      rw [Node.subnodes_eq, List.mem_cons, Node.mem_subnodesOf]
      exact .inr ⟨child, hchild, hmem⟩

end JavaAnalyzer.Language
