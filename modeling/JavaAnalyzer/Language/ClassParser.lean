import JavaAnalyzer.Language.SyntaxTree
import JavaAnalyzer.Library.StackWalk

/-! # Naming type declarations

The walks of `language/java/class_parser.rs` over the type declarations of a syntax tree and the names that
they give to them: `collect_java_classes`, `discover_java_names_from_root`, `collect_java_declarations` and
`find_class_node`, with `extract_enclosing_internal_name` of `scope.rs`. The package is what
`extract_package` finds in the tree. -/

namespace JavaAnalyzer.Language
set_option autoImplicit false
open StackWalk

/-! ## Kinds -/

def classDeclKinds : List String :=
  ["class_declaration", "interface_declaration", "enum_declaration", "annotation_type_declaration",
    "record_declaration"]

def Node.isClassDecl (n : Node) : Bool :=
  classDeclKinds.contains n.kind

/-- `is_type_declaration_kind` -/
def Node.isTypeDeclaration (n : Node) : Bool :=
  ["class_declaration", "interface_declaration", "enum_declaration", "record_declaration"].contains n.kind

/-- A node that the discovery of names does not enter. -/
def Node.isHeader (n : Node) : Bool :=
  ["package_declaration", "import_declaration"].contains n.kind

/-! ## Walks over the children of a node -/

/-- A node to walk, and the name that the declarations below it are in. -/
abbrev Item := Cursor × Option String

def Item.size (item : Item) : ℕ :=
  item.1.node.size

/-- What the children put out, and what they push. -/
def visitChildren {β : Type} (visitChild : Cursor → Option String → List β × List Item) (item : Item) :
    List β × List Item :=
  (item.1.children.flatMap fun child => (visitChild child item.2).1,
    item.1.children.flatMap fun child => (visitChild child item.2).2)

/-- The body of a declaration, in the name of the declaration. -/
def pushBody (decl : Cursor) (name : String) : List Item :=
  ((decl.childByFieldName "body").map fun body => (body, some name)).toList

/-- A child pushes itself, its body, or nothing. -/
def PushesBelow {β : Type} (visitChild : Cursor → Option String → List β × List Item) : Prop :=
  ∀ child outer, (visitChild child outer).2 = [] ∨ (∃ name, (visitChild child outer).2 = pushBody child name) ∨
    (visitChild child outer).2 = [(child, outer)]

section

variable {β : Type} {visitChild : Cursor → Option String → List β × List Item}

theorem weight_pushBody (decl : Cursor) (name : String) :
    weight Item.size (pushBody decl name) ≤ decl.node.size := by
  rw [pushBody, Cursor.childByFieldName]
  cases hbody : decl.node.childByFieldName "body" with
  | none => exact Nat.zero_le _
  | some body =>
    have hlt := Node.size_lt_of_mem (Node.childByFieldName_mem hbody)
    exact Nat.le_of_lt hlt

theorem shrinks_visitChildren (h : PushesBelow visitChild) :
    Shrinks (visitChildren visitChild) Item.size := by
  rintro ⟨c, outer⟩
  have hle : weight Item.size (visitChildren visitChild (c, outer)).2 ≤ Node.sizes c.node.children := by
    rw [visitChildren, Cursor.children]
    dsimp only
    induction c.node.children with
    | nil => exact Nat.le_refl _
    | cons n nodes ih =>
      have hchild : weight Item.size (visitChild (c.child n) outer).2 ≤ n.size := by
        rcases h (c.child n) outer with hnone | ⟨name, hbody⟩ | hself
        · rw [hnone]
          exact Nat.zero_le _
        · rw [hbody]
          exact weight_pushBody _ name
        · rw [hself]
          exact Nat.le_refl _
      rw [List.map_cons, List.flatMap_cons, weight_append, Node.sizes]
      exact Nat.add_le_add hchild ih
  rw [Item.size, Node.size_eq]
  exact Nat.lt_succ_of_le hle

end

/-! ## The classes of a tree -/

def inPackage (package : Option String) (name : String) : String :=
  match package with
  | some pkg => pkg ++ "/" ++ name
  | none => name

/-- The name of a declaration, in the name that it is declared in. -/
def nestedIn (outer : Option String) (name : String) : String :=
  match outer with
  | some outer => outer ++ "$" ++ name
  | none => name

/-- The same, with a package before the outermost name. -/
def internalNameIn (package outerInternal : Option String) (name : String) : String :=
  match outerInternal with
  | some outer => outer ++ "$" ++ name
  | none => inPackage package name

/-- A declaration that `parse_java_class` makes a class of. -/
structure ParsedClass where
  decl : Cursor
  outerInternal : Option String
  name : String
  internalName : String

/-- The names that `parse_java_class` gives. -/
def parseJavaClass (package : Option String) (decl : Cursor) (outerInternal : Option String) :
    Option ParsedClass :=
  match decl.node.childByFieldName "name" with
  | none => none
  | some nameNode =>
    if nameNode.text = "" then none
    else some {
      decl := decl
      outerInternal := outerInternal
      name := nameNode.text
      internalName := internalNameIn package outerInternal nameNode.text }

def collectChild (package : Option String) (child : Cursor) (outerInternal : Option String) :
    List ParsedClass × List Item :=
  if child.node.isClassDecl then
    match parseJavaClass package child outerInternal with
    | some parsed => ([parsed], pushBody child parsed.internalName)
    | none => ([], [])
  else ([], [(child, outerInternal)])

/-- The declarations that `collect_java_classes` makes classes of, in its order. -/
def collectJavaClasses (package : Option String) (root : Node) : List ParsedClass :=
  walk (visitChildren (collectChild package)) Item.size [(root.cursor, none)]

/-! ## The names that are discovered before -/

def discoverChild (package : Option String) (child : Cursor) (outer : Option String) :
    List (Cursor × String) × List Item :=
  if child.node.isHeader then ([], [])
  else if child.node.isClassDecl then
    match child.node.firstChildOfKind "identifier" with
    | none => ([], [])
    | some nameNode =>
      if nameNode.text = "" then ([], [])
      else ([(child, inPackage package (nestedIn outer nameNode.text))],
        pushBody child (nestedIn outer nameNode.text))
  else ([], [(child, outer)])

/-- `recover_error_type_decl`, over the children of an error node. -/
def recoverErrorTypeDecl : List Node → Option (String × String)
  | keyword :: identifier :: rest =>
    if ["class", "interface", "enum", "record"].contains keyword.kind && identifier.kind = "identifier" &&
      identifier.text ≠ "" then some (keyword.kind, identifier.text)
    else recoverErrorTypeDecl (identifier :: rest)
  | _ => none

/-- The declarations that are discovered, with their names. -/
def discoverDeclarations (package : Option String) (root : Node) : List (Cursor × String) :=
  walk (visitChildren (discoverChild package)) Item.size [(root.cursor, none)]

def discoverJavaNames (package : Option String) (root : Node) : List String :=
  if (discoverDeclarations package root).isEmpty then
    (((root.firstChildOfKind "ERROR").bind fun error => recoverErrorTypeDecl error.children).map
      fun recovered => inPackage package recovered.2).toList
  else (discoverDeclarations package root).map Prod.snd

/-! ## Names by the nodes above -/

/-- `nearest_type_declaration` -/
def nearestTypeDeclaration (c : Cursor) : Option Node :=
  c.path.find? Node.isTypeDeclaration

/-- The names of the type declarations around a node, from the inside. -/
def enclosingNames (path : List Node) : List String :=
  (path.filter Node.isTypeDeclaration).filterMap fun n => (n.childByFieldName "name").map Node.text

/-- Names of declarations in one another, the innermost first. -/
def nestedName : List String → String
  | [] => ""
  | [name] => name
  | name :: outer => nestedName outer ++ "$" ++ name

def extractEnclosingInternalName (package : Option String) (c : Cursor) : Option String :=
  if (nearestTypeDeclaration c).isNone || (enclosingNames c.path).isEmpty then none
  else some (inPackage package (nestedName (enclosingNames c.path)))

/-! ## The declarations that ranges are filed for -/

def declarationNameNode (n : Node) : Option Node :=
  (n.childByFieldName "name").or (n.firstChildOfKind "identifier")

def declarationInternalName (package : Option String) (decl : Cursor) (outerInternal : Option String) :
    Option String :=
  (extractEnclosingInternalName package decl).or
    ((declarationNameNode decl.node).bind fun nameNode =>
      if nameNode.text = "" then none
      else some (internalNameIn package outerInternal nameNode.text))

def declarationChild (package : Option String) (child : Cursor) (outerInternal : Option String) :
    List (Cursor × String) × List Item :=
  if child.node.isClassDecl then
    match declarationInternalName package child outerInternal with
    | some internalName => ([(child, internalName)], pushBody child internalName)
    | none => ([], [])
  else ([], [(child, outerInternal)])

/-- The declarations of `collect_java_declarations`, and the name that their ranges are filed under. -/
def collectJavaDeclarations (package : Option String) (root : Node) : List (Cursor × String) :=
  walk (visitChildren (declarationChild package)) Item.size [(root.cursor, none)]

/-! ## Finding a class by its name -/

/-- The name that `find_class_node` compares. -/
def classNodeName (package : Option String) (c : Cursor) : Option String :=
  (extractEnclosingInternalName package c).or
    ((c.node.firstChildOfKind "identifier").map fun nameNode => inPackage package nameNode.text)

def findVisit (c : Cursor) : List Cursor × List Cursor :=
  ([c], c.children)

/-- All nodes in the order of the search. -/
def searchOrder (root : Node) : List Cursor :=
  walk findVisit (fun c => c.node.size) [root.cursor]

def findClassNode (package : Option String) (root : Node) (targetInternal : String) : Option Cursor :=
  (searchOrder root).find? fun c =>
    c.node.isClassDecl && classNodeName package c = some targetInternal

end JavaAnalyzer.Language
