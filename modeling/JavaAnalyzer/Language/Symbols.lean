import JavaAnalyzer.Language.MemberRanges
import JavaAnalyzer.Semantic.ArgumentTexts

/-! # The outline of a file

`language/java/symbols.rs` walks over the type declarations of a tree and their bodies, and makes a symbol for each
declaration of a kind that it knows. The ranges of a symbol are those of two nodes. The request is one that is not
cancelled. -/

namespace JavaAnalyzer.Language
set_option autoImplicit false
open Text Semantic

/-! ## Symbols -/

/-- The kinds of symbols of the protocol that the outline uses. -/
inductive SymbolKind where
  | moduleKind
  | packageKind
  | classKind
  | interfaceKind
  | enumKind
  | methodKind
  | constructorKind
  | enumMemberKind
  | fieldKind
deriving DecidableEq, Repr

inductive DocumentSymbol where
  | mk (name : String) (detail : Option String) (kind : SymbolKind) (range selectionRange : Node)
    (children : Option (List DocumentSymbol))

namespace DocumentSymbol

def name : DocumentSymbol → String
  | mk name _ _ _ _ _ => name

def kind : DocumentSymbol → SymbolKind
  | mk _ _ kind _ _ _ => kind

end DocumentSymbol

def typeSymbolKind (n : Node) : SymbolKind :=
  if ["interface_declaration", "annotation_type_declaration"].contains n.kind then .interfaceKind
  else if n.kind = "enum_declaration" then .enumKind
  else .classKind

/-- `start_type_symbol`, and the children that `build_type_symbol` gives it. -/
def typeSymbol (n : Node) (children : List DocumentSymbol) : Option DocumentSymbol :=
  (n.childByFieldName "name").map fun nameNode =>
    .mk nameNode.text none (typeSymbolKind n) n nameNode (some children)

def constructorKinds : List String :=
  ["constructor_declaration", "compact_constructor_declaration"]

def parseMethodSymbol (n : Node) : Option DocumentSymbol :=
  ((n.childByFieldName "name").or (n.childByFieldName "identifier")).map fun nameNode =>
    .mk nameNode.text none (if constructorKinds.contains n.kind then .constructorKind else .methodKind) n nameNode none

def parseEnumConstantSymbol (n : Node) : Option DocumentSymbol :=
  (((n.childByFieldName "name").or (n.childByFieldName "identifier")).or (n.firstChildOfKind "identifier")).map
    fun nameNode => .mk nameNode.text none .enumMemberKind n nameNode none

/-- The type of a field, for its detail. -/
def fieldSymbolDetail (n : Node) : Option String :=
  (n.children.find? fun child =>
    "_type".toList.isSuffixOf child.kind.toList || child.kind = "type_identifier").map Node.text

/-- The name nodes of the declarators of a declaration. -/
def declaratorNames (n : Node) : List Node :=
  (n.children.filter fun child => child.kind = "variable_declarator").filterMap fun declarator =>
    declarator.childByFieldName "name"

def parseFieldSymbols (n : Node) : List DocumentSymbol :=
  (declaratorNames n).map fun nameNode => .mk nameNode.text (fieldSymbolDetail n) .fieldKind n nameNode none

/-! ## Modules -/

def directiveSymbolKind (n : Node) : Option SymbolKind :=
  if n.kind = "requires_module_directive" then some .moduleKind
  else if ["exports_module_directive", "opens_module_directive"].contains n.kind then some .packageKind
  else if ["uses_module_directive", "provides_module_directive"].contains n.kind then some .interfaceKind
  else none

def buildModuleDirectiveSymbol (n : Node) : Option DocumentSymbol :=
  (directiveSymbolKind n).map fun kind =>
    .mk (String.ofList (trimEndMatches ';' (trim n.text.toList))) none kind n n none

def buildModuleSymbol (n : Node) : Option DocumentSymbol :=
  (n.childByFieldName "name").map fun nameNode =>
    .mk nameNode.text (some "module") .moduleKind n nameNode
      ((n.childByFieldName "body").map fun body => body.children.filterMap buildModuleDirectiveSymbol)

/-! ## The walks -/

def methodSymbolKinds : List String :=
  "method_declaration" :: constructorKinds

def enumConstantKinds : List String :=
  ["enum_constant", "enum_constant_declaration"]

mutual

/-- What one child of a body puts out. -/
def memberSymbols : Node → List DocumentSymbol
  | .mk kind field text children =>
    if classDeclKinds.contains kind then (typeSymbol (.mk kind field text children) (bodySymbols children)).toList
    else if methodSymbolKinds.contains kind then (parseMethodSymbol (.mk kind field text children)).toList
    else if enumConstantKinds.contains kind then (parseEnumConstantSymbol (.mk kind field text children)).toList
    else if ["enum_body_declarations", "ERROR"].contains kind then collectTypeMembers children
    else if kind = "field_declaration" then parseFieldSymbols (.mk kind field text children)
    else []

/-- `collect_type_members`, over the children of a body. -/
def collectTypeMembers : List Node → List DocumentSymbol
  | [] => []
  | n :: nodes => memberSymbols n ++ collectTypeMembers nodes

/-- The members of the first of the nodes that is a body. -/
def bodySymbols : List Node → List DocumentSymbol
  | [] => []
  | .mk _ field _ children :: nodes =>
    if field = some "body" then collectTypeMembers children else bodySymbols nodes

end

def buildTypeSymbol (n : Node) : Option DocumentSymbol :=
  typeSymbol n (bodySymbols n.children)

mutual

def topSymbols : Node → List DocumentSymbol
  | .mk kind field text children =>
    if kind = "module_declaration" then (buildModuleSymbol (.mk kind field text children)).toList
    else if classDeclKinds.contains kind then (buildTypeSymbol (.mk kind field text children)).toList
    else if ["program", "ERROR"].contains kind then collectTypeDeclarations children
    else []

/-- `collect_type_declarations`, over the children of a node. -/
def collectTypeDeclarations : List Node → List DocumentSymbol
  | [] => []
  | n :: nodes => topSymbols n ++ collectTypeDeclarations nodes

end

def collectJavaSymbols (root : Node) : List DocumentSymbol :=
  collectTypeDeclarations root.children

/-- The body of a type is its first child with that field. -/
theorem bodySymbols_eq (nodes : List Node) : bodySymbols nodes =
    ((nodes.find? fun child => child.field = some "body").map fun body => collectTypeMembers body.children).getD [] := by
  induction nodes with
  | nil => rfl
  | cons n nodes ih =>
    obtain ⟨kind, field, text, children⟩ := n
    rw [bodySymbols, List.find?_cons]
    by_cases hbody : field = some "body"
    · simp [hbody, Node.field, Node.children]
    · simp [hbody, Node.field, ih]

theorem collectTypeMembers_eq (nodes : List Node) : collectTypeMembers nodes = nodes.flatMap memberSymbols := by
  induction nodes with
  | nil => rfl
  | cons n nodes ih => rw [collectTypeMembers, ih, List.flatMap_cons]

theorem collectTypeDeclarations_eq (nodes : List Node) :
    collectTypeDeclarations nodes = nodes.flatMap topSymbols := by
  induction nodes with
  | nil => rfl
  | cons n nodes ih => rw [collectTypeDeclarations, ih, List.flatMap_cons]

end JavaAnalyzer.Language
