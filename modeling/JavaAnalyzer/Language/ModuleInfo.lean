import JavaAnalyzer.Language.FormalParameters
import JavaAnalyzer.Library.Words
import JavaAnalyzer.Semantic.ArgumentTexts

/-! # Module descriptors

`language/java/module_info.rs` renders a module descriptor as source, and reads one out of the tree of a module
declaration: of each directive the tree says what kind it is, and its text is cut up by words and separators. -/

namespace JavaAnalyzer.Language
set_option autoImplicit false
open Semantic Text Words

/-! ## Descriptors and their source -/

structure JavaModuleRequires where
  moduleName : List Char
  isStatic : Bool
  isTransitive : Bool
deriving DecidableEq

structure JavaModulePackageDirective where
  packageName : List Char
  targetModules : List (List Char)
deriving DecidableEq

structure JavaModuleProvides where
  service : List Char
  implementations : List (List Char)
deriving DecidableEq

structure JavaModuleDescriptor where
  name : List Char
  isOpen : Bool
  requires : List JavaModuleRequires
  exports : List JavaModulePackageDirective
  opens : List JavaModulePackageDirective
  uses : List (List Char)
  provides : List JavaModuleProvides
deriving DecidableEq

namespace JavaModuleDescriptor

def requiresLine (require : JavaModuleRequires) : List Char :=
  "    requires".toList ++ (if require.isStatic then " static".toList else []) ++
    (if require.isTransitive then " transitive".toList else []) ++ ' ' :: require.moduleName ++ [';']

/-- The lines of exports and opens. -/
def packageLine (keyword : String) (directive : JavaModulePackageDirective) : List Char :=
  "    ".toList ++ keyword.toList ++ ' ' :: directive.packageName ++
    (if directive.targetModules.isEmpty then []
      else " to ".toList ++ ", ".toList.intercalate directive.targetModules) ++ [';']

def usesLine (service : List Char) : List Char :=
  "    uses ".toList ++ service ++ [';']

def providesLine (provide : JavaModuleProvides) : List Char :=
  "    provides ".toList ++ provide.service ++ " with ".toList ++
    ", ".toList.intercalate provide.implementations ++ [';']

def headerLine (descriptor : JavaModuleDescriptor) : List Char :=
  (if descriptor.isOpen then "open ".toList else []) ++ "module ".toList ++ descriptor.name ++ " \x7b".toList

def renderModuleDescriptorSource (descriptor : JavaModuleDescriptor) : List Char :=
  ['\n'].intercalate
    ([descriptor.headerLine] ++ descriptor.requires.map requiresLine ++
      descriptor.exports.map (packageLine "exports") ++ descriptor.opens.map (packageLine "opens") ++
      descriptor.uses.map usesLine ++ descriptor.provides.map providesLine ++ [['}']])

end JavaModuleDescriptor

/-! ## Reading directives -/

def isRequiresModifier (token : List Char) : Bool :=
  ["static".toList, "transitive".toList].contains token

/-- What is left of a directive without its keyword and its semicolon. -/
def directiveBody (keyword : String) (text : List Char) : Option (List Char) :=
  ((trimEndMatches ';' (trim text)).dropPrefix? keyword.toList).map trim

def parseRequiresDirective (text : List Char) : Option JavaModuleRequires :=
  (directiveBody "requires" text).bind fun body =>
    ((words body).find? fun token => !isRequiresModifier token).map fun moduleName =>
      ⟨moduleName, (words body).contains "static".toList, (words body).contains "transitive".toList⟩

/-- The names of a list, without empty ones. -/
def listedNames (text : List Char) : List (List Char) :=
  ((text.splitOn ',').map trim).filter (· ≠ [])

def parsePackageDirective (text : List Char) (keyword : String) : Option JavaModulePackageDirective :=
  (directiveBody keyword text).bind fun rest =>
    let body := collapse rest
    let parts := match splitOnceText " to ".toList body with
      | some (packageName, targets) => (trim packageName, listedNames targets)
      | none => (body, [])
    if parts.1.isEmpty then none else some ⟨parts.1, parts.2⟩

def parseUsesDirective (text : List Char) : Option (List Char) :=
  (directiveBody "uses" text).bind fun typeName => if typeName.isEmpty then none else some typeName

def parseProvidesDirective (text : List Char) : Option JavaModuleProvides :=
  (directiveBody "provides" text).bind fun rest =>
    (splitOnceText " with ".toList (collapse rest)).bind fun parts =>
      let implementations := listedNames parts.2
      if (trim parts.1).isEmpty || implementations.isEmpty then none else some ⟨trim parts.1, implementations⟩

/-! ## Reading declarations -/

/-- The kinds of the named children of a module body; `other` are comments and errors. -/
inductive DirectiveKind where
  | requires
  | exports
  | opens
  | uses
  | provides
  | other
deriving DecidableEq

/-- What the tree says of a module declaration that has a name and a body: the source from its start to its name, the
name, and the named children of the body. -/
structure ModuleDeclarationNode where
  beforeName : List Char
  name : List Char
  children : List (DirectiveKind × List Char)

/-- The loop over the children. -/
def JavaModuleDescriptor.push (descriptor : JavaModuleDescriptor) (child : DirectiveKind × List Char) :
    JavaModuleDescriptor :=
  let text := trim child.2
  match child.1 with
  | .requires => { descriptor with requires := descriptor.requires ++ (parseRequiresDirective text).toList }
  | .exports => { descriptor with exports := descriptor.exports ++ (parsePackageDirective text "exports").toList }
  | .opens => { descriptor with opens := descriptor.opens ++ (parsePackageDirective text "opens").toList }
  | .uses => { descriptor with uses := descriptor.uses ++ (parseUsesDirective text).toList }
  | .provides => { descriptor with provides := descriptor.provides ++ (parseProvidesDirective text).toList }
  | .other => descriptor

def extractModuleDescriptorFromRoot (root : Option ModuleDeclarationNode) : Option JavaModuleDescriptor :=
  root.bind fun moduleDecl =>
    let name := trim moduleDecl.name
    if name.isEmpty then none
    else
      some (moduleDecl.children.foldl JavaModuleDescriptor.push
        ⟨name, decide ("open".toList <:+: moduleDecl.beforeName), [], [], [], [], []⟩)

/-- `extract_module_descriptor_from_source`, for the parser that gives the tree. -/
def extractModuleDescriptor (parse : List Char → Option ModuleDeclarationNode) (source : List Char) :
    Option JavaModuleDescriptor :=
  extractModuleDescriptorFromRoot (parse source)

end JavaAnalyzer.Language
