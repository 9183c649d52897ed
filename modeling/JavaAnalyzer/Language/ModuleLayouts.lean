import JavaAnalyzer.Language.ModuleInfo

/-! # Module declarations as they are written

The tokens of a module declaration with white space and comments between them, their text, and the nodes that the parser
has for them: one for each directive, which spans its text. -/

namespace JavaAnalyzer.Language
set_option autoImplicit false
open Semantic Text Words

/-! ## Between two tokens -/

inductive Trivia where
  | blank (c : Char) (h : isJavaBlank c)
  | blockComment (text : List Char) (h : ¬"*/".toList <:+: text)
  | lineComment (text : List Char) (stop : Char) (h : '\n' ∉ text ∧ '\r' ∉ text ∧ (stop = '\n' ∨ stop = '\r'))

namespace Trivia

def text : Trivia → List Char
  | blank c _ => [c]
  | blockComment text _ => "/*".toList ++ text ++ "*/".toList
  | lineComment text stop _ => "//".toList ++ text ++ [stop]

def isBlank : Trivia → Bool
  | blank _ _ => true
  | blockComment _ _ => false
  | lineComment _ _ _ => false

/-- One space. -/
def space : Trivia :=
  blank ' ' (by decide)

end Trivia

/-- White space and comments. -/
abbrev Spacing := List Trivia

namespace Spacing

def text (s : Spacing) : List Char :=
  s.flatMap Trivia.text

/-- There are no comments. -/
def Plain (s : Spacing) : Prop :=
  ∀ t ∈ s, t.isBlank = true

/-- No comment comes first. -/
def StartsPlain (s : Spacing) : Prop :=
  ∀ t ∈ s.head?, t.isBlank = true

/-- The comments, which are named nodes where they stand between directives. -/
def comments (s : Spacing) : List (DirectiveKind × List Char) :=
  (s.filter fun t => !t.isBlank).map fun t => (.other, t.text)

end Spacing

/-! ## Names -/

/-- An identifier; words such as `to` and `open` are not reserved. -/
abbrev JavaWord := ParameterName

structure LaidName where
  head : JavaWord
  tail : List (Spacing × Spacing × JavaWord)

namespace LaidName

def tailText (tail : List (Spacing × Spacing × JavaWord)) : List Char :=
  tail.flatMap fun part => part.1.text ++ '.' :: (part.2.1.text ++ part.2.2.text)

def tailName (tail : List (Spacing × Spacing × JavaWord)) : List Char :=
  tail.flatMap fun part => '.' :: part.2.2.text

def text (n : LaidName) : List Char :=
  n.head.text ++ tailText n.tail

/-- The name that is meant. -/
def name (n : LaidName) : List Char :=
  n.head.text ++ tailName n.tail

/-- Nothing stands around the dots. -/
def Joined (n : LaidName) : Prop :=
  ∀ part ∈ n.tail, part.1 = [] ∧ part.2.1 = []

def join (n : LaidName) : LaidName :=
  ⟨n.head, n.tail.map fun part => ([], [], part.2.2)⟩

end LaidName

/-- Names with what stands before and behind the word or comma in front of each. -/
abbrev LaidNames := List (Spacing × Spacing × LaidName)

/-- The first name follows a word, the others follow commas. -/
def LaidNames.text (word : List Char) : LaidNames → List Char
  | [] => []
  | (before, behind, n) :: rest => before.text ++ (word ++ (behind.text ++ (n.text ++ LaidNames.text [','] rest)))

/-! ## Directives -/

inductive RequiresModifier where
  | static
  | transitive
deriving DecidableEq

def RequiresModifier.word : RequiresModifier → String
  | static => "static"
  | transitive => "transitive"

structure LaidRequires where
  modifiers : List (Spacing × RequiresModifier)
  lead : Spacing
  module : LaidName
  stop : Spacing
  apart : (∀ m ∈ modifiers, m.1 ≠ []) ∧ lead ≠ []

/-- The directives other than `requires`. -/
inductive ClauseKind where
  | exports
  | opens
  | uses
  | provides
deriving DecidableEq

namespace ClauseKind

def keyword : ClauseKind → String
  | exports => "exports"
  | opens => "opens"
  | uses => "uses"
  | provides => "provides"

/-- The word before the listed names. -/
def word : ClauseKind → String
  | provides => "with"
  | _ => "to"

def directiveKind : ClauseKind → DirectiveKind
  | exports => .exports
  | opens => .opens
  | uses => .uses
  | provides => .provides

end ClauseKind

/-- `provides` lists a name at least, `uses` none. -/
structure LaidClause where
  kind : ClauseKind
  lead : Spacing
  name : LaidName
  listed : LaidNames
  stop : Spacing
  apart : lead ≠ [] ∧ ∀ first ∈ listed.head?, first.1 ≠ [] ∧ first.2.1 ≠ []
  uses : kind = .uses → listed = []
  provides : kind = .provides → listed ≠ []

namespace LaidRequires

def modifiersText (modifiers : List (Spacing × RequiresModifier)) : List Char :=
  modifiers.flatMap fun m => m.1.text ++ m.2.word.toList

def body (d : LaidRequires) : List Char :=
  modifiersText d.modifiers ++ (d.lead.text ++ (d.module.text ++ d.stop.text))

/-- The same words with single spaces where there have to be any. -/
def squeeze (d : LaidRequires) : LaidRequires where
  modifiers := d.modifiers.map fun m => ([.space], m.2)
  lead := [.space]
  module := d.module.join
  stop := []
  apart := ⟨fun m hm => by
    obtain ⟨m', -, rfl⟩ := List.mem_map.mp hm
    exact List.cons_ne_nil _ _, List.cons_ne_nil _ _⟩

end LaidRequires

namespace LaidClause

def body (d : LaidClause) : List Char :=
  d.lead.text ++ (d.name.text ++ (d.listed.text d.kind.word.toList ++ d.stop.text))

def squeezeNames : LaidNames → LaidNames
  | [] => []
  | (_, _, n) :: rest => ([.space], [.space], n.join) :: rest.map fun entry => ([], [.space], entry.2.2.join)

def squeeze (d : LaidClause) : LaidClause where
  kind := d.kind
  lead := [.space]
  name := d.name.join
  listed := squeezeNames d.listed
  stop := []
  apart := by
    refine ⟨List.cons_ne_nil _ _, fun first hfirst => ?_⟩
    cases hlisted : d.listed with
    | nil =>
      rw [hlisted] at hfirst
      cases hfirst
    | cons entry rest =>
      rw [hlisted] at hfirst
      obtain rfl := Option.some.inj hfirst
      exact ⟨List.cons_ne_nil _ _, List.cons_ne_nil _ _⟩
  uses h := by rw [d.uses h]; rfl
  provides h := by
    obtain ⟨entry, rest, hlisted⟩ := List.exists_cons_of_ne_nil (d.provides h)
    rw [hlisted]
    exact List.cons_ne_nil _ _

end LaidClause

inductive LaidDirective where
  | requires (d : LaidRequires)
  | clause (d : LaidClause)

namespace LaidDirective

def keyword : LaidDirective → String
  | requires _ => "requires"
  | clause d => d.kind.keyword

def body : LaidDirective → List Char
  | requires d => d.body
  | clause d => d.body

def text (d : LaidDirective) : List Char :=
  d.keyword.toList ++ (d.body ++ [';'])

def kind : LaidDirective → DirectiveKind
  | requires _ => .requires
  | clause d => d.kind.directiveKind

def squeeze : LaidDirective → LaidDirective
  | requires d => requires d.squeeze
  | clause d => clause d.squeeze

end LaidDirective

/-! ## Declarations -/

structure LaidModule where
  annotations : List Char
  opened : Option Spacing
  lead : Spacing
  name : LaidName
  beforeBody : Spacing
  directives : List (Spacing × LaidDirective)
  stop : Spacing
  apart : (∀ s ∈ opened, s ≠ []) ∧ lead ≠ []

namespace LaidModule

/-- What stands between the annotations and the name. -/
def header (m : LaidModule) : List Char :=
  (m.opened.elim [] fun s => "open".toList ++ s.text) ++ ("module".toList ++ m.lead.text)

def text (m : LaidModule) : List Char :=
  m.annotations ++ m.header ++ m.name.text ++ m.beforeBody.text ++ '{' ::
    (m.directives.flatMap fun entry => entry.1.text ++ entry.2.text) ++ m.stop.text ++ ['}']

/-- The tree of the declaration, with one node for each directive. -/
def node (m : LaidModule) : ModuleDeclarationNode where
  beforeName := m.annotations ++ m.header
  name := m.name.text
  children := (m.directives.flatMap fun entry => entry.1.comments ++ [(entry.2.kind, entry.2.text)]) ++ m.stop.comments

/-- The declaration without annotations, and with nothing in its directives that need not be there. -/
def squeeze (m : LaidModule) : LaidModule :=
  { m with annotations := [], directives := m.directives.map fun entry => (entry.1, entry.2.squeeze) }

end LaidModule

end JavaAnalyzer.Language
