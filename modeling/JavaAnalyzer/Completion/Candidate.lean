import JavaAnalyzer.Lsp.CompletionEdit
import Mathlib.Data.Rat.Defs

/-! # Completion candidates

`completion/candidate.rs`: what a provider offers, and the builders for what is inserted where a method or a constructor
is called. -/

namespace JavaAnalyzer.Completion
set_option autoImplicit false
open Text Lsp

inductive CandidateKind where
  | className
  | package
  | snippet
  | method (descriptor definingClass : String)
  | field (descriptor definingClass : String)
  | staticMethod (descriptor definingClass : String)
  | staticField (descriptor definingClass : String)
  | localVariable (typeDescriptor : String)
  | constructor (descriptor definingClass : String)
  | statementLabel
  | keyword
  | annotation
  | annotationElement
  | nameSuggestion
deriving DecidableEq, Repr

inductive InsertTextMode where
  | plainText
  | snippet
deriving DecidableEq, Repr

structure MemberAccessRewrite where
  receiverExpr : String
  castType : String
deriving DecidableEq, Repr

structure CompletionInsertion where
  text : String
  mode : InsertTextMode
  replacement : ReplacementMode
  filterText : Option String
  memberAccessRewrite : Option MemberAccessRewrite
deriving DecidableEq, Repr

def CompletionInsertion.plain (text : String) : CompletionInsertion :=
  ⟨text, .plainText, .identifier, none, none⟩

def CompletionInsertion.snippet (text : String) : CompletionInsertion :=
  ⟨text, .snippet, .identifier, none, none⟩

/-- The score is the value of an `f32`, which is a number. -/
structure CompletionCandidate where
  label : String
  insertText : String
  insertion : CompletionInsertion
  kind : CandidateKind
  score : ℚ
  detail : Option String
  source : String
  requiredImport : Option String
deriving DecidableEq

namespace CompletionCandidate

def new (label insertText : String) (kind : CandidateKind) (source : String) : CompletionCandidate where
  label := label
  insertText := insertText
  insertion := if kind = .snippet then .snippet insertText else .plain insertText
  kind := kind
  score := 0
  detail := none
  source := source
  requiredImport := none

def withImport (c : CompletionCandidate) (import' : String) : CompletionCandidate :=
  { c with requiredImport := some import' }

def withInsertText (c : CompletionCandidate) (text : String) : CompletionCandidate :=
  { c with insertText := text, insertion := { c.insertion with text := text } }

def withInsertMode (c : CompletionCandidate) (mode : InsertTextMode) : CompletionCandidate :=
  { c with insertion := { c.insertion with mode := mode } }

end CompletionCandidate

/-! ## Calls -/

/-- The texts `${number:name}` are kept to ASCII letters, digits and underscores. -/
def sanitizePlaceholderName (name : String) (index : ℕ) : String :=
  match (trim name.toList).map fun ch =>
    if ch.isAlphanum || ch = '_' then ch else '_' with
  | [] => "arg" ++ toString (index + 1)
  | c :: out => .ofList (if c.isDigit then 'a' :: c :: out else c :: out)

def placeholderText (number : ℕ) (name : String) : String :=
  "$\x7b" ++ toString number ++ ":" ++ name ++ "\x7d"

def callableArgs (paramNames : List String) : List String :=
  paramNames.zipIdx.map fun p => placeholderText (p.2 + 1) (sanitizePlaceholderName p.1 p.2)

/-- The index of a placeholder is one higher here. -/
def genericsCallableArgs (paramNames : List String) : List String :=
  paramNames.zipIdx.map fun p => placeholderText (p.2 + 1 + 1) (sanitizePlaceholderName p.1 (p.2 + 1))

namespace CompletionCandidate

def withCallableInsert (c : CompletionCandidate) (callableName : String) (paramNames : List String)
    (hasParenAfterCursor : Bool) : CompletionCandidate :=
  if hasParenAfterCursor then c.withInsertText callableName
  else if paramNames.isEmpty then (c.withInsertText (callableName ++ "()")).withInsertMode .plainText
  else
    (c.withInsertText (callableName ++ "(" ++ ", ".intercalate (callableArgs paramNames) ++ ")$0")).withInsertMode
      .snippet

def withGenericsCallableInsert (c : CompletionCandidate) (callableName : String) (paramNames : List String)
    (hasParenAfterCursor : Bool) : CompletionCandidate :=
  if hasParenAfterCursor then c.withInsertText callableName
  else if paramNames.isEmpty then (c.withInsertText (callableName ++ "<$1>()$0")).withInsertMode .snippet
  else
    (c.withInsertText
      (callableName ++ "<$0>(" ++ ", ".intercalate (genericsCallableArgs paramNames) ++ ")$1")).withInsertMode .snippet

end CompletionCandidate

end JavaAnalyzer.Completion
