import JavaAnalyzer.Language.RelaxedTypes

/-! # Facts from conditions

The narrowing facts of `language/java/flow.rs`: what a condition says of the types of locals where it is
true, where it is false, and at a place inside of it. A fact from a condition holds of the values of the
locals whenever the evaluation of the condition ends, or comes to the place, that way. -/

namespace JavaAnalyzer.Language
set_option autoImplicit false
open JavaAnalyzer.Index Semantic Text

/-! ## Nodes with their places -/

/-- The bytes of a node. -/
structure Place where
  startByte : ℕ
  endByte : ℕ
deriving DecidableEq, Repr

/-- Both ends are part of the place. -/
def Place.contains (p : Place) (offset : ℕ) : Bool :=
  decide (p.startByte ≤ offset ∧ offset ≤ p.endByte)

def Place.Within (p q : Place) : Prop :=
  q.startByte ≤ p.startByte ∧ p.endByte ≤ q.endByte

theorem Place.contains_of_within {p q : Place} {offset : ℕ} (h : p.Within q) (hp : p.contains offset) :
    q.contains offset := by
  have hp' := of_decide_eq_true hp
  exact decide_eq_true ⟨h.1.trans hp'.1, hp'.2.trans h.2⟩

inductive PlacedNode where
  | mk (kind : String) (named : Bool) (field : Option String) (text : List Char) (place : Place)
      (children : List PlacedNode)

namespace PlacedNode

def kind : PlacedNode → String
  | mk kind _ _ _ _ _ => kind

def named : PlacedNode → Bool
  | mk _ named _ _ _ _ => named

def field : PlacedNode → Option String
  | mk _ _ field _ _ _ => field

def text : PlacedNode → List Char
  | mk _ _ _ text _ _ => text

def place : PlacedNode → Place
  | mk _ _ _ _ place _ => place

def children : PlacedNode → List PlacedNode
  | mk _ _ _ _ _ children => children

def childByFieldName (n : PlacedNode) (name : String) : Option PlacedNode :=
  n.children.find? fun child => child.field = some name

def namedChildren (n : PlacedNode) : List PlacedNode :=
  n.children.filter named

def firstNamedChild (n : PlacedNode) : Option PlacedNode :=
  n.namedChildren.head?

theorem sizeOf_lt_of_mem {n child : PlacedNode} (h : child ∈ n.children) : sizeOf child < sizeOf n := by
  cases n with
  | mk kind named field text place nodes =>
    have hlt : sizeOf child < sizeOf nodes := List.sizeOf_lt_of_mem h
    rw [mk.sizeOf_spec]
    omega

theorem mem_of_childByFieldName {n child : PlacedNode} {name : String}
    (h : n.childByFieldName name = some child) : child ∈ n.children :=
  List.mem_of_find?_eq_some h

theorem mem_of_namedChildren_getElem {n child : PlacedNode} {i : ℕ} (h : n.namedChildren[i]? = some child) :
    child ∈ n.children :=
  List.mem_of_mem_filter (List.mem_of_getElem? h)

theorem mem_of_firstNamedChild {n child : PlacedNode} (h : n.firstNamedChild = some child) :
    child ∈ n.children :=
  List.mem_of_mem_filter (List.mem_of_mem_head? h)

/-- The child of a field, or else the named child at an index. -/
def fieldOrNamed (n : PlacedNode) (name : String) (i : ℕ) : Option PlacedNode :=
  (n.childByFieldName name).or n.namedChildren[i]?

theorem mem_of_fieldOrNamed {n child : PlacedNode} {name : String} {i : ℕ}
    (h : n.fieldOrNamed name i = some child) : child ∈ n.children := by
  rcases Option.or_eq_some_iff.mp h with h | ⟨-, h⟩
  · exact mem_of_childByFieldName h
  · exact mem_of_namedChildren_getElem h

/-! ## The parts of a condition -/

def unwrapParenthesizedExpression (n : PlacedNode) : Option PlacedNode :=
  if n.kind = "parenthesized_expression" then (n.childByFieldName "expression").or n.firstNamedChild
  else some n

/-- What a round of the loop of `peel_wrappers` goes on with. -/
def wrapped (n : PlacedNode) : Option PlacedNode :=
  if n.kind = "parenthesized_expression" then n.unwrapParenthesizedExpression
  else if n.kind = "expression_statement" then n.firstNamedChild
  else none

theorem mem_of_wrapped {n inner : PlacedNode} (h : n.wrapped = some inner) : inner ∈ n.children := by
  unfold wrapped unwrapParenthesizedExpression at h
  split_ifs at h
  · rcases Option.or_eq_some_iff.mp h with h | ⟨-, h⟩
    · exact mem_of_childByFieldName h
    · exact mem_of_firstNamedChild h
  · exact mem_of_firstNamedChild h

def peelWrappers (n : PlacedNode) : PlacedNode :=
  match _h : n.wrapped with
  | some inner => inner.peelWrappers
  | none => n
termination_by sizeOf n
decreasing_by exact sizeOf_lt_of_mem (mem_of_wrapped _h)

theorem peelWrappers_of_wrapped {n inner : PlacedNode} (h : n.wrapped = some inner) :
    n.peelWrappers = inner.peelWrappers := by
  rw [peelWrappers]
  split
  · next inner' h' => rw [Option.some.inj (h.symm.trans h')]
  · next h' => rw [h] at h'; cases h'

theorem peelWrappers_of_bare {n : PlacedNode} (h : n.wrapped = none) : n.peelWrappers = n := by
  rw [peelWrappers]
  split
  · next inner h' => rw [h] at h'; cases h'
  · rfl

theorem sizeOf_peelWrappers_le (n : PlacedNode) : sizeOf n.peelWrappers ≤ sizeOf n := by
  induction n using peelWrappers.induct with
  | case1 n inner h ih =>
    rw [peelWrappers_of_wrapped h]
    exact ih.trans (sizeOf_lt_of_mem (mem_of_wrapped h)).le
  | case2 n h => rw [peelWrappers_of_bare h]

theorem sizeOf_lt_of_peeled {n child : PlacedNode} (h : child ∈ n.peelWrappers.children) :
    sizeOf child < sizeOf n :=
  (sizeOf_lt_of_mem h).trans_le n.sizeOf_peelWrappers_le

def unaryOperator (n : PlacedNode) : Option (List Char) :=
  match n.childByFieldName "operator" with
  | some op => some (trim op.text)
  | none => (n.children.find? fun child => child.kind ∈ ["!", "~", "+", "-"]).map fun child => child.kind.toList

def unaryOperand (n : PlacedNode) : Option PlacedNode :=
  n.fieldOrNamed "operand" 0

/-- Only the two connectives. -/
def connective (n : PlacedNode) : Option String :=
  if n.kind = "&&" then some "&&" else if n.kind = "||" then some "||" else none

def binaryOperator (n : PlacedNode) : Option String :=
  ((n.childByFieldName "operator").bind connective).or (n.children.findSome? connective)

def binaryLeft (n : PlacedNode) : Option PlacedNode :=
  n.fieldOrNamed "left" 0

def binaryRight (n : PlacedNode) : Option PlacedNode :=
  n.fieldOrNamed "right" 1

def nodeContainsOffset (n : PlacedNode) (offset : ℕ) : Bool :=
  n.place.contains offset

/-- The operand of any unary operator. -/
def unaryPart (n : PlacedNode) : Option PlacedNode :=
  if n.kind = "unary_expression" then n.unaryOperand else none

/-- The operand of `!`. -/
def negated (n : PlacedNode) : Option PlacedNode :=
  if n.unaryOperator = some ['!'] then n.unaryPart else none

/-- Operator and operands. -/
def binaryParts (n : PlacedNode) : Option (String × PlacedNode × PlacedNode) :=
  if n.kind = "binary_expression" then
    n.binaryOperator.bind fun op => n.binaryLeft.bind fun left => n.binaryRight.map fun right => (op, left, right)
  else none

theorem mem_of_unaryPart {n operand : PlacedNode} (h : n.unaryPart = some operand) : operand ∈ n.children := by
  unfold unaryPart at h
  split_ifs at h
  exact mem_of_fieldOrNamed h

theorem mem_of_negated {n operand : PlacedNode} (h : n.negated = some operand) : operand ∈ n.children := by
  unfold negated at h
  split_ifs at h
  exact mem_of_unaryPart h

theorem mem_of_binaryParts {n left right : PlacedNode} {op : String}
    (h : n.binaryParts = some (op, left, right)) : left ∈ n.children ∧ right ∈ n.children := by
  unfold binaryParts at h
  split_ifs at h
  obtain ⟨op', -, h⟩ := Option.bind_eq_some_iff.mp h
  obtain ⟨left', hleft, h⟩ := Option.bind_eq_some_iff.mp h
  obtain ⟨right', hright, h⟩ := Option.map_eq_some_iff.mp h
  cases h
  exact ⟨mem_of_fieldOrNamed hleft, mem_of_fieldOrNamed hright⟩

end PlacedNode

/-! ## Facts -/

/-- Types of locals, by name. -/
abbrev NarrowingFacts := AList fun _ : List Char => TypeName

structure FlowFacts where
  whenTrue : NarrowingFacts
  whenFalse : NarrowingFacts

/-- The facts of one outcome. -/
def FlowFacts.on (facts : FlowFacts) (outcome : Bool) : NarrowingFacts :=
  if outcome then facts.whenTrue else facts.whenFalse

/-- No facts. -/
def FlowFacts.default : FlowFacts :=
  ⟨∅, ∅⟩

/-- A fact goes in under a new name, and takes the fact under its name out if the types are different. -/
def mergeFact (facts : NarrowingFacts) (name : List Char) (ty : TypeName) : NarrowingFacts :=
  match facts.lookup name with
  | some existing => if existing.erasedInternal ≠ ty.erasedInternal then facts.erase name else facts
  | none => facts.insert name ty

def mergeFacts (dst src : NarrowingFacts) : NarrowingFacts :=
  src.entries.foldl (fun facts fact => mergeFact facts fact.1 fact.2) dst

namespace SourceTypeCtx

variable (ctx : SourceTypeCtx) (locals : List (List Char))

/-- Locals are given by their names. -/
def parseInstanceofNarrowing (expr : PlacedNode) : Option (List Char × TypeName) :=
  if expr.kind ≠ "instanceof_expression" then none
  else
    (expr.childByFieldName "left").bind fun left =>
      if left.kind ≠ "identifier" then none
      else if (trim left.text).isEmpty ∨ trim left.text ∉ locals then none
      else
        (expr.childByFieldName "right").bind fun right =>
          if (trim right.text).isEmpty then none
          else (ctx.resolveTypeNameRelaxed (trim right.text)).map fun narrowed => (trim left.text, narrowed.1)

def factsForExpr (expr : PlacedNode) : FlowFacts :=
  match ctx.parseInstanceofNarrowing locals expr.peelWrappers with
  | some (name, ty) => ⟨(∅ : NarrowingFacts).insert name ty, ∅⟩
  | none =>
    match _hnot : expr.peelWrappers.negated with
    | some operand => ⟨(factsForExpr operand).whenFalse, (factsForExpr operand).whenTrue⟩
    | none =>
      match _hparts : expr.peelWrappers.binaryParts with
      | some (op, left, right) =>
        if op = "&&" then ⟨mergeFacts (factsForExpr left).whenTrue (factsForExpr right).whenTrue, ∅⟩
        else if op = "||" then ⟨∅, mergeFacts (factsForExpr left).whenFalse (factsForExpr right).whenFalse⟩
        else .default
      | none => .default
termination_by sizeOf expr
decreasing_by
  · exact PlacedNode.sizeOf_lt_of_peeled (PlacedNode.mem_of_negated _hnot)
  · exact PlacedNode.sizeOf_lt_of_peeled (PlacedNode.mem_of_binaryParts _hparts).1
  · exact PlacedNode.sizeOf_lt_of_peeled (PlacedNode.mem_of_binaryParts _hparts).2
  · exact PlacedNode.sizeOf_lt_of_peeled (PlacedNode.mem_of_binaryParts _hparts).1
  · exact PlacedNode.sizeOf_lt_of_peeled (PlacedNode.mem_of_binaryParts _hparts).2

/-- The right operand comes first: an offset in both is in the right one. -/
def factsAvailableAtExprPosition (expr : PlacedNode) (offset : ℕ) : NarrowingFacts :=
  if expr.peelWrappers.nodeContainsOffset offset = false then ∅
  else
    match _hparts : expr.peelWrappers.binaryParts with
    | some (op, left, right) =>
      if right.nodeContainsOffset offset then
        if op = "&&" then
          mergeFacts (factsAvailableAtExprPosition right offset) (ctx.factsForExpr locals left).whenTrue
        else if op = "||" then
          mergeFacts (factsAvailableAtExprPosition right offset) (ctx.factsForExpr locals left).whenFalse
        else factsAvailableAtExprPosition right offset
      else if left.nodeContainsOffset offset then factsAvailableAtExprPosition left offset
      else ∅
    | none =>
      match _hunary : expr.peelWrappers.unaryPart with
      | some operand =>
        if operand.nodeContainsOffset offset then factsAvailableAtExprPosition operand offset else ∅
      | none => ∅
termination_by sizeOf expr
decreasing_by
  · exact PlacedNode.sizeOf_lt_of_peeled (PlacedNode.mem_of_binaryParts _hparts).2
  · exact PlacedNode.sizeOf_lt_of_peeled (PlacedNode.mem_of_binaryParts _hparts).2
  · exact PlacedNode.sizeOf_lt_of_peeled (PlacedNode.mem_of_binaryParts _hparts).2
  · exact PlacedNode.sizeOf_lt_of_peeled (PlacedNode.mem_of_binaryParts _hparts).1
  · exact PlacedNode.sizeOf_lt_of_peeled (PlacedNode.mem_of_unaryPart _hunary)

end SourceTypeCtx

/-- A fact after a round was there before, or is the one of the round. -/
theorem mem_of_lookup_mergeFact {facts : NarrowingFacts} {name name' : List Char} {ty ty' : TypeName}
    (h : (mergeFact facts name' ty').lookup name = some ty) :
    facts.lookup name = some ty ∨ (name = name' ∧ ty = ty') := by
  unfold mergeFact at h
  by_cases hname : name = name'
  · subst hname
    split at h
    · split_ifs at h
      · rw [AList.lookup_erase] at h
        cases h
      · exact .inl h
    · rw [AList.lookup_insert] at h
      exact .inr ⟨rfl, (Option.some.inj h).symm⟩
  · refine .inl ?_
    split at h
    · split_ifs at h
      · rwa [AList.lookup_erase_ne hname] at h
      · exact h
    · rwa [AList.lookup_insert_ne hname] at h

theorem mem_of_lookup_mergeFacts {dst src : NarrowingFacts} {name : List Char} {ty : TypeName}
    (h : (mergeFacts dst src).lookup name = some ty) :
    dst.lookup name = some ty ∨ src.lookup name = some ty := by
  rw [mergeFacts] at h
  have hentries : dst.lookup name = some ty ∨ ⟨name, ty⟩ ∈ src.entries := by
    generalize src.entries = entries at h ⊢
    induction entries generalizing dst with
    | nil => exact .inl h
    | cons fact entries ih =>
      rcases ih h with h | h
      · rcases mem_of_lookup_mergeFact h with h | ⟨rfl, rfl⟩
        · exact .inl h
        · exact .inr List.mem_cons_self
      · exact .inr (List.mem_cons_of_mem _ h)
  exact hentries.imp_right AList.mem_lookup_iff.mpr

/-! ## Conditions -/

/-- A condition over tests of locals, with the places of its parts. -/
inductive Condition where
  | test (place : Place) (name typeText : List Char)
  | other (place : Place)
  | paren (place : Place) (inner : Condition)
  | not (place : Place) (operand : Condition)
  | and (place : Place) (left right : Condition)
  | or (place : Place) (left right : Condition)

namespace Condition

def place : Condition → Place
  | test place .. => place
  | other place => place
  | paren place _ => place
  | not place _ => place
  | and place .. => place
  | or place .. => place

/-- The node is none of the forms of a condition: a test of something that is no local or with a pattern,
another operator, or any other expression. -/
structure OtherExpr (locals : List (List Char)) (n : PlacedNode) : Prop where
  kind : n.kind ∉ ["parenthesized_expression", "expression_statement", "unary_expression"]
  test : n.kind = "instanceof_expression" → ∀ left, n.childByFieldName "left" = some left →
    left.kind = "identifier" → trim left.text ∈ locals → n.childByFieldName "right" = none
  operator : n.kind = "binary_expression" → ∀ child ∈ n.children, child.connective = none

def IsComment (n : PlacedNode) : Prop :=
  n.kind = "line_comment" ∨ n.kind = "block_comment"

/-- The trees that the grammar gives for a condition. Comments can stand between the parts. -/
inductive Parses (locals : List (List Char)) : PlacedNode → Condition → Prop
  | test {n left right : PlacedNode} (hkind : n.kind = "instanceof_expression")
      (hleft : n.childByFieldName "left" = some left) (hname : left.kind = "identifier")
      (hlocal : trim left.text ∈ locals) (hright : n.childByFieldName "right" = some right) :
      Parses locals n (.test n.place (trim left.text) (trim right.text))
  | other {n : PlacedNode} (h : OtherExpr locals n) : Parses locals n (.other n.place)
  | paren {n inner : PlacedNode} {c : Condition} {before after : List PlacedNode}
      (hkind : n.kind = "parenthesized_expression") (hfield : n.childByFieldName "expression" = none)
      (hnamed : n.namedChildren = before ++ inner :: after) (hcomments : ∀ m ∈ before, IsComment m)
      (hwithin : inner.place.Within n.place) (hinner : Parses locals inner c) : Parses locals n (.paren n.place c)
  | not {n op operand : PlacedNode} {c : Condition} (hkind : n.kind = "unary_expression")
      (hop : n.childByFieldName "operator" = some op) (htext : trim op.text = ['!'])
      (hfield : n.childByFieldName "operand" = some operand) (hoperand : Parses locals operand c) :
      Parses locals n (.not n.place c)
  | and {n op left right : PlacedNode} {c d : Condition} (hkind : n.kind = "binary_expression")
      (hop : n.childByFieldName "operator" = some op) (hand : op.kind = "&&")
      (hl : n.childByFieldName "left" = some left) (hr : n.childByFieldName "right" = some right)
      (hleft : Parses locals left c) (hright : Parses locals right d) : Parses locals n (.and n.place c d)
  | or {n op left right : PlacedNode} {c d : Condition} (hkind : n.kind = "binary_expression")
      (hop : n.childByFieldName "operator" = some op) (hor : op.kind = "||")
      (hl : n.childByFieldName "left" = some left) (hr : n.childByFieldName "right" = some right)
      (hleft : Parses locals left c) (hright : Parses locals right d) : Parses locals n (.or n.place c d)

section Evaluation

variable (ctx : SourceTypeCtx) {Val : Type} (instanceOf : Val → TypeName → Prop) (values : List Char → Val)

/-- The values that a condition can come to. A test of a local is on the type that its text names in the
file; where the text names none, and for every other expression, any value can come out. -/
inductive Evaluates : Condition → Bool → Prop
  | test {place : Place} {name typeText : List Char} {b : Bool}
      (h : ∀ ty ∈ ctx.resolveTypeNameRelaxed typeText, b = true ↔ instanceOf (values name) ty.1) :
      Evaluates (.test place name typeText) b
  | other {place : Place} {b : Bool} : Evaluates (.other place) b
  | paren {place : Place} {c : Condition} {b : Bool} (h : Evaluates c b) : Evaluates (.paren place c) b
  | not {place : Place} {c : Condition} {b : Bool} (h : Evaluates c b) : Evaluates (.not place c) !b
  | and_false {place : Place} {c d : Condition} (h : Evaluates c false) : Evaluates (.and place c d) false
  | and_true {place : Place} {c d : Condition} {b : Bool} (hleft : Evaluates c true) (hright : Evaluates d b) :
      Evaluates (.and place c d) b
  | or_true {place : Place} {c d : Condition} (h : Evaluates c true) : Evaluates (.or place c d) true
  | or_false {place : Place} {c d : Condition} {b : Bool} (hleft : Evaluates c false) (hright : Evaluates d b) :
      Evaluates (.or place c d) b

/-- The evaluation comes to the offset: to every part around it. -/
def Reaches (offset : ℕ) : Condition → Prop
  | .test place .. => place.contains offset
  | .other place => place.contains offset
  | .paren place c => place.contains offset ∧ (c.place.contains offset → c.Reaches offset)
  | .not place c => place.contains offset ∧ (c.place.contains offset → c.Reaches offset)
  | .and place c d => place.contains offset ∧ (c.place.contains offset → c.Reaches offset) ∧
      (d.place.contains offset → Evaluates ctx instanceOf values c true ∧ d.Reaches offset)
  | .or place c d => place.contains offset ∧ (c.place.contains offset → c.Reaches offset) ∧
      (d.place.contains offset → Evaluates ctx instanceOf values c false ∧ d.Reaches offset)

/-- Each local has its type now. -/
def FactsHold (facts : NarrowingFacts) : Prop :=
  ∀ name ty, facts.lookup name = some ty → instanceOf (values name) ty

theorem factsHold_empty : FactsHold instanceOf values ∅ := by
  intro name ty h
  rw [AList.lookup_empty] at h
  cases h

theorem factsHold_insert {name : List Char} {ty : TypeName} (h : instanceOf (values name) ty) :
    FactsHold instanceOf values ((∅ : NarrowingFacts).insert name ty) := by
  intro name' ty' hlookup
  by_cases hname : name' = name
  · subst hname
    rw [AList.lookup_insert] at hlookup
    rwa [← Option.some.inj hlookup]
  · rw [AList.lookup_insert_ne hname] at hlookup
    cases hlookup

/-- A merged map has no fact of its own. -/
theorem factsHold_merge {dst src : NarrowingFacts} (hdst : FactsHold instanceOf values dst)
    (hsrc : FactsHold instanceOf values src) : FactsHold instanceOf values (mergeFacts dst src) := by
  intro name ty h
  rcases mem_of_lookup_mergeFacts h with h | h
  · exact hdst name ty h
  · exact hsrc name ty h

end Evaluation

end Condition

/-! ## What the functions give for each form -/

namespace SourceTypeCtx

variable (ctx : SourceTypeCtx) (locals : List (List Char))

/-- What `facts_for_expr` does without the wrappers. -/
def factsForPeeled (n : PlacedNode) : FlowFacts :=
  match ctx.parseInstanceofNarrowing locals n with
  | some (name, ty) => ⟨(∅ : NarrowingFacts).insert name ty, ∅⟩
  | none =>
    match n.negated with
    | some operand => ⟨(ctx.factsForExpr locals operand).whenFalse, (ctx.factsForExpr locals operand).whenTrue⟩
    | none =>
      match n.binaryParts with
      | some (op, left, right) =>
        if op = "&&" then
          ⟨mergeFacts (ctx.factsForExpr locals left).whenTrue (ctx.factsForExpr locals right).whenTrue, ∅⟩
        else if op = "||" then
          ⟨∅, mergeFacts (ctx.factsForExpr locals left).whenFalse (ctx.factsForExpr locals right).whenFalse⟩
        else .default
      | none => .default

theorem factsForExpr_eq (n : PlacedNode) : ctx.factsForExpr locals n = ctx.factsForPeeled locals n.peelWrappers := by
  rw [factsForExpr, factsForPeeled]
  split
  · rfl
  · split
    · next hnot => rw [hnot]
    · next hnot =>
      rw [hnot]
      split <;> next hparts => rw [hparts]

/-- What `facts_available_at_expr_position` does without the wrappers. -/
def factsAtPeeled (n : PlacedNode) (offset : ℕ) : NarrowingFacts :=
  if n.nodeContainsOffset offset = false then ∅
  else
    match n.binaryParts with
    | some (op, left, right) =>
      if right.nodeContainsOffset offset then
        if op = "&&" then
          mergeFacts (ctx.factsAvailableAtExprPosition locals right offset) (ctx.factsForExpr locals left).whenTrue
        else if op = "||" then
          mergeFacts (ctx.factsAvailableAtExprPosition locals right offset) (ctx.factsForExpr locals left).whenFalse
        else ctx.factsAvailableAtExprPosition locals right offset
      else if left.nodeContainsOffset offset then ctx.factsAvailableAtExprPosition locals left offset
      else ∅
    | none =>
      match n.unaryPart with
      | some operand =>
        if operand.nodeContainsOffset offset then ctx.factsAvailableAtExprPosition locals operand offset else ∅
      | none => ∅

theorem factsAvailableAtExprPosition_eq (n : PlacedNode) (offset : ℕ) :
    ctx.factsAvailableAtExprPosition locals n offset = ctx.factsAtPeeled locals n.peelWrappers offset := by
  rw [factsAvailableAtExprPosition, factsAtPeeled]
  split
  · rfl
  · split
    · next hparts => rw [hparts]
    · next hparts =>
      rw [hparts]
      split <;> next hunary => rw [hunary]

variable {ctx} {locals} {n : PlacedNode}

theorem factsForExpr_of_wrapped {inner : PlacedNode} (h : n.wrapped = some inner) :
    ctx.factsForExpr locals n = ctx.factsForExpr locals inner := by
  rw [factsForExpr_eq, factsForExpr_eq, PlacedNode.peelWrappers_of_wrapped h]

theorem factsForExpr_of_bare (h : n.wrapped = none) :
    ctx.factsForExpr locals n = ctx.factsForPeeled locals n := by
  rw [factsForExpr_eq, PlacedNode.peelWrappers_of_bare h]

theorem factsAvailable_of_wrapped {inner : PlacedNode} {offset : ℕ} (h : n.wrapped = some inner) :
    ctx.factsAvailableAtExprPosition locals n offset = ctx.factsAvailableAtExprPosition locals inner offset := by
  rw [factsAvailableAtExprPosition_eq, factsAvailableAtExprPosition_eq, PlacedNode.peelWrappers_of_wrapped h]

theorem factsAvailable_of_bare {offset : ℕ} (h : n.wrapped = none) :
    ctx.factsAvailableAtExprPosition locals n offset = ctx.factsAtPeeled locals n offset := by
  rw [factsAvailableAtExprPosition_eq, PlacedNode.peelWrappers_of_bare h]

theorem parseInstanceofNarrowing_of_kind (h : n.kind ≠ "instanceof_expression") :
    ctx.parseInstanceofNarrowing locals n = none :=
  if_pos h

theorem wrapped_of_kind (hparen : n.kind ≠ "parenthesized_expression") (hstatement : n.kind ≠ "expression_statement") :
    n.wrapped = none := by
  rw [PlacedNode.wrapped, if_neg hparen, if_neg hstatement]

/-- A found test is the local's name and the type that the text names. -/
theorem parseInstanceofNarrowing_test {left right : PlacedNode} {name : List Char} {ty : TypeName}
    (hleft : n.childByFieldName "left" = some left) (hright : n.childByFieldName "right" = some right)
    (h : ctx.parseInstanceofNarrowing locals n = some (name, ty)) :
    name = trim left.text ∧ ∃ quality, ctx.resolveTypeNameRelaxed (trim right.text) = some (ty, quality) := by
  unfold parseInstanceofNarrowing at h
  rw [hleft, hright] at h
  simp only [Option.bind_some] at h
  split_ifs at h
  obtain ⟨⟨ty', quality⟩, hresolve, h⟩ := Option.map_eq_some_iff.mp h
  cases h
  exact ⟨rfl, quality, hresolve⟩

end SourceTypeCtx

namespace Condition
open SourceTypeCtx

variable {ctx : SourceTypeCtx} {locals : List (List Char)} {n : PlacedNode}

theorem OtherExpr.wrapped (h : OtherExpr locals n) : n.wrapped = none :=
  wrapped_of_kind (fun hkind => h.kind (by simp [hkind])) fun hkind => h.kind (by simp [hkind])

theorem OtherExpr.unaryPart (h : OtherExpr locals n) : n.unaryPart = none :=
  if_neg fun hkind => h.kind (by simp [hkind])

theorem OtherExpr.negated (h : OtherExpr locals n) : n.negated = none := by
  rw [PlacedNode.negated, h.unaryPart, ite_self]

theorem OtherExpr.binaryParts (h : OtherExpr locals n) : n.binaryParts = none := by
  unfold PlacedNode.binaryParts
  split_ifs with hkind
  · have hop : n.binaryOperator = none := by
      refine Option.or_eq_none_iff.mpr ⟨?_, ?_⟩
      · exact Option.bind_eq_none_iff.mpr fun op hop =>
          h.operator hkind op (PlacedNode.mem_of_childByFieldName hop)
      · exact List.findSome?_eq_none_iff.mpr (h.operator hkind)
    rw [hop, Option.bind_none]
  · rfl

theorem OtherExpr.parse (h : OtherExpr locals n) : ctx.parseInstanceofNarrowing locals n = none := by
  unfold parseInstanceofNarrowing
  split_ifs with hkind
  · rfl
  · refine Option.bind_eq_none_iff.mpr fun left hleft => ?_
    split_ifs with hname hlocal
    · rfl
    · rfl
    · rw [h.test (not_not.mp hkind) left hleft (not_not.mp hname) (not_not.mp (not_or.mp hlocal).2),
        Option.bind_none]

theorem OtherExpr.facts (h : OtherExpr locals n) : ctx.factsForExpr locals n = .default := by
  rw [factsForExpr_of_bare h.wrapped, factsForPeeled, h.parse, h.negated, h.binaryParts]

theorem OtherExpr.available (h : OtherExpr locals n) (offset : ℕ) :
    ctx.factsAvailableAtExprPosition locals n offset = ∅ := by
  rw [factsAvailable_of_bare h.wrapped, factsAtPeeled, h.binaryParts, h.unaryPart, ite_self]

theorem IsComment.other (h : IsComment n) : OtherExpr locals n := by
  constructor
  · rcases h with h | h <;> simp [h]
  · rcases h with h | h <;> simp [h]
  · rcases h with h | h <;> simp [h]

/-- In parentheses stands the expression, or a comment comes before it. -/
theorem wrapped_of_paren {inner : PlacedNode} {before after : List PlacedNode}
    (hkind : n.kind = "parenthesized_expression") (hfield : n.childByFieldName "expression" = none)
    (hnamed : n.namedChildren = before ++ inner :: after) (hcomments : ∀ m ∈ before, IsComment m) :
    n.wrapped = some inner ∨ ∃ m, IsComment m ∧ n.wrapped = some m := by
  have hwrapped : n.wrapped = (before ++ inner :: after).head? := by
    rw [PlacedNode.wrapped, if_pos hkind, PlacedNode.unwrapParenthesizedExpression, if_pos hkind, hfield,
      Option.none_or, PlacedNode.firstNamedChild, hnamed]
  cases before with
  | nil => exact .inl hwrapped
  | cons m before => exact .inr ⟨m, hcomments m List.mem_cons_self, hwrapped⟩

theorem negated_of_not {op operand : PlacedNode} (hkind : n.kind = "unary_expression")
    (hop : n.childByFieldName "operator" = some op) (htext : trim op.text = ['!'])
    (hfield : n.childByFieldName "operand" = some operand) :
    n.unaryPart = some operand ∧ n.negated = some operand := by
  have hpart : n.unaryPart = some operand := by
    rw [PlacedNode.unaryPart, if_pos hkind, PlacedNode.unaryOperand, PlacedNode.fieldOrNamed, hfield,
      Option.some_or]
  refine ⟨hpart, ?_⟩
  have hop' : n.unaryOperator = some ['!'] := by
    rw [PlacedNode.unaryOperator, hop, ← htext]
  rw [PlacedNode.negated, if_pos hop', hpart]

theorem binaryParts_of_fields {op left right : PlacedNode} {connective : String}
    (hkind : n.kind = "binary_expression") (hop : n.childByFieldName "operator" = some op)
    (hconnective : op.connective = some connective) (hl : n.childByFieldName "left" = some left)
    (hr : n.childByFieldName "right" = some right) : n.binaryParts = some (connective, left, right) := by
  rw [PlacedNode.binaryParts, if_pos hkind, PlacedNode.binaryOperator, hop, Option.bind_some, hconnective,
    PlacedNode.binaryLeft, PlacedNode.binaryRight, PlacedNode.fieldOrNamed, PlacedNode.fieldOrNamed, hl, hr]
  rfl

theorem connective_of_or (hor : n.kind = "||") : n.connective = some "||" := by
  rw [PlacedNode.connective, if_neg (by simp [hor]), if_pos hor]

theorem factsForExpr_of_not {op operand : PlacedNode} (hkind : n.kind = "unary_expression")
    (hop : n.childByFieldName "operator" = some op) (htext : trim op.text = ['!'])
    (hfield : n.childByFieldName "operand" = some operand) :
    ctx.factsForExpr locals n =
      ⟨(ctx.factsForExpr locals operand).whenFalse, (ctx.factsForExpr locals operand).whenTrue⟩ := by
  rw [factsForExpr_of_bare (wrapped_of_kind (by simp [hkind]) (by simp [hkind])), factsForPeeled,
    parseInstanceofNarrowing_of_kind (by simp [hkind]), (negated_of_not hkind hop htext hfield).2]

theorem negated_of_kind (hkind : n.kind ≠ "unary_expression") : n.negated = none := by
  rw [PlacedNode.negated, PlacedNode.unaryPart, if_neg hkind, ite_self]

theorem factsForExpr_of_binary {left right : PlacedNode} {op : String} (hkind : n.kind = "binary_expression")
    (hparts : n.binaryParts = some (op, left, right)) :
    ctx.factsForExpr locals n =
      if op = "&&" then
        ⟨mergeFacts (ctx.factsForExpr locals left).whenTrue (ctx.factsForExpr locals right).whenTrue, ∅⟩
      else if op = "||" then
        ⟨∅, mergeFacts (ctx.factsForExpr locals left).whenFalse (ctx.factsForExpr locals right).whenFalse⟩
      else .default := by
  rw [factsForExpr_of_bare (wrapped_of_kind (by simp [hkind]) (by simp [hkind])), factsForPeeled,
    parseInstanceofNarrowing_of_kind (by simp [hkind]), negated_of_kind (by simp [hkind]), hparts]

variable {Val : Type} {instanceOf : Val → TypeName → Prop} {values : List Char → Val}

/-- A condition that comes out true makes its true-facts hold, and one that comes out false its
false-facts. The induction is over the condition, for both outcomes at once: `!` exchanges them. -/
theorem factsForExpr_sound {c : Condition} (hparse : Parses locals n c) {outcome : Bool}
    (heval : Evaluates ctx instanceOf values c outcome) :
    FactsHold instanceOf values ((ctx.factsForExpr locals n).on outcome) := by
  induction hparse generalizing outcome with
  | @test n left right hkind hleft hname hlocal hright =>
    cases heval with
    | test h =>
      rw [factsForExpr_of_bare (wrapped_of_kind (by simp [hkind]) (by simp [hkind])), factsForPeeled,
        negated_of_kind (by simp [hkind]), PlacedNode.binaryParts, if_neg (by simp [hkind])]
      cases hfact : ctx.parseInstanceofNarrowing locals n with
      | none => cases outcome <;> exact factsHold_empty instanceOf values
      | some fact =>
        obtain ⟨name, ty⟩ := fact
        obtain ⟨rfl, quality, hresolve⟩ := parseInstanceofNarrowing_test hleft hright hfact
        cases outcome with
        | false => exact factsHold_empty instanceOf values
        | true => exact factsHold_insert instanceOf values ((h _ hresolve).mp rfl)
  | other h =>
    rw [h.facts]
    cases outcome <;> exact factsHold_empty instanceOf values
  | paren hkind hfield hnamed hcomments hwithin hinner ih =>
    cases heval with
    | paren heval =>
      rcases wrapped_of_paren hkind hfield hnamed hcomments with hwrapped | ⟨m, hcomment, hwrapped⟩
      · rw [factsForExpr_of_wrapped hwrapped]
        exact ih heval
      · rw [factsForExpr_of_wrapped hwrapped, (IsComment.other hcomment).facts]
        cases outcome <;> exact factsHold_empty instanceOf values
  | not hkind hop htext hfield hoperand ih =>
    rw [factsForExpr_of_not hkind hop htext hfield]
    cases heval with
    | @not _ _ b heval =>
      have hfacts := ih heval
      cases b <;> exact hfacts
  | and hkind hop hand hl hr hleft hright ihleft ihright =>
    rw [factsForExpr_of_binary hkind (binaryParts_of_fields hkind hop (if_pos hand) hl hr), if_pos rfl]
    cases outcome with
    | false => exact factsHold_empty instanceOf values
    | true =>
      cases heval with
      | and_true hevalLeft hevalRight =>
        exact factsHold_merge instanceOf values (ihleft hevalLeft) (ihright hevalRight)
  | or hkind hop hor hl hr hleft hright ihleft ihright =>
    rw [factsForExpr_of_binary hkind (binaryParts_of_fields hkind hop (connective_of_or hor) hl hr),
      if_neg (by decide), if_pos rfl]
    cases outcome with
    | true => exact factsHold_empty instanceOf values
    | false =>
      cases heval with
      | or_false hevalLeft hevalRight =>
        exact factsHold_merge instanceOf values (ihleft hevalLeft) (ihright hevalRight)

theorem Parses.place_eq {c : Condition} (hparse : Parses locals n c) : c.place = n.place := by
  cases hparse <;> rfl

theorem factsAvailable_of_not_contains (hbare : n.wrapped = none) {offset : ℕ}
    (hplace : n.place.contains offset = false) : ctx.factsAvailableAtExprPosition locals n offset = ∅ := by
  rw [factsAvailable_of_bare hbare, factsAtPeeled, PlacedNode.nodeContainsOffset, if_pos hplace]

theorem Parses.available_outside {c : Condition} (hparse : Parses locals n c) {offset : ℕ}
    (hplace : n.place.contains offset = false) : ctx.factsAvailableAtExprPosition locals n offset = ∅ := by
  induction hparse with
  | paren hkind hfield hnamed hcomments hwithin hinner ih =>
    rcases wrapped_of_paren hkind hfield hnamed hcomments with hwrapped | ⟨m, hcomment, hwrapped⟩
    · rw [factsAvailable_of_wrapped hwrapped]
      refine ih (Bool.eq_false_iff.mpr fun hinside => ?_)
      exact Bool.eq_false_iff.mp hplace (Place.contains_of_within hwithin hinside)
    · rw [factsAvailable_of_wrapped hwrapped, (IsComment.other hcomment).available]
  | other h => exact h.available offset
  | test hkind | not hkind | and hkind | or hkind =>
    exact factsAvailable_of_not_contains (wrapped_of_kind (by simp [hkind]) (by simp [hkind])) hplace

theorem factsAvailable_of_binary {left right : PlacedNode} {op : String} {offset : ℕ}
    (hkind : n.kind = "binary_expression") (hparts : n.binaryParts = some (op, left, right))
    (hplace : n.place.contains offset) :
    ctx.factsAvailableAtExprPosition locals n offset =
      if right.place.contains offset then
        if op = "&&" then
          mergeFacts (ctx.factsAvailableAtExprPosition locals right offset) (ctx.factsForExpr locals left).whenTrue
        else if op = "||" then
          mergeFacts (ctx.factsAvailableAtExprPosition locals right offset) (ctx.factsForExpr locals left).whenFalse
        else ctx.factsAvailableAtExprPosition locals right offset
      else if left.place.contains offset then ctx.factsAvailableAtExprPosition locals left offset
      else ∅ := by
  rw [factsAvailable_of_bare (wrapped_of_kind (by simp [hkind]) (by simp [hkind])), factsAtPeeled,
    PlacedNode.nodeContainsOffset, if_neg (by simp [hplace]), hparts]
  rfl

theorem factsAvailable_of_not {op operand : PlacedNode} {offset : ℕ} (hkind : n.kind = "unary_expression")
    (hop : n.childByFieldName "operator" = some op) (htext : trim op.text = ['!'])
    (hfield : n.childByFieldName "operand" = some operand) (hplace : n.place.contains offset) :
    ctx.factsAvailableAtExprPosition locals n offset =
      if operand.place.contains offset then ctx.factsAvailableAtExprPosition locals operand offset else ∅ := by
  rw [factsAvailable_of_bare (wrapped_of_kind (by simp [hkind]) (by simp [hkind])), factsAtPeeled,
    PlacedNode.nodeContainsOffset, if_neg (by simp [hplace]), PlacedNode.binaryParts, if_neg (by simp [hkind]),
    (negated_of_not hkind hop htext hfield).1]
  rfl

/-- The facts at an offset hold whenever the evaluation comes there. On the right of a connective they are
those of the left operand's outcome, and those of the right operand itself. -/
theorem factsAvailable_sound {c : Condition} (hparse : Parses locals n c) {offset : ℕ}
    (hreach : Reaches ctx instanceOf values offset c) :
    FactsHold instanceOf values (ctx.factsAvailableAtExprPosition locals n offset) := by
  induction hparse with
  | @test n left right hkind hleft hname hlocal hright =>
    have hnone : ctx.factsAvailableAtExprPosition locals n offset = ∅ := by
      rw [factsAvailable_of_bare (wrapped_of_kind (by simp [hkind]) (by simp [hkind])), factsAtPeeled,
        PlacedNode.binaryParts, if_neg (by simp [hkind] : ¬ n.kind = "binary_expression"),
        PlacedNode.unaryPart, if_neg (by simp [hkind] : ¬ n.kind = "unary_expression"), ite_self]
    rw [hnone]
    exact factsHold_empty instanceOf values
  | other h =>
    rw [h.available]
    exact factsHold_empty instanceOf values
  | @paren n inner c before after hkind hfield hnamed hcomments hwithin hinner ih =>
    rcases wrapped_of_paren hkind hfield hnamed hcomments with hwrapped | ⟨m, hcomment, hwrapped⟩
    · rw [factsAvailable_of_wrapped hwrapped]
      cases hplace : inner.place.contains offset with
      | true => exact ih (hreach.2 (hinner.place_eq ▸ hplace))
      | false =>
        rw [hinner.available_outside hplace]
        exact factsHold_empty instanceOf values
    · rw [factsAvailable_of_wrapped hwrapped, (IsComment.other hcomment).available]
      exact factsHold_empty instanceOf values
  | not hkind hop htext hfield hoperand ih =>
    rw [factsAvailable_of_not hkind hop htext hfield hreach.1]
    split_ifs with hplace
    · exact ih (hreach.2 (hoperand.place_eq ▸ hplace))
    · exact factsHold_empty instanceOf values
  | and hkind hop hand hl hr hleft hright ihleft ihright =>
    rw [factsAvailable_of_binary hkind (binaryParts_of_fields hkind hop (if_pos hand) hl hr) hreach.1, if_pos rfl]
    split_ifs with hinRight hinLeft
    · obtain ⟨heval, hreachRight⟩ := hreach.2.2 (hright.place_eq ▸ hinRight)
      exact factsHold_merge instanceOf values (ihright hreachRight) (factsForExpr_sound hleft heval)
    · exact ihleft (hreach.2.1 (hleft.place_eq ▸ hinLeft))
    · exact factsHold_empty instanceOf values
  | or hkind hop hor hl hr hleft hright ihleft ihright =>
    rw [factsAvailable_of_binary hkind (binaryParts_of_fields hkind hop (connective_of_or hor) hl hr) hreach.1,
      if_neg (show ¬ "||" = "&&" by decide), if_pos rfl]
    split_ifs with hinRight hinLeft
    · obtain ⟨heval, hreachRight⟩ := hreach.2.2 (hright.place_eq ▸ hinRight)
      exact factsHold_merge instanceOf values (ihright hreachRight) (factsForExpr_sound hleft heval)
    · exact ihleft (hreach.2.1 (hleft.place_eq ▸ hinLeft))
    · exact factsHold_empty instanceOf values

end Condition

/-- A node that the grammar gives for a condition. -/
structure ParsedCondition (locals : List (List Char)) where
  node : PlacedNode
  condition : Condition
  parses : Condition.Parses locals node condition

namespace ParsedCondition
open Condition

/-- The test `a instanceof Text`. -/
def textTest : PlacedNode :=
  .mk "instanceof_expression" true none "a instanceof Text".toList ⟨0, 17⟩
    [.mk "identifier" true (some "left") ['a'] ⟨0, 1⟩ [],
      .mk "instanceof" false none "instanceof".toList ⟨2, 12⟩ [],
      .mk "type_identifier" true (some "right") "Text".toList ⟨13, 17⟩ []]

example : ((SourceTypeCtx.pairCtx.factsForExpr [['a']] textTest).on true).lookup ['a'] =
    some ⟨"Text", .internal, [], 0⟩ := by
  rw [SourceTypeCtx.factsForExpr_of_bare rfl]
  rfl

end ParsedCondition

end JavaAnalyzer.Language
