import Mathlib

/-! # Syntax trees

Concrete syntax trees as the parser gives them: a node has a kind, the field that it is of its parent, the
text of its range and its children, tokens among them. A cursor is a node with the nodes above it. -/

namespace JavaAnalyzer.Language
set_option autoImplicit false

inductive Node where
  | mk (kind : String) (field : Option String) (text : String) (children : List Node)

namespace Node

def kind : Node → String
  | mk kind _ _ _ => kind

def field : Node → Option String
  | mk _ field _ _ => field

def text : Node → String
  | mk _ _ text _ => text

def children : Node → List Node
  | mk _ _ _ children => children

def childByFieldName (n : Node) (name : String) : Option Node :=
  n.children.find? fun child => child.field = some name

def firstChildOfKind (n : Node) (kind : String) : Option Node :=
  n.children.find? fun child => child.kind = kind

mutual

/-- The number of nodes. -/
def size : Node → ℕ
  | mk _ _ _ children => sizes children + 1

def sizes : List Node → ℕ
  | [] => 0
  | n :: nodes => size n + sizes nodes

end

mutual

/-- The nodes of a tree, each before those below it. -/
def subnodes : Node → List Node
  | mk kind field text children => mk kind field text children :: subnodesOf children

def subnodesOf : List Node → List Node
  | [] => []
  | n :: nodes => subnodes n ++ subnodesOf nodes

end

theorem size_eq (n : Node) : n.size = sizes n.children + 1 := by
  cases n with
  | mk kind field text nodes => rfl

theorem sizes_eq (nodes : List Node) : sizes nodes = (nodes.map size).sum := by
  induction nodes with
  | nil => rfl
  | cons n nodes ih => rw [sizes, ih, List.map_cons, List.sum_cons]

theorem size_lt_of_mem {n child : Node} (h : child ∈ n.children) : child.size < n.size := by
  have hle := List.le_sum_of_mem (List.mem_map_of_mem (f := size) h)
  rw [size_eq n, sizes_eq]
  omega

theorem subnodes_eq (n : Node) : n.subnodes = n :: subnodesOf n.children := by
  cases n with
  | mk kind field text nodes => rfl

theorem mem_subnodesOf {nodes : List Node} {n : Node} :
    n ∈ subnodesOf nodes ↔ ∃ m ∈ nodes, n ∈ m.subnodes := by
  induction nodes with
  | nil => simp [subnodesOf]
  | cons m nodes ih => simp [subnodesOf, ih]

theorem mem_subnodes_of_child {root n child : Node} (h : n ∈ root.subnodes) (hchild : child ∈ n.children) :
    child ∈ root.subnodes := by
  induction hsize : root.size using Nat.strong_induction_on generalizing root with
  | _ k ih =>
    rw [subnodes_eq, List.mem_cons, mem_subnodesOf] at h ⊢
    rcases h with rfl | ⟨m, hm, hn⟩
    · exact .inr ⟨child, hchild, by rw [subnodes_eq]; exact List.mem_cons_self⟩
    · exact .inr ⟨m, hm, ih m.size (hsize ▸ size_lt_of_mem hm) hn rfl⟩

theorem childByFieldName_mem {n child : Node} {name : String} (h : n.childByFieldName name = some child) :
    child ∈ n.children :=
  List.mem_of_find?_eq_some h

end Node

/-- A node, and the nodes above it from its parent up. -/
structure Cursor where
  node : Node
  ancestors : List Node

namespace Cursor

variable (c : Cursor)

def kind : String :=
  c.node.kind

def parent : Option Cursor :=
  match c.ancestors with
  | [] => none
  | p :: ancestors => some ⟨p, ancestors⟩

def child (n : Node) : Cursor :=
  ⟨n, c.node :: c.ancestors⟩

def children : List Cursor :=
  c.node.children.map c.child

def childByFieldName (name : String) : Option Cursor :=
  (c.node.childByFieldName name).map c.child

def firstChildOfKind (kind : String) : Option Cursor :=
  (c.node.firstChildOfKind kind).map c.child

/-- The node and the nodes above it. -/
def path : List Node :=
  c.node :: c.ancestors

end Cursor

def Node.cursor (root : Node) : Cursor :=
  ⟨root, []⟩

end JavaAnalyzer.Language
