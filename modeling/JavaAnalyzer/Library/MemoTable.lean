import Mathlib

/-! # Memo tables

A table keeps values of a function under a key of the argument, at most `limit` of them, and drops the
value used longest ago. When the key says less than the argument, what the table answers for one argument
may be the value of another one. An entry's `origin` is the argument that its value was computed for: no
answer is taken from it, it is there for the statements. -/

namespace JavaAnalyzer.MemoTable
set_option autoImplicit false

structure Entry (Key Arg Value : Type) where
  key : Key
  value : Value
  origin : Arg

/-- The entry used last is in front. -/
abbrev Table (Key Arg Value : Type) := List (Entry Key Arg Value)

section

variable {Key Arg Value : Type} [DecidableEq Key]

def find (table : Table Key Arg Value) (k : Key) : Option (Entry Key Arg Value) :=
  List.find? (fun entry => entry.key = k) table

variable (limit : ℕ) (key : Arg → Key) (compute : Arg → Value)

def ask (table : Table Key Arg Value) (arg : Arg) : Value × Table Key Arg Value :=
  match find table (key arg) with
  | some entry => (entry.value, entry :: table.filter fun other => other.key ≠ key arg)
  | none =>
    let value := compute arg
    (value, (⟨key arg, value, arg⟩ :: table).take limit)

/-- The table after an entry is put in, by a caller that has computed its value itself. -/
def put (table : Table Key Arg Value) (entry : Entry Key Arg Value) : Table Key Arg Value :=
  (entry :: table.filter fun other => other.key ≠ entry.key).take limit

/-- Every value is that of its origin, and is kept under the origin's key. -/
def Sound (table : Table Key Arg Value) : Prop :=
  ∀ entry ∈ table, entry.key = key entry.origin ∧ entry.value = compute entry.origin

variable {limit key compute} {table : Table Key Arg Value}

omit [DecidableEq Key] in
theorem sound_nil : Sound key compute ([] : Table Key Arg Value) :=
  fun _ h => (by cases h)

theorem mem_of_find {k : Key} {entry : Entry Key Arg Value} (h : find table k = some entry) :
    entry ∈ table :=
  List.mem_of_find?_eq_some h

theorem Sound.ask (h : Sound key compute table) (arg : Arg) :
    Sound key compute (MemoTable.ask limit key compute table arg).2 := by
  unfold MemoTable.ask
  cases hfind : find table (key arg) with
  | some entry =>
    intro other hother
    cases List.mem_cons.mp hother with
    | inl heq => exact heq ▸ h entry (mem_of_find hfind)
    | inr hmem => exact h other (List.mem_of_mem_filter hmem)
  | none =>
    intro other hother
    cases List.mem_cons.mp (List.mem_of_mem_take hother) with
    | inl heq => exact heq ▸ ⟨rfl, rfl⟩
    | inr hmem => exact h other hmem

theorem mem_put {entry other : Entry Key Arg Value} (h : other ∈ put limit table entry) :
    other = entry ∨ other ∈ table :=
  (List.mem_cons.mp (List.mem_of_mem_take h)).imp_right List.mem_of_mem_filter

theorem Sound.put (h : Sound key compute table) (arg : Arg) :
    Sound key compute (MemoTable.put limit table ⟨key arg, compute arg, arg⟩) := by
  intro other hother
  cases mem_put hother with
  | inl heq => exact heq ▸ ⟨rfl, rfl⟩
  | inr hmem => exact h other hmem

/-- What a reader makes of the answer is what it makes of the argument's value exactly when it makes the
same of the value of the origin that is found. -/
theorem Sound.ask_iff {β : Type} (h : Sound key compute table) (arg : Arg) (read : Value → β) :
    read (MemoTable.ask limit key compute table arg).1 = read (compute arg) ↔
      ∀ entry, find table (key arg) = some entry →
        read (compute entry.origin) = read (compute arg) := by
  unfold MemoTable.ask
  cases hfind : find table (key arg) with
  | some entry =>
    have hvalue := (h entry (mem_of_find hfind)).2
    constructor
    · intro heq other hother
      cases hother
      rw [← hvalue]
      exact heq
    · intro hcond
      show read entry.value = read (compute arg)
      rw [hvalue]
      exact hcond entry rfl
  | none => exact iff_of_true rfl fun _ hother => (by cases hother)

end

end JavaAnalyzer.MemoTable
