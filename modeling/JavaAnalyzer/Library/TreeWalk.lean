import Mathlib.Data.List.Basic

/-! # Walks through a directory

The entries of a directory tree in the order in which a walk finds them. The walk does not go into an entry that a filter
of paths refuses. Of a filter that refuses whatever lies below a refused path, only the files themselves matter
(`files_walk`). -/

namespace JavaAnalyzer.TreeWalk
set_option autoImplicit false

/-- What stands under a name: a regular file, a directory, or something else such as a link. -/
inductive FileTree (α : Type) where
  | file
  | other
  | dir (entries : List (α × FileTree α))

namespace FileTree

variable {α : Type}

theorem inductOn {P : FileTree α → Prop} (t : FileTree α) (file : P .file) (other : P .other)
    (dir : ∀ entries : List (α × FileTree α), (∀ e ∈ entries, P e.2) → P (.dir entries)) : P t :=
  @FileTree.rec α P (fun entries => ∀ e ∈ entries, P e.2) (fun e => P e.2) file other dir
    (fun _ he => absurd he List.not_mem_nil) (fun _ _ he hentries => List.forall_mem_cons.mpr ⟨he, hentries⟩)
    (fun _ _ ht => ht) t

section Walk

variable (keep : List α → Bool)

mutual

/-- The entries, each with whether it is a regular file. -/
def walk : FileTree α → List α → List (List α × Bool)
  | file, path => if keep path then [(path, true)] else []
  | other, path => if keep path then [(path, false)] else []
  | dir entries, path => if keep path then (path, false) :: walkEntries entries path else []

def walkEntries : List (α × FileTree α) → List α → List (List α × Bool)
  | [], _ => []
  | (name, tree) :: entries, path => walk tree (path ++ [name]) ++ walkEntries entries path

end

end Walk

mutual

/-- The regular files, by their paths below the tree. -/
def files : FileTree α → List (List α)
  | file => [[]]
  | other => []
  | dir entries => filesOf entries

def filesOf : List (α × FileTree α) → List (List α)
  | [] => []
  | (name, tree) :: entries => (files tree).map (name :: ·) ++ filesOf entries

end

theorem filesOf_ne_nil {entries : List (α × FileTree α)} : ∀ path ∈ filesOf entries, path ≠ [] := by
  induction entries with
  | nil => exact nofun
  | cons e entries ih =>
    intro path hpath
    rcases List.mem_append.mp hpath with hpath | hpath
    · obtain ⟨rest, -, rfl⟩ := List.mem_map.mp hpath
      exact List.cons_ne_nil _ _
    · exact ih path hpath

variable {keep : List α → Bool}

/-- Below a refused path nothing is kept. -/
def Hereditary (keep : List α → Bool) : Prop :=
  ∀ path below, keep (path ++ below) = true → keep path = true

theorem files_walk (hkeep : Hereditary keep) (t : FileTree α) (path : List α) :
    ((walk keep t path).filter Prod.snd).map Prod.fst = (t.files.map (path ++ ·)).filter keep := by
  induction t using inductOn generalizing path with
  | file =>
    rw [walk, files, List.map_singleton, List.append_nil]
    cases hpath : keep path <;> simp [hpath]
  | other =>
    rw [walk, files]
    cases keep path <;> rfl
  | dir entries ih =>
    have hentries : ((walkEntries keep entries path).filter Prod.snd).map Prod.fst =
        ((filesOf entries).map (path ++ ·)).filter keep := by
      induction entries with
      | nil => rfl
      | cons e entries ihRest =>
        obtain ⟨he, hrest⟩ := List.forall_mem_cons.mp ih
        have happend : (e.2.files.map (e.1 :: ·)).map (path ++ ·) = e.2.files.map (path ++ [e.1] ++ ·) := by
          rw [List.map_map]
          exact List.map_congr_left fun rest _ => (List.append_cons path e.1 rest)
        rw [walkEntries, filesOf, List.filter_append, List.map_append, List.map_append, List.filter_append, happend,
          he, ihRest hrest]
    rw [walk, files]
    cases hpath : keep path with
    | true =>
      rw [if_pos rfl, List.filter_cons_of_neg Bool.false_ne_true]
      exact hentries
    | false =>
      rw [if_neg Bool.false_ne_true, List.filter_nil, List.map_nil, eq_comm, List.filter_eq_nil_iff]
      intro full hfull hkept
      obtain ⟨below, -, rfl⟩ := List.mem_map.mp hfull
      rw [hkeep path below hkept] at hpath
      cases hpath

end FileTree

end JavaAnalyzer.TreeWalk
