import JavaAnalyzer.Workspace.WorkspaceModel

/-! # The scope of a path

Three searches look for the module and the source root of a file. Two of them compare the source roots
of all modules and take the last of the deepest ones. `scope_for_path` stops at the first module that
contains the file and compares the source roots of that module alone. -/

namespace JavaAnalyzer.Workspace
set_option autoImplicit false
open Index

/-! ## The last of the greatest elements -/

section Greatest

variable {α : Type} {key : α → ℕ} {l l' : List α} {x y : α}

/-- Nothing before the element is greater, and what comes after it is less. -/
def LastGreatest (key : α → ℕ) (l : List α) (x : α) : Prop :=
  ∃ before after, l = before ++ x :: after ∧ (∀ y ∈ before, key y ≤ key x) ∧ ∀ y ∈ after, key y < key x

theorem LastGreatest.mem (h : LastGreatest key l x) : x ∈ l := by
  obtain ⟨before, after, rfl, -, -⟩ := h
  exact List.mem_append_right _ List.mem_cons_self

theorem LastGreatest.key_le (h : LastGreatest key l x) (hy : y ∈ l) : key y ≤ key x := by
  obtain ⟨before, after, rfl, hbefore, hafter⟩ := h
  rcases List.mem_append.mp hy with hy | hy
  · exact hbefore y hy
  · rcases List.mem_cons.mp hy with rfl | hy
    · exact le_rfl
    · exact (hafter y hy).le

theorem LastGreatest.append_left (h : LastGreatest key l x) (hl : ∀ y ∈ l', key y < key x) :
    LastGreatest key (l ++ l') x := by
  obtain ⟨before, after, rfl, hbefore, hafter⟩ := h
  refine ⟨before, after ++ l', by rw [List.append_assoc, List.cons_append], hbefore, fun y hy => ?_⟩
  rcases List.mem_append.mp hy with hy | hy
  · exact hafter y hy
  · exact hl y hy

theorem LastGreatest.append_right (h : LastGreatest key l' x) (hl : ∀ y ∈ l, key y ≤ key x) :
    LastGreatest key (l ++ l') x := by
  obtain ⟨before, after, rfl, hbefore, hafter⟩ := h
  refine ⟨l ++ before, after, (List.append_assoc ..).symm, fun y hy => ?_, hafter⟩
  rcases List.mem_append.mp hy with hy | hy
  · exact hl y hy
  · exact hbefore y hy

theorem maxByKey_append_singleton (key : α → ℕ) (l : List α) (x : α) :
    maxByKey key (l ++ [x]) = match maxByKey key l with
      | none => some x
      | some b => if key b ≤ key x then some x else some b := by
  rw [maxByKey, List.foldl_append]
  rfl

theorem maxByKey_of_ne_nil (key : α → ℕ) (h : l ≠ []) : ∃ x, maxByKey key l = some x := by
  obtain ⟨l, x, rfl⟩ := (List.eq_nil_or_concat' l).resolve_left h
  rw [maxByKey_append_singleton]
  split
  · exact ⟨x, rfl⟩
  · rename_i b _
    by_cases hkey : key b ≤ key x
    · exact ⟨x, if_pos hkey⟩
    · exact ⟨b, if_neg hkey⟩

theorem lastGreatest_of_maxByKey (h : maxByKey key l = some x) : LastGreatest key l x := by
  induction l using List.reverseRecOn generalizing x with
  | nil => cases h
  | append_singleton l y ih =>
    rw [maxByKey_append_singleton] at h
    cases hl : maxByKey key l with
    | none =>
      have hnil : l = [] := by
        by_contra hne
        obtain ⟨z, hz⟩ := maxByKey_of_ne_nil key hne
        rw [hl] at hz
        cases hz
      rw [hl] at h
      obtain rfl := Option.some.inj h
      exact ⟨[], [], by rw [hnil], fun _ h => (List.not_mem_nil h).elim,
        fun _ h => (List.not_mem_nil h).elim⟩
    | some b =>
      simp only [hl] at h
      split at h
      · rename_i hkey
        obtain rfl := Option.some.inj h
        exact ⟨l, [], rfl, fun z hz => ((ih hl).key_le hz).trans hkey,
          fun _ h => (List.not_mem_nil h).elim⟩
      · rename_i hkey
        obtain rfl := Option.some.inj h
        refine (ih hl).append_left fun z hz => ?_
        rw [List.mem_singleton.mp hz]
        exact not_le.mp hkey

theorem LastGreatest.unique (hx : LastGreatest key l x) (hy : LastGreatest key l y) : x = y := by
  obtain ⟨before, after, heq, -, hafter⟩ := id hx
  obtain ⟨before', after', heq', -, hafter'⟩ := id hy
  rcases List.append_eq_append_iff.mp (heq.symm.trans heq') with ⟨mid, rfl, hmid⟩ | ⟨mid, rfl, hmid⟩
  · cases mid with
    | nil => exact (List.cons.inj hmid).1
    | cons z mid =>
      obtain ⟨rfl, rfl⟩ := List.cons.inj hmid
      have hlt := hafter y (List.mem_append_right _ List.mem_cons_self)
      exact absurd (hy.key_le hx.mem) (not_le.mpr hlt)
  · cases mid with
    | nil => exact (List.cons.inj hmid).1.symm
    | cons z mid =>
      obtain ⟨rfl, rfl⟩ := List.cons.inj hmid
      have hlt := hafter' x (List.mem_append_right _ List.mem_cons_self)
      exact absurd (hx.key_le hy.mem) (not_le.mpr hlt)

theorem maxByKey_eq_some_iff : maxByKey key l = some x ↔ LastGreatest key l x := by
  refine ⟨lastGreatest_of_maxByKey, fun h => ?_⟩
  obtain ⟨y, hy⟩ := maxByKey_of_ne_nil key (List.ne_nil_of_mem h.mem)
  rw [hy, h.unique (lastGreatest_of_maxByKey hy)]

theorem maxByKey_map {β : Type} (key : β → ℕ) (f : α → β) (l : List α) :
    maxByKey key (l.map f) = (maxByKey (fun x => key (f x)) l).map f := by
  induction l using List.reverseRecOn with
  | nil => rfl
  | append_singleton l x ih =>
    rw [List.map_append, List.map_singleton, maxByKey_append_singleton, maxByKey_append_singleton, ih]
    cases maxByKey (fun x => key (f x)) l with
    | none => rfl
    | some b =>
      show (if key (f b) ≤ key (f x) then some (f x) else some (f b)) =
        (if key (f b) ≤ key (f x) then some x else some b).map f
      rw [apply_ite (Option.map f)]
      rfl

theorem maxByKey_eq_none_iff : maxByKey key l = none ↔ l = [] := by
  refine ⟨fun h => ?_, fun h => by rw [h]; rfl⟩
  by_contra hne
  obtain ⟨x, hx⟩ := maxByKey_of_ne_nil key hne
  rw [h] at hx
  cases hx

end Greatest

/-! ## The searches -/

/-- The source roots that a path is under. -/
def enclosingRoots (path : Path) (roots : List WorkspaceSourceRoot) : List WorkspaceSourceRoot :=
  roots.filter fun root => startsWith path root.path

def WorkspaceSourceRoot.depth (root : WorkspaceSourceRoot) : ℕ :=
  root.path.length

def WorkspaceModule.inDirectory (module : WorkspaceModule) (path : Path) : Bool :=
  module.directory = path || startsWith path module.directory

namespace WorkspaceModelSnapshot

variable (model : WorkspaceModelSnapshot)

def scopeForPath (path : Path) : Option (ModuleId × ClasspathId × Option SourceRootId) :=
  model.modules.findSome? fun module =>
    match maxByKey WorkspaceSourceRoot.depth (enclosingRoots path module.roots) with
    | some root => some (module.id, root.classpath, some root.id)
    | none => if module.inDirectory path then some (module.id, .main, none) else none

def sourceRootForPath (path : Path) (preferredRoot : Option SourceRootId) :
    Option WorkspaceSourceRoot :=
  let roots := model.modules.flatMap WorkspaceModule.roots
  let preferred := preferredRoot.bind fun preferred =>
    roots.find? fun root => root.id = preferred && startsWith path root.path
  match preferred with
  | some root => some root
  | none => maxByKey WorkspaceSourceRoot.depth (enclosingRoots path roots)

/-- A source root that the path is under and that no other one is deeper than, or none where there is
no such root. -/
def DeepestEnclosing (path : Path) (module : ModuleId) : Option SourceRootId → Prop
  | some id => ∃ entry ∈ model.roots, entry.1 = module ∧ entry.2.id = id ∧
      startsWith path entry.2.path ∧
      ∀ other ∈ model.roots, startsWith path other.2.path → other.2.depth ≤ entry.2.depth
  | none => ∀ entry ∈ model.roots, ¬ startsWith path entry.2.path

/-- The searches choose the same module and the same source root, and it is a deepest one. A search that
finds no module stands for the root module. -/
structure PathAgreement (path : Path) : Prop where
  module : ((model.scopeForPath path).map Prod.fst).getD .root =
    (resolveAnalysisContextForSnapshot (some model) (some path)).module
  sourceRoot : ((model.scopeForPath path).bind fun scope => scope.2.2) =
    (resolveAnalysisContextForSnapshot (some model) (some path)).sourceRoot
  unpreferred : (model.sourceRootForPath path none).map WorkspaceSourceRoot.id =
    (resolveAnalysisContextForSnapshot (some model) (some path)).sourceRoot
  preferred : (model.sourceRootForPath path
      (resolveAnalysisContextForSnapshot (some model) (some path)).sourceRoot).map
        WorkspaceSourceRoot.id =
    (resolveAnalysisContextForSnapshot (some model) (some path)).sourceRoot
  deepest : model.DeepestEnclosing path
    (resolveAnalysisContextForSnapshot (some model) (some path)).module
    (resolveAnalysisContextForSnapshot (some model) (some path)).sourceRoot

/-- No source root encloses the path, or the first module that contains the path has a source root that
does and the modules after it have no deeper one, nor another one that is as deep. -/
def FirstModuleDeepest (path : Path) : Prop :=
  (∀ entry ∈ model.roots, ¬ startsWith path entry.2.path) ∨
    ∃ before module after root, model.modules = before ++ module :: after ∧
      (∀ earlier ∈ before, ¬ earlier.inDirectory path ∧ enclosingRoots path earlier.roots = []) ∧
      LastGreatest WorkspaceSourceRoot.depth (enclosingRoots path module.roots) root ∧
      ((∀ entry ∈ (mk after).roots, startsWith path entry.2.path → entry.2.depth < root.depth) ∨
        ∃ entry, LastGreatest (fun entry => entry.2.depth)
          ((mk after).roots.filter fun entry => startsWith path entry.2.path) entry ∧
          root.depth ≤ entry.2.depth ∧ entry.1 = module.id ∧ entry.2.id = root.id)

variable {model} {path : Path}

/-! ## The context -/

theorem bestRoot_eq_none_iff :
    model.bestRoot path = none ↔ ∀ entry ∈ model.roots, ¬ startsWith path entry.2.path := by
  rw [bestRoot, maxByKey_eq_none_iff, List.filter_eq_nil_iff]

theorem bestRoot_eq_some_iff {entry : ModuleId × WorkspaceSourceRoot} :
    model.bestRoot path = some entry ↔ LastGreatest (fun entry => entry.2.depth)
      (model.roots.filter fun entry => startsWith path entry.2.path) entry :=
  maxByKey_eq_some_iff

theorem context_of_bestRoot {entry : ModuleId × WorkspaceSourceRoot}
    (h : model.bestRoot path = some entry) :
    resolveAnalysisContextForSnapshot (some model) (some path) = .ofRoot entry.1 entry.2 := by
  simp only [resolveAnalysisContextForSnapshot, h]

theorem context_sourceRoot (model : WorkspaceModelSnapshot) (path : Path) :
    (resolveAnalysisContextForSnapshot (some model) (some path)).sourceRoot =
      (model.bestRoot path).map fun entry => entry.2.id := by
  cases hbest : model.bestRoot path with
  | some entry =>
    rw [context_of_bestRoot hbest]
    rfl
  | none =>
    simp only [resolveAnalysisContextForSnapshot, hbest]
    cases model.moduleForPath path with
    | none => rfl
    | some module => rfl

theorem context_deepest (model : WorkspaceModelSnapshot) (path : Path) :
    model.DeepestEnclosing path
      (resolveAnalysisContextForSnapshot (some model) (some path)).module
      (resolveAnalysisContextForSnapshot (some model) (some path)).sourceRoot := by
  cases hbest : model.bestRoot path with
  | none =>
    rw [context_sourceRoot, hbest]
    exact bestRoot_eq_none_iff.mp hbest
  | some entry =>
    have hlast := bestRoot_eq_some_iff.mp hbest
    rw [context_of_bestRoot hbest]
    exact ⟨entry, List.mem_of_mem_filter hlast.mem, rfl, rfl, (List.mem_filter.mp hlast.mem).2,
      fun other hother hencloses => hlast.key_le (List.mem_filter.mpr ⟨hother, hencloses⟩)⟩

/-! ## The source root of a path -/

theorem flatMap_roots (model : WorkspaceModelSnapshot) :
    model.modules.flatMap WorkspaceModule.roots = model.roots.map Prod.snd := by
  rw [roots, List.map_flatMap]
  simp only [List.map_map, Function.comp_def, List.map_id']

theorem sourceRootForPath_none (model : WorkspaceModelSnapshot) (path : Path) :
    model.sourceRootForPath path none = (model.bestRoot path).map Prod.snd := by
  have hfilter : enclosingRoots path (model.roots.map Prod.snd) =
      (model.roots.filter fun entry => startsWith path entry.2.path).map Prod.snd := by
    rw [enclosingRoots, List.filter_map]
    rfl
  simp only [sourceRootForPath, Option.bind_none, flatMap_roots, hfilter]
  exact maxByKey_map _ _ _

theorem sourceRootForPath_preferred (model : WorkspaceModelSnapshot) (path : Path) :
    (model.sourceRootForPath path ((model.bestRoot path).map fun entry => entry.2.id)).map
        WorkspaceSourceRoot.id =
      (model.bestRoot path).map fun entry => entry.2.id := by
  cases hbest : model.bestRoot path with
  | none => rw [Option.map_none, sourceRootForPath_none, hbest, Option.map_none, Option.map_none]
  | some entry =>
    obtain ⟨hentry, hencloses⟩ := List.mem_filter.mp (bestRoot_eq_some_iff.mp hbest).mem
    have hfound : ((model.modules.flatMap WorkspaceModule.roots).find? fun root =>
        root.id = entry.2.id && startsWith path root.path).isSome := by
      rw [List.find?_isSome, flatMap_roots]
      exact ⟨entry.2, List.mem_map_of_mem hentry, by simpa using hencloses⟩
    obtain ⟨root, hroot⟩ := Option.isSome_iff_exists.mp hfound
    have hid : root.id = entry.2.id := by
      have := List.find?_some hroot
      simp only [Bool.and_eq_true, decide_eq_true_eq] at this
      exact this.1
    simp only [sourceRootForPath, Option.map_some, Option.bind_some, hroot, hid]

/-! ## The first module -/

/-- What `scope_for_path` takes from one module. -/
theorem scopeForPath_of_first {before after : List WorkspaceModule} {module : WorkspaceModule}
    {root : WorkspaceSourceRoot} (hmodules : model.modules = before ++ module :: after)
    (hbefore : ∀ earlier ∈ before,
      ¬ earlier.inDirectory path ∧ enclosingRoots path earlier.roots = [])
    (hroot : LastGreatest WorkspaceSourceRoot.depth (enclosingRoots path module.roots) root) :
    model.scopeForPath path = some (module.id, root.classpath, some root.id) := by
  rw [scopeForPath, hmodules, List.findSome?_append, List.findSome?_eq_none_iff.mpr, Option.none_or,
    List.findSome?_cons, maxByKey_eq_some_iff.mpr hroot]
  intro earlier hearlier
  obtain ⟨hdirectory, hnil⟩ := hbefore earlier hearlier
  rw [maxByKey_eq_none_iff.mpr hnil]
  exact if_neg hdirectory

theorem scopeForPath_of_unenclosed
    (h : ∀ entry ∈ model.roots, ¬ startsWith path entry.2.path) :
    model.scopeForPath path =
      (model.moduleForPath path).map fun module => (module.id, .main, none) := by
  have hnil : ∀ module ∈ model.modules, enclosingRoots path module.roots = [] := by
    intro module hmodule
    refine List.filter_eq_nil_iff.mpr fun root hroot => ?_
    exact h (module.id, root)
      (List.mem_flatMap.mpr ⟨module, hmodule, List.mem_map_of_mem hroot⟩)
  rw [scopeForPath, moduleForPath]
  generalize model.modules = modules at hnil
  induction modules with
  | nil => rfl
  | cons module modules ih =>
    have hmodule := hnil module List.mem_cons_self
    have hany : (module.roots.any fun root => startsWith path root.path) = false := by
      rw [List.any_eq_false]
      exact List.filter_eq_nil_iff.mp hmodule
    rw [List.findSome?_cons, List.find?_cons, maxByKey_eq_none_iff.mpr hmodule, hany,
      Bool.or_false]
    by_cases hdirectory : module.inDirectory path
    · simp only [hdirectory, if_true]
      rw [show (decide (module.directory = path) || startsWith path module.directory) = true
        from hdirectory]
      rfl
    · simp only [hdirectory]
      rw [show (decide (module.directory = path) || startsWith path module.directory) = false
        from Bool.not_eq_true _ ▸ hdirectory]
      exact ih fun later hlater => hnil later (List.mem_cons_of_mem _ hlater)

/-- The source roots that enclose a path, from the first module that has one on. -/
theorem enclosing_split {before after : List WorkspaceModule} {module : WorkspaceModule}
    (hmodules : model.modules = before ++ module :: after)
    (hbefore : ∀ earlier ∈ before, enclosingRoots path earlier.roots = []) :
    (model.roots.filter fun entry => startsWith path entry.2.path) =
      (enclosingRoots path module.roots).map (fun root => (module.id, root)) ++
        (mk after).roots.filter fun entry => startsWith path entry.2.path := by
  have hnil : ((mk before).roots.filter fun entry => startsWith path entry.2.path) = [] := by
    refine List.filter_eq_nil_iff.mpr fun entry hentry => ?_
    obtain ⟨earlier, hearlier, hmem⟩ := List.mem_flatMap.mp hentry
    obtain ⟨root, hroot, rfl⟩ := List.mem_map.mp hmem
    exact List.filter_eq_nil_iff.mp (hbefore earlier hearlier) root hroot
  have hroots : model.roots = (mk before).roots ++
      (module.roots.map (fun root => (module.id, root)) ++ (mk after).roots) := by
    rw [roots, hmodules, List.flatMap_append, List.flatMap_cons]
    rfl
  rw [hroots, List.filter_append, hnil, List.nil_append, List.filter_append, List.filter_map]
  rfl

/-! ## Agreement -/

theorem pathAgreement_iff :
    model.PathAgreement path ↔
      ((model.scopeForPath path).map Prod.fst).getD .root =
          (resolveAnalysisContextForSnapshot (some model) (some path)).module ∧
        ((model.scopeForPath path).bind fun scope => scope.2.2) =
          (model.bestRoot path).map fun entry => entry.2.id := by
  have hcontext := context_sourceRoot model path
  constructor
  · intro h
    exact ⟨h.module, h.sourceRoot.trans hcontext⟩
  · rintro ⟨hmodule, hroot⟩
    refine ⟨hmodule, hroot.trans hcontext.symm, ?_, ?_, context_deepest model path⟩
    · rw [hcontext, sourceRootForPath_none, Option.map_map]
      rfl
    · rw [hcontext]
      exact sourceRootForPath_preferred model path

theorem agreement_of_unenclosed (h : ∀ entry ∈ model.roots, ¬ startsWith path entry.2.path) :
    model.PathAgreement path := by
  have hbest := bestRoot_eq_none_iff.mpr h
  rw [pathAgreement_iff, scopeForPath_of_unenclosed h, hbest]
  simp only [resolveAnalysisContextForSnapshot, hbest]
  cases model.moduleForPath path with
  | none => exact ⟨rfl, rfl⟩
  | some module => exact ⟨rfl, rfl⟩

theorem agreement_of_first {before after : List WorkspaceModule} {module : WorkspaceModule}
    {root : WorkspaceSourceRoot} {entry : ModuleId × WorkspaceSourceRoot}
    (hmodules : model.modules = before ++ module :: after)
    (hbefore : ∀ earlier ∈ before,
      ¬ earlier.inDirectory path ∧ enclosingRoots path earlier.roots = [])
    (hroot : LastGreatest WorkspaceSourceRoot.depth (enclosingRoots path module.roots) root)
    (hbest : model.bestRoot path = some entry) :
    model.PathAgreement path ↔ entry.1 = module.id ∧ entry.2.id = root.id := by
  rw [pathAgreement_iff, scopeForPath_of_first hmodules hbefore hroot, context_of_bestRoot hbest,
    hbest]
  simp only [AnalysisContext.ofRoot, Option.map_some, Option.getD_some, Option.bind_some,
    Option.some.injEq]
  exact and_congr eq_comm eq_comm

/-- The deepest root of all is that of the first module unless a later one is as deep. -/
theorem bestRoot_of_first {before after : List WorkspaceModule} {module : WorkspaceModule}
    {root : WorkspaceSourceRoot} (hmodules : model.modules = before ++ module :: after)
    (hbefore : ∀ earlier ∈ before, enclosingRoots path earlier.roots = [])
    (hroot : LastGreatest WorkspaceSourceRoot.depth (enclosingRoots path module.roots) root)
    (hafter : ∀ entry ∈ (mk after).roots, startsWith path entry.2.path →
      entry.2.depth < root.depth) :
    model.bestRoot path = some (module.id, root) := by
  rw [bestRoot_eq_some_iff, enclosing_split hmodules hbefore]
  refine LastGreatest.append_left ?_ fun entry hentry => ?_
  · rw [← maxByKey_eq_some_iff, maxByKey_map]
    exact congrArg (Option.map _) (maxByKey_eq_some_iff.mpr hroot)
  · obtain ⟨hmem, hencloses⟩ := List.mem_filter.mp hentry
    exact hafter entry hmem hencloses

theorem bestRoot_of_later {before after : List WorkspaceModule} {module : WorkspaceModule}
    {root : WorkspaceSourceRoot} {entry : ModuleId × WorkspaceSourceRoot}
    (hmodules : model.modules = before ++ module :: after)
    (hbefore : ∀ earlier ∈ before, enclosingRoots path earlier.roots = [])
    (hroot : LastGreatest WorkspaceSourceRoot.depth (enclosingRoots path module.roots) root)
    (hentry : LastGreatest (fun entry => entry.2.depth)
      ((mk after).roots.filter fun entry => startsWith path entry.2.path) entry)
    (hdepth : root.depth ≤ entry.2.depth) :
    model.bestRoot path = some entry := by
  rw [bestRoot_eq_some_iff, enclosing_split hmodules hbefore]
  refine hentry.append_right fun earlier hearlier => ?_
  obtain ⟨other, hother, rfl⟩ := List.mem_map.mp hearlier
  exact (hroot.key_le hother).trans hdepth

theorem first_of_agreement (h : model.PathAgreement path)
    (hencloses : ¬ ∀ entry ∈ model.roots, ¬ startsWith path entry.2.path) :
    ∃ before module after root, model.modules = before ++ module :: after ∧
      (∀ earlier ∈ before, ¬ earlier.inDirectory path ∧ enclosingRoots path earlier.roots = []) ∧
      LastGreatest WorkspaceSourceRoot.depth (enclosingRoots path module.roots) root := by
  obtain ⟨entry, hbest⟩ := Option.ne_none_iff_exists'.mp (mt bestRoot_eq_none_iff.mp hencloses)
  have hroot := (pathAgreement_iff.mp h).2
  rw [hbest, Option.map_some] at hroot
  obtain ⟨scope, hscope, hid⟩ := Option.bind_eq_some_iff.mp hroot
  obtain ⟨before, module, after, hmodules, hmodule, hbefore⟩ := List.findSome?_eq_some_iff.mp hscope
  cases hdeepest : maxByKey WorkspaceSourceRoot.depth (enclosingRoots path module.roots) with
  | none =>
    -- The module has no root for the path, so the scope names none.
    simp only [hdeepest] at hmodule
    split at hmodule
    · obtain rfl := Option.some.inj hmodule
      cases hid
    · cases hmodule
  | some root =>
    refine ⟨before, module, after, root, hmodules, fun earlier hearlier => ?_,
      maxByKey_eq_some_iff.mp hdeepest⟩
    have hnone := hbefore earlier hearlier
    cases hearlier : maxByKey WorkspaceSourceRoot.depth (enclosingRoots path earlier.roots) with
    | some other => simp only [hearlier, reduceCtorEq] at hnone
    | none =>
      simp only [hearlier, ite_eq_right_iff, reduceCtorEq, imp_false] at hnone
      exact ⟨hnone, maxByKey_eq_none_iff.mp hearlier⟩

/-- The searches agree on a path exactly where the first module that contains it also has the deepest
source root around it. -/
theorem scope_and_context_agree_iff (model : WorkspaceModelSnapshot) (path : Path) :
    model.PathAgreement path ↔ model.FirstModuleDeepest path := by
  constructor
  · intro h
    by_cases hencloses : ∀ entry ∈ model.roots, ¬ startsWith path entry.2.path
    · exact .inl hencloses
    obtain ⟨before, module, after, root, hmodules, hbefore, hroot⟩ := first_of_agreement h hencloses
    refine .inr ⟨before, module, after, root, hmodules, hbefore, hroot, ?_⟩
    by_cases hless : ∀ entry ∈ (mk after).roots, startsWith path entry.2.path →
        entry.2.depth < root.depth
    · exact .inl hless
    push Not at hless
    obtain ⟨other, hother, hunder, hdepth⟩ := hless
    have hmem : other ∈ (mk after).roots.filter fun entry => startsWith path entry.2.path :=
      List.mem_filter.mpr ⟨hother, hunder⟩
    obtain ⟨entry, hentry⟩ := maxByKey_of_ne_nil (fun entry => entry.2.depth)
      (List.ne_nil_of_mem hmem)
    have hlast := maxByKey_eq_some_iff.mp hentry
    have hdeeper := hdepth.trans (hlast.key_le hmem)
    have hbest := bestRoot_of_later hmodules (fun m hm => (hbefore m hm).2) hroot hlast hdeeper
    exact .inr ⟨entry, hlast, hdeeper, (agreement_of_first hmodules hbefore hroot hbest).mp h⟩
  · rintro (hencloses | ⟨before, module, after, root, hmodules, hbefore, hroot, hcases⟩)
    · exact agreement_of_unenclosed hencloses
    · have hnil := fun m hm => (hbefore m hm).2
      rcases hcases with hless | ⟨entry, hlast, hdepth, hids⟩
      · have hbest := bestRoot_of_first hmodules hnil hroot hless
        exact (agreement_of_first hmodules hbefore hroot hbest).mpr ⟨rfl, rfl⟩
      · have hbest := bestRoot_of_later hmodules hnil hroot hlast hdepth
        exact (agreement_of_first hmodules hbefore hroot hbest).mpr hids

/-- A project whose directory contains that of a later module. -/
def nestedModel : WorkspaceModelSnapshot :=
  ⟨[⟨⟨1⟩, "parent", ["w"], [], [], [], []⟩,
    ⟨⟨2⟩, "app", ["w", "app"], [⟨⟨1⟩, ["w", "app", "src"], .sources, .main⟩], [], [], []⟩]⟩

/-- For a file of the nested module one search answers with the outer module and no source root. -/
theorem nested_scope_disagrees :
    nestedModel.scopeForPath ["w", "app", "src", "A.java"] = some (⟨1⟩, .main, none) ∧
      resolveAnalysisContextForSnapshot (some nestedModel) (some ["w", "app", "src", "A.java"]) =
        ⟨⟨2⟩, .main, some ⟨1⟩, some .sources⟩ ∧
      ¬ nestedModel.PathAgreement ["w", "app", "src", "A.java"] := by
  have hscope : nestedModel.scopeForPath ["w", "app", "src", "A.java"] =
      some (⟨1⟩, .main, none) := by decide
  have hcontext : resolveAnalysisContextForSnapshot (some nestedModel)
      (some ["w", "app", "src", "A.java"]) = ⟨⟨2⟩, .main, some ⟨1⟩, some .sources⟩ := by decide
  refine ⟨hscope, hcontext, fun h => ?_⟩
  have hmodule := h.module
  rw [hscope, hcontext] at hmodule
  exact absurd hmodule (by decide)

end WorkspaceModelSnapshot

end JavaAnalyzer.Workspace
