import JavaAnalyzer.Language.ClassParser

/-! # One name for each declaration

The walks that name declarations from the top and the names that are read from the nodes above agree for all
declarations but annotation types, what is declared in them, and what is declared in a package
declaration. -/

namespace JavaAnalyzer.Language
set_option autoImplicit false
open StackWalk

/-- A tree of the grammar: a declaration's name is its first identifier, and its body is no declaration. -/
structure JavaTree where
  root : Node
  program : root.kind = "program"
  named : ∀ n ∈ root.subnodes, n.isClassDecl = true →
    n.childByFieldName "name" = n.firstChildOfKind "identifier"
  body : ∀ n ∈ root.subnodes, n.isClassDecl = true → ∀ b, n.childByFieldName "body" = some b →
    b.isClassDecl = false ∧ b.isHeader = false

/-! ## Kinds -/

section

variable {n : Node}

theorem Node.isClassDecl_of_isTypeDeclaration (h : n.isTypeDeclaration = true) : n.isClassDecl = true := by
  rw [isTypeDeclaration, List.contains_iff_mem] at h
  rw [isClassDecl, classDeclKinds, List.contains_iff_mem]
  simp only [List.mem_cons, List.not_mem_nil, or_false] at h ⊢
  tauto

/-- The only declarations that `scope.rs` does not know are annotation types. -/
theorem Node.isTypeDeclaration_iff (h : n.isClassDecl = true) :
    n.isTypeDeclaration = true ↔ n.kind ≠ "annotation_type_declaration" := by
  rw [isClassDecl, classDeclKinds, List.contains_iff_mem] at h
  rw [isTypeDeclaration, List.contains_iff_mem]
  simp only [List.mem_cons, List.not_mem_nil, or_false] at h ⊢
  rcases h with h | h | h | h | h <;> simp [h]

theorem Node.isHeader_of_isClassDecl (h : n.isClassDecl = true) : n.isHeader = false := by
  rw [isClassDecl, classDeclKinds, List.contains_iff_mem] at h
  rw [isHeader, Bool.eq_false_iff, Ne, List.contains_iff_mem]
  simp only [List.mem_cons, List.not_mem_nil, or_false] at h ⊢
  rcases h with h | h | h | h | h <;> simp [h]

end

/-! ## Steps of a walk -/

section

variable {β : Type} {visitChild : Cursor → Option String → List β × List Item} {item : Item}

theorem mem_visitChildren_out {b : β} : b ∈ (visitChildren visitChild item).1 ↔
    ∃ n ∈ item.1.node.children, b ∈ (visitChild (item.1.child n) item.2).1 := by
  rw [visitChildren, List.mem_flatMap]
  simp only [Cursor.children, List.mem_map]
  constructor
  · rintro ⟨c, ⟨n, hn, rfl⟩, hb⟩
    exact ⟨n, hn, hb⟩
  · rintro ⟨n, hn, hb⟩
    exact ⟨_, ⟨n, hn, rfl⟩, hb⟩

theorem mem_visitChildren_push {next : Item} : next ∈ (visitChildren visitChild item).2 ↔
    ∃ n ∈ item.1.node.children, next ∈ (visitChild (item.1.child n) item.2).2 := by
  rw [visitChildren, List.mem_flatMap]
  simp only [Cursor.children, List.mem_map]
  constructor
  · rintro ⟨c, ⟨n, hn, rfl⟩, hb⟩
    exact ⟨n, hn, hb⟩
  · rintro ⟨n, hn, hb⟩
    exact ⟨_, ⟨n, hn, rfl⟩, hb⟩

theorem mem_pushBody {decl : Cursor} {name : String} {next : Item} : next ∈ pushBody decl name ↔
    ∃ b, decl.node.childByFieldName "body" = some b ∧ next = (decl.child b, some name) := by
  rw [pushBody, Cursor.childByFieldName, Option.mem_toList, Option.map_map, Option.map_eq_some_iff]
  simp only [Function.comp_apply, eq_comm]

end

section

variable {package : Option String} {child : Cursor} {outer : Option String}

theorem pushesBelow_collectChild : PushesBelow (collectChild package) := by
  intro child outer
  unfold collectChild
  split
  · split
    · exact .inr (.inl ⟨_, rfl⟩)
    · exact .inl rfl
  · exact .inr (.inr rfl)

theorem pushesBelow_discoverChild : PushesBelow (discoverChild package) := by
  intro child outer
  unfold discoverChild
  split
  · exact .inl rfl
  · split
    · split
      · exact .inl rfl
      · split
        · exact .inl rfl
        · exact .inr (.inl ⟨_, rfl⟩)
    · exact .inr (.inr rfl)

theorem pushesBelow_declarationChild : PushesBelow (declarationChild package) := by
  intro child outer
  unfold declarationChild
  split
  · split
    · exact .inr (.inl ⟨_, rfl⟩)
    · exact .inl rfl
  · exact .inr (.inr rfl)

/-- What `parse_java_class` makes of a declaration. -/
theorem parseJavaClass_eq_some_iff {parsed : ParsedClass} :
    parseJavaClass package child outer = some parsed ↔
      ∃ nameNode, child.node.childByFieldName "name" = some nameNode ∧ nameNode.text ≠ "" ∧
        parsed = ⟨child, outer, nameNode.text, internalNameIn package outer nameNode.text⟩ := by
  unfold parseJavaClass
  cases hname : child.node.childByFieldName "name" with
  | none => simp
  | some nameNode =>
    by_cases hempty : nameNode.text = ""
    · simp [hempty]
    · dsimp only
      rw [if_neg hempty, Option.some.injEq]
      constructor
      · rintro rfl
        exact ⟨nameNode, rfl, hempty, rfl⟩
      · rintro ⟨other, hother, -, rfl⟩
        cases hother
        rfl

theorem mem_collectChild_out {parsed : ParsedClass} : parsed ∈ (collectChild package child outer).1 ↔
    child.node.isClassDecl = true ∧ parseJavaClass package child outer = some parsed := by
  unfold collectChild
  cases hdecl : child.node.isClassDecl with
  | false => simp
  | true =>
    cases hparse : parseJavaClass package child outer with
    | none => simp
    | some other => simp [eq_comm]

theorem mem_collectChild_push {next : Item} : next ∈ (collectChild package child outer).2 ↔
    (child.node.isClassDecl = false ∧ next = (child, outer)) ∨
      child.node.isClassDecl = true ∧ ∃ parsed, parseJavaClass package child outer = some parsed ∧
        next ∈ pushBody child parsed.internalName := by
  unfold collectChild
  cases hdecl : child.node.isClassDecl with
  | false => simp
  | true =>
    cases hparse : parseJavaClass package child outer with
    | none => simp
    | some other => simp

end

/-! ## Names from the outside -/

/-- The names of all declarations around a node, annotation types among them, from the inside. -/
def declaredNames (path : List Node) : List String :=
  (path.filter Node.isClassDecl).filterMap fun n => (n.childByFieldName "name").map Node.text

/-- What the declarations below a node are named in. -/
def outerName (package : Option String) (path : List Node) : Option String :=
  match declaredNames path with
  | [] => none
  | names => some (inPackage package (nestedName names))

theorem declaredNames_cons_decl {n nameNode : Node} (path : List Node) (h : n.isClassDecl = true)
    (hname : n.childByFieldName "name" = some nameNode) :
    declaredNames (n :: path) = nameNode.text :: declaredNames path := by
  rw [declaredNames, List.filter_cons_of_pos h, List.filterMap_cons_some (by rw [hname]; rfl),
    declaredNames]

theorem declaredNames_cons_other {n : Node} (path : List Node) (h : n.isClassDecl = false) :
    declaredNames (n :: path) = declaredNames path := by
  rw [declaredNames, List.filter_cons_of_neg (by simp [h]), declaredNames]

theorem inPackage_append (package : Option String) (outer name : String) :
    inPackage package (outer ++ "$" ++ name) = inPackage package outer ++ "$" ++ name := by
  cases package with
  | none => rfl
  | some pkg => simp only [inPackage, String.append_assoc]

/-- The name that a declaration gets in its outer name is that of all declarations around it. -/
theorem name_in_outerName (package : Option String) (path : List Node) (name : String) :
    internalNameIn package (outerName package path) name =
      inPackage package (nestedName (name :: declaredNames path)) := by
  rw [outerName]
  rcases declaredNames path with _ | ⟨first, rest⟩
  · rfl
  · exact (inPackage_append package (nestedName (first :: rest)) name).symm

theorem outerName_cons_other (package : Option String) {n : Node} (path : List Node)
    (h : n.isClassDecl = false) : outerName package (n :: path) = outerName package path := by
  rw [outerName, declaredNames_cons_other path h, outerName]

theorem outerName_cons_decl (package : Option String) {n nameNode : Node} (path : List Node)
    (h : n.isClassDecl = true) (hname : n.childByFieldName "name" = some nameNode) :
    outerName package (n :: path) =
      some (inPackage package (nestedName (nameNode.text :: declaredNames path))) := by
  rw [outerName, declaredNames_cons_decl path h hname]

/-! ## The walk of `collect_java_classes` -/

section

variable {package : Option String} {tree : JavaTree}

/-- Where no body of a declaration is a declaration, the outer name is that of the declarations above. -/
structure WalkInvariant (package : Option String) (root : Node) (item : Item) : Prop where
  inTree : item.1.node ∈ root.subnodes
  noDecl : item.1.node.isClassDecl = false
  outer : item.2 = outerName package item.1.path

theorem WalkInvariant.push {root : Node} (hbody : ∀ n ∈ root.subnodes, n.isClassDecl = true →
      ∀ b, n.childByFieldName "body" = some b → b.isClassDecl = false) {item : Item}
    (h : WalkInvariant package root item) {next : Item}
    (hnext : next ∈ (visitChildren (collectChild package) item).2) : WalkInvariant package root next := by
  obtain ⟨c, outer⟩ := item
  obtain ⟨hinTree, -, houter⟩ := h
  obtain ⟨n, hn, hchild⟩ := mem_visitChildren_push.mp hnext
  have hnTree := Node.mem_subnodes_of_child hinTree hn
  rcases mem_collectChild_push.mp hchild with ⟨hdecl, rfl⟩ | ⟨hdecl, parsed, hparse, hpushed⟩
  · exact ⟨hnTree, hdecl, houter.trans (outerName_cons_other package c.path hdecl).symm⟩
  · obtain ⟨b, hb, rfl⟩ := mem_pushBody.mp hpushed
    obtain ⟨nameNode, hname, -, rfl⟩ := parseJavaClass_eq_some_iff.mp hparse
    have hbdecl := hbody n hnTree hdecl b hb
    refine ⟨Node.mem_subnodes_of_child hnTree (Node.childByFieldName_mem hb), hbdecl, ?_⟩
    have houter' : outer = outerName package c.path := houter
    have hpath : outerName package (b :: n :: c.path) =
        some (inPackage package (nestedName (nameNode.text :: declaredNames c.path))) :=
      (outerName_cons_other package (n :: c.path) hbdecl).trans
        (outerName_cons_decl package c.path hdecl hname)
    refine Eq.trans ?_ hpath.symm
    rw [← name_in_outerName, ← houter']

theorem walkInvariant_of_reach {root : Node} (hroot : root.isClassDecl = false)
    (hbody : ∀ n ∈ root.subnodes, n.isClassDecl = true → ∀ b, n.childByFieldName "body" = some b →
      b.isClassDecl = false) {item : Item}
    (h : Reach (visitChildren (collectChild package)) [(root.cursor, none)] item) :
    WalkInvariant package root item := by
  refine h.invariant (fun _ hitem _ => hitem.push hbody) fun start hstart => ?_
  rw [List.mem_singleton] at hstart
  subst hstart
  have hpath : root.cursor.path = [root] := rfl
  constructor
  · rw [Node.subnodes_eq]
    exact List.mem_cons_self
  · exact hroot
  · rw [outerName, hpath, declaredNames_cons_other [] hroot]
    rfl

/-- What holds where the walk goes: the outer name is that of the declarations above, and these were put
out. -/
structure CollectInvariant (package : Option String) (tree : JavaTree) (item : Item) : Prop where
  inTree : item.1.node ∈ tree.root.subnodes
  noDecl : item.1.node.isClassDecl = false
  outer : item.2 = outerName package item.1.path
  above : ∀ n ∈ item.1.path, n.isClassDecl = true →
    ∃ parsed ∈ collectJavaClasses package tree.root, parsed.decl.node = n

abbrev CollectReach (package : Option String) (tree : JavaTree) : Item → Prop :=
  Reach (visitChildren (collectChild package)) [(tree.root.cursor, none)]

theorem mem_collectJavaClasses_iff {root : Node} {parsed : ParsedClass} :
    parsed ∈ collectJavaClasses package root ↔ ∃ c outer n,
      Reach (visitChildren (collectChild package)) [(root.cursor, none)] (c, outer) ∧
        n ∈ c.node.children ∧ n.isClassDecl = true ∧
          parseJavaClass package (c.child n) outer = some parsed := by
  rw [collectJavaClasses, mem_walk_iff (shrinks_visitChildren pushesBelow_collectChild)]
  constructor
  · rintro ⟨⟨c, outer⟩, hreach, hout⟩
    obtain ⟨n, hn, hchild⟩ := mem_visitChildren_out.mp hout
    obtain ⟨hdecl, hparse⟩ := mem_collectChild_out.mp hchild
    exact ⟨c, outer, n, hreach, hn, hdecl, hparse⟩
  · rintro ⟨c, outer, n, hreach, hn, hdecl, hparse⟩
    exact ⟨(c, outer), hreach, mem_visitChildren_out.mpr
      ⟨n, hn, mem_collectChild_out.mpr ⟨hdecl, hparse⟩⟩⟩

theorem mem_collectJavaClasses {parsed : ParsedClass} :
    parsed ∈ collectJavaClasses package tree.root ↔ ∃ c outer n, CollectReach package tree (c, outer) ∧
      n ∈ c.node.children ∧ n.isClassDecl = true ∧
        parseJavaClass package (c.child n) outer = some parsed :=
  mem_collectJavaClasses_iff

theorem JavaTree.root_noDecl (tree : JavaTree) : tree.root.isClassDecl = false := by
  rw [Node.isClassDecl, tree.program]
  decide

theorem collectInvariant_of_reach {item : Item} (h : CollectReach package tree item) :
    CollectInvariant package tree item := by
  obtain ⟨hinTree, hnoDecl, houter⟩ := walkInvariant_of_reach tree.root_noDecl
    (fun n hn hdecl b hb => (tree.body n hn hdecl b hb).1) h
  refine ⟨hinTree, hnoDecl, houter, ?_⟩
  clear hinTree hnoDecl houter
  induction h with
  | @start item hmem =>
    rw [List.mem_singleton] at hmem
    subst hmem
    intro n hn hdecl
    obtain rfl : n = tree.root := List.mem_singleton.mp hn
    rw [tree.root_noDecl] at hdecl
    cases hdecl
  | @push item next hreach hpush ih =>
    obtain ⟨c, outer⟩ := item
    have hinTree := (walkInvariant_of_reach tree.root_noDecl
      (fun n hn hdecl b hb => (tree.body n hn hdecl b hb).1) hreach).inTree
    obtain ⟨n, hn, hchild⟩ := mem_visitChildren_push.mp hpush
    rcases mem_collectChild_push.mp hchild with ⟨hdecl, rfl⟩ | ⟨hdecl, parsed, hparse, hbody⟩
    · intro m hm hmdecl
      rcases List.mem_cons.mp hm with rfl | hm
      · change m.isClassDecl = false at hdecl
        rw [hmdecl] at hdecl
        cases hdecl
      · exact ih m hm hmdecl
    · obtain ⟨b, hb, rfl⟩ := mem_pushBody.mp hbody
      have hparsed : parsed ∈ collectJavaClasses package tree.root :=
        mem_collectJavaClasses.mpr ⟨c, outer, n, hreach, hn, hdecl, hparse⟩
      obtain ⟨nameNode, -, -, rfl⟩ := parseJavaClass_eq_some_iff.mp hparse
      have hbdecl := (tree.body n (Node.mem_subnodes_of_child hinTree hn) hdecl b hb).1
      intro m hm hmdecl
      rcases List.mem_cons.mp hm with rfl | hm
      · change m.isClassDecl = true at hmdecl
        rw [hbdecl] at hmdecl
        cases hmdecl
      · rcases List.mem_cons.mp hm with rfl | hm
        · exact ⟨_, hparsed, rfl⟩
        · exact ih m hm hmdecl

/-- The name that `collect_java_classes` gives to a declaration. -/
structure CollectedSpec (package : Option String) (tree : JavaTree) (parsed : ParsedClass) : Prop where
  inTree : parsed.decl.node ∈ tree.root.subnodes
  isDecl : parsed.decl.node.isClassDecl = true
  name : ∃ nameNode, parsed.decl.node.childByFieldName "name" = some nameNode ∧
    nameNode.text = parsed.name
  nonempty : parsed.name ≠ ""
  internalName : parsed.internalName =
    inPackage package (nestedName (parsed.name :: declaredNames parsed.decl.ancestors))
  above : ∀ n ∈ parsed.decl.path, n.isClassDecl = true →
    ∃ other ∈ collectJavaClasses package tree.root, other.decl.node = n

theorem collected_spec {parsed : ParsedClass} (h : parsed ∈ collectJavaClasses package tree.root) :
    CollectedSpec package tree parsed := by
  obtain ⟨c, outer, n, hreach, hn, hdecl, hparse⟩ := mem_collectJavaClasses.mp h
  obtain ⟨hinTree, -, houter, habove⟩ := collectInvariant_of_reach hreach
  obtain ⟨nameNode, hname, hnonempty, rfl⟩ := parseJavaClass_eq_some_iff.mp hparse
  have houter' : outer = outerName package c.path := houter
  refine ⟨Node.mem_subnodes_of_child hinTree hn, hdecl, ⟨nameNode, hname, rfl⟩, hnonempty, ?_, ?_⟩
  · rw [← name_in_outerName, houter']
    rfl
  · intro m hm hmdecl
    rcases List.mem_cons.mp hm with rfl | hm
    · exact ⟨_, h, rfl⟩
    · exact habove m hm hmdecl

end

/-! ## Names from the inside -/

theorem enclosingNames_sublist (path : List Node) :
    (enclosingNames path).Sublist (declaredNames path) :=
  (List.monotone_filter_right path fun _ => Node.isClassDecl_of_isTypeDeclaration).filterMap _

theorem enclosingNames_eq {path : List Node}
    (h : ∀ n ∈ path, n.isClassDecl = true → n.isTypeDeclaration = true) :
    enclosingNames path = declaredNames path := by
  rw [enclosingNames, declaredNames]
  congr 1
  refine List.filter_congr fun n hn => ?_
  rw [Bool.eq_iff_iff]
  exact ⟨Node.isClassDecl_of_isTypeDeclaration, h n hn⟩

theorem length_nestedName_cons (name : String) (outer : List String) :
    (nestedName (name :: outer)).length =
      name.length + if outer = [] then 0 else (nestedName outer).length + 1 := by
  cases outer with
  | nil => rfl
  | cons first rest =>
    rw [if_neg (List.cons_ne_nil first rest)]
    change (nestedName (first :: rest) ++ "$" ++ name).length = _
    rw [String.length_append, String.length_append]
    have hone : "$".length = 1 := rfl
    omega

theorem length_nestedName_le {names names' : List String} (h : names.Sublist names') :
    (nestedName names).length ≤ (nestedName names').length := by
  induction h with
  | slnil => exact Nat.le_refl _
  | cons name h ih =>
    rw [length_nestedName_cons]
    split
    · rename_i hnil
      rw [hnil] at h
      rw [List.sublist_nil.mp h]
      exact Nat.zero_le _
    · omega
  | cons_cons name h ih =>
    rw [length_nestedName_cons, length_nestedName_cons]
    split
    · exact Nat.le_add_right _ _
    · rename_i hne
      rw [if_neg]
      · omega
      · rintro rfl
        exact hne (List.sublist_nil.mp h)

theorem inPackage_injective {package : Option String} {a b : String}
    (h : inPackage package a = inPackage package b) : a = b := by
  cases package with
  | none => exact h
  | some pkg => simpa [inPackage] using h

section

variable {package : Option String} {tree : JavaTree} {parsed : ParsedClass}

theorem CollectedSpec.path_names (h : CollectedSpec package tree parsed) :
    declaredNames parsed.decl.path = parsed.name :: declaredNames parsed.decl.ancestors := by
  obtain ⟨nameNode, hname, htext⟩ := h.name
  rw [Cursor.path, declaredNames_cons_decl _ h.isDecl hname, htext]

/-- The names above a declaration are its name if there is no annotation type among them. -/
theorem CollectedSpec.enclosing (h : CollectedSpec package tree parsed)
    (htypes : ∀ n ∈ parsed.decl.path, n.isClassDecl = true → n.isTypeDeclaration = true) :
    extractEnclosingInternalName package parsed.decl = some parsed.internalName := by
  have hnode : parsed.decl.node.isTypeDeclaration = true :=
    htypes _ List.mem_cons_self h.isDecl
  have hnearest : nearestTypeDeclaration parsed.decl = some parsed.decl.node := by
    rw [nearestTypeDeclaration, Cursor.path, List.find?_cons_of_pos hnode]
  rw [extractEnclosingInternalName, hnearest, enclosingNames_eq htypes, h.path_names, h.internalName]
  rfl

/-- They are not the name of an annotation type. -/
theorem CollectedSpec.annotation_not_enclosing (h : CollectedSpec package tree parsed)
    (hkind : parsed.decl.kind = "annotation_type_declaration") :
    extractEnclosingInternalName package parsed.decl ≠ some parsed.internalName := by
  intro henclosing
  have hnode : ¬ parsed.decl.node.isTypeDeclaration = true := fun htype =>
    (Node.isTypeDeclaration_iff h.isDecl).mp htype hkind
  have hnames : enclosingNames parsed.decl.path = enclosingNames parsed.decl.ancestors := by
    rw [enclosingNames, Cursor.path, List.filter_cons_of_neg hnode, enclosingNames]
  rw [extractEnclosingInternalName, hnames] at henclosing
  split at henclosing
  · cases henclosing
  · rw [h.internalName, Option.some.injEq] at henclosing
    have hlength := congrArg String.length (inPackage_injective henclosing)
    have hle := length_nestedName_le (enclosingNames_sublist parsed.decl.ancestors)
    have hpos : parsed.name.length ≠ 0 := fun hzero => h.nonempty (String.length_eq_zero_iff.mp hzero)
    rw [length_nestedName_cons] at hlength
    split at hlength
    · rename_i hnil
      rw [hnil] at hle
      have hempty : (nestedName []).length = 0 := rfl
      omega
    · omega

end

/-! ## The other walks go the same way -/

section

variable {package : Option String} {tree : JavaTree}

theorem mem_declarationChild_out {child : Cursor} {outer : Option String} {entry : Cursor × String} :
    entry ∈ (declarationChild package child outer).1 ↔ child.node.isClassDecl = true ∧
      declarationInternalName package child outer = some entry.2 ∧ entry.1 = child := by
  unfold declarationChild
  cases hdecl : child.node.isClassDecl with
  | false => simp
  | true =>
    cases hname : declarationInternalName package child outer with
    | none => simp
    | some internalName =>
      obtain ⟨c, name⟩ := entry
      simp [and_comm, eq_comm]

theorem mem_declarationChild_push {child : Cursor} {outer : Option String} {next : Item} :
    next ∈ (declarationChild package child outer).2 ↔
      (child.node.isClassDecl = false ∧ next = (child, outer)) ∨
        child.node.isClassDecl = true ∧ ∃ internalName,
          declarationInternalName package child outer = some internalName ∧
            next ∈ pushBody child internalName := by
  unfold declarationChild
  cases hdecl : child.node.isClassDecl with
  | false => simp
  | true =>
    cases hname : declarationInternalName package child outer with
    | none => simp
    | some internalName => simp

theorem mem_collectJavaDeclarations {entry : Cursor × String} :
    entry ∈ collectJavaDeclarations package tree.root ↔ ∃ c outer n,
      Reach (visitChildren (declarationChild package)) [(tree.root.cursor, none)] (c, outer) ∧
        n ∈ c.node.children ∧ n.isClassDecl = true ∧
          declarationInternalName package (c.child n) outer = some entry.2 ∧ entry.1 = c.child n := by
  rw [collectJavaDeclarations, mem_walk_iff (shrinks_visitChildren pushesBelow_declarationChild)]
  constructor
  · rintro ⟨⟨c, outer⟩, hreach, hout⟩
    obtain ⟨n, hn, hchild⟩ := mem_visitChildren_out.mp hout
    exact ⟨c, outer, n, hreach, hn, mem_declarationChild_out.mp hchild⟩
  · rintro ⟨c, outer, n, hreach, hn, hentry⟩
    exact ⟨(c, outer), hreach, mem_visitChildren_out.mpr ⟨n, hn, mem_declarationChild_out.mpr hentry⟩⟩

/-- Where names are read from the nodes above as they are given from the top, declarations are entered under
the same names. -/
theorem declarationReach_of_collectReach (henclosing : ∀ parsed ∈ collectJavaClasses package tree.root,
    extractEnclosingInternalName package parsed.decl = some parsed.internalName) {item : Item}
    (h : CollectReach package tree item) :
    Reach (visitChildren (declarationChild package)) [(tree.root.cursor, none)] item := by
  induction h with
  | start hmem => exact .start hmem
  | @push item next hreach hpush ih =>
    obtain ⟨c, outer⟩ := item
    obtain ⟨n, hn, hchild⟩ := mem_visitChildren_push.mp hpush
    refine .push ih (mem_visitChildren_push.mpr ⟨n, hn, mem_declarationChild_push.mpr ?_⟩)
    refine (mem_collectChild_push.mp hchild).imp_right ?_
    rintro ⟨hdecl, parsed, hparse, hbody⟩
    have hparsed : parsed ∈ collectJavaClasses package tree.root :=
      mem_collectJavaClasses.mpr ⟨c, outer, n, hreach, hn, hdecl, hparse⟩
    obtain ⟨nameNode, -, -, rfl⟩ := parseJavaClass_eq_some_iff.mp hparse
    refine ⟨hdecl, _, ?_, hbody⟩
    rw [declarationInternalName, henclosing _ hparsed, Option.some_or]

theorem collected_mem_declarations (henclosing : ∀ parsed ∈ collectJavaClasses package tree.root,
    extractEnclosingInternalName package parsed.decl = some parsed.internalName) {parsed : ParsedClass}
    (h : parsed ∈ collectJavaClasses package tree.root) :
    (parsed.decl, parsed.internalName) ∈ collectJavaDeclarations package tree.root := by
  obtain ⟨c, outer, n, hreach, hn, hdecl, hparse⟩ := mem_collectJavaClasses.mp h
  refine mem_collectJavaDeclarations.mpr
    ⟨c, outer, n, declarationReach_of_collectReach henclosing hreach, hn, hdecl, ?_⟩
  obtain ⟨nameNode, -, -, rfl⟩ := parseJavaClass_eq_some_iff.mp hparse
  refine ⟨?_, rfl⟩
  rw [declarationInternalName, henclosing _ h, Option.some_or]

/-- A declaration whose name is read from the nodes above is filed under this name only. -/
theorem declarations_key {d : Cursor} {internalName key : String}
    (henclosing : extractEnclosingInternalName package d = some internalName)
    (h : (d, key) ∈ collectJavaDeclarations package tree.root) : key = internalName := by
  obtain ⟨c, outer, n, -, -, -, hname, hd⟩ := mem_collectJavaDeclarations.mp h
  rw [← hd, declarationInternalName, henclosing, Option.some_or, Option.some.injEq] at hname
  exact hname.symm

/-! ## Discovery -/

theorem discoverChild_decl {child : Cursor} {outer : Option String} {nameNode : Node}
    (hdecl : child.node.isClassDecl = true)
    (hname : child.node.firstChildOfKind "identifier" = some nameNode) (hnonempty : nameNode.text ≠ "") :
    discoverChild package child outer =
      ([(child, inPackage package (nestedIn outer nameNode.text))],
        pushBody child (nestedIn outer nameNode.text)) := by
  unfold discoverChild
  rw [Node.isHeader_of_isClassDecl hdecl, if_neg Bool.false_ne_true, if_pos hdecl, hname]
  dsimp only
  rw [if_neg hnonempty]

theorem discoverChild_other {child : Cursor} {outer : Option String} (hdecl : child.node.isClassDecl = false)
    (hheader : child.node.isHeader = false) :
    discoverChild package child outer = ([], [(child, outer)]) := by
  unfold discoverChild
  rw [hheader, if_neg Bool.false_ne_true, hdecl, if_neg Bool.false_ne_true]

/-- The outer names of the two walks differ in the package. -/
theorem inPackage_outer (outer : Option String) (name : String) :
    internalNameIn package (outer.map (inPackage package)) name = inPackage package (nestedIn outer name) := by
  cases outer with
  | none => rfl
  | some out => exact (inPackage_append package out name).symm

/-- Where no header is above, names are discovered as they are collected. -/
theorem discoverReach_of_collectReach {item : Item} (h : CollectReach package tree item)
    (hclean : ∀ n ∈ item.1.path, n.isHeader = false) : ∃ outer,
      item.2 = outer.map (inPackage package) ∧
        Reach (visitChildren (discoverChild package)) [(tree.root.cursor, none)] (item.1, outer) := by
  induction h with
  | @start item hmem =>
    rw [List.mem_singleton] at hmem
    subst hmem
    exact ⟨none, rfl, .start (List.mem_singleton_self _)⟩
  | @push item next hreach hpush ih =>
    obtain ⟨c, outerInternal⟩ := item
    obtain ⟨n, hn, hchild⟩ := mem_visitChildren_push.mp hpush
    have hnTree := Node.mem_subnodes_of_child (collectInvariant_of_reach hreach).inTree hn
    rcases mem_collectChild_push.mp hchild with ⟨hdecl, rfl⟩ | ⟨hdecl, parsed, hparse, hbody⟩
    · obtain ⟨outer, houter, hdiscover⟩ := ih fun m hm => hclean m (List.mem_cons_of_mem n hm)
      refine ⟨outer, houter, .push hdiscover (mem_visitChildren_push.mpr ⟨n, hn, ?_⟩)⟩
      rw [discoverChild_other hdecl (hclean n List.mem_cons_self)]
      exact List.mem_singleton_self _
    · obtain ⟨b, hb, rfl⟩ := mem_pushBody.mp hbody
      obtain ⟨outer, houter, hdiscover⟩ := ih fun m hm =>
        hclean m (List.mem_cons_of_mem b (List.mem_cons_of_mem n hm))
      obtain ⟨nameNode, hname, hnonempty, rfl⟩ := parseJavaClass_eq_some_iff.mp hparse
      have hidentifier : n.firstChildOfKind "identifier" = some nameNode :=
        (tree.named n hnTree hdecl).symm.trans hname
      have houter' : outerInternal = outer.map (inPackage package) := houter
      refine ⟨some (nestedIn outer nameNode.text), ?_,
        .push hdiscover (mem_visitChildren_push.mpr ⟨n, hn, ?_⟩)⟩
      · rw [Option.map_some, ← inPackage_outer, ← houter']
      · rw [discoverChild_decl hdecl hidentifier hnonempty, mem_pushBody]
        exact ⟨b, hb, rfl⟩

/-- What the declarations below a node are nested in, without the package. -/
def outerNested (path : List Node) : Option String :=
  match declaredNames path with
  | [] => none
  | names => some (nestedName names)

theorem nestedIn_outerNested (path : List Node) (name : String) :
    nestedIn (outerNested path) name = nestedName (name :: declaredNames path) := by
  rw [outerNested]
  rcases declaredNames path with _ | ⟨first, rest⟩ <;> rfl

structure DiscoverInvariant (tree : JavaTree) (item : Item) : Prop where
  inTree : item.1.node ∈ tree.root.subnodes
  clean : ∀ n ∈ item.1.path, n.isHeader = false
  outer : item.2 = outerNested item.1.path

theorem DiscoverInvariant.push {item next : Item} (h : DiscoverInvariant tree item)
    (hnext : next ∈ (visitChildren (discoverChild package) item).2) : DiscoverInvariant tree next := by
  obtain ⟨c, outer⟩ := item
  obtain ⟨hinTree, hclean, houter⟩ := h
  obtain ⟨n, hn, hchild⟩ := mem_visitChildren_push.mp hnext
  have hnTree := Node.mem_subnodes_of_child hinTree hn
  have houter' : outer = outerNested c.path := houter
  unfold discoverChild at hchild
  split at hchild
  · cases hchild
  · rename_i hheader
    have hnclean : n.isHeader = false := Bool.eq_false_of_not_eq_true hheader
    have hpathclean : ∀ m ∈ (c.child n).path, m.isHeader = false := fun m hm => by
      rcases List.mem_cons.mp hm with rfl | hm
      · exact hnclean
      · exact hclean m hm
    split at hchild
    · rename_i hdecl
      split at hchild
      · cases hchild
      · rename_i nameNode hname
        split at hchild
        · cases hchild
        · obtain ⟨b, hb, rfl⟩ := mem_pushBody.mp hchild
          obtain ⟨hbdecl, hbclean⟩ := tree.body n hnTree hdecl b hb
          refine ⟨Node.mem_subnodes_of_child hnTree (Node.childByFieldName_mem hb), fun m hm => ?_, ?_⟩
          · rcases List.mem_cons.mp hm with rfl | hm
            · exact hbclean
            · exact hpathclean m hm
          · have hpath : declaredNames (b :: n :: c.path) = nameNode.text :: declaredNames c.path :=
              (declaredNames_cons_other (n :: c.path) hbdecl).trans
                (declaredNames_cons_decl c.path hdecl ((tree.named n hnTree hdecl).trans hname))
            change some (nestedIn outer nameNode.text) = outerNested (b :: n :: c.path)
            rw [outerNested, hpath, houter', nestedIn_outerNested]
    · rename_i hdecl
      rw [List.mem_singleton] at hchild
      subst hchild
      refine ⟨hnTree, hpathclean, ?_⟩
      have hpath : declaredNames (n :: c.path) = declaredNames c.path :=
        declaredNames_cons_other c.path (Bool.eq_false_of_not_eq_true hdecl)
      change outer = outerNested (n :: c.path)
      rw [houter', outerNested, outerNested, hpath]

theorem discoverInvariant_of_reach {item : Item}
    (h : Reach (visitChildren (discoverChild package)) [(tree.root.cursor, none)] item) :
    DiscoverInvariant tree item := by
  refine h.invariant (fun _ hitem _ => hitem.push) fun start hstart => ?_
  rw [List.mem_singleton] at hstart
  subst hstart
  have hpath : tree.root.cursor.path = [tree.root] := rfl
  refine ⟨?_, fun n hn => ?_, ?_⟩
  · rw [Node.subnodes_eq]
    exact List.mem_cons_self
  · rw [hpath, List.mem_singleton] at hn
    rw [hn, Node.isHeader, tree.program]
    decide
  · rw [outerNested, hpath, declaredNames_cons_other [] tree.root_noDecl]
    rfl

theorem mem_discoverDeclarations {entry : Cursor × String} :
    entry ∈ discoverDeclarations package tree.root ↔ ∃ c outer n,
      Reach (visitChildren (discoverChild package)) [(tree.root.cursor, none)] (c, outer) ∧
        n ∈ c.node.children ∧ entry ∈ (discoverChild package (c.child n) outer).1 := by
  rw [discoverDeclarations, mem_walk_iff (shrinks_visitChildren pushesBelow_discoverChild)]
  constructor
  · rintro ⟨⟨c, outer⟩, hreach, hout⟩
    obtain ⟨n, hn, hchild⟩ := mem_visitChildren_out.mp hout
    exact ⟨c, outer, n, hreach, hn, hchild⟩
  · rintro ⟨c, outer, n, hreach, hn, hentry⟩
    exact ⟨(c, outer), hreach, mem_visitChildren_out.mpr ⟨n, hn, hentry⟩⟩

/-- What is discovered, and the name it is listed under. -/
theorem discovered_spec {d : Cursor} {name : String} (h : (d, name) ∈ discoverDeclarations package tree.root) :
    (∀ n ∈ d.path, n.isHeader = false) ∧ name = inPackage package (nestedName (declaredNames d.path)) := by
  obtain ⟨c, outer, n, hreach, hn, hout⟩ := mem_discoverDeclarations.mp h
  obtain ⟨hinTree, hclean, houter⟩ := discoverInvariant_of_reach hreach
  have hnTree := Node.mem_subnodes_of_child hinTree hn
  have houter' : outer = outerNested c.path := houter
  unfold discoverChild at hout
  split at hout
  · cases hout
  · rename_i hheader
    split at hout
    · rename_i hdecl
      split at hout
      · cases hout
      · rename_i nameNode hname
        split at hout
        · cases hout
        · obtain ⟨rfl, rfl⟩ := Prod.mk.inj (List.mem_singleton.mp hout)
          refine ⟨fun m hm => ?_, ?_⟩
          · rcases List.mem_cons.mp hm with rfl | hm
            · exact Bool.eq_false_of_not_eq_true hheader
            · exact hclean m hm
          · have hpath : declaredNames (c.child n).path = nameNode.text :: declaredNames c.path :=
              declaredNames_cons_decl c.path hdecl ((tree.named n hnTree hdecl).trans hname)
            rw [hpath, houter', nestedIn_outerNested]
    · cases hout

theorem collected_mem_discovered {parsed : ParsedClass}
    (h : parsed ∈ collectJavaClasses package tree.root)
    (hclean : ∀ n ∈ parsed.decl.path, n.isHeader = false) :
    (parsed.decl, parsed.internalName) ∈ discoverDeclarations package tree.root := by
  obtain ⟨c, outerInternal, n, hreach, hn, hdecl, hparse⟩ := mem_collectJavaClasses.mp h
  have hnTree := Node.mem_subnodes_of_child (collectInvariant_of_reach hreach).inTree hn
  obtain ⟨nameNode, hname, hnonempty, rfl⟩ := parseJavaClass_eq_some_iff.mp hparse
  obtain ⟨outer, houter, hdiscover⟩ := discoverReach_of_collectReach hreach fun m hm =>
    hclean m (List.mem_cons_of_mem n hm)
  have houter' : outerInternal = outer.map (inPackage package) := houter
  have hidentifier : n.firstChildOfKind "identifier" = some nameNode :=
    (tree.named n hnTree hdecl).symm.trans hname
  refine mem_discoverDeclarations.mpr ⟨c, outer, n, hdiscover, hn, ?_⟩
  rw [discoverChild_decl hdecl hidentifier hnonempty, List.mem_singleton]
  dsimp only
  rw [houter', inPackage_outer]

/-! ## The search -/

theorem shrinks_findVisit : Shrinks findVisit fun c => c.node.size := by
  intro c
  have hsum : weight (fun c : Cursor => c.node.size) (findVisit c).2 = Node.sizes c.node.children := by
    rw [weight, findVisit, Cursor.children, List.map_map, Node.sizes_eq]
    rfl
  rw [hsum]
  exact Nat.lt_of_lt_of_eq (Nat.lt_succ_self _) (Node.size_eq c.node).symm

theorem searchReach_of_collectReach {item : Item} (h : CollectReach package tree item) :
    Reach findVisit [tree.root.cursor] item.1 := by
  induction h with
  | @start item hmem =>
    rw [List.mem_singleton] at hmem
    subst hmem
    exact .start (List.mem_singleton_self _)
  | @push item next hreach hpush ih =>
    obtain ⟨n, hn, hchild⟩ := mem_visitChildren_push.mp hpush
    have hnreach : Reach findVisit [tree.root.cursor] (item.1.child n) :=
      .push ih (List.mem_map_of_mem hn)
    rcases mem_collectChild_push.mp hchild with ⟨-, rfl⟩ | ⟨-, parsed, -, hbody⟩
    · exact hnreach
    · obtain ⟨b, hb, rfl⟩ := mem_pushBody.mp hbody
      exact .push hnreach (List.mem_map_of_mem (Node.childByFieldName_mem hb))

theorem collected_mem_searchOrder {parsed : ParsedClass}
    (h : parsed ∈ collectJavaClasses package tree.root) : parsed.decl ∈ searchOrder tree.root := by
  obtain ⟨c, outer, n, hreach, hn, -, hparse⟩ := mem_collectJavaClasses.mp h
  obtain ⟨nameNode, -, -, rfl⟩ := parseJavaClass_eq_some_iff.mp hparse
  rw [searchOrder, mem_walk_iff shrinks_findVisit]
  exact ⟨c.child n, .push (searchReach_of_collectReach hreach) (List.mem_map_of_mem hn),
    List.mem_singleton_self _⟩

theorem findClassNode_name {d : Cursor} {target : String}
    (h : findClassNode package tree.root target = some d) : classNodeName package d = some target := by
  have hfound := List.find?_some h
  rw [Bool.and_eq_true, decide_eq_true_iff] at hfound
  exact hfound.2

end

/-! ## Agreement -/

/-- The walks and the nodes above give a declaration that is collected the same name. -/
structure NamesAgree (package : Option String) (tree : JavaTree) : Prop where
  listed : ∀ parsed ∈ collectJavaClasses package tree.root,
    parsed.internalName ∈ discoverJavaNames package tree.root
  discovered : ∀ parsed ∈ collectJavaClasses package tree.root,
    (parsed.decl, parsed.internalName) ∈ discoverDeclarations package tree.root ∧
      ∀ name, (parsed.decl, name) ∈ discoverDeclarations package tree.root → name = parsed.internalName
  declared : ∀ parsed ∈ collectJavaClasses package tree.root,
    (parsed.decl, parsed.internalName) ∈ collectJavaDeclarations package tree.root ∧
      ∀ name, (parsed.decl, name) ∈ collectJavaDeclarations package tree.root →
        name = parsed.internalName
  enclosing : ∀ parsed ∈ collectJavaClasses package tree.root,
    extractEnclosingInternalName package parsed.decl = some parsed.internalName
  found : ∀ parsed ∈ collectJavaClasses package tree.root,
    ∃ d, findClassNode package tree.root parsed.internalName = some d ∧
      classNodeName package d = some parsed.internalName
  distinct : ∀ parsed ∈ collectJavaClasses package tree.root,
    ∀ other ∈ collectJavaClasses package tree.root, parsed.internalName ≠ other.internalName →
      findClassNode package tree.root parsed.internalName ≠ some other.decl

/-- The names agree exactly when no declaration that is collected is an annotation type, or is declared in
a package declaration. -/
theorem names_agree_iff (package : Option String) (tree : JavaTree) : NamesAgree package tree ↔
    ∀ parsed ∈ collectJavaClasses package tree.root,
      parsed.decl.kind ≠ "annotation_type_declaration" ∧
        ∀ n ∈ parsed.decl.path, n.isHeader = false := by
  constructor
  · intro h parsed hparsed
    have hspec := collected_spec hparsed
    refine ⟨fun hkind => ?_, (discovered_spec (h.discovered parsed hparsed).1).1⟩
    exact hspec.annotation_not_enclosing hkind (h.enclosing parsed hparsed)
  · intro h
    have henclosing : ∀ parsed ∈ collectJavaClasses package tree.root,
        extractEnclosingInternalName package parsed.decl = some parsed.internalName := by
      intro parsed hparsed
      have hspec := collected_spec hparsed
      refine hspec.enclosing fun n hn hdecl => ?_
      obtain ⟨other, hother, rfl⟩ := hspec.above n hn hdecl
      exact (Node.isTypeDeclaration_iff hdecl).mpr (h other hother).1
    have hname : ∀ parsed ∈ collectJavaClasses package tree.root,
        classNodeName package parsed.decl = some parsed.internalName := by
      intro parsed hparsed
      rw [classNodeName, henclosing parsed hparsed, Option.some_or]
    have hdiscovered : ∀ parsed ∈ collectJavaClasses package tree.root,
        (parsed.decl, parsed.internalName) ∈ discoverDeclarations package tree.root :=
      fun parsed hparsed => collected_mem_discovered hparsed (h parsed hparsed).2
    constructor
    · intro parsed hparsed
      have hmem := hdiscovered parsed hparsed
      have hne : (discoverDeclarations package tree.root).isEmpty = false := by
        rw [List.isEmpty_eq_false_iff]
        exact List.ne_nil_of_mem hmem
      rw [discoverJavaNames, hne, if_neg Bool.false_ne_true]
      exact List.mem_map_of_mem hmem
    · intro parsed hparsed
      refine ⟨hdiscovered parsed hparsed, fun name hmem => ?_⟩
      have hspec := collected_spec hparsed
      rw [(discovered_spec hmem).2, hspec.internalName, hspec.path_names]
    · exact fun parsed hparsed => ⟨collected_mem_declarations henclosing hparsed,
        fun name hmem => declarations_key (henclosing parsed hparsed) hmem⟩
    · exact henclosing
    · intro parsed hparsed
      have hsome : (findClassNode package tree.root parsed.internalName).isSome := by
        rw [findClassNode, List.find?_isSome]
        refine ⟨parsed.decl, collected_mem_searchOrder hparsed, ?_⟩
        rw [hname parsed hparsed, (collected_spec hparsed).isDecl]
        simp
      obtain ⟨d, hd⟩ := Option.isSome_iff_exists.mp hsome
      exact ⟨d, hd, findClassNode_name hd⟩
    · intro parsed hparsed other hother hne hfound
      have hfoundName := findClassNode_name hfound
      rw [hname other hother, Option.some.injEq] at hfoundName
      exact hne hfoundName.symm

/-! ## A class in an annotation type -/

/-- `class Inner { }` -/
def innerClassNode : Node :=
  .mk "class_declaration" none "class Inner { }" [.mk "class" none "class" [],
    .mk "identifier" (some "name") "Inner" [], .mk "class_body" (some "body") "{ }" []]

/-- `@interface Marker { class Inner { } }` -/
def annotationNode : Node :=
  .mk "annotation_type_declaration" none "@interface Marker { class Inner { } }"
    [.mk "@interface" none "@interface" [], .mk "identifier" (some "name") "Marker" [],
      .mk "annotation_type_body" (some "body") "{ class Inner { } }" [innerClassNode]]

def annotationTree : JavaTree where
  root := .mk "program" none "@interface Marker { class Inner { } }" [annotationNode]
  program := rfl
  named n hn _ := by
    simp only [Node.subnodes, Node.subnodesOf, annotationNode, innerClassNode, List.append_nil,
      List.nil_append, List.cons_append, List.mem_cons, List.not_mem_nil, or_false] at hn
    rcases hn with rfl | rfl | rfl | rfl | rfl | rfl | rfl | rfl | rfl
    all_goals rfl
  body n hn hdecl b hb := by
    simp only [Node.subnodes, Node.subnodesOf, annotationNode, innerClassNode, List.append_nil,
      List.nil_append, List.cons_append, List.mem_cons, List.not_mem_nil, or_false] at hn
    rcases hn with rfl | rfl | rfl | rfl | rfl | rfl | rfl | rfl | rfl
    all_goals first | exact absurd hdecl (by decide) | (cases hb; decide)

/-- `Marker` and `Marker$Inner` are collected; from the nodes above the first has no name and the second is
`Inner`. -/
theorem annotation_type_misnamed :
    (collectJavaClasses none annotationTree.root).map ParsedClass.internalName = ["Marker", "Marker$Inner"] ∧
    (collectJavaClasses none annotationTree.root).map
      (fun parsed => extractEnclosingInternalName none parsed.decl) = [none, some "Inner"] ∧
    (collectJavaDeclarations none annotationTree.root).map Prod.snd = ["Marker", "Inner"] ∧
    ¬ NamesAgree none annotationTree := by
  refine ⟨by decide, by decide, by decide, fun h => ?_⟩
  have henclosing : ∀ parsed ∈ collectJavaClasses none annotationTree.root,
      extractEnclosingInternalName none parsed.decl = some parsed.internalName := h.enclosing
  revert henclosing
  decide

end JavaAnalyzer.Language
