import JavaAnalyzer.Index.BucketContents
import JavaAnalyzer.Language.NamingWalks
import JavaAnalyzer.Language.SyntheticCollisions

/-! # The classes of a file

`extract_java_classes_from_root`: the declarations that are collected, each with the builder class that `@Builder`
adds to it, or the class that is read off an error node. Of a class only its head is kept, by which the index
files it: package, names, owner and origin. -/

namespace JavaAnalyzer.Language
set_option autoImplicit false
open JavaAnalyzer.Index StackWalk

/-! ## Extraction -/

structure ClassHead where
  package : Option String
  name : String
  internalName : String
  innerClassOf : Option String
  origin : ClassOrigin
deriving DecidableEq

def ClassHead.of (c : ClassMetadata) : ClassHead :=
  ⟨c.package, c.name, c.internalName, c.innerClassOf, c.origin⟩

/-- What an extraction reads of its file beside the nodes. -/
structure ExtractionCtx where
  members : MemberCtx
  toUppercase : Char → List Char
  package : Option String
  origin : ClassOrigin

namespace ExtractionCtx

variable (ctx : ExtractionCtx)

def head (parsed : ParsedClass) : ClassHead :=
  ⟨ctx.package, parsed.name, parsed.internalName, parsed.outerInternal, ctx.origin⟩

def input (parsed : ParsedClass) : SyntheticInput where
  ctx := ctx.members
  decl := parsed.decl
  ownerInternal := some parsed.internalName
  toUppercase := ctx.toUppercase

/-- A declaration with its synthesized nested classes. -/
def headsOf (parsed : ParsedClass) : List ClassHead :=
  ctx.head parsed :: (synthesizeForBody (ctx.input parsed)).nestedClasses.map ClassHead.of

def collectedHeads (root : Node) : List ClassHead :=
  (collectJavaClasses ctx.package root).flatMap ctx.headsOf

/-- `parse_java_error_class` -/
def errorHead (root : Node) : Option ClassHead :=
  ((root.firstChildOfKind "ERROR").bind fun error => recoverErrorTypeDecl error.children).map fun recovered =>
    ⟨ctx.package, recovered.2, inPackage ctx.package recovered.2, none, ctx.origin⟩

def extractJavaClasses (root : Node) : List ClassHead :=
  if (ctx.collectedHeads root).isEmpty then (ctx.errorHead root).toList else ctx.collectedHeads root

end ExtractionCtx

/-! ## Names and their parts -/

/-- The parts of the names of declarations in one another, from the outside, where a name is cut at its
dollar signs. -/
def nameParts (names : List String) : List (List Char) :=
  names.reverse.flatMap fun name => name.toList.splitOn '$'

theorem splitOn_nestedName {names : List String} (hne : names ≠ []) :
    (nestedName names).toList.splitOn '$' = nameParts names := by
  induction names with
  | nil => exact absurd rfl hne
  | cons name outer ih =>
    cases outer with
    | nil => simp [nestedName, nameParts]
    | cons first rest =>
      have hjoin : (nestedName (name :: first :: rest)).toList =
          (nestedName (first :: rest)).toList ++ '$' :: name.toList := by
        rw [nestedName.eq_3 _ _ (by simp)]
        simp
      rw [hjoin, List.splitOn_append_cons_self, ih (by simp), nameParts, nameParts,
        List.reverse_cons (a := name), List.flatMap_append, List.flatMap_singleton]

theorem splitOn_injective {s t : List Char} (h : s.splitOn '$' = t.splitOn '$') : s = t :=
  calc s = ['$'].intercalate (s.splitOn '$') := (List.intercalate_splitOn '$').symm
    _ = ['$'].intercalate (t.splitOn '$') := by rw [h]
    _ = t := List.intercalate_splitOn '$'

/-- Internal names of declarations agree where all parts of their names do. -/
theorem internalName_eq_iff (package : Option String) {names names' : List String} (hne : names ≠ [])
    (hne' : names' ≠ []) :
    inPackage package (nestedName names) = inPackage package (nestedName names') ↔
      nameParts names = nameParts names' := by
  rw [← splitOn_nestedName hne, ← splitOn_nestedName hne']
  constructor
  · intro h
    rw [inPackage_injective h]
  · intro h
    rw [String.ext_iff.mpr (splitOn_injective h)]

theorem nestedName_cons (name : String) {outer : List String} (hne : outer ≠ []) :
    nestedName (name :: outer) = nestedName outer ++ "$" ++ name := by
  cases outer with
  | nil => exact absurd rfl hne
  | cons first rest => rfl

/-! ## Trees -/

/-- What the grammar gives of every tree, one with errors among them: neither the root nor a body is a type
declaration. -/
structure SyntaxTree where
  root : Node
  root_noDecl : root.isClassDecl = false
  body_noDecl : ∀ n ∈ root.subnodes, n.isClassDecl = true → ∀ b ∈ n.childByFieldName "body",
    b.isClassDecl = false

section

variable {package : Option String} {tree : SyntaxTree} {parsed : ParsedClass}

/-- A collected class has the names of the declarations around it, and its own. -/
theorem internalName_of_collected (h : parsed ∈ collectJavaClasses package tree.root) :
    declaredNames parsed.decl.path ≠ [] ∧
      parsed.internalName = inPackage package (nestedName (declaredNames parsed.decl.path)) := by
  obtain ⟨c, outer, n, hreach, -, hdecl, hparse⟩ := mem_collectJavaClasses_iff.mp h
  have houter : outer = outerName package c.path :=
    (walkInvariant_of_reach tree.root_noDecl tree.body_noDecl hreach).outer
  obtain ⟨nameNode, hname, -, rfl⟩ := parseJavaClass_eq_some_iff.mp hparse
  have hnames : declaredNames (c.child n).path = nameNode.text :: declaredNames c.path :=
    declaredNames_cons_decl c.path hdecl hname
  rw [hnames, houter, name_in_outerName]
  exact ⟨List.cons_ne_nil _ _, rfl⟩

end

/-! ## What a file contributes -/

/-- All classes are filed under the origin and the package, and told apart by their names. -/
structure Contribution (package : Option String) (origin : ClassOrigin) (heads : List ClassHead) : Prop where
  origin : ∀ c ∈ heads, c.origin = origin
  package : ∀ c ∈ heads, c.package = package
  names : (heads.map ClassHead.internalName).Nodup

section

variable {s : BucketState} {package : Option String} {o : ClassOrigin} {classes : List ClassMetadata}

/-- Publishing such classes replaces what the origin had by all of them. -/
theorem Contribution.replaces (h : Contribution package o (classes.map ClassHead.of)) (hinv : s.Invariant)
    (declarations : Option SourceDeclarationBatch)
    (hjar : ∀ c ∈ classes, ∀ e, s.getClass c.internalName = some e → e.origin.isJar = false)
    (hne : classes ≠ []) (c : ClassMetadata) :
    c ∈ (s.updateSourceWithDeclarations o classes declarations).1.iterAllClasses ∧ c.origin = o ↔
      c ∈ classes := by
  have horigin : ∀ d ∈ classes, d.origin = o := fun d hd => h.origin _ (List.mem_map_of_mem hd)
  have hnodup : (classes.map ClassMetadata.internalName).Nodup := by
    have hnames := h.names
    rwa [List.map_map] at hnames
  rw [(hinv.replaces_of_ne_nil declarations horigin hjar hne).contribution c]
  exact ⟨fun hc => (BucketState.mem_of_lastNamed hc).1, BucketState.lastNamed_of_nodup hnodup⟩

theorem mem_removeByOrigin_iff (hinv : s.Invariant) {c : ClassMetadata} :
    c ∈ (s.removeByOrigin o).1.iterAllClasses ↔ c ∈ s.iterAllClasses ∧ c.origin ≠ o := by
  rw [(hinv.removeByOrigin o).mem_iterAllClasses_iff, hinv.mem_iterAllClasses_iff,
    BucketState.getClass_removeByOrigin hinv, Option.filter_eq_some_iff, decide_eq_true_iff]

theorem Contribution.removed (h : Contribution package o (classes.map ClassHead.of)) (hinv : s.Invariant)
    {c : ClassMetadata} (hc : c ∈ classes) : c ∉ (s.removeByOrigin o).1.iterAllClasses :=
  fun hmem => ((mem_removeByOrigin_iff hinv).mp hmem).2 (h.origin _ (List.mem_map_of_mem hc))

end

namespace ExtractionCtx

variable (ctx : ExtractionCtx)

/-- The builder class of a declaration. -/
def builderName (parsed : ParsedClass) : Option String :=
  (BuilderRule.builderAnno (ctx.input parsed)).map (BuilderRule.builderClassName (ctx.input parsed))

/-- The names of a declaration and of its builder class, each with the names around it. -/
def nameLists (parsed : ParsedClass) : List (List String) :=
  declaredNames parsed.decl.path ::
    ((ctx.builderName parsed).map fun name => name :: declaredNames parsed.decl.path).toList

/-- No declaration has a builder, unless the builder's own package and origin are those of the file; and no two
declarations, with the builder classes among them, have the same names around them. -/
structure Unambiguous (root : Node) : Prop where
  noBuilder : ∀ parsed ∈ collectJavaClasses ctx.package root, (ctx.builderName parsed).isSome →
    ctx.origin = .unknown ∧ ctx.package = some ""
  distinct : (((collectJavaClasses ctx.package root).flatMap ctx.nameLists).map nameParts).Nodup

def builderHead (parsed : ParsedClass) (name : String) : ClassHead :=
  ⟨some "", name, parsed.internalName ++ "$" ++ name, some parsed.internalName, .unknown⟩

variable {ctx} {tree : SyntaxTree} {parsed : ParsedClass}

theorem headsOf_eq (parsed : ParsedClass) : ctx.headsOf parsed =
    ctx.head parsed :: ((ctx.builderName parsed).map (builderHead parsed)).toList := by
  rw [headsOf, synthesizeForBody, synthesizeForType_nestedClasses, builderName, Option.map_map]
  cases BuilderRule.builderAnno (ctx.input parsed) <;> rfl

theorem mem_collectedHeads {root : Node} {c : ClassHead} : c ∈ ctx.collectedHeads root ↔
    ∃ parsed ∈ collectJavaClasses ctx.package root,
      c = ctx.head parsed ∨ ∃ name, ctx.builderName parsed = some name ∧ c = builderHead parsed name := by
  have hheads : ∀ parsed, c ∈ ctx.headsOf parsed ↔
      c = ctx.head parsed ∨ ∃ name, ctx.builderName parsed = some name ∧ c = builderHead parsed name := by
    intro parsed
    rw [headsOf_eq, List.mem_cons, Option.mem_toList, Option.map_eq_some_iff]
    simp only [@eq_comm _ c]
  rw [collectedHeads, List.mem_flatMap]
  simp only [hheads]

/-- The internal names of a declaration and its builder class are made of their names and those around them. -/
theorem headsOf_internalName (h : parsed ∈ collectJavaClasses ctx.package tree.root) :
    (ctx.headsOf parsed).map ClassHead.internalName =
      (ctx.nameLists parsed).map fun names => inPackage ctx.package (nestedName names) := by
  obtain ⟨hne, hname⟩ := internalName_of_collected h
  rw [headsOf_eq, nameLists]
  cases ctx.builderName parsed with
  | none => simp [head, hname]
  | some name =>
    simp [head, builderHead, hname, nestedName_cons name hne, inPackage_append]

theorem nameLists_ne_nil (h : parsed ∈ collectJavaClasses ctx.package tree.root) {names : List String}
    (hnames : names ∈ ctx.nameLists parsed) : names ≠ [] := by
  rw [nameLists, List.mem_cons, Option.mem_toList, Option.map_eq_some_iff] at hnames
  rcases hnames with rfl | ⟨name, -, rfl⟩
  · exact (internalName_of_collected h).1
  · exact List.cons_ne_nil _ _

theorem collectedHeads_internalName : (ctx.collectedHeads tree.root).map ClassHead.internalName =
    ((collectJavaClasses ctx.package tree.root).flatMap ctx.nameLists).map fun names =>
      inPackage ctx.package (nestedName names) := by
  rw [collectedHeads, List.map_flatMap, List.map_flatMap]
  exact List.flatMap_congr fun parsed h => headsOf_internalName h

theorem collectedHeads_nodup_iff : ((ctx.collectedHeads tree.root).map ClassHead.internalName).Nodup ↔
    (((collectJavaClasses ctx.package tree.root).flatMap ctx.nameLists).map nameParts).Nodup := by
  have hne : ∀ names ∈ (collectJavaClasses ctx.package tree.root).flatMap ctx.nameLists, names ≠ [] := by
    intro names hnames
    obtain ⟨parsed, h, hnames⟩ := List.mem_flatMap.mp hnames
    exact nameLists_ne_nil h hnames
  rw [collectedHeads_internalName, List.Nodup, List.Nodup, List.pairwise_map, List.pairwise_map]
  exact List.Pairwise.iff_of_mem fun h h' => not_congr (internalName_eq_iff ctx.package (hne _ h) (hne _ h'))

theorem headsOf_ne_nil (parsed : ParsedClass) : ctx.headsOf parsed ≠ [] := List.cons_ne_nil _ _

theorem collectedHeads_eq_nil_iff {root : Node} :
    ctx.collectedHeads root = [] ↔ collectJavaClasses ctx.package root = [] := by
  rw [collectedHeads, List.flatMap_eq_nil_iff, List.eq_nil_iff_forall_not_mem]
  exact forall₂_congr fun parsed _ => iff_false_intro (headsOf_ne_nil parsed)

theorem contribution_of_errorHead (root : Node) :
    Contribution ctx.package ctx.origin (ctx.errorHead root).toList := by
  have hhead : ∀ c ∈ (ctx.errorHead root).toList, c.origin = ctx.origin ∧ c.package = ctx.package := by
    intro c hc
    rw [Option.mem_toList, errorHead, Option.map_eq_some_iff] at hc
    obtain ⟨recovered, -, rfl⟩ := hc
    exact ⟨rfl, rfl⟩
  constructor
  · exact fun c hc => (hhead c hc).1
  · exact fun c hc => (hhead c hc).2
  · cases ctx.errorHead root <;> simp

theorem contribution_collected_iff :
    Contribution ctx.package ctx.origin (ctx.collectedHeads tree.root) ↔ ctx.Unambiguous tree.root := by
  constructor
  · rintro ⟨horigin, hpackage, hnames⟩
    refine ⟨fun parsed h hbuilder => ?_, collectedHeads_nodup_iff.mp hnames⟩
    obtain ⟨name, hname⟩ := Option.isSome_iff_exists.mp hbuilder
    have hmem : builderHead parsed name ∈ ctx.collectedHeads tree.root :=
      mem_collectedHeads.mpr ⟨parsed, h, .inr ⟨name, hname, rfl⟩⟩
    exact ⟨(horigin _ hmem).symm, (hpackage _ hmem).symm⟩
  · rintro ⟨hbuilder, hdistinct⟩
    have hhead : ∀ c ∈ ctx.collectedHeads tree.root, c.origin = ctx.origin ∧ c.package = ctx.package := by
      intro c hc
      obtain ⟨parsed, h, rfl | ⟨name, hname, rfl⟩⟩ := mem_collectedHeads.mp hc
      · exact ⟨rfl, rfl⟩
      · obtain ⟨horigin, hpackage⟩ := hbuilder parsed h (by rw [hname]; rfl)
        exact ⟨horigin.symm, hpackage.symm⟩
    exact ⟨fun c hc => (hhead c hc).1, fun c hc => (hhead c hc).2, collectedHeads_nodup_iff.mpr hdistinct⟩

/-- A file contributes its classes as it should where no declaration has a builder and the names of the
declarations tell them apart. -/
theorem contribution_iff (ctx : ExtractionCtx) (tree : SyntaxTree) :
    Contribution ctx.package ctx.origin (ctx.extractJavaClasses tree.root) ↔ ctx.Unambiguous tree.root := by
  rw [extractJavaClasses]
  by_cases hempty : collectJavaClasses ctx.package tree.root = []
  · rw [if_pos (List.isEmpty_iff.mpr (collectedHeads_eq_nil_iff.mpr hempty))]
    refine iff_of_true (contribution_of_errorHead tree.root) ⟨fun parsed h => ?_, ?_⟩
    · rw [hempty] at h
      cases h
    · rw [hempty]
      exact List.nodup_nil
  · rw [if_neg (by rwa [List.isEmpty_iff, collectedHeads_eq_nil_iff])]
    exact contribution_collected_iff

end ExtractionCtx

/-! ## A builder -/

/-- `@Builder class Person { }` -/
def builderTree : SyntaxTree where
  root := .mk "program" none "@Builder class Person { }"
    [.mk "class_declaration" none "@Builder class Person { }"
      [.mk "modifiers" none "@Builder" [], .mk "class" none "class" [],
       .mk "identifier" (some "name") "Person" [], .mk "class_body" (some "body") "{ }" []]]
  root_noDecl := rfl
  body_noDecl := by decide

def builderCtx : ExtractionCtx where
  members := { personCtx with
    annotationsIn n := if n.text = "@Builder" then [markerAnno Lombok.Annotations.builder] else [] }
  toUppercase c := [c.toUpper]
  package := none
  origin := .sourceFile "file:///Person.java"

/-- `Person$PersonBuilder` is filed under no origin and in the package of an empty name. -/
theorem builder_not_contributed :
    builderCtx.extractJavaClasses builderTree.root =
      [⟨none, "Person", "Person", none, .sourceFile "file:///Person.java"⟩,
       ⟨some "", "PersonBuilder", "Person$PersonBuilder", some "Person", .unknown⟩] ∧
    ¬ ∀ (ctx : ExtractionCtx) (tree : SyntaxTree),
      Contribution ctx.package ctx.origin (ctx.extractJavaClasses tree.root) := by
  have hheads : builderCtx.extractJavaClasses builderTree.root =
      [⟨none, "Person", "Person", none, .sourceFile "file:///Person.java"⟩,
       ⟨some "", "PersonBuilder", "Person$PersonBuilder", some "Person", .unknown⟩] := by
    decide
  refine ⟨hheads, fun h => ?_⟩
  have horigin := (h builderCtx builderTree).origin
  rw [hheads] at horigin
  revert horigin
  decide

def localMethod (name : String) : Node :=
  .mk "method_declaration" none ("void " ++ name ++ "() { class Local { } }")
    [.mk "identifier" (some "name") name [],
     .mk "block" (some "body") "{ class Local { } }"
       [.mk "class_declaration" none "class Local { }"
         [.mk "class" none "class" [], .mk "identifier" (some "name") "Local" [],
          .mk "class_body" (some "body") "{ }" []]]]

/-- `class Outer { void a() { class Local { } } void b() { class Local { } } }` -/
def localsTree : SyntaxTree where
  root := .mk "program" none "class Outer { void a() { class Local { } } void b() { class Local { } } }"
    [.mk "class_declaration" none "class Outer { void a() { class Local { } } void b() { class Local { } } }"
      [.mk "class" none "class" [], .mk "identifier" (some "name") "Outer" [],
       .mk "class_body" (some "body") "{ void a() { class Local { } } void b() { class Local { } } }"
         [localMethod "a", localMethod "b"]]]
  root_noDecl := rfl
  body_noDecl := by decide

/-- Local classes of one name in two methods have one name. -/
example : (builderCtx.extractJavaClasses localsTree.root).map ClassHead.internalName =
    ["Outer", "Outer$Local", "Outer$Local"] := by
  decide

end JavaAnalyzer.Language
