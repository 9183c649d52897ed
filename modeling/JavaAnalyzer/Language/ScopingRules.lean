import JavaAnalyzer.Index.ViewLayers
import JavaAnalyzer.Language.SourceTypeCtx
import JavaAnalyzer.Library.Text

/-! # The scoping rules of simple type names

What a simple name stands for by the Java scoping rules, over the imports as the grammar has them, and when
`resolve_simple_strict` answers that. A qualified name is read with every dot as the end of a package or of
an enclosing class; the code reads each dot as the end of a package, counts repeated imports, and asks
`java.lang` before the on-demand imports. -/

namespace JavaAnalyzer.Language
set_option autoImplicit false
open JavaAnalyzer.Index JavaAnalyzer.Index.IndexView LevelLookup

/-! ## Imports as the grammar has them -/

structure Identifier where
  text : String
  nonempty : text ≠ ""
  plain : ∀ c ∈ text.toList, c ≠ '.' ∧ c ≠ '/' ∧ c ≠ '*'
deriving DecidableEq

/-- An import declaration that is not static, on demand of all types of `qualifier.name`. -/
inductive ImportDecl where
  | singleType (qualifier : List Identifier) (name : Identifier)
  | onDemand (qualifier : List Identifier) (name : Identifier)
deriving DecidableEq

def joined (separator : String) : List Identifier → Identifier → String
  | [], name => name.text
  | first :: qualifier, name => first.text ++ separator ++ joined separator qualifier name

def ImportDecl.text : ImportDecl → String
  | singleType qualifier name => joined "." qualifier name
  | onDemand qualifier name => joined "." qualifier name ++ ".*"

/-- The binary names that a qualified name can stand for, the one of a class that no class encloses first. -/
def spellings : List Identifier → Identifier → List String
  | [], name => [name.text]
  | first :: qualifier, name =>
    (spellings qualifier name).map (fun inner => first.text ++ "/" ++ inner) ++
      [joined "$" (first :: qualifier) name]

/-- The classes that a single-type import of the name imports. -/
def ImportDecl.imported (simple : Identifier) : ImportDecl → List String
  | singleType qualifier name => if name = simple then spellings qualifier name else []
  | onDemand _ _ => []

/-- The classes of the name that an on-demand import finds. -/
def ImportDecl.found (simple : Identifier) : ImportDecl → List String
  | singleType _ _ => []
  | onDemand qualifier name => spellings (qualifier ++ [name]) simple

structure CompilationUnit where
  package : Option String
  imports : List ImportDecl
  view : IndexView

namespace CompilationUnit

variable (file : CompilationUnit) (simple : Identifier)

def typeCtx : SourceTypeCtx :=
  { package := file.package, imports := file.imports.map ImportDecl.text, view := file.view }

/-- Single-type imports shadow the own package, which shadows the on-demand imports. -/
def scopeLevels : List (List String) :=
  [file.imports.flatMap (ImportDecl.imported simple), [file.typeCtx.inOwnPackage simple.text],
    SourceTypeCtx.inJavaLang simple.text :: file.imports.flatMap (ImportDecl.found simple)]

/-- The class that a simple name stands for. -/
def scopedClass : Option String :=
  lookupDistinct file.typeCtx.classExists (file.scopeLevels simple)

end CompilationUnit

/-! ## Reading the import texts -/

theorem Identifier.ext_text {a b : Identifier} (h : a.text = b.text) : a = b := by
  cases a
  cases b
  cases h
  rfl

theorem Identifier.not_mem_dot (a : Identifier) : '.' ∉ a.text.toList :=
  fun h => (a.plain '.' h).1 rfl

theorem Identifier.not_mem_slash (a : Identifier) : '/' ∉ a.text.toList :=
  fun h => (a.plain '/' h).2.1 rfl

theorem Identifier.reverse_cons (a : Identifier) (front : String) :
    ∃ c rest, (front ++ a.text).toList.reverse = c :: rest ∧ c ≠ '*' := by
  have hne : a.text.toList.reverse ≠ [] := by
    rw [Ne, List.reverse_eq_nil_iff, ← String.toList_empty, String.toList_inj]
    exact a.nonempty
  obtain ⟨c, rest, hrest⟩ := List.exists_cons_of_ne_nil hne
  refine ⟨c, rest ++ front.toList.reverse, ?_, (a.plain c ?_).2.2⟩
  · rw [String.toList_append, List.reverse_append, hrest, List.cons_append]
  · rw [← List.mem_reverse, hrest]
    exact List.mem_cons_self

theorem joined_cons (separator : String) (first : Identifier) (qualifier : List Identifier)
    (name : Identifier) : ∃ front,
    joined separator (first :: qualifier) name = front ++ separator ++ name.text := by
  induction qualifier generalizing first with
  | nil => exact ⟨first.text, rfl⟩
  | cons second qualifier ih =>
    obtain ⟨front, hfront⟩ := ih second
    refine ⟨first.text ++ separator ++ front, ?_⟩
    rw [joined, hfront]
    simp only [String.append_assoc]

theorem joined_front (separator : String) (qualifier : List Identifier) (name : Identifier) :
    ∃ front, joined separator qualifier name = front ++ name.text := by
  cases qualifier with
  | nil => exact ⟨"", (String.empty_append).symm⟩
  | cons first qualifier =>
    obtain ⟨front, hfront⟩ := joined_cons separator first qualifier name
    exact ⟨front ++ separator, hfront⟩

theorem joined_append (separator : String) (qualifier : List Identifier) (name last : Identifier) :
    joined separator (qualifier ++ [name]) last =
      joined separator qualifier name ++ separator ++ last.text := by
  induction qualifier with
  | nil => rfl
  | cons first qualifier ih =>
    rw [List.cons_append, joined, joined, ih]
    simp only [String.append_assoc]

theorem slashed_joined (qualifier : List Identifier) (name : Identifier) :
    BucketState.slashed (joined "." qualifier name) = joined "/" qualifier name := by
  induction qualifier with
  | nil => exact slashed_of_not_mem name.not_mem_dot
  | cons first qualifier ih =>
    rw [joined, slashed_append, slashed_append, slashed_of_not_mem first.not_mem_dot, ih]
    rfl

theorem isOnDemand_joined (qualifier : List Identifier) (name : Identifier) :
    isOnDemand (joined "." qualifier name) = false := by
  obtain ⟨front, hfront⟩ := joined_front "." qualifier name
  obtain ⟨c, rest, hrest, hc⟩ := name.reverse_cons front
  rw [Bool.eq_false_iff, isOnDemand, endsWith, Ne, List.isSuffixOf_iff_suffix, ← List.reverse_prefix,
    hfront, hrest]
  intro hprefix
  exact hc (List.cons_prefix_cons.mp hprefix).1.symm

theorem isOnDemand_star (front : String) : isOnDemand (front ++ ".*") = true := by
  rw [isOnDemand, endsWith, List.isSuffixOf_iff_suffix, String.toList_append]
  exact List.suffix_append _ _

theorem onDemandPackage_joined (qualifier : List Identifier) (name : Identifier) :
    onDemandPackage (joined "." qualifier name ++ ".*") = joined "/" qualifier name := by
  obtain ⟨front, hfront⟩ := joined_front "." qualifier name
  obtain ⟨c, rest, hrest, hc⟩ := name.reverse_cons front
  have htrim : trimStars (joined "." qualifier name ++ ".*").toList.reverse =
      (joined "." qualifier name).toList.reverse := by
    rw [String.toList_append, List.reverse_append, hfront, hrest]
    change trimStars ('*' :: '.' :: c :: rest) = c :: rest
    rw [trimStars]
    unfold trimStars
    split
    · rename_i heq
      exact absurd (List.cons.inj heq).1 hc
    · rfl
  rw [onDemandPackage, htrim, List.reverse_reverse, String.ofList_toList, slashed_joined]

theorem importsSimple_joined (qualifier : List Identifier) (name simple : Identifier) :
    importsSimple (joined "." qualifier name) simple.text = decide (name = simple) := by
  rw [importsSimple, isOnDemand_joined, Bool.not_false, Bool.true_and, Bool.eq_iff_iff, Bool.or_eq_true,
    decide_eq_true_iff, decide_eq_true_iff, endsWith, List.isSuffixOf_iff_suffix, String.toList_append]
  have hdot : ".".toList = ['.'] := rfl
  rw [hdot, List.singleton_append]
  cases qualifier with
  | nil =>
    rw [joined]
    constructor
    · rintro (heq | ⟨front, hfront⟩)
      · exact Identifier.ext_text heq
      · refine absurd ?_ name.not_mem_dot
        rw [← hfront]
        exact List.mem_append_right front List.mem_cons_self
    · rintro rfl
      exact .inl rfl
  | cons first qualifier =>
    obtain ⟨before, hbefore⟩ := joined_cons "." first qualifier name
    have hlist : (joined "." (first :: qualifier) name).toList =
        before.toList ++ '.' :: name.text.toList := by
      rw [hbefore, String.toList_append, String.toList_append, List.append_assoc]
      rfl
    constructor
    · rintro (heq | ⟨front, hfront⟩)
      · refine absurd ?_ simple.not_mem_dot
        rw [← heq, hlist]
        exact List.mem_append_right _ List.mem_cons_self
      · rw [hlist] at hfront
        have hlast := Text.append_cons_inj_last simple.not_mem_dot name.not_mem_dot hfront
        exact Identifier.ext_text (String.toList_inj.mp hlast.2.symm)
    · rintro rfl
      exact .inr ⟨before.toList, hlist.symm⟩

/-! ## The candidates of the code -/

/-- The class that the code reads in a single-type import of the name. -/
def ImportDecl.importedAtTop (simple : Identifier) : ImportDecl → Option String
  | singleType qualifier name => if name = simple then some (joined "/" qualifier name) else none
  | onDemand _ _ => none

/-- The class of the name that the code reads in an on-demand import. -/
def ImportDecl.foundAtTop (simple : Identifier) : ImportDecl → Option String
  | singleType _ _ => none
  | onDemand qualifier name => some (joined "/" (qualifier ++ [name]) simple)

namespace CompilationUnit

variable (file : CompilationUnit) (simple : Identifier)

theorem importedByName_eq : file.typeCtx.importedByName simple.text =
    file.imports.filterMap (ImportDecl.importedAtTop simple) := by
  change ((file.imports.map ImportDecl.text).filter
    fun imp => importsSimple imp simple.text).map BucketState.slashed = _
  induction file.imports with
  | nil => rfl
  | cons decl imports ih =>
    rw [List.map_cons, List.filter_cons]
    cases decl with
    | singleType qualifier name =>
      rw [ImportDecl.text, importsSimple_joined, List.filterMap_cons, ImportDecl.importedAtTop]
      by_cases heq : name = simple
      · rw [decide_eq_true heq, if_pos rfl, if_pos heq, List.map_cons, slashed_joined, ih]
      · rw [decide_eq_false heq, if_neg Bool.false_ne_true, if_neg heq, ih]
    | onDemand qualifier name =>
      have hstar : importsSimple (ImportDecl.onDemand qualifier name).text simple.text = false := by
        rw [ImportDecl.text, importsSimple, isOnDemand_star]
        rfl
      rw [hstar, if_neg Bool.false_ne_true, ih, List.filterMap_cons]
      rfl

theorem importedOnDemand_eq : file.typeCtx.importedOnDemand simple.text =
    file.imports.filterMap (ImportDecl.foundAtTop simple) := by
  change ((file.imports.map ImportDecl.text).filter isOnDemand).map
    (fun imp => onDemandPackage imp ++ "/" ++ simple.text) = _
  induction file.imports with
  | nil => rfl
  | cons decl imports ih =>
    rw [List.map_cons, List.filter_cons]
    cases decl with
    | singleType qualifier name =>
      rw [ImportDecl.text, isOnDemand_joined, if_neg Bool.false_ne_true, ih, List.filterMap_cons]
      rfl
    | onDemand qualifier name =>
      rw [ImportDecl.text, isOnDemand_star, if_pos rfl, List.map_cons, onDemandPackage_joined, ih,
        List.filterMap_cons, ImportDecl.foundAtTop, joined_append]

/-- The code's candidates of an import are among the classes the import stands for. -/
theorem joined_mem_spellings (qualifier : List Identifier) (name : Identifier) :
    joined "/" qualifier name ∈ spellings qualifier name := by
  induction qualifier with
  | nil => exact List.mem_singleton_self name.text
  | cons first qualifier ih =>
    rw [joined, spellings, String.append_assoc]
    refine List.mem_append_left _ (List.mem_map.mpr ⟨joined "/" qualifier name, ih, ?_⟩)
    rw [String.append_assoc]

/-- The other classes it stands for are nested ones. -/
theorem nested_of_mem_spellings {qualifier : List Identifier} {name : Identifier} {internal : String}
    (h : internal ∈ spellings qualifier name) :
    internal = joined "/" qualifier name ∨ ∃ front, internal = front ++ "$" ++ name.text := by
  induction qualifier generalizing internal with
  | nil => exact .inl (List.mem_singleton.mp h)
  | cons first qualifier ih =>
    rw [spellings, List.mem_append, List.mem_map, List.mem_singleton] at h
    rcases h with ⟨inner, hinner, rfl⟩ | rfl
    · rcases ih hinner with rfl | ⟨front, rfl⟩
      · exact .inl rfl
      · refine .inr ⟨first.text ++ "/" ++ front, ?_⟩
        simp only [String.append_assoc]
    · exact .inr (joined_cons "$" first qualifier name)

theorem mem_imported_of_importedAtTop {decl : ImportDecl} {internal : String}
    (h : decl.importedAtTop simple = some internal) : internal ∈ decl.imported simple := by
  cases decl with
  | singleType qualifier name =>
    rw [ImportDecl.importedAtTop, Option.ite_none_right_eq_some, Option.some.injEq] at h
    obtain ⟨hname, rfl⟩ := h
    rw [ImportDecl.imported, if_pos hname]
    exact joined_mem_spellings qualifier name
  | onDemand qualifier name => cases h

theorem mem_found_of_foundAtTop {decl : ImportDecl} {internal : String}
    (h : decl.foundAtTop simple = some internal) : internal ∈ decl.found simple := by
  cases decl with
  | singleType qualifier name => cases h
  | onDemand qualifier name =>
    rw [← Option.some.inj h]
    exact joined_mem_spellings (qualifier ++ [name]) simple

theorem nested_of_mem_imported {decl : ImportDecl} {internal : String}
    (h : internal ∈ decl.imported simple) :
    decl.importedAtTop simple = some internal ∨ ∃ front, internal = front ++ "$" ++ simple.text := by
  cases decl with
  | singleType qualifier name =>
    rw [ImportDecl.imported] at h
    split at h
    · rename_i hname
      rw [ImportDecl.importedAtTop, if_pos hname]
      rcases nested_of_mem_spellings h with rfl | hnested
      · exact .inl rfl
      · exact .inr (hname ▸ hnested)
    · cases h
  | onDemand qualifier name => cases h

theorem nested_ne_simple (front : String) : front ++ "$" ++ simple.text ≠ simple.text := by
  intro heq
  have hlength := congrArg String.length heq
  rw [String.length_append, String.length_append] at hlength
  have hone : "$".length = 1 := rfl
  omega

theorem nested_ne_slash (front before : String) :
    front ++ "$" ++ simple.text ≠ before ++ "/" ++ simple.text := by
  intro heq
  have hlist := congrArg String.toList heq
  simp only [String.toList_append] at hlist
  have hdollar : "$".toList = ['$'] := rfl
  have hslash : "/".toList = ['/'] := rfl
  have hlast := congrArg List.getLast? (List.append_cancel_right hlist)
  rw [hdollar, hslash, List.getLast?_concat, List.getLast?_concat] at hlast
  exact absurd hlast (by decide)

/-! ## When the answers agree -/

/-- The existing classes that single-type imports of the name import, each once. -/
def importedClasses : List String :=
  ((file.imports.flatMap (ImportDecl.imported simple)).filter file.typeCtx.classExists).dedup

/-- The existing classes of the name that on-demand imports find, `java.lang.*` among them, each once. -/
def foundClasses : List String :=
  ((SourceTypeCtx.inJavaLang simple.text :: file.imports.flatMap (ImportDecl.found simple)).filter
    file.typeCtx.classExists).dedup

def ownClassExists : Prop :=
  file.typeCtx.classExists (file.typeCtx.inOwnPackage simple.text) = true

def javaLangClassExists : Prop :=
  file.typeCtx.classExists (SourceTypeCtx.inJavaLang simple.text) = true

/-- By the hits of the imports, an import that is repeated counting as often as it is there: those of the
level that decides are one exactly when that level has one class, and `java.lang` hides no second class. -/
def HitsDecide : Prop :=
  match file.importedClasses simple with
  | [_] => (file.typeCtx.singleTypeHits simple.text).length = 1
  | [] => file.ownClassExists simple ∨
    match file.foundClasses simple with
    | [] => True
    | [_] => file.javaLangClassExists simple ∨ (file.typeCtx.onDemandHits simple.text).length = 1
    | _ => ¬ file.javaLangClassExists simple ∧ (file.typeCtx.onDemandHits simple.text).length ≠ 1
  | _ => 2 ≤ (file.typeCtx.singleTypeHits simple.text).length ∨
    file.typeCtx.singleTypeHits simple.text = [] ∧ ¬ file.ownClassExists simple ∧
      ¬ file.javaLangClassExists simple ∧ (file.typeCtx.onDemandHits simple.text).length ≠ 1

variable {file simple}

theorem resolve_eq : file.typeCtx.resolveSimpleStrict simple.text =
    lookup file.typeCtx.classExists [file.typeCtx.importedByName simple.text,
      [file.typeCtx.inOwnPackage simple.text], [SourceTypeCtx.inJavaLang simple.text],
      file.typeCtx.importedOnDemand simple.text] := by
  rw [SourceTypeCtx.resolveSimpleStrict_eq, SourceTypeCtx.levels, if_neg simple.not_mem_slash]

theorem scopedClass_eq : file.scopedClass simple =
    match file.importedClasses simple with
    | [] =>
      if file.typeCtx.classExists (file.typeCtx.inOwnPackage simple.text) then
        some (file.typeCtx.inOwnPackage simple.text)
      else
        match file.foundClasses simple with
        | [] => none
        | [found] => some found
        | _ => none
    | [imported] => some imported
    | _ => none := by
  rw [scopedClass, scopeLevels, lookupDistinct, lookupDistinct_singleton, lookupDistinct, lookupDistinct,
    ← importedClasses, ← foundClasses]
  rcases file.importedClasses simple with _ | ⟨imported, _ | ⟨second, rest⟩⟩
  · rcases file.foundClasses simple with _ | ⟨found, _ | ⟨second, rest⟩⟩ <;> rfl
  · rfl
  · rfl

theorem mem_importedClasses_of_hit {internal : String}
    (h : internal ∈ file.typeCtx.singleTypeHits simple.text) :
    internal ∈ file.importedClasses simple := by
  rw [SourceTypeCtx.singleTypeHits, List.mem_filter, importedByName_eq, List.mem_filterMap] at h
  obtain ⟨⟨decl, hdecl, htop⟩, hexists⟩ := h
  rw [importedClasses, List.mem_dedup, List.mem_filter, List.mem_flatMap]
  exact ⟨⟨decl, hdecl, mem_imported_of_importedAtTop simple htop⟩, hexists⟩

theorem mem_foundClasses_of_hit {internal : String}
    (h : internal ∈ file.typeCtx.onDemandHits simple.text) : internal ∈ file.foundClasses simple := by
  rw [SourceTypeCtx.onDemandHits, List.mem_filter, importedOnDemand_eq, List.mem_filterMap] at h
  obtain ⟨⟨decl, hdecl, htop⟩, hexists⟩ := h
  rw [foundClasses, List.mem_dedup, List.mem_filter, List.mem_cons, List.mem_flatMap]
  exact ⟨.inr ⟨decl, hdecl, mem_found_of_foundAtTop simple htop⟩, hexists⟩

theorem mem_foundClasses_of_javaLang (h : file.javaLangClassExists simple) :
    SourceTypeCtx.inJavaLang simple.text ∈ file.foundClasses simple := by
  rw [foundClasses, List.mem_dedup, List.mem_filter]
  exact ⟨List.mem_cons_self, h⟩

theorem resolve_of_hit {internal : String} (h : file.typeCtx.singleTypeHits simple.text = [internal]) :
    file.typeCtx.resolveSimpleStrict simple.text = some internal := by
  have hne : (file.typeCtx.importedByName simple.text).filter file.typeCtx.classExists ≠ [] := by
    rw [← SourceTypeCtx.singleTypeHits, h]
    exact List.cons_ne_nil internal []
  rw [resolve_eq, lookup_cons_eq_some_iff hne]
  exact h

theorem resolve_of_no_hit (h : file.typeCtx.singleTypeHits simple.text = []) :
    file.typeCtx.resolveSimpleStrict simple.text =
      if file.typeCtx.classExists (file.typeCtx.inOwnPackage simple.text) then
        some (file.typeCtx.inOwnPackage simple.text)
      else if file.typeCtx.classExists (SourceTypeCtx.inJavaLang simple.text) then
        some (SourceTypeCtx.inJavaLang simple.text)
      else lookup file.typeCtx.classExists [file.typeCtx.importedOnDemand simple.text] := by
  rw [resolve_eq, lookup_cons_of_none h, SourceTypeCtx.lookup_level, SourceTypeCtx.lookup_level]

theorem lookup_onDemand_eq_none_iff :
    lookup file.typeCtx.classExists [file.typeCtx.importedOnDemand simple.text] = none ↔
      (file.typeCtx.onDemandHits simple.text).length ≠ 1 := by
  rw [lookup_cons_eq_none_iff, ← SourceTypeCtx.onDemandHits, lookup, and_iff_left rfl,
    ← List.length_eq_zero_iff]
  omega

theorem resolve_eq_none_iff : file.typeCtx.resolveSimpleStrict simple.text = none ↔
    2 ≤ (file.typeCtx.singleTypeHits simple.text).length ∨
      file.typeCtx.singleTypeHits simple.text = [] ∧ ¬ file.ownClassExists simple ∧
        ¬ file.javaLangClassExists simple ∧ (file.typeCtx.onDemandHits simple.text).length ≠ 1 := by
  rw [resolve_eq, lookup_cons_eq_none_iff, ← SourceTypeCtx.singleTypeHits, SourceTypeCtx.lookup_level,
    SourceTypeCtx.lookup_level, ← lookup_onDemand_eq_none_iff, ownClassExists, javaLangClassExists]
  by_cases hown : file.typeCtx.classExists (file.typeCtx.inOwnPackage simple.text) = true
  · simp [hown]
  · by_cases hlang : file.typeCtx.classExists (SourceTypeCtx.inJavaLang simple.text) = true
    · simp [hown, hlang]
    · simp [hown, hlang]

theorem nested_ne_own (front : String) :
    front ++ "$" ++ simple.text ≠ file.typeCtx.inOwnPackage simple.text := by
  rw [SourceTypeCtx.inOwnPackage]
  cases file.typeCtx.package with
  | some pkg => exact nested_ne_slash simple front pkg
  | none => exact nested_ne_simple simple front

theorem nested_ne_javaLang (front : String) :
    front ++ "$" ++ simple.text ≠ SourceTypeCtx.inJavaLang simple.text :=
  nested_ne_slash simple front "java/lang"

theorem nested_not_mem_onDemand (front : String) :
    front ++ "$" ++ simple.text ∉ file.typeCtx.importedOnDemand simple.text := by
  rw [importedOnDemand_eq, List.mem_filterMap]
  rintro ⟨decl, -, htop⟩
  cases decl with
  | singleType qualifier name => cases htop
  | onDemand qualifier name =>
    rw [ImportDecl.foundAtTop, Option.some.injEq, joined_append] at htop
    exact nested_ne_slash simple front _ htop.symm

/-- Behind the single-type imports the code never answers with a nested class. -/
theorem resolve_ne_nested (h : file.typeCtx.singleTypeHits simple.text = []) (front : String) :
    file.typeCtx.resolveSimpleStrict simple.text ≠ some (front ++ "$" ++ simple.text) := by
  rw [resolve_of_no_hit h]
  split
  · exact fun heq => nested_ne_own front (Option.some.inj heq).symm
  · split
    · exact fun heq => nested_ne_javaLang front (Option.some.inj heq).symm
    · intro heq
      obtain ⟨before, level, after, hlevels, -, hhit⟩ := lookup_eq_some_iff.mp heq
      have hmem : level ∈ [file.typeCtx.importedOnDemand simple.text] := by
        rw [hlevels]
        exact List.mem_append_right before List.mem_cons_self
      rw [List.mem_singleton.mp hmem] at hhit
      have hcand := List.mem_of_mem_filter (hhit ▸ List.mem_singleton_self _)
      exact nested_not_mem_onDemand front hcand

/-- A class that a single-type import imports and that no hit is, is a nested one. -/
theorem nested_of_mem_importedClasses {internal : String} (h : internal ∈ file.importedClasses simple)
    (hno : internal ∉ file.typeCtx.singleTypeHits simple.text) :
    ∃ front, internal = front ++ "$" ++ simple.text := by
  rw [importedClasses, List.mem_dedup, List.mem_filter, List.mem_flatMap] at h
  obtain ⟨⟨decl, hdecl, himported⟩, hexists⟩ := h
  rcases nested_of_mem_imported simple himported with htop | hnested
  · refine absurd ?_ hno
    rw [SourceTypeCtx.singleTypeHits, List.mem_filter, importedByName_eq, List.mem_filterMap]
    exact ⟨⟨decl, hdecl, htop⟩, hexists⟩
  · exact hnested

theorem resolve_imported_iff {imported : String} (h : file.importedClasses simple = [imported]) :
    file.typeCtx.resolveSimpleStrict simple.text = some imported ↔
      (file.typeCtx.singleTypeHits simple.text).length = 1 := by
  have hhits : ∀ x ∈ file.typeCtx.singleTypeHits simple.text, x = imported := fun x hx => by
    have hmem := mem_importedClasses_of_hit hx
    rw [h] at hmem
    exact List.mem_singleton.mp hmem
  rcases hcode : file.typeCtx.singleTypeHits simple.text with _ | ⟨hit, _ | ⟨second, rest⟩⟩
  · have hmem : imported ∈ file.importedClasses simple := h ▸ List.mem_singleton_self imported
    obtain ⟨front, hfront⟩ := nested_of_mem_importedClasses hmem (by simp [hcode])
    rw [hfront]
    exact iff_of_false (resolve_ne_nested hcode front) (by simp)
  · have hhit : hit = imported := hhits hit (by simp [hcode])
    rw [resolve_of_hit hcode, hhit]
    exact iff_of_true rfl rfl
  · have hmany : 2 ≤ (file.typeCtx.singleTypeHits simple.text).length := by
      rw [hcode]
      exact Nat.le_add_left 2 rest.length
    rw [resolve_eq_none_iff.mpr (.inl hmany)]
    exact iff_of_false (by simp) (by simp)

/-- Behind the own package: the code asks `java.lang` first, the rules ask it with the imports. -/
theorem onDemand_eq_found_iff :
    (if file.typeCtx.classExists (SourceTypeCtx.inJavaLang simple.text) then
        some (SourceTypeCtx.inJavaLang simple.text)
      else lookup file.typeCtx.classExists [file.typeCtx.importedOnDemand simple.text]) =
      (match file.foundClasses simple with
        | [] => none
        | [found] => some found
        | _ => none) ↔
    match file.foundClasses simple with
    | [] => True
    | [_] => file.javaLangClassExists simple ∨ (file.typeCtx.onDemandHits simple.text).length = 1
    | _ => ¬ file.javaLangClassExists simple ∧ (file.typeCtx.onDemandHits simple.text).length ≠ 1 := by
  have hlang : file.javaLangClassExists simple →
      SourceTypeCtx.inJavaLang simple.text ∈ file.foundClasses simple := mem_foundClasses_of_javaLang
  have hhits : ∀ x ∈ file.typeCtx.onDemandHits simple.text, x ∈ file.foundClasses simple :=
    fun _ => mem_foundClasses_of_hit
  rw [javaLangClassExists] at hlang ⊢
  rw [← lookup_onDemand_eq_none_iff]
  generalize file.foundClasses simple = classes at hlang hhits ⊢
  rcases classes with _ | ⟨found, _ | ⟨second, rest⟩⟩
  · have hnone : file.typeCtx.onDemandHits simple.text = [] :=
      List.eq_nil_iff_forall_not_mem.mpr fun x hx => by cases hhits x hx
    have hno : ¬ file.typeCtx.classExists (SourceTypeCtx.inJavaLang simple.text) = true :=
      fun h => by cases hlang h
    rw [if_neg hno]
    refine iff_of_true (lookup_onDemand_eq_none_iff.mpr ?_) trivial
    rw [hnone]
    exact Nat.zero_ne_one
  · by_cases hexists : file.typeCtx.classExists (SourceTypeCtx.inJavaLang simple.text) = true
    · rw [if_pos hexists]
      exact iff_of_true (congrArg some (List.mem_singleton.mp (hlang hexists))) (.inl hexists)
    · rw [if_neg hexists, or_iff_right hexists]
      constructor
      · intro heq
        by_contra hlength
        rw [lookup_onDemand_eq_none_iff.mpr hlength] at heq
        cases heq
      · intro hlength
        obtain ⟨hit, hhit⟩ := List.length_eq_one_iff.mp hlength
        have hfound := List.mem_singleton.mp (hhits hit (hhit ▸ List.mem_singleton_self hit))
        have hne : (file.typeCtx.importedOnDemand simple.text).filter file.typeCtx.classExists ≠ [] := by
          rw [← SourceTypeCtx.onDemandHits, hhit]
          exact List.cons_ne_nil hit []
        rw [lookup_cons_eq_some_iff hne, ← SourceTypeCtx.onDemandHits, hhit, hfound]
  · by_cases hexists : file.typeCtx.classExists (SourceTypeCtx.inJavaLang simple.text) = true
    · rw [if_pos hexists]
      exact iff_of_false (by simp) fun h => h.1 hexists
    · rw [if_neg hexists, and_iff_right hexists]

theorem resolve_eq_scopedClass_iff :
    file.typeCtx.resolveSimpleStrict simple.text = file.scopedClass simple ↔ file.HitsDecide simple := by
  rw [scopedClass_eq, HitsDecide]
  rcases himported : file.importedClasses simple with _ | ⟨imported, _ | ⟨second, rest⟩⟩
  · have hnone : file.typeCtx.singleTypeHits simple.text = [] :=
      List.eq_nil_iff_forall_not_mem.mpr fun x hx => by
        have hmem := mem_importedClasses_of_hit hx
        rw [himported] at hmem
        cases hmem
    rw [resolve_of_no_hit hnone, ownClassExists]
    by_cases hown : file.typeCtx.classExists (file.typeCtx.inOwnPackage simple.text) = true
    · rw [if_pos hown, if_pos hown]
      exact iff_of_true rfl (.inl hown)
    · rw [if_neg hown, if_neg hown, or_iff_right hown]
      exact onDemand_eq_found_iff
  · exact resolve_imported_iff himported
  · exact resolve_eq_none_iff

/-! ## Order and repetition -/

def withImports (file : CompilationUnit) (imports : List ImportDecl) : CompilationUnit :=
  { file with imports := imports }

theorem resolve_perm {imports : List ImportDecl} (h : imports.Perm file.imports) :
    (file.withImports imports).typeCtx.resolveSimpleStrict simple.text =
      file.typeCtx.resolveSimpleStrict simple.text := by
  rw [resolve_eq, resolve_eq]
  refine lookup_perm (.cons ?_ (.cons (.refl _) (.cons (.refl _) (.cons ?_ .nil))))
  · rw [importedByName_eq, importedByName_eq]
    exact h.filterMap _
  · rw [importedOnDemand_eq, importedOnDemand_eq]
    exact h.filterMap _

theorem scopedClass_congr {imports : List ImportDecl} (h : ∀ decl, decl ∈ imports ↔ decl ∈ file.imports) :
    (file.withImports imports).scopedClass simple = file.scopedClass simple := by
  refine lookupDistinct_congr (.cons (fun x => ?_) (.cons (fun x => .rfl) (.cons (fun x => ?_) .nil)))
  · rw [List.mem_flatMap, List.mem_flatMap]
    exact exists_congr fun decl => and_congr_left' (h decl)
  · rw [List.mem_cons, List.mem_cons, List.mem_flatMap, List.mem_flatMap]
    exact or_congr_right (exists_congr fun decl => and_congr_left' (h decl))

/-- The one hit that the code answers with is this import's. -/
def DecidedBy (file : CompilationUnit) (simple : Identifier) (decl : ImportDecl) : Prop :=
  (∃ hit, decl.importedAtTop simple = some hit ∧ file.typeCtx.singleTypeHits simple.text = [hit]) ∨
    file.typeCtx.singleTypeHits simple.text = [] ∧ ¬ file.ownClassExists simple ∧
      ¬ file.javaLangClassExists simple ∧
      ∃ hit, decl.foundAtTop simple = some hit ∧ file.typeCtx.onDemandHits simple.text = [hit]

/-- The hits of an import. -/
def hitsOf (file : CompilationUnit) (candidate : Option String) : List String :=
  candidate.toList.filter file.typeCtx.classExists

theorem singleTypeHits_cons (decl : ImportDecl) :
    (file.withImports (decl :: file.imports)).typeCtx.singleTypeHits simple.text =
      file.hitsOf (decl.importedAtTop simple) ++ file.typeCtx.singleTypeHits simple.text := by
  rw [SourceTypeCtx.singleTypeHits, SourceTypeCtx.singleTypeHits, importedByName_eq, importedByName_eq,
    hitsOf, ← List.filter_append]
  cases hcand : decl.importedAtTop simple with
  | none => rw [withImports, List.filterMap_cons_none hcand]; rfl
  | some internal => rw [withImports, List.filterMap_cons_some hcand]; rfl

theorem onDemandHits_cons (decl : ImportDecl) :
    (file.withImports (decl :: file.imports)).typeCtx.onDemandHits simple.text =
      file.hitsOf (decl.foundAtTop simple) ++ file.typeCtx.onDemandHits simple.text := by
  rw [SourceTypeCtx.onDemandHits, SourceTypeCtx.onDemandHits, importedOnDemand_eq, importedOnDemand_eq,
    hitsOf, ← List.filter_append]
  cases hcand : decl.foundAtTop simple with
  | none => rw [withImports, List.filterMap_cons_none hcand]; rfl
  | some internal => rw [withImports, List.filterMap_cons_some hcand]; rfl

theorem resolve_of_hits : file.typeCtx.resolveSimpleStrict simple.text =
    match file.typeCtx.singleTypeHits simple.text with
    | _ :: _ :: _ => none
    | [hit] => some hit
    | [] =>
      if file.typeCtx.classExists (file.typeCtx.inOwnPackage simple.text) then
        some (file.typeCtx.inOwnPackage simple.text)
      else if file.typeCtx.classExists (SourceTypeCtx.inJavaLang simple.text) then
        some (SourceTypeCtx.inJavaLang simple.text)
      else
        match file.typeCtx.onDemandHits simple.text with
        | _ :: _ :: _ => none
        | [hit] => some hit
        | [] => none := by
  rw [SourceTypeCtx.resolveSimpleStrict, SourceTypeCtx.resolveSimpleInnerStrictUncached,
    if_neg simple.not_mem_slash]
  rfl

theorem hitsOf_some {internal : String} (h : file.typeCtx.classExists internal = true) :
    file.hitsOf (some internal) = [internal] := by
  rw [hitsOf, Option.toList_some, List.filter_singleton, h]
  rfl

theorem hitsOf_cases (candidate : Option String) : file.hitsOf candidate = [] ∨
    ∃ hit, candidate = some hit ∧ file.hitsOf candidate = [hit] ∧
      file.typeCtx.classExists hit = true := by
  cases candidate with
  | none => exact .inl rfl
  | some internal =>
    by_cases hexists : file.typeCtx.classExists internal = true
    · exact .inr ⟨internal, rfl, hitsOf_some hexists, hexists⟩
    · refine .inl ?_
      rw [hitsOf, Option.toList_some, List.filter_singleton, Bool.eq_false_of_not_eq_true hexists]
      rfl

theorem mem_singleTypeHits {decl : ImportDecl} {hit : String} (hdecl : decl ∈ file.imports)
    (htop : decl.importedAtTop simple = some hit) (hexists : file.typeCtx.classExists hit = true) :
    hit ∈ file.typeCtx.singleTypeHits simple.text := by
  rw [SourceTypeCtx.singleTypeHits, List.mem_filter, importedByName_eq, List.mem_filterMap]
  exact ⟨⟨decl, hdecl, htop⟩, hexists⟩

theorem mem_onDemandHits {decl : ImportDecl} {hit : String} (hdecl : decl ∈ file.imports)
    (htop : decl.foundAtTop simple = some hit) (hexists : file.typeCtx.classExists hit = true) :
    hit ∈ file.typeCtx.onDemandHits simple.text := by
  rw [SourceTypeCtx.onDemandHits, List.mem_filter, importedOnDemand_eq, List.mem_filterMap]
  exact ⟨⟨decl, hdecl, htop⟩, hexists⟩

theorem answer_repeated_iff {hits : List String} {hit : String} : hit ∈ hits →
    ((match [hit] ++ hits with
      | _ :: _ :: _ => none
      | [one] => some one
      | [] => none) =
      (match hits with
        | _ :: _ :: _ => none
        | [one] => some one
        | [] => none) ↔ hits ≠ [hit]) := by
  intro h
  rcases hits with _ | ⟨first, _ | ⟨second, rest⟩⟩
  · cases h
  · rw [List.mem_singleton.mp h]
    simp
  · simp

theorem resolve_repeated_iff {decl : ImportDecl} (hdecl : decl ∈ file.imports) :
    (file.withImports (decl :: file.imports)).typeCtx.resolveSimpleStrict simple.text =
      file.typeCtx.resolveSimpleStrict simple.text ↔ ¬ file.DecidedBy simple decl := by
  have hexists : (file.withImports (decl :: file.imports)).typeCtx.classExists =
      file.typeCtx.classExists := rfl
  have hown : (file.withImports (decl :: file.imports)).typeCtx.inOwnPackage simple.text =
      file.typeCtx.inOwnPackage simple.text := rfl
  rw [resolve_of_hits, resolve_of_hits, singleTypeHits_cons, onDemandHits_cons, hexists, hown, DecidedBy,
    ownClassExists, javaLangClassExists]
  rcases file.hitsOf_cases (decl.importedAtTop simple) with hnone | ⟨hit, htop, hone, hknown⟩
  · rw [hnone, List.nil_append]
    have hfirst : ¬ ∃ hit, decl.importedAtTop simple = some hit ∧
        file.typeCtx.singleTypeHits simple.text = [hit] := by
      rintro ⟨hit, htop, hhits⟩
      have hmem : hit ∈ file.typeCtx.singleTypeHits simple.text := hhits ▸ List.mem_singleton_self hit
      rw [htop, hitsOf_some (List.of_mem_filter hmem)] at hnone
      cases hnone
    rw [or_iff_right hfirst]
    rcases file.typeCtx.singleTypeHits simple.text with _ | ⟨first, _ | ⟨second, rest⟩⟩
    · dsimp only
      split
      · rename_i hpackage
        exact iff_of_true rfl fun h => h.2.1 hpackage
      · rename_i hpackage
        split
        · rename_i hlang
          exact iff_of_true rfl fun h => h.2.2.1 hlang
        · rename_i hlang
          rw [and_iff_right rfl, and_iff_right hpackage, and_iff_right hlang]
          rcases file.hitsOf_cases (decl.foundAtTop simple) with hno | ⟨hit, htop, hone, hknown⟩
          · rw [hno, List.nil_append]
            refine iff_of_true rfl ?_
            rintro ⟨hit, htop, hhits⟩
            have hmem : hit ∈ file.typeCtx.onDemandHits simple.text :=
              hhits ▸ List.mem_singleton_self hit
            rw [htop, hitsOf_some (List.of_mem_filter hmem)] at hno
            cases hno
          · rw [hone, answer_repeated_iff (mem_onDemandHits hdecl htop hknown), htop]
            simp
    · exact iff_of_true rfl fun h => by cases h.1
    · exact iff_of_true rfl fun h => by cases h.1
  · have hmem := mem_singleTypeHits hdecl htop hknown
    rw [hone, htop]
    generalize file.typeCtx.singleTypeHits simple.text = hits at hmem ⊢
    rcases hits with _ | ⟨first, _ | ⟨second, rest⟩⟩
    · cases hmem
    · rw [List.mem_singleton.mp hmem]
      simp
    · simp

/-- The answer is the class by the scoping rules exactly when the hits decide; the order of the imports
does not matter to it, and repeating an import does exactly when the answer is that import's hit. -/
theorem resolve_by_scoping_rules_iff (file : CompilationUnit) (simple : Identifier) :
    (file.typeCtx.resolveSimpleStrict simple.text = file.scopedClass simple ↔
      file.HitsDecide simple) ∧
    (∀ imports, imports.Perm file.imports →
      (file.withImports imports).typeCtx.resolveSimpleStrict simple.text =
        file.typeCtx.resolveSimpleStrict simple.text) ∧
    (∀ decl ∈ file.imports,
      ((file.withImports (decl :: file.imports)).typeCtx.resolveSimpleStrict simple.text =
        file.typeCtx.resolveSimpleStrict simple.text ↔ ¬ file.DecidedBy simple decl)) ∧
    ∀ imports, (∀ decl, decl ∈ imports ↔ decl ∈ file.imports) →
      (file.withImports imports).scopedClass simple = file.scopedClass simple :=
  ⟨resolve_eq_scopedClass_iff, fun _ h => resolve_perm h, fun _ h => resolve_repeated_iff h,
    fun _ h => scopedClass_congr h⟩

/-! ## Imports that lose a class -/

def utilName : Identifier where
  text := "util"
  nonempty := by decide
  plain := by simp

def mapName : Identifier where
  text := "Map"
  nonempty := by decide
  plain := by simp

def entryName : Identifier where
  text := "Entry"
  nonempty := by decide
  plain := by simp

def entryClass (internalName : String) : ClassMetadata :=
  .bare none "Entry" internalName none .unknown

/-- `import util.Entry;` twice. -/
def importedTwice : CompilationUnit where
  package := none
  imports := [.singleType [utilName] entryName, .singleType [utilName] entryName]
  view := .new [BucketIndex.new.addClasses [entryClass "util/Entry"]]

/-- `import util.*;`, with a class of the name in `java.lang`. -/
def hiddenAmbiguity : CompilationUnit where
  package := none
  imports := [.onDemand [] utilName]
  view := .new [BucketIndex.new.addClasses [entryClass "util/Entry", entryClass "java/lang/Entry"]]

/-- `import util.Map.Entry;` of a nested class. -/
def nestedImport : CompilationUnit where
  package := none
  imports := [.singleType [utilName, mapName] entryName]
  view := .new [BucketIndex.new.addClasses [entryClass "util/Map$Entry"]]

theorem repeated_import_lost :
    (importedTwice.typeCtx.resolveSimpleStrict entryName.text = none ∧
      importedTwice.scopedClass entryName = some "util/Entry") ∧
    (hiddenAmbiguity.typeCtx.resolveSimpleStrict entryName.text = some "java/lang/Entry" ∧
      hiddenAmbiguity.scopedClass entryName = none) ∧
    nestedImport.typeCtx.resolveSimpleStrict entryName.text = none ∧
      nestedImport.scopedClass entryName = some "util/Map$Entry" := by
  decide

end CompilationUnit

end JavaAnalyzer.Language
