import JavaAnalyzer.Index.View
import JavaAnalyzer.Library.LevelLookup

/-! # Resolving simple type names

`SourceTypeCtx` of `language/java/type_ctx.rs`, over an index view. Its caches hold results of these
functions. -/

namespace JavaAnalyzer.Language
set_option autoImplicit false
open JavaAnalyzer.Index LevelLookup

/-! ## Import texts -/

def endsWith (s suffix : String) : Bool :=
  suffix.toList.isSuffixOf s.toList

/-- An import ends with `.*`. -/
def isOnDemand (imp : String) : Bool :=
  endsWith imp ".*"

/-- `trim_end_matches(".*")`, on the characters from the last one on. -/
def trimStars : List Char → List Char
  | '*' :: '.' :: rest => trimStars rest
  | s => s

/-- The package of an on-demand import, as an internal name. -/
def onDemandPackage (imp : String) : String :=
  BucketState.slashed (String.ofList (trimStars imp.toList.reverse).reverse)

/-- A single-type import imports a class of the simple name. -/
def importsSimple (imp simple : String) : Bool :=
  !isOnDemand imp && (imp = simple || endsWith imp ("." ++ simple))

/-! ## The context -/

/-- `from_view`. -/
structure SourceTypeCtx where
  package : Option String
  imports : List String
  view : IndexView

namespace SourceTypeCtx

variable (ctx : SourceTypeCtx) (simple : String)

def classExists (internal : String) : Bool :=
  (ctx.view.getClass internal).isSome

/-- Rule 1: single-type imports. -/
def importedByName : List String :=
  (ctx.imports.filter fun imp => importsSimple imp simple).map BucketState.slashed

/-- Rule 2: the own package. -/
def inOwnPackage : String :=
  match ctx.package with
  | some pkg => pkg ++ "/" ++ simple
  | none => simple

/-- Rule 3: `java.lang`. -/
def inJavaLang : String :=
  "java/lang/" ++ simple

/-- Rule 4: on-demand imports. -/
def importedOnDemand : List String :=
  (ctx.imports.filter isOnDemand).map fun imp => onDemandPackage imp ++ "/" ++ simple

def resolveSimpleInnerStrictUncached : Option String :=
  if '/' ∈ simple.toList then
    if ctx.classExists simple then some simple else none
  else
    match (ctx.importedByName simple).filter ctx.classExists with
    | _ :: _ :: _ => none
    | [hit] => some hit
    | [] =>
      if ctx.classExists (ctx.inOwnPackage simple) then some (ctx.inOwnPackage simple)
      else if ctx.classExists (inJavaLang simple) then some (inJavaLang simple)
      else
        match (ctx.importedOnDemand simple).filter ctx.classExists with
        | _ :: _ :: _ => none
        | [hit] => some hit
        | [] => none

def resolveSimpleStrict : Option String :=
  ctx.resolveSimpleInnerStrictUncached simple

/-- `resolve_simple` -/
def resolveSimple : String :=
  (ctx.resolveSimpleStrict simple).getD simple

/-! ## The rules are levels -/

/-- The candidates of a name. They do not depend on the view. -/
def levels : List (List String) :=
  if '/' ∈ simple.toList then [[simple]]
  else
    [ctx.importedByName simple, [ctx.inOwnPackage simple], [inJavaLang simple],
      ctx.importedOnDemand simple]

theorem lookup_level (known : String → Bool) (name : String) (levels : List (List String)) :
    lookup known ([name] :: levels) = if known name then some name else lookup known levels := by
  rw [lookup, List.filter_singleton]
  cases known name <;> rfl

/-- The classes that single-type imports of the name import. -/
def singleTypeHits : List String :=
  (ctx.importedByName simple).filter ctx.classExists

/-- The classes of the name in the packages of on-demand imports. -/
def onDemandHits : List String :=
  (ctx.importedOnDemand simple).filter ctx.classExists

theorem resolveSimpleStrict_eq : ctx.resolveSimpleStrict simple =
    lookup ctx.classExists (ctx.levels simple) := by
  unfold resolveSimpleStrict resolveSimpleInnerStrictUncached levels
  by_cases hslash : '/' ∈ simple.toList
  · rw [if_pos hslash, if_pos hslash, lookup_level]
    rfl
  · rw [if_neg hslash, if_neg hslash, lookup, lookup_level, lookup_level, lookup]
    cases hnamed : (ctx.importedByName simple).filter ctx.classExists with
    | nil =>
      dsimp only
      congr 1
      congr 1
      cases hstar : (ctx.importedOnDemand simple).filter ctx.classExists with
      | nil => rfl
      | cons hit rest => cases rest <;> rfl
    | cons hit rest => cases rest <;> rfl

/-- What a simple name stands for, rule by rule. -/
theorem resolveSimpleStrict_iff {internal : String} (hslash : '/' ∉ simple.toList) :
    ctx.resolveSimpleStrict simple = some internal ↔
      ctx.singleTypeHits simple = [internal] ∨ ctx.singleTypeHits simple = [] ∧
        if ctx.classExists (ctx.inOwnPackage simple) then ctx.inOwnPackage simple = internal
        else if ctx.classExists (inJavaLang simple) then inJavaLang simple = internal
        else ctx.onDemandHits simple = [internal] := by
  rw [resolveSimpleStrict_eq, levels, if_neg hslash, singleTypeHits, onDemandHits]
  by_cases hnamed : (ctx.importedByName simple).filter ctx.classExists = []
  · rw [lookup_cons_of_none hnamed, lookup_level, lookup_level, hnamed]
    have hempty : ([] : List String) ≠ [internal] := (List.cons_ne_nil internal []).symm
    rw [or_iff_right hempty, and_iff_right rfl]
    split
    · exact Option.some_inj
    · split
      · exact Option.some_inj
      · by_cases hstar : (ctx.importedOnDemand simple).filter ctx.classExists = []
        · rw [lookup_cons_of_none hstar, hstar]
          exact iff_of_false (by simp [lookup]) hempty
        · exact lookup_cons_eq_some_iff hstar
  · rw [lookup_cons_eq_some_iff hnamed, or_iff_left fun h => hnamed h.1]

end SourceTypeCtx

end JavaAnalyzer.Language
