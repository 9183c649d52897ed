import JavaAnalyzer.Index.SimpleNameSearch
import JavaAnalyzer.Language.Render
import JavaAnalyzer.Language.SourceTypeCtx

/-! # Imports in completion

`completion/import_utils.rs`: whether a class needs an import to be named by its simple name. With it
`resolve_imports` and `get_source_type_name` of `index/view.rs` and the source names of `index.rs`. -/

namespace JavaAnalyzer.Index
set_option autoImplicit false
open JavaAnalyzer.Language

namespace ClassMetadata

variable (c : ClassMetadata)

def fallbackNestedSourceName : String :=
  match c.innerClassOf with
  | some owner =>
    let out := slashesToDots owner
    (if out.isEmpty then out else out ++ ".") ++ c.name
  | none => slashesToDots c.internalName

/-- The dotted package, and a dot. -/
def packageText : String :=
  match c.package with
  | some pkg => slashesToDots pkg ++ "."
  | none => ""

def sourceName : String :=
  if c.innerClassOf.isSome then c.fallbackNestedSourceName else c.packageText ++ c.name

/-- The names of the owners, the outermost first, before `segments`. -/
def ownerSegments (resolveOwner : String → Option ClassMetadata) :
    ℕ → Option String → List String → Option (List String)
  | _, none, segments => some segments
  | 0, some _, _ => none
  | depth + 1, some owner, segments => (resolveOwner owner).bind fun c =>
      ownerSegments resolveOwner depth c.innerClassOf (c.name :: segments)

def qualifiedSourceNameWith (resolveOwner : String → Option ClassMetadata) : String :=
  if c.innerClassOf.isNone then c.sourceName
  else
    match ownerSegments resolveOwner 64 c.innerClassOf [c.name] with
    | some segments => c.packageText ++ ".".intercalate segments
    | none => c.fallbackNestedSourceName

end ClassMetadata

namespace IndexView

variable (view : IndexView)

def getSourceTypeName (internal : String) : Option String :=
  (view.getClass internal).map fun c => c.qualifiedSourceNameWith view.getClass

/-- The classes of one import. -/
def importedClasses (imp : String) : List ClassMetadata :=
  if isOnDemand imp then view.classesInPackage (onDemandPackage imp)
  else (view.getClass (BucketState.slashed imp)).toList

def resolveImports (imports : List String) : List ClassMetadata :=
  Dedup.dedupBy ClassMetadata.internalName [] (imports.flatMap view.importedClasses)

end IndexView

end JavaAnalyzer.Index

namespace JavaAnalyzer.Completion
open Index IndexView Text JavaAnalyzer.Language

/-! ## Whether an import is needed -/

def isJavaLang (fqn : String) : Bool :=
  match "java.lang.".toList.isPrefixOf? fqn.toList with
  | some rest => '.' ∉ rest
  | none => false

def samePackage (fqn enclosingPackage : String) : Bool :=
  if enclosingPackage.isEmpty then '.' ∉ fqn.toList
  else beforeLast '.' fqn.toList = some (slashesToDots enclosingPackage).toList

def wildcardCovers (wildcardImport fqn : String) : Bool :=
  match ".*".toList.isSuffixOf? wildcardImport.toList with
  | none => false
  | some pkg =>
    match pkg.isPrefixOf? fqn.toList with
    | some ('.' :: rest) => '.' ∉ rest
    | _ => false

def isImportNeeded (fqn : String) (existingImports : List String)
    (enclosingPackage : Option String) : Bool :=
  if '.' ∉ fqn.toList then false
  else if isJavaLang fqn then false
  else if existingImports.any (· = fqn) then false
  else if existingImports.any (wildcardCovers · fqn) then false
  else !enclosingPackage.any (samePackage fqn)

def sourceFqnOfMeta (c : ClassMetadata) (index : IndexView) : String :=
  (index.getSourceTypeName c.internalName).getD (String.ofList
    (c.internalName.toList.map fun ch => if ch = '/' ∨ ch = '$' then '.' else ch))

/-! ## Names of classes -/

/-- `build_internal_name` -/
def buildInternalName : Option String → String → String
  | some pkg, name => pkg ++ "/" ++ name
  | none, name => name

/-- A class that no other class declares. -/
structure IsTopLevel (c : ClassMetadata) : Prop where
  owner : c.innerClassOf = none
  internalName : c.internalName = buildInternalName c.package c.name

/-- The names that the parsers of class files and sources give: the package is what stands before the last
slash, and the parts are Java identifiers. -/
structure WellNamed (c : ClassMetadata) : Prop where
  package : ∃ tail : String, '/' ∉ tail.toList ∧ c.internalName = buildInternalName c.package tail
  plain : ∀ x ∈ c.internalName.toList, x ≠ '.' ∧ x ≠ '*'

theorem toList_buildInternalName (pkg name : String) :
    (buildInternalName (some pkg) name).toList = pkg.toList ++ '/' :: name.toList := by
  simp [buildInternalName, String.toList_append]

theorem buildInternalName_inj {package package' : Option String} {name name' : String}
    (hname : '/' ∉ name.toList) (hname' : '/' ∉ name'.toList)
    (h : buildInternalName package name = buildInternalName package' name') :
    package = package' ∧ name = name' := by
  have hlist := congrArg String.toList h
  cases package with
  | none =>
    cases package' with
    | none => exact ⟨rfl, h⟩
    | some pkg' =>
      rw [toList_buildInternalName] at hlist
      exact absurd (hlist ▸ List.mem_append_right _ (List.mem_cons_self ..)) hname
  | some pkg =>
    rw [toList_buildInternalName] at hlist
    cases package' with
    | none => exact absurd (hlist ▸ List.mem_append_right _ (List.mem_cons_self ..)) hname'
    | some pkg' =>
      rw [toList_buildInternalName] at hlist
      obtain ⟨hpkg, hback⟩ := append_cons_inj_last hname hname' hlist
      exact ⟨congrArg some (String.toList_inj.mp hpkg), String.toList_inj.mp hback⟩

section TopLevel

variable {c : ClassMetadata} (htop : IsTopLevel c) (hnamed : WellNamed c)

include htop hnamed

theorem IsTopLevel.not_mem_name : '/' ∉ c.name.toList := by
  obtain ⟨tail, htail, heq⟩ := hnamed.package
  have hsame := htop.internalName.symm.trans heq
  cases hpkg : c.package with
  | none =>
    rw [hpkg] at hsame
    exact (show c.name = tail from hsame) ▸ htail
  | some pkg =>
    rw [hpkg] at hsame
    have hlist := congrArg String.toList hsame
    rw [toList_buildInternalName, toList_buildInternalName] at hlist
    exact (List.cons.inj (List.append_cancel_left hlist)).2 ▸ htail

theorem IsTopLevel.plain_name {x : Char} (hx : x ∈ c.name.toList) : x ≠ '.' ∧ x ≠ '*' := by
  refine hnamed.plain x ?_
  rw [htop.internalName]
  cases c.package with
  | none => exact hx
  | some pkg =>
    rw [toList_buildInternalName]
    exact List.mem_append_right _ (List.mem_cons_of_mem _ hx)

theorem IsTopLevel.plain_package {pkg : String} (hpkg : c.package = some pkg) {x : Char}
    (hx : x ∈ pkg.toList) : x ≠ '.' ∧ x ≠ '*' := by
  refine hnamed.plain x ?_
  rw [htop.internalName, hpkg, toList_buildInternalName]
  exact List.mem_append_left _ hx

end TopLevel

/-! ## Dots and slashes -/

theorem slashed_slashesToDots {s : String} (h : ∀ x ∈ s.toList, x ≠ '.') :
    BucketState.slashed (slashesToDots s) = s := by
  apply String.toList_inj.mp
  rw [BucketState.slashed, slashesToDots, String.toList_ofList, String.toList_ofList, List.map_map]
  refine (List.map_congr_left fun x hx => ?_).trans (List.map_id _)
  by_cases hslash : x = '/'
  · simp [hslash]
  · simp [hslash, h x hx]

theorem mem_slashesToDots {s : String} {x : Char} (h : x ∈ (slashesToDots s).toList) :
    x = '.' ∨ x ∈ s.toList := by
  rw [slashesToDots, String.toList_ofList] at h
  obtain ⟨y, hy, rfl⟩ := List.mem_map.mp h
  by_cases hslash : y = '/'
  · exact .inl (if_pos hslash)
  · right
    rwa [if_neg hslash]

theorem slashesToDots_inj {s t : String} (hs : ∀ x ∈ s.toList, x ≠ '.') (ht : ∀ x ∈ t.toList, x ≠ '.')
    (h : (slashesToDots s).toList = (slashesToDots t).toList) : s = t := by
  rw [← slashed_slashesToDots hs, ← slashed_slashesToDots ht, String.toList_inj.mp h]

section SourceName

variable {c : ClassMetadata} (htop : IsTopLevel c)

include htop

theorem IsTopLevel.sourceName_eq : c.sourceName = c.packageText ++ c.name := by
  rw [ClassMetadata.sourceName, htop.owner, Option.isSome_none, if_neg Bool.false_ne_true]

theorem IsTopLevel.sourceName_of_none (h : c.package = none) : c.sourceName = c.name := by
  rw [htop.sourceName_eq, ClassMetadata.packageText, h]
  exact String.empty_append

theorem IsTopLevel.toList_sourceName {pkg : String} (h : c.package = some pkg) :
    c.sourceName.toList = (slashesToDots pkg).toList ++ '.' :: c.name.toList := by
  rw [htop.sourceName_eq, ClassMetadata.packageText, h]
  simp [String.toList_append]

variable (hnamed : WellNamed c)

include hnamed

theorem IsTopLevel.not_mem_dot : '.' ∉ c.name.toList := fun hmem =>
  (htop.plain_name hnamed hmem).1 rfl

theorem IsTopLevel.star_not_mem : '*' ∉ c.sourceName.toList := by
  intro hmem
  cases hpkg : c.package with
  | none =>
    rw [htop.sourceName_of_none hpkg] at hmem
    exact (htop.plain_name hnamed hmem).2 rfl
  | some pkg =>
    rw [htop.toList_sourceName hpkg, List.mem_append, List.mem_cons] at hmem
    rcases hmem with hmem | hdot | hmem
    · rcases mem_slashesToDots hmem with hdot | hmem
      · cases hdot
      · exact (htop.plain_package hnamed hpkg hmem).2 rfl
    · cases hdot
    · exact (htop.plain_name hnamed hmem).2 rfl

/-- The source name as an import is the internal name. -/
theorem IsTopLevel.slashed_sourceName : BucketState.slashed c.sourceName = c.internalName := by
  have hname : BucketState.slashed c.name = c.name :=
    slashed_of_not_mem (htop.not_mem_dot hnamed)
  rw [htop.internalName]
  cases hpkg : c.package with
  | none => rw [htop.sourceName_of_none hpkg, hname, buildInternalName]
  | some pkg =>
    have hback := slashed_slashesToDots fun x hx => (htop.plain_package hnamed hpkg hx).1
    rw [htop.sourceName_eq, ClassMetadata.packageText, hpkg, slashed_append, slashed_append, hback,
      hname, buildInternalName]
    rfl

theorem IsTopLevel.isOnDemand_sourceName : isOnDemand c.sourceName = false := by
  rw [Bool.eq_false_iff]
  intro hstar
  have hsuffix := List.isSuffixOf_iff_suffix.mp hstar
  exact htop.star_not_mem hnamed (hsuffix.subset (by simp))

theorem IsTopLevel.importsSimple_sourceName : importsSimple c.sourceName c.name = true := by
  rw [importsSimple, htop.isOnDemand_sourceName hnamed, Bool.not_false, Bool.true_and,
    Bool.or_eq_true, decide_eq_true_eq]
  cases hpkg : c.package with
  | none => exact .inl (htop.sourceName_of_none hpkg)
  | some pkg =>
    right
    refine List.isSuffixOf_iff_suffix.mpr ⟨(slashesToDots pkg).toList, ?_⟩
    rw [htop.toList_sourceName hpkg, String.toList_append]
    rfl

end SourceName

/-! ## What an import gives -/

section Imported

variable {view : IndexView} {imports : List String} {imp : String}

theorem imported_iff {n : String} : (∃ m ∈ view.resolveImports imports, m.internalName = n) ↔
    ∃ imp ∈ imports, ∃ m ∈ view.importedClasses imp, m.internalName = n := by
  constructor
  · rintro ⟨m, hm, hname⟩
    obtain ⟨-, pre, post, heq, -⟩ := Dedup.mem_dedupBy.mp hm
    have hmem : m ∈ imports.flatMap view.importedClasses := by rw [heq]; simp
    obtain ⟨imp, himp, hin⟩ := List.mem_flatMap.mp hmem
    exact ⟨imp, himp, m, hin, hname⟩
  · rintro ⟨imp, himp, m, hm, hname⟩
    have hfound : (view.resolveImports imports).find? (fun d => d.internalName = n) =
        (imports.flatMap view.importedClasses).find? fun d => d.internalName = n :=
      Dedup.find?_dedupBy (fun x y hxy => by rw [hxy]) _
    have hsome : ((view.resolveImports imports).find? fun d => d.internalName = n).isSome := by
      rw [hfound, List.find?_isSome]
      exact ⟨m, List.mem_flatMap.mpr ⟨imp, himp, hm⟩, decide_eq_true hname⟩
    obtain ⟨d, hd⟩ := Option.isSome_iff_exists.mp hsome
    exact ⟨d, List.mem_of_find?_eq_some hd, by simpa using List.find?_some hd⟩

/-- A single-type import gives the class that its text names. -/
theorem imported_singleType (hsingle : isOnDemand imp = false) {n : String} :
    (∃ m ∈ view.importedClasses imp, m.internalName = n) ↔
      BucketState.slashed imp = n ∧ (view.getClass n).isSome := by
  rw [importedClasses, hsingle, if_neg Bool.false_ne_true]
  constructor
  · rintro ⟨m, hm, hname⟩
    have hget := Option.mem_toList.mp hm
    obtain rfl : n = BucketState.slashed imp := hname.symm.trans (record_of_getClass hget).2
    exact ⟨rfl, Option.isSome_of_mem hget⟩
  · rintro ⟨rfl, hsome⟩
    obtain ⟨m, hget⟩ := Option.isSome_iff_exists.mp hsome
    exact ⟨m, Option.mem_toList.mpr hget, (record_of_getClass hget).2⟩

theorem slashed_onDemandPackage (imp : String) :
    BucketState.slashed (onDemandPackage imp) = onDemandPackage imp :=
  slashed_of_not_mem (not_mem_slashed _)

/-- An on-demand import gives the classes of its package. -/
theorem imported_onDemand (hstar : isOnDemand imp = true) {c : ClassMetadata} (hc : c ∈ view.records)
    (hpkg : c.package = some (onDemandPackage imp)) :
    ∃ m ∈ view.importedClasses imp, m.internalName = c.internalName := by
  rw [importedClasses, if_pos hstar]
  have hasks : (ListingKey.package (onDemandPackage imp)).asks c = true := by
    simp only [ListingKey.asks, slashed_onDemandPackage, hpkg, decide_true]
  exact listed_of_record hc hasks

end Imported

/-! ## Which classes need an import -/

theorem trimStars_of_not_mem {s : List Char} (h : '*' ∉ s) : trimStars s = s := by
  match s with
  | [] => rfl
  | [x] => exact trimStars.eq_2 _ (by simp)
  | x :: y :: rest =>
    refine trimStars.eq_2 _ ?_
    rintro rest' heq
    exact h ((List.cons.inj heq).1 ▸ List.mem_cons_self ..)

theorem wildcardCovers_iff {imp fqn : String} : wildcardCovers imp fqn = true ↔
    ∃ pkg rest, imp.toList = pkg ++ ".*".toList ∧ fqn.toList = pkg ++ '.' :: rest ∧ '.' ∉ rest := by
  unfold wildcardCovers
  constructor
  · intro h
    split at h
    case h_1 => cases h
    case h_2 pkg hsuffix =>
      split at h
      case h_1 rest hprefix =>
        exact ⟨pkg, rest, (List.isSuffixOf?_eq_some_iff_append_eq.mp hsuffix).symm,
          (List.isPrefixOf?_eq_some_iff_append_eq.mp hprefix).symm, of_decide_eq_true h⟩
      case h_2 => cases h
  · rintro ⟨pkg, rest, himp, hfqn, hrest⟩
    rw [List.isSuffixOf?_eq_some_iff_append_eq.mpr himp.symm]
    dsimp only
    rw [List.isPrefixOf?_eq_some_iff_append_eq.mpr hfqn.symm]
    exact decide_eq_true hrest

theorem isJavaLang_iff {fqn : String} : isJavaLang fqn = true ↔
    ∃ rest, fqn.toList = "java.lang.".toList ++ rest ∧ '.' ∉ rest := by
  unfold isJavaLang
  constructor
  · intro h
    split at h
    case h_1 rest hprefix =>
      exact ⟨rest, (List.isPrefixOf?_eq_some_iff_append_eq.mp hprefix).symm, of_decide_eq_true h⟩
    case h_2 => cases h
  · rintro ⟨rest, hfqn, hrest⟩
    rw [List.isPrefixOf?_eq_some_iff_append_eq.mpr hfqn.symm]
    exact decide_eq_true hrest

theorem toList_onDemandPackage {imp : String} {pkg : List Char} (h : imp.toList = pkg ++ ".*".toList)
    (hstar : '*' ∉ pkg) : onDemandPackage imp = BucketState.slashed (String.ofList pkg) := by
  have htrim : trimStars imp.toList.reverse = pkg.reverse := by
    rw [h, List.reverse_append]
    exact trimStars_of_not_mem fun hmem => hstar (List.mem_reverse.mp hmem)
  rw [onDemandPackage, htrim, List.reverse_reverse]

section Needed

variable {c : ClassMetadata} (htop : IsTopLevel c) (hnamed : WellNamed c)

include htop hnamed

theorem IsTopLevel.isJavaLang_iff {pkg : String} (hpkg : c.package = some pkg) :
    isJavaLang c.sourceName = true ↔ pkg = "java/lang" := by
  have hdot := htop.not_mem_dot hnamed
  rw [Completion.isJavaLang_iff, htop.toList_sourceName hpkg]
  constructor
  · rintro ⟨rest, heq, hrest⟩
    have hlast : (slashesToDots pkg).toList ++ '.' :: c.name.toList =
        (slashesToDots "java/lang").toList ++ '.' :: rest := heq
    refine slashesToDots_inj (fun x hx => (htop.plain_package hnamed hpkg hx).1) (by simp) ?_
    exact (append_cons_inj_last hdot hrest hlast).1
  · rintro rfl
    exact ⟨c.name.toList, rfl, hdot⟩

theorem IsTopLevel.package_of_wildcard {pkg imp : String} (hpkg : c.package = some pkg)
    (h : wildcardCovers imp c.sourceName = true) :
    isOnDemand imp = true ∧ pkg = onDemandPackage imp := by
  obtain ⟨front, rest, himp, hfqn, hrest⟩ := wildcardCovers_iff.mp h
  rw [htop.toList_sourceName hpkg] at hfqn
  have hfront := (append_cons_inj_last (htop.not_mem_dot hnamed) hrest hfqn).1
  have hplain : ∀ x ∈ pkg.toList, x ≠ '.' ∧ x ≠ '*' := fun x => htop.plain_package hnamed hpkg
  have hstar : '*' ∉ front := by
    rw [← hfront]
    intro hmem
    rcases mem_slashesToDots hmem with hdot | hmem
    · cases hdot
    · exact (hplain _ hmem).2 rfl
  refine ⟨List.isSuffixOf_iff_suffix.mpr ⟨front, himp.symm⟩, ?_⟩
  rw [toList_onDemandPackage himp hstar, ← hfront, String.ofList_toList,
    slashed_slashesToDots fun x hx => (hplain x hx).1]

theorem IsTopLevel.package_of_samePackage {pkg enclosing : String} (hpkg : c.package = some pkg)
    (hslashed : '.' ∉ enclosing.toList) (h : samePackage c.sourceName enclosing = true) :
    pkg = enclosing := by
  have hlist := htop.toList_sourceName hpkg
  rw [samePackage] at h
  split at h
  · have hdot : '.' ∈ c.sourceName.toList := by rw [hlist]; simp
    exact absurd hdot (of_decide_eq_true h)
  · rw [hlist, beforeLast_append_cons _ (htop.not_mem_dot hnamed)] at h
    refine slashesToDots_inj (fun x hx => (htop.plain_package hnamed hpkg hx).1) ?_ ?_
    · rintro x hx rfl
      exact hslashed hx
    · exact Option.some.inj (of_decide_eq_true h)

/-- A class that is neither imported nor in the package of the file needs no import if it is in `java.lang`
or in no package. -/
theorem IsTopLevel.importNeeded_iff {view : IndexView} {imports : List String}
    {enclosing : Option String} (hrecord : c ∈ view.records)
    (hslashed : ∀ e ∈ enclosing, '.' ∉ e.toList)
    (hother : ¬ ∃ m ∈ view.resolveImports imports, m.internalName = c.internalName)
    (hoffside : ∀ e ∈ enclosing, c.package ≠ some e) :
    isImportNeeded c.sourceName imports enclosing = true ↔
      c.package ≠ none ∧ c.package ≠ some "java/lang" := by
  rw [imported_iff] at hother
  cases hpkg : c.package with
  | none =>
    have hdot : '.' ∉ c.sourceName.toList := by
      rw [htop.sourceName_of_none hpkg]
      exact htop.not_mem_dot hnamed
    rw [isImportNeeded, if_pos hdot]
    simp
  | some pkg =>
    have hdot : '.' ∈ c.sourceName.toList := by rw [htop.toList_sourceName hpkg]; simp
    have hexact : imports.any (· = c.sourceName) = false := by
      rw [List.any_eq_false]
      intro imp himp heq
      obtain rfl := of_decide_eq_true heq
      refine hother ⟨_, himp, (imported_singleType (htop.isOnDemand_sourceName hnamed)).mpr ?_⟩
      obtain ⟨d, hd⟩ := getClass_of_record hrecord
      exact ⟨htop.slashed_sourceName hnamed, Option.isSome_of_mem hd⟩
    have hwildcard : imports.any (wildcardCovers · c.sourceName) = false := by
      rw [List.any_eq_false]
      intro imp himp hcovers
      obtain ⟨hstar, rfl⟩ := htop.package_of_wildcard hnamed hpkg hcovers
      exact hother ⟨imp, himp, imported_onDemand hstar hrecord hpkg⟩
    have hsame : enclosing.any (samePackage c.sourceName) = false := by
      rw [Bool.eq_false_iff]
      intro hany
      obtain ⟨e, rfl, he⟩ := (Option.any_eq_true _ _).mp hany
      obtain rfl := htop.package_of_samePackage hnamed hpkg (hslashed e rfl) he
      exact hoffside pkg rfl hpkg
    rw [isImportNeeded, if_neg (not_not.mpr hdot), hexact, hwildcard, hsame]
    by_cases hlang : isJavaLang c.sourceName = true
    · rw [if_pos hlang, (htop.isJavaLang_iff hnamed hpkg).mp hlang]
      simp
    · have hne : pkg ≠ "java/lang" := fun heq => hlang ((htop.isJavaLang_iff hnamed hpkg).mpr heq)
      rw [if_neg hlang]
      simp [hne]

end Needed

end JavaAnalyzer.Completion
