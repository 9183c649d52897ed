import JavaAnalyzer.Completion.ImportUtils

/-! # Classes by simple name

The part of `ExpressionProvider::provide` of `language/java/completion/providers/expression.rs` for a text
without a dot: classes that are imported, then those of the package of the file, then all others, the last
ones with an import if `is_import_needed`. Scores are left out, and so are types behind a qualifier. -/

namespace JavaAnalyzer.Completion
set_option autoImplicit false
open Index IndexView Text JavaAnalyzer.Language

inductive CandidateSourceGroup where
  | imported
  | samePackage
  | global
deriving DecidableEq, Repr

structure CandidateSeed where
  classMeta : ClassMetadata
  sourceGroup : CandidateSourceGroup
deriving DecidableEq

/-- What the provider puts into a candidate; the kind is always `ClassName`. -/
structure ClassCandidate where
  label : String
  insertText : String
  detail : String
  requiredImport : Option String
deriving DecidableEq, Repr

def reachedLimit (len : ℕ) (limit : Option ℕ) : Bool :=
  limit.any fun effectiveLimit => effectiveLimit ≤ len

/-- The seeds so far, and the names of the classes that were looked at. -/
structure Collected where
  seeds : List CandidateSeed
  seenInternals : List String

/-- A call of `provide`. The package is that of the file as an internal name, and the index holds classes
under the names that the parsers give. -/
structure ExpressionCall where
  index : IndexView
  matcher : FuzzyMatcher
  /-- `str::to_lowercase` -/
  toLowercase : String → String
  hasher : HashOrder ClassMetadata
  typed : String
  limit : Option ℕ
  existingImports : List String
  enclosingPackage : Option String
  enclosingInternalName : Option String
  unqualified : '.' ∉ typed.toList
  slashed : ∀ pkg ∈ enclosingPackage, '.' ∉ pkg.toList
  wellNamed : ∀ c ∈ index.records, WellNamed c

namespace ExpressionCall

variable (call : ExpressionCall)

/-- `VisibilityFilter::allows` -/
def allows (classMeta : ClassMetadata) : Bool :=
  if classMeta.innerClassOf.isNone then true
  else
    let inners := (call.enclosingInternalName.map call.index.directInnerClassesOf).getD []
    (inners.find? fun inner => inner.name = classMeta.name).any fun inner =>
      inner.internalName = classMeta.internalName

def fuzzyMatch (pattern candidate : String) : Option ℕ :=
  if pattern.isEmpty then some 0 else call.matcher.score .ignore pattern candidate

def isMatch (classMeta : ClassMetadata) : Bool :=
  call.typed.isEmpty ||
    (call.fuzzyMatch (call.toLowercase call.typed) (call.toLowercase classMeta.name)).isSome

/-- One of the three loops. A class counts as seen before its name is matched. -/
def collect (group : CandidateSourceGroup) (accepts : ClassMetadata → Bool) :
    Collected → List ClassMetadata → Collected
  | found, [] => found
  | found, classMeta :: rest =>
    if reachedLimit found.seeds.length call.limit then found
    else if !accepts classMeta then collect group accepts found rest
    else if classMeta.internalName ∈ found.seenInternals then collect group accepts found rest
    else
      let seen := classMeta.internalName :: found.seenInternals
      if call.isMatch classMeta then
        collect group accepts ⟨found.seeds ++ [⟨classMeta, group⟩], seen⟩ rest
      else collect group accepts ⟨found.seeds, seen⟩ rest

def imported : List ClassMetadata :=
  call.index.resolveImports call.existingImports

def isImported (classMeta : ClassMetadata) : Bool :=
  call.imported.any fun m => m.internalName = classMeta.internalName

def fuzzyPool : List ClassMetadata :=
  if call.typed.isEmpty then []
  else call.index.fuzzySearchClasses call.matcher call.hasher call.typed (call.limit.getD 1024)

def samePackagePool : List ClassMetadata :=
  match call.enclosingPackage with
  | none => []
  | some pkg =>
    if call.typed.isEmpty then call.index.classesInPackage pkg
    else call.fuzzyPool.filter fun m => m.package = some pkg

def inCurrentPackage (classMeta : ClassMetadata) : Bool :=
  call.enclosingPackage.any fun pkg => classMeta.package = some pkg

def seeds : List CandidateSeed :=
  let imported := call.collect .imported call.allows ⟨[], []⟩ call.imported
  let samePackage := call.collect .samePackage
    (fun m => call.allows m && !call.isImported m) imported call.samePackagePool
  let global := call.collect .global
    (fun m => !call.inCurrentPackage m && call.allows m && !call.isImported m) samePackage
    call.fuzzyPool
  global.seeds

def decorate (seed : CandidateSeed) : ClassCandidate :=
  let fqn := sourceFqnOfMeta seed.classMeta call.index
  { label := seed.classMeta.name
    insertText := seed.classMeta.name
    detail := fqn
    requiredImport :=
      if seed.sourceGroup = .global ∧
          isImportNeeded fqn call.existingImports call.enclosingPackage = true then some fqn
      else none }

/-- The candidates, and whether there may be more. -/
def provide : List ClassCandidate × Bool :=
  if call.limit = some 0 then ([], true)
  else (call.seeds.map call.decorate, reachedLimit call.seeds.length call.limit)

/-! ## What is offered -/

variable {call}

theorem mem_collect {group : CandidateSourceGroup} {accepts : ClassMetadata → Bool}
    {found : Collected} {l : List ClassMetadata} {seed : CandidateSeed}
    (h : seed ∈ (call.collect group accepts found l).seeds) : seed ∈ found.seeds ∨
      seed.sourceGroup = group ∧ seed.classMeta ∈ l ∧ accepts seed.classMeta = true := by
  induction l generalizing found with
  | nil => exact .inl h
  | cons c l ih =>
    have hrest {found' : Collected} (h' : seed ∈ (call.collect group accepts found' l).seeds) :
        seed ∈ found'.seeds ∨ seed.sourceGroup = group ∧ seed.classMeta ∈ c :: l ∧
          accepts seed.classMeta = true :=
      (ih h').imp_right fun hgroup => ⟨hgroup.1, List.mem_cons_of_mem _ hgroup.2.1, hgroup.2.2⟩
    rw [collect] at h
    split at h
    · exact .inl h
    · split at h
      · exact hrest h
      · rename_i haccepts
        split at h
        · exact hrest h
        · dsimp only at h
          split at h
          · rcases hrest h with hseed | hseed
            · rcases List.mem_append.mp hseed with hseed | hseed
              · exact .inl hseed
              · obtain rfl := List.mem_singleton.mp hseed
                exact .inr ⟨rfl, List.mem_cons_self .., by simpa using haccepts⟩
            · exact .inr hseed
          · have hlater := hrest h
            exact hlater

theorem mem_records_of_imported {c : ClassMetadata} (h : c ∈ call.imported) :
    c ∈ call.index.records := by
  obtain ⟨-, pre, post, heq, -⟩ := Dedup.mem_dedupBy.mp h
  have hmem : c ∈ call.existingImports.flatMap call.index.importedClasses := by rw [heq]; simp
  obtain ⟨imp, -, hin⟩ := List.mem_flatMap.mp hmem
  rw [importedClasses] at hin
  split at hin
  · exact mem_records_of_listing (k := .package (onDemandPackage imp)) hin
  · exact (record_of_getClass (Option.mem_toList.mp hin)).1

theorem mem_records_of_fuzzyPool {c : ClassMetadata} (h : c ∈ call.fuzzyPool) :
    c ∈ call.index.records := by
  rw [fuzzyPool] at h
  split at h
  · cases h
  · exact mem_records_of_fuzzySearch h

theorem samePackagePool_cases {c : ClassMetadata} (h : c ∈ call.samePackagePool) :
    c ∈ call.index.records ∧ c.package = call.enclosingPackage := by
  rw [samePackagePool] at h
  split at h
  · cases h
  · rename_i pkg hpkg
    rw [hpkg]
    split at h
    · have hlisted : c ∈ call.index.listing (.package pkg) := h
      have hasks := List.of_mem_filter (mem_listing_iff.mp hlisted).mem
      rw [ListingKey.asks, slashed_of_not_mem (call.slashed pkg hpkg)] at hasks
      exact ⟨mem_records_of_listing hlisted, of_decide_eq_true hasks⟩
    · obtain ⟨hpool, hsame⟩ := List.mem_filter.mp h
      exact ⟨mem_records_of_fuzzyPool hpool, of_decide_eq_true hsame⟩

theorem isImported_iff {c : ClassMetadata} : call.isImported c = true ↔
    ∃ m ∈ call.imported, m.internalName = c.internalName := by
  simp [isImported]

/-- Where a seed of each group comes from. -/
theorem seed_cases {seed : CandidateSeed} (h : seed ∈ call.seeds) :
    (seed.sourceGroup = .imported ∧ seed.classMeta ∈ call.imported) ∨
      (seed.sourceGroup = .samePackage ∧ seed.classMeta ∈ call.samePackagePool) ∨
        (seed.sourceGroup = .global ∧ seed.classMeta ∈ call.fuzzyPool ∧
          call.inCurrentPackage seed.classMeta = false ∧ call.isImported seed.classMeta = false) := by
  rcases mem_collect h with h | ⟨hgroup, hpool, haccepts⟩
  · rcases mem_collect h with h | ⟨hgroup, hpool, -⟩
    · rcases mem_collect h with h | ⟨hgroup, hpool, -⟩
      · cases h
      · exact .inl ⟨hgroup, hpool⟩
    · exact .inr (.inl ⟨hgroup, hpool⟩)
  · simp only [Bool.and_eq_true, Bool.not_eq_true'] at haccepts
    exact .inr (.inr ⟨hgroup, hpool, haccepts.1.1, haccepts.2⟩)

theorem seed_record {seed : CandidateSeed} (h : seed ∈ call.seeds) :
    seed.classMeta ∈ call.index.records := by
  rcases seed_cases h with ⟨-, hmem⟩ | ⟨-, hmem⟩ | ⟨-, hmem, -⟩
  · exact mem_records_of_imported hmem
  · exact (samePackagePool_cases hmem).1
  · exact mem_records_of_fuzzyPool hmem

/-! ## The import of a candidate -/

/-- Every record of the name is a top-level class. -/
def TopLevelIn (view : IndexView) (internal : String) : Prop :=
  ∀ r ∈ view.recordsNamed internal, IsTopLevel r

/-- Imported, in the package of the file, in `java.lang` or in no package. -/
def NeedsNoImport (call : ExpressionCall) (c : ClassMetadata) : Prop :=
  (∃ m ∈ call.imported, m.internalName = c.internalName) ∨ c.package = call.enclosingPackage ∨
    c.package = some "java/lang" ∨ c.package = none

section Offered

variable {seed : CandidateSeed} (hseed : seed ∈ call.seeds)
  (htop : TopLevelIn call.index seed.classMeta.internalName)

include hseed htop

theorem seed_topLevel : IsTopLevel seed.classMeta :=
  htop seed.classMeta (mem_recordsNamed.mpr ⟨seed_record hseed, rfl⟩)

theorem sourceFqn_eq : sourceFqnOfMeta seed.classMeta call.index = seed.classMeta.sourceName := by
  have hc := seed_topLevel hseed htop
  have hrecord := seed_record hseed
  obtain ⟨d, hd⟩ := getClass_of_record hrecord
  obtain ⟨hdrecord, hdname⟩ := record_of_getClass hd
  have hdtop : IsTopLevel d := htop d (mem_recordsNamed.mpr ⟨hdrecord, hdname⟩)
  obtain ⟨hpkg, hname⟩ := buildInternalName_inj
    (hdtop.not_mem_name (call.wellNamed d hdrecord)) (hc.not_mem_name (call.wellNamed _ hrecord))
    (hdtop.internalName.symm.trans (hdname.trans hc.internalName))
  rw [sourceFqnOfMeta, getSourceTypeName, hd, Option.map_some, Option.getD_some,
    ClassMetadata.qualifiedSourceNameWith, hdtop.owner, Option.isNone_none, if_pos rfl,
    hdtop.sourceName_eq, hc.sourceName_eq, ClassMetadata.packageText, ClassMetadata.packageText, hpkg,
    hname]

theorem required_of_not_needed (h : NeedsNoImport call seed.classMeta) :
    (call.decorate seed).requiredImport = none := by
  refine if_neg ?_
  rintro ⟨hglobal, hneeded⟩
  have hrecord := seed_record hseed
  rcases seed_cases hseed with ⟨hgroup, -⟩ | ⟨hgroup, -⟩ | ⟨-, -, hoffside, hother⟩
  · rw [hglobal] at hgroup
    cases hgroup
  · rw [hglobal] at hgroup
    cases hgroup
  · rw [sourceFqn_eq hseed htop] at hneeded
    have hnot : ¬ ∃ m ∈ call.imported, m.internalName = seed.classMeta.internalName := by
      rw [← isImported_iff, hother]
      exact Bool.false_ne_true
    have hne : ∀ e ∈ call.enclosingPackage, seed.classMeta.package ≠ some e := by
      intro e he heq
      rw [inCurrentPackage, Option.mem_def.mp he, heq] at hoffside
      simp at hoffside
    obtain ⟨hnone, hlang⟩ := ((seed_topLevel hseed htop).importNeeded_iff
      (call.wellNamed _ hrecord) hrecord call.slashed hnot hne).mp hneeded
    rcases h with h | h | h | h
    · exact hnot h
    · cases hpkg : call.enclosingPackage with
      | none => exact hnone (h.trans hpkg)
      | some e => exact hne e hpkg (h.trans hpkg)
    · exact hlang h
    · exact hnone h

theorem required_of_needed (h : ¬ NeedsNoImport call seed.classMeta) :
    (call.decorate seed).requiredImport = some seed.classMeta.sourceName := by
  obtain ⟨hother, hpkg, hlang, hnone⟩ : (¬ ∃ m ∈ call.imported,
      m.internalName = seed.classMeta.internalName) ∧
        seed.classMeta.package ≠ call.enclosingPackage ∧
          seed.classMeta.package ≠ some "java/lang" ∧ seed.classMeta.package ≠ none := by
    simpa only [NeedsNoImport, not_or] using h
  have hrecord := seed_record hseed
  have hglobal : seed.sourceGroup = .global := by
    rcases seed_cases hseed with ⟨-, hmem⟩ | ⟨-, hmem⟩ | ⟨hgroup, -⟩
    · exact absurd ⟨_, hmem, rfl⟩ hother
    · exact absurd (samePackagePool_cases hmem).2 hpkg
    · exact hgroup
  have hneeded := ((seed_topLevel hseed htop).importNeeded_iff (call.wellNamed _ hrecord) hrecord
    call.slashed hother fun e he heq => hpkg (heq.trans (Option.mem_def.mp he).symm)).mpr
      ⟨hnone, hlang⟩
  rw [← sourceFqn_eq hseed htop] at hneeded ⊢
  exact if_pos ⟨hglobal, hneeded⟩

end Offered

/-! ## What the inserted name means -/

/-- The type context of the file with a list of imports. -/
def typeCtx (call : ExpressionCall) (imports : List String) : SourceTypeCtx :=
  ⟨call.enclosingPackage, imports, call.index⟩

def fileCtx (call : ExpressionCall) : SourceTypeCtx :=
  call.typeCtx call.existingImports

/-- The simple name means the class, once the import of the candidate stands anywhere in the list. -/
def MeansClass (call : ExpressionCall) (seed : CandidateSeed) : Prop :=
  match (call.decorate seed).requiredImport with
  | none =>
    call.fileCtx.resolveSimpleStrict seed.classMeta.name = some seed.classMeta.internalName
  | some imp => ∀ before after, call.existingImports = before ++ after →
      (call.typeCtx (before ++ imp :: after)).resolveSimpleStrict seed.classMeta.name =
        some seed.classMeta.internalName

/-- A class that a name means through an import is one of the imported classes. -/
def ImportsExpanded (call : ExpressionCall) : Prop :=
  ∀ simple internal, call.fileCtx.resolveSimpleStrict simple = some internal →
    internal ∈ call.fileCtx.importedByName simple ∨
      internal ∈ call.fileCtx.importedOnDemand simple →
    ∃ m ∈ call.imported, m.internalName = internal

/-- The single-type imports of the name give the class once and nothing else, or they give nothing, and the
package of the file, `java.lang` and the on-demand imports give the class before any other. -/
def ComesFirst (call : ExpressionCall) (c : ClassMetadata) : Prop :=
  call.fileCtx.singleTypeHits c.name = [c.internalName] ∨
    call.fileCtx.singleTypeHits c.name = [] ∧ (c.package = call.enclosingPackage ∨
      call.fileCtx.classExists (call.fileCtx.inOwnPackage c.name) = false ∧
        (c.package = some "java/lang" ∨
          call.fileCtx.classExists (SourceTypeCtx.inJavaLang c.name) = false ∧
            call.fileCtx.onDemandHits c.name = [c.internalName]))

/-- A class without an import comes first, and for a class with an import the single-type imports of the
name give nothing. -/
def Unrivalled (call : ExpressionCall) (c : ClassMetadata) : Prop :=
  (NeedsNoImport call c → call.ComesFirst c) ∧
    (¬ NeedsNoImport call c → call.fileCtx.singleTypeHits c.name = [])

theorem imports_expanded (call : ExpressionCall) : call.ImportsExpanded := by
  intro simple internal hresolve himport
  have hexists : call.fileCtx.classExists internal = true := by
    rw [SourceTypeCtx.resolveSimpleStrict_eq] at hresolve
    exact LevelLookup.known_of_lookup hresolve
  refine imported_iff.mpr ?_
  rcases himport with hmem | hmem
  · obtain ⟨imp, himp, rfl⟩ := List.mem_map.mp hmem
    obtain ⟨himp, hnames⟩ := List.mem_filter.mp himp
    have hsingle : isOnDemand imp = false := by
      simpa using (Bool.and_eq_true_iff.mp hnames).1
    exact ⟨imp, himp, (imported_singleType hsingle).mpr ⟨rfl, hexists⟩⟩
  · obtain ⟨imp, himp, hinternal⟩ := List.mem_map.mp hmem
    obtain ⟨himp, hstar⟩ := List.mem_filter.mp himp
    have hbuild : buildInternalName (some (onDemandPackage imp)) simple = internal := hinternal
    obtain ⟨r, hr⟩ := Option.isSome_iff_exists.mp hexists
    obtain ⟨hrecord, hname⟩ := record_of_getClass hr
    obtain ⟨tail, htail, heq⟩ := (call.wellNamed r hrecord).package
    have hslash : '/' ∉ simple.toList := by
      intro hslash
      rw [SourceTypeCtx.resolveSimpleStrict, SourceTypeCtx.resolveSimpleInnerStrictUncached,
        if_pos hslash] at hresolve
      split at hresolve
      · have hsimple := Option.some.inj hresolve
        have hlen := congrArg List.length (congrArg String.toList (hbuild.trans hsimple.symm))
        rw [toList_buildInternalName, List.length_append, List.length_cons] at hlen
        omega
      · cases hresolve
    have hpkg : r.package = some (onDemandPackage imp) := by
      refine (buildInternalName_inj htail hslash ?_).1
      rw [← heq, hname, hbuild]
    obtain ⟨m, hm, hmname⟩ := imported_onDemand hstar hrecord hpkg
    exact ⟨imp, himp, m, hm, hmname.trans hname⟩

theorem inOwnPackage_eq (call : ExpressionCall) (imports : List String) (simple : String) :
    (call.typeCtx imports).inOwnPackage simple = buildInternalName call.enclosingPackage simple := by
  rw [SourceTypeCtx.inOwnPackage, typeCtx]
  cases call.enclosingPackage <;> rfl

theorem singleTypeHits_append (call : ExpressionCall) (before after : List String) (simple : String) :
    (call.typeCtx (before ++ after)).singleTypeHits simple =
      (call.typeCtx before).singleTypeHits simple ++ (call.typeCtx after).singleTypeHits simple := by
  simp only [SourceTypeCtx.singleTypeHits, SourceTypeCtx.importedByName, typeCtx, List.filter_append,
    List.map_append]
  rfl

theorem singleTypeHits_cons {imp simple : String} (after : List String)
    (hnames : importsSimple imp simple = true)
    (hexists : (call.index.getClass (BucketState.slashed imp)).isSome) :
    (call.typeCtx (imp :: after)).singleTypeHits simple =
      BucketState.slashed imp :: (call.typeCtx after).singleTypeHits simple := by
  have hfilter : (imp :: after).filter (fun i => importsSimple i simple) =
      imp :: after.filter fun i => importsSimple i simple := List.filter_cons_of_pos hnames
  rw [SourceTypeCtx.singleTypeHits, SourceTypeCtx.importedByName]
  dsimp only [typeCtx]
  rw [hfilter, List.map_cons]
  exact List.filter_cons_of_pos hexists

section Meaning

variable {seed : CandidateSeed} (hseed : seed ∈ call.seeds)
  (htop : TopLevelIn call.index seed.classMeta.internalName)

include hseed htop

/-- An added import of the class decides the name exactly when no other import gives the name. -/
theorem resolves_with_import {before after : List String}
    (himports : call.existingImports = before ++ after) :
    (call.typeCtx (before ++ seed.classMeta.sourceName :: after)).resolveSimpleStrict
        seed.classMeta.name = some seed.classMeta.internalName ↔
      call.fileCtx.singleTypeHits seed.classMeta.name = [] := by
  have hc := seed_topLevel hseed htop
  have hrecord := seed_record hseed
  have hnamed := call.wellNamed _ hrecord
  have hslashed := hc.slashed_sourceName hnamed
  have hexists : (call.index.getClass (BucketState.slashed seed.classMeta.sourceName)).isSome := by
    obtain ⟨d, hd⟩ := getClass_of_record hrecord
    rw [hslashed]
    exact Option.isSome_of_mem hd
  have hcons := singleTypeHits_cons after (hc.importsSimple_sourceName hnamed) hexists
  have hhits := singleTypeHits_append call before (seed.classMeta.sourceName :: after)
    seed.classMeta.name
  rw [hcons, hslashed] at hhits
  rw [SourceTypeCtx.resolveSimpleStrict_iff _ _ (hc.not_mem_name hnamed), hhits, fileCtx, himports,
    singleTypeHits_append, or_iff_left (fun h => by simp at h), List.append_eq_nil_iff]
  constructor
  · intro h
    have hlen := congrArg List.length h
    rw [List.length_append, List.length_cons, List.length_singleton] at hlen
    exact ⟨List.length_eq_zero_iff.mp (by omega), List.length_eq_zero_iff.mp (by omega)⟩
  · rintro ⟨hbefore, hafter⟩
    rw [hbefore, hafter, List.nil_append]

theorem resolves_iff : call.fileCtx.resolveSimpleStrict seed.classMeta.name =
    some seed.classMeta.internalName ↔ call.ComesFirst seed.classMeta := by
  have hc := seed_topLevel hseed htop
  have hrecord := seed_record hseed
  have hslash := hc.not_mem_name (call.wellNamed _ hrecord)
  have hexists : call.fileCtx.classExists seed.classMeta.internalName := by
    obtain ⟨d, hd⟩ := getClass_of_record hrecord
    exact Option.isSome_of_mem hd
  have hplace (package : Option String) : buildInternalName package seed.classMeta.name =
      seed.classMeta.internalName ↔ seed.classMeta.package = package := by
    rw [hc.internalName]
    exact ⟨fun h => (buildInternalName_inj hslash hslash h).1.symm, fun h => by rw [h]⟩
  have hown : call.fileCtx.inOwnPackage seed.classMeta.name = seed.classMeta.internalName ↔
      seed.classMeta.package = call.enclosingPackage := by
    rw [← hplace call.enclosingPackage, fileCtx, inOwnPackage_eq]
  have hlang : SourceTypeCtx.inJavaLang seed.classMeta.name = seed.classMeta.internalName ↔
      seed.classMeta.package = some "java/lang" := hplace (some "java/lang")
  rw [SourceTypeCtx.resolveSimpleStrict_iff _ _ hslash, ComesFirst, ← hown, ← hlang]
  refine or_congr_right (and_congr_right fun _ => ?_)
  split
  · rename_i hownExists
    rw [or_iff_left fun h => absurd hownExists (by rw [h.1]; exact Bool.false_ne_true)]
  · rename_i hownMissing
    have hownFalse := Bool.eq_false_iff.mpr hownMissing
    have hownNot : ¬ call.fileCtx.inOwnPackage seed.classMeta.name = seed.classMeta.internalName :=
      fun heq => hownMissing (by rw [heq]; exact hexists)
    rw [or_iff_right hownNot, and_iff_right hownFalse]
    split
    · rename_i hlangExists
      rw [or_iff_left fun h => absurd hlangExists (by rw [h.1]; exact Bool.false_ne_true)]
    · rename_i hlangMissing
      have hlangFalse := Bool.eq_false_iff.mpr hlangMissing
      have hlangNot : ¬ SourceTypeCtx.inJavaLang seed.classMeta.name = seed.classMeta.internalName :=
        fun heq => hlangMissing (by rw [heq]; exact hexists)
      rw [or_iff_right hlangNot, and_iff_right hlangFalse]

end Meaning

/-- The candidate means its class, and the imports are read alike, exactly when the class is unrivalled. -/
theorem completion_reads_imports_iff (call : ExpressionCall) (seed : CandidateSeed)
    (hseed : seed ∈ call.seeds) (htop : TopLevelIn call.index seed.classMeta.internalName) :
    call.MeansClass seed ∧ call.ImportsExpanded ↔ call.Unrivalled seed.classMeta := by
  rw [and_iff_left call.imports_expanded, MeansClass, Unrivalled]
  by_cases hneeds : NeedsNoImport call seed.classMeta
  · rw [required_of_not_needed hseed htop hneeds]
    dsimp only
    rw [resolves_iff hseed htop]
    exact ⟨fun h => ⟨fun _ => h, fun hnot => absurd hneeds hnot⟩, fun h => h.1 hneeds⟩
  · rw [required_of_needed hseed htop hneeds]
    constructor
    · intro h
      exact ⟨fun hnot => absurd hnot hneeds,
        fun _ => (resolves_with_import hseed htop rfl).mp (h [] call.existingImports rfl)⟩
    · intro h before after himports
      exact (resolves_with_import hseed htop himports).mpr (h.2 hneeds)

/-! ## A class that an import shadows -/

def utilClass (pkg internalName : String) : ClassMetadata :=
  .bare (some pkg) "Util" internalName none (.sourceFile ("file:///" ++ internalName ++ ".java"))

def libUtil : ClassMetadata :=
  utilClass "lib" "lib/Util"

def appUtil : ClassMetadata :=
  utilClass "app" "app/Util"

theorem isTopLevel_libUtil : IsTopLevel libUtil := ⟨rfl, by decide⟩

theorem isTopLevel_appUtil : IsTopLevel appUtil := ⟨rfl, by decide⟩

theorem wellNamed_libUtil : WellNamed libUtil where
  package := ⟨"Util", by decide, by decide⟩
  plain := by simp [libUtil, utilClass, ClassMetadata.bare]

theorem wellNamed_appUtil : WellNamed appUtil where
  package := ⟨"Util", by decide, by decide⟩
  plain := by simp [appUtil, utilClass, ClassMetadata.bare]

def utilView : IndexView :=
  .new [BucketIndex.new.addClasses [libUtil, appUtil]]

theorem records_utilView : utilView.records = [libUtil, appUtil] := by decide

theorem topLevelIn_utilView (internal : String) : TopLevelIn utilView internal := by
  intro r hr
  have hrecord := (mem_recordsNamed.mp hr).1
  rw [records_utilView, List.mem_cons, List.mem_singleton] at hrecord
  rcases hrecord with rfl | rfl
  · exact isTopLevel_libUtil
  · exact isTopLevel_appUtil

/-- `Util` is typed in a file of the package `app`. -/
def utilCall (imports : List String) : ExpressionCall where
  index := utilView
  matcher := ⟨fun _ pattern haystack => if pattern = haystack then some 100 else none⟩
  toLowercase s := String.ofList (s.toList.map Char.toLower)
  hasher := .insertion _
  typed := "Util"
  limit := none
  existingImports := imports
  enclosingPackage := some "app"
  enclosingInternalName := none
  unqualified := by decide
  slashed := by
    rintro pkg ⟨⟩
    decide
  wellNamed := by
    rw [records_utilView]
    intro c hc
    rw [List.mem_cons, List.mem_singleton] at hc
    rcases hc with rfl | rfl
    · exact wellNamed_libUtil
    · exact wellNamed_appUtil

theorem own_class_meant : (utilCall []).MeansClass ⟨appUtil, .samePackage⟩ ∧
    (utilCall []).ImportsExpanded := by
  have hseed : (⟨appUtil, .samePackage⟩ : CandidateSeed) ∈ (utilCall []).seeds := by decide
  refine (completion_reads_imports_iff (utilCall []) _ hseed (topLevelIn_utilView _)).mpr ?_
  exact ⟨fun _ => .inr ⟨by decide, .inl rfl⟩, fun hneeds => absurd (.inr (.inl rfl)) hneeds⟩

/-- The file imports `lib.Util`, and `Util` of its own package is offered without an import. -/
theorem shadowed_class_offered : ¬ ∀ (call : ExpressionCall) (seed : CandidateSeed),
    seed ∈ call.seeds → TopLevelIn call.index seed.classMeta.internalName →
    call.MeansClass seed ∧ call.ImportsExpanded := by
  intro hall
  have hseed : (⟨appUtil, .samePackage⟩ : CandidateSeed) ∈ (utilCall ["lib.Util"]).seeds := by decide
  have hmeans := (hall (utilCall ["lib.Util"]) _ hseed (topLevelIn_utilView _)).1
  have hresolve : ((utilCall ["lib.Util"]).typeCtx ["lib.Util"]).resolveSimpleStrict "Util" =
      some "app/Util" := hmeans
  have hlib : ((utilCall ["lib.Util"]).typeCtx ["lib.Util"]).resolveSimpleStrict "Util" =
      some "lib/Util" := by decide
  rw [hlib] at hresolve
  exact absurd hresolve (by decide)

end ExpressionCall

end JavaAnalyzer.Completion
