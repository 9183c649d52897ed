import JavaAnalyzer.Completion.SourceNames
import JavaAnalyzer.Index.CacheTransparency
import JavaAnalyzer.Index.HierarchyReach
import JavaAnalyzer.Language.GenericTypeTexts
import JavaAnalyzer.Language.ResolvedTypes
import JavaAnalyzer.Semantic.SymbolResolver

/-! # What names mean

Whatever `classify_name` answers is there: packages hold classes, types are known to the index, to the imports or to
the file, fields are declared by the class that is named as their owner (`classifyName_sound`). The owner leads back to
the same field, so that `resolve_bare_id` goes where the classification says. -/

namespace JavaAnalyzer.Index.IndexView
set_option autoImplicit false

variable {view : IndexView}

theorem owner_of_fieldRefOf {fieldName : String} {r : ClassHandleRef} {field : FieldRef}
    (h : view.fieldRefOf fieldName r = some field) : view.typeRefFromClassRef r = some field.owner := by
  obtain ⟨owner, howner, h⟩ := Option.bind_eq_some_iff.mp h
  cases r with
  | overlay bucket internalName =>
    obtain ⟨c, -, h⟩ := Option.bind_eq_some_iff.mp h
    obtain ⟨declared, -, h⟩ := Option.bind_eq_some_iff.mp h
    cases h
    exact howner
  | artifact handle =>
    obtain ⟨reader, -, h⟩ := Option.bind_eq_some_iff.mp h
    obtain ⟨fieldHandle, -, h⟩ := Option.bind_eq_some_iff.mp h
    obtain ⟨stub, -, h⟩ := Option.bind_eq_some_iff.mp h
    cases h
    exact howner

/-- The order of a class that is found begins with it. -/
theorem hierarchyOrder_head {classInternal : String} {r : ClassHandleRef}
    (h : view.getClassRefByInternal classInternal = some r) :
    ∃ rest, view.hierarchyOrder classInternal = r :: rest := by
  obtain ⟨hmap, hlists⟩ := hierarchyOrder_lists view classInternal
  have hhead := hlists.head (Option.isSome_iff_exists.mpr ⟨r, h⟩)
  cases hnames : (view.hierarchyClasses classInternal).map ClassMetadata.internalName with
  | nil =>
    rw [hnames] at hhead
    cases hhead
  | cons n names =>
    rw [hnames] at hmap hhead
    obtain rfl := Option.some.inj hhead
    cases horder : view.hierarchyOrder n with
    | nil =>
      rw [horder] at hmap
      cases hmap
    | cons first rest =>
      rw [horder, List.map_cons, List.map_cons, h] at hmap
      obtain rfl := Option.some.inj (List.cons.inj hmap).1
      exact ⟨rest, rfl⟩

/-- A found field is declared by the class that its reference names, and is found again from there. -/
theorem lookupFieldInHierarchyRef_owner {classInternal fieldName : String} {field : FieldRef}
    (h : view.lookupFieldInHierarchyRef classInternal fieldName = some field) :
    (∃ c declared, view.getClass field.owner.internalName = some c ∧ declared ∈ c.fields ∧
        view.FieldRefAgrees declared field) ∧
      field.name = fieldName ∧ view.lookupFieldInHierarchyRef field.owner.internalName fieldName = some field := by
  obtain ⟨r, hr, hfield⟩ := List.exists_of_findSome?_eq_some h
  obtain ⟨c, hc, hfound⟩ := reads_hierarchyOrder hr
  have hget : view.getClass c.internalName = some c := by
    rw [getClass, hfound, Option.bind_some, hc.resolve]
  have howner : field.owner.internalName = c.internalName :=
    Option.some.inj ((internalName_typeRef (owner_of_fieldRefOf hfield)).symm.trans hc.internalName)
  have hagrees := fieldRefOf_agrees hc hfound fieldName
  rw [hfield] at hagrees
  cases hdeclared : c.fields.find? fun f => f.name = fieldName with
  | none =>
    rw [hdeclared] at hagrees
    cases hagrees
  | some declared =>
    rw [hdeclared] at hagrees
    cases hagrees with
    | some hagrees =>
      have hname : declared.name = fieldName := by simpa using List.find?_some hdeclared
      obtain ⟨rest, horder⟩ := hierarchyOrder_head hfound
      refine ⟨⟨c, declared, howner ▸ hget, List.mem_of_find?_eq_some hdeclared, hagrees⟩, hagrees.name.trans hname, ?_⟩
      rw [howner, lookupFieldInHierarchyRef, horder, List.findSome?_cons, hfield]

end JavaAnalyzer.Index.IndexView

namespace JavaAnalyzer.Semantic.SymbolResolver
open Index JavaAnalyzer.Language

section Meaning

variable (view : IndexView) (ctx : SemanticContext)

/-- A class that the index, the imports or the file has. -/
inductive KnownType (internalName : String) : Prop where
  | indexed (h : (view.getClass internalName).isSome)
  | named (typeCtx : SourceTypeCtx) (hctx : ctx.typeCtx = some typeCtx) (h : typeCtx.classExists internalName = true)
  | enclosing (simpleName : String)
      (h : LexicalOwner ctx.enclosingPackage ctx.enclosingClassChain simpleName internalName)

/-- A field of the class `owner`, declared there, which a lookup from there finds. -/
structure DeclaredField (ty : TypeName) (owner name : String) (isStatic : Bool) (field : FieldRef) : Prop where
  owner_eq : field.owner.internalName = owner
  name_eq : field.name = name
  type : fieldTypeName field = some ty
  static : FieldRef.isStatic field = isStatic
  found : view.lookupFieldInHierarchyRef owner name = some field
  declared : ∃ c declared, view.getClass owner = some c ∧ declared ∈ c.fields ∧ view.FieldRefAgrees declared field

/-- The innermost local of the name. -/
structure InnermostLocal (name : String) (v : LocalVar) : Prop where
  name_eq : v.name = name
  innermost : ∃ outer inner, ctx.localVariables = outer ++ v :: inner ∧ ∀ w ∈ inner, w.name ≠ name

def Meaning : NameClassification → Prop
  | .package internalName => ∃ c ∈ view.records, c.package = some (BucketState.slashed internalName)
  | .type internalName ty => ty = TypeName.internal internalName ∧ KnownType view ctx internalName
  | .expression ty (.localVar name) => ∃ v, InnermostLocal ctx name v ∧
      ty = (ctx.flowTypeOverrides.lookup name).getD v.typeInternal
  | .expression ty (.field owner name isStatic) => ∃ field, DeclaredField view ty owner name isStatic field
  | .expression ty .this => ctx.enclosingInternalName.map TypeName.internal = some ty
  | .expression ty .super => (resolveDirectSuperOwner view ctx).map TypeName.internal = some ty
  | .expression ty .value => ty = TypeName.new "int"

end Meaning

variable {fuel : ℕ} {view : IndexView} {ctx : SemanticContext}

/-! ## Types -/

theorem knownType_of_getClass {name : String} {c : ClassMetadata} (h : view.getClass name = some c) :
    KnownType view ctx c.internalName := by
  refine .indexed ?_
  rw [(IndexView.record_of_getClass h).2, h]
  rfl

/-- The walk over the owners meets classes of the index only. -/
theorem class_of_ownerFromIndex {enclosing : Option String} {simpleName internalName : String}
    (h : resolveOwnerFromIndex fuel (some view) enclosing simpleName = some (some internalName)) :
    ∃ c n, view.getClass n = some c ∧ internalName = c.internalName := by
  unfold resolveOwnerFromIndex at h
  cases enclosing with
  | none => cases h
  | some enclosing =>
    simp only [] at h
    split at h
    · rename_i current hcurrent
      obtain ⟨found, hwalk, hfound⟩ := Option.map_eq_some_iff.mp h
      obtain ⟨c, rfl, rfl⟩ := Option.map_eq_some_iff.mp hfound
      obtain ⟨hpath, -⟩ := LinkWalk.firstFound_of_walk hwalk
      rcases Relation.ReflTransGen.cases_tail hpath with rfl | ⟨b, -, hlink⟩
      · exact ⟨_, enclosing, hcurrent, rfl⟩
      · obtain ⟨d, -, hd⟩ := Option.bind_eq_some_iff.mp hlink.2
        obtain ⟨owner, -, howner⟩ := Option.bind_eq_some_iff.mp hd
        exact ⟨c, owner, howner, rfl⟩
    · cases h

theorem knownType_of_enclosing {simpleName internalName : String}
    (h : resolveEnclosingOwnerType fuel view ctx simpleName = some internalName) :
    KnownType view ctx internalName := by
  have h := Option.join_eq_some_iff.mp h
  rw [resolveEnclosingOwnerInternal] at h
  generalize String.ofList (Text.trim simpleName.toList) = name at h
  split at h
  · cases h
  · split at h
    · rename_i internal hchain
      obtain rfl := Option.some.inj (Option.some.inj h)
      by_cases hmem : name ∈ ctx.enclosingClassChain
      · obtain ⟨outer, inner, hsplit, hinner⟩ := exists_innermost hmem
        rw [hsplit, resolveOwnerFromChain_innermost _ hinner] at hchain
        exact .enclosing name ⟨outer, inner, hsplit, hinner, hchain⟩
      · rw [resolveOwnerFromChain_none _ hmem] at hchain
        cases hchain
    · obtain ⟨c, n, hc, rfl⟩ := class_of_ownerFromIndex h
      exact knownType_of_getClass hc

theorem knownType_of_typeCtx {head internalName : String} (h : resolveInTypeCtx ctx head = some internalName) :
    KnownType view ctx internalName := by
  obtain ⟨typeCtx, hctx, h⟩ := Option.bind_eq_some_iff.mp h
  rcases Option.or_eq_some_iff.mp h with h | ⟨-, h⟩
  · exact .named typeCtx hctx (SourceTypeCtx.classExists_of_simple h)
  · obtain ⟨ty, hty, rfl⟩ := Option.map_eq_some_iff.mp h
    exact .named typeCtx hctx (((SourceTypeCtx.allExist_fuel _).1 _ ty hty).erased)

theorem mem_of_nearestScoped {scopeChain : List String} {package : Option String} {simpleName : String}
    {candidates : List ClassMetadata} {c : ClassMetadata}
    (h : CachedView.nearestScoped scopeChain package simpleName candidates = some c) : c ∈ candidates := by
  unfold CachedView.nearestScoped at h
  obtain ⟨found, hfound, rfl⟩ := Option.map_eq_some_iff.mp h
  refine List.foldlRecOn (motive := fun best => ∀ found, best = some found → found.2 ∈ candidates) candidates _
    (fun _ hnone => by cases hnone) ?_ found hfound
  intro best hbest candidate hcandidate found hfound
  split_ifs at hfound
  · exact hbest found hfound
  · split at hfound
    · exact hbest found hfound
    · split at hfound
      · split_ifs at hfound
        · exact hbest found hfound
        · cases hfound
          exact hcandidate
      · cases hfound
        exact hcandidate

theorem knownType_of_scoped {enclosing simpleName : String} {c : ClassMetadata}
    (h : view.resolveScopedInnerClass enclosing simpleName = some c) : KnownType view ctx c.internalName := by
  obtain ⟨start, -, h⟩ := Option.bind_eq_some_iff.mp h
  have hlisted : ∃ k, c ∈ view.listing k := by
    have hmem := mem_of_nearestScoped h
    cases hpackage : start.package with
    | none =>
      rw [hpackage] at hmem
      exact ⟨.simpleName simpleName, hmem⟩
    | some pkg =>
      rw [hpackage] at hmem
      exact ⟨.package pkg, hmem⟩
  obtain ⟨k, hk⟩ := hlisted
  have hbest := List.argmax_mem (IndexView.firstBest_iff.mp (IndexView.mem_listing_iff.mp hk))
  have hrecord : c ∈ view.records := List.mem_of_mem_filter (List.mem_of_mem_filter hbest)
  obtain ⟨d, hd⟩ := IndexView.getClass_of_record hrecord
  exact .indexed (hd ▸ rfl)

theorem knownType_of_head {head internalName : String} (h : resolveTypeHead fuel view ctx head = some internalName) :
    KnownType view ctx internalName := by
  have hclass {name : String} (h : (view.getClass name).map ClassMetadata.internalName = some internalName) :
      KnownType view ctx internalName := by
    obtain ⟨c, hc, rfl⟩ := Option.map_eq_some_iff.mp h
    exact knownType_of_getClass hc
  rw [resolveTypeHead] at h
  split at h
  · exact hclass h
  · rcases Option.or_eq_some_iff.mp h with h | ⟨-, h⟩
    · rcases Option.or_eq_some_iff.mp h with h | ⟨-, h⟩
      · split at h
        · exact hclass h
        · cases h
      · exact knownType_of_enclosing h
    · rcases Option.or_eq_some_iff.mp h with h | ⟨-, h⟩
      · exact knownType_of_typeCtx h
      · obtain ⟨c, hc, rfl⟩ := Option.map_eq_some_iff.mp h
        obtain ⟨enclosing, -, hc⟩ := Option.bind_eq_some_iff.mp hc
        exact knownType_of_scoped hc

theorem knownType_of_name {name internalName : String} (h : resolveTypeName fuel view ctx name = some internalName) :
    KnownType view ctx internalName := by
  rcases Option.or_eq_some_iff.mp h with h | ⟨-, h⟩
  · obtain ⟨c, hc, rfl⟩ := Option.map_eq_some_iff.mp h
    rw [IndexView.resolveQualifiedTypePath] at hc
    split_ifs at hc
    · exact knownType_of_getClass hc
    · obtain ⟨split, -, hsplit⟩ := List.exists_of_findSome?_eq_some hc
      obtain ⟨n, -, hn⟩ := Option.bind_eq_some_iff.mp hsplit
      exact knownType_of_getClass hn
  · split at h
    · exact knownType_of_head h
    · cases h

theorem knownType_of_member {classInternal simpleName : String} {inner : TypeRef}
    (h : view.lookupMemberTypeRefInHierarchy classInternal simpleName = some inner) :
    KnownType view ctx inner.internalName := by
  obtain ⟨ownerRef, -, h⟩ := List.exists_of_findSome?_eq_some h
  obtain ⟨owner, -, h⟩ := Option.bind_eq_some_iff.mp h
  obtain ⟨c, -, h⟩ := Option.bind_eq_some_iff.mp h
  obtain ⟨r, hr, hinner⟩ := Option.bind_eq_some_iff.mp h
  obtain ⟨d, hd, hname, -⟩ := IndexView.reads_getClassRefByInternal hr
  have hinternal : inner.internalName = d.internalName :=
    Option.some.inj ((IndexView.internalName_typeRef hinner).symm.trans hd.internalName)
  rw [hinternal]
  have hclass : view.getClass c.internalName = some d := by
    rw [IndexView.getClass, hr, Option.bind_some, hd.resolve]
  exact knownType_of_getClass hclass

/-! ## Names -/

theorem meaning_package {internalName : String} {found : NameClassification}
    (h : classifyPackage view internalName = some found) : Meaning view ctx found := by
  rw [classifyPackage] at h
  split_ifs at h with hpackage
  cases h
  exact IndexView.hasPackage_iff.mp hpackage

theorem meaning_type {name : String} {found : NameClassification}
    (h : classifyType fuel view ctx name = some found) : Meaning view ctx found := by
  obtain ⟨internalName, hinternal, rfl⟩ := Option.map_eq_some_iff.mp h
  exact ⟨rfl, knownType_of_name hinternal⟩

theorem meaning_class {name : String} {found : NameClassification}
    (h : (view.getClass name).map (fun c => NameClassification.ofInternal c.internalName) = some found) :
    Meaning view ctx found := by
  obtain ⟨c, hc, rfl⟩ := Option.map_eq_some_iff.mp h
  exact ⟨rfl, knownType_of_getClass hc⟩

theorem meaning_whole {name : String} {found : NameClassification}
    (h : classifyWhole fuel view ctx name = some found) : Meaning view ctx found := by
  rcases Option.or_eq_some_iff.mp h with h | ⟨-, h⟩
  · exact meaning_type h
  · exact meaning_package h

theorem meaning_local {name : String} {found : NameClassification} (h : classifyLocal ctx name = some found) :
    Meaning view ctx found := by
  obtain ⟨v, hv, rfl⟩ := Option.map_eq_some_iff.mp h
  obtain ⟨hname, inner, outer, hsplit, hinner⟩ := List.find?_eq_some_iff_append.mp hv
  have hname : v.name = name := of_decide_eq_true hname
  refine ⟨v, ⟨rfl, outer.reverse, inner.reverse, ?_, fun w hw => ?_⟩, by rw [hname]⟩
  · rw [← List.reverse_reverse ctx.localVariables, hsplit]
    simp
  · have hne := hinner w (List.mem_reverse.mp hw)
    rw [hname]
    simpa using hne

/-- A field that a lookup in a hierarchy finds. -/
theorem meaning_field {classInternal fieldName : String} {field : FieldRef} {found : NameClassification}
    (h : view.lookupFieldInHierarchyRef classInternal fieldName = some field)
    (hfound : fieldExpression field = some found) : Meaning view ctx found := by
  obtain ⟨hdeclared, hname, hagain⟩ := IndexView.lookupFieldInHierarchyRef_owner h
  obtain ⟨ty, hty, rfl⟩ := Option.map_eq_some_iff.mp hfound
  exact ⟨field, rfl, rfl, hty, rfl, hname ▸ hagain, hdeclared⟩

theorem lookup_of_candidate {receiver : TypeName} {name : String} {field : FieldRef}
    (h : lookupFieldCandidate view receiver name = some field) :
    ∃ classInternal, view.lookupFieldInHierarchyRef classInternal name = some field := by
  obtain ⟨bound, -, hbound⟩ := List.exists_of_findSome?_eq_some h
  exact ⟨_, hbound⟩

theorem lookup_of_static {receiver : TypeName} {name : String} {field : FieldRef}
    (h : lookupStaticFieldCandidate view receiver name = some field) :
    ∃ classInternal, view.lookupFieldInHierarchyRef classInternal name = some field :=
  lookup_of_candidate (Option.filter_eq_some_iff.mp h).1

theorem lookup_of_staticImport {name : String} {field : FieldRef}
    (h : lookupStaticImportField view ctx name = some field) :
    ∃ classInternal, view.lookupFieldInHierarchyRef classInternal name = some field := by
  have hmem : field ∈ staticImportFields view ctx name := by
    rw [lookupStaticImportField] at h
    split at h
    · rename_i only honly
      obtain rfl := Option.some.inj h
      have hkept : only ∈ Dedup.dedupBy (fun f : FieldRef => (f.owner.internalName, f.descriptor)) []
          (staticImportFields view ctx name) := by
        rw [honly]
        exact List.mem_singleton_self only
      exact (Dedup.dedupBy_sublist _ _).mem hkept
    · cases h
  obtain ⟨imp, -, himp⟩ := List.mem_filterMap.mp hmem
  obtain ⟨ownerDot, -, himp⟩ := Option.bind_eq_some_iff.mp himp
  simp only [] at himp
  split at himp
  · cases himp
  · exact lookup_of_static himp

theorem meaning_bind {field : Option FieldRef} {name : String} {found : NameClassification}
    (hfield : ∀ f, field = some f → ∃ classInternal, view.lookupFieldInHierarchyRef classInternal name = some f)
    (h : field.bind fieldExpression = some found) : Meaning view ctx found := by
  obtain ⟨f, hf, hfound⟩ := Option.bind_eq_some_iff.mp h
  obtain ⟨classInternal, hlookup⟩ := hfield f hf
  exact meaning_field hlookup hfound

theorem meaning_simple {name : String} {found : NameClassification}
    (h : classifySimpleName fuel view ctx name = some found) : Meaning view ctx found := by
  rw [classifySimpleName] at h
  split at h
  · obtain ⟨enclosing, henclosing, rfl⟩ := Option.map_eq_some_iff.mp h
    exact congrArg (Option.map TypeName.internal) henclosing
  · split at h
    · obtain ⟨owner, howner, rfl⟩ := Option.map_eq_some_iff.mp h
      exact congrArg (Option.map TypeName.internal) howner
    · rcases Option.or_eq_some_iff.mp h with h | ⟨-, h⟩
      · rcases Option.or_eq_some_iff.mp h with h | ⟨-, h⟩
        · exact meaning_local h
        · obtain ⟨enclosing, -, h⟩ := Option.bind_eq_some_iff.mp h
          exact meaning_bind (fun _ => lookup_of_candidate) h
      · rcases Option.or_eq_some_iff.mp h with h | ⟨-, h⟩
        · exact meaning_bind (fun _ => lookup_of_staticImport) h
        · rcases Option.or_eq_some_iff.mp h with h | ⟨-, h⟩
          · exact meaning_type h
          · exact meaning_package h

theorem meaning_advance {current found : NameClassification} {segment : String}
    (h : advanceNameClassification view current segment = some found) : Meaning view ctx found := by
  unfold advanceNameClassification at h
  split at h
  · split at h
    · rcases Option.or_eq_some_iff.mp h with h | ⟨-, h⟩
      · exact meaning_package h
      · exact meaning_class h
    · rcases Option.or_eq_some_iff.mp h with h | ⟨-, h⟩
      · exact meaning_bind (fun _ => lookup_of_static) h
      · obtain ⟨inner, hinner, rfl⟩ := Option.map_eq_some_iff.mp h
        exact ⟨rfl, knownType_of_member hinner⟩
    · split at h
      · cases h
        exact rfl
      · exact meaning_bind (fun _ => lookup_of_candidate) h
  · cases h

theorem meaning_walk {parts : List String} {start found : NameClassification} (hstart : Meaning view ctx start)
    (h : parts.foldlM (advanceNameClassification view) start = some found) : Meaning view ctx found := by
  induction parts generalizing start with
  | nil =>
    obtain rfl := Option.some.inj h
    exact hstart
  | cons segment parts ih =>
    rw [List.foldlM_cons] at h
    obtain ⟨next, hnext, hrest⟩ := Option.bind_eq_some_iff.mp h
    exact ih (meaning_advance hnext) hrest

theorem meaning_segments {head : String} {parts : List String} {found : NameClassification}
    (h : classifySegments fuel view ctx head parts = some found) : Meaning view ctx found := by
  obtain ⟨start, hstart, hfold⟩ := Option.bind_eq_some_iff.mp h
  exact meaning_walk (meaning_simple hstart) hfold

theorem meaning_name {name : String} {found : NameClassification}
    (h : classifyName fuel view ctx name = some found) : Meaning view ctx found := by
  rw [classifyName] at h
  split at h
  · rcases Option.or_eq_some_iff.mp h with h | ⟨-, h⟩
    · exact meaning_class h
    · exact meaning_package h
  · split at h
    · cases h
    · split at h
      · rcases Option.or_eq_some_iff.mp h with h | ⟨-, h⟩
        · exact meaning_segments h
        · exact meaning_whole h
      · exact meaning_whole h

/-- Whatever a name is classified as is there. -/
theorem classifyName_sound {name : String} {found : NameClassification}
    (h : classifyName fuel view ctx name = some found) : Meaning view ctx found :=
  meaning_name h

/-- A class with one field. -/
def boxClass : ClassMetadata :=
  { ClassMetadata.bare (some "p") "Box" "p/Box" none .unknown with fields := [⟨"size", "I", 0, [], false, none⟩] }

def boxView : IndexView :=
  .new [BucketIndex.new.addClasses [boxClass]]

def boxContext : SemanticContext :=
  ⟨[⟨"box", TypeName.internal "p/Box"⟩], ∅, [], none, none, none, [], none, none⟩

theorem classifyName_sound_box :
    Meaning boxView boxContext (.expression (TypeName.new "int") (.field "p/Box" "size" false)) :=
  @classifyName_sound 0 boxView boxContext "box.size" _ rfl

/-- Where a name is a field, the symbol is the field that is declared there. -/
theorem resolveBareId_agrees (fuel : ℕ) (view : IndexView) (ctx : SemanticContext) (id : String) :
    match classifyName fuel view ctx id with
    | none | some (.package _) => resolveBareId fuel view ctx id = none
    | some (.type internalName _) => resolveBareId fuel view ctx id = some (.class (.source internalName))
    | some (.expression ty (.field owner name isStatic)) => ∃ field,
        resolveBareId fuel view ctx id = some (.field field) ∧ DeclaredField view ty owner name isStatic field
    | some (.expression _ _) => ∃ internalName,
        resolveBareId fuel view ctx id = some (.class (.source internalName)) := by
  rw [resolveBareId]
  cases hclass : classifyName fuel view ctx id with
  | none => rfl
  | some found =>
    have hmeaning := meaning_name hclass
    cases found with
    | package internalName => rfl
    | type internalName ty => rfl
    | expression ty base =>
      cases base with
      | field owner name isStatic =>
        obtain ⟨field, hfield⟩ := hmeaning
        refine ⟨field, ?_, hfield⟩
        rw [Option.bind_some, symbolOf, hfield.found, Option.map_some]
      | localVar name => exact ⟨_, rfl⟩
      | this => exact ⟨_, rfl⟩
      | super => exact ⟨_, rfl⟩
      | value => exact ⟨_, rfl⟩

/-! ## Qualified names -/

/-- A name that stands for nothing in scope: no local, no field, no import and no type. -/
structure NotInScope (fuel : ℕ) (view : IndexView) (ctx : SemanticContext) (name : String) : Prop where
  noLocal : classifyLocal ctx name = none
  noField : ∀ enclosing, ctx.enclosingInternalName = some enclosing →
    (lookupFieldCandidate view (TypeName.internal enclosing) name).bind fieldExpression = none
  noImport : (lookupStaticImportField view ctx name).bind fieldExpression = none
  noType : resolveTypeName fuel view ctx name = none

theorem isIdentifier_of_segment {segment : String} (h : isJavaIdentifierSegment segment = true) :
    Completion.IsIdentifier segment := by
  simp only [isJavaIdentifierSegment, Bool.and_eq_true, Bool.not_eq_true', List.all_eq_true, Bool.or_eq_true,
    decide_eq_true_eq] at h
  obtain ⟨⟨hne, -⟩, hchars⟩ := h
  refine ⟨by simpa using hne, fun x hx => ?_⟩
  rcases hchars x hx with (hx | rfl) | rfl
  · refine ⟨isWhitespace_of_isAlphanum hx, ?_, ?_⟩
    · rintro rfl
      simp at hx
    · rintro rfl
      simp at hx
  · decide
  · decide

theorem classifySimple_of_notInScope {name : String} (h : NotInScope fuel view ctx name)
    (hname : isJavaIdentifierSegment name = true) :
    classifySimpleName fuel view ctx name = classifyPackage view name := by
  have hid := isIdentifier_of_segment hname
  have hthis : name ≠ "this" := by
    rintro rfl
    exact absurd hname (by decide)
  have hsuper : isSuperReceiverExpr name = false := by
    rw [Bool.eq_false_iff, isSuperReceiverExpr, hid.solid.trim_eq]
    intro hsuper
    obtain rfl := String.toList_inj.mp (of_decide_eq_true hsuper)
    exact absurd hname (by decide)
  have hfield : (ctx.enclosingInternalName.bind fun enclosing =>
      (lookupFieldCandidate view (TypeName.internal enclosing) name).bind fieldExpression) = none := by
    cases henclosing : ctx.enclosingInternalName with
    | none => rfl
    | some enclosing => exact h.noField enclosing henclosing
  rw [classifySimpleName, if_neg hthis, hsuper, if_neg Bool.false_ne_true, h.noLocal, hfield, h.noImport, classifyType,
    h.noType, IndexView.slashed_of_not_mem hid.dot_not_mem]
  rfl

/-- The walk from a package goes on through packages, or stops at the class. -/
theorem walk_from_package {path : String} {rest : List String} {c : ClassMetadata} (hne : rest ≠ [])
    (hids : ∀ s ∈ rest, isJavaIdentifierSegment s = true)
    (hclass : view.getClass ("/".intercalate (path :: rest)) = some c)
    (hfront : ∀ front back, rest = front ++ back → front ≠ [] → back ≠ [] →
      view.getClass ("/".intercalate (path :: front)) = none)
    (hpackage : view.hasPackage ("/".intercalate (path :: rest)) = false) :
    rest.foldlM (advanceNameClassification view) (.package path) = some (.ofInternal c.internalName) ∨
      rest.foldlM (advanceNameClassification view) (.package path) = none := by
  induction rest generalizing path with
  | nil => exact absurd rfl hne
  | cons segment rest ih =>
    have hsegment := hids segment List.mem_cons_self
    rw [List.foldlM_cons]
    by_cases hnext : view.hasPackage (path ++ "/" ++ segment) = true
    · have hadvance : advanceNameClassification view (.package path) segment =
          some (.package (path ++ "/" ++ segment)) := by
        simp only [advanceNameClassification, hsegment, if_true, classifyPackage, hnext, Option.some_or]
      rw [hadvance]
      cases rest with
      | nil => exact absurd hnext (Bool.eq_false_iff.mp hpackage)
      | cons next rest =>
        refine ih (List.cons_ne_nil next rest) (fun s hs => hids s (List.mem_cons_of_mem _ hs)) hclass ?_ hpackage
        intro front back hsplit hfrontne hback
        exact hfront (segment :: front) back (by rw [hsplit]; rfl) (List.cons_ne_nil _ _) hback
    · have hadvance : advanceNameClassification view (.package path) segment =
          (view.getClass (path ++ "/" ++ segment)).map fun c => .ofInternal c.internalName := by
        simp only [advanceNameClassification, hsegment, if_true, classifyPackage, if_neg hnext, Option.none_or]
      rw [hadvance]
      cases rest with
      | nil =>
        left
        have hclass : view.getClass (path ++ "/" ++ segment) = some c := hclass
        rw [hclass]
        rfl
      | cons next rest =>
        right
        have hnone : view.getClass (path ++ "/" ++ segment) = none :=
          hfront [segment] (next :: rest) rfl (List.cons_ne_nil _ _) (List.cons_ne_nil _ _)
        rw [hnone]
        rfl

theorem whole_name_resolves {segments : List String} {head : String} {c : ClassMetadata}
    (hparts : ∀ s ∈ head :: segments, Completion.IsIdentifier s) (hne : segments ≠ [])
    (hclass : view.getClass ("/".intercalate (head :: segments)) = some c) :
    resolveTypeName fuel view ctx (".".intercalate (head :: segments)) = some c.internalName := by
  have hdot : '.' ∈ (".".intercalate (head :: segments)).toList := by
    match segments with
    | next :: rest =>
      rw [String.intercalate_cons_cons, String.toList_append, String.toList_append]
      exact List.mem_append_left _ (List.mem_append_right _ (List.mem_singleton_self '.'))
  have hhead : resolveTypeHead fuel view ctx (".".intercalate (head :: segments)) = some c.internalName := by
    rw [resolveTypeHead, if_neg (Completion.slash_not_mem_path hparts), if_pos hdot,
      Completion.slashed_path fun s hs => (hparts s hs).dot_not_mem, hclass]
    rfl
  have hpath : view.resolveQualifiedTypePath (".".intercalate (head :: segments)) (resolveTypeHead fuel view ctx) =
      some c := by
    rw [Completion.resolveQualifiedTypePath_path hparts (List.cons_ne_nil head segments),
      Completion.findSome?_splitsFromLongest]
    refine ⟨segments.length, Nat.lt_succ_self _, ?_, fun j hj hlt => absurd hlt (Nat.not_lt.mpr hj)⟩
    have hall : (head :: segments).take (segments.length + 1) = head :: segments := by simp
    have hnone : (head :: segments).drop (segments.length + 1) = [] := by simp
    rw [hall, hnone, Completion.splitClass, hhead, Option.bind_some, IndexView.innerAlong, Option.bind_some,
      (IndexView.record_of_getClass hclass).2, hclass]
  rw [resolveTypeName, hpath]
  rfl

/-- The dotted name of a class leads to the class, where nothing in scope has the name of its head, no front of it is a
class, and it is no package itself. -/
theorem qualified_name_found {segments : List String} {head : String} {c : ClassMetadata}
    (hids : ∀ s ∈ head :: segments, isJavaIdentifierSegment s = true) (hne : segments ≠ [])
    (hclass : view.getClass ("/".intercalate (head :: segments)) = some c)
    (hhead : NotInScope fuel view ctx head)
    (hfront : ∀ front back, segments = front ++ back → front ≠ [] → back ≠ [] →
      view.getClass ("/".intercalate (head :: front)) = none)
    (hpackage : view.hasPackage ("/".intercalate (head :: segments)) = false) :
    classifyName fuel view ctx (".".intercalate (head :: segments)) = some (.ofInternal c.internalName) := by
  have hparts : ∀ s ∈ head :: segments, Completion.IsIdentifier s := fun s hs => isIdentifier_of_segment (hids s hs)
  have hsolid := @PathSegments.solid_path "." _ (fun s hs => (hparts s hs).solid) (List.cons_ne_nil head segments)
  have hslash := Completion.slash_not_mem_path hparts
  have hwhole : classifyWhole fuel view ctx (".".intercalate (head :: segments)) =
      some (.ofInternal c.internalName) := by
    rw [classifyWhole, classifyType, whole_name_resolves hparts hne hclass]
    rfl
  have hcond : (isNameHeadSegment head && segments.all isJavaIdentifierSegment) = true := by
    rw [Bool.and_eq_true, isNameHeadSegment, hids head List.mem_cons_self, Bool.or_true]
    exact ⟨rfl, List.all_eq_true.mpr fun s hs => hids s (List.mem_cons_of_mem _ hs)⟩
  rw [classifyName, hsolid.trim_eq, String.ofList_toList, if_neg hslash,
    Completion.dottedParts_path hparts (List.cons_ne_nil head segments)]
  simp only [hcond, if_true, hwhole]
  rw [classifySegments, classifySimple_of_notInScope hhead (hids head List.mem_cons_self), classifyPackage]
  split_ifs
  · rcases walk_from_package hne (fun s hs => hids s (List.mem_cons_of_mem _ hs)) hclass hfront hpackage with
      hwalk | hwalk
    · exact congrArg (fun found => Option.or found _) hwalk
    · exact congrArg (fun found => Option.or found _) hwalk
  · rfl

theorem qualified_name_found_box : classifyName 0 boxView boxContext "p.Box" = some (.ofInternal "p/Box") := by
  have hscope : NotInScope 0 boxView boxContext "p" := ⟨rfl, nofun, rfl, rfl⟩
  refine @qualified_name_found 0 boxView boxContext ["Box"] "p" boxClass (by decide) (by decide) rfl hscope ?_
    (by decide)
  intro front back hsplit hfront hback
  obtain ⟨first, front, rfl⟩ := List.exists_cons_of_ne_nil hfront
  exact absurd (List.append_eq_nil_iff.mp (List.cons.inj hsplit).2.symm).2 hback

end JavaAnalyzer.Semantic.SymbolResolver
