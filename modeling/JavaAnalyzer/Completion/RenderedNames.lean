import JavaAnalyzer.Completion.SourceNames
import JavaAnalyzer.Language.SourceDescriptors

/-! # Rendered class names

The class that `resolve_base_internal` of `language/java/type_ctx.rs` finds for the dotted name that
`get_source_type_name` gives a class in a named package. -/

namespace JavaAnalyzer.Completion
set_option autoImplicit false
open Index IndexView PathSegments Text JavaAnalyzer.Language

/-! ## Names in classes -/

/-- A name made of the characters of identifiers. -/
structure IsName (s : String) : Prop where
  ne_nil : s.toList ≠ []
  chars : ∀ x ∈ s.toList, isIdentifierChar x = true

theorem isIdentifierChar_plain {c : Char} (h : isIdentifierChar c = true) :
    isWhitespace c = false ∧ c ≠ '.' ∧ c ≠ '/' :=
  ⟨(isIdentifierChar_cases h).1, (isIdentifierChar_cases h).2.2.2.2, ne_of_test h (by decide)⟩

theorem IsName.identifier {s : String} (h : IsName s) : IsIdentifier s :=
  ⟨h.ne_nil, fun x hx => isIdentifierChar_plain (h.chars x hx)⟩

/-- The names of class files and sources: those of identifiers, and owners are in the package of their members. -/
structure BinaryNamed (c : ClassMetadata) : Prop where
  named : JavaNamed c
  name : IsName c.name
  package : ∀ s ∈ packageSegments c.package, IsName s
  owner : ∀ owner, c.innerClassOf = some owner → ∃ tail, IsName tail ∧ owner = buildInternalName c.package tail

/-- Members lead from the class at a front of a dotted name along its other names to a class. -/
structure LeadsFrom (view : IndexView) (front back : List String) (found : String) : Prop where
  long : 1 < front.length
  owner : (view.getClass ("/".intercalate front)).isSome
  leads : Leads view ("/".intercalate front) back found
  indexed : (view.getClass found).isSome

/-- The longest front of the dotted name that leads to a class leads to this one. -/
def LongestFrontLeads (view : IndexView) (internal : String) : Prop :=
  ∃ name front back, view.getSourceTypeName internal = some name ∧ dottedParts name.toList = front ++ back ∧
    LeadsFrom view front back internal ∧
    ∀ front' back' found, dottedParts name.toList = front' ++ back' → front.length < front'.length →
      ¬ LeadsFrom view front' back' found

/-! ## The segments of a dotted name -/

/-- The segments of the dotted name of a class, and where a class at their front has it for a member. -/
structure Segments (view : IndexView) (c : ClassMetadata) (segments : List String) : Prop where
  source : view.getSourceTypeName c.internalName = some (".".intercalate segments)
  names : ∀ s ∈ segments, IsName s
  long : 1 < segments.length
  member : ∀ front back, segments = front ++ back → front ≠ [] → back ≠ [] →
    (view.getClass ("/".intercalate front)).isSome → c.internalName = memberName ("/".intercalate front) back →
    Leads view ("/".intercalate front) back c.internalName

section Segments

variable {view : IndexView} {c : ClassMetadata}

/-- A class that is named as a member of a class at some front has the front one segment longer than its package. -/
theorem front_of_member {package : Option String} {tail : String} (hpackage : ∀ s ∈ packageSegments package, IsName s)
    (htail : '/' ∉ tail.toList) {front back : List String} (hne : front ≠ [])
    (hnames : ∀ s ∈ front ++ back, IsName s)
    (h : buildInternalName package tail = memberName ("/".intercalate front) back) :
    ∃ name, front = packageSegments package ++ [name] := by
  obtain ⟨init, last, rfl⟩ := (List.eq_nil_or_concat' front).resolve_left hne
  refine ⟨last, ?_⟩
  have hslash : ∀ s ∈ init ++ [last] ++ back, '/' ∉ s.toList := fun s hs => (hnames s hs).identifier.slash_not_mem
  rw [buildInternalName_eq, memberName_path] at h
  have hpaths := @path_inj "/" '/' (packageSegments package ++ [tail]) (init ++ [memberName last back]) rfl
    (fun s hs => ?_) (fun s hs => ?_) (by simp) (by simp) h
  · obtain ⟨hinit, -⟩ := List.append_inj' hpaths rfl
    rw [hinit]
  · rcases List.mem_append.mp hs with hs | hs
    · exact (hpackage s hs).identifier.slash_not_mem
    · rw [List.mem_singleton.mp hs]
      exact htail
  · rcases List.mem_append.mp hs with hs | hs
    · exact hslash s (by simp [hs])
    · rw [List.mem_singleton.mp hs]
      exact slash_not_mem_memberName (hslash last (by simp)) fun s hs => hslash s (by simp [hs])

theorem path_concat {front : List String} (hne : front ≠ []) (name : String) :
    ".".intercalate front ++ "." ++ name = ".".intercalate (front ++ [name]) := by
  rw [String.intercalate_append_of_ne_nil hne (List.cons_ne_nil name []), String.intercalate_singleton]

variable (hnames : ∀ c ∈ view.records, BinaryNamed c)

include hnames

theorem isName_of_sourceSegments {owners : List ClassMetadata} (hc : c ∈ view.records) (h : OwnersIndexed view c owners)
    {s : String} (hs : s ∈ sourceSegments c owners) : IsName s := by
  have hall : ∀ d ∈ c :: owners, d ∈ view.records := by
    clear hs
    induction h with
    | topLevel h => simpa using hc
    | member h hget _ ih => exact List.forall_mem_cons.mpr ⟨hc, ih (record_of_getClass hget).1⟩
  rcases List.mem_append.mp hs with hpkg | hname
  · exact (hnames c hc).package s hpkg
  · obtain ⟨d, hd, rfl⟩ := List.mem_map.mp (List.mem_reverse.mp hname)
    exact (hnames d (hall d hd)).name

/-- Where the owners are indexed, the name has the package and the names of the owners. -/
theorem segments_of_owners {internal pkg : String} {owners : List ClassMetadata}
    (hget : view.getClass internal = some c) (hpkg : c.package = some pkg)
    (howners : OwnersIndexed view c owners) (hlen : owners.length ≤ 64) :
    Segments view c (sourceSegments c owners) := by
  obtain ⟨hc, rfl⟩ := record_of_getClass hget
  have hjava : ∀ d ∈ view.records, JavaNamed d := fun d hd => (hnames d hd).named
  have hnamed := hnames c hc
  obtain ⟨names, hsegments, hnested⟩ := exists_nested hjava hc howners
  have hall : ∀ s ∈ sourceSegments c owners, IsName s := fun s hs => isName_of_sourceSegments hnames hc howners hs
  refine ⟨getSourceTypeName_eq hget howners hlen, hall, ?_, fun front back hsplit hfront hne _ hmember => ?_⟩
  · rw [sourceSegments, hsegments, hpkg, List.length_append, List.length_cons]
    have hpackage := List.length_pos_of_ne_nil (packageSegments_ne_nil pkg)
    omega
  · obtain ⟨tail, htail, hinternal⟩ := hnamed.named.named.package
    obtain ⟨name, rfl⟩ := front_of_member hnamed.package htail hfront (hsplit ▸ hall) (hinternal ▸ hmember)
    rw [sourceSegments, hsegments, List.append_assoc, List.singleton_append] at hsplit
    obtain ⟨rfl, rfl⟩ := List.cons.inj (List.append_cancel_left hsplit)
    rw [hnested.internalName] at hmember
    rw [← memberName_inj hmember]
    exact hnested.leads

omit hnames in
theorem owners_of_ownerSegments {depth : ℕ} {segments result : List String}
    (h : ClassMetadata.ownerSegments view.getClass depth c.innerClassOf segments = some result) :
    ∃ owners, OwnersIndexed view c owners ∧ owners.length ≤ depth := by
  induction depth generalizing c segments with
  | zero =>
    cases hown : c.innerClassOf with
    | none => exact ⟨[], .topLevel hown, le_rfl⟩
    | some owner =>
      rw [hown] at h
      cases h
  | succ depth ih =>
    cases hown : c.innerClassOf with
    | none => exact ⟨[], .topLevel hown, Nat.zero_le _⟩
    | some internal =>
      rw [hown] at h
      obtain ⟨owner, hget, hrest⟩ := Option.bind_eq_some_iff.mp h
      obtain ⟨owners, howners, hlen⟩ := ih hrest
      exact ⟨owner :: owners, .member hown hget howners, Nat.succ_le_succ hlen⟩

/-- Where they are not, it has the name of the owner as it stands. -/
theorem segments_of_fallback {internal owner : String} (hget : view.getClass internal = some c)
    (hown : c.innerClassOf = some owner)
    (hnone : ClassMetadata.ownerSegments view.getClass 64 c.innerClassOf [c.name] = none) :
    ∃ segments, Segments view c segments := by
  obtain ⟨hc, rfl⟩ := record_of_getClass hget
  have hnamed := hnames c hc
  obtain ⟨tail, htail, rfl⟩ := hnamed.owner owner hown
  have hall : ∀ s ∈ packageSegments c.package ++ [tail] ++ [c.name], IsName s := by
    simp only [List.mem_append, List.mem_singleton]
    rintro s ((hs | rfl) | rfl)
    · exact hnamed.package s hs
    · exact htail
    · exact hnamed.name
  refine ⟨packageSegments c.package ++ [tail] ++ [c.name], ?_, hall, by simp,
    fun front back hsplit hfront hne hexists hmember => ?_⟩
  · have hdots : slashesToDots (buildInternalName c.package tail) =
        ".".intercalate (packageSegments c.package ++ [tail]) := by
      rw [buildInternalName_eq]
      refine translate_path rfl fun s hs x hx => if_neg ?_
      rintro rfl
      exact (hall s (List.mem_append_left _ hs)).identifier.slash_not_mem hx
    have hsolid := @solid_path "." (packageSegments c.package ++ [tail])
      (fun s hs => (hall s (List.mem_append_left _ hs)).identifier.solid) (by simp)
    have hfilled : (".".intercalate (packageSegments c.package ++ [tail])).isEmpty = false := by
      simpa [String.isEmpty_iff, ← String.toList_eq_nil_iff] using hsolid.ne_nil
    rw [getSourceTypeName, hget, Option.map_some, ClassMetadata.qualifiedSourceNameWith, hown, Option.isNone_some]
    rw [hown] at hnone
    simp only [Bool.false_eq_true, if_false, hnone, ClassMetadata.fallbackNestedSourceName, hown, hdots, hfilled]
    rw [path_concat (by simp)]
  · obtain ⟨last, hlast, hinternal⟩ := hnamed.named.named.package
    obtain ⟨name, rfl⟩ := front_of_member hnamed.package hlast hfront (hsplit ▸ hall) (hinternal ▸ hmember)
    rw [List.append_assoc, List.append_assoc] at hsplit
    obtain ⟨rfl, rfl⟩ := List.cons.inj (List.append_cancel_left hsplit)
    rw [← buildInternalName_eq]
    exact .member hc hown (.done _)

theorem exists_segments {internal pkg : String} (hget : view.getClass internal = some c) (hpkg : c.package = some pkg) :
    ∃ segments, Segments view c segments := by
  cases hsegments : ClassMetadata.ownerSegments view.getClass 64 c.innerClassOf [c.name] with
  | some segments =>
    obtain ⟨owners, howners, hlen⟩ := owners_of_ownerSegments hsegments
    exact ⟨_, segments_of_owners hnames hget hpkg howners hlen⟩
  | none =>
    cases hown : c.innerClassOf with
    | none =>
      rw [hown, ClassMetadata.ownerSegments] at hsegments
      cases hsegments
    | some owner => exact segments_of_fallback hnames hget hown hsegments

end Segments

/-! ## Resolving -/

section Resolving

variable {ctx : SourceTypeCtx} {c : ClassMetadata} {segments : List String}

theorem dot_mem_path {names : List String} (hlong : 1 < names.length) : '.' ∈ (".".intercalate names).toList := by
  match names with
  | first :: next :: rest =>
    rw [String.intercalate_cons_cons, String.toList_append, String.toList_append]
    exact List.mem_append_left _ (List.mem_append_right _ (List.mem_singleton_self '.'))

/-- A front of a dotted name is looked up as a class, a simple one in the file. -/
theorem resolveHead_path {front : List String} (hfront : ∀ s ∈ front, IsName s) (hlong : 1 < front.length) :
    ctx.resolveHead (".".intercalate front) =
      if ctx.classExists ("/".intercalate front) then some ("/".intercalate front) else none := by
  have hplain : ∀ s ∈ front, IsIdentifier s := fun s hs => (hfront s hs).identifier
  rw [SourceTypeCtx.resolveHead, if_neg (slash_not_mem_path hplain), if_pos (dot_mem_path hlong),
    slashed_path fun s hs => (hplain s hs).dot_not_mem]

theorem splitClass_iff (hjava : ∀ c ∈ ctx.view.records, JavaNamed c) {front back : List String}
    (hfront : ∀ s ∈ front, IsName s) (hne : front ≠ [])
    (hscope : ∀ s ∈ front.head?, ctx.resolveSimpleStrict s = none) {d : ClassMetadata} :
    splitClass ctx.view ctx.resolveHead (front, back) = some d ↔
      LeadsFrom ctx.view front back d.internalName ∧ ctx.view.getClass d.internalName = some d := by
  match front with
  | [s] =>
    have hnone : ctx.resolveHead s = none := by
      rw [SourceTypeCtx.resolveHead, if_neg (hfront s List.mem_cons_self).identifier.slash_not_mem,
        if_neg (hfront s List.mem_cons_self).identifier.dot_not_mem]
      exact hscope s rfl
    rw [splitClass, String.intercalate_singleton, hnone]
    exact iff_of_false (by simp) fun h => absurd h.1.long (by simp)
  | first :: next :: rest =>
    rw [splitClass, resolveHead_path hfront (by simp), SourceTypeCtx.classExists]
    constructor
    · intro h
      split at h
      · rename_i hexists
        rw [Option.bind_some] at h
        obtain ⟨found, hfound, hget⟩ := Option.bind_eq_some_iff.mp h
        obtain rfl := (record_of_getClass hget).2
        exact ⟨⟨by simp, hexists, (innerAlong_iff hjava).mp hfound, Option.isSome_of_mem hget⟩, hget⟩
      · cases h
    · rintro ⟨h, hget⟩
      rw [if_pos h.owner, Option.bind_some, (innerAlong_iff hjava).mpr h.leads, Option.bind_some, hget]

theorem resolveQualifiedTypePath_iff (hjava : ∀ c ∈ ctx.view.records, JavaNamed c) (hnames : ∀ s ∈ segments, IsName s)
    (hne : segments ≠ []) (hscope : ∀ s ∈ segments.head?, ctx.resolveSimpleStrict s = none) {d : ClassMetadata} :
    ctx.view.resolveQualifiedTypePath (".".intercalate segments) ctx.resolveHead = some d ↔
      ∃ front back, segments = front ++ back ∧ LeadsFrom ctx.view front back d.internalName ∧
        ctx.view.getClass d.internalName = some d ∧
        ∀ front' back' found, segments = front' ++ back' → front.length < front'.length →
          ¬ LeadsFrom ctx.view front' back' found := by
  have hsplit : ∀ {front back}, segments = front ++ back → front ≠ [] → ∀ d,
      splitClass ctx.view ctx.resolveHead (front, back) = some d ↔
        LeadsFrom ctx.view front back d.internalName ∧ ctx.view.getClass d.internalName = some d := by
    rintro front back rfl hfront d
    refine splitClass_iff hjava (fun s hs => hnames s (List.mem_append_left _ hs)) hfront fun s hs => hscope s ?_
    rwa [List.head?_append_of_ne_nil _ hfront]
  rw [resolveQualifiedTypePath_path (fun s hs => (hnames s hs).identifier) hne, findSome?_splitsFromLongest]
  have htake : ∀ i < segments.length, segments.take (i + 1) ≠ [] ∧ (segments.take (i + 1)).length = i + 1 := by
    intro i hi
    rw [List.length_take, Nat.min_eq_left hi]
    exact ⟨List.ne_nil_of_length_pos (by rw [List.length_take]; omega), rfl⟩
  constructor
  · rintro ⟨i, hi, hfound, hnone⟩
    obtain ⟨hleads, hget⟩ := (hsplit (List.take_append_drop (i + 1) segments).symm (htake i hi).1 d).mp hfound
    refine ⟨_, _, (List.take_append_drop (i + 1) segments).symm, hleads, hget, ?_⟩
    intro front back found heq hlonger hleads'
    rw [(htake i hi).2] at hlonger
    obtain ⟨e, he⟩ := Option.isSome_iff_exists.mp hleads'.indexed
    obtain rfl := (record_of_getClass he).2
    have hlength := congrArg List.length heq
    rw [List.length_append] at hlength
    have hplace : front.length - 1 + 1 = front.length := by omega
    have hmiss := hnone (front.length - 1) (by omega) (by omega)
    rw [hplace, heq, List.take_left, List.drop_left,
      (hsplit heq (List.ne_nil_of_length_pos (by omega)) e).mpr ⟨hleads', he⟩] at hmiss
    cases hmiss
  · rintro ⟨front, back, rfl, hleads, hget, hlongest⟩
    have hlong := hleads.long
    have hplace : front.length - 1 + 1 = front.length := by omega
    refine ⟨front.length - 1, by rw [List.length_append]; omega, ?_, fun j hj hlt => ?_⟩
    · rw [hplace, List.take_left, List.drop_left]
      exact (hsplit rfl (List.ne_nil_of_length_pos (by omega)) d).mpr ⟨hleads, hget⟩
    · refine Option.eq_none_iff_forall_ne_some.mpr fun e he => ?_
      obtain ⟨hne', hlen⟩ := htake j hlt
      have hparts := (List.take_append_drop (j + 1) (front ++ back)).symm
      exact hlongest _ _ _ hparts (by omega) ((hsplit hparts hne' e).mp he).1

/-- Where nothing is found, no front leads to a class. -/
theorem not_leadsFrom (hjava : ∀ c ∈ ctx.view.records, JavaNamed c) (hnames : ∀ s ∈ segments, IsName s)
    (hscope : ∀ s ∈ segments.head?, ctx.resolveSimpleStrict s = none)
    (hnone : ctx.view.resolveQualifiedTypePath (".".intercalate segments) ctx.resolveHead = none)
    (front back : List String) (found : String) (hsplit : segments = front ++ back) :
    ¬ LeadsFrom ctx.view front back found := by
  intro hleads
  have hlong := hleads.long
  have hfront : front ≠ [] := List.ne_nil_of_length_pos (by omega)
  subst hsplit
  obtain ⟨d, hd⟩ := Option.isSome_iff_exists.mp hleads.indexed
  obtain rfl := (record_of_getClass hd).2
  rw [resolveQualifiedTypePath_path (fun s hs => (hnames s hs).identifier) (by simp [hfront]),
    List.findSome?_eq_none_iff] at hnone
  have hplace : front.length - 1 + 1 = front.length := by omega
  have hmem : (front, back) ∈ splitsFromLongest (front ++ back) (front ++ back).length := by
    refine List.mem_map.mpr ⟨front.length - 1, ?_, ?_⟩
    · rw [List.mem_reverse, List.mem_range, List.length_append]
      omega
    · rw [hplace, List.take_left, List.drop_left]
  have hfound := (splitClass_iff hjava (fun s hs => hnames s (List.mem_append_left _ hs)) hfront
    (fun s hs => hscope s (by rwa [List.head?_append_of_ne_nil _ hfront]))).mpr ⟨hleads, hd⟩
  rw [hnone _ hmem] at hfound
  cases hfound

theorem memberName_path_dollar (owner : String) {names : List String} (hne : names ≠ []) :
    owner ++ "$" ++ "$".intercalate names = memberName owner names := by
  induction names using List.reverseRecOn with
  | nil => exact absurd rfl hne
  | append_singleton names last ih =>
    rw [memberName_concat]
    by_cases hnames : names = []
    · rw [hnames, List.nil_append, String.intercalate_singleton]
      rfl
    · rw [← ih hnames, String.intercalate_append_of_ne_nil hnames (List.cons_ne_nil last []),
        String.intercalate_singleton]
      simp only [String.append_assoc]

theorem ownerOf_eq_some {front : List String} {owner : String} (hne : front ≠ [])
    (hscope : ∀ s ∈ front.head?, ctx.resolveSimpleStrict s = none) (h : ctx.ownerOf front = some owner) :
    1 < front.length ∧ owner = "/".intercalate front ∧ (ctx.view.getClass ("/".intercalate front)).isSome := by
  match front with
  | [s] =>
    rw [SourceTypeCtx.ownerOf, hscope s rfl] at h
    cases h
  | first :: next :: rest =>
    rw [SourceTypeCtx.ownerOf] at h
    · split at h
      · exact ⟨by simp, (Option.some.inj h).symm, ‹_›⟩
      · cases h
    · simp

/-- The lookup by names alone does not find the class where members do not lead to it. -/
theorem nestedByName_ne (hsegments : Segments ctx.view c segments) (hc : ctx.view.getClass c.internalName = some c)
    (hscope : ∀ s ∈ segments.head?, ctx.resolveSimpleStrict s = none)
    (hnone : ∀ front back, segments = front ++ back → ¬ LeadsFrom ctx.view front back c.internalName) :
    ctx.nestedByName segments ≠ some c.internalName := by
  intro h
  rw [SourceTypeCtx.nestedByName] at h
  obtain ⟨i, hi, hfound, -⟩ := findSome?_splitsFromLongest.mp h
  obtain ⟨owner, howner, hcandidate⟩ := Option.bind_eq_some_iff.mp hfound
  dsimp only at hcandidate
  split at hcandidate
  · have hlen : (segments.take (i + 1)).length = i + 1 := by
      rw [List.length_take]
      omega
    have hback : segments.drop (i + 1) ≠ [] := List.ne_nil_of_length_pos (by rw [List.length_drop]; omega)
    have hparts := (List.take_append_drop (i + 1) segments).symm
    generalize segments.take (i + 1) = front at howner hlen hparts
    generalize segments.drop (i + 1) = back at hcandidate hback hparts
    rw [memberName_path_dollar owner hback, Option.some.injEq] at hcandidate
    have hfront : front ≠ [] := List.ne_nil_of_length_pos (by omega)
    obtain ⟨hlong, rfl, hexists⟩ := ownerOf_eq_some hfront
      (fun s hs => hscope s (by rwa [hparts, List.head?_append_of_ne_nil _ hfront])) howner
    exact hnone front back hparts ⟨hlong, hexists,
      hsegments.member front back hparts hfront hback hexists hcandidate.symm,
      Option.isSome_of_mem hc⟩
  · cases hcandidate

theorem resolveBaseInternal_iff (hjava : ∀ c ∈ ctx.view.records, JavaNamed c)
    (hsegments : Segments ctx.view c segments) (hc : ctx.view.getClass c.internalName = some c)
    (hscope : ∀ s ∈ segments.head?, ctx.resolveSimpleStrict s = none) :
    ctx.resolveBaseInternal (".".intercalate segments).toList = some c.internalName ↔
      LongestFrontLeads ctx.view c.internalName := by
  have hne : segments ≠ [] := List.ne_nil_of_length_pos (by have := hsegments.long; omega)
  have hplain : ∀ s ∈ segments, IsIdentifier s := fun s hs => (hsegments.names s hs).identifier
  have hparts := dottedParts_path hplain hne
  have hpath := @resolveQualifiedTypePath_iff ctx segments hjava hsegments.names hne hscope
  have hdot : '.' ∈ (".".intercalate segments).toList := dot_mem_path hsegments.long
  rw [SourceTypeCtx.resolveBaseInternal, String.ofList_toList, if_neg (slash_not_mem_path hplain), if_pos hdot]
  constructor
  · intro h
    suffices hfront : ∃ front back, segments = front ++ back ∧ LeadsFrom ctx.view front back c.internalName ∧
        ∀ front' back' found, segments = front' ++ back' → front.length < front'.length →
          ¬ LeadsFrom ctx.view front' back' found by
      obtain ⟨front, back, hsplit, hleads, hlongest⟩ := hfront
      refine ⟨_, front, back, hsegments.source, hparts.trans hsplit, hleads, fun front' back' found heq => ?_⟩
      exact hlongest front' back' found (hparts.symm.trans heq)
    split at h
    · rename_i d hd
      obtain ⟨front, back, hsplit, hleads, -, hlongest⟩ := hpath.mp hd
      rw [Option.some.inj h] at hleads
      exact ⟨front, back, hsplit, hleads, hlongest⟩
    · rename_i hnone
      exfalso
      have hno : ∀ front back found, segments = front ++ back → ¬ LeadsFrom ctx.view front back found :=
        not_leadsFrom hjava hsegments.names hscope hnone
      simp only [hparts, List.isEmpty_iff, if_neg hne, slashed_path fun s hs => (hplain s hs).dot_not_mem] at h
      split at h
      · rename_i hexists
        exact hno segments [] _ (List.append_nil segments).symm ⟨hsegments.long, hexists, .done _, hexists⟩
      · exact nestedByName_ne hsegments hc hscope (fun front back heq => hno front back _ heq) h
  · rintro ⟨name, front, back, hname, hsplit, hleads, hlongest⟩
    obtain rfl := Option.some.inj (hsegments.source.symm.trans hname)
    rw [hparts] at hsplit hlongest
    rw [hpath.mpr ⟨front, back, hsplit, hleads, hc, hlongest⟩]

end Resolving

end JavaAnalyzer.Completion
