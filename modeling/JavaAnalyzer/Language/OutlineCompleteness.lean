import JavaAnalyzer.Language.Outline

/-! # When an outline is complete

The fields and methods that the outline lists of a type are those of the extraction, declaration by declaration, as long
as the type has no annotation elements. With it the condition under which the outline of a file is complete. -/

namespace JavaAnalyzer.Language
set_option autoImplicit false
open Index

/-! ## Declaration by declaration -/

mutual

theorem memberSymbols_flatMap (ancestors : List Node) : ∀ n : Node,
    memberSymbols n = (memberNodesOfChild ancestors n).flatMap fun d => memberSymbols d.node
  | .mk kind field text children => by
    rw [memberNodesOfChild]
    split_ifs with hkind
    · subst hkind
      rw [← collectTypeMembers_flatMap _ children]
      rfl
    · rw [List.flatMap_singleton]

theorem collectTypeMembers_flatMap (ancestors : List Node) : ∀ nodes : List Node,
    collectTypeMembers nodes = (memberNodesOf ancestors nodes).flatMap fun d => memberSymbols d.node
  | [] => rfl
  | n :: nodes => by
    rw [collectTypeMembers, memberNodesOf, List.flatMap_append, ← memberSymbols_flatMap ancestors n,
      ← collectTypeMembers_flatMap ancestors nodes]

end

mutual

theorem outlined_memberNodesOfChild {ancestors : List Node} {d : Cursor} : ∀ {n : Node},
    outlined .members n = true → d ∈ memberNodesOfChild ancestors n → outlined .members d.node = true
  | .mk kind field text children, h, hd => by
    rw [memberNodesOfChild] at hd
    split_ifs at hd with hkind
    · subst hkind
      exact outlined_memberNodesOf (by simpa [outlined_eq, Level.hides, Level.below, classDeclKinds, methodSymbolKinds,
        constructorKinds, Node.kind, Node.children] using h) hd
    · obtain rfl := List.mem_singleton.mp hd
      exact h

theorem outlined_memberNodesOf {ancestors : List Node} {d : Cursor} : ∀ {nodes : List Node},
    allOutlined .members nodes = true → d ∈ memberNodesOf ancestors nodes → outlined .members d.node = true
  | n :: nodes, h, hd => by
    rw [allOutlined, Bool.and_eq_true] at h
    rw [memberNodesOf, List.mem_append] at hd
    rcases hd with hd | hd
    · exact outlined_memberNodesOfChild h.1 hd
    · exact outlined_memberNodesOf h.2 hd

end

/-! ## The names of one declaration -/

section Names

variable {ctx : MemberCtx} {b : ClassBody} {d : Cursor} (hd : d ∈ memberNodes b.body)

/-- The outline and the extraction give the same names for the declaration. -/
structure SameNames (ctx : MemberCtx) (d : Cursor) : Prop where
  fields : symbolNames .fieldKind (memberSymbols d.node) = (fieldsOf (membersOf ctx d)).map FieldSummary.name
  methods : symbolNames .methodKind (memberSymbols d.node) =
    ((methodsOf (membersOf ctx d)).map MethodSummary.name).filter (· ≠ "<init>")

include hd

theorem sameNames_method (hkind : d.kind = "method_declaration")
    (hidentifiers : ∀ n ∈ b.body.node.subnodes, n.kind = "identifier" → isMethodName n.text = true) :
    SameNames ctx d := by
  obtain ⟨nameNode, hname, hidentifier⟩ := b.named d hd (by rw [hkind]; decide)
  have hnameKind : nameNode.kind = "identifier" := by simpa using List.find?_some hidentifier
  have hmethod := hidentifiers nameNode
    (Node.mem_subnodes_of_child (b.mem_subnodes hd) (Node.childByFieldName_mem hname)) hnameKind
  have hnotInit : nameNode.text ≠ "<init>" := by
    intro heq
    rw [heq] at hmethod
    exact absurd hmethod (by decide)
  have hsymbols : memberSymbols d.node = [.mk nameNode.text none .methodKind d.node nameNode none] := by
    rw [memberSymbols_eq, show d.node.kind = "method_declaration" from hkind, parseMethodSymbol, hname,
      show d.node.kind = "method_declaration" from hkind]
    rfl
  obtain ⟨m, hm, hmname⟩ : ∃ m, parseMethodNode ctx d.node = some (.method m) ∧ m.name = nameNode.text := by
    rw [parseMethodNode, hidentifier, Option.map_some, Option.filter_some, if_pos hmethod]
    exact ⟨_, rfl, rfl⟩
  have hmembers : membersOf ctx d = [.method m] := by
    rw [membersOf_method hd hkind, hm]
    rfl
  rw [← hmname] at hnotInit hsymbols
  refine ⟨by rw [hsymbols, hmembers]; rfl, ?_⟩
  have hkept : [m.name].filter (fun name => name ≠ "<init>") = [m.name] :=
    List.filter_eq_self.mpr (by simpa using hnotInit)
  rw [hsymbols, hmembers]
  exact hkept.symm

omit hd in
theorem sameNames_constructor (hkind : d.kind ∈ constructorKinds) : SameNames ctx d := by
  have hclass : ¬classDeclKinds.contains d.node.kind = true := by
    rcases List.mem_pair.mp hkind with h | h <;> rw [show d.node.kind = _ from h] <;> decide
  have hmethod : methodSymbolKinds.contains d.node.kind = true := by
    rcases List.mem_pair.mp hkind with h | h <;> rw [show d.node.kind = _ from h] <;> decide
  have hsymbols : memberSymbols d.node = (parseMethodSymbol d.node).toList := by
    rw [memberSymbols_eq, if_neg hclass, if_pos hmethod]
  have hcontains : constructorKinds.contains d.node.kind = true := List.contains_iff_mem.mpr hkind
  rw [parseMethodSymbol, if_pos hcontains] at hsymbols
  have hmembers := @membersOf_constructor ctx d hkind
  constructor
  · rw [hsymbols, hmembers]
    cases (d.node.childByFieldName "name").or (d.node.childByFieldName "identifier") <;> rfl
  · rw [hsymbols, hmembers]
    cases (d.node.childByFieldName "name").or (d.node.childByFieldName "identifier") <;> rfl

/-- The names of the declarators, read in two ways. -/
theorem fieldNames_eq (hkind : d.kind = "field_declaration") (hnamed : Named b.body.node.subnodes)
    (hidentifiers : ∀ n ∈ b.body.node.subnodes, n.kind = "identifier" → isMethodName n.text = true) :
    fieldNames d.node = (declaratorNames d.node).map Node.text := by
  rw [fieldNames, declaratorNames, List.map_filterMap]
  refine List.filterMap_congr fun declarator hmem => ?_
  obtain ⟨hchild, hdeclarator⟩ := List.mem_filter.mp hmem
  have hkindOf := of_decide_eq_true hdeclarator
  have hsub := Node.mem_subnodes_of_child (b.mem_subnodes hd) hchild
  obtain ⟨nameNode, hname⟩ := hnamed declarator hsub (by rw [hkindOf]; decide)
  have hfirst := b.declarators d hd hkind declarator hchild hkindOf
  rw [declarationNameNode, hname, Option.some_or] at hfirst
  have hnameKind : nameNode.kind = "identifier" := by simpa using List.find?_some hfirst.symm
  have hmethod := hidentifiers nameNode (Node.mem_subnodes_of_child hsub (Node.childByFieldName_mem hname)) hnameKind
  rw [isMethodName, Bool.and_eq_true] at hmethod
  rw [← hfirst, hname, Option.map_some, Option.filter_some, if_pos hmethod.2]

omit hd in
theorem membersOf_fields (names : List String) (f : String → FieldSummary) :
    fieldsOf (names.map fun name => .field (f name)) = names.map f ∧
      methodsOf (names.map fun name => .field (f name)) = [] := by
  induction names with
  | nil => exact ⟨rfl, rfl⟩
  | cons name names ih => exact ⟨congrArg (f name :: ·) ih.1, ih.2⟩

omit hd in
theorem symbolNames_fields (n : Node) : symbolNames .fieldKind (parseFieldSymbols n) = (declaratorNames n).map Node.text ∧
    symbolNames .methodKind (parseFieldSymbols n) = [] := by
  rw [parseFieldSymbols]
  induction declaratorNames n with
  | nil => exact ⟨rfl, rfl⟩
  | cons nameNode names ih => exact ⟨congrArg (nameNode.text :: ·) ih.1, ih.2⟩

theorem sameNames_field (hkind : d.kind = "field_declaration") (hnamed : Named b.body.node.subnodes)
    (hidentifiers : ∀ n ∈ b.body.node.subnodes, n.kind = "identifier" → isMethodName n.text = true) :
    SameNames ctx d := by
  have hsymbols : memberSymbols d.node = parseFieldSymbols d.node := by
    rw [memberSymbols_eq, show d.node.kind = "field_declaration" from hkind]
    rfl
  have hmembers := @membersOf_field ctx d hkind
  rw [parseFieldNode] at hmembers
  have hfields := membersOf_fields (fieldNames d.node)
  constructor
  · rw [hsymbols, hmembers, (symbolNames_fields d.node).1, (hfields _).1, List.map_map,
      fieldNames_eq hd hkind hnamed hidentifiers]
    exact (List.map_id _).symm
  · rw [hsymbols, hmembers, (symbolNames_fields d.node).2, (hfields _).2]
    rfl

/-- A type declaration, an enum constant, or no declaration of a member. -/
theorem sameNames_other (hkind : d.kind ∉ memberKinds) : SameNames ctx d := by
  have hmembers := @membersOf_other ctx b d hd hkind
  have hother : memberSymbols d.node =
      if classDeclKinds.contains d.node.kind then (buildTypeSymbol d.node).toList
      else if enumConstantKinds.contains d.node.kind then (parseEnumConstantSymbol d.node).toList
      else [] := by
    have herror := b.noError d.node (b.mem_subnodes hd)
    have hdecls := (memberNodesOf_spec hd).1
    change d.node.kind ∉ memberKinds at hkind
    change d.node.kind ≠ "enum_body_declarations" at hdecls
    simp only [memberKinds, List.mem_cons, List.not_mem_nil, or_false, not_or] at hkind
    simp [memberSymbols_eq, methodSymbolKinds, constructorKinds, hkind, herror, hdecls]
  have hnone : ∀ kind, kind = .fieldKind ∨ kind = .methodKind → symbolNames kind (memberSymbols d.node) = [] := by
    intro kind hsought
    rw [hother]
    split_ifs
    · rw [buildTypeSymbol, typeSymbol]
      cases d.node.childByFieldName "name" with
      | none => rfl
      | some nameNode =>
        have hne : typeSymbolKind d.node ≠ kind := by
          rw [typeSymbolKind]
          rcases hsought with rfl | rfl <;> split_ifs <;> decide
        simp [symbolNames, DocumentSymbol.kind, hne]
    · rw [parseEnumConstantSymbol]
      cases ((d.node.childByFieldName "name").or (d.node.childByFieldName "identifier")).or
        (d.node.firstChildOfKind "identifier") with
      | none => rfl
      | some nameNode => rcases hsought with rfl | rfl <;> rfl
    · rfl
  constructor
  · rw [hmembers, hnone _ (.inl rfl)]
    rfl
  · rw [hmembers, hnone _ (.inr rfl)]
    rfl

theorem sameNames_of_outlined (houtlined : outlined .members d.node = true) (hnamed : Named b.body.node.subnodes)
    (hidentifiers : ∀ n ∈ b.body.node.subnodes, n.kind = "identifier" → isMethodName n.text = true) :
    SameNames ctx d := by
  by_cases hmethod : d.kind = "method_declaration"
  · exact sameNames_method hd hmethod hidentifiers
  by_cases hconstructor : d.kind ∈ constructorKinds
  · exact sameNames_constructor hconstructor
  by_cases hfield : d.kind = "field_declaration"
  · exact sameNames_field hd hfield hnamed hidentifiers
  refine sameNames_other hd fun hmem => ?_
  have helement : d.node.kind = "annotation_type_element_declaration" := by
    change d.node.kind ∈ memberKinds at hmem
    change ¬d.node.kind = "method_declaration" at hmethod
    change d.node.kind ∉ constructorKinds at hconstructor
    change ¬d.node.kind = "field_declaration" at hfield
    rw [constructorKinds, List.mem_pair, not_or] at hconstructor
    simpa [memberKinds, hmethod, hconstructor, hfield] using hmem
  rw [outlined_eq, helement] at houtlined
  exact absurd houtlined (by simp [Level.hides, classDeclKinds])

end Names

/-! ## The names of a type -/

theorem symbolNames_flatMap {α : Type} (kind : SymbolKind) (xs : List α) (f : α → List DocumentSymbol) :
    symbolNames kind (xs.flatMap f) = xs.flatMap fun x => symbolNames kind (f x) := by
  rw [symbolNames, List.filter_flatMap, List.map_flatMap]
  rfl

theorem agrees_of_outlined (ctx : MemberCtx) (b : ClassBody)
    (houtlined : allOutlined .members b.body.node.children = true) (hnamed : Named b.body.node.subnodes)
    (hidentifiers : ∀ n ∈ b.body.node.subnodes, n.kind = "identifier" → isMethodName n.text = true) :
    symbolNames .fieldKind (collectTypeMembers b.body.node.children) =
        (fieldsOf (extractClassMembersFromBody ctx b.body)).map FieldSummary.name ∧
      symbolNames .methodKind (collectTypeMembers b.body.node.children) =
        ((methodsOf (extractClassMembersFromBody ctx b.body)).map MethodSummary.name).filter (· ≠ "<init>") := by
  have hsame : ∀ d ∈ memberNodes b.body, SameNames ctx d := fun d hd =>
    sameNames_of_outlined hd (outlined_memberNodesOf houtlined hd) hnamed hidentifiers
  rw [extract_eq, collectTypeMembers_flatMap b.body.path, symbolNames_flatMap, symbolNames_flatMap, fieldsOf, methodsOf,
    List.filterMap_flatMap, List.filterMap_flatMap, List.map_flatMap, List.map_flatMap, List.filter_flatMap]
  exact ⟨List.flatMap_congr fun d hd => (hsame d hd).fields, List.flatMap_congr fun d hd => (hsame d hd).methods⟩

namespace JavaFile

variable (file : JavaFile)

theorem agrees_of_complete (h : allOutlined .file file.root.children = true) : file.AgreesWithExtraction := by
  intro ctx t ht body hbody
  rw [typesOutsideOf_eq, List.mem_flatMap] at ht
  obtain ⟨child, hchild, ht⟩ := ht
  obtain ⟨b, rfl⟩ := file.bodies t (by rw [typesOutsideOf_eq]; exact List.mem_flatMap.mpr ⟨child, hchild, ht⟩) _ hbody
  rw [allOutlined_eq, List.all_eq_true] at h
  obtain ⟨hmem, hkind, houtlined⟩ := outlined_of_typesOutside (h child hchild) ht
  have hsub := Grammatical.mem_trans (Node.mem_subnodes_of_child (Grammatical.self_mem file.root) hchild) hmem
  obtain ⟨front, bodyNode, back, hchildren, -, hfind, -, hbodyOutlined⟩ :=
    (file.grammatical.below hsub).exists_body hkind
  obtain ⟨found, hfound, hcursor⟩ := Option.map_eq_some_iff.mp hbody
  obtain rfl : bodyNode = found := Option.some.inj (hfind.symm.trans hfound)
  have hnode : b.body.node = bodyNode := by rw [← hcursor]; rfl
  have hbodySub : b.body.node ∈ file.root.subnodes := by
    rw [hnode]
    exact Node.mem_subnodes_of_child hsub (Node.childByFieldName_mem hfind)
  have hmembers : allOutlined .members b.body.node.children = true := by
    rw [allOutlined_eq, List.all_eq_true] at houtlined
    rw [allOutlined_eq, hnode, ← hbodyOutlined]
    exact houtlined bodyNode (Node.childByFieldName_mem hfind)
  have hlisted : bodySymbols t.node.children = collectTypeMembers b.body.node.children := by
    rw [bodySymbols_eq, hnode]
    exact congrArg (fun found => (Option.map (fun body => collectTypeMembers (Node.children body)) found).getD []) hfind
  rw [hlisted]
  exact agrees_of_outlined ctx b hmembers (file.grammatical.below hbodySub).named fun n hn =>
    file.identifiers n (Grammatical.mem_trans hbodySub hn)

end JavaFile

/-- The outline is complete, with the names of the extraction, exactly when all declarations stand where it looks. -/
theorem outline_complete_iff (file : JavaFile) :
    file.Complete ∧ file.AgreesWithExtraction ↔ allOutlined .file file.root.children = true :=
  ⟨fun h => file.complete_iff.mp h.1, fun h => ⟨file.complete_iff.mpr h, file.agrees_of_complete h⟩⟩

/-! ## An annotation type -/

def valueElement : Node :=
  .mk "annotation_type_element_declaration" none "int value();" [.mk "integral_type" (some "type") "int" [],
    .mk "identifier" (some "name") "value" [], .mk "(" none "(" [], .mk ")" none ")" [], .mk ";" none ";" []]

def annotationBody : Node :=
  .mk "annotation_type_body" (some "body") "\x7b int value(); \x7d"
    [.mk "\x7b" none "\x7b" [], valueElement, .mk "\x7d" none "\x7d" []]

def annotationType : Node :=
  .mk "annotation_type_declaration" none "@interface A \x7b int value(); \x7d"
    [.mk "@interface" none "@interface" [], .mk "identifier" (some "name") "A" [], annotationBody]

def annotationRoot : Node :=
  .mk "program" none "@interface A \x7b int value(); \x7d" [annotationType]

def annotationClassBody : ClassBody where
  body := ⟨annotationBody, [annotationType, annotationRoot]⟩
  noError := by decide
  notBody := by decide
  named d hd hkind := by
    have hnone : ∀ d ∈ memberNodes ⟨annotationBody, [annotationType, annotationRoot]⟩,
      d.kind ∉ ["method_declaration", "constructor_declaration", "compact_constructor_declaration"] := by decide
    exact absurd hkind (hnone d hd)
  typed d hd hkind child hchild hmem := by
    rw [show memberNodes ⟨annotationBody, [annotationType, annotationRoot]⟩ =
      annotationBody.children.map fun n => ⟨n, [annotationBody, annotationType, annotationRoot]⟩ from rfl] at hd
    obtain ⟨n, hn, rfl⟩ := List.mem_map.mp hd
    have hdeclared : ∀ n ∈ annotationBody.children, n.kind ∈ ["method_declaration",
        "annotation_type_element_declaration"] → ∀ child ∈ n.children, child.kind ∈ methodReturnTypeKinds →
          child.field = some "type" ∧ (n.children.filter fun child => child.field = some "type").length = 1 := by
      decide
    obtain ⟨hfield, hlength⟩ := hdeclared n hn hkind child hchild hmem
    obtain ⟨only, honly⟩ := List.length_eq_one_iff.mp hlength
    have hin : child ∈ n.children.filter fun child => child.field = some "type" :=
      List.mem_filter.mpr ⟨hchild, decide_eq_true hfield⟩
    rw [honly, List.mem_singleton] at hin
    change n.childByFieldName "type" = some child
    rw [Node.childByFieldName, ← List.head?_filter, honly, hin]
    rfl
  declarators d hd hkind := by
    have hnone : ∀ d ∈ memberNodes ⟨annotationBody, [annotationType, annotationRoot]⟩,
      d.kind ≠ "field_declaration" := by decide
    exact absurd hkind (hnone d hd)
  statements d hd hkind := by
    have hnone : ∀ d ∈ memberNodes ⟨annotationBody, [annotationType, annotationRoot]⟩,
      d.kind ≠ "method_declaration" := by decide
    exact absurd hkind (hnone d hd)

def annotationFile : JavaFile where
  root := annotationRoot
  noError := by decide
  program := by decide
  named n hn hkind := by
    have hsome : ∀ n ∈ annotationRoot.subnodes, n.kind ∈ namedKinds →
      (n.childByFieldName "name").isSome = true := by decide
    exact Option.isSome_iff_exists.mp (hsome n hn hkind)
  declared := by decide
  oneBody := by decide
  identifiers := by decide
  bodies t ht body hbody := by
    obtain rfl := List.mem_singleton.mp ht
    exact ⟨annotationClassBody, Option.some.inj hbody⟩

/-- The element of an annotation type is not listed. -/
theorem annotation_element_missing : ¬∀ file : JavaFile, file.Complete ∧ file.AgreesWithExtraction := fun h =>
  absurd (annotationFile.complete_iff.mp (h annotationFile).1) (by decide)

end JavaAnalyzer.Language
