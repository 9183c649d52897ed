import JavaAnalyzer.Language.ModuleClauses

/-! # Descriptors out of declarations

What is extracted from a module declaration as it is written, compared with what is extracted when nothing stands
between its tokens that need not be there; and descriptors that are rendered and extracted again. -/

namespace JavaAnalyzer.Language
set_option autoImplicit false
open Semantic Text Words

/-! ## Lists of what is read -/

section FilterMap

variable {α β : Type} {f g : α → Option β} {l : List α}

theorem length_filterMap_le (h : ∀ x ∈ l, (f x).isSome → (g x).isSome) :
    (l.filterMap f).length ≤ (l.filterMap g).length := by
  induction l with
  | nil => exact le_rfl
  | cons x l ih =>
    have hle := ih fun y hy => h y (List.mem_cons_of_mem _ hy)
    cases hf : f x with
    | none =>
      rw [List.filterMap_cons_none hf]
      exact hle.trans ((List.sublist_cons_self x l).filterMap g).length_le
    | some b =>
      obtain ⟨b', hg⟩ := Option.isSome_iff_exists.mp (h x List.mem_cons_self (by rw [hf]; rfl))
      rw [List.filterMap_cons_some hf, List.filterMap_cons_some hg]
      exact Nat.succ_le_succ hle

/-- When one reader finds something wherever the other does, they find the same lists exactly where they agree. -/
theorem filterMap_eq_iff (h : ∀ x ∈ l, (f x).isSome → (g x).isSome) :
    l.filterMap f = l.filterMap g ↔ ∀ x ∈ l, f x = g x := by
  induction l with
  | nil => exact iff_of_true rfl fun x hx => absurd hx List.not_mem_nil
  | cons x l ih =>
    have hl : ∀ y ∈ l, (f y).isSome → (g y).isSome := fun y hy => h y (List.mem_cons_of_mem _ hy)
    rw [List.forall_mem_cons, ← ih hl]
    cases hf : f x with
    | none =>
      rw [List.filterMap_cons_none hf]
      cases hg : g x with
      | none =>
        rw [List.filterMap_cons_none hg]
        exact (and_iff_right rfl).symm
      | some b =>
        rw [List.filterMap_cons_some hg]
        refine iff_of_false (fun heq => ?_) fun heq => Option.some_ne_none _ heq.1.symm
        have hlen := length_filterMap_le hl
        rw [heq, List.length_cons] at hlen
        omega
    | some b =>
      obtain ⟨b', hg⟩ := Option.isSome_iff_exists.mp (h x List.mem_cons_self (by rw [hf]; rfl))
      rw [List.filterMap_cons_some hf, List.filterMap_cons_some hg, hg, List.cons.injEq, Option.some.injEq]

end FilterMap

/-- Text that cannot hold a character of the middle is on one side of it. -/
theorem infix_append_cons_iff {α : Type} {w a b : List α} {c : α} (hc : c ∉ w) :
    w <:+: a ++ c :: b ↔ w <:+: a ∨ w <:+: b := by
  constructor
  · rintro ⟨s, t, h⟩
    rw [List.append_assoc] at h
    rcases List.append_eq_append_iff.mp h with ⟨more, rfl, hmore⟩ | ⟨more, rfl, hmore⟩
    · rcases List.append_eq_append_iff.mp hmore with ⟨more', rfl, -⟩ | ⟨more', rfl, hback⟩
      · exact .inl ⟨s, more', by rw [List.append_assoc]⟩
      · cases more' with
        | nil => exact .inl ⟨s, [], by simp⟩
        | cons d more' =>
          obtain ⟨rfl, -⟩ := List.cons.inj hback
          exact absurd (by simp) hc
    · cases more with
      | nil =>
        cases w with
        | nil => exact .inl (List.nil_infix)
        | cons d w =>
          obtain ⟨rfl, -⟩ := List.cons.inj hmore
          exact absurd List.mem_cons_self hc
      | cons d more =>
        obtain ⟨-, rfl⟩ := List.cons.inj hmore
        exact .inr ⟨more, t, by rw [List.append_assoc]; rfl⟩
  · rintro (h | h)
    · exact h.trans ⟨[], c :: b, rfl⟩
    · exact h.trans ⟨a ++ [c], [], by simp⟩

/-! ## The loop over the directives -/

def readRequires (child : DirectiveKind × List Char) : Option JavaModuleRequires :=
  if child.1 = .requires then parseRequiresDirective (trim child.2) else none

def readPackage (kind : ClauseKind) (child : DirectiveKind × List Char) : Option JavaModulePackageDirective :=
  if child.1 = kind.directiveKind then parsePackageDirective (trim child.2) kind.keyword else none

def readUses (child : DirectiveKind × List Char) : Option (List Char) :=
  if child.1 = .uses then parseUsesDirective (trim child.2) else none

def readProvides (child : DirectiveKind × List Char) : Option JavaModuleProvides :=
  if child.1 = .provides then parseProvidesDirective (trim child.2) else none

theorem foldl_push (children : List (DirectiveKind × List Char)) (d : JavaModuleDescriptor) :
    children.foldl JavaModuleDescriptor.push d =
      ⟨d.name, d.isOpen, d.requires ++ children.filterMap readRequires,
        d.exports ++ children.filterMap (readPackage .exports), d.opens ++ children.filterMap (readPackage .opens), d.uses ++ children.filterMap readUses,
        d.provides ++ children.filterMap readProvides⟩ := by
  have hcons : ∀ {β : Type} (f : DirectiveKind × List Char → Option β) (child : DirectiveKind × List Char)
      (children : List (DirectiveKind × List Char)),
      (child :: children).filterMap f = (f child).toList ++ children.filterMap f := fun f child children => by
    cases hf : f child with
    | none => rw [List.filterMap_cons_none hf]; rfl
    | some b => rw [List.filterMap_cons_some hf]; rfl
  induction children generalizing d with
  | nil => simp
  | cons child children ih =>
    obtain ⟨kind, text⟩ := child
    rw [List.foldl_cons, ih, hcons, hcons, hcons, hcons, hcons]
    cases kind <;>
      simp [JavaModuleDescriptor.push, readRequires, readPackage, readUses, readProvides, ClauseKind.directiveKind,
        ClauseKind.keyword]

/-! ## Declarations -/

namespace LaidDirective

def Clean : LaidDirective → Prop
  | requires d => d.Clean
  | clause d => d.Clean

/-- What the parser has for the directive. -/
def child (d : LaidDirective) : DirectiveKind × List Char :=
  (d.kind, d.text)

theorem readRequires_requires (d : LaidRequires) :
    readRequires (requires d).child = parseRequiresDirective (trim (requires d).text) := by
  rw [readRequires, if_pos (show (requires d).child.1 = .requires from rfl)]
  rfl

theorem readRequires_clause (d : LaidClause) : readRequires (clause d).child = none := by
  have hkind : (clause d).child.1 ≠ .requires := by
    change d.kind.directiveKind ≠ .requires
    cases d.kind <;> simp [ClauseKind.directiveKind]
  rw [readRequires, if_neg hkind]

theorem readPackage_requires (kind : ClauseKind) (d : LaidRequires) : readPackage kind (requires d).child = none := by
  have hkind : (requires d).child.1 ≠ kind.directiveKind := by
    change DirectiveKind.requires ≠ kind.directiveKind
    cases kind <;> simp [ClauseKind.directiveKind]
  rw [readPackage, if_neg hkind]

theorem readUses_requires (d : LaidRequires) : readUses (requires d).child = none := by
  rw [readUses, if_neg (show (requires d).child.1 ≠ .uses from by change DirectiveKind.requires ≠ .uses; decide)]

theorem readProvides_requires (d : LaidRequires) : readProvides (requires d).child = none := by
  rw [readProvides,
    if_neg (show (requires d).child.1 ≠ .provides from by change DirectiveKind.requires ≠ .provides; decide)]

theorem readPackage_of_ne {kind : ClauseKind} {d : LaidClause} (h : d.kind ≠ kind) :
    readPackage kind (clause d).child = none := by
  have hkind : (clause d).child.1 ≠ kind.directiveKind := by
    change d.kind.directiveKind ≠ kind.directiveKind
    revert h
    cases d.kind <;> cases kind <;> simp [ClauseKind.directiveKind]
  rw [readPackage, if_neg hkind]

theorem readUses_of_ne {d : LaidClause} (h : d.kind ≠ .uses) : readUses (clause d).child = none := by
  have hkind : (clause d).child.1 ≠ .uses := by
    change d.kind.directiveKind ≠ .uses
    revert h
    cases d.kind <;> simp [ClauseKind.directiveKind]
  rw [readUses, if_neg hkind]

theorem readProvides_of_ne {d : LaidClause} (h : d.kind ≠ .provides) : readProvides (clause d).child = none := by
  have hkind : (clause d).child.1 ≠ .provides := by
    change d.kind.directiveKind ≠ .provides
    revert h
    cases d.kind <;> simp [ClauseKind.directiveKind]
  rw [readProvides, if_neg hkind]

theorem readPackage_iff {d : LaidClause} (hword : d.kind.word = "to") :
    readPackage d.kind (clause d).child = some ⟨d.name.name, d.names⟩ ↔ d.Clean := by
  rw [readPackage, if_pos (show (clause d).child.1 = d.kind.directiveKind from rfl)]
  exact LaidClause.parsePackage_iff hword

theorem readUses_iff {d : LaidClause} (hkind : d.kind = .uses) :
    readUses (clause d).child = some d.name.name ↔ d.Clean := by
  rw [readUses, if_pos (show (clause d).child.1 = .uses from congrArg ClauseKind.directiveKind hkind)]
  exact LaidClause.parseUses_iff hkind

theorem readProvides_iff {d : LaidClause} (hkind : d.kind = .provides) :
    readProvides (clause d).child = some ⟨d.name.name, d.names⟩ ↔ d.Clean := by
  rw [readProvides, if_pos (show (clause d).child.1 = .provides from congrArg ClauseKind.directiveKind hkind)]
  exact LaidClause.parseProvides_iff hkind

theorem name_squeeze (d : LaidClause) : d.squeeze.name.name = d.name.name :=
  LaidName.name_join _

/-- What is read of a squeezed clause is what its words mean. -/
theorem readPackage_squeeze {d : LaidClause} (hword : d.kind.word = "to") :
    readPackage d.kind (clause d.squeeze).child = some ⟨d.name.name, d.names⟩ := by
  have hread := (readPackage_iff (d := d.squeeze) hword).mpr d.clean_squeeze
  rw [LaidClause.names_squeeze, name_squeeze] at hread
  exact hread

theorem readUses_squeeze {d : LaidClause} (hkind : d.kind = .uses) :
    readUses (clause d.squeeze).child = some d.name.name := by
  have hread := (readUses_iff (d := d.squeeze) hkind).mpr d.clean_squeeze
  rw [name_squeeze] at hread
  exact hread

theorem readProvides_squeeze {d : LaidClause} (hkind : d.kind = .provides) :
    readProvides (clause d.squeeze).child = some ⟨d.name.name, d.names⟩ := by
  have hread := (readProvides_iff (d := d.squeeze) hkind).mpr d.clean_squeeze
  rw [LaidClause.names_squeeze, name_squeeze] at hread
  exact hread

/-- All readers agree on the two layouts. -/
structure Agree (d : LaidDirective) : Prop where
  requires : readRequires d.child = readRequires d.squeeze.child
  exports : readPackage .exports d.child = readPackage .exports d.squeeze.child
  opens : readPackage .opens d.child = readPackage .opens d.squeeze.child
  uses : readUses d.child = readUses d.squeeze.child
  provides : readProvides d.child = readProvides d.squeeze.child

theorem agree_iff (d : LaidDirective) : d.Agree ↔ d.Clean := by
  cases d with
  | requires d =>
    have hread : readRequires (requires d).child = readRequires (requires d.squeeze).child ↔ d.Clean := by
      rw [readRequires_requires, readRequires_requires]
      exact LaidRequires.parse_eq_iff
    refine ⟨fun h => hread.mp h.requires, fun h => ⟨hread.mpr h, ?_, ?_, ?_, ?_⟩⟩
    · rw [squeeze, readPackage_requires, readPackage_requires]
    · rw [squeeze, readPackage_requires, readPackage_requires]
    · rw [squeeze, readUses_requires, readUses_requires]
    · rw [squeeze, readProvides_requires, readProvides_requires]
  | clause d =>
    have hrequires : readRequires (clause d).child = readRequires (clause d.squeeze).child := by
      rw [readRequires_clause, readRequires_clause]
    have hpackage : ∀ kind, d.kind ≠ kind →
        readPackage kind (clause d).child = readPackage kind (clause d.squeeze).child := fun kind h => by
      rw [readPackage_of_ne h, readPackage_of_ne (d := d.squeeze) h]
    have huses : d.kind ≠ .uses → readUses (clause d).child = readUses (clause d.squeeze).child := fun h => by
      rw [readUses_of_ne h, readUses_of_ne (d := d.squeeze) h]
    have hprovides : d.kind ≠ .provides → readProvides (clause d).child = readProvides (clause d.squeeze).child :=
      fun h => by rw [readProvides_of_ne h, readProvides_of_ne (d := d.squeeze) h]
    cases hkind : d.kind with
    | exports =>
      have hword : d.kind.word = "to" := by rw [hkind]; rfl
      have hread := readPackage_iff hword
      rw [← readPackage_squeeze hword, hkind] at hread
      exact ⟨fun h => hread.mp h.exports, fun h => ⟨hrequires, hread.mpr h, hpackage _ (by simp [hkind]),
        huses (by simp [hkind]), hprovides (by simp [hkind])⟩⟩
    | opens =>
      have hword : d.kind.word = "to" := by rw [hkind]; rfl
      have hread := readPackage_iff hword
      rw [← readPackage_squeeze hword, hkind] at hread
      exact ⟨fun h => hread.mp h.opens, fun h => ⟨hrequires, hpackage _ (by simp [hkind]), hread.mpr h,
        huses (by simp [hkind]), hprovides (by simp [hkind])⟩⟩
    | uses =>
      have hread := readUses_iff hkind
      rw [← readUses_squeeze hkind] at hread
      exact ⟨fun h => hread.mp h.uses, fun h => ⟨hrequires, hpackage _ (by simp [hkind]), hpackage _ (by simp [hkind]),
        hread.mpr h, hprovides (by simp [hkind])⟩⟩
    | provides =>
      have hread := readProvides_iff hkind
      rw [← readProvides_squeeze hkind] at hread
      exact ⟨fun h => hread.mp h.provides, fun h => ⟨hrequires, hpackage _ (by simp [hkind]),
        hpackage _ (by simp [hkind]), huses (by simp [hkind]), hread.mpr h⟩⟩

/-- In no layout is a module lost that is read of the squeezed one. -/
theorem readRequires_isSome {d : LaidDirective} (h : (readRequires d.squeeze.child).isSome) :
    (readRequires d.child).isSome := by
  cases d with
  | requires d =>
    rw [squeeze, readRequires_requires, LaidRequires.parse_squeeze] at h
    rw [readRequires_requires]
    refine LaidRequires.parse_isSome fun hname => ?_
    rw [if_pos hname] at h
    exact absurd h Bool.false_ne_true
  | clause d =>
    rw [squeeze, readRequires_clause] at h
    exact absurd h Bool.false_ne_true

theorem readPackage_isSome {kind : ClauseKind} (hword : kind.word = "to") {d : LaidDirective}
    (h : (readPackage kind d.child).isSome) : (readPackage kind d.squeeze.child).isSome := by
  cases d with
  | requires d =>
    rw [readPackage_requires] at h
    exact absurd h Bool.false_ne_true
  | clause d =>
    by_cases hkind : d.kind = kind
    · subst hkind
      rw [squeeze, readPackage_squeeze hword]
      rfl
    · rw [readPackage_of_ne hkind] at h
      exact absurd h Bool.false_ne_true

theorem readUses_isSome {d : LaidDirective} (h : (readUses d.child).isSome) : (readUses d.squeeze.child).isSome := by
  cases d with
  | requires d =>
    rw [readUses_requires] at h
    exact absurd h Bool.false_ne_true
  | clause d =>
    by_cases hkind : d.kind = .uses
    · rw [squeeze, readUses_squeeze hkind]
      rfl
    · rw [readUses_of_ne hkind] at h
      exact absurd h Bool.false_ne_true

theorem readProvides_isSome {d : LaidDirective} (h : (readProvides d.child).isSome) :
    (readProvides d.squeeze.child).isSome := by
  cases d with
  | requires d =>
    rw [readProvides_requires] at h
    exact absurd h Bool.false_ne_true
  | clause d =>
    by_cases hkind : d.kind = .provides
    · rw [squeeze, readProvides_squeeze hkind]
      rfl
    · rw [readProvides_of_ne hkind] at h
      exact absurd h Bool.false_ne_true

end LaidDirective

namespace LaidModule

variable {m : LaidModule}

/-- The letters of `open` stand before the name where they stand without the annotations, or the annotations have none
of them; and every directive is clean. -/
def Clean (m : LaidModule) : Prop :=
  ("open".toList <:+: m.header ∨ ¬"open".toList <:+: m.annotations) ∧ ∀ entry ∈ m.directives, entry.2.Clean

theorem filterMap_comments {β : Type} {f : DirectiveKind × List Char → Option β}
    (hother : ∀ text, f (.other, text) = none) (s : Spacing) : s.comments.filterMap f = [] := by
  rw [Spacing.comments, List.filterMap_map]
  exact List.filterMap_eq_nil_iff.mpr fun t _ => hother t.text

/-- The comments between the directives are passed over. -/
theorem filterMap_children {β : Type} {f : DirectiveKind × List Char → Option β}
    (hother : ∀ text, f (.other, text) = none) (m : LaidModule) :
    m.node.children.filterMap f = m.directives.filterMap fun entry => f entry.2.child := by
  have hdirectives : ∀ directives : List (Spacing × LaidDirective),
      (directives.flatMap fun entry => entry.1.comments ++ [(entry.2.kind, entry.2.text)]).filterMap f =
        directives.filterMap fun entry => f entry.2.child := fun directives => by
    induction directives with
    | nil => rfl
    | cons entry directives ih =>
      rw [List.flatMap_cons, List.filterMap_append, ih, List.filterMap_append, filterMap_comments hother,
        List.nil_append, List.filterMap_cons, List.filterMap_cons]
      rw [show f (entry.2.kind, entry.2.text) = f entry.2.child from rfl]
      cases f entry.2.child <;> rfl
  rw [node, List.filterMap_append, filterMap_comments hother, List.append_nil, hdirectives]

theorem extract_node (m : LaidModule) : extractModuleDescriptorFromRoot (some m.node) =
    some ⟨m.name.text, decide ("open".toList <:+: m.annotations ++ m.header),
      m.directives.filterMap fun entry => readRequires entry.2.child,
      m.directives.filterMap fun entry => readPackage .exports entry.2.child,
      m.directives.filterMap fun entry => readPackage .opens entry.2.child,
      m.directives.filterMap fun entry => readUses entry.2.child,
      m.directives.filterMap fun entry => readProvides entry.2.child⟩ := by
  have hname : trim m.node.name = m.name.text := m.name.solid_text.trim_eq
  have hne : m.name.text.isEmpty = false := by simpa using m.name.solid_text.ne_nil
  rw [extractModuleDescriptorFromRoot, Option.bind_some, hname]
  dsimp only
  rw [if_neg (by rw [hne]; exact Bool.false_ne_true), foldl_push, filterMap_children fun _ => rfl,
    filterMap_children fun _ => rfl, filterMap_children fun _ => rfl, filterMap_children fun _ => rfl,
    filterMap_children fun _ => rfl]
  rfl

theorem open_iff (m : LaidModule) : ("open".toList <:+: m.annotations ++ m.header ↔ "open".toList <:+: m.header) ↔
    "open".toList <:+: m.header ∨ ¬"open".toList <:+: m.annotations := by
  have hheader : "open".toList <:+: m.header → "open".toList <:+: m.annotations ++ m.header := fun h =>
    h.trans (List.suffix_append _ _).isInfix
  by_cases hopen : "open".toList <:+: m.header
  · exact iff_of_true (iff_of_true (hheader hopen) hopen) (.inl hopen)
  · have hmodule : m.header = 'm' :: ("odule".toList ++ m.lead.text) := by
      rw [header] at hopen ⊢
      cases hopened : m.opened with
      | none => rfl
      | some s =>
        rw [hopened] at hopen
        exact absurd ⟨[], s.text ++ ("module".toList ++ m.lead.text), by simp⟩ hopen
    have hbehind : ¬"open".toList <:+: "odule".toList ++ m.lead.text := fun h =>
      hopen (h.trans (by rw [hmodule]; exact (List.suffix_cons _ _).isInfix))
    rw [hmodule] at hopen ⊢
    rw [infix_append_cons_iff (by simp)]
    tauto

/-- What is extracted does not change exactly where the layout is clean. -/
theorem extract_eq_iff (m : LaidModule) :
    extractModuleDescriptorFromRoot (some m.node) = extractModuleDescriptorFromRoot (some m.squeeze.node) ↔
      m.Clean := by
  have hsqueeze : ∀ {β : Type} (f : DirectiveKind × List Char → Option β),
      m.squeeze.directives.filterMap (fun entry => f entry.2.child) =
        m.directives.filterMap fun entry => f entry.2.squeeze.child := fun f => by
    rw [squeeze, List.filterMap_map]
    rfl
  have hheader : m.squeeze.annotations ++ m.squeeze.header = m.header := List.nil_append _
  have hrequires := filterMap_eq_iff (l := m.directives) (f := fun entry => readRequires entry.2.squeeze.child)
    (g := fun entry => readRequires entry.2.child) fun entry _ => LaidDirective.readRequires_isSome
  have hpackage : ∀ kind : ClauseKind, kind.word = "to" → _ := fun kind hkind =>
    filterMap_eq_iff (l := m.directives) (f := fun entry => readPackage kind entry.2.child)
      (g := fun entry => readPackage kind entry.2.squeeze.child) fun entry _ => LaidDirective.readPackage_isSome hkind
  have huses := filterMap_eq_iff (l := m.directives) (f := fun entry => readUses entry.2.child)
    (g := fun entry => readUses entry.2.squeeze.child) fun entry _ => LaidDirective.readUses_isSome
  have hprovides := filterMap_eq_iff (l := m.directives) (f := fun entry => readProvides entry.2.child)
    (g := fun entry => readProvides entry.2.squeeze.child) fun entry _ => LaidDirective.readProvides_isSome
  rw [extract_node, extract_node, hheader, hsqueeze, hsqueeze, hsqueeze, hsqueeze, hsqueeze, Option.some.injEq,
    JavaModuleDescriptor.mk.injEq, decide_eq_decide, open_iff, hpackage .exports rfl, hpackage .opens rfl, huses,
    hprovides, eq_comm (a := m.directives.filterMap fun entry => readRequires entry.2.child), hrequires, Clean]
  constructor
  · rintro ⟨-, hopen, hrequires, hexports, hopens, huses, hprovides⟩
    exact ⟨hopen, fun entry hentry => entry.2.agree_iff.mp ⟨(hrequires entry hentry).symm, hexports entry hentry,
      hopens entry hentry, huses entry hentry, hprovides entry hentry⟩⟩
  · rintro ⟨hopen, hclean⟩
    have hagree := fun entry hentry => (LaidDirective.agree_iff _).mpr (hclean entry hentry)
    exact ⟨rfl, hopen, fun entry hentry => (hagree entry hentry).requires.symm,
      fun entry hentry => (hagree entry hentry).exports, fun entry hentry => (hagree entry hentry).opens,
      fun entry hentry => (hagree entry hentry).uses, fun entry hentry => (hagree entry hentry).provides⟩

end LaidModule

/-! ## Rendered descriptors -/

/-- A legal name: identifiers between dots. -/
structure JavaName where
  head : JavaWord
  tail : List JavaWord

namespace JavaName

def laid (n : JavaName) : LaidName :=
  ⟨n.head, n.tail.map fun w => ([], [], w)⟩

def text (n : JavaName) : List Char :=
  n.head.text ++ n.tail.flatMap fun w => '.' :: w.text

theorem name_laid (n : JavaName) : n.laid.name = n.text := by
  rw [LaidName.name, laid, LaidName.tailName, List.flatMap_map, text]

theorem text_laid (n : JavaName) : n.laid.text = n.text := by
  have hjoined : n.laid.Joined := fun part hpart => by
    obtain ⟨w, -, rfl⟩ := List.mem_map.mp hpart
    exact ⟨rfl, rfl⟩
  rw [LaidName.text_of_joined hjoined, name_laid]

theorem join_laid (n : JavaName) : n.laid.join = n.laid := by
  rw [LaidName.join, laid, List.map_map]
  rfl

end JavaName

/-- The names of a list, as they are rendered. -/
def laidNames : List JavaName → LaidNames
  | [] => []
  | n :: rest => ([.space], [.space], n.laid) :: rest.map fun n => ([], [.space], n.laid)

theorem text_laidNames (word : List Char) (n : JavaName) (rest : List JavaName) :
    LaidNames.text word (laidNames (n :: rest)) =
      ' ' :: (word ++ ' ' :: ", ".toList.intercalate ((n :: rest).map JavaName.text)) := by
  have htail : ∀ (n : JavaName) (rest : List JavaName),
      n.text ++ LaidNames.text [','] (rest.map fun n => ([], [.space], n.laid)) =
        ", ".toList.intercalate ((n :: rest).map JavaName.text) := by
    intro n rest
    induction rest generalizing n with
    | nil =>
      rw [List.map_nil, List.map_singleton, List.intercalate_singleton]
      exact List.append_nil _
    | cons n' rest ih =>
      have hcons : (n :: n' :: rest).map JavaName.text = n.text :: (n' :: rest).map JavaName.text := rfl
      have hne : (n' :: rest).map JavaName.text ≠ [] := List.cons_ne_nil _ _
      rw [List.map_cons, LaidNames.text, JavaName.text_laid, ih, hcons, List.intercalate_cons_of_ne_nil hne,
        List.append_assoc]
      rfl
  rw [laidNames, LaidNames.text, JavaName.text_laid, htail]
  rfl

/-- A descriptor with legal names, whose services have at least one implementation. -/
structure LegalDescriptor where
  name : JavaName
  isOpen : Bool
  requires : List (JavaName × Bool × Bool)
  exports : List (JavaName × List JavaName)
  opens : List (JavaName × List JavaName)
  uses : List JavaName
  provides : List (JavaName × JavaName × List JavaName)

namespace LegalDescriptor

def descriptor (l : LegalDescriptor) : JavaModuleDescriptor where
  name := l.name.text
  isOpen := l.isOpen
  requires := l.requires.map fun require => ⟨require.1.text, require.2.1, require.2.2⟩
  exports := l.exports.map fun directive => ⟨directive.1.text, directive.2.map JavaName.text⟩
  opens := l.opens.map fun directive => ⟨directive.1.text, directive.2.map JavaName.text⟩
  uses := l.uses.map JavaName.text
  provides := l.provides.map fun provide => ⟨provide.1.text, (provide.2.1 :: provide.2.2).map JavaName.text⟩

def laidRequires (require : JavaName × Bool × Bool) : LaidRequires where
  modifiers := (if require.2.1 then [([.space], .static)] else []) ++
    if require.2.2 then [([.space], .transitive)] else []
  lead := [.space]
  module := require.1.laid
  stop := []
  apart := by
    refine ⟨fun m hm => ?_, List.cons_ne_nil _ _⟩
    rcases List.mem_append.mp hm with hm | hm
    · split at hm
      · rw [List.mem_singleton.mp hm]
        exact List.cons_ne_nil _ _
      · exact absurd hm List.not_mem_nil
    · split at hm
      · rw [List.mem_singleton.mp hm]
        exact List.cons_ne_nil _ _
      · exact absurd hm List.not_mem_nil

theorem apart_laidNames (ns : List JavaName) : ∀ first ∈ (laidNames ns).head?, first.1 ≠ [] ∧ first.2.1 ≠ [] := by
  intro first hfirst
  cases ns with
  | nil => cases hfirst
  | cons n rest =>
    obtain rfl := Option.some.inj hfirst
    exact ⟨List.cons_ne_nil _ _, List.cons_ne_nil _ _⟩

def laidClause (kind : ClauseKind) (name : JavaName) (listed : List JavaName) (huses : kind = .uses → listed = [])
    (hprovides : kind = .provides → listed ≠ []) : LaidClause where
  kind := kind
  lead := [.space]
  name := name.laid
  listed := laidNames listed
  stop := []
  apart := ⟨List.cons_ne_nil _ _, apart_laidNames listed⟩
  uses h := by rw [huses h]; rfl
  provides h := by
    obtain ⟨n, rest, hlisted⟩ := List.exists_cons_of_ne_nil (hprovides h)
    rw [hlisted]
    exact List.cons_ne_nil _ _

def laidExports (directive : JavaName × List JavaName) : LaidClause :=
  laidClause .exports directive.1 directive.2 (by simp) (by simp)

def laidOpens (directive : JavaName × List JavaName) : LaidClause :=
  laidClause .opens directive.1 directive.2 (by simp) (by simp)

def laidUses (service : JavaName) : LaidClause :=
  laidClause .uses service [] (fun _ => rfl) (by simp)

def laidProvides (provide : JavaName × JavaName × List JavaName) : LaidClause :=
  laidClause .provides provide.1 (provide.2.1 :: provide.2.2) (by simp) fun _ => List.cons_ne_nil _ _

/-- The directives in the order in which they are rendered. -/
def directives (l : LegalDescriptor) : List LaidDirective :=
  l.requires.map (fun require => .requires (laidRequires require)) ++
    l.exports.map (fun directive => .clause (laidExports directive)) ++
    l.opens.map (fun directive => .clause (laidOpens directive)) ++
    l.uses.map (fun service => .clause (laidUses service)) ++
    l.provides.map fun provide => .clause (laidProvides provide)

/-- A line break and four spaces. -/
def indent : Spacing :=
  [.blank '\n' (by decide), .space, .space, .space, .space]

/-- The rendered source as a declaration. -/
def laid (l : LegalDescriptor) : LaidModule where
  annotations := []
  opened := if l.isOpen then some [.space] else none
  lead := [.space]
  name := l.name.laid
  beforeBody := [.space]
  directives := l.directives.map fun d => (indent, d)
  stop := [.blank '\n' (by decide)]
  apart := by
    refine ⟨fun s hs => ?_, List.cons_ne_nil _ _⟩
    split at hs
    · obtain rfl := Option.some.inj hs
      exact List.cons_ne_nil _ _
    · cases hs

theorem modifiersText_flags (isStatic isTransitive : Bool) :
    LaidRequires.modifiersText ((if isStatic then [([.space], .static)] else []) ++
      if isTransitive then [([.space], .transitive)] else []) =
        (if isStatic then ' ' :: "static".toList else []) ++
          if isTransitive then ' ' :: "transitive".toList else [] := by
  have hmodifier : ∀ m : RequiresModifier, LaidRequires.modifiersText [([.space], m)] = ' ' :: m.word.toList :=
    fun m => by
      rw [LaidRequires.modifiersText_cons]
      exact congrArg (' ' :: ·) (List.append_nil _)
  have hnil : LaidRequires.modifiersText [] = [] := rfl
  have happend : ∀ ms ms', LaidRequires.modifiersText (ms ++ ms') =
      LaidRequires.modifiersText ms ++ LaidRequires.modifiersText ms' := fun ms ms' => List.flatMap_append
  rw [happend, apply_ite LaidRequires.modifiersText, apply_ite LaidRequires.modifiersText, hmodifier, hmodifier, hnil]
  rfl

theorem body_laidRequires (n : JavaName) (isStatic isTransitive : Bool) :
    (laidRequires (n, isStatic, isTransitive)).body =
      (if isStatic then ' ' :: "static".toList else []) ++ (if isTransitive then ' ' :: "transitive".toList else []) ++
        ' ' :: n.text := by
  rw [LaidRequires.body]
  change LaidRequires.modifiersText ((if isStatic then [([.space], .static)] else []) ++
    if isTransitive then [([.space], .transitive)] else []) ++ (' ' :: (n.laid.text ++ [])) = _
  rw [modifiersText_flags, JavaName.text_laid, List.append_nil]

theorem text_laidRequires (require : JavaName × Bool × Bool) :
    JavaModuleDescriptor.requiresLine ⟨require.1.text, require.2.1, require.2.2⟩ =
      "    ".toList ++ (LaidDirective.requires (laidRequires require)).text := by
  obtain ⟨n, isStatic, isTransitive⟩ := require
  have hstatic : " static".toList = ' ' :: "static".toList := rfl
  have htransitive : " transitive".toList = ' ' :: "transitive".toList := rfl
  have hrequires : "    requires".toList = "    ".toList ++ "requires".toList := rfl
  have htext : (LaidDirective.requires (laidRequires (n, isStatic, isTransitive))).text =
      "requires".toList ++ ((laidRequires (n, isStatic, isTransitive)).body ++ [';']) := rfl
  rw [htext, body_laidRequires]
  change "    requires".toList ++ (if isStatic then " static".toList else []) ++
    (if isTransitive then " transitive".toList else []) ++ ' ' :: n.text ++ [';'] = _
  rw [hrequires, hstatic, htransitive]
  simp only [List.append_assoc, List.cons_append]

theorem text_laidClause (kind : ClauseKind) (name : JavaName) (listed : List JavaName)
    (huses : kind = .uses → listed = []) (hprovides : kind = .provides → listed ≠ []) :
    (LaidDirective.clause (laidClause kind name listed huses hprovides)).text =
      kind.keyword.toList ++ ' ' :: (name.text ++
        (if listed.isEmpty then []
          else ' ' :: (kind.word.toList ++ ' ' :: ", ".toList.intercalate (listed.map JavaName.text))) ++ [';']) := by
  have hbody : (laidClause kind name listed huses hprovides).body = ' ' :: (name.text ++
      if listed.isEmpty then []
        else ' ' :: (kind.word.toList ++ ' ' :: ", ".toList.intercalate (listed.map JavaName.text))) := by
    rw [LaidClause.body, laidClause, JavaName.text_laid]
    cases listed with
    | nil => simp [laidNames, LaidNames.text, Spacing.text, Trivia.text, Trivia.space]
    | cons n rest =>
      rw [text_laidNames]
      simp [Spacing.text, Trivia.text, Trivia.space]
  change kind.keyword.toList ++ ((laidClause kind name listed huses hprovides).body ++ [';']) = _
  rw [hbody]
  simp

theorem text_laidPackage {kind : ClauseKind} (hword : kind.word = "to") (name : JavaName) (listed : List JavaName)
    (huses : kind = .uses → listed = []) (hprovides : kind = .provides → listed ≠ []) :
    JavaModuleDescriptor.packageLine kind.keyword ⟨name.text, listed.map JavaName.text⟩ =
      "    ".toList ++ (LaidDirective.clause (laidClause kind name listed huses hprovides)).text := by
  have hto : " to ".toList = ' ' :: ("to".toList ++ [' ']) := rfl
  rw [text_laidClause, hword]
  change "    ".toList ++ kind.keyword.toList ++ ' ' :: name.text ++
    (if (listed.map JavaName.text).isEmpty then [] else
      " to ".toList ++ ", ".toList.intercalate (listed.map JavaName.text)) ++ [';'] = _
  rw [hto, List.isEmpty_map]
  simp only [List.append_assoc, List.cons_append, List.nil_append]

theorem text_laidUses (service : JavaName) : JavaModuleDescriptor.usesLine service.text =
    "    ".toList ++ (LaidDirective.clause (laidUses service)).text := by
  have huses : "    uses ".toList = "    ".toList ++ ("uses".toList ++ [' ']) := rfl
  have hkeyword : ClauseKind.uses.keyword = "uses" := rfl
  rw [laidUses, text_laidClause, hkeyword]
  change "    uses ".toList ++ service.text ++ [';'] = _
  rw [huses]
  simp only [List.append_assoc, List.cons_append, List.nil_append, List.isEmpty_nil, if_true]

theorem text_laidProvides (provide : JavaName × JavaName × List JavaName) :
    JavaModuleDescriptor.providesLine ⟨provide.1.text, (provide.2.1 :: provide.2.2).map JavaName.text⟩ =
      "    ".toList ++ (LaidDirective.clause (laidProvides provide)).text := by
  have hprovides : "    provides ".toList = "    ".toList ++ ("provides".toList ++ [' ']) := rfl
  have hwith : " with ".toList = ' ' :: ("with".toList ++ [' ']) := rfl
  have hkeyword : ClauseKind.provides.keyword = "provides" := rfl
  have hword : ClauseKind.provides.word = "with" := rfl
  rw [laidProvides, text_laidClause, hkeyword, hword, List.isEmpty_cons, if_neg Bool.false_ne_true]
  change "    provides ".toList ++ provide.1.text ++ " with ".toList ++
    ", ".toList.intercalate ((provide.2.1 :: provide.2.2).map JavaName.text) ++ [';'] = _
  rw [hprovides, hwith]
  simp only [List.append_assoc, List.cons_append, List.nil_append]

theorem intercalate_lines (first : List Char) (lines : List (List Char)) :
    ['\n'].intercalate ([first] ++ lines ++ [['}']]) =
      first ++ lines.flatMap (fun line => '\n' :: line) ++ ['\n', '}'] := by
  induction lines generalizing first with
  | nil => simp
  | cons line lines ih =>
    have hcons : [first] ++ (line :: lines) ++ [['}']] = first :: ([line] ++ lines ++ [['}']]) := rfl
    rw [hcons, List.intercalate_cons_of_ne_nil (by simp), ih, List.flatMap_cons]
    simp

theorem text_laidDirectives (l : LegalDescriptor) :
    l.laid.directives.flatMap (fun entry => entry.1.text ++ entry.2.text) =
      (l.descriptor.requires.map JavaModuleDescriptor.requiresLine ++
        l.descriptor.exports.map (JavaModuleDescriptor.packageLine "exports") ++
        l.descriptor.opens.map (JavaModuleDescriptor.packageLine "opens") ++
        l.descriptor.uses.map JavaModuleDescriptor.usesLine ++
        l.descriptor.provides.map JavaModuleDescriptor.providesLine).flatMap fun line => '\n' :: line := by
  have hindent : ∀ text, indent.text ++ text = '\n' :: ("    ".toList ++ text) := fun text => rfl
  have hlines : l.directives.map (fun d => "    ".toList ++ d.text) =
      l.descriptor.requires.map JavaModuleDescriptor.requiresLine ++
        l.descriptor.exports.map (JavaModuleDescriptor.packageLine "exports") ++
        l.descriptor.opens.map (JavaModuleDescriptor.packageLine "opens") ++
        l.descriptor.uses.map JavaModuleDescriptor.usesLine ++
        l.descriptor.provides.map JavaModuleDescriptor.providesLine := by
    simp only [directives, descriptor, List.map_append, List.map_map]
    refine congrArg₂ _ (congrArg₂ _ (congrArg₂ _ (congrArg₂ _ ?_ ?_) ?_) ?_) ?_
    · exact List.map_congr_left fun require _ => (text_laidRequires require).symm
    · exact List.map_congr_left fun directive _ => (text_laidPackage rfl directive.1 directive.2 _ _).symm
    · exact List.map_congr_left fun directive _ => (text_laidPackage rfl directive.1 directive.2 _ _).symm
    · exact List.map_congr_left fun service _ => (text_laidUses service).symm
    · exact List.map_congr_left fun provide _ => (text_laidProvides provide).symm
  rw [← hlines, laid, List.flatMap_map, List.flatMap_map]
  exact List.flatMap_congr fun d _ => hindent d.text

theorem text_laidHeader (l : LegalDescriptor) :
    l.laid.annotations ++ l.laid.header ++ l.laid.name.text ++ l.laid.beforeBody.text ++ ['{'] =
      l.descriptor.headerLine := by
  have hopened : (if l.isOpen then some [.space] else none : Option Spacing).elim []
      (fun s => "open".toList ++ s.text) = if l.isOpen then "open ".toList else [] := by
    cases l.isOpen <;> rfl
  have hmodule : "module ".toList = "module".toList ++ [' '] := rfl
  have hbrace : " \x7b".toList = [' ', '{'] := rfl
  change [] ++ ((if l.isOpen then some [.space] else none : Option Spacing).elim []
    (fun s => "open".toList ++ s.text) ++ ("module".toList ++ [' '])) ++ l.name.laid.text ++ [' '] ++ ['{'] =
      (if l.isOpen then "open ".toList else []) ++ "module ".toList ++ l.name.text ++ " \x7b".toList
  rw [hopened, JavaName.text_laid, hmodule, hbrace]
  simp only [List.append_assoc, List.nil_append, List.cons_append]

/-- The laid out declaration is what is rendered. -/
theorem text_laid (l : LegalDescriptor) : l.laid.text = l.descriptor.renderModuleDescriptorSource := by
  have hstop : l.laid.stop.text = ['\n'] := rfl
  have hrender : l.descriptor.renderModuleDescriptorSource = ['\n'].intercalate
      ([l.descriptor.headerLine] ++ (l.descriptor.requires.map JavaModuleDescriptor.requiresLine ++
        l.descriptor.exports.map (JavaModuleDescriptor.packageLine "exports") ++
        l.descriptor.opens.map (JavaModuleDescriptor.packageLine "opens") ++
        l.descriptor.uses.map JavaModuleDescriptor.usesLine ++
        l.descriptor.provides.map JavaModuleDescriptor.providesLine) ++ [['}']]) := by
    rw [JavaModuleDescriptor.renderModuleDescriptorSource]
    simp only [List.append_assoc]
  rw [hrender, intercalate_lines, ← text_laidHeader, ← text_laidDirectives, LaidModule.text, hstop]
  simp only [List.append_assoc, List.nil_append, List.cons_append]

/-! ## The descriptors of what is rendered -/

theorem squeeze_laidRequires (require : JavaName × Bool × Bool) :
    (laidRequires require).squeeze = laidRequires require := by
  have hmodifiers : (laidRequires require).modifiers.map (fun m => ([Trivia.space], m.2)) =
      (laidRequires require).modifiers := by
    obtain ⟨n, isStatic, isTransitive⟩ := require
    cases isStatic <;> cases isTransitive <;> rfl
  have hjoin : (laidRequires require).module.join = (laidRequires require).module := JavaName.join_laid _
  unfold LaidRequires.squeeze
  congr 1

theorem read_laidRequires (require : JavaName × Bool × Bool) :
    readRequires (LaidDirective.requires (laidRequires require)).child =
      if require.1.text = "transitive".toList then none else some ⟨require.1.text, require.2.1, require.2.2⟩ := by
  have hname : (laidRequires require).module.name = require.1.text := JavaName.name_laid _
  have hdeclared : (laidRequires require).declared = ⟨require.1.text, require.2.1, require.2.2⟩ := by
    obtain ⟨n, isStatic, isTransitive⟩ := require
    rw [LaidRequires.declared, hname]
    cases isStatic <;> cases isTransitive <;> rfl
  rw [LaidDirective.readRequires_requires, ← squeeze_laidRequires, LaidRequires.parse_squeeze, hname, hdeclared]

theorem squeeze_laidClause (kind : ClauseKind) (name : JavaName) (listed : List JavaName)
    (huses : kind = .uses → listed = []) (hprovides : kind = .provides → listed ≠ []) :
    (laidClause kind name listed huses hprovides).squeeze = laidClause kind name listed huses hprovides := by
  have hjoin : (laidClause kind name listed huses hprovides).name.join = name.laid := JavaName.join_laid _
  have hnames : LaidClause.squeezeNames (laidNames listed) = laidNames listed := by
    cases listed with
    | nil => rfl
    | cons n rest =>
      rw [laidNames, LaidClause.squeezeNames, JavaName.join_laid, List.map_map]
      exact congrArg _ (List.map_congr_left fun n _ => congrArg (([] : Spacing), [Trivia.space], ·) n.join_laid)
  have hlisted : LaidClause.squeezeNames (laidClause kind name listed huses hprovides).listed =
      (laidClause kind name listed huses hprovides).listed := hnames
  unfold LaidClause.squeeze
  congr 1

theorem names_laidClause (kind : ClauseKind) (name : JavaName) (listed : List JavaName)
    (huses : kind = .uses → listed = []) (hprovides : kind = .provides → listed ≠ []) :
    (laidClause kind name listed huses hprovides).names = listed.map JavaName.text := by
  change (laidNames listed).map (fun entry => entry.2.2.name) = listed.map JavaName.text
  cases listed with
  | nil => rfl
  | cons n rest =>
    rw [laidNames, List.map_cons, List.map_map, JavaName.name_laid]
    exact congrArg _ (List.map_congr_left fun n _ => n.name_laid)

theorem read_laidPackage {kind : ClauseKind} (hword : kind.word = "to") (name : JavaName) (listed : List JavaName)
    (huses : kind = .uses → listed = []) (hprovides : kind = .provides → listed ≠ []) :
    readPackage kind (LaidDirective.clause (laidClause kind name listed huses hprovides)).child =
      some ⟨name.text, listed.map JavaName.text⟩ := by
  have hname : (laidClause kind name listed huses hprovides).name.name = name.text := name.name_laid
  have hread := LaidDirective.readPackage_squeeze (d := laidClause kind name listed huses hprovides) hword
  rwa [squeeze_laidClause, hname, names_laidClause] at hread

theorem read_laidUses (service : JavaName) :
    readUses (LaidDirective.clause (laidUses service)).child = some service.text := by
  have hname : (laidUses service).name.name = service.text := service.name_laid
  have hread := LaidDirective.readUses_squeeze (d := laidUses service) rfl
  rwa [laidUses, squeeze_laidClause, ← laidUses, hname] at hread

theorem read_laidProvides (provide : JavaName × JavaName × List JavaName) :
    readProvides (LaidDirective.clause (laidProvides provide)).child =
      some ⟨provide.1.text, (provide.2.1 :: provide.2.2).map JavaName.text⟩ := by
  have hname : (laidProvides provide).name.name = provide.1.text := provide.1.name_laid
  have hread := LaidDirective.readProvides_squeeze (d := laidProvides provide) rfl
  rwa [laidProvides, squeeze_laidClause, ← laidProvides, hname, laidProvides, names_laidClause, ← laidProvides] at hread

theorem filterMap_directives {β : Type} (f : DirectiveKind × List Char → Option β) (l : LegalDescriptor) :
    l.laid.directives.filterMap (fun entry => f entry.2.child) =
      l.requires.filterMap (fun require => f (LaidDirective.requires (laidRequires require)).child) ++
        l.exports.filterMap (fun directive => f (LaidDirective.clause (laidExports directive)).child) ++
        l.opens.filterMap (fun directive => f (LaidDirective.clause (laidOpens directive)).child) ++
        l.uses.filterMap (fun service => f (LaidDirective.clause (laidUses service)).child) ++
        l.provides.filterMap fun provide => f (LaidDirective.clause (laidProvides provide)).child := by
  rw [laid, List.filterMap_map, directives]
  simp only [List.filterMap_append, List.filterMap_map]
  rfl

theorem filterMap_none {α β : Type} {f : α → Option β} (h : ∀ x, f x = none) (l : List α) : l.filterMap f = [] :=
  List.filterMap_eq_nil_iff.mpr fun x _ => h x

theorem filterMap_some {α β : Type} {f : α → Option β} {g : α → β} (h : ∀ x, f x = some (g x)) (l : List α) :
    l.filterMap f = l.map g := by
  rw [← List.filterMap_eq_map]
  exact List.filterMap_congr fun x _ => h x

theorem requires_laid (l : LegalDescriptor) :
    l.laid.directives.filterMap (fun entry => readRequires entry.2.child) = l.requires.filterMap fun require =>
      if require.1.text = "transitive".toList then none else some ⟨require.1.text, require.2.1, require.2.2⟩ := by
  rw [filterMap_directives, filterMap_none fun _ => LaidDirective.readRequires_clause _,
    filterMap_none fun _ => LaidDirective.readRequires_clause _,
    filterMap_none fun _ => LaidDirective.readRequires_clause _,
    filterMap_none fun _ => LaidDirective.readRequires_clause _]
  simp only [List.append_nil]
  exact List.filterMap_congr fun require _ => read_laidRequires require

theorem exports_laid (l : LegalDescriptor) :
    l.laid.directives.filterMap (fun entry => readPackage .exports entry.2.child) = l.descriptor.exports := by
  have hexports := filterMap_some (fun directive : JavaName × List JavaName =>
    @read_laidPackage .exports rfl directive.1 directive.2 (by simp) (by simp)) l.exports
  rw [filterMap_directives, filterMap_none fun _ => LaidDirective.readPackage_requires _ _,
    filterMap_none (l := l.opens) fun _ => LaidDirective.readPackage_of_ne (show ClauseKind.opens ≠ .exports by simp),
    filterMap_none (l := l.uses) fun _ => LaidDirective.readPackage_of_ne (show ClauseKind.uses ≠ .exports by simp),
    filterMap_none (l := l.provides) fun _ =>
      LaidDirective.readPackage_of_ne (show ClauseKind.provides ≠ .exports by simp)]
  simp only [List.append_nil, List.nil_append]
  exact hexports

theorem opens_laid (l : LegalDescriptor) :
    l.laid.directives.filterMap (fun entry => readPackage .opens entry.2.child) = l.descriptor.opens := by
  have hopens := filterMap_some (fun directive : JavaName × List JavaName =>
    @read_laidPackage .opens rfl directive.1 directive.2 (by simp) (by simp)) l.opens
  rw [filterMap_directives, filterMap_none fun _ => LaidDirective.readPackage_requires _ _,
    filterMap_none (l := l.exports) fun _ => LaidDirective.readPackage_of_ne (show ClauseKind.exports ≠ .opens by simp),
    filterMap_none (l := l.uses) fun _ => LaidDirective.readPackage_of_ne (show ClauseKind.uses ≠ .opens by simp),
    filterMap_none (l := l.provides) fun _ =>
      LaidDirective.readPackage_of_ne (show ClauseKind.provides ≠ .opens by simp)]
  simp only [List.append_nil, List.nil_append]
  exact hopens

theorem uses_laid (l : LegalDescriptor) :
    l.laid.directives.filterMap (fun entry => readUses entry.2.child) = l.descriptor.uses := by
  rw [filterMap_directives, filterMap_none fun _ => LaidDirective.readUses_requires _,
    filterMap_none (l := l.exports) fun _ => LaidDirective.readUses_of_ne (show ClauseKind.exports ≠ .uses by simp),
    filterMap_none (l := l.opens) fun _ => LaidDirective.readUses_of_ne (show ClauseKind.opens ≠ .uses by simp),
    filterMap_none (l := l.provides) fun _ => LaidDirective.readUses_of_ne (show ClauseKind.provides ≠ .uses by simp),
    filterMap_some read_laidUses]
  simp only [List.append_nil, List.nil_append]
  rfl

theorem provides_laid (l : LegalDescriptor) :
    l.laid.directives.filterMap (fun entry => readProvides entry.2.child) = l.descriptor.provides := by
  rw [filterMap_directives, filterMap_none fun _ => LaidDirective.readProvides_requires _,
    filterMap_none (l := l.exports) fun _ =>
      LaidDirective.readProvides_of_ne (show ClauseKind.exports ≠ .provides by simp),
    filterMap_none (l := l.opens) fun _ => LaidDirective.readProvides_of_ne (show ClauseKind.opens ≠ .provides by simp),
    filterMap_none (l := l.uses) fun _ => LaidDirective.readProvides_of_ne (show ClauseKind.uses ≠ .provides by simp),
    filterMap_some read_laidProvides]
  simp only [List.append_nil, List.nil_append]
  rfl

theorem isOpen_laid (l : LegalDescriptor) :
    decide ("open".toList <:+: l.laid.annotations ++ l.laid.header) = l.isOpen := by
  have hheader : l.laid.annotations ++ l.laid.header =
      (if l.isOpen then some [.space] else none : Option Spacing).elim [] (fun s => "open".toList ++ s.text) ++
        ("module".toList ++ [' ']) := rfl
  rw [hheader]
  cases l.isOpen with
  | true => exact decide_eq_true ⟨[], ' ' :: ("module".toList ++ [' ']), rfl⟩
  | false => decide +kernel

/-- A rendered descriptor is extracted again exactly where it requires no module named `transitive`. -/
theorem extract_laid_iff (l : LegalDescriptor) :
    extractModuleDescriptorFromRoot (some l.laid.node) = some l.descriptor ↔
      ∀ require ∈ l.descriptor.requires, require.moduleName ≠ "transitive".toList := by
  have hname : l.laid.name.text = l.descriptor.name := l.name.text_laid
  have hread := filterMap_eq_iff (l := l.requires)
    (f := fun require => if require.1.text = "transitive".toList then none
      else some (JavaModuleRequires.mk require.1.text require.2.1 require.2.2))
    (g := fun require => some (JavaModuleRequires.mk require.1.text require.2.1 require.2.2)) fun _ _ _ => rfl
  have hrequires : l.descriptor.requires = l.requires.filterMap fun require =>
      some (JavaModuleRequires.mk require.1.text require.2.1 require.2.2) :=
    (filterMap_some (fun _ => rfl) _).symm
  rw [LaidModule.extract_node, hname, isOpen_laid, requires_laid, exports_laid, opens_laid, uses_laid, provides_laid]
  constructor
  · intro h
    have hlists := congrArg JavaModuleDescriptor.requires (Option.some.inj h)
    rw [hrequires, hread] at hlists
    intro require hrequire
    obtain ⟨require', hmem, rfl⟩ := List.mem_map.mp hrequire
    intro heq
    have hboth := hlists require' hmem
    rw [if_pos heq] at hboth
    exact Option.some_ne_none _ hboth.symm
  · intro h
    refine congrArg some ?_
    have hlists := hread.mpr fun require hmem =>
      if_neg (h ⟨require.1.text, require.2.1, require.2.2⟩ (List.mem_map.mpr ⟨require, hmem, rfl⟩))
    rw [hlists, ← hrequires]
    rfl

theorem squeeze_directives (l : LegalDescriptor) : l.directives.map LaidDirective.squeeze = l.directives := by
  have hall : ∀ d ∈ l.directives, d.squeeze = d := fun d hd => by
    simp only [directives, List.mem_append, List.mem_map] at hd
    obtain (((⟨require, -, rfl⟩ | ⟨directive, -, rfl⟩) | ⟨directive, -, rfl⟩) | ⟨service, -, rfl⟩) |
      ⟨provide, -, rfl⟩ := hd
    · exact congrArg LaidDirective.requires (squeeze_laidRequires require)
    · exact congrArg LaidDirective.clause (squeeze_laidClause ..)
    · exact congrArg LaidDirective.clause (squeeze_laidClause ..)
    · exact congrArg LaidDirective.clause (squeeze_laidClause ..)
    · exact congrArg LaidDirective.clause (squeeze_laidClause ..)
  conv_rhs => rw [← List.map_id l.directives]
  exact List.map_congr_left hall

/-- What is rendered has nothing that need not be there. -/
theorem squeeze_laid (l : LegalDescriptor) : l.laid.squeeze = l.laid := by
  have hdirectives : l.laid.directives.map (fun entry => (entry.1, entry.2.squeeze)) = l.laid.directives := by
    conv_rhs => rw [laid, ← squeeze_directives]
    rw [laid, List.map_map, List.map_map]
    rfl
  unfold LaidModule.squeeze
  congr 1

end LegalDescriptor

/-- The parser has one node for each directive of the declaration, which spans its text. -/
def Spans (parse : List Char → Option ModuleDeclarationNode) (m : LaidModule) : Prop :=
  parse m.text = some m.node

/-- A rendered descriptor comes back exactly where it requires no module named `transitive`. What stands in the
directives and in front of a declaration changes nothing exactly where the layout is clean; so a clean layout is read as
another one of the same words exactly where that is clean, too. -/
theorem module_descriptors_iff (parse : List Char → Option ModuleDeclarationNode) (l : LegalDescriptor)
    (hl : Spans parse l.laid) (m : LaidModule) (hm : Spans parse m) (hsqueeze : Spans parse m.squeeze) :
    (extractModuleDescriptor parse l.descriptor.renderModuleDescriptorSource = some l.descriptor ↔
      ∀ require ∈ l.descriptor.requires, require.moduleName ≠ "transitive".toList) ∧
    (extractModuleDescriptor parse m.text = extractModuleDescriptor parse m.squeeze.text ↔ m.Clean) ∧
    ∀ m', Spans parse m' → m'.squeeze = m.squeeze → m.Clean →
      (extractModuleDescriptor parse m'.text = extractModuleDescriptor parse m.text ↔ m'.Clean) := by
  have hextract : ∀ m, Spans parse m →
      extractModuleDescriptor parse m.text = extractModuleDescriptorFromRoot (some m.node) := fun m hm =>
    congrArg extractModuleDescriptorFromRoot hm
  refine ⟨?_, ?_, fun m' hm' heq hclean => ?_⟩
  · rw [← l.text_laid, hextract _ hl]
    exact l.extract_laid_iff
  · rw [hextract _ hm, hextract _ hsqueeze]
    exact m.extract_eq_iff
  · rw [hextract _ hm', hextract _ hm, m.extract_eq_iff.mpr hclean, ← heq]
    exact m'.extract_eq_iff

/-! ## Two descriptors -/

/-- `app`. -/
def appName : JavaName :=
  ⟨⟨"app".toList, by simp, List.all_eq_true.mp (by decide +kernel), by decide +kernel⟩, []⟩

/-- A module may be named `transitive`. -/
def transitiveName : JavaName :=
  ⟨⟨"transitive".toList, by simp, List.all_eq_true.mp (by decide +kernel), by decide +kernel⟩, []⟩

def requiresTransitive : LegalDescriptor :=
  ⟨appName, false, [(transitiveName, false, false)], [], [], [], []⟩

/-- `requires transitive;` is rendered for that module, and read as nothing. -/
theorem transitive_module_lost :
    ¬∀ (parse : List Char → Option ModuleDeclarationNode) (l : LegalDescriptor), Spans parse l.laid →
      extractModuleDescriptor parse l.descriptor.renderModuleDescriptorSource = some l.descriptor := by
  intro h
  have hread := h (fun _ => some requiresTransitive.laid.node) requiresTransitive rfl
  have hnone := (LegalDescriptor.extract_laid_iff requiresTransitive).mp hread
  refine hnone ⟨transitiveName.text, false, false⟩ List.mem_cons_self ?_
  exact List.append_nil _

def exportsApp : LegalDescriptor :=
  ⟨appName, true, [], [(appName, [appName, transitiveName])], [], [], []⟩

theorem exports_come_back :
    extractModuleDescriptor (fun _ => some exportsApp.laid.node) exportsApp.descriptor.renderModuleDescriptorSource =
      some exportsApp.descriptor :=
  (module_descriptors_iff (fun _ => some exportsApp.laid.node) exportsApp rfl exportsApp.laid rfl
    (congrArg (fun m : LaidModule => some m.node) exportsApp.squeeze_laid.symm)).1.mpr
    fun _ hrequire => absurd hrequire List.not_mem_nil

end JavaAnalyzer.Language
