import JavaAnalyzer.Language.ModuleDirectives

/-! # Reading clauses back

`exports`, `opens`, `uses` and `provides`: a name, and the names behind a word. The reader cuts the text of the clause
at that word and at commas; a comment or a blank inside a name ends up in one of the names that it finds. -/

namespace JavaAnalyzer.Language
set_option autoImplicit false
open Semantic Text Words

/-! ## Names in pieces -/

namespace LaidName

variable {n : LaidName}

theorem collapse_text_ne_nil (n : LaidName) : collapse n.text ≠ [] := by
  have hsolid := n.solid_text
  obtain ⟨c, rest, htext⟩ := List.exists_cons_of_ne_nil hsolid.ne_nil
  have hc : isWhitespace c = false := hsolid.head c (by rw [htext]; rfl)
  have hmem := (mem_collapse_iff hc).mpr (by rw [htext]; exact List.mem_cons_self : c ∈ n.text)
  exact List.ne_nil_of_mem hmem

theorem collapse_text_eq_iff : collapse n.text = n.name ↔ n.Joined := by
  rw [collapse_eq_iff name_ne_nil name_free, n.solid_text.trim_eq, joined_iff]

/-- A name that is the first word has nothing around its dots. -/
theorem joined_of_first_word {y : List Char} {more : List (List Char)} (h : words (n.text ++ y) = n.name :: more) :
    n.Joined := by
  obtain ⟨w, rest, heq, -, hrest, hwords⟩ := LaidRequires.first_word (n.text ++ y)
  have hne : w ≠ [] := by
    rintro rfl
    obtain ⟨c, more, htext⟩ := List.exists_cons_of_ne_nil n.solid_text.ne_nil
    have hblank := hrest c (by rw [← List.nil_append rest, ← heq, htext]; rfl)
    rw [n.solid_text.head c (by rw [htext]; rfl)] at hblank
    cases hblank
  rw [hwords, wordOf, if_neg hne, List.singleton_append] at h
  rw [(List.cons.inj h).1] at heq
  exact joined_of_append_eq heq

end LaidName

namespace LaidNames

/-- No comments stand in front of the names, and none in them. -/
def Plain (names : LaidNames) : Prop :=
  ∀ entry ∈ names, entry.1.Plain ∧ entry.2.1.Plain ∧ entry.2.2.Plain

theorem plain_cons {entry : Spacing × Spacing × LaidName} {names : LaidNames} : Plain (entry :: names) ↔
    (entry.1.Plain ∧ entry.2.1.Plain ∧ entry.2.2.Plain) ∧ Plain names :=
  List.forall_mem_cons

theorem plain_iff {word : List Char} (hword : '/' ∉ word) {names : LaidNames} :
    Plain names ↔ '/' ∉ names.text word := by
  induction names generalizing word with
  | nil => exact iff_of_true (fun _ h => absurd h List.not_mem_nil) List.not_mem_nil
  | cons entry names ih =>
    obtain ⟨before, behind, n⟩ := entry
    rw [plain_cons, text, List.mem_append, List.mem_append, List.mem_append, List.mem_append, not_or, not_or, not_or,
      not_or, ← Spacing.plain_iff, ← Spacing.plain_iff, ← LaidName.plain_iff, ← @ih [','] (by decide)]
    tauto

/-- The pieces between the commas are the names with blanks around them. -/
theorem pieces_text {behind stop : Spacing} {n : LaidName} {names : LaidNames} (hbehind : behind.Plain)
    (hn : n.Plain) (hnames : Plain names) (hstop : stop.Plain) :
    ((behind.text ++ (n.text ++ (names.text [','] ++ stop.text))).splitOn ',').map collapse =
      collapse n.text :: names.map fun entry => collapse entry.2.2.text := by
  have hcomma : ∀ s : Spacing, s.Plain → ',' ∉ s.text := fun s hs hmem =>
    absurd (hs.blank ',' hmem) (by decide)
  have hpiece : ∀ (x : Spacing) (m : LaidName) (y : Spacing), x.Plain → y.Plain →
      collapse (x.text ++ (m.text ++ y.text)) = collapse m.text := fun x m y hx hy => by
    rw [collapse, words_blank_append hx.blank, words_append_blank _ hy.blank, collapse]
  induction names generalizing behind n with
  | nil =>
    have hnone : ',' ∉ behind.text ++ (n.text ++ stop.text) := by
      rw [List.mem_append, List.mem_append, not_or, not_or]
      exact ⟨hcomma _ hbehind, LaidName.comma_not_mem hn, hcomma _ hstop⟩
    rw [text, List.nil_append, splitOn_of_not_mem hnone, List.map_singleton, hpiece _ _ _ hbehind hstop]
    rfl
  | cons entry names ih =>
    obtain ⟨before, behind', n'⟩ := entry
    obtain ⟨⟨hbefore, hbehind', hn'⟩, hrest⟩ := plain_cons.mp hnames
    have hnone : ',' ∉ behind.text ++ (n.text ++ before.text) := by
      rw [List.mem_append, List.mem_append, not_or, not_or]
      exact ⟨hcomma _ hbehind, LaidName.comma_not_mem hn, hcomma _ hbefore⟩
    have hsplit : behind.text ++ (n.text ++ (LaidNames.text [','] ((before, behind', n') :: names) ++ stop.text)) =
        (behind.text ++ (n.text ++ before.text)) ++
          ',' :: (behind'.text ++ (n'.text ++ (LaidNames.text [','] names ++ stop.text))) := by
      rw [text]
      simp only [List.append_assoc, List.cons_append, List.nil_append]
    rw [hsplit, splitOn_append_cons hnone, List.map_cons, ih hbehind' hn' hrest, hpiece _ _ _ hbehind hbefore]
    rfl

end LaidNames

/-- What is no comma and no blank is in one of the names. -/
theorem exists_mem_listedNames {c : Char} (hc : isWhitespace c = false) (hcomma : c ≠ ',') {t : List Char} (h : c ∈ t) :
    ∃ n ∈ listedNames t, c ∈ n := by
  have hpiece : ∃ piece ∈ t.splitOn ',', c ∈ piece := by
    induction hlen : t.length using Nat.strong_induction_on generalizing t with
    | _ k ih =>
      by_cases hmem : ',' ∈ t
      · obtain ⟨x, y, rfl, hx⟩ := List.eq_append_cons_of_mem hmem
        rw [splitOn_append_cons hx]
        rw [List.length_append, List.length_cons] at hlen
        rcases List.mem_append.mp h with hcx | hcy
        · exact ⟨x, List.mem_cons_self, hcx⟩
        · obtain ⟨piece, hpiece, hmem'⟩ := ih y.length (by omega)
            ((List.mem_cons.mp hcy).resolve_left hcomma) rfl
          exact ⟨piece, List.mem_cons_of_mem _ hpiece, hmem'⟩
      · exact ⟨t, by rw [splitOn_of_not_mem hmem]; exact List.mem_singleton_self t, h⟩
  obtain ⟨piece, hpiece, hmem⟩ := hpiece
  have htrim : c ∈ trim piece := by
    rw [← List.count_pos_iff, count_trim hc, List.count_pos_iff]
    exact hmem
  exact ⟨trim piece, List.mem_filter.mpr ⟨List.mem_map_of_mem hpiece, by simpa using List.ne_nil_of_mem htrim⟩, htrim⟩

/-! ## The two parts of a clause -/

namespace LaidClause

variable {d : LaidClause}

def Plain (d : LaidClause) : Prop :=
  d.lead.Plain ∧ d.name.Plain ∧ d.listed.Plain ∧ d.stop.Plain

/-- There are no comments, and nothing around the dots of the names. -/
def Clean (d : LaidClause) : Prop :=
  (d.lead.Plain ∧ d.stop.Plain ∧ ∀ entry ∈ d.listed, entry.1.Plain ∧ entry.2.1.Plain) ∧
    d.name.Joined ∧ ∀ entry ∈ d.listed, entry.2.2.Joined

def names (d : LaidClause) : List (List Char) :=
  d.listed.map fun entry => entry.2.2.name

theorem word_free (kind : ClauseKind) : kind.word.toList ≠ [] ∧ ∀ c ∈ kind.word.toList, isWhitespace c = false := by
  cases kind <;> simp [ClauseKind.word, isWhitespace]

theorem slash_not_mem_word (kind : ClauseKind) : '/' ∉ kind.word.toList := by
  cases kind <;> simp [ClauseKind.word]

theorem plain_iff : d.Plain ↔ '/' ∉ d.body := by
  rw [Plain, body, List.mem_append, List.mem_append, List.mem_append, not_or, not_or, not_or, ← Spacing.plain_iff,
    ← LaidName.plain_iff, ← LaidNames.plain_iff (slash_not_mem_word _), ← Spacing.plain_iff]

theorem clean_iff : d.Clean ↔ d.Plain ∧ d.name.Joined ∧ ∀ entry ∈ d.listed, entry.2.2.Joined := by
  constructor
  · rintro ⟨⟨hlead, hstop, hspacings⟩, hname, hlisted⟩
    exact ⟨⟨hlead, hname.plain, fun entry hentry => ⟨(hspacings entry hentry).1, (hspacings entry hentry).2,
      (hlisted entry hentry).plain⟩, hstop⟩, hname, hlisted⟩
  · rintro ⟨⟨hlead, -, hlisted, hstop⟩, hname, hjoined⟩
    exact ⟨⟨hlead, hstop, fun entry hentry => ⟨(hlisted entry hentry).1, (hlisted entry hentry).2.1⟩⟩, hname, hjoined⟩

/-- The separator of the reader: the word between spaces. -/
def separator (d : LaidClause) : List Char :=
  ' ' :: (d.kind.word.toList ++ [' '])

theorem last_of_body (keyword : String) : ∃ front c, keyword.toList ++ d.body = front ++ [c] ∧ c ≠ ';' := by
  have hnames : ∀ (x word : List Char) (listed : LaidNames), (∃ front c, x = front ++ [c] ∧ c ≠ ';') →
      ∃ front c, x ++ listed.text word = front ++ [c] ∧ c ≠ ';' := by
    intro x word listed
    induction listed generalizing x word with
    | nil => exact fun h => by rwa [LaidNames.text, List.append_nil]
    | cons entry listed ih =>
      obtain ⟨before, behind, n⟩ := entry
      intro _
      have hlast := ih (x ++ before.text ++ word ++ behind.text ++ n.text) [','] (last_of_name _ n)
      rw [LaidNames.text]
      simpa only [List.append_assoc] using hlast
  have hlast := @last_of_spacing _ d.stop
    (hnames _ d.kind.word.toList d.listed (last_of_name (keyword.toList ++ d.lead.text) d.name))
  rw [body]
  simpa only [List.append_assoc] using hlast

theorem body_of_text : directiveBody d.kind.keyword (trim (LaidDirective.clause d).text) = some (trim d.body) := by
  have htext : (LaidDirective.clause d).text = d.kind.keyword.toList ++ (d.body ++ [';']) := rfl
  rw [htext, directiveBody_eq (solid_keyword d.kind) (last_of_body _)]

/-- A clause that lists nothing is its name. -/
theorem collapse_of_nil (hplain : d.Plain) (hname : d.name.Joined) (hlisted : d.listed = []) :
    collapse d.body = d.name.name := by
  rw [collapse, body, hlisted, LaidNames.text, List.nil_append, words_blank_append hplain.1.blank,
    words_append_blank _ hplain.2.2.2.blank, ← collapse, LaidName.collapse_text_eq_iff.mpr hname]

theorem split_of_nil (hplain : d.Plain) (hname : d.name.Joined) (hlisted : d.listed = []) :
    splitOnceText d.separator (collapse d.body) = none := by
  rw [collapse_of_nil hplain hname hlisted]
  exact splitOnceText_of_not_mem fun hmem => absurd (LaidName.name_free ' ' hmem) (by decide)

/-- What the reader finds in a clause without comments. -/
theorem split_of_plain (hplain : d.Plain) (hname : d.name.Joined) (hlisted : d.listed ≠ []) :
    ∃ t, splitOnceText d.separator (collapse d.body) = some (d.name.name, t) ∧
      listedNames t = d.listed.map fun entry => collapse entry.2.2.text := by
  obtain ⟨⟨before, behind, n⟩, rest, heq⟩ := List.exists_cons_of_ne_nil hlisted
  obtain ⟨hlead, -, hnames, hstop⟩ := hplain
  rw [heq] at hnames
  obtain ⟨⟨hbefore, hbehind, hn⟩, hrest⟩ := LaidNames.plain_cons.mp hnames
  have happart := d.apart.2 (before, behind, n) (by rw [heq]; rfl)
  have hne : ∀ s : Spacing, s ≠ [] → s.text ≠ [] := fun s hs h => hs (Spacing.text_eq_nil_iff.mp h)
  obtain ⟨t, ht⟩ : ∃ t, t = behind.text ++ (n.text ++ (LaidNames.text [','] rest ++ d.stop.text)) := ⟨_, rfl⟩
  have hbody : d.body = d.lead.text ++ (d.name.text ++ (before.text ++ (d.kind.word.toList ++ t))) := by
    rw [body, heq, LaidNames.text, ht]
    simp only [List.append_assoc]
  have hhead : ∀ c ∈ t.head?, isWhitespace c = true := fun c hc => by
    obtain ⟨e, more, htext, -⟩ := Spacing.head_text happart.2
    rw [ht, htext] at hc
    obtain rfl := Option.some.inj hc
    exact hbehind.blank e (by rw [htext]; exact List.mem_cons_self)
  have hwords : words d.body = d.name.name :: d.kind.word.toList :: words t := by
    rw [hbody, words_blank_append hlead.blank, words_append_gap _ hbefore.blank (hne _ happart.1),
      LaidName.text_of_joined hname, words_of_free LaidName.name_ne_nil LaidName.name_free,
      words_append_of_head _ hhead, words_of_free (word_free _).1 (word_free _).2]
    rfl
  have hmore : words t ≠ [] := fun hnil => by
    rw [ht, words_blank_append hbehind.blank] at hnil
    obtain ⟨c, more, htext⟩ := List.exists_cons_of_ne_nil n.solid_text.ne_nil
    have hc : isWhitespace c = false := n.solid_text.head c (by rw [htext]; rfl)
    obtain ⟨w, hw, -⟩ := (exists_mem_words_iff hc).mpr
      (List.mem_append_left _ (by rw [htext]; exact List.mem_cons_self) :
        c ∈ n.text ++ (LaidNames.text [','] rest ++ d.stop.text))
    rw [hnil] at hw
    exact absurd hw List.not_mem_nil
  have hcollapse : collapse d.body = d.name.name ++ (d.separator ++ collapse t) := by
    rw [collapse, hwords, List.intercalate_cons_of_ne_nil (List.cons_ne_nil _ _),
      List.intercalate_cons_of_ne_nil hmore, separator, collapse]
    simp only [List.append_assoc, List.cons_append, List.nil_append]
  refine ⟨collapse t, ?_, ?_⟩
  · rw [hcollapse]
    exact splitOnceText_append (fun hmem => absurd (LaidName.name_free ' ' hmem) (by decide)) _
  · rw [listedNames, pieces_collapse (by decide), ht, LaidNames.pieces_text hbehind hn hrest hstop, heq, List.map_cons]
    refine List.filter_eq_self.mpr fun m hm => ?_
    rcases List.mem_cons.mp hm with rfl | hm
    · simpa using n.collapse_text_ne_nil
    · obtain ⟨entry, -, rfl⟩ := List.mem_map.mp hm
      simpa using entry.2.2.collapse_text_ne_nil

theorem names_eq_iff : (d.listed.map fun entry => collapse entry.2.2.text) = d.names ↔
    ∀ entry ∈ d.listed, entry.2.2.Joined := by
  rw [names, List.map_inj_left]
  exact forall₂_congr fun entry _ => LaidName.collapse_text_eq_iff

theorem slash_not_mem_names : ∀ n ∈ d.names, '/' ∉ n := by
  intro n hn hmem
  obtain ⟨entry, -, rfl⟩ := List.mem_map.mp hn
  exact (LaidName.name_chars hmem).2.1 rfl

theorem words_of_plain (hplain : d.Plain) {more : List (List Char)} (h : words d.body = d.name.name :: more) :
    d.name.Joined := by
  rw [body, words_blank_append hplain.1.blank] at h
  exact LaidName.joined_of_first_word h

/-- The name is read right only from a clause without comments, and only when it is written without blanks. -/
theorem plain_of_split {p t : List Char} (hsplit : splitOnceText d.separator (collapse d.body) = some (p, t))
    (hp : trim p = d.name.name) (ht : listedNames t = d.names) : d.Plain ∧ d.name.Joined := by
  have heq := splitOnceText_eq hsplit
  have hplain : d.Plain := by
    rw [plain_iff]
    intro hmem
    rw [← mem_collapse_iff (by decide), heq, List.mem_append, List.mem_append] at hmem
    rcases hmem with hmem | hmem | hmem
    · rw [← List.count_pos_iff, ← count_trim (by decide), hp, List.count_pos_iff] at hmem
      exact (LaidName.name_chars hmem).2.1 rfl
    · rw [separator, List.mem_cons, List.mem_append, List.mem_singleton] at hmem
      rcases hmem with hmem | hmem | hmem
      · exact absurd hmem (by decide)
      · exact slash_not_mem_word _ hmem
      · exact absurd hmem (by decide)
    · obtain ⟨n, hn, hmem⟩ := exists_mem_listedNames (by decide) (by decide) hmem
      rw [ht] at hn
      exact slash_not_mem_names n hn hmem
  refine ⟨hplain, @words_of_plain _ hplain (words ((d.kind.word.toList ++ [' ']) ++ t)) ?_⟩
  have hfirst : words p = [d.name.name] :=
    (words_eq_singleton_iff LaidName.name_ne_nil LaidName.name_free).mpr hp
  rw [← words_collapse, heq, separator, List.cons_append, words_append_blank_cons _ (by decide), hfirst]
  rfl

theorem plain_of_collapse (h : collapse d.body = d.name.name) : d.Plain ∧ d.name.Joined := by
  have hplain : d.Plain := by
    rw [plain_iff]
    intro hmem
    rw [← mem_collapse_iff (by decide), h] at hmem
    exact (LaidName.name_chars hmem).2.1 rfl
  refine ⟨hplain, @words_of_plain _ hplain [] ?_⟩
  rw [← words_collapse, h, words_of_free LaidName.name_ne_nil LaidName.name_free]

theorem isEmpty_name : d.name.name.isEmpty = false := by
  simpa using LaidName.name_ne_nil

theorem split_none_iff (hsplit : splitOnceText d.separator (collapse d.body) = none) :
    (collapse d.body = d.name.name ∧ [] = d.names) ↔ d.Clean := by
  rw [clean_iff]
  have hlisted : d.Plain → d.name.Joined → d.listed = [] := fun hplain hjoined => by
    by_contra hne
    obtain ⟨t, ht, -⟩ := split_of_plain hplain hjoined hne
    rw [hsplit] at ht
    cases ht
  constructor
  · rintro ⟨hname, -⟩
    obtain ⟨hplain, hjoined⟩ := plain_of_collapse hname
    refine ⟨hplain, hjoined, fun entry hentry => ?_⟩
    rw [hlisted hplain hjoined] at hentry
    exact absurd hentry List.not_mem_nil
  · rintro ⟨hplain, hjoined, -⟩
    have hnil := hlisted hplain hjoined
    exact ⟨collapse_of_nil hplain hjoined hnil, by rw [names, hnil]; rfl⟩

theorem split_some_iff {p t : List Char} (hsplit : splitOnceText d.separator (collapse d.body) = some (p, t)) :
    (trim p = d.name.name ∧ listedNames t = d.names) ↔ d.Clean := by
  rw [clean_iff, ← names_eq_iff]
  have hfound : d.Plain → d.name.Joined →
      p = d.name.name ∧ listedNames t = d.listed.map fun entry => collapse entry.2.2.text := by
    intro hplain hjoined
    have hlisted : d.listed ≠ [] := fun hnil => by
      rw [split_of_nil hplain hjoined hnil] at hsplit
      cases hsplit
    obtain ⟨t', ht', hnames⟩ := split_of_plain hplain hjoined hlisted
    rw [hsplit] at ht'
    obtain ⟨rfl, rfl⟩ := Prod.mk.inj (Option.some.inj ht')
    exact ⟨rfl, hnames⟩
  constructor
  · rintro ⟨hp, ht⟩
    obtain ⟨hplain, hjoined⟩ := plain_of_split hsplit hp ht
    exact ⟨hplain, hjoined, (hfound hplain hjoined).2.symm.trans ht⟩
  · rintro ⟨hplain, hjoined, hnames⟩
    obtain ⟨hp, ht⟩ := hfound hplain hjoined
    exact ⟨by rw [hp, (solid_of_free LaidName.name_ne_nil LaidName.name_free).trim_eq], ht.trans hnames⟩

theorem collapse_trim (s : List Char) : collapse (trim s) = collapse s := by
  rw [collapse, words_trim, collapse]

/-! ## The four readers -/

theorem parsePackage_iff (hword : d.kind.word = "to") :
    parsePackageDirective (trim (LaidDirective.clause d).text) d.kind.keyword = some ⟨d.name.name, d.names⟩ ↔
      d.Clean := by
  have hsep : " to ".toList = d.separator := by
    rw [separator, hword]
    rfl
  have hparse : ∀ p ns, (if p.isEmpty then none else some (JavaModulePackageDirective.mk p ns)) =
      some ⟨d.name.name, d.names⟩ ↔ p = d.name.name ∧ ns = d.names := fun p ns => by
    constructor
    · intro h
      split at h
      · cases h
      · cases h
        exact ⟨rfl, rfl⟩
    · rintro ⟨rfl, rfl⟩
      rw [isEmpty_name]
      rfl
  rw [parsePackageDirective, body_of_text, Option.bind_some, collapse_trim, hsep, hparse]
  cases hsplit : splitOnceText d.separator (collapse d.body) with
  | none => exact split_none_iff hsplit
  | some parts => exact split_some_iff hsplit

theorem parseUses_iff (hkind : d.kind = .uses) :
    parseUsesDirective (trim (LaidDirective.clause d).text) = some d.name.name ↔ d.Clean := by
  have hkeyword : d.kind.keyword = "uses" := by rw [hkind]; rfl
  have hlisted := d.uses hkind
  have hparse : (if (trim d.body).isEmpty then none else some (trim d.body)) = some d.name.name ↔
      trim d.body = d.name.name := by
    constructor
    · intro h
      split at h
      · cases h
      · exact Option.some.inj h
    · intro h
      rw [h, isEmpty_name]
      rfl
  rw [parseUsesDirective, ← hkeyword, body_of_text, Option.bind_some, hparse,
    ← collapse_eq_iff LaidName.name_ne_nil LaidName.name_free, clean_iff]
  constructor
  · intro h
    obtain ⟨hplain, hjoined⟩ := plain_of_collapse h
    exact ⟨hplain, hjoined, fun entry hentry => absurd (hlisted ▸ hentry) List.not_mem_nil⟩
  · rintro ⟨hplain, hjoined, -⟩
    exact collapse_of_nil hplain hjoined hlisted

theorem parseProvides_iff (hkind : d.kind = .provides) :
    parseProvidesDirective (trim (LaidDirective.clause d).text) = some ⟨d.name.name, d.names⟩ ↔ d.Clean := by
  have hkeyword : d.kind.keyword = "provides" := by rw [hkind]; rfl
  have hsep : " with ".toList = d.separator := by
    rw [separator, hkind]
    rfl
  have hnames : d.names ≠ [] := by simpa [names] using d.provides hkind
  have hparse : ∀ p ns, (if p.isEmpty || ns.isEmpty then none else some (JavaModuleProvides.mk p ns)) =
      some ⟨d.name.name, d.names⟩ ↔ p = d.name.name ∧ ns = d.names := fun p ns => by
    constructor
    · intro h
      split at h
      · cases h
      · cases h
        exact ⟨rfl, rfl⟩
    · rintro ⟨rfl, rfl⟩
      rw [isEmpty_name, Bool.false_or, if_neg (by simpa using hnames)]
  rw [parseProvidesDirective, ← hkeyword, body_of_text, Option.bind_some, collapse_trim, hsep]
  cases hsplit : splitOnceText d.separator (collapse d.body) with
  | none =>
    refine iff_of_false (Option.some_ne_none _).symm fun hclean => ?_
    exact hnames ((split_none_iff hsplit).mpr hclean).2.symm
  | some parts =>
    rw [Option.bind_some, hparse]
    exact split_some_iff hsplit

/-! ## Squeezed clauses -/

theorem mem_squeezeNames {listed : LaidNames} : ∀ entry ∈ squeezeNames listed,
    entry.1.Plain ∧ entry.2.1.Plain ∧ entry.2.2.Joined := by
  cases listed with
  | nil => exact fun entry hentry => absurd hentry List.not_mem_nil
  | cons first rest =>
    intro entry hentry
    rcases List.mem_cons.mp hentry with rfl | hentry
    · exact ⟨Spacing.plain_space, Spacing.plain_space, LaidName.joined_join _⟩
    · obtain ⟨entry', -, rfl⟩ := List.mem_map.mp hentry
      exact ⟨Spacing.plain_nil, Spacing.plain_space, LaidName.joined_join _⟩

theorem clean_squeeze (d : LaidClause) : d.squeeze.Clean :=
  ⟨⟨Spacing.plain_space, Spacing.plain_nil, fun entry hentry =>
    ⟨(mem_squeezeNames entry hentry).1, (mem_squeezeNames entry hentry).2.1⟩⟩,
    LaidName.joined_join _, fun entry hentry => (mem_squeezeNames entry hentry).2.2⟩

theorem names_squeeze (d : LaidClause) : d.squeeze.names = d.names := by
  have hnames : ∀ listed : LaidNames, ((squeezeNames listed).map fun entry => entry.2.2.name) =
      listed.map fun entry => entry.2.2.name := fun listed => by
    cases listed with
    | nil => rfl
    | cons first rest =>
      simp only [squeezeNames, List.map_cons, List.map_map, LaidName.name_join]
      exact congrArg _ (List.map_congr_left fun entry _ => LaidName.name_join _)
  exact hnames d.listed

end LaidClause

end JavaAnalyzer.Language
