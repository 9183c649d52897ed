import JavaAnalyzer.Completion.ImportUtils
import JavaAnalyzer.Library.StrLines
import JavaAnalyzer.Semantic.ArgumentTexts

/-! # Imports read off the text

`extract_imports_from_source` and `extract_package_from_source` of `completion/import_utils.rs` go over the lines of the
source, without a tree, and `is_already_in_source` of `lsp/converters.rs` asks what they find. An import statement on a
line of its own is found; one that shares its line with other text is not. -/

namespace JavaAnalyzer.Completion
set_option autoImplicit false
open Index Text TextPlaces Semantic JavaAnalyzer.Language

/-! ## The lines of a source -/

def importWord : List Char := ['i', 'm', 'p', 'o', 'r', 't', ' ']

def packageWord : List Char := ['p', 'a', 'c', 'k', 'a', 'g', 'e', ' ']

/-- `t.starts_with(word)` for the trimmed line. -/
def startsWith (word line : List Char) : Bool :=
  word.isPrefixOf (trim line)

/-- What a line says behind the word it begins with. -/
def behindWord (word line : List Char) : Option (List Char) :=
  (word.isPrefixOf? (trim line)).map fun rest => trim (trimEndMatches ';' rest)

def importOf (line : List Char) : Option String :=
  ((behindWord importWord line).map String.ofList).filter (!·.isEmpty)

def packageOf (line : List Char) : Option String :=
  ((behindWord packageWord line).map fun rest => BucketState.slashed (String.ofList rest)).filter (!·.isEmpty)

def extractImportsFromSource (source : List Char) : List String :=
  (strLines source).filterMap importOf

def extractPackageFromSource (source : List Char) : Option String :=
  (strLines source).findSome? packageOf

def isAlreadyInSource (fqn : String) (source : List Char) : Bool :=
  !isImportNeeded fqn (extractImportsFromSource source) (extractPackageFromSource source)

theorem behindWord_eq_some {word line text : List Char} (h : behindWord word line = some text) :
    ∃ rest, trim line = word ++ rest ∧ trim (trimEndMatches ';' rest) = text := by
  obtain ⟨rest, hrest, htext⟩ := Option.map_eq_some_iff.mp h
  exact ⟨rest, (List.isPrefixOf?_eq_some_iff_append_eq.mp hrest).symm, htext⟩

/-! ## When an import is needed -/

theorem isImportNeeded_iff {fqn : String} {imports : List String} {enclosing : Option String} :
    isImportNeeded fqn imports enclosing = true ↔ '.' ∈ fqn.toList ∧ isJavaLang fqn = false ∧
      (∀ imp ∈ imports, imp ≠ fqn ∧ wildcardCovers imp fqn = false) ∧
      ∀ e ∈ enclosing, samePackage fqn e = false := by
  have hmem : fqn ∉ imports ↔ ∀ imp ∈ imports, ¬imp = fqn :=
    ⟨fun h imp himp heq => h (heq ▸ himp), fun h hmem => h fqn hmem rfl⟩
  cases enclosing <;> simp [isImportNeeded, forall₂_and, and_assoc, hmem]

theorem mem_of_mem_beforeLast {c d : Char} {text front : List Char} (h : beforeLast c text = some front)
    (hd : d ∈ front) : d ∈ text := by
  have hmem : c ∈ text := by
    by_contra hnot
    rw [beforeLast, if_neg hnot] at h
    cases h
  obtain ⟨pre, post, rfl, hpost⟩ := exists_last hmem
  rw [beforeLast_append_cons pre hpost, Option.some.injEq] at h
  exact List.mem_append_left _ (h ▸ hd)

/-- The name of a class, as sources write it. -/
structure ClassName where
  text : String
  ne_nil : text.toList ≠ []
  plain : ∀ c ∈ text.toList, isWhitespace c = false ∧ c ≠ ';' ∧ c ≠ '*'

namespace ClassName

variable (fqn : ClassName)

def chars : List Char := fqn.text.toList

theorem space_not_mem : ' ' ∉ fqn.chars := fun h =>
  Bool.false_ne_true ((fqn.plain ' ' h).1.symm.trans (by decide))

theorem semicolon_not_mem : ';' ∉ fqn.chars := fun h => (fqn.plain ';' h).2.1 rfl

/-- A text with a blank in it names no class. -/
theorem not_covered {imp : String} (h : ' ' ∈ imp.toList) :
    imp ≠ fqn.text ∧ wildcardCovers imp fqn.text = false := by
  refine ⟨fun heq => fqn.space_not_mem (by rw [chars, ← heq]; exact h), Bool.eq_false_iff.mpr fun hcovers => ?_⟩
  obtain ⟨pkg, rest, himp, hname, -⟩ := wildcardCovers_iff.mp hcovers
  rw [himp, List.mem_append] at h
  rcases h with h | h
  · exact fqn.space_not_mem (by rw [chars, hname]; exact List.mem_append_left _ h)
  · exact absurd h (by simp)

theorem not_same_package {e : String} (h : ' ' ∈ e.toList) : samePackage fqn.text e = false := by
  rw [Bool.eq_false_iff, samePackage]
  split
  · rename_i hempty
    rw [String.isEmpty_iff] at hempty
    rw [hempty] at h
    exact absurd h (by simp)
  · intro hsame
    have hfront := of_decide_eq_true hsame
    have hspace : ' ' ∈ (slashesToDots e).toList := by
      rw [slashesToDots, String.toList_ofList]
      exact List.mem_map.mpr ⟨' ', h, by decide⟩
    exact fqn.space_not_mem (mem_of_mem_beforeLast hfront hspace)

/-- The statement, without what ends its line. -/
def importStatement : List Char :=
  importWord ++ fqn.chars ++ [';']

theorem lineFeed_not_mem_importStatement : '\n' ∉ fqn.importStatement := by
  rw [importStatement, List.mem_append, List.mem_append]
  rintro ((h | h) | h)
  · exact absurd h (by decide)
  · exact Bool.false_ne_true ((fqn.plain '\n' h).1.symm.trans (by decide))
  · exact absurd h (by decide)

theorem solid_importStatement : Solid fqn.importStatement :=
  @Solid.append ['i'] [';'] (solid_singleton (by decide)) (importWord.tail ++ fqn.chars) (solid_singleton (by decide))

theorem trim_chars : trim fqn.chars = fqn.chars := by
  obtain ⟨b, b', heq, hb, hb'⟩ := exists_trim fqn.chars
  have hnone : ∀ blanks, Blank blanks → (∀ c ∈ blanks, c ∈ fqn.chars) → blanks = [] := fun blanks hblank hin =>
    List.eq_nil_iff_forall_not_mem.mpr fun c hc =>
      Bool.false_ne_true ((fqn.plain c (hin c hc)).1.symm.trans (hblank c hc))
  have hfront := hnone b hb fun c hc => by rw [heq]; simp [hc]
  have hback := hnone b' hb' fun c hc => by rw [heq]; simp [hc]
  rw [hfront, hback, List.nil_append, List.append_nil] at heq
  exact heq.symm

theorem trimEndMatches_statement {front : List Char} (h : front.getLast? ≠ some ';') :
    trimEndMatches ';' (front ++ [';']) = front := by
  rw [trimEndMatches, List.rdropWhile_concat_pos _ _ _ (by simp)]
  refine List.rdropWhile_eq_self_iff.mpr fun hne hlast => h ?_
  rw [List.getLast?_eq_some_getLast hne]
  exact congrArg some (by simpa using hlast)

variable {fqn} {front : List Char}

theorem getLast?_ne_semicolon (text : List Char) : (text ++ fqn.chars).getLast? ≠ some ';' := by
  rw [chars, List.getLast?_append_of_ne_nil _ fqn.ne_nil]
  exact fun h => fqn.semicolon_not_mem (List.mem_of_getLast? h)

/-- A statement on a line of its own. -/
theorem behindWord_statement (h : Blank front) :
    behindWord importWord (front ++ fqn.importStatement) = some fqn.chars := by
  have hprefix : importWord.isPrefixOf? fqn.importStatement = some (fqn.chars ++ [';']) :=
    List.isPrefixOf?_eq_some_iff_append_eq.mpr (by rw [importStatement, List.append_assoc])
  have hlast : fqn.chars.getLast? ≠ some ';' := @getLast?_ne_semicolon fqn []
  rw [behindWord, trim_blank_append h, fqn.solid_importStatement.trim_eq, hprefix, Option.map_some,
    trimEndMatches_statement hlast, trim_chars]

theorem trim_line (front : List Char) :
    trim (front ++ fqn.importStatement) = trimStart front ++ fqn.importStatement :=
  trim_append_solid front fqn.solid_importStatement

/-- What is read of a statement behind other text has the blank of the statement. -/
theorem space_mem_text (text : List Char) : ' ' ∈ trim (trimEndMatches ';' (text ++ fqn.importStatement)) := by
  have hsplit : text ++ fqn.importStatement = text ++ importWord ++ fqn.chars ++ [';'] := by
    rw [importStatement]
    simp only [List.append_assoc]
  obtain ⟨c, hc⟩ := List.exists_mem_of_ne_nil _ fqn.ne_nil
  have hword : text ++ importWord ++ fqn.chars = text ++ ['i', 'm', 'p', 'o', 'r', 't'] ++ ' ' :: fqn.chars := by
    simp [importWord]
  rw [hsplit, trimEndMatches_statement (getLast?_ne_semicolon _), hword]
  exact mem_trim_of_between (List.mem_append_right text List.mem_cons_self) (by decide) hc (fqn.plain c hc).1

variable {word : List Char}

theorem space_mem_of_crowded (h : ¬Blank front) (hword : 'i' ∉ word.tail) {text : List Char}
    (htext : behindWord word (front ++ fqn.importStatement) = some text) : ' ' ∈ text := by
  obtain ⟨rest, hline, rfl⟩ := behindWord_eq_some htext
  rw [trim_line] at hline
  obtain ⟨more, hmore⟩ := @front_of_front_append word _ _ _ ⟨rest, hline.symm⟩ (trimStart_ne_nil h) hword
  rw [← hmore, List.append_assoc, List.append_cancel_left_eq] at hline
  rw [← hline]
  exact space_mem_text more

theorem behindWord_crowded (h : ¬Blank front) (hword : word <+: trimStart front) :
    ∃ text, behindWord word (front ++ fqn.importStatement) = some text := by
  obtain ⟨more, hmore⟩ := hword
  refine ⟨_, Option.map_eq_some_iff.mpr ⟨more ++ fqn.importStatement, ?_, rfl⟩⟩
  rw [trim_line, ← hmore]
  exact List.isPrefixOf?_eq_some_iff_append_eq.mpr (List.append_assoc ..).symm

theorem importOf_statement (h : Blank front) : importOf (front ++ fqn.importStatement) = some fqn.text := by
  rw [importOf, behindWord_statement h, Option.map_some, chars, String.ofList_toList, Option.filter_some, if_pos]
  rw [Bool.not_eq_true', ← Bool.not_eq_true, String.isEmpty_iff]
  intro hempty
  exact fqn.ne_nil (by rw [hempty]; rfl)

theorem not_covered_of_crowded (h : ¬Blank front) {imp : String}
    (himp : importOf (front ++ fqn.importStatement) = some imp) :
    imp ≠ fqn.text ∧ wildcardCovers imp fqn.text = false := by
  obtain ⟨hmap, -⟩ := Option.filter_eq_some_iff.mp himp
  obtain ⟨text, htext, rfl⟩ := Option.map_eq_some_iff.mp hmap
  refine fqn.not_covered ?_
  rw [String.toList_ofList]
  exact space_mem_of_crowded h (by decide) htext

theorem not_same_package_of_crowded (h : ¬Blank front) {e : String}
    (he : packageOf (front ++ fqn.importStatement) = some e) : samePackage fqn.text e = false := by
  obtain ⟨hmap, -⟩ := Option.filter_eq_some_iff.mp he
  obtain ⟨text, htext, rfl⟩ := Option.map_eq_some_iff.mp hmap
  refine fqn.not_same_package ?_
  rw [BucketState.slashed, String.toList_ofList, String.toList_ofList]
  exact List.mem_map.mpr ⟨' ', space_mem_of_crowded h (by decide) htext, by decide⟩

/-- A package declaration stays one when a statement follows on its line. -/
theorem packageOf_crowded (h : ¬Blank front) (hword : packageWord <+: trimStart front) :
    (packageOf (front ++ fqn.importStatement)).isSome = true := by
  obtain ⟨text, htext⟩ := @behindWord_crowded fqn _ _ h hword
  have hspace := space_mem_of_crowded h (by decide) htext
  rw [packageOf, htext, Option.map_some, Option.filter_some, if_pos, Option.isSome_some]
  rw [Bool.not_eq_true', ← Bool.not_eq_true, String.isEmpty_iff, BucketState.slashed, String.toList_ofList]
  intro hempty
  have hnil := congrArg String.toList hempty
  rw [String.toList_ofList, String.toList_empty, List.map_eq_nil_iff] at hnil
  rw [hnil] at hspace
  exact absurd hspace List.not_mem_nil

end ClassName

end JavaAnalyzer.Completion
