import JavaAnalyzer.Completion.Candidate
import JavaAnalyzer.Language.DelegateRule
import JavaAnalyzer.Language.ModifierFlags
import JavaAnalyzer.Semantic.Conversion
import JavaAnalyzer.Semantic.SymbolResolver

/-! # Scores of candidates

`completion/scorer.rs`: how well the text of a candidate matches what is typed, what its kind is worth, and how its type
fits the expected one. -/

namespace JavaAnalyzer.Completion
set_option autoImplicit false
open Index Text JavaAnalyzer.Language Semantic

/-- Unicode's case tables, of which only the part for ASCII is known here. -/
structure CaseTables where
  toLowercase : List Char → List Char
  isUppercase : Char → Bool
  toLowercase_ascii : ∀ s, (∀ c ∈ s, c.val < 128) → toLowercase s = s.map Char.toLower

/-! ## Texts -/

def isSubsequence (needle haystack : List Char) : Bool :=
  needle.isSublist haystack

section Texts

variable (tables : CaseTables)

/-- The first letters of the words behind a character, of which it is known whether it is an upper case letter. -/
def wordInitials : Bool → List Char → List Char
  | _, [] => []
  | prevWasUpper, c :: cs =>
    if tables.isUppercase c && !prevWasUpper then c.toLower :: wordInitials true cs
    else wordInitials (tables.isUppercase c) cs

def camelInitials : List Char → List Char
  | [] => []
  | c :: cs => c.toLower :: wordInitials tables (tables.isUppercase c) cs

/-- `prefix_score` -/
def textScore (query label : List Char) : ℚ :=
  if query.isEmpty then 20
  else
    let q := tables.toLowercase query
    let l := tables.toLowercase label
    if l = q then 100
    else if q.isPrefixOf l then 80
    else if q.isPrefixOf (camelInitials tables label) then 60
    else if containsText q l then 40
    else if isSubsequence q l then 20
    else 0

end Texts

/-! ## Kinds and types -/

def kindBaseScore : CandidateKind → ℚ
  | .localVariable _ => 30
  | .method .. => 20
  | .field .. => 18
  | .constructor .. => 15
  | .staticMethod .. => 12
  | .staticField .. => 10
  | .className => 8
  | .package => 6
  | .statementLabel => 11 / 2
  | .keyword => 5
  | CandidateKind.annotation => 3
  | .annotationElement => 4
  | .snippet => 2
  | .nameSuggestion => 1

def descriptorOrType (raw : List Char) : Option TypeName :=
  (parseSingleTypeToInternal raw).or ((singletonDescriptorToType raw).map TypeName.new)

def methodReturnType (descriptor : List Char) : Option TypeName :=
  (splitOnce ')' descriptor).bind fun split => descriptorOrType split.2

def candidateValueType (c : CompletionCandidate) : Option TypeName :=
  match c.kind with
  | .localVariable typeDescriptor => descriptorOrType typeDescriptor.toList
  | .field descriptor _ | .staticField descriptor _ => descriptorOrType descriptor.toList
  | .method descriptor _ | .staticMethod descriptor _ => methodReturnType descriptor.toList
  | .constructor _ definingClass => some (TypeName.new definingClass)
  | _ => none

/-- What a conversion to the expected type is worth. -/
def conversionScore : ConversionKind → ℚ
  | .identity => 180
  | .wideningPrimitive => 140
  | .unboxingWideningPrimitive => 120
  | .unboxing | .boxing => 110
  | .boxingWideningPrimitive => 90
  | .referenceWidening => 70
  | .nullToReference => 50
  | .unknown => 0
  | .narrowingPrimitive => -80
  | .incompatible => -120

structure Scorer where
  query : String
  expectedType : Option TypeName
  resolver : Option IndexView

namespace Scorer

def compatibilityScore (scorer : Scorer) (c : CompletionCandidate) : ℚ :=
  match scorer.expectedType, scorer.resolver, candidateValueType c with
  | some expected, some view, some sourceType => conversionScore (typeCompatibility view sourceType expected).kind
  | _, _, _ => 0

def score (tables : CaseTables) (scorer : Scorer) (c : CompletionCandidate) : ℚ :=
  textScore tables scorer.query.toList (c.insertion.filterText.getD c.label).toList + kindBaseScore c.kind +
    scorer.compatibilityScore c

end Scorer

/-! ## Matches -/

section Matches

variable (tables : CaseTables)

theorem wordInitials_sublist (prevWasUpper : Bool) (s : List Char) :
    (wordInitials tables prevWasUpper s).Sublist (s.map Char.toLower) := by
  induction s generalizing prevWasUpper with
  | nil => exact List.Sublist.refl _
  | cons c s ih =>
    rw [wordInitials, List.map_cons]
    split
    · exact (ih true).cons_cons c.toLower
    · exact (ih _).cons c.toLower

theorem camelInitials_sublist (s : List Char) : (camelInitials tables s).Sublist (s.map Char.toLower) := by
  cases s with
  | nil => exact List.Sublist.refl _
  | cons c s => exact (wordInitials_sublist tables _ s).cons_cons c.toLower

/-- Every tier of the score is a way to be a subsequence. -/
theorem textScore_pos_iff {query label : List Char} (hquery : ∀ c ∈ query, c.val < 128)
    (hlabel : ∀ c ∈ label, c.val < 128) :
    0 < textScore tables query label ↔ (query.map Char.toLower).Sublist (label.map Char.toLower) := by
  rw [textScore]
  split
  · rename_i hempty
    rw [List.isEmpty_iff.mp hempty]
    simp
  · rw [tables.toLowercase_ascii query hquery, tables.toLowercase_ascii label hlabel]
    dsimp only
    split_ifs with hequal hfront hinitials hinside hsub
    · simp [hequal]
    · simp [(List.isPrefixOf_iff_prefix.mp hfront).sublist]
    · have hsublist := (List.isPrefixOf_iff_prefix.mp hinitials).sublist.trans (camelInitials_sublist tables label)
      simp [hsublist]
    · simp [(containsText_iff.mp hinside).sublist]
    · simp [List.isSublist_iff_sublist.mp hsub]
    · have hnot : ¬ (query.map Char.toLower).Sublist (label.map Char.toLower) :=
        fun h => hsub (List.isSublist_iff_sublist.mpr h)
      simp [hnot]

theorem textScore_pos_gs :
    0 < textScore ⟨List.map Char.toLower, Char.isUpper, fun _ _ => rfl⟩ ['g', 'S'] ['g', 'e', 't', 'S', 'e'] :=
  (textScore_pos_iff _ (by simp) (by simp)).mpr (by decide)

end Matches

end JavaAnalyzer.Completion
