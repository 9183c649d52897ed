import JavaAnalyzer.Language.RopePositions
import JavaAnalyzer.Library.SpanWalk
import JavaAnalyzer.Lsp.CancellationToken
import JavaAnalyzer.Lsp.SemanticTokens

/-! # The tokens of a syntax tree

`TokenCollector` of `language.rs` walks over the nodes of the tree, asks the language what kind of token each is, and
writes the tokens relative to one another. -/

namespace JavaAnalyzer.Lsp
set_option autoImplicit false
open TextLines SpanWalk JavaAnalyzer.Language

/-! ## The legend -/

inductive SemanticTokenType where
  | classType
  | interface
  | enum
  | typeParameter
  | method
  | property
  | variable
  | parameter
  | keyword
  | modifier
  | decorator
  | string
  | other (name : String)
deriving DecidableEq, Repr

inductive SemanticTokenModifier where
  | static
  | abstract
  | readonly
  | other (name : String)
deriving DecidableEq, Repr

/-- `TOKEN_TYPES` -/
def tokenTypes : List SemanticTokenType :=
  [.classType, .interface, .enum, .typeParameter, .method, .property, .variable, .parameter, .keyword, .modifier,
    .decorator, .string]

/-- `TOKEN_MODIFIERS` -/
def tokenModifiers : List SemanticTokenModifier :=
  [.static, .abstract, .readonly]

def getTypeIdx (t : SemanticTokenType) : UInt32 :=
  UInt32.ofNat ((tokenTypes.idxOf? t).getD 0)

def getModifierMask (m : SemanticTokenModifier) : UInt32 :=
  match tokenModifiers.idxOf? m with
  | some idx => 1 <<< UInt32.ofNat idx
  | none => 0

structure ClassifiedToken where
  ty : SemanticTokenType
  modifiers : List SemanticTokenModifier
deriving DecidableEq, Repr

/-- What a language makes of a node. All that it uses is in the legend. -/
structure TokenLanguage (α : Type) where
  classifySemanticToken : α → Option ClassifiedToken
  legend : ∀ node token, classifySemanticToken node = some token →
    token.ty ∈ tokenTypes ∧ ∀ m ∈ token.modifiers, m ∈ tokenModifiers

/-- What is asked about a node of a Java tree: its kind, whether it is the `name` of its parent, and the kinds and
modifiers of what it stands in. -/
structure JavaNode where
  kind : String
  isNameOfParent : Bool
  parentKind : Option String
  parentModifiers : Option String
  grandparentKind : Option String
  grandparentModifiers : Option String

namespace JavaNode

def isAnnotationName (node : JavaNode) : Bool :=
  (node.parentKind = some "annotation" || node.parentKind = some "marker_annotation") && node.isNameOfParent

/-- `is_static` of the parent. -/
def parentIsStatic (node : JavaNode) : Bool :=
  node.parentModifiers.any fun text => "static".toList <:+: text.toList

/-- `is_final` of the parent's parent. -/
def grandparentIsFinal (node : JavaNode) : Bool :=
  node.grandparentModifiers.any fun text => "final".toList <:+: text.toList

def isFieldDeclaratorIdentifier (node : JavaNode) : Bool :=
  node.grandparentKind = some "field_declaration"

def classifySemanticToken (node : JavaNode) : Option ClassifiedToken :=
  match node.kind with
  | "type_identifier" => if node.isAnnotationName then some ⟨.decorator, []⟩ else some ⟨.classType, []⟩
  | "string_literal" => some ⟨.string, []⟩
  | "static" => some ⟨.modifier, [.static]⟩
  | "final" => some ⟨.modifier, [.readonly]⟩
  | "identifier" =>
    if node.isAnnotationName then some ⟨.decorator, []⟩
    else
      match node.parentKind with
      | some "method_declaration" => some ⟨.method, if node.parentIsStatic then [.static] else []⟩
      | some "method_invocation" => some ⟨.method, []⟩
      | some "variable_declarator" =>
        if node.isFieldDeclaratorIdentifier then some ⟨.property, if node.grandparentIsFinal then [.readonly] else []⟩
        else some ⟨.variable, []⟩
      | some "formal_parameter" => some ⟨.parameter, []⟩
      | _ => none
  | _ => none

theorem classifySemanticToken_legend (node : JavaNode) (token : ClassifiedToken)
    (h : node.classifySemanticToken = some token) :
    token.ty ∈ tokenTypes ∧ ∀ m ∈ token.modifiers, m ∈ tokenModifiers := by
  unfold classifySemanticToken at h
  split at h
  case h_1 => cases hname : node.isAnnotationName <;> rw [hname] at h <;> cases h <;> decide
  case h_5 =>
    cases hname : node.isAnnotationName with
    | true =>
      rw [hname] at h
      cases h
      decide
    | false =>
      rw [hname, if_neg Bool.false_ne_true] at h
      split at h
      · cases h
        cases node.parentIsStatic <;> decide
      · cases h
        decide
      · split_ifs at h <;> cases h <;> decide
      · cases h
        decide
      · cases h
  case h_6 => cases h
  all_goals
    cases h
    decide

end JavaNode

def javaTokens : TokenLanguage JavaNode where
  classifySemanticToken := JavaNode.classifySemanticToken
  legend := JavaNode.classifySemanticToken_legend

/-- A language that does not say otherwise has no tokens. -/
def plainTokens (α : Type) : TokenLanguage α where
  classifySemanticToken _ := none
  legend _ _ h := by cases h

/-! ## The walk -/

/-- `u32::saturating_sub` -/
def saturatingSub (n m : UInt32) : UInt32 :=
  if n ≤ m then 0 else n - m

/-- The tokens written so far, and where the last one begins. -/
structure Emitted where
  data : List SemanticToken
  lastLine : UInt32
  lastColUtf16 : UInt32

structure TokenCollector where
  visitedNodes : ℕ
  emitted : Emitted

def TokenCollector.new : TokenCollector where
  visitedNodes := 0
  emitted := ⟨[], 0, 0⟩

def TokenCollector.finish (c : TokenCollector) : List SemanticToken :=
  c.emitted.data

def modsToBitset (mods : List SemanticTokenModifier) : UInt32 :=
  mods.foldl (fun bitset m => bitset ||| getModifierMask m) 0

def utf16UnitsInRopeCharRange (rope : Rope) (startChar endChar : ℕ) : ℕ :=
  if endChar ≤ startChar then 0 else utf16Units (rope.slice startChar endChar)

/-- What ends a walk before its end. -/
inductive Stopped where
  | cancelled (reason : Cancelled)
  | panicked

section Walk

variable {α : Type} (isBreak : Char → Bool) (rope : Rope) (lang : TokenLanguage α)

def pushToken (e : Emitted) (node : SpanTree α) (token : ClassifiedToken) : Option Emitted := do
  let startChar ← rope.byteToChar node.start
  let endChar ← rope.byteToChar node.stop
  let lineIdx := rope.charToLine isBreak startChar
  let lineStartChar := rope.lineToChar isBreak lineIdx
  let colChar := startChar - lineStartChar
  let colUtf16 := utf16UnitsInRopeCharRange rope lineStartChar (lineStartChar + colChar)
  let lenUtf16 := utf16UnitsInRopeCharRange rope startChar endChar
  let line := UInt32.ofNat lineIdx
  let col := UInt32.ofNat colUtf16
  let deltaLine := saturatingSub line e.lastLine
  let deltaStart := if deltaLine = 0 then saturatingSub col e.lastColUtf16 else col
  some
    { data := e.data ++ [
        { deltaLine := deltaLine
          deltaStart := deltaStart
          length := UInt32.ofNat lenUtf16
          tokenType := getTypeIdx token.ty
          tokenModifiersBitset := modsToBitset token.modifiers }]
      lastLine := line
      lastColUtf16 := col }

/-- What is emitted for a node. -/
def emitNode (e : Emitted) (node : SpanTree α) : Option Emitted :=
  match lang.classifySemanticToken node.label with
  | none => some e
  | some token => pushToken isBreak rope e node token

/-- The request says at each node visited whether it has been cancelled by then; it is asked at every 64th. -/
def checkCancelled (request : Option (ℕ → Option Cancelled)) (c : TokenCollector) : Except Stopped TokenCollector :=
  let c := { c with visitedNodes := c.visitedNodes + 1 }
  if c.visitedNodes % 64 = 0 then
    match request.bind fun reason => reason c.visitedNodes with
    | some reason => .error (.cancelled reason)
    | none => .ok c
  else .ok c

variable (request : Option (ℕ → Option Cancelled)) (outside : SpanTree α → Bool)

mutual

/-- `collect` and `collect_range`, which differ in what they leave out. -/
def collectNode (c : TokenCollector) : SpanTree α → Except Stopped TokenCollector
  | .node label start stop children =>
    if outside (.node label start stop children) then .ok c else collectChildren c children

def collectChildren (c : TokenCollector) : List (SpanTree α) → Except Stopped TokenCollector
  | [] => .ok c
  | child :: rest =>
    match checkCancelled request c with
    | .error stopped => .error stopped
    | .ok c =>
      if outside child then collectChildren c rest
      else
        match emitNode isBreak rope lang c.emitted child with
        | none => .error .panicked
        | some emitted =>
          let c := { c with emitted := emitted }
          match if child.children.length > 0 then collectNode c child else .ok c with
          | .error stopped => .error stopped
          | .ok c => collectChildren c rest

end

def collect (c : TokenCollector) (node : SpanTree α) : Except Stopped TokenCollector :=
  collectNode isBreak rope lang request (fun _ => false) c node

/-- The node lies before or behind the range. -/
def outsideRange (rangeStartByte rangeEndByte : ℕ) (node : SpanTree α) : Bool :=
  node.stop ≤ rangeStartByte || node.start ≥ rangeEndByte

def collectRange (c : TokenCollector) (node : SpanTree α) (rangeStartByte rangeEndByte : ℕ) :
    Except Stopped TokenCollector :=
  collectNode isBreak rope lang request (outsideRange rangeStartByte rangeEndByte) c node

end Walk

/-! ## The client -/

/-- A token with its place in the text. -/
structure AbsoluteToken where
  line : ℕ
  startCharacter : ℕ
  length : ℕ
  tokenType : Option SemanticTokenType
  modifiers : List SemanticTokenModifier

/-- Bit by bit, the modifiers of the legend. -/
def decodeModifiers (bitset : UInt32) : List SemanticTokenModifier :=
  (tokenModifiers.zipIdx.filter fun p => bitset &&& 1 <<< UInt32.ofNat p.2 ≠ 0).map Prod.fst

theorem mem_decodeModifiers {bitset : UInt32} {m : SemanticTokenModifier} :
    m ∈ decodeModifiers bitset ↔ m ∈ tokenModifiers ∧ bitset &&& getModifierMask m ≠ 0 := by
  have hmask : ∀ p ∈ tokenModifiers.zipIdx, 1 <<< UInt32.ofNat p.2 = getModifierMask p.1 := by decide
  constructor
  · intro h
    obtain ⟨p, hp, rfl⟩ := List.mem_map.mp h
    obtain ⟨hp, hbit⟩ := List.mem_filter.mp hp
    rw [← hmask p hp]
    exact ⟨List.fst_mem_of_mem_zipIdx hp, of_decide_eq_true hbit⟩
  · rintro ⟨hm, hbit⟩
    obtain ⟨i, hi, rfl⟩ := List.getElem_of_mem hm
    have hp : (tokenModifiers[i], i) ∈ tokenModifiers.zipIdx := by
      rw [List.mem_zipIdx_iff_getElem?]
      exact List.getElem?_eq_getElem hi
    refine List.mem_map.mpr ⟨_, List.mem_filter.mpr ⟨hp, ?_⟩, rfl⟩
    rw [hmask _ hp]
    exact decide_eq_true hbit

theorem masks_apart : ∀ m ∈ tokenModifiers, ∀ m' ∈ tokenModifiers,
    getModifierMask m' &&& getModifierMask m ≠ 0 ↔ m = m' := by
  decide

theorem foldl_masks {m : SemanticTokenModifier} (hm : m ∈ tokenModifiers) {mods : List SemanticTokenModifier}
    (hmods : ∀ m ∈ mods, m ∈ tokenModifiers) (bitset : UInt32) :
    mods.foldl (fun bitset m => bitset ||| getModifierMask m) bitset &&& getModifierMask m ≠ 0 ↔
      bitset &&& getModifierMask m ≠ 0 ∨ m ∈ mods := by
  induction mods generalizing bitset with
  | nil => simp
  | cons m' mods ih =>
    obtain ⟨hm', hmods⟩ := List.forall_mem_cons.mp hmods
    rw [List.foldl_cons, ih hmods, List.mem_cons, ← masks_apart m hm m' hm', ← or_assoc]
    refine or_congr_left ?_
    simp only [ne_eq, ← UInt32.toBitVec_inj, UInt32.toBitVec_and, UInt32.toBitVec_or, UInt32.toBitVec_zero,
      BitVec.and_or_distrib_right, BitVec.or_eq_zero_iff, not_and_or]

theorem getTypeIdx_legend : ∀ ty ∈ tokenTypes, tokenTypes[(getTypeIdx ty).toNat]? = some ty := by
  decide

/-- The token behind one that begins at the line and column. -/
def SemanticToken.decode (line col : ℕ) (token : SemanticToken) : AbsoluteToken where
  line := line + token.deltaLine.toNat
  startCharacter := if token.deltaLine = 0 then col + token.deltaStart.toNat else token.deltaStart.toNat
  length := token.length.toNat
  tokenType := tokenTypes[token.tokenType.toNat]?
  modifiers := decodeModifiers token.tokenModifiersBitset

def decodeFrom (line col : ℕ) : List SemanticToken → List AbsoluteToken
  | [] => []
  | token :: rest =>
    token.decode line col :: decodeFrom (token.decode line col).line (token.decode line col).startCharacter rest

def decodeTokens (tokens : List SemanticToken) : List AbsoluteToken :=
  decodeFrom 0 0 tokens

/-- Where the last token begins. -/
def lastPlace (place : ℕ × ℕ) : List AbsoluteToken → ℕ × ℕ
  | [] => place
  | token :: rest => lastPlace (token.line, token.startCharacter) rest

theorem lastPlace_concat (place : ℕ × ℕ) (tokens : List AbsoluteToken) (token : AbsoluteToken) :
    lastPlace place (tokens ++ [token]) = (token.line, token.startCharacter) := by
  induction tokens generalizing place with
  | nil => rfl
  | cons first tokens ih => exact ih (first.line, first.startCharacter)

theorem decodeFrom_concat (line col : ℕ) (tokens : List SemanticToken) (token : SemanticToken) :
    decodeFrom line col (tokens ++ [token]) = decodeFrom line col tokens ++
      [token.decode (lastPlace (line, col) (decodeFrom line col tokens)).1
        (lastPlace (line, col) (decodeFrom line col tokens)).2] := by
  induction tokens generalizing line col with
  | nil => rfl
  | cons first tokens ih => rw [List.cons_append, decodeFrom, ih]; rfl

/-- The client has these tokens of what is emitted, and the walk knows where the last one begins. -/
def Emitted.Decodes (e : Emitted) (tokens : List AbsoluteToken) : Prop :=
  decodeTokens e.data = tokens ∧ lastPlace (0, 0) tokens = (e.lastLine.toNat, e.lastColUtf16.toNat)

/-- The place is not before the last token. -/
def Emitted.NotBehind (e : Emitted) (line col : ℕ) : Prop :=
  e.lastLine.toNat < line ∨ e.lastLine.toNat = line ∧ e.lastColUtf16.toNat ≤ col

/-- The token of a node: where the node begins, how long it is, and what the language says that it is. -/
structure AbsoluteToken.IsOf {α : Type} (isBreak : Char → Bool) (rope : Rope) (t : AbsoluteToken) (node : SpanTree α)
    (token : ClassifiedToken) : Prop where
  place : ropeByteOffsetToLineCol isBreak rope node.start = some (t.line, t.startCharacter)
  length : ∃ startChar endChar, rope.byteToChar node.start = some startChar ∧
    rope.byteToChar node.stop = some endChar ∧ t.length = utf16Units (rope.slice startChar endChar)
  tokenType : t.tokenType = some token.ty
  modifiers : ∀ m, m ∈ t.modifiers ↔ m ∈ token.modifiers

section Push

variable {α : Type} {isBreak : Char → Bool} {rope : Rope} {lang : TokenLanguage α}

theorem utf16UnitsInRopeCharRange_eq (rope : Rope) (startChar endChar : ℕ) :
    utf16UnitsInRopeCharRange rope startChar endChar = utf16Units (rope.slice startChar endChar) := by
  rw [utf16UnitsInRopeCharRange]
  split_ifs with h
  · rw [Rope.slice, List.drop_eq_nil_of_le (by rw [List.length_take]; omega), utf16Units_nil]
  · rfl

theorem saturatingSub_toNat (n m : UInt32) : (saturatingSub n m).toNat = n.toNat - m.toNat := by
  rw [saturatingSub]
  split_ifs with h
  · have hle := UInt32.le_iff_toNat_le.mp h
    rw [UInt32.toNat_zero]
    omega
  · exact UInt32.toNat_sub_of_le _ _ (UInt32.le_of_lt (UInt32.not_le.mp h))

/-- Relative to a place that it is not before, a place is found again. -/
theorem delta_found {line col lastLine lastCol : UInt32}
    (h : lastLine.toNat < line.toNat ∨ lastLine.toNat = line.toNat ∧ lastCol.toNat ≤ col.toNat) :
    let deltaLine := saturatingSub line lastLine
    let deltaStart := if deltaLine = 0 then saturatingSub col lastCol else col
    lastLine.toNat + deltaLine.toNat = line.toNat ∧
      (if deltaLine = 0 then lastCol.toNat + deltaStart.toNat else deltaStart.toNat) = col.toNat := by
  have hline := saturatingSub_toNat line lastLine
  have hzero : saturatingSub line lastLine = 0 ↔ line.toNat - lastLine.toNat = 0 := by
    rw [← UInt32.toNat_inj, hline]
    rfl
  dsimp only
  rw [hline]
  split_ifs with hdelta
  · have hsame := hzero.mp hdelta
    rw [saturatingSub_toNat]
    omega
  · exact ⟨by omega, rfl⟩

/-- The node lies in the text, and in what 32 bits count. -/
def InText (rope : Rope) (node : SpanTree α) : Prop :=
  node.start ≤ node.stop ∧ node.stop ≤ rope.lenBytes ∧ node.stop < 2 ^ 32

theorem InText.chars {node : SpanTree α} (h : InText rope node) :
    ∃ startChar endChar, startChar ≤ rope.chars.length ∧ rope.byteToChar node.start = some startChar ∧
      rope.byteToChar node.stop = some endChar ∧ byteLength (rope.chars.take startChar) ≤ node.start ∧
        byteLength (rope.chars.take endChar) < 2 ^ 32 := by
  obtain ⟨hspan, hin, hfits⟩ := h
  obtain ⟨startChar, hstart, hfound, hbytes, -⟩ := charOfByte_spec (hspan.trans hin)
  obtain ⟨endChar, -, hfound', hbytes', -⟩ := charOfByte_spec hin
  exact ⟨startChar, endChar, hstart, hfound, hfound', hbytes, hbytes'.trans_lt hfits⟩

/-- What is written for a node. -/
def written (isBreak : Char → Bool) (rope : Rope) (e : Emitted) (token : ClassifiedToken) (startChar endChar : ℕ) :
    SemanticToken :=
  let deltaLine := saturatingSub (UInt32.ofNat (rope.charToLine isBreak startChar)) e.lastLine
  { deltaLine := deltaLine
    deltaStart :=
      if deltaLine = 0 then saturatingSub (UInt32.ofNat (columnOf isBreak rope startChar)) e.lastColUtf16
      else UInt32.ofNat (columnOf isBreak rope startChar)
    length := UInt32.ofNat (utf16Units (rope.slice startChar endChar))
    tokenType := getTypeIdx token.ty
    tokenModifiersBitset := modsToBitset token.modifiers }

theorem pushToken_eq (isBreak : Char → Bool) (e : Emitted) {node : SpanTree α} (token : ClassifiedToken)
    {startChar endChar : ℕ} (hlen : startChar ≤ rope.chars.length) (hstart : rope.byteToChar node.start = some startChar)
    (hstop : rope.byteToChar node.stop = some endChar) :
    pushToken isBreak rope e node token =
      some ⟨e.data ++ [written isBreak rope e token startChar endChar],
        UInt32.ofNat (rope.charToLine isBreak startChar), UInt32.ofNat (columnOf isBreak rope startChar)⟩ := by
  obtain ⟨l, -, hline, -⟩ := @standsIn_charToLine isBreak rope startChar hlen
  have hcol : rope.lineToChar isBreak (rope.charToLine isBreak startChar) +
      (startChar - rope.lineToChar isBreak (rope.charToLine isBreak startChar)) = startChar :=
    Nat.add_sub_cancel' hline
  rw [pushToken, hstart, hstop]
  simp only [bind, Option.bind_some, utf16UnitsInRopeCharRange_eq, hcol]
  rfl

/-- A token that is not before the last one is added to what the client has. -/
theorem pushToken_decodes {e : Emitted} {tokens : List AbsoluteToken} (he : e.Decodes tokens) {node : SpanTree α}
    (hin : InText rope node) {token : ClassifiedToken}
    (hlegend : token.ty ∈ tokenTypes ∧ ∀ m ∈ token.modifiers, m ∈ tokenModifiers) {startChar : ℕ}
    (hfound : rope.byteToChar node.start = some startChar)
    (hbehind : e.NotBehind (rope.charToLine isBreak startChar) (columnOf isBreak rope startChar)) :
    ∃ e' t, pushToken isBreak rope e node token = some e' ∧ e'.Decodes (tokens ++ [t]) ∧
      t.IsOf isBreak rope node token ∧ e'.lastLine.toNat = rope.charToLine isBreak startChar ∧
        e'.lastColUtf16.toNat = columnOf isBreak rope startChar := by
  obtain ⟨startChar', endChar, hlen, hstart, hstop, hbytes, hfits⟩ := hin.chars
  obtain rfl : startChar' = startChar := by simpa [hfound] using hstart.symm
  have hbound : byteLength (rope.chars.take startChar') < 2 ^ 32 :=
    (hbytes.trans hin.1).trans_lt hin.2.2
  have hline : (UInt32.ofNat (rope.charToLine isBreak startChar')).toNat = rope.charToLine isBreak startChar' :=
    UInt32.toNat_ofNat_of_lt' ((charToLine_le hlen).trans_lt hbound)
  have hcol : (UInt32.ofNat (columnOf isBreak rope startChar')).toNat = columnOf isBreak rope startChar' :=
    UInt32.toNat_ofNat_of_lt' ((utf16Units_slice_le rope _ _).trans_lt hbound)
  have hlength : (UInt32.ofNat (utf16Units (rope.slice startChar' endChar))).toNat =
      utf16Units (rope.slice startChar' endChar) :=
    UInt32.toNat_ofNat_of_lt' ((utf16Units_slice_le rope _ _).trans_lt hfits)
  rw [Emitted.NotBehind, ← hline, ← hcol] at hbehind
  obtain ⟨hplaceLine, hplaceCol⟩ := delta_found hbehind
  have hdecodes : decodeTokens (e.data ++ [written isBreak rope e token startChar' endChar]) = tokens ++
      [(written isBreak rope e token startChar' endChar).decode e.lastLine.toNat e.lastColUtf16.toNat] := by
    obtain ⟨hdata, hlast⟩ := he
    rw [decodeTokens] at hdata ⊢
    rw [decodeFrom_concat, hdata, hlast]
  refine ⟨_, _, pushToken_eq isBreak e token hlen hstart hstop, ⟨hdecodes, ?_⟩, ⟨?_, ?_, ?_, fun m => ?_⟩, hline, hcol⟩
  · rw [lastPlace_concat]
    exact Prod.ext hplaceLine hplaceCol
  · have hwhole : node.start ≤ rope.lenBytes := hin.1.trans hin.2.1
    rw [ropeByteOffsetToLineCol, Nat.min_eq_left hwhole, hstart, Option.map_some]
    refine congrArg some (Prod.ext ?_ ?_)
    · rw [hline] at hplaceLine
      exact (Nat.mod_eq_of_lt ((charToLine_le hlen).trans_lt hbound)).trans hplaceLine.symm
    · rw [hcol] at hplaceCol
      exact (Nat.mod_eq_of_lt ((utf16Units_slice_le rope _ _).trans_lt hbound)).trans hplaceCol.symm
  · exact ⟨startChar', endChar, hstart, hstop, hlength⟩
  · exact getTypeIdx_legend token.ty hlegend.1
  · rw [SemanticToken.decode, mem_decodeModifiers]
    refine ⟨fun h => ?_, fun h => ⟨hlegend.2 m h, (foldl_masks (hlegend.2 m h) hlegend.2 0).mpr (.inr h)⟩⟩
    exact ((foldl_masks h.1 hlegend.2 0).mp h.2).resolve_left (by simp)

/-- The walk emits, of nodes in the order of their starts, one token for each that the language classifies. -/
theorem emitAll_decodes {nodes : List (SpanTree α)} (hin : ∀ n ∈ nodes, InText rope n)
    (hsorted : nodes.Pairwise fun n m => n.start ≤ m.start) {e : Emitted} {tokens : List AbsoluteToken}
    (he : e.Decodes tokens)
    (hbehind : ∀ n ∈ nodes, ∀ startChar, rope.byteToChar n.start = some startChar →
      e.NotBehind (rope.charToLine isBreak startChar) (columnOf isBreak rope startChar)) :
    ∃ e' new, nodes.foldlM (emitNode isBreak rope lang) e = some e' ∧ e'.Decodes (tokens ++ new) ∧
      List.Forall₂ (fun t n => ∃ token, lang.classifySemanticToken n.label = some token ∧
        AbsoluteToken.IsOf isBreak rope t n token) new
        (nodes.filter fun n => (lang.classifySemanticToken n.label).isSome) := by
  induction nodes generalizing e tokens with
  | nil => exact ⟨e, [], rfl, by rwa [List.append_nil], .nil⟩
  | cons n nodes ih =>
    obtain ⟨hfirst, hin⟩ := List.forall_mem_cons.mp hin
    obtain ⟨hbefore, hsorted⟩ := List.pairwise_cons.mp hsorted
    obtain ⟨hbehindFirst, hbehind⟩ := List.forall_mem_cons.mp hbehind
    cases hclass : lang.classifySemanticToken n.label with
    | none =>
      rw [List.foldlM_cons, emitNode, hclass, List.filter_cons_of_neg (by simp [hclass])]
      exact ih hin hsorted he hbehind
    | some token =>
      obtain ⟨startChar, -, hlen, hstart, -⟩ := hfirst.chars
      obtain ⟨e', t, hpush, he', ht, hline, hcol⟩ := pushToken_decodes he hfirst (lang.legend _ _ hclass) hstart
        (hbehindFirst startChar hstart)
      have hlater : ∀ m ∈ nodes, ∀ startChar', rope.byteToChar m.start = some startChar' →
          e'.NotBehind (rope.charToLine isBreak startChar') (columnOf isBreak rope startChar') := by
        intro m hm startChar' hstart'
        obtain ⟨hspan, hwhole, -⟩ := hin m hm
        have hle := byteToChar_mono hstart hstart' (hbefore m hm) (hspan.trans hwhole)
        obtain ⟨later, -, hlen', hlater, -⟩ := (hin m hm).chars
        obtain rfl : later = startChar' := by simpa [hstart'] using hlater.symm
        rw [Emitted.NotBehind, hline, hcol]
        rcases (charToLine_mono hle hlen').lt_or_eq with hlt | heq
        · exact .inl hlt
        · exact .inr ⟨heq, columnOf_mono hle heq⟩
      obtain ⟨e'', new, hrest, he'', hnew⟩ := ih hin hsorted he' hlater
      rw [List.append_assoc] at he''
      refine ⟨e'', t :: new, ?_, he'', ?_⟩
      · rw [List.foldlM_cons, emitNode, hclass]
        exact Option.bind_eq_some_iff.mpr ⟨e', hpush, hrest⟩
      · rw [List.filter_cons_of_pos (by simp [hclass])]
        exact .cons ⟨token, hclass, ht⟩ hnew

end Push

/-! ## What the walk emits -/

section Collect

variable {α : Type} {isBreak : Char → Bool} {rope : Rope} {lang : TokenLanguage α}
  {request : Option (ℕ → Option Cancelled)} {outside : SpanTree α → Bool}

theorem checkCancelled_emitted {c c' : TokenCollector} (h : checkCancelled request c = .ok c') :
    c'.emitted = c.emitted := by
  rw [checkCancelled] at h
  split_ifs at h
  · cases hreason : request.bind fun reason => reason (c.visitedNodes + 1) with
    | some reason =>
      rw [hreason] at h
      cases h
    | none =>
      rw [hreason] at h
      cases h
      rfl
  · cases h
    rfl

theorem met_of_no_children {child : SpanTree α} (h : ¬ child.children.length > 0) : SpanTree.met outside child = [] := by
  cases child with
  | node label start stop children =>
    obtain rfl := List.eq_nil_of_length_eq_zero (Nat.eq_zero_of_not_pos h)
    rfl

theorem collectChildren_emits {children : List (SpanTree α)}
    (ih : ∀ child ∈ children, ∀ c c', outside child = false →
      collectNode isBreak rope lang request outside c child = .ok c' →
        (SpanTree.met outside child).foldlM (emitNode isBreak rope lang) c.emitted = some c'.emitted)
    {c c' : TokenCollector} (h : collectChildren isBreak rope lang request outside c children = .ok c') :
    (SpanTree.metAll outside children).foldlM (emitNode isBreak rope lang) c.emitted = some c'.emitted := by
  induction children generalizing c with
  | nil =>
    cases h
    rfl
  | cons child rest ihrest =>
    obtain ⟨hchild, hrest⟩ := List.forall_mem_cons.mp ih
    rw [collectChildren] at h
    split at h
    · cases h
    · rename_i checked hchecked
      rw [← checkCancelled_emitted hchecked, SpanTree.metAll]
      cases houtside : outside child with
      | true =>
        rw [houtside] at h
        exact ihrest hrest h
      | false =>
        rw [houtside, if_neg Bool.false_ne_true] at h
        cases hemit : emitNode isBreak rope lang checked.emitted child with
        | none =>
          rw [hemit] at h
          cases h
        | some emitted =>
          rw [hemit] at h
          dsimp only at h
          split at h
          · cases h
          · rename_i entered hentered
            have henter : (SpanTree.met outside child).foldlM (emitNode isBreak rope lang) emitted =
                some entered.emitted := by
              split_ifs at hentered with hmore
              · exact hchild _ entered houtside hentered
              · cases hentered
                rw [met_of_no_children hmore]
                rfl
            rw [if_neg Bool.false_ne_true, List.cons_append, List.foldlM_cons]
            refine Option.bind_eq_some_iff.mpr ⟨emitted, hemit, ?_⟩
            rw [List.foldlM_append]
            exact Option.bind_eq_some_iff.mpr ⟨entered.emitted, henter, ihrest hrest h⟩

/-- What a walk that is not stopped emits is emitted for the nodes that it meets, one after another. -/
theorem collectNode_emits (t : SpanTree α) {c c' : TokenCollector} (houtside : outside t = false)
    (h : collectNode isBreak rope lang request outside c t = .ok c') :
    (SpanTree.met outside t).foldlM (emitNode isBreak rope lang) c.emitted = some c'.emitted := by
  induction t using SpanTree.inductOn generalizing c c' with
  | node label start stop children ih =>
    rw [collectNode, houtside, if_neg Bool.false_ne_true] at h
    exact collectChildren_emits (fun child hchild c c' hinside h => ih child hchild hinside h) h

theorem collectNode_outside {t : SpanTree α} {c : TokenCollector} (h : outside t = true) :
    collectNode isBreak rope lang request outside c t = .ok c := by
  cases t with
  | node label start stop children => rw [collectNode, if_pos h]

/-- The request is never found cancelled. -/
def Quiet (request : Option (ℕ → Option Cancelled)) : Prop :=
  ∀ visited, (request.bind fun reason => reason visited) = none

theorem checkCancelled_quiet (hquiet : Quiet request) (c : TokenCollector) :
    checkCancelled request c = .ok { c with visitedNodes := c.visitedNodes + 1 } := by
  rw [checkCancelled]
  split_ifs
  · dsimp only
    rw [hquiet]
  · rfl

theorem collectChildren_ends (hquiet : Quiet request) {children : List (SpanTree α)}
    (ih : ∀ child ∈ children, ∀ c e, outside child = false →
      (SpanTree.met outside child).foldlM (emitNode isBreak rope lang) c.emitted = some e →
        ∃ c', collectNode isBreak rope lang request outside c child = .ok c')
    {c : TokenCollector} {e : Emitted}
    (h : (SpanTree.metAll outside children).foldlM (emitNode isBreak rope lang) c.emitted = some e) :
    ∃ c', collectChildren isBreak rope lang request outside c children = .ok c' := by
  induction children generalizing c with
  | nil => exact ⟨c, rfl⟩
  | cons child rest ihrest =>
    obtain ⟨hchild, hrest⟩ := List.forall_mem_cons.mp ih
    rw [collectChildren, checkCancelled_quiet hquiet]
    dsimp only
    rw [SpanTree.metAll] at h
    cases houtside : outside child with
    | true =>
      rw [houtside] at h
      exact ihrest hrest h
    | false =>
      rw [houtside, if_neg Bool.false_ne_true, List.cons_append, List.foldlM_cons] at h
      obtain ⟨emitted, hemit, h⟩ := Option.bind_eq_some_iff.mp h
      rw [List.foldlM_append] at h
      obtain ⟨e', hmet, h⟩ := Option.bind_eq_some_iff.mp h
      rw [if_neg Bool.false_ne_true, hemit]
      dsimp only
      split_ifs with hmore
      · obtain ⟨entered, hentered⟩ := hchild ⟨c.visitedNodes + 1, emitted⟩ e' houtside hmet
        have hsame := collectNode_emits child houtside hentered
        rw [hmet, Option.some.injEq] at hsame
        rw [hentered]
        exact ihrest hrest (hsame ▸ h)
      · rw [met_of_no_children hmore] at hmet
        cases hmet
        exact ihrest hrest h

/-- A walk that is not cancelled ends when all nodes that it meets can be written. -/
theorem collectNode_ends (hquiet : Quiet request) (t : SpanTree α) {c : TokenCollector} {e : Emitted}
    (houtside : outside t = false)
    (h : (SpanTree.met outside t).foldlM (emitNode isBreak rope lang) c.emitted = some e) :
    ∃ c', collectNode isBreak rope lang request outside c t = .ok c' := by
  induction t using SpanTree.inductOn generalizing c e with
  | node label start stop children ih =>
    rw [collectNode, houtside, if_neg Bool.false_ne_true]
    exact collectChildren_ends hquiet (fun child hchild c e hinside h => ih child hchild hinside h) h

end Collect

/-! ## Documents -/

/-- A document with its syntax tree, whose bytes tree-sitter counts in 32 bits. -/
structure ParsedFile (α : Type) where
  rope : Rope
  root : SpanTree α
  wellFormed : root.WellFormed
  inText : root.stop ≤ rope.lenBytes
  fits : root.stop < 2 ^ 32

namespace ParsedFile

variable {α : Type} (file : ParsedFile α)

theorem inText_descendants : ∀ n ∈ file.root.descendants, InText file.rope n := by
  intro n hn
  obtain ⟨-, hspan, hstop⟩ := file.wellFormed.within n hn
  exact ⟨hspan, hstop.trans file.inText, hstop.trans_lt file.fits⟩

/-- The tokens are those of the nodes that the language classifies, in their order. -/
def TokensOf (isBreak : Char → Bool) (lang : TokenLanguage α) (nodes : List (SpanTree α))
    (tokens : List AbsoluteToken) : Prop :=
  List.Forall₂ (fun t n => ∃ token, lang.classifySemanticToken n.label = some token ∧
    AbsoluteToken.IsOf isBreak file.rope t n token) tokens
    (nodes.filter fun n => (lang.classifySemanticToken n.label).isSome)

/-- The node and the range have a byte in common, or the node is empty and inside. -/
def Intersects (rangeStartByte rangeEndByte : ℕ) (node : SpanTree α) : Prop :=
  rangeStartByte < node.stop ∧ node.start < rangeEndByte

instance (rangeStartByte rangeEndByte : ℕ) (node : SpanTree α) :
    Decidable (Intersects rangeStartByte rangeEndByte node) :=
  inferInstanceAs (Decidable (_ ∧ _))

theorem hereditary_outsideRange (rangeStartByte rangeEndByte : ℕ) {node : SpanTree α} (h : node.WellFormed) :
    SpanTree.Hereditary (outsideRange rangeStartByte rangeEndByte) node := by
  intro houtside n hn
  obtain ⟨hstart, hspan, hstop⟩ := h.within n hn
  rw [outsideRange, Bool.or_eq_true, decide_eq_true_iff, decide_eq_true_iff] at houtside ⊢
  omega

variable (isBreak : Char → Bool) (lang : TokenLanguage α) {request : Option (ℕ → Option Cancelled)}
  {outside : SpanTree α → Bool}

theorem emitted_decodes (hhereditary : ∀ n ∈ file.root.descendants, SpanTree.Hereditary outside n) :
    ∃ e, (SpanTree.met outside file.root).foldlM (emitNode isBreak file.rope lang) ⟨[], 0, 0⟩ = some e ∧
      file.TokensOf isBreak lang (file.root.descendants.filter fun n => !outside n) (decodeTokens e.data) := by
  have hmem : ∀ n ∈ SpanTree.met outside file.root, n ∈ file.root.descendants := by
    intro n hn
    rw [SpanTree.met_eq file.root hhereditary] at hn
    exact (List.mem_filter.mp hn).1
  have hsorted : (SpanTree.met outside file.root).Pairwise fun n m => n.start ≤ m.start := by
    rw [SpanTree.met_eq file.root hhereditary]
    exact file.wellFormed.sorted.filter _
  have hnew : (Emitted.mk [] 0 0).Decodes [] := ⟨rfl, rfl⟩
  obtain ⟨e, tokens, hemit, he, htokens⟩ := emitAll_decodes (fun n hn => file.inText_descendants n (hmem n hn)) hsorted
    hnew fun n _ startChar _ => (Nat.eq_zero_or_pos _).elim (fun h => .inr ⟨h.symm, Nat.zero_le _⟩) .inl
  refine ⟨e, hemit, ?_⟩
  rw [SpanTree.met_eq file.root hhereditary] at htokens
  rw [TokensOf, he.1]
  exact htokens

theorem collectNode_decodes (hhereditary : ∀ n ∈ file.root.descendants, SpanTree.Hereditary outside n)
    (hroot : outside file.root = false) {c : TokenCollector}
    (h : collectNode isBreak file.rope lang request outside .new file.root = .ok c) :
    file.TokensOf isBreak lang (file.root.descendants.filter fun n => !outside n) (decodeTokens c.finish) := by
  obtain ⟨e, hemit, htokens⟩ := file.emitted_decodes isBreak lang hhereditary
  have hc := collectNode_emits file.root hroot h
  obtain rfl : e = c.emitted := by simpa [TokenCollector.new, hemit] using hc
  exact htokens

end ParsedFile

/-- Of all the nodes below the root, the client decodes from a whole collection the token of each that the language
classifies, and from the collection of a range those whose node is in the range. Only a cancelled request gets no
answer. -/
theorem token_collector_decodes {α : Type} (isBreak : Char → Bool) (lang : TokenLanguage α) (file : ParsedFile α)
    (request : Option (ℕ → Option Cancelled)) :
    (∀ c, collect isBreak file.rope lang request .new file.root = .ok c →
      file.TokensOf isBreak lang file.root.descendants (decodeTokens c.finish)) ∧
    (∀ rangeStartByte rangeEndByte c,
      collectRange isBreak file.rope lang request .new file.root rangeStartByte rangeEndByte = .ok c →
        file.TokensOf isBreak lang (file.root.descendants.filter fun n =>
          ParsedFile.Intersects rangeStartByte rangeEndByte n) (decodeTokens c.finish)) ∧
    (Quiet request → (∃ c, collect isBreak file.rope lang request .new file.root = .ok c) ∧
      ∀ rangeStartByte rangeEndByte,
        ∃ c, collectRange isBreak file.rope lang request .new file.root rangeStartByte rangeEndByte = .ok c) := by
  have hall : ∀ n ∈ file.root.descendants, SpanTree.Hereditary (fun _ => false) n :=
    fun n _ h => absurd h Bool.false_ne_true
  have hrange : ∀ rangeStartByte rangeEndByte, ∀ n ∈ file.root.descendants,
      SpanTree.Hereditary (outsideRange rangeStartByte rangeEndByte) n :=
    fun _ _ n hn => ParsedFile.hereditary_outsideRange _ _ (file.wellFormed.of_mem_descendants n hn)
  have hintersects : ∀ (rangeStartByte rangeEndByte : ℕ) (n : SpanTree α),
      (!outsideRange rangeStartByte rangeEndByte n) = decide (ParsedFile.Intersects rangeStartByte rangeEndByte n) := by
    intro rangeStartByte rangeEndByte n
    rw [Bool.eq_iff_iff, decide_eq_true_iff]
    simp [outsideRange, ParsedFile.Intersects]
  refine ⟨fun c h => ?_, fun rangeStartByte rangeEndByte c h => ?_,
    fun hquiet => ⟨?_, fun rangeStartByte rangeEndByte => ?_⟩⟩
  · have hdecodes := file.collectNode_decodes isBreak lang hall rfl h
    have hkeep : file.root.descendants.filter (fun _ => !false) = file.root.descendants :=
      List.filter_eq_self.mpr fun _ _ => rfl
    rwa [hkeep] at hdecodes
  · simp only [← hintersects]
    cases hroot : outsideRange rangeStartByte rangeEndByte file.root with
    | false => exact file.collectNode_decodes isBreak lang (hrange _ _) hroot h
    | true =>
      have hnone : (file.root.descendants.filter fun n => !outsideRange rangeStartByte rangeEndByte n) = [] := by
        rw [List.filter_eq_nil_iff]
        intro n hn
        rw [ParsedFile.hereditary_outsideRange _ _ file.wellFormed hroot n hn]
        decide
      rw [collectRange, collectNode_outside hroot] at h
      cases h
      rw [hnone]
      exact .nil
  · obtain ⟨e, hemit, -⟩ := file.emitted_decodes isBreak lang hall
    exact collectNode_ends hquiet file.root rfl hemit
  · cases hroot : outsideRange rangeStartByte rangeEndByte file.root with
    | false =>
      obtain ⟨e, hemit, -⟩ := file.emitted_decodes isBreak lang (hrange rangeStartByte rangeEndByte)
      exact collectNode_ends hquiet file.root hroot hemit
    | true => exact ⟨.new, collectNode_outside hroot⟩

end JavaAnalyzer.Lsp
