import Mathlib

/-! # Bytes as text

Two texts of the same bytes: what UTF-8 reads in them, with a replacement character for what is not valid,
and their percent-encoding. They are the same text exactly when no byte is encoded. -/

namespace JavaAnalyzer.PercentEncoding
set_option autoImplicit false

/-! ## Reading UTF-8 -/

/-- How many bytes a character has that begins with the byte, 0 if none does. -/
def utf8Width (b : UInt8) : ℕ :=
  if b < 0x80 then 1
  else if b < 0xC2 then 0
  else if b < 0xE0 then 2
  else if b < 0xF0 then 3
  else if b < 0xF5 then 4
  else 0

/-- The second byte of a character is in a range that the first one gives. -/
def isSecond (b c : UInt8) : Bool :=
  (if b = 0xE0 then 0xA0 else if b = 0xF0 then 0x90 else 0x80) ≤ c &&
    c ≤ (if b = 0xED then 0x9F else if b = 0xF4 then 0x8F else 0xBF)

def isContinuation (c : UInt8) : Bool :=
  0x80 ≤ c && c ≤ 0xBF

/-- The bytes after the first one that belong to its character. -/
def utf8Rest (b : UInt8) : List UInt8 → List UInt8
  | [] => []
  | c :: bytes =>
    if isSecond b c then c :: (bytes.take (utf8Width b - 2)).takeWhile isContinuation else []

/-- The bits of a character, six from each byte after the first. -/
def utf8Value (b : UInt8) (rest : List UInt8) : ℕ :=
  rest.foldl (fun value c => value * 64 + c.toNat % 64) (b.toNat % 2 ^ (6 - rest.length))

/-- The first character, and how many bytes after the first one it takes. -/
def utf8Char (b : UInt8) (bytes : List UInt8) : Char × ℕ :=
  if utf8Width b ≤ 1 then (if utf8Width b = 1 then Char.ofNat b.toNat else '\uFFFD', 0)
  else
    let rest := utf8Rest b bytes
    (if rest.length + 1 = utf8Width b then Char.ofNat (utf8Value b rest) else '\uFFFD', rest.length)

/-- `from_utf8_lossy` on at most as many characters. -/
def lossyUpTo : ℕ → List UInt8 → List Char
  | 0, _ => []
  | _ + 1, [] => []
  | n + 1, b :: bytes => (utf8Char b bytes).1 :: lossyUpTo n (bytes.drop (utf8Char b bytes).2)

def fromUtf8Lossy (bytes : List UInt8) : List Char :=
  lossyUpTo bytes.length bytes

theorem length_lossyUpTo (n : ℕ) (bytes : List UInt8) : (lossyUpTo n bytes).length ≤ bytes.length := by
  induction n generalizing bytes with
  | zero => exact Nat.zero_le _
  | succ n ih =>
    cases bytes with
    | nil => exact Nat.le_refl _
    | cons b bytes =>
      have hrest := ih (bytes.drop (utf8Char b bytes).2)
      rw [List.length_drop] at hrest
      rw [lossyUpTo, List.length_cons, List.length_cons]
      omega

theorem length_fromUtf8Lossy (bytes : List UInt8) : (fromUtf8Lossy bytes).length ≤ bytes.length :=
  length_lossyUpTo bytes.length bytes

theorem lossyUpTo_ascii (n : ℕ) (bytes : List UInt8) (hn : bytes.length ≤ n)
    (h : ∀ b ∈ bytes, b < 0x80) : lossyUpTo n bytes = bytes.map fun b => Char.ofNat b.toNat := by
  induction n generalizing bytes with
  | zero =>
    rw [List.length_eq_zero_iff.mp (Nat.le_zero.mp hn)]
    rfl
  | succ n ih =>
    cases bytes with
    | nil => rfl
    | cons b bytes =>
      have hwidth : utf8Width b = 1 := if_pos (h b List.mem_cons_self)
      have hchar : utf8Char b bytes = (Char.ofNat b.toNat, 0) := by
        rw [utf8Char, hwidth]
        rfl
      have hrest := ih bytes (Nat.le_of_succ_le_succ hn) fun c hc => h c (List.mem_cons_of_mem b hc)
      rw [lossyUpTo, hchar, List.drop_zero, hrest, List.map_cons]

theorem fromUtf8Lossy_ascii {bytes : List UInt8} (h : ∀ b ∈ bytes, b < 0x80) :
    fromUtf8Lossy bytes = bytes.map fun b => Char.ofNat b.toNat :=
  lossyUpTo_ascii bytes.length bytes (Nat.le_refl _) h

theorem toNat_byteChar (b : UInt8) : (Char.ofNat b.toNat).toNat = b.toNat := by
  have hlt := UInt8.toNat_lt b
  rw [Char.toNat_ofNat, if_pos (.inl (by omega))]

/-! ## Percent-encoding -/

/-- The bytes that are percent-encoded: all that are not ASCII and the percent sign among them. -/
structure EncodeSet where
  encodes : UInt8 → Bool
  ascii : ∀ b, encodes b = false → b < 0x80
  percent : encodes 0x25 = true

def hexDigit (n : ℕ) : Char :=
  Char.ofNat (if n < 10 then 0x30 + n else 0x37 + n)

variable (set : EncodeSet)

def encodeByte (b : UInt8) : List Char :=
  if set.encodes b then ['%', hexDigit (b.toNat / 16), hexDigit (b.toNat % 16)]
  else [Char.ofNat b.toNat]

def encode (bytes : List UInt8) : List Char :=
  bytes.flatMap (encodeByte set)

/-- No byte is encoded. -/
def Plain (bytes : List UInt8) : Prop :=
  ∀ b ∈ bytes, set.encodes b = false

instance (bytes : List UInt8) : Decidable (Plain set bytes) :=
  inferInstanceAs (Decidable (∀ b ∈ bytes, set.encodes b = false))

variable {set} {bytes : List UInt8}

theorem encodeByte_plain {b : UInt8} (h : set.encodes b = false) :
    encodeByte set b = [Char.ofNat b.toNat] := by
  rw [encodeByte, h, if_neg Bool.false_ne_true]

theorem encodeByte_encoded {b : UInt8} (h : set.encodes b = true) :
    encodeByte set b = ['%', hexDigit (b.toNat / 16), hexDigit (b.toNat % 16)] := by
  rw [encodeByte, h, if_pos rfl]

theorem Plain.encode (h : Plain set bytes) :
    encode set bytes = bytes.map fun b => Char.ofNat b.toNat := by
  induction bytes with
  | nil => rfl
  | cons b bytes ih =>
    rw [Plain, List.forall_mem_cons] at h
    rw [PercentEncoding.encode, List.flatMap_cons, encodeByte_plain h.1, ← PercentEncoding.encode, ih h.2]
    rfl

theorem length_encode_ge (bytes : List UInt8) : bytes.length ≤ (encode set bytes).length := by
  induction bytes with
  | nil => exact Nat.le_refl _
  | cons b bytes ih =>
    rw [encode, List.flatMap_cons, List.length_append, List.length_cons, ← encode]
    cases hb : set.encodes b with
    | false =>
      rw [encodeByte_plain hb, List.length_singleton]
      omega
    | true =>
      rw [encodeByte_encoded hb]
      simp only [List.length_cons, List.length_nil]
      omega

theorem plain_of_length_encode (h : (encode set bytes).length ≤ bytes.length) : Plain set bytes := by
  induction bytes with
  | nil => exact fun b hb => by cases hb
  | cons b bytes ih =>
    rw [encode, List.flatMap_cons, List.length_append, List.length_cons, ← encode] at h
    have hge : bytes.length ≤ (encode set bytes).length := length_encode_ge bytes
    cases hb : set.encodes b with
    | false =>
      rw [encodeByte_plain hb, List.length_singleton] at h
      rw [Plain, List.forall_mem_cons]
      exact ⟨hb, ih (by omega)⟩
    | true =>
      rw [encodeByte_encoded hb] at h
      simp only [List.length_cons, List.length_nil] at h
      omega

theorem lossy_eq_encode_iff : fromUtf8Lossy bytes = encode set bytes ↔ Plain set bytes := by
  constructor
  · intro heq
    have hlength := length_fromUtf8Lossy bytes
    rw [heq] at hlength
    exact plain_of_length_encode hlength
  · intro h
    rw [h.encode, fromUtf8Lossy_ascii fun b hb => set.ascii b (h b hb)]

theorem plain_of_not_mem_percent (h : '%' ∉ encode set bytes) : Plain set bytes := by
  intro b hb
  by_contra hencoded
  rw [Bool.not_eq_false] at hencoded
  refine h (List.mem_flatMap.mpr ⟨b, hb, ?_⟩)
  rw [encodeByte_encoded hencoded]
  exact List.mem_cons_self

theorem Plain.not_mem_percent (h : Plain set bytes) : '%' ∉ PercentEncoding.encode set bytes := by
  rw [h.encode, List.mem_map]
  rintro ⟨b, hb, hchar⟩
  have hval := congrArg Char.toNat hchar
  rw [toNat_byteChar] at hval
  have hpercent : b = 0x25 := UInt8.toNat_inj.mp hval
  have hplain := h b hb
  rw [hpercent, set.percent] at hplain
  cases hplain

theorem byteChar_injective : Function.Injective fun b : UInt8 => Char.ofNat b.toNat := by
  intro b c heq
  have hval := congrArg Char.toNat heq
  rw [toNat_byteChar, toNat_byteChar] at hval
  exact UInt8.toNat_inj.mp hval

/-- Bytes whose text is that of bytes that are not encoded are these bytes. -/
theorem Plain.encode_inj {bytes' : List UInt8} (h : Plain set bytes)
    (heq : PercentEncoding.encode set bytes' = PercentEncoding.encode set bytes) : bytes' = bytes := by
  have h' : Plain set bytes' := plain_of_not_mem_percent (heq ▸ h.not_mem_percent)
  rw [h.encode, h'.encode] at heq
  exact List.map_injective_iff.mpr byteChar_injective heq

end JavaAnalyzer.PercentEncoding
