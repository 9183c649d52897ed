import Mathlib.Data.BitVec
import Mathlib.Tactic

/-! # Java values

Primitive values, references and arrays, and the methods of `java.util.Objects`, `java.util.Arrays` and the boxed types
that compare and hash them. Objects come with an `equals` and a `hashCode` of their own, of which only the contract is
known. An array does not contain itself. -/

namespace JavaAnalyzer.JavaValues
set_option autoImplicit false

/-! ## Primitive values -/

inductive PrimKind where
  | boolean | byte | char | short | int | long | float | double
deriving DecidableEq, Repr

/-- Floating point values are given by their bits. -/
inductive PrimValue where
  | boolean (b : Bool)
  | byte (x : BitVec 8)
  | char (x : BitVec 16)
  | short (x : BitVec 16)
  | int (x : BitVec 32)
  | long (x : BitVec 64)
  | float (raw : BitVec 32)
  | double (raw : BitVec 64)
deriving DecidableEq, Repr

/-- `Float.floatToIntBits`: all NaN have the same bits. -/
def floatToIntBits (raw : BitVec 32) : BitVec 32 :=
  if raw.toNat % 2 ^ 31 > 0x7f800000 then 0x7fc00000 else raw

/-- `Double.doubleToLongBits` -/
def doubleToLongBits (raw : BitVec 64) : BitVec 64 :=
  if raw.toNat % 2 ^ 63 > 0x7ff0000000000000 then 0x7ff8000000000000 else raw

/-- Where bits stand in the order of `Float.compare` and `Double.compare`: negative values are below, the larger the
higher their bits. -/
def floatRank (width bits : ℕ) : ℤ :=
  if bits < 2 ^ (width - 1) then bits else 2 ^ (width - 1) - bits - 1

/-- The sign of a comparison. -/
def compareRank (a b : ℤ) : BitVec 32 :=
  if a < b then -1 else if b < a then 1 else 0

/-- `Float.compare` -/
def floatCompare (a b : BitVec 32) : BitVec 32 :=
  compareRank (floatRank 32 (floatToIntBits a).toNat) (floatRank 32 (floatToIntBits b).toNat)

/-- `Double.compare` -/
def doubleCompare (a b : BitVec 64) : BitVec 32 :=
  compareRank (floatRank 64 (doubleToLongBits a).toNat) (floatRank 64 (doubleToLongBits b).toNat)

/-- `Long.hashCode` -/
def longHashCode (x : BitVec 64) : BitVec 32 :=
  (x ^^^ (x >>> 32)).setWidth 32

namespace PrimValue

def kind : PrimValue → PrimKind
  | boolean _ => .boolean
  | byte _ => .byte
  | char _ => .char
  | short _ => .short
  | int _ => .int
  | long _ => .long
  | float _ => .float
  | double _ => .double

/-- What the boxed types compare. -/
def boxed : PrimValue → PrimValue
  | float raw => float (floatToIntBits raw)
  | double raw => double (doubleToLongBits raw)
  | p => p

/-- `equals` of the boxed types. -/
def equals (p q : PrimValue) : Bool :=
  p.boxed = q.boxed

/-- `hashCode` of the boxed types. -/
def hashCode (p : PrimValue) : BitVec 32 :=
  match p.boxed with
  | boolean b => if b then 1231 else 1237
  | byte x => x.signExtend 32
  | char x => x.setWidth 32
  | short x => x.signExtend 32
  | int x => x
  | long x => longHashCode x
  | float raw => raw
  | double raw => longHashCode raw

theorem equals_iff {p q : PrimValue} : p.equals q = true ↔ p.boxed = q.boxed :=
  decide_eq_true_iff

theorem hashCode_congr {p q : PrimValue} (h : p.equals q = true) : p.hashCode = q.hashCode := by
  rw [hashCode, hashCode, equals_iff.mp h]

end PrimValue

theorem compareRank_eq_zero {a b : ℤ} : compareRank a b = 0 ↔ a = b := by
  rw [compareRank]
  split_ifs with hlt hgt
  · exact ⟨fun h => absurd h (by decide), fun h => absurd h hlt.ne⟩
  · exact ⟨fun h => absurd h (by decide), fun h => absurd h hgt.ne'⟩
  · exact ⟨fun _ => le_antisymm (not_lt.mp hgt) (not_lt.mp hlt), fun _ => rfl⟩

theorem floatRank_injective {width : ℕ} : Function.Injective (floatRank width) := by
  intro a b h
  rw [floatRank, floatRank] at h
  have hpow : (0 : ℤ) < 2 ^ (width - 1) := by positivity
  split_ifs at h with ha hb hb
  · exact_mod_cast h
  · have hb' : ((2 : ℤ) ^ (width - 1)) ≤ b := by exact_mod_cast not_lt.mp hb
    omega
  · have ha' : ((2 : ℤ) ^ (width - 1)) ≤ a := by exact_mod_cast not_lt.mp ha
    omega
  · omega

theorem floatCompare_eq_zero {a b : BitVec 32} : floatCompare a b = 0 ↔ floatToIntBits a = floatToIntBits b := by
  rw [floatCompare, compareRank_eq_zero, floatRank_injective.eq_iff, BitVec.toNat_inj]

theorem doubleCompare_eq_zero {a b : BitVec 64} :
    doubleCompare a b = 0 ↔ doubleToLongBits a = doubleToLongBits b := by
  rw [doubleCompare, compareRank_eq_zero, floatRank_injective.eq_iff, BitVec.toNat_inj]

/-! ## References -/

/-- A reference to an object or an array, with the identity of the array and what it holds. -/
inductive JavaRef (Obj : Type) where
  | null
  | object (o : Obj)
  | primArray (id : ℕ) (kind : PrimKind) (elems : List PrimValue)
  | refArray (id : ℕ) (elems : List (JavaRef Obj))

/-- The `equals` and `hashCode` of objects and arrays. -/
structure ObjectMethods (Obj : Type) where
  equals : JavaRef Obj → JavaRef Obj → Bool
  hashCode : JavaRef Obj → BitVec 32

variable {Obj : Type}

namespace JavaRef

theorem inductOn {P : JavaRef Obj → Prop} (x : JavaRef Obj) (null : P .null) (object : ∀ o, P (.object o))
    (primArray : ∀ id kind elems, P (.primArray id kind elems))
    (refArray : ∀ id elems, (∀ e ∈ elems, P e) → P (.refArray id elems)) : P x :=
  @JavaRef.rec Obj P (fun elems => ∀ e ∈ elems, P e) null object primArray refArray (by simp)
    (fun e elems he helems => by simpa using ⟨he, helems⟩) x

theorem object_ne_null {o : Obj} : object o ≠ null := by
  intro h
  cases h

def isArray : JavaRef Obj → Bool
  | primArray .. => true
  | refArray .. => true
  | _ => false

end JavaRef

/-- An equivalence on some values, with a hash that its classes share. -/
structure HashedEquivalence {α : Type} (valid : α → Prop) (same : α → α → Bool) (hash : α → BitVec 32) : Prop where
  refl : ∀ x, valid x → same x x = true
  symm : ∀ x y, valid x → valid y → same x y = true → same y x = true
  trans : ∀ x y z, valid x → valid y → valid z → same x y = true → same y z = true → same x z = true
  hash : ∀ x y, valid x → valid y → same x y = true → hash x = hash y

/-- The contract of `equals` and `hashCode`. Arrays have those of `Object`, so only an array itself equals it. -/
structure ObjectMethods.Contract (m : ObjectMethods Obj) : Prop where
  equivalence : HashedEquivalence (· ≠ .null) m.equals m.hashCode
  array : ∀ x y, x.isArray = true → m.equals x y = true → y = x

/-- Arrays are hashed by their elements in order. -/
def hashElements {α : Type} (hash : α → BitVec 32) (elems : List α) : BitVec 32 :=
  elems.foldl (fun result e => 31 * result + hash e) 1

/-- Two arrays have as many elements, which are the same one by one. -/
def sameElements {α : Type} (same : α → α → Bool) : List α → List α → Bool
  | [], [] => true
  | x :: xs, y :: ys => same x y && sameElements same xs ys
  | _, _ => false

namespace Objects

/-- `java.util.Objects.equals` -/
def equals (m : ObjectMethods Obj) : JavaRef Obj → JavaRef Obj → Bool
  | .null, .null => true
  | .null, _ => false
  | _, .null => false
  | x, y => m.equals x y

/-- `java.util.Objects.hashCode` -/
def hashCode (m : ObjectMethods Obj) : JavaRef Obj → BitVec 32
  | .null => 0
  | x => m.hashCode x

end Objects

namespace Arrays

/-- `java.util.Arrays.equals` of arrays of one primitive type. -/
def equalsPrim (xs ys : List PrimValue) : Bool :=
  sameElements PrimValue.equals xs ys

def hashCodePrim (xs : List PrimValue) : BitVec 32 :=
  hashElements PrimValue.hashCode xs

mutual

/-- Two elements are deeply equal. -/
def deepSame (m : ObjectMethods Obj) : JavaRef Obj → JavaRef Obj → Bool
  | .null, .null => true
  | .null, _ => false
  | _, .null => false
  | .refArray _ xs, .refArray _ ys => deepSameElements m xs ys
  | .primArray _ kind xs, .primArray _ kind' ys => kind = kind' && equalsPrim xs ys
  | x, y => m.equals x y
termination_by structural x => x

def deepSameElements (m : ObjectMethods Obj) : List (JavaRef Obj) → List (JavaRef Obj) → Bool
  | [], [] => true
  | x :: xs, y :: ys => deepSame m x y && deepSameElements m xs ys
  | _, _ => false
termination_by structural xs => xs

end

mutual

def deepHash (m : ObjectMethods Obj) : JavaRef Obj → BitVec 32
  | .null => 0
  | .refArray _ xs => deepHashElements m 1 xs
  | .primArray _ _ xs => hashCodePrim xs
  | .object o => m.hashCode (.object o)
termination_by structural x => x

def deepHashElements (m : ObjectMethods Obj) (result : BitVec 32) : List (JavaRef Obj) → BitVec 32
  | [] => result
  | x :: xs => deepHashElements m (31 * result + deepHash m x) xs
termination_by structural xs => xs

end

/-- `java.util.Arrays.equals`, for arrays of references and for those of each primitive type. -/
def equals (m : ObjectMethods Obj) : JavaRef Obj → JavaRef Obj → Bool
  | .null, .null => true
  | .refArray _ xs, .refArray _ ys => sameElements (Objects.equals m) xs ys
  | .primArray _ _ xs, .primArray _ _ ys => equalsPrim xs ys
  | _, _ => false

/-- `java.util.Arrays.hashCode` -/
def hashCode (m : ObjectMethods Obj) : JavaRef Obj → BitVec 32
  | .refArray _ xs => hashElements (Objects.hashCode m) xs
  | .primArray _ _ xs => hashCodePrim xs
  | _ => 0

/-- `java.util.Arrays.deepEquals` -/
def deepEquals (m : ObjectMethods Obj) : JavaRef Obj → JavaRef Obj → Bool
  | .null, .null => true
  | .refArray _ xs, .refArray _ ys => deepSameElements m xs ys
  | _, _ => false

/-- `java.util.Arrays.deepHashCode` -/
def deepHashCode (m : ObjectMethods Obj) : JavaRef Obj → BitVec 32
  | .refArray _ xs => deepHashElements m 1 xs
  | _ => 0

end Arrays

/-! ## Equivalences -/

theorem primValue_equivalence : HashedEquivalence (fun _ => True) PrimValue.equals PrimValue.hashCode where
  refl _ _ := PrimValue.equals_iff.mpr rfl
  symm _ _ _ _ h := PrimValue.equals_iff.mpr (PrimValue.equals_iff.mp h).symm
  trans _ _ _ _ _ _ h h' := PrimValue.equals_iff.mpr ((PrimValue.equals_iff.mp h).trans (PrimValue.equals_iff.mp h'))
  hash _ _ _ _ h := PrimValue.hashCode_congr h

section Elements

variable {α : Type} {same : α → α → Bool} {hash : α → BitVec 32}

theorem sameElements_iff {xs ys : List α} :
    sameElements same xs ys = true ↔ List.Forall₂ (fun x y => same x y = true) xs ys := by
  induction xs generalizing ys with
  | nil => cases ys <;> simp [sameElements]
  | cons x xs ih => cases ys <;> simp [sameElements, ih]

theorem sameElements_refl {xs : List α} (h : ∀ x ∈ xs, same x x = true) : sameElements same xs xs = true :=
  sameElements_iff.mpr (List.forall₂_same.mpr h)

theorem sameElements_symm {xs ys : List α} (h : ∀ x ∈ xs, ∀ y ∈ ys, same x y = true → same y x = true)
    (hsame : sameElements same xs ys = true) : sameElements same ys xs = true := by
  induction xs generalizing ys with
  | nil =>
    cases ys with
    | nil => rfl
    | cons => cases hsame
  | cons x xs ih =>
    cases ys with
    | nil => cases hsame
    | cons y ys =>
      obtain ⟨hfirst, hrest⟩ := Bool.and_eq_true_iff.mp hsame
      exact Bool.and_eq_true_iff.mpr ⟨h x List.mem_cons_self y List.mem_cons_self hfirst,
        ih (fun x hx y hy => h x (List.mem_cons_of_mem _ hx) y (List.mem_cons_of_mem _ hy)) hrest⟩

theorem sameElements_trans {xs ys zs : List α}
    (h : ∀ x ∈ xs, ∀ y ∈ ys, ∀ z ∈ zs, same x y = true → same y z = true → same x z = true)
    (hsame : sameElements same xs ys = true) (hsame' : sameElements same ys zs = true) :
    sameElements same xs zs = true := by
  induction xs generalizing ys zs with
  | nil =>
    cases ys with
    | nil => exact hsame'
    | cons => cases hsame
  | cons x xs ih =>
    cases ys with
    | nil => cases hsame
    | cons y ys =>
      cases zs with
      | nil => cases hsame'
      | cons z zs =>
        obtain ⟨hfirst, hrest⟩ := Bool.and_eq_true_iff.mp hsame
        obtain ⟨hfirst', hrest'⟩ := Bool.and_eq_true_iff.mp hsame'
        exact Bool.and_eq_true_iff.mpr
          ⟨h x List.mem_cons_self y List.mem_cons_self z List.mem_cons_self hfirst hfirst',
            ih (fun x hx y hy z hz => h x (List.mem_cons_of_mem _ hx) y (List.mem_cons_of_mem _ hy) z
              (List.mem_cons_of_mem _ hz)) hrest hrest'⟩

theorem hashElements_congr {xs ys : List α} (h : ∀ x ∈ xs, ∀ y ∈ ys, same x y = true → hash x = hash y)
    (hsame : sameElements same xs ys = true) : xs.map hash = ys.map hash := by
  induction xs generalizing ys with
  | nil =>
    cases ys with
    | nil => rfl
    | cons => cases hsame
  | cons x xs ih =>
    cases ys with
    | nil => cases hsame
    | cons y ys =>
      obtain ⟨hfirst, hrest⟩ := Bool.and_eq_true_iff.mp hsame
      rw [List.map_cons, List.map_cons, h x List.mem_cons_self y List.mem_cons_self hfirst,
        ih (fun x hx y hy => h x (List.mem_cons_of_mem _ hx) y (List.mem_cons_of_mem _ hy)) hrest]

theorem hashElements_eq (hash : α → BitVec 32) (elems : List α) :
    hashElements hash elems = (elems.map hash).foldl (fun result h => 31 * result + h) 1 := by
  rw [hashElements, List.foldl_map]

theorem HashedEquivalence.elements {valid : α → Prop} (h : HashedEquivalence valid same hash) :
    HashedEquivalence (fun xs => ∀ x ∈ xs, valid x) (sameElements same) (hashElements hash) where
  refl _ hxs := sameElements_refl fun x hx => h.refl x (hxs x hx)
  symm _ _ hxs hys := sameElements_symm fun x hx y hy => h.symm x y (hxs x hx) (hys y hy)
  trans _ _ _ hxs hys hzs :=
    sameElements_trans fun x hx y hy z hz => h.trans x y z (hxs x hx) (hys y hy) (hzs z hz)
  hash _ _ hxs hys hsame := by
    rw [hashElements_eq, hashElements_eq,
      hashElements_congr (fun x hx y hy => h.hash x y (hxs x hx) (hys y hy)) hsame]

end Elements

theorem equalsPrim_equivalence : HashedEquivalence (fun _ => True) Arrays.equalsPrim Arrays.hashCodePrim where
  refl xs _ := primValue_equivalence.elements.refl xs fun _ _ => trivial
  symm xs ys _ _ := primValue_equivalence.elements.symm xs ys (fun _ _ => trivial) fun _ _ => trivial
  trans xs ys zs _ _ _ :=
    primValue_equivalence.elements.trans xs ys zs (fun _ _ => trivial) (fun _ _ => trivial) fun _ _ => trivial
  hash xs ys _ _ := primValue_equivalence.elements.hash xs ys (fun _ _ => trivial) fun _ _ => trivial

section Contract

open JavaRef (object_ne_null)

variable {m : ObjectMethods Obj} (hm : m.Contract)

theorem Objects.equals_iff {x y : JavaRef Obj} : Objects.equals m x y = true ↔
    x = .null ∧ y = .null ∨ x ≠ .null ∧ y ≠ .null ∧ m.equals x y = true := by
  cases x <;> cases y <;> simp [Objects.equals]

theorem Objects.hashCode_of_ne {x : JavaRef Obj} (hx : x ≠ .null) : Objects.hashCode m x = m.hashCode x := by
  cases x with
  | null => exact absurd rfl hx
  | _ => rfl

include hm

theorem objects_equivalence : HashedEquivalence (fun _ => True) (Objects.equals m) (Objects.hashCode m) where
  refl x _ := by
    rw [Objects.equals_iff]
    by_cases hx : x = .null
    · exact .inl ⟨hx, hx⟩
    · exact .inr ⟨hx, hx, hm.equivalence.refl x hx⟩
  symm x y _ _ h := by
    rw [Objects.equals_iff] at h ⊢
    rcases h with ⟨hx, hy⟩ | ⟨hx, hy, h⟩
    · exact .inl ⟨hy, hx⟩
    · exact .inr ⟨hy, hx, hm.equivalence.symm x y hx hy h⟩
  trans x y z _ _ _ h h' := by
    rw [Objects.equals_iff] at h h' ⊢
    rcases h with ⟨hx, hy⟩ | ⟨hx, hy, h⟩
    · rcases h' with ⟨-, hz⟩ | ⟨hy', -, -⟩
      · exact .inl ⟨hx, hz⟩
      · exact absurd hy hy'
    · rcases h' with ⟨hy', -⟩ | ⟨-, hz, h'⟩
      · exact absurd hy' hy
      · exact .inr ⟨hx, hz, hm.equivalence.trans x y z hx hy hz h h'⟩
  hash x y _ _ h := by
    rcases Objects.equals_iff.mp h with ⟨rfl, rfl⟩ | ⟨hx, hy, h⟩
    · rfl
    · rw [Objects.hashCode_of_ne hx, Objects.hashCode_of_ne hy, hm.equivalence.hash x y hx hy h]

/-- What two deeply equal references are. -/
inductive DeepSame (m : ObjectMethods Obj) : JavaRef Obj → JavaRef Obj → Prop
  | null : DeepSame m .null .null
  | refArray {i j : ℕ} {xs ys : List (JavaRef Obj)} (h : sameElements (Arrays.deepSame m) xs ys = true) :
      DeepSame m (.refArray i xs) (.refArray j ys)
  | primArray {i j : ℕ} {kind : PrimKind} {xs ys : List PrimValue} (h : Arrays.equalsPrim xs ys = true) :
      DeepSame m (.primArray i kind xs) (.primArray j kind ys)
  | object {o p : Obj} (h : m.equals (.object o) (.object p) = true) : DeepSame m (.object o) (.object p)

omit hm in
theorem deepSameElements_eq (xs ys : List (JavaRef Obj)) :
    Arrays.deepSameElements m xs ys = sameElements (Arrays.deepSame m) xs ys := by
  induction xs generalizing ys with
  | nil => cases ys <;> rfl
  | cons x xs ih =>
    cases ys with
    | nil => rfl
    | cons y ys => exact congrArg _ (ih ys)

omit hm in
theorem deepHashElements_eq (xs : List (JavaRef Obj)) :
    Arrays.deepHashElements m 1 xs = hashElements (Arrays.deepHash m) xs := by
  suffices h : ∀ result, Arrays.deepHashElements m result xs =
      xs.foldl (fun result e => 31 * result + Arrays.deepHash m e) result from h 1
  induction xs with
  | nil => exact fun _ => rfl
  | cons x xs ih => exact fun result => ih _

theorem not_equals_array {o : Obj} {y : JavaRef Obj} (hy : y.isArray = true) : m.equals (.object o) y = false := by
  refine Bool.eq_false_of_not_eq_true fun h => ?_
  have hnull : y ≠ .null := by
    rintro rfl
    cases hy
  have hsame := hm.array y (.object o) hy (hm.equivalence.symm _ _ object_ne_null hnull h)
  rw [← hsame] at hy
  cases hy

theorem array_not_equals {x : JavaRef Obj} {p : Obj} (hx : x.isArray = true) : m.equals x (.object p) = false := by
  refine Bool.eq_false_of_not_eq_true fun h => ?_
  have hsame := hm.array x (.object p) hx h
  rw [← hsame] at hx
  cases hx

theorem deepSame_iff {x y : JavaRef Obj} : Arrays.deepSame m x y = true ↔ DeepSame m x y := by
  constructor
  · intro h
    cases x with
    | null =>
      cases y with
      | null => exact .null
      | _ => cases h
    | object o =>
      cases y with
      | null => cases h
      | object p => exact .object h
      | primArray j kind ys => exact absurd ((not_equals_array hm rfl).symm.trans h) Bool.false_ne_true
      | refArray j ys => exact absurd ((not_equals_array hm rfl).symm.trans h) Bool.false_ne_true
    | primArray i kind xs =>
      cases y with
      | null => cases h
      | object p => exact absurd ((array_not_equals hm rfl).symm.trans h) Bool.false_ne_true
      | primArray j kind' ys =>
        obtain ⟨hkind, hsame⟩ := Bool.and_eq_true_iff.mp h
        obtain rfl := of_decide_eq_true hkind
        exact .primArray hsame
      | refArray j ys => cases hm.array _ _ rfl h
    | refArray i xs =>
      cases y with
      | null => cases h
      | object p => exact absurd ((array_not_equals hm rfl).symm.trans h) Bool.false_ne_true
      | primArray j kind ys => cases hm.array _ _ rfl h
      | refArray j ys => exact .refArray ((deepSameElements_eq xs ys).symm.trans h)
  · intro h
    cases h with
    | null => rfl
    | refArray h => exact (deepSameElements_eq _ _).trans h
    | primArray h => exact Bool.and_eq_true_iff.mpr ⟨decide_eq_true rfl, h⟩
    | object h => exact h

theorem deepSame_refl (x : JavaRef Obj) : Arrays.deepSame m x x = true := by
  refine (deepSame_iff hm).mpr ?_
  induction x using JavaRef.inductOn with
  | null => exact .null
  | object o => exact .object (hm.equivalence.refl _ object_ne_null)
  | primArray id kind elems => exact .primArray (equalsPrim_equivalence.refl elems trivial)
  | refArray id elems ih => exact .refArray (sameElements_refl fun e he => (deepSame_iff hm).mpr (ih e he))

theorem deepSame_symm (x : JavaRef Obj) : ∀ y, Arrays.deepSame m x y = true → Arrays.deepSame m y x = true := by
  induction x using JavaRef.inductOn with
  | null =>
    intro y h
    cases (deepSame_iff hm).mp h
    exact h
  | object o =>
    intro y h
    cases (deepSame_iff hm).mp h with
    | object hsame =>
      exact (deepSame_iff hm).mpr (.object (hm.equivalence.symm _ _ object_ne_null object_ne_null hsame))
  | primArray id kind elems =>
    intro y h
    cases (deepSame_iff hm).mp h with
    | primArray hsame =>
      exact (deepSame_iff hm).mpr (.primArray (equalsPrim_equivalence.symm _ _ trivial trivial hsame))
  | refArray id elems ih =>
    intro y h
    cases (deepSame_iff hm).mp h with
    | refArray hsame => exact (deepSame_iff hm).mpr (.refArray (sameElements_symm (fun x hx y _ => ih x hx y) hsame))

theorem deepSame_trans (x : JavaRef Obj) : ∀ y z, Arrays.deepSame m x y = true → Arrays.deepSame m y z = true →
    Arrays.deepSame m x z = true := by
  induction x using JavaRef.inductOn with
  | null =>
    intro y z h h'
    cases (deepSame_iff hm).mp h
    exact h'
  | object o =>
    intro y z h h'
    cases (deepSame_iff hm).mp h with
    | object hsame =>
      cases (deepSame_iff hm).mp h' with
      | object hsame' =>
        have htrans := hm.equivalence.trans _ _ _ object_ne_null object_ne_null object_ne_null hsame hsame'
        exact (deepSame_iff hm).mpr (.object htrans)
  | primArray id kind elems =>
    intro y z h h'
    cases (deepSame_iff hm).mp h with
    | primArray hsame =>
      cases (deepSame_iff hm).mp h' with
      | primArray hsame' =>
        have htrans := equalsPrim_equivalence.trans _ _ _ trivial trivial trivial hsame hsame'
        exact (deepSame_iff hm).mpr (.primArray htrans)
  | refArray id elems ih =>
    intro y z h h'
    cases (deepSame_iff hm).mp h with
    | refArray hsame =>
      cases (deepSame_iff hm).mp h' with
      | refArray hsame' =>
        exact (deepSame_iff hm).mpr (.refArray (sameElements_trans (fun x hx y _ z _ => ih x hx y z) hsame hsame'))

theorem deepSame_hash (x : JavaRef Obj) : ∀ y, Arrays.deepSame m x y = true →
    Arrays.deepHash m x = Arrays.deepHash m y := by
  induction x using JavaRef.inductOn with
  | null =>
    intro y h
    cases (deepSame_iff hm).mp h
    rfl
  | object o =>
    intro y h
    cases (deepSame_iff hm).mp h with
    | object hsame => exact hm.equivalence.hash _ _ object_ne_null object_ne_null hsame
  | primArray id kind elems =>
    intro y h
    cases (deepSame_iff hm).mp h with
    | primArray hsame => exact equalsPrim_equivalence.hash _ _ trivial trivial hsame
  | refArray id elems ih =>
    intro y h
    cases (deepSame_iff hm).mp h with
    | refArray hsame =>
      refine (deepHashElements_eq elems).trans (.trans ?_ (deepHashElements_eq _).symm)
      rw [hashElements_eq, hashElements_eq, hashElements_congr (fun x hx y _ => ih x hx y) hsame]

theorem deepSame_equivalence : HashedEquivalence (fun _ => True) (Arrays.deepSame m) (Arrays.deepHash m) where
  refl x _ := deepSame_refl hm x
  symm x y _ _ := deepSame_symm hm x y
  trans x y z _ _ _ := deepSame_trans hm x y z
  hash x y _ _ := deepSame_hash hm x y

end Contract

/-! ## Arrays that may be missing -/

/-- The empty reference, or an array with valid elements. -/
def Nullable {α : Type} (array : ℕ → α → JavaRef Obj) (valid : α → Prop) (x : JavaRef Obj) : Prop :=
  x = .null ∨ ∃ id a, x = array id a ∧ valid a

/-- A comparison of references that compares what arrays hold. -/
structure ComparesArrays {α : Type} (array : ℕ → α → JavaRef Obj) (same : α → α → Bool) (hash : α → BitVec 32)
    (equals : JavaRef Obj → JavaRef Obj → Bool) (hashCode : JavaRef Obj → BitVec 32) : Prop where
  null : equals .null .null = true
  null_array : ∀ j b, equals .null (array j b) = false
  array_null : ∀ i a, equals (array i a) .null = false
  arrays : ∀ i j a b, equals (array i a) (array j b) = same a b
  hash : ∀ i a, hashCode (array i a) = hash a

theorem HashedEquivalence.nullable {α : Type} {array : ℕ → α → JavaRef Obj} {valid : α → Prop} {same : α → α → Bool}
    {hash : α → BitVec 32} {equals : JavaRef Obj → JavaRef Obj → Bool} {hashCode : JavaRef Obj → BitVec 32}
    (h : HashedEquivalence valid same hash) (hc : ComparesArrays array same hash equals hashCode) :
    HashedEquivalence (Nullable array valid) equals hashCode where
  refl x hx := by
    rcases hx with rfl | ⟨i, a, rfl, ha⟩
    · exact hc.null
    · rw [hc.arrays]
      exact h.refl a ha
  symm x y hx hy hsame := by
    rcases hx with rfl | ⟨i, a, rfl, ha⟩ <;> rcases hy with rfl | ⟨j, b, rfl, hb⟩
    · exact hc.null
    · exact absurd ((hc.null_array _ b).symm.trans hsame) Bool.false_ne_true
    · exact absurd ((hc.array_null _ a).symm.trans hsame) Bool.false_ne_true
    · rw [hc.arrays] at hsame ⊢
      exact h.symm a b ha hb hsame
  trans x y z hx hy hz hsame hsame' := by
    rcases hx with rfl | ⟨i, a, rfl, ha⟩ <;> rcases hy with rfl | ⟨j, b, rfl, hb⟩
    · exact hsame'
    · exact absurd ((hc.null_array _ b).symm.trans hsame) Bool.false_ne_true
    · exact absurd ((hc.array_null _ a).symm.trans hsame) Bool.false_ne_true
    · rcases hz with rfl | ⟨k, c, rfl, hcv⟩
      · exact absurd ((hc.array_null _ b).symm.trans hsame') Bool.false_ne_true
      · rw [hc.arrays] at hsame hsame' ⊢
        exact h.trans a b c ha hb hcv hsame hsame'
  hash x y hx hy hsame := by
    rcases hx with rfl | ⟨i, a, rfl, ha⟩ <;> rcases hy with rfl | ⟨j, b, rfl, hb⟩
    · rfl
    · exact absurd ((hc.null_array _ b).symm.trans hsame) Bool.false_ne_true
    · exact absurd ((hc.array_null _ a).symm.trans hsame) Bool.false_ne_true
    · rw [hc.arrays] at hsame
      rw [hc.hash, hc.hash, h.hash a b ha hb hsame]

section Arrays

variable {m : ObjectMethods Obj}

theorem primArrays_equivalence (m : ObjectMethods Obj) (kind : PrimKind) :
    HashedEquivalence (Nullable (fun id => .primArray id kind) fun _ => True) (Arrays.equals m) (Arrays.hashCode m) :=
  equalsPrim_equivalence.nullable ⟨rfl, fun _ _ => rfl, fun _ _ => rfl, fun _ _ _ _ => rfl, fun _ _ => rfl⟩

theorem refArrays_equivalence (hm : m.Contract) :
    HashedEquivalence (Nullable .refArray fun _ => True) (Arrays.equals m) (Arrays.hashCode m) := by
  have helements : HashedEquivalence (fun _ => True) (sameElements (Objects.equals m))
      (hashElements (Objects.hashCode m)) := by
    have h := (objects_equivalence hm).elements
    simpa using h
  exact helements.nullable ⟨rfl, fun _ _ => rfl, fun _ _ => rfl, fun _ _ _ _ => rfl, fun _ _ => rfl⟩

theorem deepArrays_equivalence (hm : m.Contract) :
    HashedEquivalence (Nullable .refArray fun _ => True) (Arrays.deepEquals m) (Arrays.deepHashCode m) := by
  have helements : HashedEquivalence (fun _ => True) (sameElements (Arrays.deepSame m))
      (hashElements (Arrays.deepHash m)) := by
    have h := (deepSame_equivalence hm).elements
    simpa using h
  exact helements.nullable
    ⟨rfl, fun _ _ => rfl, fun _ _ => rfl, fun _ _ xs ys => deepSameElements_eq xs ys,
      fun _ xs => deepHashElements_eq xs⟩

end Arrays

/-! ## Variables -/

theorem HashedEquivalence.image {α β : Type} {valid : α → Prop} {same : α → α → Bool} {hash : α → BitVec 32}
    (h : HashedEquivalence valid same hash) {wrap : α → β} {valid' : β → Prop} {same' : β → β → Bool}
    {hash' : β → BitVec 32} (hvalid : ∀ v, valid' v → ∃ a, v = wrap a ∧ valid a)
    (hsame : ∀ a b, same' (wrap a) (wrap b) = same a b) (hhash : ∀ a, hash' (wrap a) = hash a) :
    HashedEquivalence valid' same' hash' where
  refl v hv := by
    obtain ⟨a, rfl, ha⟩ := hvalid v hv
    rw [hsame]
    exact h.refl a ha
  symm v w hv hw := by
    obtain ⟨a, rfl, ha⟩ := hvalid v hv
    obtain ⟨b, rfl, hb⟩ := hvalid w hw
    rw [hsame, hsame]
    exact h.symm a b ha hb
  trans u v w hu hv hw := by
    obtain ⟨a, rfl, ha⟩ := hvalid u hu
    obtain ⟨b, rfl, hb⟩ := hvalid v hv
    obtain ⟨c, rfl, hc⟩ := hvalid w hw
    rw [hsame, hsame, hsame]
    exact h.trans a b c ha hb hc
  hash v w hv hw := by
    obtain ⟨a, rfl, ha⟩ := hvalid v hv
    obtain ⟨b, rfl, hb⟩ := hvalid w hw
    rw [hsame, hhash, hhash]
    exact h.hash a b ha hb

/-- Things of one class with parts that are the same one by one. -/
theorem HashedEquivalence.parts {ι α β κ : Type} [DecidableEq κ] {parts : List ι} {valid : ι → β → Prop}
    {same : ι → β → β → Bool} {hash : ι → β → BitVec 32}
    (h : ∀ i ∈ parts, HashedEquivalence (valid i) (same i) (hash i)) (classOf : α → κ) {part : α → ι → β}
    (hpart : ∀ a, ∀ i ∈ parts, valid i (part a i)) (combine : List (BitVec 32) → BitVec 32) :
    HashedEquivalence (fun _ => True)
      (fun a b => decide (classOf a = classOf b) && parts.all fun i => same i (part a i) (part b i))
      (fun a => combine (parts.map fun i => hash i (part a i))) where
  refl a _ := by
    rw [decide_eq_true rfl, Bool.true_and, List.all_eq_true]
    exact fun i hi => (h i hi).refl _ (hpart a i hi)
  symm a b _ _ hsame := by
    rw [Bool.and_eq_true, decide_eq_true_iff, List.all_eq_true] at hsame ⊢
    exact ⟨hsame.1.symm, fun i hi => (h i hi).symm _ _ (hpart a i hi) (hpart b i hi) (hsame.2 i hi)⟩
  trans a b c _ _ _ hsame hsame' := by
    rw [Bool.and_eq_true, decide_eq_true_iff, List.all_eq_true] at hsame hsame' ⊢
    exact ⟨hsame.1.trans hsame'.1, fun i hi =>
      (h i hi).trans _ _ _ (hpart a i hi) (hpart b i hi) (hpart c i hi) (hsame.2 i hi) (hsame'.2 i hi)⟩
  hash a b _ _ hsame := by
    rw [Bool.and_eq_true, List.all_eq_true] at hsame
    exact congrArg combine (List.map_congr_left fun i hi =>
      (h i hi).hash _ _ (hpart a i hi) (hpart b i hi) (hsame.2 i hi))

/-- What a variable holds. -/
inductive JavaValue (Obj : Type) where
  | prim (p : PrimValue)
  | ref (x : JavaRef Obj)

end JavaAnalyzer.JavaValues
