import Mathlib

/-! # Packed ids

Ids made of two positions: blocks of a fixed stride, and places in a block. They are distinct exactly when no place of a
block reaches a place of a later one (`nodup_packed_iff`). Words remember whether an operation on the way to them
overflowed, so that the packing can be read as it is written. -/

namespace JavaAnalyzer.PackedIds
set_option autoImplicit false

/-! ## Words that remember an overflow -/

/-- The word that an expression gives, and whether an operation in it overflowed. -/
structure CheckedU32 where
  value : UInt32
  overflowed : Bool

namespace CheckedU32

instance : Add CheckedU32 :=
  ⟨fun a b => ⟨a.value + b.value, a.overflowed || b.overflowed || decide (2 ^ 32 ≤ a.value.toNat + b.value.toNat)⟩⟩

instance : Mul CheckedU32 :=
  ⟨fun a b => ⟨a.value * b.value, a.overflowed || b.overflowed || decide (2 ^ 32 ≤ a.value.toNat * b.value.toNat)⟩⟩

instance (n : ℕ) : OfNat CheckedU32 n :=
  ⟨⟨UInt32.ofNat n, false⟩⟩

/-- `as u32`, which cuts off what does not fit. -/
def ofUsize (n : ℕ) : CheckedU32 :=
  ⟨UInt32.ofNat n, false⟩

/-- The word is the number, and nothing overflowed. -/
structure Exact (a : CheckedU32) (n : ℕ) : Prop where
  value : a.value.toNat = n
  overflowed : a.overflowed = false

theorem exact_ofUsize {n : ℕ} (h : n < 2 ^ 32) : Exact (ofUsize n) n :=
  ⟨UInt32.toNat_ofNat_of_lt' h, rfl⟩

theorem exact_lit {n : ℕ} (h : n < 2 ^ 32) : Exact (OfNat.ofNat n) n :=
  ⟨UInt32.toNat_ofNat_of_lt' h, rfl⟩

theorem exact_one : Exact 1 1 :=
  exact_lit (by decide)

variable {a b : CheckedU32} {m n : ℕ}

theorem add_overflowed_iff (ha : Exact a m) (hb : Exact b n) : (a + b).overflowed = false ↔ m + n < 2 ^ 32 := by
  change (a.overflowed || b.overflowed || decide (2 ^ 32 ≤ a.value.toNat + b.value.toNat)) = false ↔ _
  rw [ha.overflowed, hb.overflowed, ha.value, hb.value]
  simp

theorem mul_overflowed_iff (ha : Exact a m) (hb : Exact b n) : (a * b).overflowed = false ↔ m * n < 2 ^ 32 := by
  change (a.overflowed || b.overflowed || decide (2 ^ 32 ≤ a.value.toNat * b.value.toNat)) = false ↔ _
  rw [ha.overflowed, hb.overflowed, ha.value, hb.value]
  simp

theorem Exact.add (ha : Exact a m) (hb : Exact b n) (h : m + n < 2 ^ 32) : Exact (a + b) (m + n) := by
  refine ⟨?_, (add_overflowed_iff ha hb).mpr h⟩
  change (a.value + b.value).toNat = m + n
  rw [UInt32.toNat_add, ha.value, hb.value, Nat.mod_eq_of_lt h]

theorem Exact.mul (ha : Exact a m) (hb : Exact b n) (h : m * n < 2 ^ 32) : Exact (a * b) (m * n) := by
  refine ⟨?_, (mul_overflowed_iff ha hb).mpr h⟩
  change (a.value * b.value).toNat = m * n
  rw [UInt32.toNat_mul, ha.value, hb.value, Nat.mod_eq_of_lt h]

/-- An overflow stays. -/
theorem overflowed_of_add (h : (a + b).overflowed = false) : a.overflowed = false ∧ b.overflowed = false := by
  change (a.overflowed || b.overflowed || decide (2 ^ 32 ≤ a.value.toNat + b.value.toNat)) = false at h
  simp only [Bool.or_eq_false_iff] at h
  exact h.1

end CheckedU32

/-! ## Blocks -/

section Blocks

variable {stride start : ℕ} {blocks : List (List ℕ)}

/-- The ids of the places in all blocks, the first of which is number `first`. -/
def packed (stride start : ℕ) : ℕ → List (List ℕ) → List ℕ
  | _, [] => []
  | first, places :: blocks =>
    places.map (fun place => stride * first + place + start) ++ packed stride start (first + 1) blocks

/-- No place of a block reaches a place of a later one. -/
def Apart (stride : ℕ) (blocks : List (List ℕ)) : Prop :=
  ∀ i j places places', blocks[i]? = some places → blocks[j]? = some places' → i < j →
    ∀ p ∈ places, ∀ q ∈ places', p ≠ q + stride * (j - i)

theorem mem_packed {first id : ℕ} : id ∈ packed stride start first blocks ↔
    ∃ i places, blocks[i]? = some places ∧ ∃ place ∈ places, id = stride * (first + i) + place + start := by
  induction blocks generalizing first with
  | nil => simp [packed]
  | cons places blocks ih =>
    rw [packed, List.mem_append, List.mem_map, ih]
    constructor
    · rintro (⟨place, hplace, rfl⟩ | ⟨i, places', hi, place, hplace, rfl⟩)
      · exact ⟨0, places, rfl, place, hplace, rfl⟩
      · exact ⟨i + 1, places', hi, place, hplace, by rw [Nat.add_assoc first 1 i, Nat.add_comm 1 i]⟩
    · rintro ⟨i, places', hi, place, hplace, rfl⟩
      cases i with
      | zero =>
        obtain rfl := Option.some.inj hi
        exact .inl ⟨place, hplace, rfl⟩
      | succ i =>
        exact .inr ⟨i, places', hi, place, hplace, by rw [Nat.add_assoc first 1 i, Nat.add_comm 1 i]⟩

theorem packed_eq_flatMap {first : ℕ} : packed stride start first blocks =
    blocks.zipIdx.flatMap fun block => block.1.map (fun place => stride * (first + block.2) + place + start) := by
  induction blocks generalizing first with
  | nil => rfl
  | cons places blocks ih =>
    rw [packed, ih, List.zipIdx_cons, List.flatMap_cons, Nat.zero_add, List.zipIdx_succ, List.flatMap_map]
    refine congrArg₂ (· ++ ·) rfl (List.flatMap_congr fun block _ => ?_)
    rw [Nat.add_assoc, Nat.add_comm 1]

/-- Blocks whose places are taken in order are apart when a later one is empty or the earlier ends before it. -/
theorem apart_range_iff {lengths : List ℕ} : Apart stride (lengths.map List.range) ↔
    ∀ i j m n, lengths[i]? = some m → lengths[j]? = some n → i < j → n = 0 ∨ m ≤ stride * (j - i) := by
  constructor
  · intro h i j m n hi hj hij
    by_contra hcon
    rw [not_or, Nat.not_le] at hcon
    obtain ⟨hn, hm⟩ := hcon
    have hapart := h i j (List.range m) (List.range n) (by rw [List.getElem?_map, hi]; rfl)
      (by rw [List.getElem?_map, hj]; rfl) hij
    exact hapart (stride * (j - i)) (List.mem_range.mpr hm) 0 (List.mem_range.mpr (Nat.pos_of_ne_zero hn))
      (Nat.zero_add _).symm
  · intro h i j places places' hi hj hij p hp q hq
    rw [List.getElem?_map, Option.map_eq_some_iff] at hi hj
    obtain ⟨m, hi, rfl⟩ := hi
    obtain ⟨n, hj, rfl⟩ := hj
    have hp' := List.mem_range.mp hp
    have hq' := List.mem_range.mp hq
    have hmn := h i j m n hi hj hij
    omega

theorem apart_cons {places : List ℕ} : Apart stride (places :: blocks) ↔
    (∀ j places', blocks[j]? = some places' → ∀ p ∈ places, ∀ q ∈ places', p ≠ q + stride * (j + 1)) ∧
      Apart stride blocks := by
  constructor
  · intro h
    refine ⟨fun j places' hj => ?_, fun i j places' places'' hi hj hij => ?_⟩
    · have hfirst := h 0 (j + 1) places places' rfl hj (Nat.succ_pos j)
      rwa [Nat.sub_zero] at hfirst
    · have hlater := h (i + 1) (j + 1) places' places'' hi hj (Nat.succ_lt_succ hij)
      rwa [Nat.add_sub_add_right] at hlater
  · rintro ⟨hfirst, hrest⟩ i j places' places'' hi hj hij
    obtain ⟨j, rfl⟩ := Nat.exists_eq_succ_of_ne_zero (Nat.ne_of_gt (Nat.zero_lt_of_lt hij))
    cases i with
    | zero =>
      obtain rfl := Option.some.inj hi
      exact hfirst j places'' hj
    | succ i =>
      rw [Nat.succ_sub_succ]
      exact hrest i j places' places'' hi hj (Nat.lt_of_succ_lt_succ hij)

theorem nodup_packed_iff {first : ℕ} :
    (packed stride start first blocks).Nodup ↔ (∀ places ∈ blocks, places.Nodup) ∧ Apart stride blocks := by
  induction blocks generalizing first with
  | nil => exact iff_of_true List.nodup_nil ⟨fun _ h => absurd h List.not_mem_nil, fun i j _ _ hi => by cases hi⟩
  | cons places blocks ih =>
    have hinj : Function.Injective fun place => stride * first + place + start := fun p q h => by
      simpa using h
    rw [packed, List.nodup_append', List.nodup_map_iff hinj, ih, List.forall_mem_cons, apart_cons]
    have hdisjoint : (places.map fun place => stride * first + place + start).Disjoint
        (packed stride start (first + 1) blocks) ↔
          ∀ j places', blocks[j]? = some places' → ∀ p ∈ places, ∀ q ∈ places', p ≠ q + stride * (j + 1) := by
      constructor
      · rintro h j places' hj p hp q hq rfl
        refine h (List.mem_map_of_mem hp) (mem_packed.mpr ⟨j, places', hj, q, hq, ?_⟩)
        ring
      · intro h id hid hlater
        obtain ⟨p, hp, rfl⟩ := List.mem_map.mp hid
        obtain ⟨j, places', hj, q, hq, heq⟩ := mem_packed.mp hlater
        refine h j places' hj p hp q hq ?_
        have hsum : stride * first + p + start = stride * first + (q + stride * (j + 1)) + start := by
          rw [heq]
          ring
        omega
    rw [hdisjoint]
    constructor
    · rintro ⟨hplaces, ⟨hblocks, hapart⟩, hfirst⟩
      exact ⟨⟨hplaces, hblocks⟩, hfirst, hapart⟩
    · rintro ⟨⟨hplaces, hblocks⟩, hfirst, hapart⟩
      exact ⟨hplaces, ⟨hblocks, hapart⟩, hfirst⟩

end Blocks

end JavaAnalyzer.PackedIds
