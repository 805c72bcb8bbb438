import Mongo.Matcher.BitTest

/-!
# What a bit test decides

A bit test keeps its bits twice, and the two views are meant to agree: `_bitMask` should be the
`or` of `1 << min(p, 63)` over the positions (`positionsMask`, `MaskAgrees`).  Where they agree,
the mask test a number gets is the positional test a BinData value gets, read on the number's
two's-complement bits sign-extended past bit 63.

* `performBitTestBinary_eq` — the loop over the positions, with its early exit, is the `all` or
  `any` of the positional test (`positionalTest`).
* `performBitTest_eq_positionalTest` — where the mask agrees, so is the mask test on a number.
* `initPositions_maskAgrees`, `initMask_maskAgrees` — the overloads for a list of positions and
  for an integer mask build a mask that agrees.
* `initBinary_sign_extends` — the BinData overload does not: it widens a byte from `0x80` up to
  `uint64_t` with its sign, which sets every higher bit of the mask.
-/

namespace Mongo

namespace BitTestMatchExpression

/-- The test of the operator, position by position, for the bits `isBitSet`. -/
def positionalTest (matchType : BitTestMatchType) (bitPositions : List UInt32)
    (isBitSet : UInt32 → Bool) : Bool :=
  match matchType with
  | .bitsAllSet => bitPositions.all isBitSet
  | .bitsAllClear => bitPositions.all fun p => !isBitSet p
  | .bitsAnySet => bitPositions.any isBitSet
  | .bitsAnyClear => bitPositions.any fun p => !isBitSet p

/-- The `or` of `1 << min(p, 63)` over the positions. -/
def positionsMask (bitPositions : List UInt32) : UInt64 :=
  bitPositions.foldr (fun p m => ((1 : UInt64) <<< (min p 63).toUInt64) ||| m) 0

@[simp] theorem positionsMask_nil : positionsMask [] = 0 := rfl

@[simp] theorem positionsMask_cons (p : UInt32) (ps : List UInt32) :
    positionsMask (p :: ps) = ((1 : UInt64) <<< (min p 63).toUInt64) ||| positionsMask ps := rfl

/-- The bit at position `p` of a `long long`, sign-extended past bit 63. -/
def longBit (eValue : Int64) (p : UInt32) : Bool :=
  eValue.toUInt64.toBitVec.getLsbD (min p 63).toNat

/-- `_bitMask` is the `or` of the positions, each capped at 63. -/
def MaskAgrees (e : BitTestMatchExpression) : Prop :=
  e.bitMask = positionsMask e.bitPositions

/-! ## The bits of a 64-bit word -/

section Bits

variable {a b : UInt64}

theorem eq_iff_getLsbD : a = b ↔ ∀ i < 64, a.toBitVec.getLsbD i = b.toBitVec.getLsbD i := by
  constructor
  · rintro rfl
    simp
  · intro h
    exact UInt64.toBitVec_inj.mp (BitVec.eq_of_getLsbD_eq h)

/-- The bit `i` of `1 << s`, for a shift below the width. -/
theorem getLsbD_one_shiftLeft {s : UInt64} (hs : s.toNat < 64) {i : ℕ} (hi : i < 64) :
    ((1 : UInt64) <<< s).toBitVec.getLsbD i = decide (i = s.toNat) := by
  simp [hi, Nat.mod_eq_of_lt hs]
  by_cases h : i = s.toNat
  · simp [h]
  · by_cases hlt : i < s.toNat
    · simp [h, hlt]
    · simp [h, hlt]
      omega

/-- `(a & b) == b`: every bit of `b` is a bit of `a`. -/
theorem and_eq_self_iff :
    a &&& b = b ↔ ∀ i < 64, b.toBitVec.getLsbD i = true → a.toBitVec.getLsbD i = true := by
  rw [eq_iff_getLsbD]
  refine forall₂_congr fun i _ => ?_
  simp only [UInt64.toBitVec_and, BitVec.getLsbD_and]
  cases a.toBitVec.getLsbD i <;> cases b.toBitVec.getLsbD i <;> simp

/-- `(a & b) != 0`: some bit of `b` is a bit of `a`. -/
theorem and_ne_zero_iff :
    a &&& b ≠ 0 ↔ ∃ i < 64, b.toBitVec.getLsbD i = true ∧ a.toBitVec.getLsbD i = true := by
  rw [Ne, eq_iff_getLsbD]
  simp only [UInt64.toBitVec_and, BitVec.getLsbD_and, UInt64.toBitVec_zero,
    BitVec.getLsbD_zero, Bool.and_eq_false_iff, not_forall, exists_prop]
  refine exists_congr fun i => and_congr_right fun _ => ?_
  cases a.toBitVec.getLsbD i <;> cases b.toBitVec.getLsbD i <;> simp

theorem getLsbD_not {i : ℕ} (hi : i < 64) : (~~~a).toBitVec.getLsbD i = !a.toBitVec.getLsbD i := by
  simp [hi]

end Bits

theorem toNat_min_lt (p : UInt32) : (min p 63).toNat < 64 := by
  rw [UInt32.toNat_min]
  simp only [UInt32.reduceToNat]
  omega

/-- **The bits of the positions' mask** are the capped positions. -/
theorem getLsbD_positionsMask (bitPositions : List UInt32) {i : ℕ} (hi : i < 64) :
    (positionsMask bitPositions).toBitVec.getLsbD i = true ↔
      ∃ p ∈ bitPositions, (min p 63).toNat = i := by
  induction bitPositions with
  | nil => simp
  | cons p ps ih =>
      have hshift : (min p 63).toUInt64.toNat < 64 := by
        rw [UInt32.toNat_toUInt64]
        exact toNat_min_lt p
      rw [positionsMask_cons, UInt64.toBitVec_or, BitVec.getLsbD_or, Bool.or_eq_true,
        getLsbD_one_shiftLeft hshift hi, ih, UInt32.toNat_toUInt64,
        decide_eq_true_iff]
      simp only [List.mem_cons, exists_eq_or_imp]
      exact or_congr_left eq_comm

/-- A test over every set bit of the mask is a test over every position. -/
theorem forall_positionsMask_iff (bitPositions : List UInt32) (P : ℕ → Prop) :
    (∀ i < 64, (positionsMask bitPositions).toBitVec.getLsbD i = true → P i) ↔
      ∀ p ∈ bitPositions, P (min p 63).toNat := by
  constructor
  · intro h p hp
    exact h _ (toNat_min_lt p) ((getLsbD_positionsMask _ (toNat_min_lt p)).mpr ⟨p, hp, rfl⟩)
  · intro h i hi hbit
    obtain ⟨p, hp, rfl⟩ := (getLsbD_positionsMask _ hi).mp hbit
    exact h p hp

/-- A test for some set bit of the mask is a test for some position. -/
theorem exists_positionsMask_iff (bitPositions : List UInt32) (P : ℕ → Prop) :
    (∃ i < 64, (positionsMask bitPositions).toBitVec.getLsbD i = true ∧ P i) ↔
      ∃ p ∈ bitPositions, P (min p 63).toNat := by
  constructor
  · rintro ⟨i, hi, hbit, hP⟩
    obtain ⟨p, hp, rfl⟩ := (getLsbD_positionsMask _ hi).mp hbit
    exact ⟨p, hp, hP⟩
  · rintro ⟨p, hp, hP⟩
    exact ⟨_, toNat_min_lt p, (getLsbD_positionsMask _ (toNat_min_lt p)).mpr ⟨p, hp, rfl⟩, hP⟩

/-! ## The two tests -/

/-- **The loop over the positions is the positional test**: its early exit returns what the
`all` or `any` that it stops short of would.  By induction on the positions left, with a case
for each operator and each value of the bit. -/
theorem performBitTestBinaryLoop_eq (e : BitTestMatchExpression) (eBinary : List Int8) :
    ∀ bitPositions, e.performBitTestBinaryLoop eBinary bitPositions =
      positionalTest e.matchType bitPositions (binaryBit eBinary)
  | [] => by
      cases hmt : e.matchType <;> simp [performBitTestBinaryLoop, positionalTest, hmt]
  | p :: ps => by
      have ih := performBitTestBinaryLoop_eq e eBinary ps
      cases hmt : e.matchType <;> cases hbit : binaryBit eBinary p <;>
        simp_all [performBitTestBinaryLoop, positionalTest, needFurtherBitTests]

theorem performBitTestBinary_eq (e : BitTestMatchExpression) (eBinary : List Int8) :
    e.performBitTestBinary eBinary = positionalTest e.matchType e.bitPositions (binaryBit eBinary) :=
  performBitTestBinaryLoop_eq e eBinary e.bitPositions

/-- **Where the mask agrees with the positions, a number is tested bit by bit**: the mask test of
`performBitTest(long long)` is the positional test, on the number's two's-complement bits
sign-extended past bit 63. -/
theorem performBitTest_eq_positionalTest {e : BitTestMatchExpression} (h : e.MaskAgrees)
    (eValue : Int64) :
    e.performBitTest eValue = positionalTest e.matchType e.bitPositions (longBit eValue) := by
  rw [MaskAgrees] at h
  cases hmt : e.matchType
  · simp only [performBitTest, positionalTest, hmt, h]
    rw [Bool.eq_iff_iff, beq_iff_eq, and_eq_self_iff, forall_positionsMask_iff, List.all_eq_true]
    rfl
  · simp only [performBitTest, positionalTest, hmt, h]
    rw [Bool.eq_iff_iff, beq_iff_eq, and_eq_self_iff, forall_positionsMask_iff, List.all_eq_true]
    simp only [getLsbD_not, toNat_min_lt]
    rfl
  · simp only [performBitTest, positionalTest, hmt, h]
    rw [Bool.eq_iff_iff, bne_iff_ne, and_ne_zero_iff, exists_positionsMask_iff, List.any_eq_true]
    rfl
  · simp only [performBitTest, positionalTest, hmt, h]
    rw [Bool.eq_iff_iff, bne_iff_ne, and_ne_zero_iff, exists_positionsMask_iff, List.any_eq_true]
    simp only [getLsbD_not, toNat_min_lt]
    rfl

/-! ## The `init` overloads -/

/-- The loop of the positions overload `or`s the positions' mask into its start. -/
theorem foldl_or_eq (bitPositions : List UInt32) :
    ∀ acc : UInt64, bitPositions.foldl (fun bitMask bitPosition =>
      bitMask ||| ((1 : UInt64) <<< (min bitPosition 63).toUInt64)) acc =
        acc ||| positionsMask bitPositions := by
  induction bitPositions with
  | nil => simp
  | cons p ps ih =>
      intro acc
      rw [List.foldl_cons, ih, positionsMask_cons, UInt64.or_assoc]

/-- **The positions overload builds a mask that agrees.** -/
theorem initPositions_maskAgrees (matchType : BitTestMatchType) (bitPositions : List UInt32) :
    (initPositions matchType bitPositions).MaskAgrees := by
  rw [MaskAgrees, initPositions]
  dsimp only
  rw [foldl_or_eq, UInt64.zero_or]

/-- **The integer mask overload lists positions that agree with the mask.** -/
theorem initMask_maskAgrees (matchType : BitTestMatchType) (bitMask : UInt64) :
    (initMask matchType bitMask).MaskAgrees := by
  rw [MaskAgrees, eq_iff_getLsbD]
  intro i hi
  rw [Bool.eq_iff_iff, getLsbD_positionsMask _ hi]
  simp only [initMask, List.mem_map, List.mem_filter, List.mem_range]
  constructor
  · intro hbit
    refine ⟨Nat.toUInt32 i, ⟨i, ⟨hi, ?_⟩, rfl⟩, ?_⟩
    · rw [bne_iff_ne, ne_eq, ← ne_eq, and_ne_zero_iff]
      refine ⟨i, hi, ?_, hbit⟩
      rw [getLsbD_one_shiftLeft (by simp; omega) hi]
      simp only [decide_eq_true_eq, Nat.toUInt64_eq, UInt64.toNat_ofNat']
      omega
    · rw [UInt32.toNat_min]
      simp
      omega
  · rintro ⟨p, ⟨bit, ⟨hbit, hset⟩, rfl⟩, rfl⟩
    rw [bne_iff_ne, ne_eq, ← ne_eq, and_ne_zero_iff] at hset
    obtain ⟨j, hj, hone, hmask⟩ := hset
    rw [getLsbD_one_shiftLeft (by simp; omega) hj] at hone
    have hjbit : j = bit := by
      simp only [decide_eq_true_eq, Nat.toUInt64_eq, UInt64.toNat_ofNat'] at hone
      omega
    have hcap : (min (Nat.toUInt32 bit) 63).toNat = bit := by
      rw [UInt32.toNat_min]
      simp
      omega
    rw [hcap, ← hjbit]
    exact hmask

/-- **The BinData overload widens a byte with its sign.**  The mask `BinData(0x80)` lists the
position `7`, whose mask is `0x80`, but `_bitMask` is `0xFFFFFFFFFFFFFF80`: `$bitsAllSet` fails on
the number `128`, whose bit `7` is set, and holds on the BinData value `0x80`, which has the same
bits. -/
theorem initBinary_sign_extends :
    (initBinary .bitsAllSet [-128]).bitPositions = [7] ∧
      positionsMask [7] = 0x80 ∧
      (initBinary .bitsAllSet [-128]).bitMask = 0xFFFFFFFFFFFFFF80 ∧
      positionalTest .bitsAllSet [7] (longBit 128) = true ∧
      (initBinary .bitsAllSet [-128]).matchesSingleElement (.number 128) = false ∧
      (initBinary .bitsAllSet [-128]).matchesSingleElement (.binData [-128]) = true := by
  decide

end BitTestMatchExpression

end Mongo
