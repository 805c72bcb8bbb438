import Mongo.Bson.Validate
import Mongo.Lib.CheckedArith

/-!
# `SafeNum`: arithmetic that says when it overflows

`SafeNum` (`util/safe_num.cpp`) holds a number of one of the BSON numeric types, or nothing
(type `EOO`), which is what an operation returns when it cannot give a result.  Integer `+` and
`*` follow CERT INT32-C.  Two `NumberInt`s are combined in 64 bits, and the result is narrowed
back when it fits.  Two `NumberLong`s, or a mix, are tested before the operation and give `EOO`
when it would overflow.

Doubles and decimals are only carried through.  Their conversions and arithmetic are the
operations of a `FloatingOps` record, whose values the model does not fix.

The result of this file is `addInternal_mulInternal_exact`: on integer operands both
operations return the exact integer result, as a `NumberInt` when both operands are
`NumberInt`s and it fits in 32 bits, as a `NumberLong` when it fits in 64 bits, and `EOO`
exactly when it does not fit.  It rests on one lemma per helper:
`addInt32Int32_eq`, `addInt64Int64_eq`, `mulInt32Int32_eq`, `mulInt64Int64_eq`.
-/

namespace Mongo

open CheckedArith

/-- The conversions and operations on doubles (`F`) and `Decimal128`s (`D`) that `SafeNum`
calls. -/
structure FloatingOps (F D : Type) where
  /-- `static_cast<double>` of an `int32_t`. -/
  doubleOfInt32 : Int32 → F
  /-- `static_cast<double>` of an `int64_t`. -/
  doubleOfInt64 : Int64 → F
  /-- `Decimal128::toDouble`. -/
  doubleOfDecimal : D → F
  /-- `Decimal128(int32_t)`. -/
  decimalOfInt32 : Int32 → D
  /-- `Decimal128(int64_t)`. -/
  decimalOfInt64 : Int64 → D
  /-- `Decimal128(double, kRoundTo15Digits)`. -/
  decimalOfDouble : F → D
  /-- `0.0`. -/
  doubleZero : F
  /-- `Decimal128::kNormalizedZero`. -/
  decimalZero : D
  addFloats : F → F → F
  mulFloats : F → F → F
  /-- `Decimal128::add`. -/
  addDecimals : D → D → D
  /-- `Decimal128::multiply`. -/
  mulDecimals : D → D → D

/-- A `SafeNum`: its `_type` with the member of `_value` that the type selects. -/
inductive SafeNum (F D : Type)
  | eoo
  | numberInt (int32Val : Int32)
  | numberLong (int64Val : Int64)
  | numberDouble (doubleVal : F)
  | numberDecimal (decimalVal : D)

namespace SafeNum

variable {F D : Type}

/-- `SafeNum::type()`. -/
def type : SafeNum F D → BSONType
  | .eoo => .eoo
  | .numberInt _ => .numberInt
  | .numberLong _ => .numberLong
  | .numberDouble _ => .numberDouble
  | .numberDecimal _ => .numberDecimal

/-- `SafeNum::getDouble`. -/
def getDouble (ops : FloatingOps F D) : SafeNum F D → F
  | .numberInt v => ops.doubleOfInt32 v
  | .numberLong v => ops.doubleOfInt64 v
  | .numberDouble v => v
  | .numberDecimal v => ops.doubleOfDecimal v
  | .eoo => ops.doubleZero

/-- `SafeNum::getDecimal`. -/
def getDecimal (ops : FloatingOps F D) : SafeNum F D → D
  | .numberInt v => ops.decimalOfInt32 v
  | .numberLong v => ops.decimalOfInt64 v
  | .numberDouble v => ops.decimalOfDouble v
  | .numberDecimal v => v
  | .eoo => ops.decimalZero

/-- `addInt32Int32`: the sum in 64 bits, narrowed back when it fits in 32. -/
def addInt32Int32 (lInt32 rInt32 : Int32) : SafeNum F D :=
  let result := lInt32.toInt64 + rInt32.toInt64
  if result ≤ Int32.maxValue.toInt64 ∧ result ≥ Int32.minValue.toInt64 then
    .numberInt result.toInt32
  else .numberLong result

/-- `addInt64Int64`: `EOO` when the pre-check finds that the sum would overflow. -/
def addInt64Int64 (lInt64 rInt64 : Int64) : SafeNum F D :=
  if (rInt64 > 0 ∧ lInt64 > Int64.maxValue - rInt64) ∨
      (rInt64 < 0 ∧ lInt64 < Int64.minValue - rInt64) then .eoo
  else .numberLong (lInt64 + rInt64)

/-- `mulInt32Int32`: the product in 64 bits, narrowed back when it fits in 32. -/
def mulInt32Int32 (lInt32 rInt32 : Int32) : SafeNum F D :=
  let result := lInt32.toInt64 * rInt32.toInt64
  if result ≤ Int32.maxValue.toInt64 ∧ result ≥ Int32.minValue.toInt64 then
    .numberInt result.toInt32
  else .numberLong result

/-- `mulInt64Int64`: the four-way sign split of CERT INT32-C, each case comparing one operand
with a bound divided by the other. -/
def mulInt64Int64 (lInt64 rInt64 : Int64) : SafeNum F D :=
  let overflows :=
    if lInt64 > 0 then
      if rInt64 > 0 then lInt64 > Int64.maxValue / rInt64
      else rInt64 < Int64.minValue / lInt64
    else
      if rInt64 > 0 then lInt64 < Int64.minValue / rInt64
      else lInt64 ≠ 0 ∧ rInt64 < Int64.maxValue / lInt64
  if overflows then .eoo else .numberLong (lInt64 * rInt64)

/-- `SafeNum::addInternal`. -/
def addInternal (ops : FloatingOps F D) (lhs rhs : SafeNum F D) : SafeNum F D :=
  match lhs, rhs with
  | .numberInt l, .numberInt r => addInt32Int32 l r
  | .numberInt l, .numberLong r => addInt64Int64 l.toInt64 r
  | .numberLong l, .numberInt r => addInt64Int64 l r.toInt64
  | .numberLong l, .numberLong r => addInt64Int64 l r
  | lhs, rhs =>
      if lhs.type = .numberDecimal ∨ rhs.type = .numberDecimal then
        .numberDecimal (ops.addDecimals (getDecimal ops lhs) (getDecimal ops rhs))
      else if lhs.type ∈ [.numberInt, .numberLong, .numberDouble] ∧
          rhs.type ∈ [.numberInt, .numberLong, .numberDouble] then
        .numberDouble (ops.addFloats (getDouble ops lhs) (getDouble ops rhs))
      else .eoo

/-- `SafeNum::mulInternal`. -/
def mulInternal (ops : FloatingOps F D) (lhs rhs : SafeNum F D) : SafeNum F D :=
  match lhs, rhs with
  | .numberInt l, .numberInt r => mulInt32Int32 l r
  | .numberInt l, .numberLong r => mulInt64Int64 l.toInt64 r
  | .numberLong l, .numberInt r => mulInt64Int64 l r.toInt64
  | .numberLong l, .numberLong r => mulInt64Int64 l r
  | lhs, rhs =>
      if lhs.type = .numberDecimal ∨ rhs.type = .numberDecimal then
        .numberDecimal (ops.mulDecimals (getDecimal ops lhs) (getDecimal ops rhs))
      else if lhs.type ∈ [.numberInt, .numberLong, .numberDouble] ∧
          rhs.type ∈ [.numberInt, .numberLong, .numberDouble] then
        .numberDouble (ops.mulFloats (getDouble ops lhs) (getDouble ops rhs))
      else .eoo

/-! ## What integer arithmetic should return -/

/-- The integer a `NumberInt` or a `NumberLong` holds. -/
def integerValue? : SafeNum F D → Option ℤ
  | .numberInt v => some v.toInt
  | .numberLong v => some v.toInt
  | _ => none

/-- The operand is a `NumberInt`. -/
def isNumberInt : SafeNum F D → Bool
  | .numberInt _ => true
  | _ => false

/-- The exact result `x` of an integer operation: a `NumberInt` when both operands are
`NumberInt`s and it fits in 32 bits, a `NumberLong` when it fits in 64 bits, and `EOO`
otherwise. -/
def exactIntegerResult (bothInt : Bool) (x : ℤ) : SafeNum F D :=
  if bothInt ∧ Fits 32 x then .numberInt (Int32.ofInt x)
  else if Fits 64 x then .numberLong (Int64.ofInt x)
  else .eoo

theorem exactIntegerResult_eq_eoo_iff (bothInt : Bool) (x : ℤ) :
    (exactIntegerResult bothInt x : SafeNum F D) = .eoo ↔ ¬ Fits 64 x := by
  unfold exactIntegerResult
  by_cases h32 : bothInt ∧ Fits 32 x
  · simp only [h32, and_self, if_true, reduceCtorEq, false_iff, not_not]
    exact h32.2.of_fits32
  · by_cases h64 : Fits 64 x <;> simp [h32, h64]

/-- The value of a `NumberLong` result is exact. -/
theorem numberLong_ofInt_of_fits {x : ℤ} {v : Int64} (h : Fits 64 x) (hv : v.toInt = x) :
    v = Int64.ofInt x := by
  rw [← Int64.toInt_inj, toInt_ofInt_of_fits h, hv]

/-! ## One lemma per helper -/

/-- `addInt64Int64`'s pre-check decides overflow: a positive `r` can only pass the top, a
negative one only the bottom, and the bound minus `r` is computed only on that side, where it
does not overflow. -/
theorem addInt64Int64_overflows_iff (l r : Int64) :
    ((r > 0 ∧ l > Int64.maxValue - r) ∨ (r < 0 ∧ l < Int64.minValue - r)) ↔
      ¬ Fits 64 (l.toInt + r.toInt) := by
  have hl := fits_toInt64 l
  have hr := fits_toInt64 r
  unfold Fits at hl hr
  simp only [gt_iff_lt, Int64.lt_iff_toInt_lt, Int64.toInt_zero]
  rcases lt_trichotomy r.toInt 0 with hneg | hzero | hpos
  · have hmin : (Int64.minValue - r).toInt = -2 ^ 63 - r.toInt := by
      rw [toInt_sub_of_fits] <;> rw [Int64.toInt_minValue]
      unfold Fits
      constructor <;> norm_num at * <;> omega
    rw [hmin]
    unfold Fits
    constructor <;> intro h <;> norm_num at * <;> omega
  · unfold Fits
    rw [hzero]
    norm_num at *
    omega
  · have hmax : (Int64.maxValue - r).toInt = 2 ^ 63 - 1 - r.toInt := by
      rw [toInt_sub_of_fits] <;> rw [Int64.toInt_maxValue]
      unfold Fits
      constructor <;> norm_num at * <;> omega
    rw [hmax]
    unfold Fits
    constructor <;> intro h <;> norm_num at * <;> omega

theorem addInt64Int64_eq (l r : Int64) :
    (addInt64Int64 l r : SafeNum F D) =
      if Fits 64 (l.toInt + r.toInt) then .numberLong (Int64.ofInt (l.toInt + r.toInt))
      else .eoo := by
  unfold addInt64Int64
  by_cases hfit : Fits 64 (l.toInt + r.toInt)
  · rw [if_neg (by rw [addInt64Int64_overflows_iff]; exact not_not.mpr hfit), if_pos hfit,
      numberLong_ofInt_of_fits hfit (toInt_add_of_fits hfit)]
  · rw [if_pos ((addInt64Int64_overflows_iff l r).mpr hfit), if_neg hfit]

/-- `mulInt64Int64`'s pre-check decides overflow: in each sign case the product can leave the
range on one side only, and the division test finds exactly that. -/
theorem mulInt64Int64_overflows_iff (l r : Int64) :
    (if l > 0 then
      if r > 0 then l > Int64.maxValue / r else r < Int64.minValue / l
    else
      if r > 0 then l < Int64.minValue / r
      else l ≠ 0 ∧ r < Int64.maxValue / l) ↔ ¬ Fits 64 (l.toInt * r.toInt) := by
  have hl := fits_toInt64 l
  have hr := fits_toInt64 r
  have hM : Fits 64 (2 ^ 63 - 1) := by unfold Fits; norm_num
  have hm : Fits 64 (-2 ^ 63) := by unfold Fits; norm_num
  simp only [gt_iff_lt, Int64.lt_iff_toInt_lt, Int64.toInt_zero, ne_eq, ← Int64.toInt_inj]
  unfold Fits
  by_cases hl0 : 0 < l.toInt <;> by_cases hr0 : 0 < r.toInt <;> simp only [hl0, hr0, if_true,
    if_false]
  · rw [toInt_div_of_fits (by rw [Int64.toInt_maxValue]; exact fits_tdiv_of_pos hM hr0),
      Int64.toInt_maxValue, tdiv_lt_iff_lt_mul (by norm_num) hr0]
    have : 0 < l.toInt * r.toInt := Int.mul_pos hl0 hr0
    constructor <;> intro h <;> norm_num at * <;> omega
  · rw [toInt_div_of_fits (by rw [Int64.toInt_minValue]; exact fits_tdiv_of_pos hm hl0),
      Int64.toInt_minValue, lt_tdiv_iff_mul_lt (by norm_num) hl0]
    have : l.toInt * r.toInt ≤ 0 := Int.mul_nonpos_of_nonneg_of_nonpos hl0.le (by omega)
    constructor <;> intro h <;> norm_num at * <;> omega
  · rw [toInt_div_of_fits (by rw [Int64.toInt_minValue]; exact fits_tdiv_of_pos hm hr0),
      Int64.toInt_minValue, lt_tdiv_iff_mul_lt (by norm_num) hr0, mul_comm r.toInt]
    have : l.toInt * r.toInt ≤ 0 := Int.mul_nonpos_of_nonpos_of_nonneg (by omega) hr0.le
    constructor <;> intro h <;> norm_num at * <;> omega
  · by_cases hlz : l.toInt = 0
    · simp only [hlz, not_true_eq_false, false_and, zero_mul, false_iff, not_not]
      norm_num
    · have hlneg : l.toInt < 0 := by omega
      have hq : Fits 64 (Int64.maxValue.toInt.tdiv l.toInt) := by
        rw [Int64.toInt_maxValue]
        exact fits_tdiv_of_neg hM (by norm_num) hlneg
      rw [toInt_div_of_fits hq, Int64.toInt_maxValue,
        lt_tdiv_iff_lt_mul_of_neg (by norm_num) hlneg]
      have : 0 ≤ l.toInt * r.toInt := Int.mul_nonneg_of_nonpos_of_nonpos hlneg.le (by omega)
      simp only [hlz, not_false_eq_true, true_and]
      constructor <;> intro h <;> norm_num at * <;> omega

theorem mulInt64Int64_eq (l r : Int64) :
    (mulInt64Int64 l r : SafeNum F D) =
      if Fits 64 (l.toInt * r.toInt) then .numberLong (Int64.ofInt (l.toInt * r.toInt))
      else .eoo := by
  unfold mulInt64Int64
  simp only
  by_cases hfit : Fits 64 (l.toInt * r.toInt)
  · rw [if_neg (by rw [mulInt64Int64_overflows_iff]; exact not_not.mpr hfit), if_pos hfit,
      numberLong_ofInt_of_fits hfit (toInt_mul_of_fits hfit)]
  · rw [if_pos ((mulInt64Int64_overflows_iff l r).mpr hfit), if_neg hfit]

/-- The 32-bit helpers compute in 64 bits, where the result of two 32-bit operands always
fits, and narrow it back when it fits in 32. -/
theorem narrow_eq {x : ℤ} (result : Int64) (hres : result.toInt = x) (h64 : Fits 64 x) :
    (if result ≤ Int32.maxValue.toInt64 ∧ result ≥ Int32.minValue.toInt64 then
      .numberInt result.toInt32 else .numberLong result : SafeNum F D) =
      exactIntegerResult true x := by
  have hcond : (result ≤ Int32.maxValue.toInt64 ∧ result ≥ Int32.minValue.toInt64) ↔
      Fits 32 x := by
    simp only [ge_iff_le, Int64.le_iff_toInt_le, Int32.toInt_toInt64, Int32.toInt_maxValue,
      Int32.toInt_minValue, hres, Fits]
    norm_num
    omega
  unfold exactIntegerResult
  by_cases h32 : Fits 32 x
  · have hnarrow : result.toInt32 = Int32.ofInt x := by
      rw [← Int32.toInt_inj, Int64.toInt_toInt32, hres, toInt32_ofInt_of_fits h32,
        bmod32_of_fits h32]
    rw [if_pos (hcond.mpr h32), if_pos ⟨rfl, h32⟩, hnarrow]
  · rw [if_neg (mt hcond.mp h32), if_neg (fun h => h32 h.2), if_pos h64,
      numberLong_ofInt_of_fits h64 hres]

theorem addInt32Int32_eq (l r : Int32) :
    (addInt32Int32 l r : SafeNum F D) = exactIntegerResult true (l.toInt + r.toInt) := by
  have hl := fits_toInt32 l
  have hr := fits_toInt32 r
  have h64 : Fits 64 (l.toInt + r.toInt) := by
    unfold Fits at *
    norm_num at *
    omega
  have hres : (l.toInt64 + r.toInt64).toInt = l.toInt + r.toInt := by
    rw [toInt_add_of_fits] <;> rw [Int32.toInt_toInt64, Int32.toInt_toInt64]
    exact h64
  exact narrow_eq _ hres h64

theorem mulInt32Int32_eq (l r : Int32) :
    (mulInt32Int32 l r : SafeNum F D) = exactIntegerResult true (l.toInt * r.toInt) := by
  have hl := fits_toInt32 l
  have hr := fits_toInt32 r
  have h64 : Fits 64 (l.toInt * r.toInt) := by
    unfold Fits at *
    norm_num at *
    constructor <;> nlinarith
  have hres : (l.toInt64 * r.toInt64).toInt = l.toInt * r.toInt := by
    rw [toInt_mul_of_fits] <;> rw [Int32.toInt_toInt64, Int32.toInt_toInt64]
    exact h64
  exact narrow_eq _ hres h64

/-- A 64-bit result is the exact one of a mixed or 64-bit operation. -/
theorem checked_eq_exactIntegerResult (x : ℤ) :
    (if Fits 64 x then .numberLong (Int64.ofInt x) else .eoo : SafeNum F D) =
      exactIntegerResult false x := by
  simp [exactIntegerResult]

/-- **Integer `SafeNum` arithmetic is exact or explicitly invalid.**  On two operands that are
each a `NumberInt` or a `NumberLong`, `addInternal` and `mulInternal` return the exact result:
a `NumberInt` when both are `NumberInt`s and it fits in 32 bits, a `NumberLong` when it fits in
64 bits, and `EOO` exactly when it does not (`exactIntegerResult_eq_eoo_iff`). -/
theorem addInternal_mulInternal_exact (ops : FloatingOps F D) {lhs rhs : SafeNum F D}
    {x y : ℤ} (hl : lhs.integerValue? = some x) (hr : rhs.integerValue? = some y) :
    addInternal ops lhs rhs = exactIntegerResult (lhs.isNumberInt && rhs.isNumberInt) (x + y) ∧
      mulInternal ops lhs rhs =
        exactIntegerResult (lhs.isNumberInt && rhs.isNumberInt) (x * y) := by
  cases lhs <;> cases rhs <;> simp only [integerValue?, reduceCtorEq, Option.some.injEq] at hl hr
  all_goals subst hl hr
  · exact ⟨addInt32Int32_eq _ _, mulInt32Int32_eq _ _⟩
  · refine ⟨?_, ?_⟩
    · rw [addInternal, addInt64Int64_eq, Int32.toInt_toInt64]
      exact checked_eq_exactIntegerResult _
    · rw [mulInternal, mulInt64Int64_eq, Int32.toInt_toInt64]
      exact checked_eq_exactIntegerResult _
  · refine ⟨?_, ?_⟩
    · rw [addInternal, addInt64Int64_eq, Int32.toInt_toInt64]
      exact checked_eq_exactIntegerResult _
    · rw [mulInternal, mulInt64Int64_eq, Int32.toInt_toInt64]
      exact checked_eq_exactIntegerResult _
  · exact ⟨(addInt64Int64_eq _ _).trans (checked_eq_exactIntegerResult _),
      (mulInt64Int64_eq _ _).trans (checked_eq_exactIntegerResult _)⟩

/-- `INT64_MAX + 1` as `NumberLong + NumberInt` is `EOO`, and `3 * 4` as two `NumberInt`s is the
`NumberInt` 12. -/
theorem addInternal_mulInternal_exact_at_bounds :
    addInternal (F := Unit) (D := Unit) ⟨fun _ => (), fun _ => (), fun _ => (), fun _ => (),
        fun _ => (), fun _ => (), (), (), fun _ _ => (), fun _ _ => (), fun _ _ => (),
        fun _ _ => ()⟩ (.numberLong Int64.maxValue) (.numberInt 1) =
      exactIntegerResult false (2 ^ 63 - 1 + 1) ∧
    mulInternal (F := Unit) (D := Unit) ⟨fun _ => (), fun _ => (), fun _ => (), fun _ => (),
        fun _ => (), fun _ => (), (), (), fun _ _ => (), fun _ _ => (), fun _ _ => (),
        fun _ _ => ()⟩ (.numberInt 3) (.numberInt 4) = exactIntegerResult true (3 * 4) := by
  refine ⟨(addInternal_mulInternal_exact _ (by simp [integerValue?]; rfl) rfl).1,
    (addInternal_mulInternal_exact _ rfl rfl).2⟩

end SafeNum

end Mongo
