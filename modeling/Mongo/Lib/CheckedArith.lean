import Mathlib

/-!
# Checked arithmetic on signed machine integers

C and C++ code that must not overflow a signed type tests its operands before the operation.
For addition the test subtracts from a bound, and for multiplication it divides a bound by
one operand, with division that truncates toward zero (the algorithms of CERT INT32-C).  This
file says when such a test is exact, over the integers:

* `Fits w x`: `x` is a value of a signed type of `w` bits;
* `toInt_add_of_fits`, `toInt_mul_of_fits`, `toInt_sub_of_fits`, `toInt_div_of_fits`: an
  operation on `Int64` is the exact one when the exact result fits;
* `tdiv_lt_iff_lt_mul`, `lt_tdiv_iff_mul_lt`, `lt_tdiv_iff_lt_mul_of_neg`: comparing one
  operand with a bound divided by the other decides whether the product passes the bound,
  for the three sign cases a pre-check meets;
* `fits_tdiv_of_pos`, `fits_tdiv_of_neg`: those quotients are themselves values of the type.
-/

namespace CheckedArith

/-- `x` is a value of a signed two's complement type of `w` bits. -/
def Fits (w : ℕ) (x : ℤ) : Prop :=
  -2 ^ (w - 1) ≤ x ∧ x < 2 ^ (w - 1)

instance (w : ℕ) (x : ℤ) : Decidable (Fits w x) :=
  inferInstanceAs (Decidable (_ ∧ _))

theorem fits_toInt64 (x : Int64) : Fits 64 x.toInt :=
  ⟨Int64.le_toInt x, Int64.toInt_lt x⟩

theorem fits_toInt32 (x : Int32) : Fits 32 x.toInt :=
  ⟨Int32.le_toInt x, Int32.toInt_lt x⟩

/-- A value of 32 bits is one of 64 bits. -/
theorem Fits.of_fits32 {x : ℤ} (h : Fits 32 x) : Fits 64 x := by
  obtain ⟨hlo, hhi⟩ := h
  constructor <;> norm_num at * <;> omega

/-- `Int.bmod` leaves a value of the type alone. -/
theorem bmod_of_fits {x : ℤ} (h : Fits 64 x) : x.bmod (2 ^ 64) = x := by
  obtain ⟨hlo, hhi⟩ := h
  exact Int.bmod_eq_of_le (by norm_num at *; omega) (by norm_num at *; omega)

theorem bmod32_of_fits {x : ℤ} (h : Fits 32 x) : x.bmod (2 ^ 32) = x := by
  obtain ⟨hlo, hhi⟩ := h
  exact Int.bmod_eq_of_le (by norm_num at *; omega) (by norm_num at *; omega)

theorem toInt_add_of_fits {a b : Int64} (h : Fits 64 (a.toInt + b.toInt)) :
    (a + b).toInt = a.toInt + b.toInt := by
  rw [Int64.toInt_add, bmod_of_fits h]

theorem toInt_sub_of_fits {a b : Int64} (h : Fits 64 (a.toInt - b.toInt)) :
    (a - b).toInt = a.toInt - b.toInt := by
  rw [Int64.toInt_sub, bmod_of_fits h]

theorem toInt_mul_of_fits {a b : Int64} (h : Fits 64 (a.toInt * b.toInt)) :
    (a * b).toInt = a.toInt * b.toInt := by
  rw [Int64.toInt_mul, bmod_of_fits h]

theorem toInt_div_of_fits {a b : Int64} (h : Fits 64 (a.toInt.tdiv b.toInt)) :
    (a / b).toInt = a.toInt.tdiv b.toInt := by
  rw [Int64.toInt_div, bmod_of_fits h]

/-- `Int64.ofInt` of a value of the type reads back as that value. -/
theorem toInt_ofInt_of_fits {x : ℤ} (h : Fits 64 x) : (Int64.ofInt x).toInt = x :=
  Int64.toInt_ofInt_of_le h.1 h.2

theorem toInt32_ofInt_of_fits {x : ℤ} (h : Fits 32 x) : (Int32.ofInt x).toInt = x := by
  rw [Int32.toInt_ofInt]
  exact bmod32_of_fits h

/-! ## Division pre-checks

A bound divided by an operand, truncating toward zero, is what the other operand may be at
most (or at least) for the product to stay within the bound. -/

/-- A non-negative bound and a positive divisor: the quotient is below `l` exactly when the
product `l * r` is past the bound. -/
theorem tdiv_lt_iff_lt_mul {M r l : ℤ} (hM : 0 ≤ M) (hr : 0 < r) :
    M.tdiv r < l ↔ M < l * r := by
  rw [Int.tdiv_eq_ediv_of_nonneg hM]
  exact Int.ediv_lt_iff_lt_mul hr

/-- A non-positive bound and a positive divisor `l`: `r` is below the quotient exactly when
`l * r` is below the bound.  Truncation rounds the negative quotient up. -/
theorem lt_tdiv_iff_mul_lt {m l r : ℤ} (hm : m ≤ 0) (hl : 0 < l) :
    r < m.tdiv l ↔ l * r < m := by
  have hq : m.tdiv l = -((-m) / l) := by
    rw [← Int.tdiv_eq_ediv_of_nonneg (by omega), Int.neg_tdiv, neg_neg]
  rw [hq, lt_neg, Int.ediv_lt_iff_lt_mul hl]
  constructor <;> intro h <;> linarith

/-- A non-negative bound and a negative divisor `l`: `r` is below the quotient exactly when
`l * r` is past the bound. -/
theorem lt_tdiv_iff_lt_mul_of_neg {M l r : ℤ} (hM : 0 ≤ M) (hl : l < 0) :
    r < M.tdiv l ↔ M < l * r := by
  have hq : M.tdiv l = -(M / (-l)) := by
    rw [← Int.tdiv_eq_ediv_of_nonneg hM, ← Int.tdiv_neg, neg_neg]
  rw [hq, lt_neg, Int.ediv_lt_iff_lt_mul (by omega)]
  constructor <;> intro h <;> linarith

/-- Dividing a value of the type by a positive divisor gives a value of the type. -/
theorem fits_tdiv_of_pos {a b : ℤ} (ha : Fits 64 a) (hb : 0 < b) : Fits 64 (a.tdiv b) := by
  obtain ⟨hlo, hhi⟩ := ha
  rcases le_or_gt 0 a with h0 | h0
  · rw [Int.tdiv_eq_ediv_of_nonneg h0]
    have h1 : a / b ≤ a := Int.ediv_le_self b h0
    have h2 : 0 ≤ a / b := Int.ediv_nonneg h0 hb.le
    constructor <;> omega
  · have hq : a.tdiv b = -((-a) / b) := by
      rw [← Int.tdiv_eq_ediv_of_nonneg (by omega), Int.neg_tdiv, neg_neg]
    have h1 : (-a) / b ≤ -a := Int.ediv_le_self b (by omega)
    have h2 : 0 ≤ (-a) / b := Int.ediv_nonneg (by omega) hb.le
    rw [hq]
    constructor <;> omega

/-- Dividing a non-negative value of the type by a negative divisor gives a value of the
type: only `-2^63 / -1` does not. -/
theorem fits_tdiv_of_neg {a b : ℤ} (ha : Fits 64 a) (ha0 : 0 ≤ a) (hb : b < 0) :
    Fits 64 (a.tdiv b) := by
  obtain ⟨hlo, hhi⟩ := ha
  have hq : a.tdiv b = -(a / (-b)) := by
    rw [← Int.tdiv_eq_ediv_of_nonneg ha0, ← Int.tdiv_neg, neg_neg]
  have h1 : a / (-b) ≤ a := Int.ediv_le_self (-b) ha0
  have h2 : 0 ≤ a / (-b) := Int.ediv_nonneg ha0 (by omega)
  rw [hq]
  constructor <;> omega

end CheckedArith
