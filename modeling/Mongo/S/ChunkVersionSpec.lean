import Mongo.Lib.BigEndian
import Mongo.S.ChunkVersion

/-!
# The packed chunk version, read as numbers

For a non-negative major `M` and minor `m`, `ChunkVersion(M, m, epoch)` packs the word
`M * 2^32 + m` (`combined_make`).  Read back:

* `majorVersion()` gives `M` (`majorVersion_make`), and the comparison operators order versions
  by `(M, m)` lexicographically (`make_lt_make_iff`);
* `minorVersion()` masks with `0xFFFF`, so it gives `m` only below `2^16`, and `m % 2^16` in
  general (`minorVersion_make`); `isOlderThan` compares those truncated minors
  (`isOlderThan_make`), so it disagrees with `<` once two minors differ above bit 15;
* `incMajor()` gives the version `(M + 1, 0)` and `incMinor()` the version `(M, m + 1)`
  (`incMajor_make`, `incMinor_make`).
-/

namespace Mongo

namespace ChunkVersion

variable {M m : Int32} {epoch : OID}

/-- A non-negative `int` widened to `uint64_t` keeps its value. -/
theorem toNat_ofInt_toInt {x : Int32} (hx : 0 ≤ x.toInt) :
    (UInt64.ofInt x.toInt).toNat = x.toInt.toNat := by
  have hlt := x.toInt_lt
  rw [UInt64.ofInt, UInt64.toNat_ofNat', Int.emod_eq_of_lt hx (by omega)]
  omega

/-- **The packed word.** -/
theorem combined_make (hM : 0 ≤ M.toInt) (hm : 0 ≤ m.toInt) :
    (make M m epoch).combined.toNat = M.toInt.toNat * 2 ^ 32 + m.toInt.toNat := by
  have hMlt := M.toInt_lt
  have hmlt := m.toInt_lt
  have hhigh : M.toInt.toNat <<< 32 % 2 ^ 64 = M.toInt.toNat * 2 ^ 32 := by
    rw [Nat.shiftLeft_eq, Nat.mod_eq_of_lt (by omega)]
  rw [make, UInt64.toNat_or, UInt64.toNat_shiftLeft, toNat_ofInt_toInt hM,
    toNat_ofInt_toInt hm]
  change m.toInt.toNat ||| M.toInt.toNat <<< 32 % 2 ^ 64 = _
  rw [hhigh, Nat.lor_comm, ← Nat.shiftLeft_eq, BigEndian.shiftLeft_or_of_lt (by omega),
    Nat.shiftLeft_eq]

/-- **`majorVersion()` reads the major back.** -/
theorem majorVersion_make (hM : 0 ≤ M.toInt) (hm : 0 ≤ m.toInt) :
    (make M m epoch).majorVersion = M := by
  have hmlt := m.toInt_lt
  have hshift : (make M m epoch).combined.toNat >>> 32 = M.toInt.toNat := by
    rw [combined_make hM hm, Nat.shiftRight_eq_div_pow]
    omega
  rw [majorVersion, UInt64.toNat_shiftRight]
  change Int32.ofInt ((make M m epoch).combined.toNat >>> 32 : ℕ) = M
  rw [hshift, Int.toNat_of_nonneg hM, Int32.ofInt_toInt]

/-- **`minorVersion()` reads the minor back modulo `2^16`**: the mask `0xFFFF` keeps sixteen
of the thirty-two bits the word reserves. -/
theorem minorVersion_make (hM : 0 ≤ M.toInt) (hm : 0 ≤ m.toInt) :
    (make M m epoch).minorVersion = Int32.ofInt (m.toInt % 2 ^ 16) := by
  have hmask : (make M m epoch).combined.toNat &&& 65535 = m.toInt.toNat % 2 ^ 16 := by
    rw [show (65535 : ℕ) = 2 ^ 16 - 1 by rfl, Nat.and_two_pow_sub_one_eq_mod, combined_make hM hm]
    omega
  rw [minorVersion, UInt64.toNat_and]
  change Int32.ofInt ((make M m epoch).combined.toNat &&& 65535 : ℕ) = _
  rw [hmask, Int.natCast_mod, Int.toNat_of_nonneg hm]
  rfl

/-- **The comparison operators order versions by `(major, minor)`.** -/
theorem make_lt_make_iff {M' m' : Int32} {epoch' : OID} (hM : 0 ≤ M.toInt) (hm : 0 ≤ m.toInt)
    (hM' : 0 ≤ M'.toInt) (hm' : 0 ≤ m'.toInt) :
    make M m epoch < make M' m' epoch' ↔
      M.toInt < M'.toInt ∨ M.toInt = M'.toInt ∧ m.toInt < m'.toInt := by
  have hmlt := m.toInt_lt
  have hmlt' := m'.toInt_lt
  rw [lt_def, UInt64.lt_iff_toNat_lt, combined_make hM hm, combined_make hM' hm']
  omega

/-- `isOlderThan` on two versions of one epoch compares the majors, then the minors as
`minorVersion()` reads them. -/
theorem isOlderThan_make {M' m' : Int32} (hM : 0 ≤ M.toInt) (hm : 0 ≤ m.toInt)
    (hM' : 0 ≤ M'.toInt) (hm' : 0 ≤ m'.toInt) :
    (make M m epoch).isOlderThan (make M' m' epoch) = true ↔
      M < M' ∨ M = M' ∧ Int32.ofInt (m.toInt % 2 ^ 16) < Int32.ofInt (m'.toInt % 2 ^ 16) := by
  rw [isOlderThan, majorVersion_make hM hm, majorVersion_make hM' hm', minorVersion_make hM hm,
    minorVersion_make hM' hm']
  by_cases hmaj : M = M'
  · simp [make, hmaj]
  · simp [make, hmaj]

/-- **`incMajor()` moves to the next major with minor `0`.** -/
theorem incMajor_make (hM : 0 ≤ M.toInt) (hm : 0 ≤ m.toInt) :
    (make M m epoch).incMajor = make (M + 1) 0 epoch := by
  rw [incMajor, majorVersion_make hM hm]
  simp only [make]
  rw [show UInt64.ofInt (0 : Int32).toInt = 0 from rfl, UInt64.zero_or]

/-- **`incMinor()` moves to the next minor**, while the minor stays below `2^31 - 1`. -/
theorem incMinor_make (hM : 0 ≤ M.toInt) (hm : 0 ≤ m.toInt) (hnext : m.toInt < 2 ^ 31 - 1) :
    (make M m epoch).incMinor = make M (m + 1) epoch := by
  have hsucc : (m + 1).toInt = m.toInt + 1 := by
    rw [Int32.toInt_add, Int32.toInt_one, Int.bmod_eq_of_le] <;> simp <;> omega
  have hm1 : 0 ≤ (m + 1).toInt := by omega
  have hMlt := M.toInt_lt
  have hcombined : (make M m epoch).combined + 1 = (make M (m + 1) epoch).combined := by
    apply UInt64.toNat_inj.mp
    rw [UInt64.toNat_add, combined_make hM hm, combined_make hM hm1, hsucc, UInt64.toNat_one]
    omega
  rw [incMinor, hcombined]
  rfl

/-- The version `1|65536` of an epoch, against `1|1`: `minorVersion()` reads `0`, and
`isOlderThan` calls it older although it compares greater. -/
theorem isOlderThan_disagrees_above_bit_15 (epoch : OID) :
    (make 1 65536 epoch).minorVersion = 0 ∧ make 1 1 epoch < make 1 65536 epoch ∧
      (make 1 65536 epoch).isOlderThan (make 1 1 epoch) = true := by
  refine ⟨?_, ?_, ?_⟩
  · rw [minorVersion_make (by decide) (by decide)]
    decide
  · rw [make_lt_make_iff (by decide) (by decide) (by decide) (by decide)]
    decide
  · rw [isOlderThan_make (by decide) (by decide) (by decide) (by decide)]
    decide

end ChunkVersion

end Mongo
