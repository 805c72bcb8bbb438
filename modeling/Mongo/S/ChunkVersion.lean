import Mathlib

/-!
# Chunk versions

`ChunkVersion` (`s/chunk_version.h`) packs a major and a minor version into one 64-bit word,
`_combined = minor | major << 32`, and carries the collection's epoch, an `OID`.  The ordering
operators compare the packed word only; `operator==` (`equals`) also compares the epoch.  The
routing code orders chunk updates by the packed word and tells collection incarnations apart by
the epoch, and that is all the later modules use.

The accessors are modelled bit for bit, including the ones whose widths look surprising:
`minorVersion` masks with `0xFFFF`, sixteen bits, although the word reserves thirty-two.
-/

namespace Mongo

/-- An `OID`: `kOIDSize = 12` bytes. -/
structure OID where
  bytes : Vector UInt8 12
  deriving DecidableEq, Repr

/-- A chunk or collection version: the packed major/minor word and the epoch. -/
structure ChunkVersion where
  combined : UInt64
  epoch : OID
  deriving DecidableEq, Repr

namespace ChunkVersion

/-- `ChunkVersion(int major, int minor, const OID& epoch)`: each `int` is widened to `uint64_t`
(sign-extended) before the shift and the `or`. -/
def make (major minor : Int32) (epoch : OID) : ChunkVersion :=
  ⟨UInt64.ofInt minor.toInt ||| (UInt64.ofInt major.toInt <<< 32), epoch⟩

/-- `majorVersion()`: `_combined >> 32`, returned as an `int`. -/
def majorVersion (v : ChunkVersion) : Int32 :=
  Int32.ofInt (v.combined >>> 32).toNat

/-- `minorVersion()`: `_combined & 0xFFFF`, returned as an `int`. -/
def minorVersion (v : ChunkVersion) : Int32 :=
  Int32.ofInt (v.combined &&& 0xFFFF).toNat

/-- `incMajor()`: `_combined = uint64_t(majorVersion() + 1) << 32`. -/
def incMajor (v : ChunkVersion) : ChunkVersion :=
  { v with combined := UInt64.ofInt (v.majorVersion + 1).toInt <<< 32 }

/-- `incMinor()`: `_combined++`. -/
def incMinor (v : ChunkVersion) : ChunkVersion :=
  { v with combined := v.combined + 1 }

/-- `isSet()`: some version other than `0|0`. -/
def isSet (v : ChunkVersion) : Prop :=
  0 < v.combined

instance (v : ChunkVersion) : Decidable v.isSet :=
  inferInstanceAs (Decidable (0 < v.combined))

/-- `operator<` and its siblings compare the packed word and ignore the epoch: the versions
are preordered by `_combined`. -/
instance : Preorder ChunkVersion := Preorder.lift fun v => v.combined.toNat

instance (a b : ChunkVersion) : Decidable (a ≤ b) :=
  Nat.decLe a.combined.toNat b.combined.toNat
instance (a b : ChunkVersion) : Decidable (a < b) :=
  Nat.decLt a.combined.toNat b.combined.toNat

theorem le_def {a b : ChunkVersion} : a ≤ b ↔ a.combined ≤ b.combined :=
  UInt64.le_iff_toNat_le.symm

theorem lt_def {a b : ChunkVersion} : a < b ↔ a.combined < b.combined :=
  UInt64.lt_iff_toNat_lt.symm

theorem total_le (a b : ChunkVersion) : a ≤ b ∨ b ≤ a :=
  Nat.le_total a.combined.toNat b.combined.toNat

theorem not_lt {a b : ChunkVersion} : ¬ a < b ↔ b ≤ a := Nat.not_lt

theorem isSet_iff {a : ChunkVersion} : a.isSet ↔ 0 < a.combined.toNat := by
  rw [isSet, UInt64.lt_iff_toNat_lt, UInt64.toNat_zero]

/-- A version at or above a set version is set. -/
theorem isSet_of_le {a b : ChunkVersion} (ha : a.isSet) (hab : a ≤ b) : b.isSet := by
  rw [isSet_iff] at ha ⊢
  exact lt_of_lt_of_le ha hab

/-- `isWriteCompatibleWith`: same epoch and same major version. -/
def isWriteCompatibleWith (a b : ChunkVersion) : Prop :=
  a.epoch = b.epoch ∧ b.majorVersion = a.majorVersion

/-- `isOlderThan`: same epoch, and an older major, or the same major and an older minor. -/
def isOlderThan (a b : ChunkVersion) : Bool :=
  if b.epoch ≠ a.epoch then false
  else if a.majorVersion ≠ b.majorVersion then decide (a.majorVersion < b.majorVersion)
  else decide (a.minorVersion < b.minorVersion)

end ChunkVersion

end Mongo
