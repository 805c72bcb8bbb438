import Mongo.Storage.KeyStringTypeBits
import Mongo.Storage.TypeBitsSpec

/-!
# Type bits fit their buffer

The `TypeBits` methods append the bits `Mongo.Storage.KeyStringTypeBits` names them by
(`appendHighFirst_eq`, `appendZero_eq`, `appendDecimalZero_eq`, ...), so the type bits of a
KeyString are `appendBits` of the bits `appendAllElementsTypeBits` lists.

No value appends more than 17 type bits for each 18 bytes it takes in its document: a decimal
zero, 17 bits for a type byte, an empty name and 16 bytes, is the worst case, and a document
appends those of its elements (`length_appendBsonValueTypeBits`,
`length_appendElementsTypeBits`).  A key of at most `kMaxKeyBytes = 1024` bytes therefore appends
at most 962 bits, within the `8 * (kMaxBytesNeeded - 1)` the buffer is sized for, and every
`appendBit` stays inside `_buf` (`appendAllElementsTypeBits_fits`).
-/

namespace Mongo
namespace KeyString

open TypeBits

namespace TypeBits

/-! ## The methods append the bits they are named by -/

theorem appendBits_append (t : TypeBits) (xs ys : List Bool) :
    appendBits t (xs ++ ys) = (appendBits t xs).bind fun t => appendBits t ys := by
  induction xs generalizing t with
  | nil => rfl
  | cons b xs ih =>
      simp only [List.cons_append, appendBits]
      cases t.appendBit (bitValue b) with
      | none => rfl
      | some t' => exact ih t'

theorem appendBits_singleton (t : TypeBits) (b : Bool) :
    appendBits t [b] = t.appendBit (bitValue b) := by
  simp [appendBits]

@[simp] theorem length_highFirstBits (x n : ℕ) : (highFirstBits x n).length = n := by
  induction n with
  | zero => rfl
  | succ n ih => simp [highFirstBits, ih]

/-- The byte `appendHighFirst` hands to `appendBit` is the bit's `bitValue`. -/
theorem ofNat_shiftRight_and_one (x n : ℕ) :
    UInt8.ofNat (x >>> n &&& 1) = bitValue (x.testBit n) := by
  have hbit : x >>> n &&& 1 = if x.testBit n then 1 else 0 := by
    rw [Nat.and_one_is_mod, Nat.testBit, Nat.one_and_eq_mod_two]
    rcases Nat.mod_two_eq_zero_or_one (x >>> n) with h | h <;> simp [h]
  rw [hbit, bitValue]
  split <;> rfl

theorem appendHighFirst_eq (t : TypeBits) (x n : ℕ) :
    t.appendHighFirst x n = appendBits t (highFirstBits x n) := by
  induction n generalizing t with
  | zero => rfl
  | succ n ih =>
      simp only [appendHighFirst, highFirstBits, appendBits, ofNat_shiftRight_and_one,
        Option.bind_eq_bind]
      cases t.appendBit (bitValue (x.testBit n)) with
      | none => rfl
      | some t' => exact ih t'

theorem appendString_eq (t : TypeBits) : t.appendString = appendBits t stringBits := by
  rw [stringBits, appendBits_singleton]
  rfl

theorem appendSymbol_eq (t : TypeBits) : t.appendSymbol = appendBits t symbolBits := by
  rw [symbolBits, appendBits_singleton]
  rfl

/-- `appendNumeric` appends the two bits of the kind, high bit first. -/
theorem appendNumeric_eq (t : TypeBits) {kind : UInt8} {high low : Bool}
    (hhigh : kind >>> 1 = bitValue high) (hlow : kind &&& 1 = bitValue low) :
    t.appendNumeric kind = appendBits t [high, low] := by
  simp only [appendNumeric, appendBits, hhigh, hlow, Option.bind_eq_bind]
  cases t.appendBit (bitValue high) <;> simp

theorem appendNumberInt_eq (t : TypeBits) : t.appendNumberInt = appendBits t (numericBits 0) :=
  appendNumeric_eq t (by decide) (by decide)

theorem appendNumberLong_eq (t : TypeBits) : t.appendNumberLong = appendBits t (numericBits 1) :=
  appendNumeric_eq t (by decide) (by decide)

theorem appendNumberDouble_eq (t : TypeBits) :
    t.appendNumberDouble = appendBits t (numericBits 2) :=
  appendNumeric_eq t (by decide) (by decide)

theorem appendNumberDecimal_eq (t : TypeBits) :
    t.appendNumberDecimal = appendBits t (numericBits 3) :=
  appendNumeric_eq t (by decide) (by decide)

theorem appendZero_eq (t : TypeBits) (zeroType : ℕ) :
    t.appendZero zeroType = (zeroBits t.version zeroType).bind (appendBits t) := by
  unfold appendZero zeroBits
  split_ifs <;> simp [appendHighFirst_eq]

theorem appendDecimalZero_eq (t : TypeBits) (whichZero : ℕ) :
    t.appendDecimalZero whichZero = (decimalZeroBits t.version whichZero).bind (appendBits t) := by
  unfold appendDecimalZero decimalZeroBits
  split_ifs
  · rw [appendZero_eq]
    cases zeroBits t.version ((whichZero >>> 12) + 0x1a) with
    | none => rfl
    | some bits =>
        simp only [Option.bind_eq_bind, Option.bind_some, Option.map_some, appendBits_append,
          appendHighFirst_eq]
  · rfl

theorem appendDecimalExponent_eq (t : TypeBits) (storedExponentBits : ℕ) :
    t.appendDecimalExponent storedExponentBits =
      (decimalExponentBits storedExponentBits).bind (appendBits t) := by
  unfold appendDecimalExponent decimalExponentBits
  split_ifs <;> simp [appendHighFirst_eq]

/-! ## How many bits each method appends -/

theorem length_numericBits (kind : ℕ) : (numericBits kind).length = 2 :=
  length_highFirstBits kind 2

theorem length_zeroBits {version : Version} {zeroType : ℕ} {bits : List Bool}
    (h : zeroBits version zeroType = some bits) : bits.length ≤ 5 := by
  unfold zeroBits at h
  split_ifs at h <;> cases h <;> simp

theorem length_decimalZeroBits {version : Version} {whichZero : ℕ} {bits : List Bool}
    (h : decimalZeroBits version whichZero = some bits) : bits.length ≤ 17 := by
  unfold decimalZeroBits at h
  split_ifs at h
  obtain ⟨zero, hzero, rfl⟩ := Option.map_eq_some_iff.mp h
  have := length_zeroBits hzero
  simp only [List.length_append, length_highFirstBits]
  omega

theorem length_decimalExponentBits {e : ℕ} {bits : List Bool}
    (h : decimalExponentBits e = some bits) : bits.length = 6 := by
  unfold decimalExponentBits at h
  split_ifs at h
  cases h
  simp

end TypeBits

theorem length_ofOption {o : Option (List Bool)} {n : ℕ} (h : ∀ bits, o = some bits → bits.length ≤ n) :
    (ofOption o).1.length ≤ n := by
  cases o with
  | none => simp [ofOption]
  | some bits => exact h bits rfl

/-- A decimal appends at most 17 type bits. -/
theorem length_appendNumberDecimalTypeBits (version : Version) (dec : Decimal128) :
    (appendNumberDecimalTypeBits version dec).1.length ≤ 17 := by
  unfold appendNumberDecimalTypeBits
  by_cases hzero : dec.cls = .zero
  · rw [if_pos hzero]
    exact length_ofOption fun _ h => length_decimalZeroBits h
  rw [if_neg hzero]
  by_cases hspecial : dec.cls = .nan ∨ dec.cls = .infinite
  · rw [if_pos hspecial]
    simp [length_numericBits]
  · rw [if_neg hspecial]
    refine length_ofOption fun bits h => ?_
    obtain ⟨e, he, rfl⟩ := Option.map_eq_some_iff.mp h
    simp [length_numericBits, length_decimalExponentBits he]

/-! ## At most 17 bits for 18 bytes -/

mutual

/-- **A value appends at most 17 type bits for each 18 bytes** its element takes with an empty
name: its type byte, the name's NUL and the value. -/
theorem length_appendBsonValueTypeBits (version : Version) :
    ∀ value : BSONValue,
      18 * (appendBsonValueTypeBits version value).1.length ≤ 17 * (value.valueSize + 2)
  | .numberDouble bits => by
      unfold appendBsonValueTypeBits
      split_ifs
      · have hzero : (ofOption (zeroBits version 3)).1.length ≤ 5 :=
          length_ofOption fun _ h => length_zeroBits h
        simp only [BSONValue.valueSize]
        omega
      · simp [length_numericBits, BSONValue.valueSize]
  | .object elems | .array elems => by
      have := length_appendElementsTypeBits version elems
      simp only [appendBsonValueTypeBits, BSONValue.valueSize]
      omega
  | .codeWScope c scope => by
      have := length_appendElementsTypeBits version scope
      simp only [appendBsonValueTypeBits, BSONValue.valueSize]
      omega
  | .numberDecimal dec => by
      have := length_appendNumberDecimalTypeBits version dec
      unfold appendBsonValueTypeBits
      split_ifs
      · simp
      · simp only [BSONValue.valueSize]
        omega
  | .string _ | .symbol _ => by
      simp only [appendBsonValueTypeBits, stringBits, symbolBits, List.length_singleton,
        BSONValue.valueSize]
      omega
  | .numberInt | .numberLong => by
      simp [appendBsonValueTypeBits, length_numericBits, BSONValue.valueSize]
  | .minKey | .maxKey | .undefined | .null | .binData _ | .oid | .bool | .date | .regEx _ _
  | .dbRef _ | .code _ | .timestamp => by
      simp [appendBsonValueTypeBits]

/-- The elements of a document append at most 17 type bits for each 18 of their bytes. -/
theorem length_appendElementsTypeBits (version : Version) :
    ∀ elems : List (List UInt8 × BSONValue),
      18 * (appendElementsTypeBits version elems).1.length ≤
        17 * BSONValue.elementsSize elems
  | [] => by simp [appendElementsTypeBits]
  | (name, value) :: rest => by
      have hvalue := length_appendBsonValueTypeBits version value
      have hrest := length_appendElementsTypeBits version rest
      simp only [appendElementsTypeBits, BSONValue.elementsSize]
      split
      · dsimp only
        omega
      · simp only [List.length_append]
        omega

end

/-- The values of an index key append at most 17 type bits for each 18 bytes of its elements. -/
theorem length_appendAllElementsTypeBits (version : Version) :
    ∀ elems : List (List UInt8 × BSONValue),
      18 * (appendAllElementsTypeBits version elems).1.length ≤
        17 * BSONValue.elementsSize elems
  | [] => by simp [appendAllElementsTypeBits]
  | (name, value) :: rest => by
      have hvalue := length_appendBsonValueTypeBits version value
      have hrest := length_appendAllElementsTypeBits version rest
      simp only [appendAllElementsTypeBits, BSONValue.elementsSize]
      split
      · dsimp only
        omega
      · split
        · simp only [List.length_append]
          omega
        · split_ifs <;> dsimp only <;> omega

/-- **Type bits never overflow their buffer**: an index key of at most `kMaxKeyBytes` bytes
appends at most `8 * (kMaxBytesNeeded - 1)` type bits, so appending them to a fresh `TypeBits`
never writes past `_buf`. -/
theorem appendAllElementsTypeBits_fits (version : Version) (raw : ℕ → UInt8)
    (obj : List (List UInt8 × BSONValue)) (hsize : objSize obj ≤ kMaxKeyBytes) :
    (appendAllElementsTypeBits version obj).1.length ≤ 8 * (kMaxBytesNeeded - 1) ∧
      ∃ t, appendBits (init version raw) (appendAllElementsTypeBits version obj).1 = some t ∧
        t.curBit = (appendAllElementsTypeBits version obj).1.length := by
  have hbits := length_appendAllElementsTypeBits version obj
  unfold objSize kMaxKeyBytes at hsize
  have hlen : (appendAllElementsTypeBits version obj).1.length ≤ 8 * (kMaxBytesNeeded - 1) := by
    unfold kMaxBytesNeeded
    omega
  obtain ⟨t, ht, hp⟩ := packed_appendBits (appendAllElementsTypeBits version obj).1
    (packed_init version raw) (by unfold kMaxBytesNeeded at hlen ⊢; simp; omega)
  exact ⟨hlen, t, ht, by simpa using hp.curBit_eq⟩

/-- A key of one negative decimal zero at the largest exponent: 17 type bits. -/
theorem appendAllElementsTypeBits_fits_decimalZero :
    objSize [([], .numberDecimal ⟨true, .zero, 12287, by decide⟩)] ≤ kMaxKeyBytes ∧
    ((appendAllElementsTypeBits .V1 [([], .numberDecimal ⟨true, .zero, 12287, by decide⟩)]).1.length
        ≤ 8 * (kMaxBytesNeeded - 1) ∧
      ∃ t, appendBits (init .V1 fun _ => 0)
          (appendAllElementsTypeBits .V1 [([], .numberDecimal ⟨true, .zero, 12287, by decide⟩)]).1 =
            some t ∧
        t.curBit =
          (appendAllElementsTypeBits .V1 [([], .numberDecimal ⟨true, .zero, 12287, by decide⟩)]).1.length) := by
  have hsize : objSize [([], .numberDecimal ⟨true, .zero, 12287, by decide⟩)] ≤ kMaxKeyBytes := by
    decide
  exact ⟨hsize, appendAllElementsTypeBits_fits .V1 (fun _ => 0) _ hsize⟩

end KeyString
end Mongo
