import Mongo.Lib.BigEndian

/-!
# KeyString buffers and the RecordId codec

A `KeyString` (`db/storage/key_string.cpp`) is a byte buffer, compared with `memcmp` over the
common length and then shorter first (`KeyString::compare`).  The `RecordId` of an index entry is
appended at the end of its key by `appendRecordId`, and read back from the front by
`decodeRecordId` or from the end of a buffer by `decodeRecordIdAtEnd`.

The buffer is a list of `UInt8`.  A `BufReader` is the list of bytes not yet read: a read past
its end throws, here `none`, as does a failed `invariant`.  Machine integers are explicit:
`uint8_t(x)` is `UInt8.ofNat x`, the low byte of `x`; the decoder's `uint64_t` accumulator keeps
its low 64 bits, and `RecordId(int64_t)` reads them in two's complement (`toInt64`).
-/

namespace Mongo
namespace KeyString

/-! ## Comparison -/

/-- `memcmp(a, b, n)`: the sign of the first difference among the first `n` bytes, read as
`unsigned char`. -/
def memcmp : List UInt8 → List UInt8 → ℕ → ℤ
  | x :: a, y :: b, n + 1 => if x = y then memcmp a b n else if x < y then -1 else 1
  | _, _, _ => 0

/-- `KeyString::compare`. -/
def compare (a b : List UInt8) : ℤ :=
  let cmp := memcmp a b (min a.length b.length)
  if cmp ≠ 0 then (if cmp < 0 then -1 else 1)
  else if a.length = b.length then 0
  else if a.length < b.length then -1 else 1

/-! ## RecordId -/

/-- `RecordId::min().repr()`, `LLONG_MIN`. -/
def recordIdMinRepr : ℤ := -2 ^ 63

/-- `countLeadingZeros64(num)`: 64 for 0. -/
def countLeadingZeros64 (num : ℕ) : ℕ :=
  if num = 0 then 64 else 63 - Nat.log2 num

/-- `extraBytesNeeded` in `appendRecordId`: `ceil((bitsNeeded - 10) / 8)` bytes between the
first and the last, for `bitsNeeded = 64 - countLeadingZeros64(raw)`. -/
def extraBytesNeeded (value : ℕ) : ℕ :=
  let bitsNeeded := 64 - countLeadingZeros64 value
  if bitsNeeded ≤ 10 then 0 else ((bitsNeeded - 10) + 7) / 8

/-- `KeyString::appendRecordId(loc)` on the buffer `buf`, for `loc.repr() = repr`.  The first byte
holds `extraBytesNeeded` in its high 3 bits and the highest 5 bits of the value; then come the
value's middle bytes, the low-order `extraBytesNeeded` bytes of `nativeToBig(value >> 5)`; the
last byte holds the lowest 5 bits of the value above `extraBytesNeeded` again.  The `uint64_t`
shift `value << 3` wraps at `2 ^ 64`, which the cast to `uint8_t` cannot see. -/
def appendRecordId (buf : List UInt8) (repr : ℤ) : Option (List UInt8) := do
  let raw ← if repr < 0 then
      -- invariant(raw == RecordId::min().repr()); raw = 0
      if repr = recordIdMinRepr then some 0 else none
    else some repr.toNat
  let value := raw
  let extraBytesNeeded := extraBytesNeeded raw
  let firstByte :=
    UInt8.ofNat ((extraBytesNeeded <<< 5) ||| (value >>> (5 + extraBytesNeeded * 8)))
  let lastByte := UInt8.ofNat ((value <<< 3) ||| extraBytesNeeded)
  let extraBytes :=
    if extraBytesNeeded ≠ 0 then
      ((BigEndian.beBytes 8 (value >>> 5)).drop (8 - extraBytesNeeded)).map UInt8.ofNat
    else []
  some (buf ++ [firstByte] ++ extraBytes ++ [lastByte])

/-- The loop of `decodeRecordId` over the middle bytes:
`repr = (repr << 8) | readType<uint8_t>(reader, false)`, in 64 bits. -/
def decodeExtraBytes : ℕ → ℕ → List UInt8 → Option (ℕ × List UInt8)
  | 0, repr, reader => some (repr, reader)
  | _ + 1, _, [] => none
  | n + 1, repr, b :: reader => decodeExtraBytes n (((repr <<< 8) ||| b.toNat) % 2 ^ 64) reader

/-- `int64_t` from the bits of a `uint64_t`: two's complement. -/
def toInt64 (x : ℕ) : ℤ :=
  if x < 2 ^ 63 then x else (x : ℤ) - 2 ^ 64

/-- `KeyString::decodeRecordId(reader)`: the `RecordId`'s repr and the bytes after it. -/
def decodeRecordId (reader : List UInt8) : Option (ℤ × List UInt8) :=
  match reader with
  | [] => none
  | firstByte :: reader =>
      let numExtraBytes := firstByte.toNat >>> 5
      let repr := firstByte.toNat &&& 0x1f
      match decodeExtraBytes numExtraBytes repr reader with
      | none => none
      | some (_, []) => none
      | some (repr, lastByte :: reader) =>
          -- invariant((lastByte & 0x7) == numExtraBytes)
          if lastByte.toNat &&& 0x7 = numExtraBytes then
            some (toInt64 (((repr <<< 5) ||| (lastByte.toNat >>> 3)) % 2 ^ 64), reader)
          else none

/-- `KeyString::decodeRecordIdAtEnd(buffer, bufSize)`: the size is read from the low 3 bits of
the last byte, and a reader over the last `ridSize` bytes decodes them. -/
def decodeRecordIdAtEnd (buffer : List UInt8) : Option ℤ :=
  -- invariant(bufSize >= 2)
  if buffer.length < 2 then none
  else
    let lastByte := buffer.getLastD 0
    let ridSize := 2 + (lastByte.toNat &&& 0x7)
    -- invariant(bufSize >= ridSize)
    if buffer.length < ridSize then none
    else (decodeRecordId (buffer.drop (buffer.length - ridSize))).map Prod.fst

end KeyString
end Mongo
