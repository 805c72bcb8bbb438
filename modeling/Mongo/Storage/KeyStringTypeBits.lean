import Mongo.Bson.Value
import Mongo.Storage.TypeBits

/-!
# The type bits of a KeyString

Building a KeyString from an index key (`KeyString::_appendAllElementsForIndexing`,
`key_string.cpp`) appends type bits for each value it encodes (`_appendBsonValue`): one for a
string or a symbol, two for a number, more for a negative zero and for decimals, and those of
the elements of an object, an array or a `CodeWScope` scope.

The model is what `_typeBits` is asked to do: the bits handed to `appendBit`, in order, and the
failure that stops construction, if one does — the `uassert` for a decimal under `V0`, or a failed
`invariant`.  Each `TypeBits` method used is named by its bits (`stringBits`, `numericBits`,
`zeroBits`, ...); that the methods of `Mongo.Storage.TypeBits` append exactly these is proved in
`Mongo.Storage.TypeBitsBound`.  The KeyString bytes themselves are not modelled, and neither are
the `invariant`s of the decimal encoding after its type bits, which would stop construction with
the bits appended so far.
-/

namespace Mongo
namespace KeyString

/-- What stops the construction of a KeyString once it has begun. -/
inductive KeyStringError
  | unsupportedFormat
  | invariantFailure
  deriving DecidableEq, Repr

namespace TypeBits

/-- `TypeBits::kMaxKeyBytes`: the largest key the buffer is sized for. -/
def kMaxKeyBytes : ℕ := 1024

/-- `Decimal128::kMaxBiasedExponent`. -/
def kMaxBiasedExponent : ℕ := 6143 + 6144

/-- The bits `appendHighFirst` appends: bit `n - 1` of `x` down to bit 0. -/
def highFirstBits (x : ℕ) : ℕ → List Bool
  | 0 => []
  | n + 1 => x.testBit n :: highFirstBits x n

/-- `appendString()`. -/
def stringBits : List Bool := [false]

/-- `appendSymbol()`. -/
def symbolBits : List Bool := [true]

/-- `appendNumberInt()`, `appendNumberLong()`, `appendNumberDouble()`, `appendNumberDecimal()`:
the two bits of `kInt = 0`, `kLong = 1`, `kDouble = 2` or `kDecimal = 3`. -/
def numericBits (kind : ℕ) : List Bool := highFirstBits kind 2

/-- `appendZero(zeroType)`; the `MONGO_UNREACHABLE` default is `none`. -/
def zeroBits (version : Version) (zeroType : ℕ) : Option (List Bool) :=
  if zeroType = 0 ∨ zeroType = 2 ∨ zeroType = 1 then some (highFirstBits zeroType 2)
  else if zeroType = 3 then
    if version = .V0 then some (highFirstBits 3 2) else some (highFirstBits 0x18 5)
  else if 0x1a ≤ zeroType ∧ zeroType ≤ 0x1f then some (highFirstBits zeroType 5)
  else none

/-- `appendDecimalZero(whichZero)`; a failed `invariant` is `none`. -/
def decimalZeroBits (version : Version) (whichZero : ℕ) : Option (List Bool) :=
  if whichZero >>> 12 ≤ 0x1f - 0x1a then
    (zeroBits version ((whichZero >>> 12) + 0x1a)).map (· ++ highFirstBits whichZero 12)
  else none

/-- `appendDecimalExponent(storedExponentBits)`; a failed `invariant` is `none`. -/
def decimalExponentBits (storedExponentBits : ℕ) : Option (List Bool) :=
  if storedExponentBits < 2 ^ 6 then some (highFirstBits storedExponentBits 6) else none

end TypeBits

open TypeBits

/-- The bits of a method call that may fail its `invariant`. -/
def ofOption : Option (List Bool) → List Bool × Option KeyStringError
  | some bits => (bits, none)
  | none => ([], some .invariantFailure)

/-- `_appendNumberDecimal(dec)`: its type bits. -/
def appendNumberDecimalTypeBits (version : Version) (dec : Decimal128) :
    List Bool × Option KeyStringError :=
  if dec.cls = .zero then
    let zeroExp :=
      if dec.isNegative then dec.biasedExponent + (kMaxBiasedExponent + 1) else dec.biasedExponent
    ofOption (decimalZeroBits version zeroExp)
  else if dec.cls = .nan ∨ dec.cls = .infinite then (numericBits 3, none)
  else ofOption ((decimalExponentBits (dec.biasedExponent &&& 63)).map (numericBits 3 ++ ·))

mutual

/-- `_appendBsonValue(elem)`: the type bits it appends and the failure that stops it.  A double
is a negative zero when `num == 0.0 && std::signbit(num)`, the bits `0x8000000000000000`. -/
def appendBsonValueTypeBits (version : Version) : BSONValue → List Bool × Option KeyStringError
  | .numberDouble bits =>
      if bits = 0x8000000000000000 then ofOption (zeroBits version 3) else (numericBits 2, none)
  | .string _ => (stringBits, none)
  | .symbol _ => (symbolBits, none)
  | .object elems | .array elems => appendElementsTypeBits version elems
  | .codeWScope _ scope => appendElementsTypeBits version scope
  | .numberInt => (numericBits 0, none)
  | .numberLong => (numericBits 1, none)
  | .numberDecimal dec =>
      -- uassert(version >= Version::V1)
      if version = .V0 then ([], some .unsupportedFormat)
      else appendNumberDecimalTypeBits version dec
  | .minKey | .maxKey | .undefined | .null | .binData _ | .oid | .bool | .date | .regEx _ _
  | .dbRef _ | .code _ | .timestamp => ([], none)

/-- The values of a list of elements in turn, as `_appendBson` and `_appendArray` append them. -/
def appendElementsTypeBits (version : Version) :
    List (List UInt8 × BSONValue) → List Bool × Option KeyStringError
  | [] => ([], none)
  | (_, value) :: rest =>
      let first := appendBsonValueTypeBits version value
      match first.2 with
      | some e => (first.1, some e)
      | none =>
          let more := appendElementsTypeBits version rest
          (first.1 ++ more.1, more.2)

end

/-- `_appendAllElementsForIndexing(obj, ord, discriminator)`: the type bits of the key's values.
A field name that is not empty holds a discriminator: `invariant(ch == 'l' || ch == 'g')` and
`invariant(!it.more())`. -/
def appendAllElementsTypeBits (version : Version) :
    List (List UInt8 × BSONValue) → List Bool × Option KeyStringError
  | [] => ([], none)
  | (name, value) :: rest =>
      let first := appendBsonValueTypeBits version value
      match first.2 with
      | some e => (first.1, some e)
      | none =>
          match name with
          | [] =>
              let more := appendAllElementsTypeBits version rest
              (first.1 ++ more.1, more.2)
          | ch :: _ =>
              if (ch = 0x6c ∨ ch = 0x67) ∧ rest = [] then (first.1, none)
              else (first.1, some .invariantFailure)

end KeyString
end Mongo
