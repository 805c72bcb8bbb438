import Mathlib

/-!
# TypeBits

`KeyString::TypeBits` (`db/storage/key_string.h`, `key_string.cpp`) records the BSON types a
KeyString cannot keep in its order-preserving bytes, one or a few bits per value.  The bits are
packed from low to high into the data bytes `_buf[1 ..]`, and `_buf[0]` is a size byte with its
high bit set.  `getBuffer()`/`getSize()` hand out one of three encodings, which `appendTypeBits`
writes into a KeyString and `resetFromBuffer` tells apart from the first byte:

* the size byte and the data bytes;
* a single `0` byte when no bit is one (`isAllZeros`);
* the single data byte alone when there is one and its high bit is clear.

The buffer `_buf[0 .. kMaxBytesNeeded]` is a function from indices to bytes; a write at an index
outside it is `none`.  The constructor sets only `_buf[0]` and `_buf[1]`, so `init` takes the
rest of the buffer as it finds it.  `dassert`s, which release builds compile out, are not
checked.  A `BufReader` is the list of bytes not yet read; `skip` past its end throws, here
`none`.
-/

namespace Mongo
namespace KeyString

/-- `KeyString::Version`. -/
inductive Version
  | V0
  | V1
  deriving DecidableEq, Repr

/-- `TypeBits::kMaxBytesNeeded`: the data bytes `_buf` has room for. -/
def kMaxBytesNeeded : ℕ := 127

/-- `KeyString::TypeBits`. -/
structure TypeBits where
  version : Version
  curBit : ℕ
  isAllZeros : Bool
  /-- `_buf[0 .. kMaxBytesNeeded]`: the size byte, then the data bytes. -/
  buf : ℕ → UInt8

namespace TypeBits

/-- `getSizeByte()`: the number of data bytes. -/
def getSizeByte (t : TypeBits) : UInt8 :=
  t.buf 0 &&& 0x7f

/-- `setSizeByte(size)`. -/
def setSizeByte (t : TypeBits) (size : UInt8) : TypeBits :=
  { t with buf := Function.update t.buf 0 (0x80 ||| size) }

/-- `reset()`. -/
def reset (t : TypeBits) : TypeBits :=
  let t := { t with curBit := 0, isAllZeros := true }
  let t := t.setSizeByte 0
  { t with buf := Function.update t.buf 1 0 }

/-- `TypeBits(version)`: `reset()` over a buffer whose other bytes are whatever memory held. -/
def init (version : Version) (raw : ℕ → UInt8) : TypeBits :=
  reset { version, curBit := 0, isAllZeros := true, buf := raw }

/-- `appendBit(oneOrZero)`.  `byte` is a `uint8_t`; an index past `_buf` is `none`. -/
def appendBit (t : TypeBits) (oneOrZero : UInt8) : Option TypeBits :=
  let isAllZeros := if oneOrZero = 1 then false else t.isAllZeros
  let byte := (t.curBit / 8 + 1) % 256
  let offsetInByte := t.curBit % 8
  if kMaxBytesNeeded < byte then none
  else if offsetInByte = 0 then
    let t := { t with isAllZeros }.setSizeByte (UInt8.ofNat byte)
    -- zeros bits 1-7
    some { t with buf := Function.update t.buf byte oneOrZero, curBit := t.curBit + 1 }
  else
    some { t with isAllZeros, curBit := t.curBit + 1,
                  buf := Function.update t.buf byte
                    (t.buf byte ||| (oneOrZero <<< UInt8.ofNat offsetInByte)) }

/-- `getSize()`. -/
def getSize (t : TypeBits) : ℕ :=
  if t.isAllZeros then 1
  else
    let rawSize := t.getSizeByte
    if rawSize = 1 ∧ t.buf 1 &&& 0x80 = 0 then 1
    else rawSize.toNat + 1

/-- `getBuffer()`, as an index into `_buf`. -/
def getBuffer (t : TypeBits) : ℕ :=
  if t.getSize = 1 then 1 else 0

/-- `resetFromBuffer(reader)`: the TypeBits and the bytes left in the reader. -/
def resetFromBuffer (t : TypeBits) (reader : List UInt8) : Option (TypeBits × List UInt8) :=
  match reader with
  | [] => some (t.reset, [])
  | firstByte :: reader =>
      if firstByte &&& 0x80 ≠ 0 then
        let t := { t with isAllZeros := false, buf := Function.update t.buf 0 firstByte }
        let remainingBytes := t.getSizeByte.toNat
        -- memcpy(_buf + 1, reader->skip(remainingBytes), remainingBytes)
        if reader.length < remainingBytes then none
        else
          some ({ t with
                  buf := fun i => if 1 ≤ i ∧ i ≤ remainingBytes then reader.getD (i - 1) 0
                    else t.buf i },
                reader.drop remainingBytes)
      else if firstByte = 0 then some (t.reset, reader)
      else
        let t := { t with isAllZeros := false }.setSizeByte 1
        some ({ t with buf := Function.update t.buf 1 firstByte }, reader)

/-- `TypeBits::fromBuffer(version, reader)`. -/
def fromBuffer (version : Version) (raw : ℕ → UInt8) (reader : List UInt8) :
    Option (TypeBits × List UInt8) :=
  (init version raw).resetFromBuffer reader

/-! ## Appending -/

/-- `appendString()`. -/
def appendString (t : TypeBits) : Option TypeBits := t.appendBit 0

/-- `appendSymbol()`. -/
def appendSymbol (t : TypeBits) : Option TypeBits := t.appendBit 1

/-- `appendNumberDouble()`, `appendNumberInt()`, `appendNumberLong()`, `appendNumberDecimal()`:
the two bits of `kDouble = 2`, `kInt = 0`, `kLong = 1` or `kDecimal = 3`, high bit first. -/
def appendNumeric (t : TypeBits) (kind : UInt8) : Option TypeBits := do
  let t ← t.appendBit (kind >>> 1)
  t.appendBit (kind &&& 1)

/-- `appendNumberDouble()`. -/
def appendNumberDouble (t : TypeBits) : Option TypeBits := t.appendNumeric 2

/-- `appendNumberInt()`. -/
def appendNumberInt (t : TypeBits) : Option TypeBits := t.appendNumeric 0

/-- `appendNumberLong()`. -/
def appendNumberLong (t : TypeBits) : Option TypeBits := t.appendNumeric 1

/-- `appendNumberDecimal()`. -/
def appendNumberDecimal (t : TypeBits) : Option TypeBits := t.appendNumeric 3

/-- Bits `(x >> bitPos) & 1` for `bitPos` from `n - 1` down to 0: the low `n` bits of `x`, high
bit first. -/
def appendHighFirst (t : TypeBits) (x : ℕ) : ℕ → Option TypeBits
  | 0 => some t
  | n + 1 => do
      let t ← t.appendBit (UInt8.ofNat (x >>> n &&& 1))
      appendHighFirst t x n

/-- `appendZero(zeroType)`.  `kNegativeDoubleZero = 3` under V1 falls through to the decimal
zeros as `kV1NegativeDoubleZero = 0x18`; the `MONGO_UNREACHABLE` default is `none`. -/
def appendZero (t : TypeBits) (zeroType : ℕ) : Option TypeBits :=
  if zeroType = 0 ∨ zeroType = 2 ∨ zeroType = 1 then
    t.appendHighFirst zeroType 2
  else if zeroType = 3 then
    if t.version = .V0 then t.appendHighFirst 3 2 else t.appendHighFirst 0x18 5
  else if 0x1a ≤ zeroType ∧ zeroType ≤ 0x1f then
    t.appendHighFirst zeroType 5
  else none

/-- `appendDecimalZero(whichZero)`. -/
def appendDecimalZero (t : TypeBits) (whichZero : ℕ) : Option TypeBits :=
  -- invariant((whichZero >> 12) <= kDecimalZero5xxx - kDecimalZero0xxx)
  if whichZero >>> 12 ≤ 0x1f - 0x1a then do
    let t ← t.appendZero ((whichZero >>> 12) + 0x1a)
    t.appendHighFirst whichZero 12
  else none

/-- `appendDecimalExponent(storedExponentBits)`. -/
def appendDecimalExponent (t : TypeBits) (storedExponentBits : ℕ) : Option TypeBits :=
  -- invariant(storedExponentBits < (1U << kStoredDecimalExponentBits))
  if storedExponentBits < 2 ^ 6 then t.appendHighFirst storedExponentBits 6 else none

/-! ## Reading -/

/-- `TypeBits::Reader`: its own bit position over a TypeBits. -/
structure Reader where
  curBit : ℕ
  typeBits : TypeBits

/-- `Reader::readBit()`. -/
def Reader.readBit (r : Reader) : UInt8 × Reader :=
  if r.typeBits.isAllZeros then (0, r)
  else
    let byte := (r.curBit / 8 + 1) % 256
    let offsetInByte := r.curBit % 8
    (if r.typeBits.buf byte &&& (1 <<< UInt8.ofNat offsetInByte) ≠ 0 then 1 else 0,
      { r with curBit := r.curBit + 1 })

/-- `n` calls of `readBit()`. -/
def Reader.readBits (r : Reader) : ℕ → List UInt8
  | 0 => []
  | n + 1 => r.readBit.1 :: r.readBit.2.readBits n

end TypeBits

/-- `KeyString::appendTypeBits(typeBits)` on the buffer `ks`: a single 0 byte for all zeros,
otherwise the `getSize()` bytes at `getBuffer()`. -/
def appendTypeBits (ks : List UInt8) (t : TypeBits) : List UInt8 :=
  if t.isAllZeros then ks ++ [0]
  else ks ++ (List.range t.getSize).map fun i => t.buf (t.getBuffer + i)

end KeyString
end Mongo
