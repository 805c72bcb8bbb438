import Mathlib

/-!
# Parsing an integer in a base

`parseNumberFromStringWithBase<NumberType>` (`base/parse_number.cpp`) reads an integer of an
integral `NumberType` in a base from 2 to 36, or in the base that strtol picks when the base
is 0.

* `_extractSign` takes off a leading `-` or `+`.
* `_extractBase` picks the base and takes off a `0x` or `0X` prefix.
* `parseMagnitudeFromStringWithBase` reads the digits into a `uint64_t`. It fails at the first
  digit at or above the base, and at the first step whose product or sum overflows.
* The magnitude is checked against the type's largest value, or one more for a negative number.
* The magnitude, negated in 64 bits for a negative number, is cast to the type.

A `StringData` is its list of characters.  A `NumberType` is what `std::numeric_limits` says of
it: its width and whether it is signed.  The cast to it keeps the low bits, read in two's
complement for a signed type.
-/

namespace Mongo

namespace ParseNumber

/-- The error codes these functions return. -/
inductive ErrorCodes
  | badValue
  | failedToParse
  deriving DecidableEq, Repr

/-- A `Status` that is not OK: its code and its reason. -/
structure Status where
  code : ErrorCodes
  reason : String
  deriving DecidableEq, Repr

/-- An integral `NumberType`, as `std::numeric_limits<NumberType>` describes it: its width in
bits and whether it is signed.  `MONGO_STATIC_ASSERT(sizeof(NumberType) <= sizeof(uint64_t))`
bounds the width by 64. -/
structure NumberType where
  bits : ℕ
  isSigned : Bool
  bits_pos : 0 < bits
  bits_le : bits ≤ 64

/-- `limits::max()`. -/
def NumberType.max (t : NumberType) : ℕ :=
  if t.isSigned then 2 ^ (t.bits - 1) - 1 else 2 ^ t.bits - 1

/-- `NumberType(x)` for a `uint64_t x`: its low `bits` bits, read in two's complement when the
type is signed. -/
def NumberType.ofUInt64 (t : NumberType) (x : UInt64) : ℤ :=
  if t.isSigned then Int.bmod x.toNat (2 ^ t.bits) else ((x.toNat % 2 ^ t.bits : ℕ) : ℤ)

/-! ## The types the template is instantiated for

`long` is 64 bits wide, as on the LP64 platforms. -/

namespace NumberType

def int8_t : NumberType := ⟨8, true, by decide, by decide⟩
def uint8_t : NumberType := ⟨8, false, by decide, by decide⟩
def short : NumberType := ⟨16, true, by decide, by decide⟩
def unsignedShort : NumberType := ⟨16, false, by decide, by decide⟩
def int : NumberType := ⟨32, true, by decide, by decide⟩
def unsignedInt : NumberType := ⟨32, false, by decide, by decide⟩
def long : NumberType := ⟨64, true, by decide, by decide⟩
def unsignedLong : NumberType := ⟨64, false, by decide, by decide⟩
def longLong : NumberType := ⟨64, true, by decide, by decide⟩
def unsignedLongLong : NumberType := ⟨64, false, by decide, by decide⟩

end NumberType

/-! ## Sign, base and digits -/

/-- `_digitValue`: the value of a digit, as strtol reads it: `0`–`9`, then `a`–`z` and `A`–`Z`
from 10; any other character is 36, too large for every base. -/
def digitValue (c : Char) : ℕ :=
  if '0' ≤ c ∧ c ≤ '9' then c.toNat - '0'.toNat
  else if 'a' ≤ c ∧ c ≤ 'z' then c.toNat - 'a'.toNat + 10
  else if 'A' ≤ c ∧ c ≤ 'Z' then c.toNat - 'A'.toNat + 10
  else 36

/-- `StringData::startsWith`: `substr(0, prefix.size()) == prefix`. -/
def startsWith (s pre : List Char) : Bool :=
  s.take pre.length == pre

/-- `_extractSign`: the string without a leading `-` or `+`, and whether it was a `-`. -/
def extractSign (stringValue : List Char) : List Char × Bool :=
  match stringValue with
  | [] => ([], false)
  | c :: rest => if c = '-' then (rest, true) else if c = '+' then (rest, false) else (c :: rest, false)

/-- `_extractBase`: the digits and the base to read them in.  Base 0 follows strtol: `0x` or `0X`
before at least one more character is base 16, a leading `0` before at least one more character
is base 8, and anything else is base 10.  Base 16 drops a `0x` or `0X` prefix. -/
def extractBase (stringValue : List Char) (inputBase : ℤ) : List Char × ℤ :=
  if inputBase = 0 then
    if stringValue.length > 2 ∧
        (startsWith stringValue ['0', 'x'] ∨ startsWith stringValue ['0', 'X']) then
      (stringValue.drop 2, 16)
    else if stringValue.length > 1 ∧ stringValue.head? = some '0' then (stringValue, 8)
    else (stringValue, 10)
  else if inputBase = 16 ∧
      (startsWith stringValue ['0', 'x'] ∨ startsWith stringValue ['0', 'X']) then
    (stringValue.drop 2, inputBase)
  else (stringValue, inputBase)

/-- `mongoUnsignedMultiplyOverflow64`: whether the product overflows, and the product in
64 bits. -/
def unsignedMultiplyOverflow64 (lhs rhs : UInt64) : Bool × UInt64 :=
  (2 ^ 64 ≤ lhs.toNat * rhs.toNat, lhs * rhs)

/-- `mongoUnsignedAddOverflow64`: whether the sum overflows, and the sum in 64 bits. -/
def unsignedAddOverflow64 (lhs rhs : UInt64) : Bool × UInt64 :=
  (2 ^ 64 ≤ lhs.toNat + rhs.toNat, lhs + rhs)

/-- One turn of the loop of `parseMagnitudeFromStringWithBase`: `n = (n * base) + digitValue`,
with a bad digit or an overflow ending the loop. -/
def parseMagnitudeStep (base : UInt64) (wholeString : List Char) (n : UInt64) (digitChar : Char) :
    Except Status UInt64 :=
  let digitValue := (digitValue digitChar).toUInt64
  if digitValue ≥ base then
    .error ⟨.failedToParse,
      "Bad digit \"" ++ digitChar.toString ++ "\" while parsing " ++ String.ofList wholeString⟩
  else
    let multiplied := unsignedMultiplyOverflow64 n base
    if multiplied.1 then .error ⟨.failedToParse, "Overflow"⟩
    else
      let sum := unsignedAddOverflow64 multiplied.2 digitValue
      if sum.1 then .error ⟨.failedToParse, "Overflow"⟩ else .ok sum.2

/-- `parseMagnitudeFromStringWithBase`: the digits read into a `uint64_t` from 0. -/
def parseMagnitudeFromStringWithBase (base : UInt64) (wholeString magnitudeStr : List Char) :
    Except Status UInt64 :=
  magnitudeStr.foldlM (parseMagnitudeStep base wholeString) 0

/-- `parseNumberFromStringWithBase<NumberType>`. -/
def parseNumberFromStringWithBase (t : NumberType) (wholeString : List Char) (base : ℤ) :
    Except Status ℤ :=
  if base = 1 ∨ base < 0 ∨ base > 36 then .error ⟨.badValue, "Invalid base"⟩
  else
    -- "Separate the magnitude from modifiers such as sign and base prefixes such as 0x"
    let signless := extractSign wholeString
    let isNegative := signless.2
    let extracted := extractBase signless.1 base
    let magnitudeStr := extracted.1
    let base := extracted.2
    if isNegative && !t.isSigned then .error ⟨.failedToParse, "Negative value"⟩
    else if magnitudeStr.isEmpty then .error ⟨.failedToParse, "No digits"⟩
    else
      match parseMagnitudeFromStringWithBase base.toNat.toUInt64 wholeString magnitudeStr with
      | .error status => .error status
      | .ok magnitude =>
          -- "The range of 2's complement integers is from -(max + 1) to +max."
          let maxMagnitude : UInt64 := t.max.toUInt64 + (if isNegative then 1 else 0)
          if magnitude > maxMagnitude then .error ⟨.failedToParse, "Overflow"⟩
          else .ok (t.ofUInt64 (if isNegative then -magnitude else magnitude))

end ParseNumber

end Mongo
