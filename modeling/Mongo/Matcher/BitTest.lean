import Mathlib

/-!
# Bit test match expressions

`BitTestMatchExpression` (`db/matcher/expression_leaf.cpp`) implements `$bitsAllSet`,
`$bitsAllClear`, `$bitsAnySet` and `$bitsAnyClear`.  It keeps the bits to test twice: as a list
of positions (`_bitPositions`), which BinData values are tested against, and as a 64-bit mask
(`_bitMask`), which numbers are tested against.  Each of the three `init` overloads fills both
from what the query gave: a list of positions (`initPositions`), a non-negative integer mask
(`initMask`), or a BinData mask (`initBinary`).

`char` is signed, as on x86-64: a byte of a BinData mask or value is an `Int8`, and a C++ `int`
an `Int32`.  A number reaches `performBitTest` as the `long long` that `numberLong()` returns; the
checks `matchesSingleElement` makes on a double before that (NaN, range, integrality) are not
modelled.
-/

namespace Mongo

/-- The four operators, by their `MatchType`. -/
inductive BitTestMatchType
  | bitsAllSet
  | bitsAllClear
  | bitsAnySet
  | bitsAnyClear
  deriving DecidableEq, Repr

/-- A bit test on one path: the operator, `_bitPositions` and `_bitMask`. -/
structure BitTestMatchExpression where
  matchType : BitTestMatchType
  bitPositions : List UInt32
  bitMask : UInt64
  deriving DecidableEq, Repr

/-- What `matchesSingleElement` reads of an element: a number, by the `long long` of
`numberLong()`; the bytes of a BinData; or an element of another type. -/
inductive BitTestElement
  | number (numberLong : Int64)
  | binData (bytes : List Int8)
  | other
  deriving DecidableEq, Repr

namespace BitTestMatchExpression

/-! ## The three `init` overloads -/

/-- `init(path, std::vector<uint32_t> bitPositions)`: "Checking bits > 63 is just checking the
sign bit, since we sign-extend numbers". -/
def initPositions (matchType : BitTestMatchType) (bitPositions : List UInt32) :
    BitTestMatchExpression :=
  ⟨matchType, bitPositions,
    bitPositions.foldl (fun bitMask bitPosition =>
      bitMask ||| ((1 : UInt64) <<< (min bitPosition 63).toUInt64)) 0⟩

/-- `init(path, uint64_t bitMask)`: the positions of the set bits of the mask, from the
lowest. -/
def initMask (matchType : BitTestMatchType) (bitMask : UInt64) : BitTestMatchExpression :=
  ⟨matchType,
    ((List.range 64).filter fun bit => bitMask &&& ((1 : UInt64) <<< bit.toUInt64) != 0).map Nat.toUInt32,
    bitMask⟩

/-- One iteration of the loop of `init(path, bitMaskBinary, bitMaskLen)`, for the byte `byteAt`
at index `byte`: it adds to `_bitMask` and to `_bitPositions`. -/
def initBinaryByte (acc : UInt64 × List UInt32) (byteAt : Int8) (byte : ℕ) :
    UInt64 × List UInt32 :=
  if byteAt = 0 then acc
  else
    -- "Build _bitMask with the first 8 bytes of the bitMaskBinary": the `char` is widened to
    -- `uint64_t` with its sign
    let bitMask := if byte < 8 then acc.1 ||| (UInt64.ofInt byteAt.toInt <<< (byte * 8).toUInt64)
      else acc.1 ||| ((1 : UInt64) <<< 63)
    let bitPositions := acc.2 ++
      ((List.range 8).filter fun bit => byteAt.toInt32 &&& ((1 : Int32) <<< bit.toInt32) != 0).map
        fun bit => (8 * byte + bit).toUInt32
    (bitMask, bitPositions)

/-- `init(path, const char* bitMaskBinary, uint32_t bitMaskLen)`. -/
def initBinary (matchType : BitTestMatchType) (bitMaskBinary : List Int8) :
    BitTestMatchExpression :=
  let r := bitMaskBinary.zipIdx.foldl (fun acc e => initBinaryByte acc e.1 e.2) (0, [])
  ⟨matchType, r.2, r.1⟩

/-! ## Matching -/

/-- `performBitTest(long long eValue)`: the `long long` is converted to `uint64_t` for the `&`
with `_bitMask`. -/
def performBitTest (e : BitTestMatchExpression) (eValue : Int64) : Bool :=
  match e.matchType with
  | .bitsAllSet => eValue.toUInt64 &&& e.bitMask == e.bitMask
  | .bitsAllClear => ~~~eValue.toUInt64 &&& e.bitMask == e.bitMask
  | .bitsAnySet => eValue.toUInt64 &&& e.bitMask != 0
  | .bitsAnyClear => ~~~eValue.toUInt64 &&& e.bitMask != 0

/-- `needFurtherBitTests(isBitSet)`: the test is not decided by this bit. -/
def needFurtherBitTests (e : BitTestMatchExpression) (isBitSet : Bool) : Bool :=
  (isBitSet && (e.matchType == .bitsAllSet || e.matchType == .bitsAnyClear)) ||
    (!isBitSet && (e.matchType == .bitsAllClear || e.matchType == .bitsAnySet))

/-- `isBitSet` in `performBitTest(eBinary, eBinaryLen)`: "If position to test is longer than the
data to test against, zero-extend"; otherwise the bit of the byte, counted from the least
significant. -/
def binaryBit (eBinary : List Int8) (bitPosition : UInt32) : Bool :=
  if bitPosition.toNat ≥ eBinary.length * 8 then false
  else
    let byte := eBinary.getD (bitPosition.toNat / 8) 0
    byte.toInt32 &&& ((1 : Int32) <<< (bitPosition.toNat % 8).toInt32) != 0

/-- The loop of `performBitTest(eBinary, eBinaryLen)` over the positions left. -/
def performBitTestBinaryLoop (e : BitTestMatchExpression) (eBinary : List Int8) :
    List UInt32 → Bool
  -- "we succeeded with _ALL_ or failed with _ANY_"
  | [] => e.matchType == .bitsAllSet || e.matchType == .bitsAllClear
  | bitPosition :: bitPositions =>
      -- "we succeeded with _ANY_ or failed with _ALL_"
      if !e.needFurtherBitTests (binaryBit eBinary bitPosition) then
        e.matchType == .bitsAnySet || e.matchType == .bitsAnyClear
      else e.performBitTestBinaryLoop eBinary bitPositions

/-- `performBitTest(const char* eBinary, uint32_t eBinaryLen)`. -/
def performBitTestBinary (e : BitTestMatchExpression) (eBinary : List Int8) : Bool :=
  e.performBitTestBinaryLoop eBinary e.bitPositions

/-- `matchesSingleElement(e)`: numbers by the mask, BinData by the positions, nothing else. -/
def matchesSingleElement (e : BitTestMatchExpression) : BitTestElement → Bool
  | .number eValue => e.performBitTest eValue
  | .binData eBinary => e.performBitTestBinary eBinary
  | .other => false

end BitTestMatchExpression

end Mongo
