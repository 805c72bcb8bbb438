import Mathlib

/-!
# BSON values

A BSON value as a tree: an object or an array holds its elements, each a field name (its bytes,
without the NUL) and a value.  An array is an object whose names are its indices, so it keeps
its names too.  A value carries what is read of it above the bytes: the bit pattern of a double,
the lengths of strings, and of a `Decimal128` what `_appendNumberDecimal` asks of it.

`valueSize` is the number of bytes the value takes in a document (`bsonspec.org`), and
`elementsSize` the bytes of a list of elements; a document is four size bytes, its elements and
a zero byte (`objSize`).
-/

namespace Mongo

/-- What `isZero()`, `isNaN()` and `isInfinite()` say of a `Decimal128`. -/
inductive DecimalClass
  | zero
  | nan
  | infinite
  | finite
  deriving DecidableEq, Repr

/-- A `Decimal128`, as `KeyString::_appendNumberDecimal` reads it before its encoding:
`isNegative()`, the class, and `getBiasedExponent()`, which reads 14 bits of the combination
field. -/
structure Decimal128 where
  isNegative : Bool
  cls : DecimalClass
  biasedExponent : ℕ
  biasedExponent_lt : biasedExponent < 2 ^ 14
  deriving DecidableEq, Repr

/-- A BSON value.  The payloads kept are those the functions below read. -/
inductive BSONValue
  | minKey
  | maxKey
  | undefined
  | null
  /-- A double, by its IEEE bits. -/
  | numberDouble (bits : UInt64)
  | string (bytes : List UInt8)
  | object (elems : List (List UInt8 × BSONValue))
  | array (elems : List (List UInt8 × BSONValue))
  | binData (bytes : List UInt8)
  | oid
  | bool
  | date
  | regEx (pattern flags : List UInt8)
  | dbRef (ns : List UInt8)
  | code (bytes : List UInt8)
  | symbol (bytes : List UInt8)
  | codeWScope (code : List UInt8) (scope : List (List UInt8 × BSONValue))
  | numberInt
  | timestamp
  | numberLong
  | numberDecimal (dec : Decimal128)
  deriving Repr

namespace BSONValue

mutual

/-- The bytes a value takes in a document. -/
def valueSize : BSONValue → ℕ
  | .minKey | .maxKey | .undefined | .null => 0
  | .numberDouble _ | .date | .timestamp | .numberLong => 8
  | .string bytes | .code bytes | .symbol bytes => 4 + bytes.length + 1
  | .object elems | .array elems => 4 + elementsSize elems + 1
  | .binData bytes => 4 + 1 + bytes.length
  | .oid => 12
  | .bool => 1
  | .regEx pattern flags => pattern.length + 1 + flags.length + 1
  | .dbRef ns => 4 + ns.length + 1 + 12
  | .codeWScope c scope => 4 + (4 + c.length + 1) + (4 + elementsSize scope + 1)
  | .numberInt => 4
  | .numberDecimal _ => 16

/-- The bytes a list of elements takes: per element a type byte, the name and its NUL, and the
value. -/
def elementsSize : List (List UInt8 × BSONValue) → ℕ
  | [] => 0
  | (name, value) :: rest => 1 + (name.length + 1) + valueSize value + elementsSize rest

end

end BSONValue

/-- The bytes of a document with these elements: `objsize()`. -/
def objSize (elems : List (List UInt8 × BSONValue)) : ℕ :=
  4 + BSONValue.elementsSize elems + 1

end Mongo
