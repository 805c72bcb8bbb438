import Mongo.Bson.Validate

/-!
# Elements and the object iterator

`BSONElement::size()` (`bson/bsonelement.cpp`) computes the length of an element from its type
byte, its field name and the size fields of its value, and `BSONObjIterator` (`bson/bsonobj.h`)
steps through an object by those lengths.  Neither looks at the end of the buffer: both trust
that it was validated.

Pointers are integers here, since a size read from the buffer may be negative and is added to
the iterator's position as it is.  The memory is the validator's, and a read outside
`[0, maxLength)` makes the computation fail (`none`), as does the `massert` on an unknown type.
Sizes are `int` values: a `size_t` length converted to `int` keeps its low 32 bits (`toInt32`),
and the sums of `size()` are taken in `ℤ`.
-/

namespace Mongo

/-- The byte at `pos`, inside the buffer. -/
def byteAt (bytes : ℕ → UInt8) (maxLength : ℕ) (pos : ℤ) : Option UInt8 :=
  if 0 ≤ pos ∧ pos < maxLength then some (bytes pos.toNat) else none

/-- `ConstDataView(pos).read<LittleEndian<uint32_t>>()`, inside the buffer. -/
def uint32At (bytes : ℕ → UInt8) (maxLength : ℕ) (pos : ℤ) : Option ℕ :=
  if 0 ≤ pos ∧ pos + 4 ≤ maxLength then some (le32 bytes pos.toNat) else none

/-- `strlen(pos)`: the number of bytes before the first zero, which must lie inside the
buffer. -/
def strlen (bytes : ℕ → UInt8) (maxLength : ℕ) (pos : ℤ) : Option ℕ :=
  if 0 ≤ pos then
    match memchrZero bytes maxLength pos.toNat (maxLength - pos.toNat) with
    | .ok (some x) => some (x - pos.toNat)
    | _ => none
  else none

/-- The switch of `BSONElement::size()`: the length `x` of the value at `value`, which the type
fixes or the value's own size field gives (`valuestrsize()` is an `int`, `objsize()` a `uint32_t`,
both ending up in the `int` `x`). -/
def valueSize (bytes : ℕ → UInt8) (maxLength : ℕ) (type : Option BSONType) (value : ℤ) :
    Option ℤ :=
  let sizeField : Option ℤ := (fun u => toInt32 u) <$> uint32At bytes maxLength value
  match type with
  | some .undefined | some .jstNULL | some .maxKey | some .minKey => pure 0
  | some .bool => pure 1
  | some .numberInt => pure 4
  | some .bsonTimestamp | some .date | some .numberDouble | some .numberLong => pure 8
  | some .numberDecimal => pure 16
  | some .jstOID => pure 12
  | some .symbol | some .code | some .string => (· + 4) <$> sizeField
  | some .dbRef => (· + 4 + 12) <$> sizeField
  | some .codeWScope | some .object | some .array => sizeField
  | some .binData => (· + 4 + 1) <$> sizeField
  | some .regEx => do
      let len1 ← strlen bytes maxLength value
      let len2 ← strlen bytes maxLength (value + len1 + 1)
      pure (toInt32 (len1 + 1 + len2 + 1))
  -- `massert(10320, "BSONElement: bad type")`
  | some .eoo | none => none

/-- `BSONElement(pos).size()`: one for `EOO`, else the type byte, the field name with its zero
and the value. -/
def elementSize (bytes : ℕ → UInt8) (maxLength : ℕ) (pos : ℤ) : Option ℤ := do
  let type ← byteAt bytes maxLength pos
  -- the constructor sets `totalSize = 1` for `EOO`, which `size()` returns
  if type = 0 then pure 1
  else
    let fieldNameSize := toInt32 (← strlen bytes maxLength (pos + 1)) + 1
    let x ← valueSize bytes maxLength (BSONType.ofByte type) (pos + fieldNameSize + 1)
    pure (x + fieldNameSize + 1)

/-- `BSONObjIterator(obj)` for the object at `o`: `_pos` and `_theend`. -/
def iteratorOf (bytes : ℕ → UInt8) (maxLength : ℕ) (o : ℤ) : Option (ℤ × ℤ) := do
  let sz ← (fun u => toInt32 u) <$> uint32At bytes maxLength o
  if sz = 0 then pure (0, 0) else pure (o + 4, o + sz - 1)

/-- `while (it.more()) it.next();` from `pos`: the elements visited, as their positions and
`size()`s, for at most `fuel` calls of `more()`. -/
def visitElements (bytes : ℕ → UInt8) (maxLength : ℕ) (theEnd : ℤ) :
    ℕ → ℤ → Option (List (ℤ × ℤ))
  | 0, _ => none
  | fuel + 1, pos =>
      if pos < theEnd then do
        let size ← elementSize bytes maxLength pos
        let rest ← visitElements bytes maxLength theEnd fuel (pos + size)
        pure ((pos, size) :: rest)
      else pure []

/-- Iterating the object at `o` to its end. -/
def iterateObject (bytes : ℕ → UInt8) (maxLength : ℕ) (o : ℤ) (fuel : ℕ) :
    Option (List (ℤ × ℤ)) := do
  let (pos, theEnd) ← iteratorOf bytes maxLength o
  visitElements bytes maxLength theEnd fuel pos

end Mongo
