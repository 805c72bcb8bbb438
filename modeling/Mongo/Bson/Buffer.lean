import Mathlib
import Mongo.Lib.Except

/-!
# The validator's view of a byte buffer

`validateBSON(buffer, maxLength)` (`bson/bson_validate.cpp`) reads a document through a small
`Buffer` class: a base pointer, a read position and a length.  The memory is modelled as a
function from addresses to bytes, so that the buffer says nothing about what lies past
`maxLength`; every byte the model reads outside `[0, maxLength)` is reported as `outOfBounds`,
which is how "no read outside the buffer" becomes a statement about results.

Machine integers are explicit: an `int` read from the buffer is the two's complement value of
four little-endian bytes (`readInt32`), an `int` assigned from an unsigned value keeps its low
32 bits (`toInt32`), and `_maxLength - _position` is a `uint64_t` difference.  Positions are
natural numbers: they never exceed `maxLength` by more than `2^31`, so the 64-bit sums do not
wrap for any buffer that fits in memory.
-/

namespace Mongo

/-- `ErrorCodes::InvalidBSON` and `ErrorCodes::Overflow` statuses, and the two ways the model
itself can stop: a byte read outside the buffer, and running out of fuel. -/
inductive ValidationError
  /-- `makeError(baseMsg, idElem, elemName)`: an `InvalidBSON` status.  The `_id` element the
  message names is left out. -/
  | invalid (baseMsg : String) (elemName : List UInt8)
  /-- "bson data has to be at least 5 bytes". -/
  | tooShort
  /-- `Overflow`: "BSONObj exceeded maximum nested object depth: " and the limit. -/
  | depthExceeded (maxDepth : ℕ)
  /-- A read of the byte at `index`, outside `[0, maxLength)`: undefined behaviour. -/
  | outOfBounds (index : ℕ)
  /-- The validation loop was given too few steps. -/
  | outOfFuel
  /-- `curr` dereferenced with no frame open, which the source never does. -/
  | noFrame
  deriving DecidableEq, Repr

/-! ## Machine integers -/

/-- The unsigned value of four little-endian bytes at `p`. -/
def le32 (bytes : ℕ → UInt8) (p : ℕ) : ℕ :=
  (bytes p).toNat + 2 ^ 8 * (bytes (p + 1)).toNat + 2 ^ 16 * (bytes (p + 2)).toNat +
    2 ^ 24 * (bytes (p + 3)).toNat

/-- `int` conversion of an unsigned value: the low 32 bits, read in two's complement. -/
def toInt32 (x : ℕ) : ℤ :=
  if x % 2 ^ 32 < 2 ^ 31 then (x % 2 ^ 32 : ℕ) else (x % 2 ^ 32 : ℕ) - 2 ^ 32

/-- `ConstDataView(p).read<LittleEndian<int>>()`. -/
def readInt32 (bytes : ℕ → UInt8) (p : ℕ) : ℤ :=
  toInt32 (le32 bytes p)

theorem toInt32_of_lt {x : ℕ} (hx : x < 2 ^ 31) : toInt32 x = x := by
  have hmod : x % 2 ^ 32 = x := Nat.mod_eq_of_lt (by omega)
  rw [toInt32, hmod, if_pos hx]

theorem le32_lt (bytes : ℕ → UInt8) (p : ℕ) : le32 bytes p < 2 ^ 32 := by
  have h₀ := (bytes p).toNat_lt
  have h₁ := (bytes (p + 1)).toNat_lt
  have h₂ := (bytes (p + 2)).toNat_lt
  have h₃ := (bytes (p + 3)).toNat_lt
  unfold le32
  omega

theorem toInt32_lt (x : ℕ) : toInt32 x < 2 ^ 31 := by
  unfold toInt32
  split_ifs <;> omega

theorem neg_le_toInt32 (x : ℕ) : -2 ^ 31 ≤ toInt32 x := by
  unfold toInt32
  split_ifs <;> omega

/-- The value read is the unsigned one, shifted down by `2^32` when the sign bit is set. -/
theorem readInt32_eq (bytes : ℕ → UInt8) (p : ℕ) :
    readInt32 bytes p =
      if le32 bytes p < 2 ^ 31 then (le32 bytes p : ℤ) else (le32 bytes p : ℤ) - 2 ^ 32 := by
  rw [readInt32, toInt32, Nat.mod_eq_of_lt (le32_lt bytes p)]

/-! ## The buffer -/

/-- A `Buffer`: the memory behind `_buffer`, the read position and `_maxLength`. -/
structure Buffer where
  bytes : ℕ → UInt8
  position : ℕ
  maxLength : ℕ

namespace Buffer

/-- `readNumber<N>` for an `N` of `size` bytes, decoded by `decode`: `none` is `return false`. -/
def readNumber {α : Type} (buf : Buffer) (size : ℕ) (decode : (ℕ → UInt8) → ℕ → α) :
    Option (α × Buffer) :=
  if buf.position + size > buf.maxLength then none
  else some (decode buf.bytes buf.position, { buf with position := buf.position + size })

/-- `readNumber<int>`. -/
def readInt (buf : Buffer) : Option (ℤ × Buffer) :=
  buf.readNumber 4 readInt32

/-- `readNumber<char>`, `readNumber<signed char>` and `readNumber<uint8_t>`: one byte. -/
def readByte (buf : Buffer) : Option (UInt8 × Buffer) :=
  buf.readNumber 1 fun bytes p => bytes p

/-- `skip(sz)`: advance, and report whether the position is still strictly inside the
buffer. -/
def skip (buf : Buffer) (sz : ℕ) : Option Buffer :=
  if buf.position + sz < buf.maxLength then some { buf with position := buf.position + sz }
  else none

end Buffer

/-- `memchr(bytes + start, 0, count)`: the address of the first zero byte among the `count`
bytes from `start`.  Every byte it looks at must lie below `maxLength`. -/
def memchrZero (bytes : ℕ → UInt8) (maxLength : ℕ) (start : ℕ) :
    ℕ → Except ValidationError (Option ℕ)
  | 0 => .ok none
  | count + 1 =>
      if start < maxLength then
        if bytes start = 0 then .ok (some start)
        else memchrZero bytes maxLength (start + 1) count
      else .error (.outOfBounds start)

namespace Buffer

/-- `readCString(elemName, &out)`: the bytes up to the next zero, which is consumed.  The count
given to `memchr` is the `uint64_t` difference `_maxLength - _position`. -/
def readCString (buf : Buffer) (elemName : List UInt8) :
    Except ValidationError (List UInt8 × Buffer) := do
  let count := (buf.maxLength + 2 ^ 64 - buf.position) % 2 ^ 64
  match ← memchrZero buf.bytes buf.maxLength buf.position count with
  | none => throw (.invalid "no end of c-string" elemName)
  | some x =>
      let len := x - buf.position
      pure ((List.range len).map (fun i => buf.bytes (buf.position + i)),
        { buf with position := buf.position + len + 1 })

/-- `readUTF8String(elemName, nullptr)`: an `int` size, positive, then that many bytes of
which the last is zero. -/
def readUTF8String (buf : Buffer) (elemName : List UInt8) : Except ValidationError Buffer :=
  match buf.readInt with
  | none => throw (.invalid "invalid bson" elemName)
  | some (sz, buf) =>
      if sz ≤ 0 then throw (.invalid "invalid bson" elemName)
      else match buf.skip (sz - 1).toNat with
        | none => throw (.invalid "invalid bson" elemName)
        | some buf => match buf.readByte with
          | none => throw (.invalid "invalid bson" elemName)
          | some (c, buf) =>
              if c ≠ 0 then throw (.invalid "not null terminated string" elemName)
              else pure buf

end Buffer

end Mongo
