import Mongo.Bson.Buffer
import Mongo.Lib.Loop

/-!
# `validateBSON`

The validator of `bson/bson_validate.cpp` is an explicit-stack state machine.  Each open object
(and each `CodeWScope`) has a frame recording where it started and the size its header claims;
`validateElementInfo` checks one element and says whether it opens an object, a `CodeWScope`,
or ends the current object.  When an object ends, the distance from its start must equal the
claimed size.

The loop is modelled one iteration per `step`, and `run` iterates it with a fuel bound of
`4 * maxLength + 1` steps.  The bound is never reached (`Mongo.Bson.ValidateSpec`): each step
reads at least one byte or closes a frame.  `BeginObj` falls through to `WithinObj` in the
source; here it moves to `withinObj` and the next step continues there, which is the same
computation.
-/

namespace Mongo

/-- The BSON type codes of `bson/bsontypes.h`. -/
inductive BSONType
  | minKey | eoo | numberDouble | string | object | array | binData | undefined | jstOID | bool
  | date | jstNULL | regEx | dbRef | code | symbol | codeWScope | numberInt | bsonTimestamp
  | numberLong | numberDecimal | maxKey
  deriving DecidableEq, Repr

/-- The type of a `signed char` type byte, if it names one: `MinKey = -1` is the byte `0xFF`. -/
def BSONType.ofByte (t : UInt8) : Option BSONType :=
  match t.toNat with
  | 0 => some .eoo | 1 => some .numberDouble | 2 => some .string | 3 => some .object
  | 4 => some .array | 5 => some .binData | 6 => some .undefined | 7 => some .jstOID
  | 8 => some .bool | 9 => some .date | 10 => some .jstNULL | 11 => some .regEx
  | 12 => some .dbRef | 13 => some .code | 14 => some .symbol | 15 => some .codeWScope
  | 16 => some .numberInt | 17 => some .bsonTimestamp | 18 => some .numberLong
  | 19 => some .numberDecimal | 127 => some .maxKey | 255 => some .minKey
  | _ => none

/-- `ValidationState::State`. -/
inductive ValidationState
  | beginObj | withinObj | endObj | beginCodeWScope | endCodeWScope | done
  deriving DecidableEq, Repr

/-- `ValidationObjectFrame`: the start position (its low 31 bits), whether the frame is a
`CodeWScope`, and the size the header claims. -/
structure ValidationObjectFrame where
  startPosition : ℕ
  isCodeWithScope : Bool
  expectedSize : ℤ

/-- The switch of `validateElementInfo` on the type of an element whose name has been read:
the state to go to and the buffer after the value.  The value of an object, array or
`CodeWScope` is left to the state machine. -/
def validateValue (type : Option BSONType) (elemName : List UInt8) (buf : Buffer) :
    Except ValidationError (ValidationState × Buffer) :=
  let fail (baseMsg : String) : Except ValidationError (ValidationState × Buffer) :=
    throw (.invalid baseMsg elemName)
  let skipped (sz : ℕ) (baseMsg : String) : Except ValidationError (ValidationState × Buffer) :=
    match buf.skip sz with
    | some buf => pure (.withinObj, buf)
    | none => fail baseMsg
  match type with
  | some .minKey | some .maxKey | some .jstNULL | some .undefined => pure (.withinObj, buf)
  | some .jstOID => skipped 12 "invalid bson"
  | some .numberInt => skipped 4 "invalid bson"
  | some .bool =>
      match buf.readByte with
      | none => fail "invalid bson"
      | some (val, buf) =>
          if val ≠ 0 ∧ val ≠ 1 then fail "invalid boolean value" else pure (.withinObj, buf)
  | some .numberDouble | some .numberLong | some .bsonTimestamp | some .date =>
      skipped 8 "invalid bson"
  | some .numberDecimal => skipped 16 "Invalid bson"
  | some .dbRef => do
      let buf ← buf.readUTF8String elemName
      match buf.skip 12 with
      | some buf => pure (.withinObj, buf)
      | none => fail "invalid bson length"
  | some .regEx => do
      let (_, buf) ← buf.readCString elemName
      let (_, buf) ← buf.readCString elemName
      pure (.withinObj, buf)
  | some .code | some .symbol | some .string => do
      let buf ← buf.readUTF8String elemName
      pure (.withinObj, buf)
  | some .binData =>
      match buf.readInt with
      | none => fail "invalid bson"
      | some (sz, buf') =>
          if sz < 0 ∨ sz = 2147483647 then fail "invalid size in bson"
          else match buf'.skip (1 + sz).toNat with
            | some buf'' => pure (.withinObj, buf'')
            | none => fail "invalid bson"
  | some .codeWScope => pure (.beginCodeWScope, buf)
  | some .object | some .array => pure (.beginObj, buf)
  | some .eoo | none => fail "invalid bson type"

/-- `validateElementInfo`: the type byte, then (unless it is `EOO`) the field name and the
value.  Returns the next state, the field name and the buffer. -/
def validateElementInfo (buf : Buffer) :
    Except ValidationError (ValidationState × List UInt8 × Buffer) :=
  match buf.readByte with
  | none => throw (.invalid "invalid bson" [])
  | some (type, buf) =>
      if type = 0 then pure (.endObj, [], buf)
      else do
        let (elemName, buf) ← buf.readCString []
        let (next, buf) ← validateValue (BSONType.ofByte type) elemName buf
        pure (next, elemName, buf)

/-- The state of `validateBSONIterative`: the buffer, the stack of frames (its head is
`frames.back()`, that is `curr`), and the state. -/
structure Validator where
  buffer : Buffer
  frames : List ValidationObjectFrame
  state : ValidationState

/-- `setStartPosition(buffer->position())`: the position converted to `int`, bit 31 cleared. -/
def startPositionOf (position : ℕ) : ℕ :=
  position % 2 ^ 31

/-- One iteration of the loop of `validateBSONIterative`. -/
def step (maxDepth : ℕ) (v : Validator) : Except ValidationError Validator :=
  match v.state with
  | .beginObj =>
      if v.frames.length > maxDepth then throw (.depthExceeded maxDepth)
      else match v.buffer.readInt with
        | none => throw (.invalid "bson size is larger than buffer size" [])
        | some (expectedSize, buf) =>
            pure ⟨buf, ⟨startPositionOf v.buffer.position, false, expectedSize⟩ :: v.frames,
              .withinObj⟩
  | .withinObj => do
      let (next, _, buf) ← validateElementInfo v.buffer
      pure { v with buffer := buf, state := next }
  | .endObj =>
      match v.frames with
      | [] => throw .noFrame
      | curr :: rest =>
          if toInt32 (v.buffer.position - curr.startPosition) ≠ curr.expectedSize then
            throw (.invalid "bson length doesn't match what we found" [])
          else match rest with
            | [] => pure { v with frames := [], state := .done }
            | parent :: _ =>
                let next := if parent.isCodeWithScope then .endCodeWScope else .withinObj
                pure { v with frames := rest, state := next }
  | .beginCodeWScope =>
      match v.buffer.readInt with
      | none => throw (.invalid "invalid bson CodeWScope size" [])
      | some (expectedSize, buf) => do
          let buf ← buf.readUTF8String []
          pure ⟨buf, ⟨startPositionOf v.buffer.position, true, expectedSize⟩ :: v.frames,
            .beginObj⟩
  | .endCodeWScope =>
      match v.frames with
      | [] => throw .noFrame
      | curr :: rest =>
          if toInt32 (v.buffer.position - curr.startPosition) ≠ curr.expectedSize then
            throw (.invalid "bson length for CodeWScope doesn't match what we found" [])
          else match rest with
            | [] => throw (.invalid "unnested CodeWScope" [])
            | _ => pure { v with frames := rest, state := .withinObj }
  | .done => pure v

/-- `while (state != Done)`, for at most `fuel` iterations. -/
def run (maxDepth fuel : ℕ) (v : Validator) : Except ValidationError Unit :=
  Loop.run (fun v => v.state = .done) (step maxDepth) .outOfFuel fuel v

/-- `validateBSONIterative(buffer)`, from `BeginObj` with no frame. -/
def validateBSONIterative (maxDepth : ℕ) (buf : Buffer) : Except ValidationError Unit :=
  run maxDepth (4 * buf.maxLength + 1) ⟨buf, [], .beginObj⟩

/-- `validateBSON(originalBuffer, maxLength, version)` with `BSONDepth::getMaxAllowableDepth()`
equal to `maxDepth`.  The BSON version is not read by the validation. -/
def validateBSON (maxDepth : ℕ) (bytes : ℕ → UInt8) (maxLength : ℕ) :
    Except ValidationError Unit :=
  if maxLength < 5 then throw .tooShort
  else validateBSONIterative maxDepth ⟨bytes, 0, maxLength⟩

/-- `BSONDepth::kDefaultMaxAllowableDepth`. -/
def kDefaultMaxAllowableDepth : ℕ := 200

end Mongo
