import Mathlib
import Mongo.Lib.Loop

/-!
# Decompressing an FTDC metrics chunk

`FTDCDecompressor::uncompress` (`db/ftdc/decompressor.cpp`) reads a metrics chunk:

* a little-endian `uint32` length, then a zlib stream that inflates to at most that many bytes;
* in the inflated buffer: the reference document, the number of metrics and the number of
  samples, each a `uint32`, then the run-length coded deltas as varints.  A zero delta is
  followed by the number of zeroes after it.

It extracts the metrics of the reference document (`extractMetricsFromDocument`).  It decodes
the deltas into a vector of `metricsCount * sampleCount` entries, indexed by
`FTDCCompressor::getArrayOffset(sampleCount, sample, metric)`.  It adds the deltas up, and
rebuilds a document from each sample's metrics (`constructDocumentFromMetrics`).

The zlib step and the loading of the validated reference document are parameters: any function
from the input to a result.  What FTDC reads of a BSON document is `Elements`: the numbers by
`numberLong()`, booleans, dates and timestamps that are metrics, nested objects and arrays, and
every other value, which is copied.

Where the code does what the C++ standard leaves undefined, the model stops with an
`UndefinedBehavior`.  That happens on an index past the end of `deltas`, and on `getValue()` of a
`StatusWith` that holds a status.  A `StatusWith` built from a status keeps that status even when
it is OK; only a debug build's `dassert` refuses one.
-/

namespace Mongo
namespace Ftdc

/-- The codes of the statuses these functions return. -/
inductive ErrorCodes
  | overflow
  | invalidLength
  | badValue
  /-- Any other code, as the zlib step and the document loader may return. -/
  | other (code : ℕ)
  deriving DecidableEq, Repr

/-- A `Status` that is not OK. -/
structure Status where
  code : ErrorCodes
  reason : String
  deriving DecidableEq, Repr

/-- `StatusWith<T>`: a value, or the `Status` it was built from, `none` being `Status::OK()`. -/
inductive StatusWith (α : Type)
  | value (v : α)
  | status (s : Option Status)
  deriving DecidableEq, Repr

/-- What the decompressor does that the C++ standard leaves undefined. -/
inductive UndefinedBehavior
  /-- `deltas[index]` past the end of the vector. -/
  | outOfRange (index size : ℕ)
  /-- `getValue()` of a `StatusWith` that holds a status. -/
  | getValueOfStatus (s : Option Status)
  deriving DecidableEq, Repr

/-! ## The reference document -/

mutual

/-- What FTDC reads of a BSON value. -/
inductive Value
  /-- A `NumberDouble`, `NumberInt`, `NumberLong` or `NumberDecimal`, by the bits of its
  `numberLong()`. -/
  | number (n : UInt64)
  | bool (b : Bool)
  /-- A `Date`, by the bits of its `toMillisSinceEpoch()`. -/
  | date (millis : UInt64)
  | timestamp (secs inc : UInt32)
  | object (elements : Elements)
  | array (elements : Elements)
  /-- Any other value, which is no metric. -/
  | other
  deriving DecidableEq, Repr

/-- The elements of a document, in order. -/
inductive Elements
  | nil
  | cons (fieldName : String) (value : Value) (rest : Elements)
  deriving DecidableEq, Repr

end

/-- `kMaxRecursion`: the deepest nesting the two functions below follow. -/
def kMaxRecursion : ℕ := 10

/-- The status of a nesting deeper than `kMaxRecursion`. -/
def recursionLimitReached : Status :=
  ⟨.badValue, "Recursion limit reached."⟩

mutual

/-- The loop of `extractMetricsFromDocument(ref, ref, metrics, true, recursion)` over the elements.
It returns the status and the metrics appended so far.  A document compared with itself always
matches its schema, so only the metrics and the recursion limit count. -/
def extractElements (recursion : ℕ) : Elements → List UInt64 → Option Status × List UInt64
  | .nil, metrics => (none, metrics)
  | .cons _ value rest, metrics =>
      match extractValue recursion value metrics with
      | (some status, metrics) => (some status, metrics)
      | (none, metrics) => extractElements recursion rest metrics

/-- The `switch` of `extractMetricsFromDocument` on one element. -/
def extractValue (recursion : ℕ) : Value → List UInt64 → Option Status × List UInt64
  | .number n, metrics => (none, metrics ++ [n])
  | .bool b, metrics => (none, metrics ++ [if b then 1 else 0])
  | .date millis, metrics => (none, metrics ++ [millis])
  | .timestamp secs inc, metrics => (none, metrics ++ [secs.toUInt64, inc.toUInt64])
  -- the recursive call checks the limit on entry
  | .object elements, metrics =>
      if recursion + 1 > kMaxRecursion then (some recursionLimitReached, metrics)
      else extractElements (recursion + 1) elements metrics
  | .array elements, metrics =>
      if recursion + 1 > kMaxRecursion then (some recursionLimitReached, metrics)
      else extractElements (recursion + 1) elements metrics
  | .other, metrics => (none, metrics)

end

/-- `extractMetricsFromDocument(ref, ref, &metrics)`: the status, and the metrics appended to
`metrics`, also those appended before a failure. -/
def extractMetricsFromDocument (ref : Elements) (metrics : List UInt64) :
    Option Status × List UInt64 :=
  extractElements 0 ref metrics

/-- The status of a reference document with more metrics than there are. -/
def moreMetricsThanExpected : Status :=
  ⟨.badValue, "There are more metrics in the reference document then expected."⟩

mutual

/-- The loop of `constructDocumentFromMetrics(ref, builder, metrics, pos, recursion)` over the
elements: the elements built and the position in `metrics` after them. -/
def constructElements (metrics : List UInt64) (recursion : ℕ) :
    Elements → ℕ → Except Status (Elements × ℕ)
  | .nil, pos => .ok (.nil, pos)
  | .cons fieldName value rest, pos =>
      match constructValue metrics recursion value pos with
      | .error status => .error status
      | .ok (value, pos) =>
          match constructElements metrics recursion rest pos with
          | .error status => .error status
          | .ok (rest, pos) => .ok (.cons fieldName value rest, pos)

/-- The `switch` of `constructDocumentFromMetrics` on one element.  A number is rebuilt as a
`NumberLong`, and a timestamp from two metrics, each cut to an `unsigned`. -/
def constructValue (metrics : List UInt64) (recursion : ℕ) :
    Value → ℕ → Except Status (Value × ℕ)
  | .number _, pos =>
      if pos ≥ metrics.length then .error moreMetricsThanExpected
      else .ok (.number (metrics.getD pos 0), pos + 1)
  | .bool _, pos =>
      if pos ≥ metrics.length then .error moreMetricsThanExpected
      else .ok (.bool (metrics.getD pos 0 != 0), pos + 1)
  | .date _, pos =>
      if pos ≥ metrics.length then .error moreMetricsThanExpected
      else .ok (.date (metrics.getD pos 0), pos + 1)
  | .timestamp _ _, pos =>
      if pos + 1 ≥ metrics.length then .error moreMetricsThanExpected
      else .ok (.timestamp (metrics.getD pos 0).toUInt32 (metrics.getD (pos + 1) 0).toUInt32,
        pos + 2)
  | .object elements, pos =>
      if recursion + 1 > kMaxRecursion then .error recursionLimitReached
      else
        match constructElements metrics (recursion + 1) elements pos with
        | .error status => .error status
        | .ok (elements, pos) => .ok (.object elements, pos)
  | .array elements, pos =>
      if recursion + 1 > kMaxRecursion then .error recursionLimitReached
      else
        match constructElements metrics (recursion + 1) elements pos with
        | .error status => .error status
        | .ok (elements, pos) => .ok (.array elements, pos)
  | .other, pos => .ok (.other, pos)

end

/-- `constructDocumentFromMetrics(ref, metrics)`. -/
def constructDocumentFromMetrics (ref : Elements) (metrics : List UInt64) : StatusWith Elements :=
  match constructElements metrics 0 ref 0 with
  | .error status => .status (some status)
  | .ok (doc, _) => .value doc

/-! ## Reading the buffer -/

/-- A `ConstDataRangeCursor`: the bytes left, and the offset its error messages name. -/
structure ConstDataRangeCursor where
  data : List UInt8
  debugOffset : ℕ
  deriving DecidableEq, Repr

/-- `DataType::makeTrivialLoadStatus(sizeOfT, length, debug_offset)`. -/
def makeTrivialLoadStatus (sizeOfT length debugOffset : ℕ) : Status :=
  ⟨.overflow, "buffer size too small to read (" ++ toString sizeOfT ++ ") bytes out of buffer[" ++
    toString length ++ "] at offset: " ++ toString debugOffset⟩

namespace ConstDataRangeCursor

variable (c : ConstDataRangeCursor)

/-- The cursor after `advanced` bytes. -/
def advance (advanced : ℕ) : ConstDataRangeCursor :=
  ⟨c.data.drop advanced, c.debugOffset + advanced⟩

/-- `readAndAdvance<LittleEndian<std::uint32_t>>()`. -/
def readUInt32 : Except Status (UInt32 × ConstDataRangeCursor) :=
  match c.data with
  | b₀ :: b₁ :: b₂ :: b₃ :: _ =>
      .ok ((b₀.toNat + 2 ^ 8 * b₁.toNat + 2 ^ 16 * b₂.toNat + 2 ^ 24 * b₃.toNat).toUInt32,
        c.advance 4)
  | _ => .error (makeTrivialLoadStatus 4 c.data.length c.debugOffset)

end ConstDataRangeCursor

/-- The bytes of a varint from the `i`-th on, with `result` read before it: the value and the
number of bytes read, or `none`.  The tenth byte must be below `lastByteBound`. -/
def parseVarIntFrom (lastByteBound : UInt8) : ℕ → UInt64 → List UInt8 → Option (UInt64 × ℕ)
  | _, _, [] => none
  | i, result, b :: rest =>
      let result := result ||| ((b &&& 127).toUInt64 <<< (7 * i).toUInt64)
      if i = 9 then
        if b < lastByteBound then some (result, 10) else none
      else if b < 128 then some (result, i + 1)
      else parseVarIntFrom lastByteBound (i + 1) result rest

/-- `Varint::Parse64WithLimit`.  With ten bytes left it is `Parse64`, which takes any tenth byte
below 128 and keeps bit 63 of it; with fewer, the tenth byte must be 0 or 1. -/
def parse64WithLimit (data : List UInt8) : Option (UInt64 × ℕ) :=
  parseVarIntFrom (if 10 ≤ data.length then 128 else 2) 0 0 data

/-- `FTDCVarInt::kMaxSizeBytes64`. -/
def kMaxSizeBytes64 : ℕ := 10

/-- `readAndAdvance<FTDCVarInt>()`. -/
def ConstDataRangeCursor.readVarInt (c : ConstDataRangeCursor) :
    Except Status (UInt64 × ConstDataRangeCursor) :=
  match parse64WithLimit c.data with
  | none => .error (makeTrivialLoadStatus kMaxSizeBytes64 c.data.length c.debugOffset)
  | some (value, advanced) => .ok (value, c.advance advanced)

/-! ## The deltas -/

/-- `FTDCCompressor::getArrayOffset(sampleCount, sample, metric)`: `metric * sampleCount + sample`
in `uint32_t`, widened to `size_t`. -/
def getArrayOffset (sampleCount sample metric : UInt32) : ℕ :=
  (metric * sampleCount + sample).toNat

/-- `deltas[index]`, or undefined behaviour past the end. -/
def getDelta (deltas : List UInt64) (index : ℕ) : Except UndefinedBehavior UInt64 :=
  if index < deltas.length then .ok (deltas.getD index 0)
  else .error (.outOfRange index deltas.length)

/-- `deltas[index] = value`, or undefined behaviour past the end. -/
def setDelta (deltas : List UInt64) (index : ℕ) (value : UInt64) :
    Except UndefinedBehavior (List UInt64) :=
  if index < deltas.length then .ok (deltas.set index value)
  else .error (.outOfRange index deltas.length)

/-- What the decoding loop carries: the cursor `cdrc`, `zeroesCount` and the deltas. -/
structure DecodeState where
  cdrc : ConstDataRangeCursor
  zeroesCount : UInt64
  deltas : List UInt64
  deriving DecidableEq, Repr

/-- The body of the decoding loop for sample `j` of metric `i`.  An early `return` carries the
status it returns. -/
def decodeDelta (sampleCount : UInt32) (i j : ℕ) (s : DecodeState) :
    Except UndefinedBehavior (Except (Option Status) DecodeState) :=
  if s.zeroesCount ≠ 0 then
    match setDelta s.deltas (getArrayOffset sampleCount j.toUInt32 i.toUInt32) 0 with
    | .error ub => .error ub
    | .ok deltas => .ok (.ok ⟨s.cdrc, s.zeroesCount - 1, deltas⟩)
  else
    match s.cdrc.readVarInt with
    | .error status => .ok (.error (some status))
    | .ok (delta, cdrc) =>
        let zeroes : Except (Option Status) (UInt64 × ConstDataRangeCursor) :=
          if delta = 0 then
            match cdrc.readVarInt with
            -- `return swDelta.getStatus();`: the status of the first read, which is OK
            | .error _ => .error none
            | .ok (zeroesCount, cdrc) => .ok (zeroesCount, cdrc)
          else .ok (s.zeroesCount, cdrc)
        match zeroes with
        | .error status => .ok (.error status)
        | .ok (zeroesCount, cdrc) =>
            match setDelta s.deltas (getArrayOffset sampleCount j.toUInt32 i.toUInt32) delta with
            | .error ub => .error ub
            | .ok deltas => .ok (.ok ⟨cdrc, zeroesCount, deltas⟩)

/-- `deltas[getArrayOffset(sampleCount, 0, i)] += metrics[i]`. -/
def addMetric (sampleCount : UInt32) (metrics : List UInt64) (i : ℕ)
    (deltas : List UInt64) : Except UndefinedBehavior (Except Empty (List UInt64)) := do
  let index := getArrayOffset sampleCount 0 i.toUInt32
  let delta ← getDelta deltas index
  let deltas ← setDelta deltas index (delta + metrics.getD i 0)
  pure (.ok deltas)

/-- `deltas[getArrayOffset(sampleCount, j, i)] += deltas[getArrayOffset(sampleCount, j - 1, i)]`. -/
def addPrevious (sampleCount : UInt32) (i j : ℕ) (deltas : List UInt64) :
    Except UndefinedBehavior (Except Empty (List UInt64)) := do
  let index := getArrayOffset sampleCount j.toUInt32 i.toUInt32
  let previous ← getDelta deltas (getArrayOffset sampleCount (j.toUInt32 - 1) i.toUInt32)
  let delta ← getDelta deltas index
  let deltas ← setDelta deltas index (delta + previous)
  pure (.ok deltas)

/-- The metrics of sample `i`: `metrics[j] = deltas[j * sampleCount + i]` for every metric `j`,
the index taken in `uint32_t`. -/
def sampleMetrics (sampleCount metricsCount : UInt32) (i : ℕ) (deltas : List UInt64) :
    Except UndefinedBehavior (List UInt64) :=
  (List.range metricsCount.toNat).mapM fun j =>
    getDelta deltas (j.toUInt32 * sampleCount + i.toUInt32).toNat

/-- One iteration of the last loop: rebuild sample `i` and take the value of
`constructDocumentFromMetrics`. -/
def rebuildSample (ref : Elements) (sampleCount metricsCount : UInt32) (deltas : List UInt64)
    (i : ℕ) (docs : List Elements) :
    Except UndefinedBehavior (Except Empty (List Elements)) := do
  let metrics ← sampleMetrics sampleCount metricsCount i deltas
  match constructDocumentFromMetrics ref metrics with
  | .value doc => pure (.ok (docs ++ [doc]))
  | .status s => .error (.getValueOfStatus s)

/-- The loops after the reference document: decode the deltas, add them up and rebuild the
samples.  A `sampleCount` of zero returns before them. -/
def decodeSamples (ref : Elements) (metrics : List UInt64) (metricsCount sampleCount : UInt32)
    (cdc : ConstDataRangeCursor) : Except UndefinedBehavior (StatusWith (List Elements)) :=
  let docs := [ref]
  if sampleCount = 0 then .ok (.value docs)
  else
    let deltas := List.replicate (metricsCount * sampleCount).toNat 0
    let decode := Loop.forRange (fun i s =>
      Loop.forRange (decodeDelta sampleCount i) 0 sampleCount.toNat s) 0 metricsCount.toNat
      (⟨cdc, 0, deltas⟩ : DecodeState)
    match decode with
    | .error ub => .error ub
    | .ok (.error status) => .ok (.status status)
    | .ok (.ok s) => do
        let .ok deltas ← Loop.forRange (addMetric sampleCount metrics) 0 metricsCount.toNat
          s.deltas
        let .ok deltas ← Loop.forRange (fun i deltas =>
          Loop.forRange (addPrevious sampleCount i) 1 (sampleCount.toNat - 1) deltas)
          0 metricsCount.toNat deltas
        let .ok docs ← Loop.forRange (rebuildSample ref sampleCount metricsCount deltas) 0
          sampleCount.toNat docs
        pure (.value docs)

section

variable (loadValidatedBSONObj : List UInt8 → Except Status (Elements × ℕ))

/-- The part of `uncompress` that reads the inflated buffer `uncompressed`.
`loadValidatedBSONObj` is `readAndAdvance<Validated<BSONObj>>()`: the document and its size, or
the status of its validation. -/
def readUncompressed (uncompressed : List UInt8) :
    Except UndefinedBehavior (StatusWith (List Elements)) :=
  let cdc : ConstDataRangeCursor := ⟨uncompressed, 0⟩
  match loadValidatedBSONObj cdc.data with
  | .error status => .ok (.status (some status))
  | .ok (ref, objsize) =>
  let cdc := cdc.advance objsize
  match cdc.readUInt32 with
  | .error status => .ok (.status (some status))
  | .ok (metricsCount, cdc) =>
  match cdc.readUInt32 with
  | .error status => .ok (.status (some status))
  | .ok (sampleCount, cdc) =>
  -- the product is a `uint32_t`
  if (metricsCount * sampleCount).toNat > 1000000 then
    .ok (.status (some ⟨.invalidLength,
      "Metrics Count and Sample Count have exceeded the allowable range."⟩))
  else
  -- the status of the extraction is ignored
  let metrics := (extractMetricsFromDocument ref []).2
  if metrics.length ≠ metricsCount.toNat then
    .ok (.status (some ⟨.badValue,
      "The metrics in the reference document and metrics count do not match"⟩))
  else decodeSamples ref metrics metricsCount sampleCount cdc

variable (uncompressBlock : ConstDataRangeCursor → ℕ → Except Status (List UInt8))

/-- `FTDCDecompressor::uncompress(buf)`.  `uncompressBlock` is `BlockCompressor::uncompress`, the
zlib step. -/
def uncompress (buf : List UInt8) : Except UndefinedBehavior (StatusWith (List Elements)) :=
  let compressedDataRange : ConstDataRangeCursor := ⟨buf, 0⟩
  match compressedDataRange.readUInt32 with
  | .error status => .ok (.status (some status))
  | .ok (uncompressedLength, compressedDataRange) =>
  if uncompressedLength.toNat > 10000000 then
    .ok (.status (some ⟨.invalidLength, "Metrics chunk has exceeded the allowable size."⟩))
  else
  match uncompressBlock compressedDataRange uncompressedLength.toNat with
  | .error status => .ok (.status (some status))
  | .ok uncompressed => readUncompressed loadValidatedBSONObj uncompressed

end

end Ftdc
end Mongo
