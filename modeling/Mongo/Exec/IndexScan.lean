import Mathlib
import Mongo.Lib.DirLex
import Mongo.Query.IndexBoundsBuilder
import Mongo.Query.IndexBoundsChecker

/-!
# The index scan stage

`IndexScan` (`db/exec/index_scan.cpp`) is the plan stage that reads an index.  Each call of
`doWork` takes one entry from the index cursor and answers with it (`ADVANCED`), with a request
to be called again (`NEED_TIME`), or with the end of the scan (`IS_EOF`).  What it does depends
on `_scanState`:

* `INITIALIZING`: `initIndexScan` opens a cursor in the scan's direction.  Bounds that are a
  single interval (`IndexBoundsBuilder::isSingleInterval`) give a key to seek to and an end
  position for the cursor.  Other bounds get an `IndexBoundsChecker`, and the cursor seeks to
  the starts of every field's first interval (`getStartSeekPoint`); a field with no interval
  ends the scan at once.
* `GETTING_NEXT`: the cursor moves to the next entry.
* `NEED_SEEK`: the cursor seeks to the point the checker's last `MUST_ADVANCE` gave.
* `HIT_END`: the scan is over.

An entry counts towards `maxScan`, then goes to the checker, if there is one.  An entry the
checker lets through is dropped when its `RecordId` was returned before and the index is
multikey; it is then returned if it passes the stage's filter.

The index is the list of its entries in the order of its key pattern, a key being its list of
field values.  A cursor reads the list forwards or backwards and compares keys field by field,
each along its own direction (`Mongo.Lib.DirLex`).  A seek stops at the first entry not before
the query, and an end position stops the cursor at the first entry past it, as the contract of
`SortedDataInterface::Cursor` (`db/storage/sorted_data_interface.h`) says.

Not modelled: bounds that are a simple range (`isSimpleRange`, which the model's `IndexBounds`
does not carry); the stats other than `keysExamined`; a `WriteConflictException` and the
`NEED_YIELD` it gives; saving and restoring the cursor; and the key metadata of
`addKeyMetadata`.
-/

namespace Mongo

open DirLex

variable {V R : Type} [LinearOrder V] [BoundedOrder V] [DecidableEq R]

/-- An `IndexKeyEntry`: a key of the index and the `RecordId` of the document it belongs to. -/
structure IndexKeyEntry (V R : Type) where
  key : List V
  loc : R
  deriving DecidableEq, Repr

/-! ## The cursor -/

/-- A `SortedDataInterface::Cursor`: the index's entries in the order the cursor reads them, the
direction of each key field along that order, the end position as a bound (an entry before it is
not past the end), and the place of the entry the cursor is on. -/
structure IndexCursor (V R : Type) where
  entries : List (IndexKeyEntry V R)
  directions : List ℤ
  endPosition : Option (List (V × Bool))
  position : ℕ

/-- A key as a bound: each field inclusive but the last, which is `lastInclusive`. -/
def keyBound : List V → Bool → List (V × Bool)
  | [], _ => []
  | [x], lastInclusive => [(x, lastInclusive)]
  | x :: xs, lastInclusive => (x, true) :: keyBound xs lastInclusive

namespace IndexCursor

/-- `newCursor(opCtx, forward)` on an index whose entries are `index`, in the order of the key
pattern whose field numbers are `keyPattern` (`Ordering::make`: a negative number is a
descending field).  A backward cursor reads the entries from the last. -/
def make (index : List (IndexKeyEntry V R)) (keyPattern : List ℤ) (forward : Bool) :
    IndexCursor V R :=
  ⟨if forward then index else index.reverse,
    expectedDirections keyPattern (if forward then 1 else -1), none, 0⟩

/-- The entry at `i`, unless the cursor has passed its end there. -/
def entryAt (c : IndexCursor V R) (i : ℕ) : Option (IndexKeyEntry V R) :=
  match c.entries[i]? with
  | none => none
  | some entry =>
      match c.endPosition with
      | none => some entry
      | some endBound =>
          if BeforeBound c.directions entry.key endBound then some entry else none

/-- `setEndPosition(key, inclusive)`: the cursor stops at the first key past `key`, or at `key`
itself when the end is exclusive.  An empty key unsets the end position. -/
def setEndPosition (c : IndexCursor V R) (key : List V) (inclusive : Bool) : IndexCursor V R :=
  { c with endPosition := if key.isEmpty then none else some (keyBound key !inclusive) }

/-- Where a seek to `query` lands: the first entry not before it. -/
def seekPosition (c : IndexCursor V R) (query : List (V × Bool)) : ℕ :=
  c.entries.findIdx fun entry => !decide (BeforeBound c.directions entry.key query)

/-- `seek` to a query. -/
def seek (c : IndexCursor V R) (query : List (V × Bool)) :
    Option (IndexKeyEntry V R) × IndexCursor V R :=
  (c.entryAt (c.seekPosition query), { c with position := c.seekPosition query })

/-- `seek(key, inclusive)`: to `key`, or past it when the seek is exclusive. -/
def seekKey (c : IndexCursor V R) (key : List V) (inclusive : Bool) :
    Option (IndexKeyEntry V R) × IndexCursor V R :=
  c.seek (keyBound key inclusive)

/-- `seek(seekPoint)`: to the query `IndexEntryComparison::makeQueryObject` builds from the seek
point; a failed `invariant` there is a failed `verify`. -/
def seekTo (c : IndexCursor V R) (seekPoint : IndexSeekPoint V) :
    Except CheckerError (Option (IndexKeyEntry V R) × IndexCursor V R) :=
  match seekPoint.makeQueryObject with
  | none => throw .verifyFailed
  | some query => pure (c.seek query)

/-- `next()`. -/
def next (c : IndexCursor V R) : Option (IndexKeyEntry V R) × IndexCursor V R :=
  (c.entryAt (c.position + 1), { c with position := c.position + 1 })

end IndexCursor

/-! ## Where the scan starts -/

/-- `getStartSeekPoint(&out)`: the starts of every field's first interval, or nothing when a field
has no interval. -/
def IndexBoundsChecker.getStartSeekPoint (c : IndexBoundsChecker V) : Option (IndexSeekPoint V) := do
  let starts ← c.bounds.fields.mapM fun field =>
    field.intervals.head?.map fun interval => (interval.start, interval.startInclusive)
  pure ⟨[], 0, false, starts.map Prod.fst, starts.map Prod.snd⟩

/-- `IndexBoundsBuilder::allValues()`: from `MinKey` to `MaxKey`, both included. -/
def allValues : Interval V :=
  ⟨⊥, true, ⊤, true⟩

/-- `Interval::reverse()`. -/
def Interval.reverse (interval : Interval V) : Interval V :=
  ⟨interval.end_, interval.endInclusive, interval.start, interval.startInclusive⟩

/-- The last loop of `isSingleInterval`: after the non-point interval every field must hold all
values, upwards or downwards.  The start key gets `MaxKey` or `MinKey` there so that it reaches
past, or stops short of, every key that shares its earlier fields, as the start's inclusivity
asks; the end key likewise. -/
def allValuesKeys (startKeyInclusive endKeyInclusive : Bool) :
    List (OrderedIntervalList V) → Option (List V × List V)
  | [] => some ([], [])
  | oil :: rest =>
      match oil.intervals with
      | [interval] =>
          if interval.equals allValues then
            (allValuesKeys startKeyInclusive endKeyInclusive rest).map fun (startKey, endKey) =>
              ((if !startKeyInclusive then ⊤ else ⊥) :: startKey,
                (if !endKeyInclusive then ⊥ else ⊤) :: endKey)
          else if interval.equals allValues.reverse then
            (allValuesKeys startKeyInclusive endKeyInclusive rest).map fun (startKey, endKey) =>
              ((if !startKeyInclusive then ⊥ else ⊤) :: startKey,
                (if !endKeyInclusive then ⊤ else ⊥) :: endKey)
          else none
      | _ => none

/-- The first loop of `isSingleInterval` over the point intervals, then the one non-point
interval. -/
def isSingleIntervalFrom : List (OrderedIntervalList V) → Option (List V × Bool × List V × Bool)
  | [] => some ([], true, [], true)
  | oil :: rest =>
      match oil.intervals with
      | [interval] =>
          if interval.isPoint then
            (isSingleIntervalFrom rest).map
              fun (startKey, startKeyInclusive, endKey, endKeyInclusive) =>
                (interval.start :: startKey, startKeyInclusive, interval.end_ :: endKey,
                  endKeyInclusive)
          else
            (allValuesKeys interval.startInclusive interval.endInclusive rest).map
              fun (startKey, endKey) =>
                (interval.start :: startKey, interval.startInclusive, interval.end_ :: endKey,
                  interval.endInclusive)
      | _ => none

/-- `IndexBoundsBuilder::isSingleInterval(bounds, &startKey, &startKeyInclusive, &endKey,
&endKeyInclusive)`: for bounds that are points on the first fields, one interval on the next and
all values on the rest, the key to start at and the key to end at, each with its
inclusivity. -/
def isSingleInterval (bounds : IndexBounds V) : Option (List V × Bool × List V × Bool) :=
  isSingleIntervalFrom bounds.fields

/-! ## The stage -/

/-- What `IndexScan` reads of its `IndexScanParams` and of the index's descriptor: the bounds,
the key pattern (each field's name and number), the direction, `maxScan` (`0` for none),
`doNotDedup`, whether the index is multikey, and the filter on index keys, if any. -/
structure IndexScanParams (V : Type) where
  bounds : IndexBounds V
  keyPattern : List (String × ℤ)
  direction : ℤ
  maxScan : ℕ
  doNotDedup : Bool
  isMultikey : Bool
  filter : Option (List V → Bool)

/-- `_shouldDedup` as `initIndexScan` sets it: whether the index is multikey, unless
`doNotDedup`. -/
def IndexScanParams.shouldDedup (p : IndexScanParams V) : Bool :=
  if p.doNotDedup then false else p.isMultikey

/-- `Filter::passes(key, keyPattern, filter)` when the stage has a filter. -/
def IndexScanParams.passesFilter (p : IndexScanParams V) (key : List V) : Bool :=
  match p.filter with
  | none => true
  | some passes => passes key

/-- `IndexScan::ScanState`. -/
inductive ScanState
  | initializing
  | gettingNext
  | needSeek
  | hitEnd
  deriving DecidableEq, Repr

/-- `PlanStage::StageState` as `IndexScan::doWork` answers, with the entry of an `ADVANCED`. -/
inductive StageState (V R : Type)
  | advanced (entry : IndexKeyEntry V R)
  | needTime
  | isEOF

/-- An `IndexScan`: its scan state, the cursor (an unpositioned one until `initIndexScan` opens
its own), the checker, the seek point, whether it drops entries whose `RecordId` it returned
before, the `RecordId`s returned (`_returned`), and `keysExamined`. -/
structure IndexScan (V R : Type) where
  scanState : ScanState
  cursor : IndexCursor V R
  checker : Option (IndexBoundsChecker V)
  seekPoint : IndexSeekPoint V
  shouldDedup : Bool
  returned : List R
  keysExamined : ℕ

namespace IndexScan

/-- The cursor `_iam->newCursor(opCtx, _forward)` opens for the stage. -/
def newCursor (p : IndexScanParams V) (index : List (IndexKeyEntry V R)) : IndexCursor V R :=
  IndexCursor.make index (p.keyPattern.map Prod.snd) (p.direction == 1)

/-- The `IndexScan` constructor. -/
def make (p : IndexScanParams V) (index : List (IndexKeyEntry V R)) : IndexScan V R :=
  ⟨.initializing, newCursor p index, none, ⟨[], 0, false, [], []⟩, true, [], 0⟩

/-- `initIndexScan()`: opens the cursor and seeks it to where the scan starts. -/
def initIndexScan (p : IndexScanParams V) (index : List (IndexKeyEntry V R)) (s : IndexScan V R) :
    Except CheckerError (Option (IndexKeyEntry V R) × IndexScan V R) :=
  let s := { s with shouldDedup := p.shouldDedup, cursor := newCursor p index }
  match isSingleInterval p.bounds with
  | some (startKey, startKeyInclusive, endKey, endKeyInclusive) =>
      let (kv, cursor) :=
        (s.cursor.setEndPosition endKey endKeyInclusive).seekKey startKey startKeyInclusive
      pure (kv, { s with cursor := cursor })
  | none =>
      let checker := IndexBoundsChecker.make p.bounds (p.keyPattern.map Prod.snd) p.direction
      let s := { s with checker := some checker }
      match checker.getStartSeekPoint with
      | none => pure (none, s)
      | some seekPoint => do
          let (kv, cursor) ← s.cursor.seekTo seekPoint
          pure (kv, { s with cursor := cursor, seekPoint := seekPoint })

/-- The end of the scan. -/
def hitEnd (s : IndexScan V R) : StageState V R × IndexScan V R :=
  (.isEOF, { s with scanState := .hitEnd })

/-- An entry the checker lets through: dropped if its `RecordId` was returned before ("We've
seen this RecordId before. Skip it this time."), then returned if it passes the filter. -/
def returnEntry (p : IndexScanParams V) (s : IndexScan V R) (entry : IndexKeyEntry V R) :
    StageState V R × IndexScan V R :=
  let s := { s with scanState := .gettingNext }
  if s.shouldDedup && decide (entry.loc ∈ s.returned) then (.needTime, s)
  else
    let s := if s.shouldDedup then { s with returned := entry.loc :: s.returned } else s
    if p.passesFilter entry.key then (.advanced entry, s) else (.needTime, s)

/-- The rest of `doWork` once the cursor has answered `kv`. -/
def examine (p : IndexScanParams V) (s : IndexScan V R) :
    Option (IndexKeyEntry V R) → Except CheckerError (StageState V R × IndexScan V R)
  | none => pure s.hitEnd
  | some entry =>
      let s := { s with keysExamined := s.keysExamined + 1 }
      if p.maxScan ≠ 0 ∧ s.keysExamined ≥ p.maxScan then pure s.hitEnd
      else
        match s.checker with
        | none => pure (s.returnEntry p entry)
        | some checker => do
            let (state, checker) ← checker.checkKey entry.key
            let s := { s with checker := some checker }
            match state with
            | .valid => pure (s.returnEntry p entry)
            | .done => pure s.hitEnd
            | .mustAdvance seekPoint =>
                pure (.needTime, { s with scanState := .needSeek, seekPoint := seekPoint })

/-- `IndexScan::doWork(&out)`. -/
def doWork (p : IndexScanParams V) (index : List (IndexKeyEntry V R)) (s : IndexScan V R) :
    Except CheckerError (StageState V R × IndexScan V R) :=
  match s.scanState with
  | .initializing => do
      let (kv, s) ← s.initIndexScan p index
      s.examine p kv
  | .gettingNext =>
      let (kv, cursor) := s.cursor.next
      { s with cursor := cursor }.examine p kv
  | .needSeek => do
      let (kv, cursor) ← s.cursor.seekTo s.seekPoint
      { s with cursor := cursor }.examine p kv
  | .hitEnd => pure (.isEOF, s)

/-- Working the stage until it reports its end, with at most `fuel` calls of `doWork`, as a plan
executor that drains it does: the entries it returns, and the stage after the last call. -/
def run (p : IndexScanParams V) (index : List (IndexKeyEntry V R)) :
    ℕ → IndexScan V R → Except CheckerError (List (IndexKeyEntry V R) × IndexScan V R)
  | 0, s => pure ([], s)
  | fuel + 1, s => do
      let (state, s) ← s.doWork p index
      match state with
      | .advanced entry => do
          let (entries, s) ← run p index fuel s
          pure (entry :: entries, s)
      | .needTime => run p index fuel s
      | .isEOF => pure ([], s)

end IndexScan

end Mongo
