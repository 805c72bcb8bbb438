import Mongo.Lib.Loop
import Mongo.S.ChunkManager

/-!
# A shard's metadata of a sharded collection

`CollectionMetadata` (`db/s/collection_metadata.cpp`) is what a shard knows of a sharded
collection: the chunks it owns in a map from `min` to `max` (`_chunksMap`), and the same ranges
with adjacent chunks joined (`_rangesMap`).  Both are `RangeMap`s of `db/range_arithmetic.h`.
Keys are lists of shard key values compared lexicographically, as in the routing table; the empty
object `BSONObj()` is the empty list.

* `CollectionMetadata.make` — the constructor: loads this shard's chunks from a routing table and
  joins them with `buildRangesMap` (`_buildRangesMap`), under the constructor's `invariant`s.
* `keyBelongsToMe` and `rangeOverlapsChunk` — ownership of a key and of a range, read off
  `_rangesMap` with `upper_bound` and with `rangeMapOverlaps`.
* `getNextOrphanRange` — the `while` loop that skips the keys covered by an owned or an incoming
  chunk and returns the gap around the first key that is neither, run for at most `fuel`
  iterations.

Of `_cm` the functions here read the number of fields of the shard key pattern (`getMinKey()`,
`getMaxKey()`); the rest of the routing table is read by the constructor only.
-/

namespace Mongo

open SortedMap

variable {V S : Type} [LinearOrder V]

/-- `RangeMap`: inclusive lower bound ↦ exclusive upper bound, ordered by the lower bound. -/
abbrev RangeMap (V : Type) [LinearOrder V] := OrdMap (List V) (List V)

/-- `ChunkRange`: the range `[min, max)`.  Its constructor `dassert`s `min < max`, which only
debug builds check. -/
structure ChunkRange (V : Type) where
  min : List V
  max : List V
  deriving DecidableEq, Repr

/-! ## `range_arithmetic.cpp` -/

/-- `rangeContains(inclusiveLower, exclusiveUpper, point)`. -/
def rangeContains (inclusiveLower exclusiveUpper point : List V) : Bool :=
  -- `point.woCompare(inclusiveLower) >= 0 && point.woCompare(exclusiveUpper) < 0`
  decide (inclusiveLower ≤ point) && decide (point < exclusiveUpper)

/-- `rangeMapOverlapBounds(ranges, inclusiveLower, exclusiveUpper)`, as positions: from the first
range that starts at or after `inclusiveLower`, or the one before it when that one reaches past
`inclusiveLower`, to the first range that starts at or after `exclusiveUpper`. -/
def rangeMapOverlapBounds (ranges : RangeMap V) (inclusiveLower exclusiveUpper : List V) :
    ℕ × ℕ :=
  let low := ranges.lowerBound inclusiveLower
  -- "See if the previous chunk overlaps our range, not clear from just min key"
  let low := if low = 0 then low else
    match ranges.entries[low - 1]? with
    | some prev => if prev.2 ≤ inclusiveLower then low else low - 1
    | none => low
  (low, ranges.lowerBound exclusiveUpper)

/-- `rangeMapOverlaps(ranges, inclusiveLower, exclusiveUpper)`. -/
def rangeMapOverlaps (ranges : RangeMap V) (inclusiveLower exclusiveUpper : List V) : Bool :=
  let bounds := rangeMapOverlapBounds ranges inclusiveLower exclusiveUpper
  bounds.1 != bounds.2

/-! ## The constructor -/

/-- A shard's metadata of one collection. -/
structure CollectionMetadata (V : Type) [LinearOrder V] where
  /-- The number of fields of the shard key pattern of `_cm`. -/
  keyPatternFields : ℕ
  /-- `_shardVersion`. -/
  shardVersion : ChunkVersion
  /-- `_chunksMap`: this shard's chunks, `min ↦ max`. -/
  chunksMap : RangeMap V
  /-- `_rangesMap`: the same ranges, adjacent ones joined. -/
  rangesMap : RangeMap V

/-- The loop of `_buildRangesMap` over `_chunksMap`, with the range `[min, max)` it is building.
The `min` of the first iteration is `BSONObj()`, so the loop starts its first range at the first
chunk. -/
def buildRangesMapLoop : RangeMap V → List V → List V → List (List V × List V) →
    RangeMap V × List V × List V
  | rangesMap, min, max, [] => (rangesMap, min, max)
  | rangesMap, min, max, (currMin, currMax) :: chunks =>
      if min = [] then buildRangesMapLoop rangesMap currMin currMax chunks
      -- "Coalesce the chunk's bounds in ranges if they are adjacent chunks"
      else if max = currMin then buildRangesMapLoop rangesMap min currMax chunks
      else buildRangesMapLoop (rangesMap.insert min max) currMin currMax chunks

/-- `_buildRangesMap()`, from the cleared `_rangesMap`; `none` when one of its `invariant`s
fails. -/
def buildRangesMap (chunksMap : RangeMap V) : Option (RangeMap V) :=
  let r := buildRangesMapLoop OrdMap.empty [] [] chunksMap.entries
  -- `invariant(!min.isEmpty())`, `invariant(!max.isEmpty())`
  if r.2.1 = [] ∨ r.2.2 = [] then none else some (r.1.insert r.2.1 r.2.2)

/-- `_rangesMap` as the constructor leaves it, from `_chunksMap`: empty when the shard owns no
chunk, built by `_buildRangesMap` otherwise. -/
def rangesMapOf (chunksMap : RangeMap V) : Option (RangeMap V) :=
  if chunksMap.entries = [] then some OrdMap.empty else buildRangesMap chunksMap

/-- The loop of the constructor over `_cm->chunks()`: `emplace_hint(end(), min, max)` for each
chunk of `thisShardId`. -/
def loadChunksMap [DecidableEq S] (thisShardId : S) (chunks : List (Chunk V S)) : RangeMap V :=
  chunks.foldl (fun chunksMap chunk =>
    if chunk.shardId ≠ thisShardId then chunksMap else chunksMap.insert chunk.min chunk.max)
    OrdMap.empty

/-- `CollectionMetadata(cm, thisShardId)` for a shard key pattern of `keyPatternFields` fields;
`none` when one of its `invariant`s fails. -/
def CollectionMetadata.make [DecidableEq S] (cm : ChunkManager V S) (keyPatternFields : ℕ)
    (thisShardId : S) : Option (CollectionMetadata V) :=
  let shardVersion := cm.getVersion thisShardId
  let chunksMap := loadChunksMap thisShardId (cm.chunkMap.entries.map (·.2))
  if ¬ cm.collectionVersion.isSet then none
  else if ¬ shardVersion ≤ cm.collectionVersion then none
  else if chunksMap.entries = [] then
    -- `invariant(!_shardVersion.isSet())`
    if shardVersion.isSet then none
    else some ⟨keyPatternFields, shardVersion, chunksMap, OrdMap.empty⟩
  -- `invariant(_shardVersion.isSet())`
  else if ¬ shardVersion.isSet then none
  else (fun rangesMap => ⟨keyPatternFields, shardVersion, chunksMap, rangesMap⟩) <$>
    buildRangesMap chunksMap

namespace CollectionMetadata

/-- `getMinKey()`: every field of the shard key `MinKey`. -/
def getMinKey [BoundedOrder V] (md : CollectionMetadata V) : List V :=
  globalMin md.keyPatternFields

/-- `getMaxKey()`: every field of the shard key `MaxKey`. -/
def getMaxKey [BoundedOrder V] (md : CollectionMetadata V) : List V :=
  globalMax md.keyPatternFields

/-! ## Ownership -/

/-- `keyBelongsToMe(key)`: the range of `_rangesMap` before `upper_bound(key)` contains the
key. -/
def keyBelongsToMe (md : CollectionMetadata V) (key : List V) : Bool :=
  if md.rangesMap.entries = [] then false
  else
    let it := md.rangesMap.upperBound key
    let it := if it ≠ 0 then it - 1 else it
    match md.rangesMap.entries[it]? with
    | some e => rangeContains e.1 e.2 key
    | none => false

/-- `rangeOverlapsChunk(range)`. -/
def rangeOverlapsChunk (md : CollectionMetadata V) (range : ChunkRange V) : Bool :=
  rangeMapOverlaps md.rangesMap range.min range.max

end CollectionMetadata

/-! ## `getNextOrphanRange` -/

/-- What the lambda `patchLookupKey(map)` finds: a range of `map` that covers `lookupKey`, whose
end the loop goes on from (`boost::none`, after the side effect on `lookupKey`), or the ranges
just before and just after `lookupKey` (`Its`, with `none` for `end()`). -/
inductive LookupPatch (V : Type)
  | moved (lookupKey : List V)
  | its (lowerIt upperIt : Option (List V × List V))

/-- The lambda `patchLookupKey(map)` of `getNextOrphanRange`. -/
def patchLookupKey (map : RangeMap V) (lookupKey : List V) : LookupPatch V :=
  let upper := map.upperBound lookupKey
  match (if upper = 0 then none else map.entries[upper - 1]?) with
  | some lower =>
      -- "If we overlap, continue after the overlap"
      if lookupKey < lower.2 then .moved lower.2 else .its (some lower) map.entries[upper]?
  | none => .its none map.entries[upper]?

/-- The lambda `patchArgRange(map, its)` of `getNextOrphanRange`: raise `rangeMin` to the end of
the range before the lookup key, and lower `rangeMax` to the start of the range after it. -/
def patchArgRange (lowerIt upperIt : Option (List V × List V)) (range : ChunkRange V) :
    ChunkRange V :=
  let rangeMin := match lowerIt with
    | some lower => if range.min < lower.2 then lower.2 else range.min
    | none => range.min
  let rangeMax := match upperIt with
    | some upper => if upper.1 < range.max then upper.1 else range.max
    | none => range.max
  ⟨rangeMin, rangeMax⟩

/-- Where the `while` loop of `getNextOrphanRange` stands: at a lookup key, or returned with a
range. -/
inductive OrphanSearch (V : Type)
  | lookup (lookupKey : List V)
  | found (range : ChunkRange V)

/-- The loop has ended: its condition `lookupKey < maxKey` fails, or it has returned. -/
def OrphanSearch.done (maxKey : List V) : OrphanSearch V → Prop
  | .lookup lookupKey => ¬ lookupKey < maxKey
  | .found _ => True

instance (maxKey : List V) : DecidablePred (OrphanSearch.done maxKey) := fun s =>
  match s with
  | .lookup lookupKey => inferInstanceAs (Decidable (¬ lookupKey < maxKey))
  | .found _ => inferInstanceAs (Decidable True)

/-- What stops `getNextOrphanRange` short of a result: the fuel of its loop running out. -/
inductive OrphanRangeError
  | outOfFuel
  deriving DecidableEq, Repr

namespace CollectionMetadata

/-- One iteration of the `while` loop of `getNextOrphanRange`. -/
def orphanRangeStep [BoundedOrder V] (md : CollectionMetadata V) (receivingChunks : RangeMap V) :
    OrphanSearch V → Except OrphanRangeError (OrphanSearch V)
  | .lookup lookupKey =>
      match patchLookupKey md.chunksMap lookupKey with
      | .moved lookupKey' => .ok (.lookup lookupKey')
      | .its chunksLower chunksUpper =>
          match patchLookupKey receivingChunks lookupKey with
          | .moved lookupKey' => .ok (.lookup lookupKey')
          | .its pendingLower pendingUpper =>
              .ok (.found (patchArgRange pendingLower pendingUpper
                (patchArgRange chunksLower chunksUpper ⟨md.getMinKey, md.getMaxKey⟩)))
  | .found range => .ok (.found range)

/-- `getNextOrphanRange(receivingChunks, origLookupKey)`, with its loop run for at most `fuel`
iterations. -/
def getNextOrphanRange [BoundedOrder V] (md : CollectionMetadata V) (receivingChunks : RangeMap V)
    (origLookupKey : List V) (fuel : ℕ) : Except OrphanRangeError (Option (ChunkRange V)) :=
  (Loop.runState (OrphanSearch.done md.getMaxKey) (md.orphanRangeStep receivingChunks) .outOfFuel
      fuel (.lookup origLookupKey)).map fun
    | .lookup _ => none
    | .found range => some range

end CollectionMetadata

end Mongo
