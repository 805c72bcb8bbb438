import Mathlib
import Mongo.Lib.Except
import Mongo.Lib.SortedMap
import Mongo.Lib.Tiling
import Mongo.S.ChunkVersion

/-!
# The routing table of a sharded collection

`ChunkManager` (`s/chunk_manager.cpp`) is the router's in-memory routing table: the chunks of
one collection in a map keyed by their upper bound, two views derived from that map, and the
collection version.

A shard key value is a `BSONObj` of the shard key's fields; every key the routing table compares
has the same field names, so it is modelled as the list of its values, compared
lexicographically.  The values are any linear order with a least element (`MinKey`) and a
greatest one (`MaxKey`); `checkAllElementsAreOfType(MinKey, o)` asks that every value of `o`
is the least one.

* `Chunk` — a chunk as `ChunkType::validate` admits it: `min < max` and a set version.
* `constructChunkMapViews` — `_constructChunkMapViews`: coalesces consecutive chunks of one shard
  into ranges, records the largest version per shard, and rejects gaps, overlaps and a key space
  that does not run from all-`MinKey` to all-`MaxKey`.
* `makeUpdated` — applies a list of changed chunks to the map.
* `getShardIdsForRange` and `getShardIdsForRanges` — the targeting of one range and the loop of
  `getShardIdsForQuery` over the ranges of a query.
* `findIntersectingChunkWithSimpleCollation` — the chunk of one shard key value.
* `getVersion` — the version recorded for a shard.

The collator, namespace, UUID, shard key pattern object and sequence number are carried by the
source's `ChunkManager` but read by none of these functions, and are left out.
-/

namespace Mongo

open SortedMap

variable {V S : Type} [LinearOrder V]

/-- A chunk of the routing table: the range `[min, max)` of shard key values on shard `shardId`,
last changed at version `lastmod`.  Chunks reach the router through `ChunkType::validate`, which
rejects `min >= max` and an unset version, so neither can be built here. -/
structure Chunk (V S : Type) [LinearOrder V] where
  min : List V
  max : List V
  shardId : S
  lastmod : ChunkVersion
  min_lt_max : min < max
  lastmod_isSet : lastmod.isSet
  deriving DecidableEq

namespace Chunk

/-- `Chunk::containsKey`: `min <= shardKey < max`. -/
def containsKey (c : Chunk V S) (shardKey : List V) : Prop :=
  c.min ≤ shardKey ∧ shardKey < c.max

instance (c : Chunk V S) (k : List V) : Decidable (c.containsKey k) :=
  inferInstanceAs (Decidable (_ ∧ _))

end Chunk

/-- `ChunkMap`: the chunks keyed by their `max`. -/
abbrev ChunkMap (V S : Type) [LinearOrder V] := OrdMap (List V) (Chunk V S)

/-- An entry of `chunkRangeMap`: a maximal run of consecutive chunks on one shard. -/
structure ShardAndChunkRange (V S : Type) where
  min : List V
  max : List V
  shardId : S

/-- `ChunkMapViews`: the ranges keyed by their `max`, and the largest chunk version per shard.
`std::map<ShardId, ChunkVersion>` is read through `find` and `size` only, so its key order does
not matter and an association list stands for it. -/
structure ChunkMapViews (V S : Type) [LinearOrder V] where
  chunkRangeMap : OrdMap (List V) (ShardAndChunkRange V S)
  shardVersions : List (S × ChunkVersion)

/-- The routing table: the chunk map, its views and the collection version. -/
structure ChunkManager (V S : Type) [LinearOrder V] where
  chunkMap : ChunkMap V S
  chunkMapViews : ChunkMapViews V S
  collectionVersion : ChunkVersion

/-- The ways the routing code gives up: a `uassert` with its message, or an `invariant`. -/
inductive RoutingError
  /-- `uassert`: "Chunk ... has epoch different from that of the collection ...". -/
  | epochMismatch
  /-- `invariant(chunkVersion >= collectionVersion)`: "Chunks must always come in incrementally
  sorted order". -/
  | chunksOutOfOrder
  /-- `uassert`: "Metadata contains two chunks with the same max value ...". -/
  | duplicateRangeMax
  /-- `uassert`: "Gap or an overlap between ranges ... and ...". -/
  | gapOrOverlap
  /-- `invariant(maxShardVersion.isSet())`. -/
  | shardVersionUnset
  /-- `invariant(!chunkRangeMap.empty())` or `invariant(!shardVersions.empty())`. -/
  | viewsEmpty
  /-- `checkAllElementsAreOfType(MinKey, ...)`: "Not all elements of ... are of type MinKey". -/
  | notAllMinKey
  /-- `checkAllElementsAreOfType(MaxKey, ...)`: "Not all elements of ... are of type MaxKey". -/
  | notAllMaxKey
  /-- `invariant(it != _chunkMapViews.chunkRangeMap.end())` in `getShardIdsForRange`. -/
  | rangeMapExhausted
  /-- `uassert(17439, ...)` in `ShardKeyPattern::flattenBounds`: "combinatorial limit of $in
  partitioning of results exceeded". -/
  | combinatorialLimitExceeded
  /-- `uassert(ErrorCodes::ShardKeyNotFound, ...)` in `findIntersectingChunk`: "Cannot target
  single shard using key ...". -/
  | shardKeyNotFound
  deriving DecidableEq, Repr

/-- `checkAllElementsAreOfType(MinKey, o)`. -/
def allMinKey [BoundedOrder V] (o : List V) : Bool := o.all fun x => x = ⊥

/-- `checkAllElementsAreOfType(MaxKey, o)`. -/
def allMaxKey [BoundedOrder V] (o : List V) : Bool := o.all fun x => x = ⊤

/-- The least key of an `n`-field shard key pattern: every field `MinKey`. -/
def globalMin [BoundedOrder V] (n : ℕ) : List V := List.replicate n ⊥

/-- The greatest key of an `n`-field shard key pattern: every field `MaxKey`. -/
def globalMax [BoundedOrder V] (n : ℕ) : List V := List.replicate n ⊤

/-! ## `_constructChunkMapViews` -/

/-- The `find_if` of `_constructChunkMapViews`, from the chunk after the first of a range: the
chunks that stay on `shard`, the rest, and `maxShardVersion` raised to every larger `lastmod`
passed on the way. -/
def findRangeEnd (shard : S) [DecidableEq S] (maxShardVersion : ChunkVersion) :
    List (Chunk V S) → ChunkVersion × List (Chunk V S) × List (Chunk V S)
  | [] => (maxShardVersion, [], [])
  | c :: cs =>
      if c.shardId ≠ shard then (maxShardVersion, [], c :: cs)
      else
        let r := findRangeEnd shard
          (if c.lastmod > maxShardVersion then c.lastmod else maxShardVersion) cs
        (r.1, c :: r.2.1, r.2.2)

theorem findRangeEnd_length_le [DecidableEq S] (shard : S) :
    ∀ (v : ChunkVersion) (cs : List (Chunk V S)), (findRangeEnd shard v cs).2.2.length ≤ cs.length
  | _, [] => le_refl _
  | v, c :: cs => by
      by_cases h : c.shardId = shard
      · have ih := findRangeEnd_length_le shard
          (if c.lastmod > v then c.lastmod else v) cs
        simp only [findRangeEnd, h, ne_eq, not_true_eq_false, if_false, List.length_cons]
        omega
      · simp [findRangeEnd, h]

/-- Sets the version recorded for `shard`, adding the shard if it has none yet. -/
def setShardVersion [DecidableEq S] (shard : S) (v : ChunkVersion) :
    List (S × ChunkVersion) → List (S × ChunkVersion)
  | [] => [(shard, v)]
  | e :: es => if e.1 = shard then (shard, v) :: es else e :: setShardVersion shard v es

/-- The version the `find_if` of a range starts from: the shard's recorded version (`0|0` of
the epoch when it has none), raised to the first chunk's. -/
def rangeStartVersion [DecidableEq S] (epoch : OID) (shardVersions : List (S × ChunkVersion))
    (firstChunkInRange : Chunk V S) : ChunkVersion :=
  let start := (shardVersions.lookup firstChunkInRange.shardId).getD (ChunkVersion.make 0 0 epoch)
  if firstChunkInRange.lastmod > start then firstChunkInRange.lastmod else start

/-- The `while` loop of `_constructChunkMapViews`, one range per iteration. -/
def constructChunkMapViewsLoop [DecidableEq S] (epoch : OID) :
    OrdMap (List V) (ShardAndChunkRange V S) → List (S × ChunkVersion) → List (Chunk V S) →
      Except RoutingError (ChunkMapViews V S)
  | chunkRangeMap, shardVersions, [] => .ok ⟨chunkRangeMap, shardVersions⟩
  | chunkRangeMap, shardVersions, firstChunkInRange :: rest => do
      let r := findRangeEnd firstChunkInRange.shardId
        (rangeStartVersion epoch shardVersions firstChunkInRange) rest
      let rangeLast := (firstChunkInRange :: r.2.1).getLast (List.cons_ne_nil _ _)
      let rangeMin := firstChunkInRange.min
      let rangeMax := rangeLast.max
      let chunkRangeMap' :=
        chunkRangeMap.insert rangeMax ⟨rangeMin, rangeMax, firstChunkInRange.shardId⟩
      if chunkRangeMap.size + 1 ≠ chunkRangeMap'.size then throw .duplicateRangeMax
      -- the entry before the inserted one must end where this range starts
      let pos := chunkRangeMap'.entries.findIdx fun e => e.1 = rangeMax
      match (chunkRangeMap'.entries.take pos).getLast? with
      | some prev => if prev.1 ≠ rangeMin then throw .gapOrOverlap
      | none => pure ()
      if ¬ r.1.isSet then throw .shardVersionUnset
      constructChunkMapViewsLoop epoch chunkRangeMap'
        (setShardVersion firstChunkInRange.shardId r.1 shardVersions) r.2.2
  termination_by _ _ l => l.length
  decreasing_by exact Nat.lt_succ_of_le (findRangeEnd_length_le _ _ _)

/-- `_constructChunkMapViews(epoch, chunkMap)`. -/
def constructChunkMapViews [BoundedOrder V] [DecidableEq S] (epoch : OID)
    (chunkMap : ChunkMap V S) : Except RoutingError (ChunkMapViews V S) := do
  let views ← constructChunkMapViewsLoop epoch (OrdMap.empty : OrdMap (List V) _) []
    (chunkMap.entries.map (·.2))
  if chunkMap.entries ≠ [] then
    if views.chunkRangeMap.entries = [] ∨ views.shardVersions = [] then throw .viewsEmpty
    match views.chunkRangeMap.entries.head?, views.chunkRangeMap.entries.getLast? with
    | some first, some last =>
        if ¬ allMinKey first.2.min then throw .notAllMinKey
        if ¬ allMaxKey last.1 then throw .notAllMaxKey
    | _, _ => pure ()
  pure views

/-- The `ChunkManager` constructor: builds the views, and fails when they cannot be built. -/
def ChunkManager.create [BoundedOrder V] [DecidableEq S] (chunkMap : ChunkMap V S)
    (collectionVersion : ChunkVersion) : Except RoutingError (ChunkManager V S) := do
  let views ← constructChunkMapViews collectionVersion.epoch chunkMap
  pure ⟨chunkMap, views, collectionVersion⟩

/-! ## `makeUpdated` -/

/-- One iteration of the loop of `makeUpdated`: check the chunk's epoch and version, erase the
chunks whose `max` lies in `(chunk.min, chunk.max]`, and insert the chunk. -/
def applyChunk (chunkMap : ChunkMap V S) (collectionVersion : ChunkVersion) (chunk : Chunk V S) :
    Except RoutingError (ChunkMap V S × ChunkVersion) := do
  if collectionVersion.epoch ≠ chunk.lastmod.epoch then throw .epochMismatch
  if ¬ chunk.lastmod ≥ collectionVersion then throw .chunksOutOfOrder
  let low := chunkMap.upperBound chunk.min
  let high := chunkMap.upperBound chunk.max
  pure ((chunkMap.eraseRange low high).insert chunk.max chunk, chunk.lastmod)

/-- The loop of `makeUpdated` over the changed chunks. -/
def applyChunks :
    ChunkMap V S → ChunkVersion → List (Chunk V S) → Except RoutingError (ChunkMap V S × ChunkVersion)
  | chunkMap, collectionVersion, [] => .ok (chunkMap, collectionVersion)
  | chunkMap, collectionVersion, chunk :: changedChunks => do
      let r ← applyChunk chunkMap collectionVersion chunk
      applyChunks r.1 r.2 changedChunks

/-- `ChunkManager::makeUpdated(changedChunks)`.  When the collection version did not move the
manager itself is returned, old chunk map and all. -/
def ChunkManager.makeUpdated [BoundedOrder V] [DecidableEq S] (cm : ChunkManager V S)
    (changedChunks : List (Chunk V S)) : Except RoutingError (ChunkManager V S) := do
  let r ← applyChunks cm.chunkMap cm.collectionVersion changedChunks
  if r.2 = cm.collectionVersion then return cm
  ChunkManager.create r.1 r.2

/-! ## Lookups -/

/-- `getVersion(shardName)`: the version recorded for the shard, and `0|0` of the collection's
epoch for a shard with no chunks. -/
def ChunkManager.getVersion [DecidableEq S] (cm : ChunkManager V S) (shardName : S) :
    ChunkVersion :=
  (cm.chunkMapViews.shardVersions.lookup shardName).getD
    (ChunkVersion.make 0 0 cm.collectionVersion.epoch)

/-- `findIntersectingChunkWithSimpleCollation(shardKey)`: the chunk after `upper_bound(shardKey)`
in the map keyed by `max`, which must contain the key.  With the simple collation the collatable
field check of `findIntersectingChunk` does not run. -/
def ChunkManager.findIntersectingChunkWithSimpleCollation (cm : ChunkManager V S)
    (shardKey : List V) : Except RoutingError (Chunk V S) :=
  match cm.chunkMap.entries[cm.chunkMap.upperBound shardKey]? with
  | some it => if it.2.containsKey shardKey then .ok it.2 else .error .shardKeyNotFound
  | none => .error .shardKeyNotFound

/-! ## Targeting -/

/-- The loop of `getShardIdsForRange` over the ranges from `it` to `end`: insert each range's
shard, and stop once every shard with chunks has been collected. -/
def insertShardIds [DecidableEq S] (numShards : ℕ) :
    List (List V × ShardAndChunkRange V S) → Finset S → Finset S
  | [], shardIds => shardIds
  | r :: rs, shardIds =>
      let shardIds' := insert r.2.shardId shardIds
      if shardIds'.card = numShards then shardIds' else insertShardIds numShards rs shardIds'

/-- `getShardIdsForRange(min, max, shardIds)`: the shards of every range from the one containing
`min` to the one containing `max`. -/
def ChunkManager.getShardIdsForRange [DecidableEq S] (cm : ChunkManager V S) (min max : List V)
    (shardIds : Finset S) : Except RoutingError (Finset S) := do
  let m := cm.chunkMapViews.chunkRangeMap
  let it := m.upperBound min
  let end₀ := m.upperBound max
  if it = m.size then throw .rangeMapExhausted
  -- "We need to include the last chunk"
  let end₁ := if end₀ ≠ m.size then end₀ + 1 else end₀
  pure (insertShardIds cm.chunkMapViews.shardVersions.length
    ((m.entries.drop it).take (end₁ - it)) shardIds)

/-- The loop of `getShardIdsForQuery` over the ranges that `flattenBounds` produced, with its
early exit once every shard is targeted. -/
def ChunkManager.getShardIdsForRanges [DecidableEq S] (cm : ChunkManager V S) :
    List (List V × List V) → Finset S → Except RoutingError (Finset S)
  | [], shardIds => .ok shardIds
  | r :: ranges, shardIds => do
      let shardIds' ← cm.getShardIdsForRange r.1 r.2 shardIds
      if shardIds'.card = cm.chunkMapViews.shardVersions.length then return shardIds'
      cm.getShardIdsForRanges ranges shardIds'

end Mongo
