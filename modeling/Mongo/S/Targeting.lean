import Mathlib
import Mongo.S.ChunkMapViews
import Mongo.S.ShardKeyPattern

/-!
# Query targeting

`ChunkManager::getShardIdsForQuery` turns a query into index bounds, the bounds into shard key
pairs (`flattenBounds`), and each pair `(min, max)` into shards with `getShardIdsForRange`, which
walks the range map from `upper_bound(min)` to one past `upper_bound(max)`.  Both loops stop as
soon as every shard with chunks is targeted.

The property that matters is that no shard holding a matching document is left out:

* `mem_rangesVisited` — the range holding a key `k` is among those visited for any
  `min ≤ k ≤ max`: the step one past `upper_bound(max)` is exactly what picks it up when its
  `max` lies beyond `max`.
* `mem_insertShardIds` — stopping once the set is full loses nothing, because every shard the
  loop can meet is in the version map, whose keys are distinct.
* `ViewsOf.getShardIdsForRange_ok`, `ViewsOf.getShardIdsForRange_of_le` — a lookup returns
  exactly when its `min` lies below the all-`MaxKey` key: no range ends past that key, so
  `upper_bound` of it is `end()` and `invariant(it != end)` fails.
* `owner_mem_getShardIdsForRanges` — the owner of the chunk holding a key whose fields lie in
  the bounds is targeted, and the loop over the pairs returns when no pair starts at the
  all-`MaxKey` key.

A query with a `MaxKey` point has such a pair: `{x: {$in: [3, MaxKey]}}` stops the router at the
`invariant` (`getShardIdsForRanges_maxKey_point`).
-/

namespace Mongo

open SortedMap Tiling Lex

variable {V S : Type} [LinearOrder V] [DecidableEq S]

/-! ## The shard set -/

/-- The shards of a manager's version map: every shard that owns a chunk. -/
def ChunkManager.shardSet (cm : ChunkManager V S) : Finset S :=
  (cm.chunkMapViews.shardVersions.map (·.1)).toFinset

/-- What targeting needs of the views of a manager built from the tiling `cs` of `[lo, hi)`. -/
structure ViewsOf (lo hi : List V) (cs : List (Chunk V S)) (views : ChunkMapViews V S) :
    Prop where
  ranges : RangesOf lo hi cs views.chunkRangeMap.entries
  shards : ShardVersionsOf [] cs views.shardVersions

/-- **A manager built from a tiling has the views targeting needs.** -/
theorem viewsOf_create [BoundedOrder V] {n : ℕ} {chunkMap : ChunkMap V S}
    {collectionVersion : ChunkVersion} {cm : ChunkManager V S}
    (htiles : Tiles Chunk.min Chunk.max (globalMin n) (globalMax n) (chunkMap.entries.map (·.2)))
    (hcm : ChunkManager.create chunkMap collectionVersion = .ok cm) :
    ViewsOf (globalMin n) (globalMax n) (chunkMap.entries.map (·.2)) cm.chunkMapViews := by
  obtain ⟨views, hok, hR, hsv⟩ := constructChunkMapViews_tiles collectionVersion.epoch n chunkMap
    htiles
  simp only [ChunkManager.create, hok, Except.ok_bind, Except.pure_eq_ok,
    Except.ok.injEq] at hcm
  subst hcm
  exact ⟨hR, hsv⟩

section Views

variable {lo hi : List V} {cs : List (Chunk V S)} {cm : ChunkManager V S}

theorem ViewsOf.card_shardSet (hv : ViewsOf lo hi cs cm.chunkMapViews) :
    cm.shardSet.card = cm.chunkMapViews.shardVersions.length := by
  rw [ChunkManager.shardSet, List.toFinset_card_of_nodup (hv.shards.nodup List.nodup_nil),
    List.length_map]

theorem ViewsOf.mem_shardSet (hv : ViewsOf lo hi cs cm.chunkMapViews) {c : Chunk V S}
    (hc : c ∈ cs) : c.shardId ∈ cm.shardSet := by
  rw [ChunkManager.shardSet, List.mem_toFinset, hv.shards.mem_iff]
  exact Or.inr ⟨c, hc, rfl⟩

theorem ViewsOf.range_mem_shardSet (hv : ViewsOf lo hi cs cm.chunkMapViews)
    {e : List V × ShardAndChunkRange V S} (he : e ∈ cm.chunkMapViews.chunkRangeMap.entries) :
    e.2.shardId ∈ cm.shardSet := by
  obtain ⟨c, hc, hcs⟩ := hv.ranges.shardId_mem e he
  rw [← hcs]
  exact hv.mem_shardSet hc

end Views

/-! ## `getShardIdsForRange` -/

/-- The ranges `getShardIdsForRange(min, max)` visits: from `upper_bound(min)` up to one past
`upper_bound(max)`, or to the end. -/
def rangesVisited (m : OrdMap (List V) (ShardAndChunkRange V S)) (min max : List V) :
    List (List V × ShardAndChunkRange V S) :=
  let it := upperBound m.entries min
  let end₀ := upperBound m.entries max
  let end₁ := if end₀ ≠ m.entries.length then end₀ + 1 else end₀
  (m.entries.drop it).take (end₁ - it)

theorem getShardIdsForRange_eq (cm : ChunkManager V S) (min max : List V) (ids : Finset S) :
    cm.getShardIdsForRange min max ids =
      if cm.chunkMapViews.chunkRangeMap.upperBound min = cm.chunkMapViews.chunkRangeMap.size
      then .error .rangeMapExhausted
      else .ok (insertShardIds cm.chunkMapViews.shardVersions.length
        (rangesVisited cm.chunkMapViews.chunkRangeMap min max) ids) := by
  simp only [ChunkManager.getShardIdsForRange]
  by_cases h : cm.chunkMapViews.chunkRangeMap.upperBound min = cm.chunkMapViews.chunkRangeMap.size
  · rw [if_pos h, if_pos h]
    rfl
  · rw [if_neg h, if_neg h]
    rfl

omit [DecidableEq S] in
/-- **The range holding `k` is visited for any `min ≤ k ≤ max`.** -/
theorem mem_rangesVisited {lo hi : List V} {m : OrdMap (List V) (ShardAndChunkRange V S)}
    (htiles : Tiles (fun e => e.2.min) (fun e => e.2.max) lo hi m.entries)
    (hkey : ∀ e ∈ m.entries, e.1 = e.2.max) {e : List V × ShardAndChunkRange V S}
    (he : e ∈ m.entries) {k min max : List V} (hek : e.2.min ≤ k) (hke : k < e.2.max)
    (hmin : min ≤ k) (hmax : k ≤ max) : e ∈ rangesVisited m min max := by
  have hlt : min < e.1 := by
    rw [hkey e he]
    exact lt_of_le_of_lt hmin hke
  simp only [rangesVisited]
  rw [mem_drop_upperBound_take m.sorted min _ e]
  refine ⟨?_, hlt⟩
  by_cases hle : e.1 ≤ max
  · have hin : e ∈ m.entries.take (upperBound m.entries max) :=
      (mem_take_upperBound m.sorted max e).mpr ⟨he, hle⟩
    refine List.take_subset_take_left _ ?_ hin
    split_ifs <;> omega
  · by_cases hend : upperBound m.entries max = m.entries.length
    · rw [if_neg (not_not.mpr hend), hend, List.take_length]
      exact he
    · rw [if_pos hend]
      refine mem_take_upperBound_succ m.sorted he fun e' he' hlt' => ?_
      rw [hkey e' he', hkey e he] at hlt'
      rw [hkey e' he']
      calc e'.2.max ≤ e.2.min := htiles.upper_le_lower_of_upper_lt he' he hlt'
        _ ≤ k := hek
        _ ≤ max := hmax

omit [LinearOrder V] in
/-- The shards collected from `ids` are still there afterwards. -/
theorem subset_insertShardIds (numShards : ℕ) :
    ∀ (rs : List (List V × ShardAndChunkRange V S)) (ids : Finset S),
      ids ⊆ insertShardIds numShards rs ids
  | [], ids => by simp [insertShardIds]
  | r :: rs, ids => by
      simp only [insertShardIds]
      split_ifs
      · exact Finset.subset_insert _ _
      · exact (Finset.subset_insert _ _).trans (subset_insertShardIds numShards rs _)

omit [LinearOrder V] in
/-- The loop collects only shards of the ranges it meets. -/
theorem insertShardIds_subset {all : Finset S} (numShards : ℕ) :
    ∀ (rs : List (List V × ShardAndChunkRange V S)) (ids : Finset S),
      (∀ r ∈ rs, r.2.shardId ∈ all) → ids ⊆ all → insertShardIds numShards rs ids ⊆ all
  | [], ids, _, hids => hids
  | r :: rs, ids, hrs, hids => by
      have hins : insert r.2.shardId ids ⊆ all :=
        Finset.insert_subset (hrs r (List.mem_cons_self ..)) hids
      simp only [insertShardIds]
      split_ifs
      · exact hins
      · exact insertShardIds_subset numShards rs _
          (fun r' hr' => hrs r' (List.mem_cons_of_mem r hr')) hins

omit [LinearOrder V] in
/-- **Stopping early loses nothing.**  When every shard the loop can meet is in a set of
`numShards` shards, the loop ends with the shard of every range it was given: it only stops once
it holds all of them. -/
theorem mem_insertShardIds {all : Finset S} {numShards : ℕ} (hcard : all.card = numShards) :
    ∀ (rs : List (List V × ShardAndChunkRange V S)) (ids : Finset S),
      (∀ r ∈ rs, r.2.shardId ∈ all) → ids ⊆ all →
      ∀ r ∈ rs, r.2.shardId ∈ insertShardIds numShards rs ids
  | [], _, _, _ => by simp
  | r :: rs, ids, hrs, hids => by
      have hins : insert r.2.shardId ids ⊆ all :=
        Finset.insert_subset (hrs r (List.mem_cons_self ..)) hids
      intro r' hr'
      simp only [insertShardIds]
      split_ifs with hfull
      · have hall : insert r.2.shardId ids = all :=
          Finset.eq_of_subset_of_card_le hins (by omega)
        rw [hall]
        exact hrs r' hr'
      · rcases List.mem_cons.mp hr' with rfl | hr'
        · exact subset_insertShardIds numShards rs _ (Finset.mem_insert_self _ _)
        · exact mem_insertShardIds hcard rs _
            (fun r'' hr'' => hrs r'' (List.mem_cons_of_mem r hr'')) hins r' hr'

section Lookup

variable {lo hi : List V} {cs : List (Chunk V S)} {cm : ChunkManager V S}

theorem ViewsOf.getShardIdsForRange_subset (hv : ViewsOf lo hi cs cm.chunkMapViews)
    {min max : List V} {ids ids' : Finset S} (h : cm.getShardIdsForRange min max ids = .ok ids') :
    ids ⊆ ids' ∧ (ids ⊆ cm.shardSet → ids' ⊆ cm.shardSet) := by
  rw [getShardIdsForRange_eq] at h
  split_ifs at h
  cases h
  refine ⟨subset_insertShardIds _ _ _, fun hids => insertShardIds_subset _ _ _ ?_ hids⟩
  intro r hr
  exact hv.range_mem_shardSet (List.mem_of_mem_drop (List.mem_of_mem_take hr))

/-- **`getShardIdsForRange` targets the owner of every chunk holding a key in `[min, max]`,**
from any set of known shards, and does not fail. -/
theorem ViewsOf.getShardIdsForRange_mem (hv : ViewsOf lo hi cs cm.chunkMapViews)
    {c : Chunk V S} (hc : c ∈ cs) {k : List V} (hck : c.containsKey k) {min max : List V}
    (hmin : min ≤ k) (hmax : k ≤ max) {ids : Finset S} (hids : ids ⊆ cm.shardSet) :
    ∃ ids', cm.getShardIdsForRange min max ids = .ok ids' ∧ c.shardId ∈ ids' := by
  obtain ⟨e, he, hemin, hemax, hshard⟩ := hv.ranges.covers c hc
  have hek : e.2.min ≤ k := le_trans hemin hck.1
  have hke : k < e.2.max := lt_of_lt_of_le hck.2 hemax
  have hvisit := mem_rangesVisited hv.ranges.tiles hv.ranges.key_eq he hek hke hmin hmax
  have hit : cm.chunkMapViews.chunkRangeMap.upperBound min ≠
      cm.chunkMapViews.chunkRangeMap.size := by
    refine Nat.ne_of_lt (upperBound_lt_length he ?_)
    rw [hv.ranges.key_eq e he]
    exact lt_of_le_of_lt hmin hke
  rw [getShardIdsForRange_eq, if_neg hit]
  refine ⟨_, rfl, ?_⟩
  rw [← hshard]
  refine mem_insertShardIds hv.card_shardSet _ ids ?_ hids e hvisit
  intro r hr
  exact hv.range_mem_shardSet (List.mem_of_mem_drop (List.mem_of_mem_take hr))

omit [DecidableEq S] in
/-- `upper_bound(min)` in the range map is `end()` exactly when `min` is not below the end of the
key space: the last range ends there, and no range ends past it. -/
theorem ViewsOf.upperBound_eq_size_iff (hv : ViewsOf lo hi cs cm.chunkMapViews) (hne : lo < hi)
    (min : List V) :
    cm.chunkMapViews.chunkRangeMap.upperBound min = cm.chunkMapViews.chunkRangeMap.size ↔
      hi ≤ min := by
  rw [OrdMap.upperBound, OrdMap.size, upperBound_eq_length_iff]
  constructor
  · intro hall
    obtain ⟨e, he, -, hhi⟩ := hv.ranges.tiles.exists_mem_upper hne le_rfl
    rw [← hv.ranges.key_eq e he] at hhi
    exact le_trans hhi (hall e he)
  · intro hmin e he
    rw [hv.ranges.key_eq e he]
    exact le_trans (hv.ranges.tiles.bounds e he).2 hmin

/-- Below the end of the key space `getShardIdsForRange` returns. -/
theorem ViewsOf.getShardIdsForRange_ok (hv : ViewsOf lo hi cs cm.chunkMapViews) (hne : lo < hi)
    (min max : List V) (hmin : min < hi) (ids : Finset S) :
    ∃ ids', cm.getShardIdsForRange min max ids = .ok ids' := by
  have hit := mt (hv.upperBound_eq_size_iff hne min).mp (not_le.mpr hmin)
  rw [getShardIdsForRange_eq, if_neg hit]
  exact ⟨_, rfl⟩

/-- **A range from the all-`MaxKey` key fails `invariant(it != end)`**: no range of the map ends
past it. -/
theorem ViewsOf.getShardIdsForRange_of_le (hv : ViewsOf lo hi cs cm.chunkMapViews) (hne : lo < hi)
    {min : List V} (hmin : hi ≤ min) (max : List V) (ids : Finset S) :
    cm.getShardIdsForRange min max ids = .error .rangeMapExhausted := by
  rw [getShardIdsForRange_eq, if_pos ((hv.upperBound_eq_size_iff hne min).mpr hmin)]

/-- **The loop over the pairs returns** when no pair starts at the end of the key space: each
lookup returns, and the loop either goes on or stops with every shard. -/
theorem ViewsOf.getShardIdsForRanges_ok (hv : ViewsOf lo hi cs cm.chunkMapViews) (hne : lo < hi) :
    ∀ (ranges : List (List V × List V)) (ids : Finset S), ids ⊆ cm.shardSet →
      (∀ r ∈ ranges, r.1 < hi) → ∃ out, cm.getShardIdsForRanges ranges ids = .ok out
  | [], ids, _, _ => ⟨ids, rfl⟩
  | r :: ranges, ids, hids, hstart => by
      obtain ⟨ids', hr⟩ := hv.getShardIdsForRange_ok hne r.1 r.2
        (hstart r (List.mem_cons_self ..)) ids
      have hsub' := (hv.getShardIdsForRange_subset hr).2 hids
      rw [ChunkManager.getShardIdsForRanges, hr, Except.ok_bind]
      split_ifs
      · exact ⟨ids', rfl⟩
      · exact hv.getShardIdsForRanges_ok hne ranges ids' hsub'
          fun r' hr' => hstart r' (List.mem_cons_of_mem r hr')

/-- The shards collected from `ids` over the pairs are still there afterwards. -/
theorem ViewsOf.subset_getShardIdsForRanges (hv : ViewsOf lo hi cs cm.chunkMapViews) :
    ∀ (ranges : List (List V × List V)) (ids out : Finset S), ids ⊆ cm.shardSet →
      cm.getShardIdsForRanges ranges ids = .ok out → ids ⊆ out ∧ out ⊆ cm.shardSet
  | [], ids, out, hids, h => by
      simp only [ChunkManager.getShardIdsForRanges, Except.ok.injEq] at h
      subst h
      exact ⟨le_refl _, hids⟩
  | r :: ranges, ids, out, hids, h => by
      simp only [ChunkManager.getShardIdsForRanges] at h
      obtain ⟨ids', hr, hrest⟩ := Except.bind_eq_ok.mp h
      obtain ⟨hsub, hsub'⟩ := hv.getShardIdsForRange_subset hr
      split_ifs at hrest
      · cases hrest
        exact ⟨hsub, hsub' hids⟩
      · obtain ⟨h₁, h₂⟩ := hv.subset_getShardIdsForRanges ranges ids' out (hsub' hids) hrest
        exact ⟨hsub.trans h₁, h₂⟩

/-- **The loop over the pairs targets the owner of every chunk holding a key inside one of
them.** -/
theorem ViewsOf.mem_getShardIdsForRanges (hv : ViewsOf lo hi cs cm.chunkMapViews)
    {c : Chunk V S} (hc : c ∈ cs) {k : List V} (hck : c.containsKey k) :
    ∀ (ranges : List (List V × List V)) (ids out : Finset S), ids ⊆ cm.shardSet →
      (∃ r ∈ ranges, r.1 ≤ k ∧ k ≤ r.2) →
      cm.getShardIdsForRanges ranges ids = .ok out → c.shardId ∈ out
  | [], _, _, _, ⟨_, hr, _⟩, _ => absurd hr List.not_mem_nil
  | r :: ranges, ids, out, hids, ⟨r', hr', hk⟩, h => by
      simp only [ChunkManager.getShardIdsForRanges] at h
      obtain ⟨ids', hr, hrest⟩ := Except.bind_eq_ok.mp h
      have hsub' := (hv.getShardIdsForRange_subset hr).2 hids
      split_ifs at hrest with hfull
      · simp only [Except.pure_eq_ok, Except.ok.injEq] at hrest
        subst hrest
        have hall : ids' = cm.shardSet :=
          Finset.eq_of_subset_of_card_le hsub' (by rw [hv.card_shardSet, hfull])
        rw [hall]
        exact hv.mem_shardSet hc
      · rcases List.mem_cons.mp hr' with rfl | hr'
        · obtain ⟨ids'', hlook, hmem⟩ := hv.getShardIdsForRange_mem hc hck hk.1 hk.2 hids
          rw [hlook, Except.ok.injEq] at hr
          subst hr
          exact (hv.subset_getShardIdsForRanges ranges ids'' out hsub' hrest).1 hmem
        · exact hv.mem_getShardIdsForRanges hc hck ranges ids' out hsub' ⟨r', hr', hk⟩ hrest

end Lookup

/-! ## Targeting a query -/

/-- **Query targeting never misses a shard, when no pair starts at the all-`MaxKey` key.**  For a
manager built from a tiling of the shard key space, index bounds valid for the ascending
direction, and a key whose fields each lie in an interval of their field: the lookup of some pair
that `flattenBounds` returns targets the owner of the chunk holding the key.  When every pair
starts below `globalMax n`, the loop of `getShardIdsForQuery` over all pairs from an empty set
returns, and the owner is among its shards. -/
theorem owner_mem_getShardIdsForRanges [BoundedOrder V] (n : ℕ) (chunkMap : ChunkMap V S)
    (collectionVersion : ChunkVersion) (cm : ChunkManager V S)
    (htiles : Tiles Chunk.min Chunk.max (globalMin n) (globalMax n) (chunkMap.entries.map (·.2)))
    (hcm : ChunkManager.create chunkMap collectionVersion = .ok cm)
    (indexBounds : IndexBounds V) (hvalid : ∀ oil ∈ indexBounds.fields, oil.isValidFor 1 = true)
    (k : List V) (hk : KeyWithin k indexBounds.fields)
    (c : Chunk V S) (hc : c ∈ chunkMap.entries.map (·.2)) (hck : c.containsKey k)
    (ranges : List (List V × List V)) (hflat : flattenBounds indexBounds = .ok ranges)
    (hstart : ∀ r ∈ ranges, r.1 < globalMax n) :
    (∃ r ∈ ranges, ∃ ids, cm.getShardIdsForRange r.1 r.2 ∅ = .ok ids ∧ c.shardId ∈ ids) ∧
      ∃ ids, cm.getShardIdsForRanges ranges ∅ = .ok ids ∧ c.shardId ∈ ids := by
  have hv := viewsOf_create htiles hcm
  have hne : globalMin n < globalMax n :=
    calc globalMin n ≤ c.min := (htiles.bounds c hc).1
      _ < c.max := c.min_lt_max
      _ ≤ globalMax n := (htiles.bounds c hc).2
  obtain ⟨r, hr, hrk⟩ := flattenBounds_boxesKey hvalid hk hflat
  obtain ⟨ids, hids⟩ := hv.getShardIdsForRanges_ok hne ranges ∅ (Finset.empty_subset _) hstart
  refine ⟨⟨r, hr, hv.getShardIdsForRange_mem hc hck hrk.1 hrk.2 (Finset.empty_subset _)⟩, ids, hids, ?_⟩
  exact hv.mem_getShardIdsForRanges hc hck ranges ∅ ids (Finset.empty_subset _) ⟨r, hr, hrk⟩ hids

/-! ## A query with a `MaxKey` point -/

section MaxKeyPoint

/-- `10 ≠ 0`, for the numerals of `Fin 10` in the chunks and bounds below. -/
local instance maxKeyNeZero : NeZero (10 : ℕ) := Nat.instNeZeroSucc

/-- The epoch of the chunks below. -/
def maxKeyEpoch : OID := ⟨Vector.replicate 12 0⟩

def maxKeyVersion : ChunkVersion := ChunkVersion.make 1 0 maxKeyEpoch

/-- `[MinKey, 5)` on shard `0` and `[5, MaxKey)` on shard `1`, over key values `Fin 10` with `0`
as `MinKey` and `9` as `MaxKey`. -/
def maxKeyLowChunk : Chunk (Fin 10) ℕ := ⟨[0], [5], 0, maxKeyVersion, by decide, by decide⟩

def maxKeyHighChunk : Chunk (Fin 10) ℕ := ⟨[5], [9], 1, maxKeyVersion, by decide, by decide⟩

def maxKeyChunkMap : ChunkMap (Fin 10) ℕ :=
  ⟨[([5], maxKeyLowChunk), ([9], maxKeyHighChunk)], by decide⟩

/-- One range per chunk, and a version for each shard. -/
def maxKeyViews : ChunkMapViews (Fin 10) ℕ :=
  ⟨⟨[([5], ⟨[0], [5], 0⟩), ([9], ⟨[5], [9], 1⟩)], by decide⟩, [(0, maxKeyVersion), (1, maxKeyVersion)]⟩

def maxKeyManager : ChunkManager (Fin 10) ℕ :=
  ⟨maxKeyChunkMap, maxKeyViews, maxKeyVersion⟩

/-- The bounds of `{x: {$in: [3, MaxKey]}}` on the shard key `{x: 1}`: two points. -/
def maxKeyBounds : IndexBounds (Fin 10) :=
  ⟨[⟨[⟨3, true, 3, true⟩, ⟨9, true, 9, true⟩], "x"⟩]⟩

theorem create_maxKeyChunkMap :
    ChunkManager.create maxKeyChunkMap maxKeyVersion = .ok maxKeyManager := by
  have hlow : findRangeEnd maxKeyLowChunk.shardId
      (rangeStartVersion maxKeyEpoch [] maxKeyLowChunk) [maxKeyHighChunk] =
      (maxKeyVersion, [], [maxKeyHighChunk]) := by
    decide
  have hhigh : findRangeEnd maxKeyHighChunk.shardId
      (rangeStartVersion maxKeyEpoch (setShardVersion maxKeyLowChunk.shardId maxKeyVersion [])
        maxKeyHighChunk) ([] : List (Chunk (Fin 10) ℕ)) = (maxKeyVersion, [], []) := by
    decide
  have hloop : constructChunkMapViewsLoop maxKeyEpoch
      (OrdMap.empty : OrdMap (List (Fin 10)) _) [] (maxKeyChunkMap.entries.map (·.2)) =
      .ok maxKeyViews := by
    rw [show maxKeyChunkMap.entries.map (·.2) = [maxKeyLowChunk, maxKeyHighChunk] from rfl,
      constructChunkMapViewsLoop_cons hlow (by simp [OrdMap.empty]) (by simp [OrdMap.empty])
        (by decide),
      constructChunkMapViewsLoop_cons hhigh (by decide) (by decide) (by decide),
      constructChunkMapViewsLoop]
    rfl
  rw [ChunkManager.create, show maxKeyVersion.epoch = maxKeyEpoch from rfl, constructChunkMapViews,
    hloop]
  rfl

/-- **A query with a `MaxKey` point aborts the router.**  The chunks `[MinKey, 5)` on shard `0`
and `[5, MaxKey)` on shard `1` tile the key space, the bounds of `{x: {$in: [3, MaxKey]}}` are
valid, and the key `3` lies in them and in the first chunk.  `flattenBounds` returns the pairs
`(3, 3)` and `(MaxKey, MaxKey)`.  The lookup of the first targets shard `0` only, so the loop goes
on, and the lookup of the second finds no range ending past `MaxKey`: `invariant(it != end)`
fails, where the claim expects the union of the shards of both lookups. -/
theorem getShardIdsForRanges_maxKey_point :
    Tiles Chunk.min Chunk.max (globalMin 1) (globalMax 1) (maxKeyChunkMap.entries.map (·.2)) ∧
      (∀ oil ∈ maxKeyBounds.fields, oil.isValidFor 1 = true) ∧
      KeyWithin [3] maxKeyBounds.fields ∧ maxKeyLowChunk.containsKey [3] ∧
      flattenBounds maxKeyBounds = .ok [([3], [3]), ([9], [9])] ∧
      ChunkManager.create maxKeyChunkMap maxKeyVersion = .ok maxKeyManager ∧
      maxKeyManager.getShardIdsForRange [3] [3] ∅ = .ok {0} ∧
      maxKeyManager.getShardIdsForRanges [([3], [3]), ([9], [9])] ∅ =
        .error .rangeMapExhausted := by
  have htiles : Tiles Chunk.min Chunk.max (globalMin 1) (globalMax 1)
      (maxKeyChunkMap.entries.map (·.2)) := by
    decide
  have hv := viewsOf_create htiles create_maxKeyChunkMap
  have hfirst : maxKeyManager.getShardIdsForRange [3] [3] ∅ = .ok {0} := rfl
  have hsecond := hv.getShardIdsForRange_of_le (by decide) (by decide : globalMax 1 ≤ ([9] : List (Fin 10))) [9] {0}
  refine ⟨htiles, by decide, by decide, by decide, rfl, create_maxKeyChunkMap, hfirst, ?_⟩
  rw [ChunkManager.getShardIdsForRanges, hfirst, Except.ok_bind, if_neg (by decide),
    ChunkManager.getShardIdsForRanges, hsecond]
  rfl

end MaxKeyPoint

end Mongo
