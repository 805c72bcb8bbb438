import Mathlib
import Mongo.Lib.RangeList
import Mongo.S.CollectionMetadata

/-!
# What a shard's metadata answers

The chunks a shard owns are nonempty ranges, each ending at or before the start of the next
(`RangeList.Ordered`), and none starts at the empty object, which `ChunkType::validate` rejects as
a bound.  On such a `_chunksMap`:

* `buildRangesMap_spec` — `_buildRangesMap` succeeds, and the ranges it builds are again ordered
  and cover exactly the keys the chunks cover.  Its loop has one run lemma
  (`buildRangesMapLoop_spec`), whose two cases are the join of a touching chunk and the start of
  a new range.
* `keyBelongsToMe_iff_covers`, `rangeMapOverlaps_iff` — the two lookups on an ordered range map
  answer "some range contains the key" and "some range meets `[lo, hi)`".
* `keyBelongsToMe_iff_owned` — so ownership of a key, or of a range, is ownership by a chunk.
* `getNextOrphanRange_spec` — the orphan range loop ends once its fuel exceeds the number of
  ranges of the two maps, and returns nothing exactly when every key from the lookup key up is
  covered.  Otherwise it returns a gap around the first uncovered key that meets no range and
  whose ends are global bounds or endpoints of ranges.  Each iteration keeps `OrphanInv` and
  lowers `orphanMeasure` (`orphanRangeStep_progress`); the range under construction is a
  `GapAround` the key, which each `patchArgRange` keeps.
-/

namespace Mongo

open SortedMap RangeList

variable {V : Type} [LinearOrder V]

/-! ## `_buildRangesMap` -/

/-- **The loop of `_buildRangesMap`.**  From a range `[min, max)` under way, behind the ranges
already emitted, the loop ends with one more range under way; the emitted ranges followed by it
are ordered and cover what the start and the chunks left did.  By induction on the chunks
left. -/
theorem buildRangesMapLoop_spec :
    ∀ (chunks : List (List V × List V)) (rangesMap : RangeMap V) (min max : List V),
      min ≠ [] → (∀ c ∈ chunks, c.1 ≠ []) → Ordered (rangesMap.entries ++ (min, max) :: chunks) →
      ∃ rangesMap' min' max', buildRangesMapLoop rangesMap min max chunks =
          (rangesMap', min', max') ∧ min' ≠ [] ∧
        Ordered (rangesMap'.entries ++ [(min', max')]) ∧
        ∀ k, Covers (rangesMap'.entries ++ [(min', max')]) k ↔
          Covers (rangesMap.entries ++ (min, max) :: chunks) k
  | [], rangesMap, min, max, hmin, _, hord =>
      ⟨rangesMap, min, max, rfl, hmin, hord, fun _ => Iff.rfl⟩
  | (currMin, currMax) :: chunks, rangesMap, min, max, hmin, hchunks, hord => by
      have hcurr : currMin ≠ [] := hchunks _ (List.mem_cons_self ..)
      have hrest : ∀ c ∈ chunks, c.1 ≠ [] := fun c hc => hchunks c (List.mem_cons_of_mem _ hc)
      by_cases hadj : max = currMin
      · subst hadj
        have hab : min ≤ max := le_of_lt (hord.nonempty (min, max) (by simp))
        have hbc : max ≤ currMax := le_of_lt (hord.nonempty (max, currMax) (by simp))
        obtain ⟨R, m₁, m₂, hrun, hm, hord', hcov⟩ :=
          buildRangesMapLoop_spec chunks rangesMap min currMax hmin hrest hord.merge
        refine ⟨R, m₁, m₂, ?_, hm, hord', fun k => ?_⟩
        · rw [buildRangesMapLoop, if_neg hmin, if_pos rfl, hrun]
        · rw [hcov k, covers_merge _ _ hab hbc]
      · have hins : (rangesMap.insert min max).entries = rangesMap.entries ++ [(min, max)] :=
          insert_of_forall_lt hord.fst_lt_of_append max
        have hord₁ : Ordered ((rangesMap.insert min max).entries ++ (currMin, currMax) :: chunks) := by
          rw [hins, List.append_assoc]
          exact hord
        obtain ⟨R, m₁, m₂, hrun, hm, hord', hcov⟩ :=
          buildRangesMapLoop_spec chunks (rangesMap.insert min max) currMin currMax hcurr hrest hord₁
        refine ⟨R, m₁, m₂, ?_, hm, hord', fun k => ?_⟩
        · rw [buildRangesMapLoop, if_neg hmin, if_neg hadj, hrun]
        · rw [hcov k, hins, List.append_assoc, List.singleton_append]

/-- **`_buildRangesMap` on this shard's chunks**: it passes its `invariant`s, and the ranges it
builds are ordered and cover exactly the keys the chunks cover. -/
theorem buildRangesMap_spec {chunksMap : RangeMap V} (hne : chunksMap.entries ≠ [])
    (hmin : ∀ c ∈ chunksMap.entries, c.1 ≠ []) (hord : Ordered chunksMap.entries) :
    ∃ rangesMap, buildRangesMap chunksMap = some rangesMap ∧ Ordered rangesMap.entries ∧
      ∀ k, Covers rangesMap.entries k ↔ Covers chunksMap.entries k := by
  obtain ⟨⟨first, firstMax⟩, chunks, hentries⟩ := List.exists_cons_of_ne_nil hne
  -- the first iteration meets `min.isEmpty()` and starts the first range at the first chunk
  have hstart : buildRangesMapLoop (OrdMap.empty : RangeMap V) [] [] chunksMap.entries =
      buildRangesMapLoop OrdMap.empty first firstMax chunks := by
    rw [hentries, buildRangesMapLoop, if_pos rfl]
  have hord₀ : Ordered ((OrdMap.empty : RangeMap V).entries ++ (first, firstMax) :: chunks) := by
    rw [← hentries]
    exact hord
  obtain ⟨R, m₁, m₂, hrun, hm₁, hord', hcov⟩ := buildRangesMapLoop_spec chunks OrdMap.empty
    first firstMax (hmin (first, firstMax) (by simp [hentries]))
    (fun c hc => hmin c (by simp [hentries, hc]))
    hord₀
  have hm₂ : m₂ ≠ [] := by
    rintro rfl
    exact List.not_lt_nil m₁ (hord'.nonempty (m₁, []) (by simp))
  have hins : (R.insert m₁ m₂).entries = R.entries ++ [(m₁, m₂)] :=
    insert_of_forall_lt hord'.fst_lt_of_append m₂
  refine ⟨R.insert m₁ m₂, ?_, hins ▸ hord', fun k => ?_⟩
  · simp only [buildRangesMap, hstart, hrun, hm₁, hm₂, or_self, if_false]
  · rw [hins, hcov k, ← hentries]
    rfl

/-- `_rangesMap` as the constructor leaves it is ordered and covers what `_chunksMap` covers. -/
theorem rangesMapOf_spec {chunksMap : RangeMap V} (hmin : ∀ c ∈ chunksMap.entries, c.1 ≠ [])
    (hord : Ordered chunksMap.entries) :
    ∃ rangesMap, rangesMapOf chunksMap = some rangesMap ∧ Ordered rangesMap.entries ∧
      ∀ k, Covers rangesMap.entries k ↔ Covers chunksMap.entries k := by
  by_cases hne : chunksMap.entries = []
  · refine ⟨OrdMap.empty, by simp [rangesMapOf, hne], Ordered.nil, fun k => ?_⟩
    simp [OrdMap.empty, hne]
  · rw [rangesMapOf, if_neg hne]
    exact buildRangesMap_spec hne hmin hord

/-! ## Lookups in an ordered range map -/

/-- **`keyBelongsToMe` on an ordered range map is coverage.** -/
theorem keyBelongsToMe_iff_covers (md : CollectionMetadata V) (h : Ordered md.rangesMap.entries)
    (key : List V) : md.keyBelongsToMe key = true ↔ Covers md.rangesMap.entries key := by
  simp only [CollectionMetadata.keyBelongsToMe, OrdMap.upperBound]
  rw [h.covers_iff_upperBound]
  obtain ⟨_, _, _, ⟨l, _⟩⟩ := md
  dsimp only at h ⊢
  have hlen := upperBound_le_length l key
  rcases l with _ | ⟨e, es⟩
  · simp
  by_cases hu : upperBound (e :: es) key = 0
  · -- no range starts at or before the key: `it` stays at `begin()`, a range after the key
    have hkey : key < e.1 := by
      have he : e ∈ (e :: es).drop (upperBound (e :: es) key) := by
        rw [hu]
        exact List.mem_cons_self ..
      exact ((mem_drop_upperBound h.keysSorted key e).mp he).2
    simp [hu, rangeContains, not_le.mpr hkey]
  · rw [getLast?_take_of_le hlen, if_neg hu]
    cases hp : (e :: es)[upperBound (e :: es) key - 1]? with
    | none => simp [hu, hp]
    | some p =>
        have hpk : p.1 ≤ key := by
          have hmem : p ∈ (e :: es).take (upperBound (e :: es) key) := by
            apply List.mem_of_getLast?
            rw [getLast?_take_of_le hlen, if_neg hu, hp]
          exact ((mem_take_upperBound h.keysSorted key p).mp hmem).2
        simp [hu, hp, rangeContains, hpk]

/-- **`rangeMapOverlaps` on an ordered range map finds the ranges that meet `[lo, hi)`.** -/
theorem rangeMapOverlaps_iff {ranges : RangeMap V} (h : Ordered ranges.entries) {lo hi : List V}
    (hlt : lo < hi) :
    rangeMapOverlaps ranges lo hi = true ↔ ∃ r ∈ ranges.entries, r.1 < hi ∧ lo < r.2 := by
  rw [h.exists_overlap_iff_lowerBound hlt]
  have hmono := lowerBound_mono ranges.entries hlt.le
  have hlen := lowerBound_le_length ranges.entries lo
  simp only [rangeMapOverlaps, rangeMapOverlapBounds, OrdMap.lowerBound]
  by_cases h0 : lowerBound ranges.entries lo = 0
  · simp only [h0, if_true, List.take_zero, List.getLast?_nil, bne_iff_ne, ne_eq,
      Option.mem_def, reduceCtorEq, false_and, exists_false, false_or]
    omega
  · rw [getLast?_take_of_le hlen, if_neg h0]
    cases hp : ranges.entries[lowerBound ranges.entries lo - 1]? with
    | none =>
        simp only [h0, if_false, bne_iff_ne, ne_eq, reduceCtorEq, false_and, exists_const,
          Option.mem_def, false_or]
        omega
    | some p =>
        by_cases hle : p.2 ≤ lo
        · simp only [h0, if_false, hle, if_true, bne_iff_ne, ne_eq, Option.mem_def,
            Option.some.injEq, exists_eq_left', not_lt.mpr hle, false_or]
          omega
        · simp only [h0, if_false, hle, bne_iff_ne, ne_eq, Option.mem_def,
            Option.some.injEq, exists_eq_left', not_le.mp hle, true_or, iff_true]
          omega

/-- **Ownership lookups agree with the owned chunks.**  On metadata whose `_rangesMap` the
constructor built from `_chunksMap`, with the chunks nonempty, ordered and not starting at the
empty object, `keyBelongsToMe(k)` holds exactly when a chunk contains `k`, and
`rangeOverlapsChunk` of a nonempty range exactly when a chunk meets it. -/
theorem keyBelongsToMe_iff_owned (md : CollectionMetadata V)
    (hbuilt : rangesMapOf md.chunksMap = some md.rangesMap)
    (hmin : ∀ c ∈ md.chunksMap.entries, c.1 ≠ []) (hchunks : Ordered md.chunksMap.entries) :
    (∀ k, md.keyBelongsToMe k = true ↔ ∃ c ∈ md.chunksMap.entries, c.1 ≤ k ∧ k < c.2) ∧
      ∀ range : ChunkRange V, range.min < range.max →
        (md.rangeOverlapsChunk range = true ↔
          ∃ c ∈ md.chunksMap.entries, c.1 < range.max ∧ range.min < c.2) := by
  obtain ⟨R, hR, hord, hcov⟩ := rangesMapOf_spec hmin hchunks
  obtain rfl : R = md.rangesMap := Option.some.inj (hR.symm.trans hbuilt)
  refine ⟨fun k => (keyBelongsToMe_iff_covers md hord k).trans (hcov k), fun range hlt => ?_⟩
  rw [CollectionMetadata.rangeOverlapsChunk, rangeMapOverlaps_iff hord hlt,
    exists_overlap_iff hord.nonempty hlt, exists_overlap_iff hchunks.nonempty hlt]
  simp only [hcov]

/-- The epoch of the versions below. -/
def metadataEpoch : OID := ⟨Vector.replicate 12 0⟩

/-- Three owned chunks, two of them touching: `[1, 3)`, `[3, 5)` and `[7, 9)`. -/
def touchingChunks : RangeMap ℕ := ⟨[([1], [3]), ([3], [5]), ([7], [9])], by decide⟩

/-- The same chunks coalesced: `[1, 5)` and `[7, 9)`. -/
def touchingRanges : RangeMap ℕ := ⟨[([1], [5]), ([7], [9])], by decide⟩

def touchingMetadata : CollectionMetadata ℕ :=
  ⟨1, ChunkVersion.make 1 0 metadataEpoch, touchingChunks, touchingRanges⟩

theorem keyBelongsToMe_iff_owned_touching :
    rangesMapOf touchingMetadata.chunksMap = some touchingMetadata.rangesMap ∧
      (∀ c ∈ touchingMetadata.chunksMap.entries, c.1 ≠ []) ∧
      Ordered touchingMetadata.chunksMap.entries ∧
      ((∀ k, touchingMetadata.keyBelongsToMe k = true ↔
          ∃ c ∈ touchingMetadata.chunksMap.entries, c.1 ≤ k ∧ k < c.2) ∧
        ∀ range : ChunkRange ℕ, range.min < range.max →
          (touchingMetadata.rangeOverlapsChunk range = true ↔
            ∃ c ∈ touchingMetadata.chunksMap.entries, c.1 < range.max ∧ range.min < c.2)) :=
  ⟨rfl, by decide, by decide, keyBelongsToMe_iff_owned touchingMetadata rfl (by decide) (by decide)⟩

/-- The key where the two touching chunks meet is owned; the end of the coalesced range is not,
and neither is the gap after it. -/
example : touchingMetadata.keyBelongsToMe [3] = true ∧ touchingMetadata.keyBelongsToMe [5] = false ∧
    touchingMetadata.rangeOverlapsChunk ⟨[5], [7]⟩ = false := by
  decide

/-! ## `getNextOrphanRange`: one lookup -/

/-- `patchLookupKey` when no range of the map starts at or before the key: `lowerIt` is the
last range before the cut at `upper_bound(k)`, and there is none. -/
theorem patchLookupKey_of_getLast?_none {map : RangeMap V} {k : List V}
    (h : (map.entries.take (upperBound map.entries k)).getLast? = none) :
    patchLookupKey map k = .its none (map.entries.drop (upperBound map.entries k)).head? := by
  rw [patchLookupKey, OrdMap.upperBound,
    ← getLast?_take_of_le (upperBound_le_length map.entries k), h, List.head?_drop]

/-- `patchLookupKey` when `lower` is the last range before the cut at `upper_bound(k)`. -/
theorem patchLookupKey_of_getLast?_some {map : RangeMap V} {k : List V} {lower : List V × List V}
    (h : (map.entries.take (upperBound map.entries k)).getLast? = some lower) :
    patchLookupKey map k = if k < lower.2 then .moved lower.2
      else .its (some lower) (map.entries.drop (upperBound map.entries k)).head? := by
  rw [patchLookupKey, OrdMap.upperBound,
    ← getLast?_take_of_le (upperBound_le_length map.entries k), h, List.head?_drop]

/-- What `patchLookupKey` returns around a key that no range of the map covers: the ranges just
before and just after the key, between which nothing of the map lies. -/
structure ItsAround (map : List (List V × List V)) (k : List V)
    (lowerIt upperIt : Option (List V × List V)) : Prop where
  lower : ∀ p ∈ lowerIt, p ∈ map ∧ p.2 ≤ k
  upper : ∀ q ∈ upperIt, q ∈ map ∧ k < q.1
  avoids : ∀ a b, (∀ p ∈ lowerIt, p.2 ≤ a) → (∀ q ∈ upperIt, b ≤ q.1) → Avoids map a b

/-- **What `patchLookupKey` finds.**  Either a range of the map covers the key, and the loop
moves to that range's end, or no range covers it, and the loop has the ranges around it. -/
theorem patchLookupKey_spec {map : RangeMap V} (h : Ordered map.entries) (k : List V) :
    (∃ r ∈ map.entries, r.1 ≤ k ∧ k < r.2 ∧ patchLookupKey map k = .moved r.2) ∨
      ∃ lowerIt upperIt, patchLookupKey map k = .its lowerIt upperIt ∧
        ¬ Covers map.entries k ∧ ItsAround map.entries k lowerIt upperIt := by
  have hupper : ∀ q ∈ (map.entries.drop (upperBound map.entries k)).head?,
      q ∈ map.entries ∧ k < q.1 :=
    fun q hq => (mem_drop_upperBound h.keysSorted k q).mp (List.mem_of_mem_head? hq)
  rw [h.covers_iff_upperBound]
  cases hp : (map.entries.take (upperBound map.entries k)).getLast? with
  | none =>
      refine Or.inr ⟨none, (map.entries.drop (upperBound map.entries k)).head?,
        patchLookupKey_of_getLast?_none hp, by simp, ?_⟩
      exact ⟨by simp, hupper, fun a b _ hb => h.avoids_upperBound k (by simp [hp]) hb⟩
  | some p =>
      obtain ⟨hpmem, hpk⟩ :=
        (mem_take_upperBound h.keysSorted k p).mp (List.mem_of_getLast? hp)
      by_cases hkp : k < p.2
      · refine Or.inl ⟨p, hpmem, hpk, hkp, ?_⟩
        rw [patchLookupKey_of_getLast?_some hp]
        exact if_pos hkp
      · refine Or.inr ⟨some p, (map.entries.drop (upperBound map.entries k)).head?, ?_,
          by simp [hkp], ?_⟩
        · rw [patchLookupKey_of_getLast?_some hp]
          exact if_neg hkp
        refine ⟨fun p' hp' => ?_, hupper, fun a b ha hb => h.avoids_upperBound k (hp ▸ ha) hb⟩
        obtain rfl := Option.some.inj hp'
        exact ⟨hpmem, not_lt.mp hkp⟩

@[simp] theorem patchArgRange_min_some (lower : List V × List V)
    (upperIt : Option (List V × List V)) (range : ChunkRange V) :
    (patchArgRange (some lower) upperIt range).min = max range.min lower.2 := by
  dsimp only [patchArgRange]
  split_ifs with h
  · exact (max_eq_right h.le).symm
  · exact (max_eq_left (not_lt.mp h)).symm

@[simp] theorem patchArgRange_min_none (upperIt : Option (List V × List V))
    (range : ChunkRange V) : (patchArgRange none upperIt range).min = range.min := rfl

@[simp] theorem patchArgRange_max_some (lowerIt : Option (List V × List V))
    (upper : List V × List V) (range : ChunkRange V) :
    (patchArgRange lowerIt (some upper) range).max = min range.max upper.1 := by
  dsimp only [patchArgRange]
  split_ifs with h
  · exact (min_eq_right h.le).symm
  · exact (min_eq_left (not_lt.mp h)).symm

@[simp] theorem patchArgRange_max_none (lowerIt : Option (List V × List V))
    (range : ChunkRange V) : (patchArgRange lowerIt none range).max = range.max := rfl

/-- The range that `getNextOrphanRange` builds around the key `k`: it contains `k`, meets no range
of `ends`, and each of its ends is a global bound or an endpoint of a range of `ends`. -/
structure GapAround (ends : List (List V × List V)) (minKey maxKey k : List V)
    (range : ChunkRange V) : Prop where
  min_le : range.min ≤ k
  lt_max : k < range.max
  avoids : Avoids ends range.min range.max
  min_eq : range.min = minKey ∨ ∃ e ∈ ends, range.min = e.2
  max_eq : range.max = maxKey ∨ ∃ e ∈ ends, range.max = e.1

theorem gapAround_start {minKey maxKey k : List V} (hmin : minKey ≤ k) (hmax : k < maxKey) :
    GapAround [] minKey maxKey k ⟨minKey, maxKey⟩ :=
  ⟨hmin, hmax, fun _ h => absurd h List.not_mem_nil, Or.inl rfl, Or.inl rfl⟩

section PatchArgRange

variable {map : List (List V × List V)} {k : List V} {lowerIt upperIt : Option (List V × List V)}

/-- The lower end after `patchArgRange`: raised to the end of `lowerIt`, and still at or below
an uncovered key. -/
theorem patchArgRange_min_spec (hits : ItsAround map k lowerIt upperIt) {range : ChunkRange V}
    (hk : range.min ≤ k) :
    range.min ≤ (patchArgRange lowerIt upperIt range).min ∧
      (∀ p ∈ lowerIt, p.2 ≤ (patchArgRange lowerIt upperIt range).min) ∧
      (patchArgRange lowerIt upperIt range).min ≤ k ∧
      ((patchArgRange lowerIt upperIt range).min = range.min ∨
        ∃ p ∈ map, (patchArgRange lowerIt upperIt range).min = p.2) := by
  cases lowerIt with
  | none => simp [hk]
  | some p =>
      obtain ⟨hp, hpk⟩ := hits.lower p rfl
      rw [patchArgRange_min_some]
      refine ⟨le_max_left _ _, fun p' hp' => ?_, max_le hk hpk,
        (max_choice _ _).imp id fun h => ⟨p, hp, h⟩⟩
      obtain rfl := Option.some.inj hp'
      exact le_max_right _ _

/-- The upper end after `patchArgRange`: lowered to the start of `upperIt`, and still above an
uncovered key. -/
theorem patchArgRange_max_spec (hits : ItsAround map k lowerIt upperIt) {range : ChunkRange V}
    (hk : k < range.max) :
    (patchArgRange lowerIt upperIt range).max ≤ range.max ∧
      (∀ q ∈ upperIt, (patchArgRange lowerIt upperIt range).max ≤ q.1) ∧
      k < (patchArgRange lowerIt upperIt range).max ∧
      ((patchArgRange lowerIt upperIt range).max = range.max ∨
        ∃ q ∈ map, (patchArgRange lowerIt upperIt range).max = q.1) := by
  cases upperIt with
  | none => simp [hk]
  | some q =>
      obtain ⟨hq, hkq⟩ := hits.upper q rfl
      rw [patchArgRange_max_some]
      refine ⟨min_le_left _ _, fun q' hq' => ?_, lt_min hk hkq,
        (min_choice _ _).imp id fun h => ⟨q, hq, h⟩⟩
      obtain rfl := Option.some.inj hq'
      exact min_le_right _ _

/-- **`patchArgRange` keeps the gap around an uncovered key**, and clears it of the map's
ranges. -/
theorem GapAround.patchArgRange {ends : List (List V × List V)} {minKey maxKey : List V}
    {range : ChunkRange V} (hg : GapAround ends minKey maxKey k range)
    (hits : ItsAround map k lowerIt upperIt) :
    GapAround (ends ++ map) minKey maxKey k (patchArgRange lowerIt upperIt range) := by
  obtain ⟨hmin₁, hmin₂, hmin₃, hmin₄⟩ := patchArgRange_min_spec hits hg.min_le
  obtain ⟨hmax₁, hmax₂, hmax₃, hmax₄⟩ := patchArgRange_max_spec hits hg.lt_max
  refine ⟨hmin₃, hmax₃,
    avoids_append.mpr ⟨hg.avoids.mono hmin₁ hmax₁, hits.avoids _ _ hmin₂ hmax₂⟩, ?_, ?_⟩
  · rcases hmin₄ with h | ⟨p, hp, h⟩
    · rcases hg.min_eq with h' | ⟨e, he, h'⟩
      · exact Or.inl (h.trans h')
      · exact Or.inr ⟨e, List.mem_append_left _ he, h.trans h'⟩
    · exact Or.inr ⟨p, List.mem_append_right _ hp, h⟩
  · rcases hmax₄ with h | ⟨q, hq, h⟩
    · rcases hg.max_eq with h' | ⟨e, he, h'⟩
      · exact Or.inl (h.trans h')
      · exact Or.inr ⟨e, List.mem_append_left _ he, h.trans h'⟩
    · exact Or.inr ⟨q, List.mem_append_right _ hq, h⟩

end PatchArgRange

/-! ## `getNextOrphanRange`: the loop -/

/-- `x` is the least key from `k₀` up that no range of `ends` covers. -/
structure FirstUncovered (ends : List (List V × List V)) (k₀ x : List V) : Prop where
  le : k₀ ≤ x
  not_covers : ¬ Covers ends x
  covers_below : ∀ y, k₀ ≤ y → y < x → Covers ends y

/-- The invariant of the loop of `getNextOrphanRange` from `k₀`, over the ranges `ends` of both
maps: the keys from `k₀` up to the lookup key are covered, and a returned range is a gap around
the first uncovered key. -/
def OrphanInv (ends : List (List V × List V)) (minKey maxKey k₀ : List V) :
    OrphanSearch V → Prop
  | .lookup lookupKey => k₀ ≤ lookupKey ∧ ∀ y, k₀ ≤ y → y < lookupKey → Covers ends y
  | .found range => ∃ x, FirstUncovered ends k₀ x ∧ x < maxKey ∧ GapAround ends minKey maxKey x range

/-- The measure of the loop: one more than the number of ranges that end past the lookup key. -/
def orphanMeasure (ends : List (List V × List V)) : OrphanSearch V → ℕ
  | .lookup lookupKey => ends.countP (fun e => lookupKey < e.2) + 1
  | .found _ => 0

/-- **Moving past a covering range** keeps the invariant and lowers the measure. -/
theorem OrphanInv.move {ends : List (List V × List V)} {minKey maxKey k₀ k : List V}
    (hs : OrphanInv ends minKey maxKey k₀ (.lookup k)) {r : List V × List V} (hr : r ∈ ends)
    (hrk : r.1 ≤ k) (hkr : k < r.2) :
    OrphanInv ends minKey maxKey k₀ (.lookup r.2) ∧
      orphanMeasure ends (.lookup r.2) < orphanMeasure ends (.lookup k) := by
  obtain ⟨hk₀, hcov⟩ := hs
  refine ⟨⟨le_trans hk₀ hkr.le, fun y hy₀ hy => ?_⟩, ?_⟩
  · by_cases hyk : y < k
    · exact hcov y hy₀ hyk
    · exact ⟨r, hr, le_trans hrk (not_lt.mp hyk), hy⟩
  · simp only [orphanMeasure, Nat.add_lt_add_iff_right]
    refine countP_lt_countP (fun e _ he => ?_) hr (by simpa using hkr) (by simp)
    simp only [decide_eq_true_eq] at he ⊢
    exact lt_trans hkr he

/-- **One iteration of the loop**: from a state that keeps the invariant and has not ended, the
iteration moves the lookup key past a covering range of one of the maps, or returns the gap
around the key; either way the invariant holds and the measure drops. -/
theorem orphanRangeStep_progress [BoundedOrder V] {md : CollectionMetadata V}
    {receivingChunks : RangeMap V} (hC : Ordered md.chunksMap.entries)
    (hP : Ordered receivingChunks.entries) {k₀ : List V} (hk₀ : md.getMinKey ≤ k₀)
    (s : OrphanSearch V)
    (hs : OrphanInv (md.chunksMap.entries ++ receivingChunks.entries) md.getMinKey md.getMaxKey
      k₀ s)
    (hd : ¬ s.done md.getMaxKey) :
    ∃ s', md.orphanRangeStep receivingChunks s = .ok s' ∧
      OrphanInv (md.chunksMap.entries ++ receivingChunks.entries) md.getMinKey md.getMaxKey
        k₀ s' ∧
      orphanMeasure (md.chunksMap.entries ++ receivingChunks.entries) s' <
        orphanMeasure (md.chunksMap.entries ++ receivingChunks.entries) s := by
  cases s with
  | found range => exact absurd trivial hd
  | lookup k =>
      have hkmax : k < md.getMaxKey := not_not.mp hd
      rcases patchLookupKey_spec hC k with ⟨r, hr, hrk, hkr, hpatch⟩ | ⟨cl, cu, hpatch, hnc, hits⟩
      · exact ⟨.lookup r.2, by simp [CollectionMetadata.orphanRangeStep, hpatch],
          hs.move (List.mem_append_left _ hr) hrk hkr⟩
      rcases patchLookupKey_spec hP k with ⟨r, hr, hrk, hkr, hpatch'⟩ | ⟨pl, pu, hpatch', hnp, hits'⟩
      · exact ⟨.lookup r.2, by simp [CollectionMetadata.orphanRangeStep, hpatch, hpatch'],
          hs.move (List.mem_append_right _ hr) hrk hkr⟩
      · have hgap := ((gapAround_start (le_trans hk₀ hs.1) hkmax).patchArgRange hits).patchArgRange
          hits'
        rw [List.nil_append] at hgap
        refine ⟨.found (patchArgRange pl pu (patchArgRange cl cu ⟨md.getMinKey, md.getMaxKey⟩)),
          by simp [CollectionMetadata.orphanRangeStep, hpatch, hpatch'],
          ⟨k, ⟨hs.1, ?_, hs.2⟩, hkmax, hgap⟩, by simp [orphanMeasure]⟩
        rw [covers_append]
        exact fun h => h.elim hnc hnp

/-- **The next orphan range is a maximal gap.**  With the owned chunks and the incoming ones each
ordered, and a lookup key at or above the global minimum, the loop of `getNextOrphanRange` ends
once its fuel exceeds the number of ranges of the two maps, with a result that more fuel does not
change.  It returns nothing exactly when every key from the lookup key up to the global maximum
is covered.  Otherwise it returns a nonempty range that meets no range of either map, contains
the first uncovered key from the lookup key up, and whose ends are global bounds or endpoints of
ranges of the maps. -/
theorem getNextOrphanRange_spec [BoundedOrder V] (md : CollectionMetadata V)
    (receivingChunks : RangeMap V) (hC : Ordered md.chunksMap.entries)
    (hP : Ordered receivingChunks.entries) (origLookupKey : List V)
    (hk : md.getMinKey ≤ origLookupKey) :
    ∃ result : Option (ChunkRange V),
      (∀ fuel, md.chunksMap.size + receivingChunks.size + 1 < fuel →
        md.getNextOrphanRange receivingChunks origLookupKey fuel = .ok result) ∧
      (result = none ↔ ∀ x, origLookupKey ≤ x → x < md.getMaxKey →
        Covers (md.chunksMap.entries ++ receivingChunks.entries) x) ∧
      ∀ range ∈ result, range.min < range.max ∧
        Avoids (md.chunksMap.entries ++ receivingChunks.entries) range.min range.max ∧
        (∃ x, range.min ≤ x ∧ x < range.max ∧
          FirstUncovered (md.chunksMap.entries ++ receivingChunks.entries) origLookupKey x) ∧
        (range.min = md.getMinKey ∨
          ∃ e ∈ md.chunksMap.entries ++ receivingChunks.entries, range.min = e.2) ∧
        (range.max = md.getMaxKey ∨
          ∃ e ∈ md.chunksMap.entries ++ receivingChunks.entries, range.max = e.1) := by
  have hinit : OrphanInv (md.chunksMap.entries ++ receivingChunks.entries) md.getMinKey
      md.getMaxKey origLookupKey (.lookup origLookupKey) :=
    ⟨le_rfl, fun y hy₀ hy => absurd (lt_of_lt_of_le hy hy₀) (lt_irrefl _)⟩
  obtain ⟨s, hs, hd, hrun⟩ := Loop.runState_of_progress
    (fun s hs hd => orphanRangeStep_progress hC hP hk s hs hd) _ hinit
  have hfuel : ∀ fuel, md.chunksMap.size + receivingChunks.size + 1 < fuel →
      orphanMeasure (md.chunksMap.entries ++ receivingChunks.entries)
        (.lookup origLookupKey) < fuel := by
    intro fuel hlt
    have hcount := List.countP_le_length (p := fun e => decide (origLookupKey < e.2))
      (l := md.chunksMap.entries ++ receivingChunks.entries)
    simp only [orphanMeasure, List.length_append] at hcount ⊢
    simp only [OrdMap.size] at hlt
    omega
  cases s with
  | lookup k =>
      refine ⟨none, fun fuel hlt => ?_, ?_, by simp⟩
      · rw [CollectionMetadata.getNextOrphanRange, hrun fuel (hfuel fuel hlt)]
        rfl
      · simp only [true_iff]
        exact fun x hx₀ hx => hs.2 x hx₀ (lt_of_lt_of_le hx (not_lt.mp hd))
  | found r =>
      obtain ⟨x, hfirst, hxmax, hgap⟩ := hs
      refine ⟨some r, fun fuel hlt => ?_, ?_, ?_⟩
      · rw [CollectionMetadata.getNextOrphanRange, hrun fuel (hfuel fuel hlt)]
        rfl
      · simp only [reduceCtorEq, false_iff, not_forall]
        exact ⟨x, hfirst.le, hxmax, hfirst.not_covers⟩
      · intro range hrange
        obtain rfl := Option.some.inj hrange
        exact ⟨lt_of_le_of_lt hgap.min_le hgap.lt_max, hgap.avoids,
          ⟨x, hgap.min_le, hgap.lt_max, hfirst⟩, hgap.min_eq, hgap.max_eq⟩

section OrphanExample

/-- `10 ≠ 0`, for the numerals of `Fin 10` in the chunks below. -/
local instance neZeroTen : NeZero (10 : ℕ) := Nat.instNeZeroSucc

/-- An owned chunk `[2, 4)` and an incoming chunk `[4, 5)` of a one-field shard key over
`0, …, 9`, with `MinKey = 0` and `MaxKey = 9`. -/
def orphanChunks : RangeMap (Fin 10) := ⟨[([2], [4])], by decide⟩

def orphanIncoming : RangeMap (Fin 10) := ⟨[([4], [5])], by decide⟩

end OrphanExample

def orphanMetadata : CollectionMetadata (Fin 10) :=
  ⟨1, ChunkVersion.make 1 0 metadataEpoch, orphanChunks, orphanChunks⟩

theorem getNextOrphanRange_spec_past_incoming :
    Ordered orphanMetadata.chunksMap.entries ∧ Ordered orphanIncoming.entries ∧
      orphanMetadata.getMinKey ≤ [3] ∧
      ∃ result : Option (ChunkRange (Fin 10)),
        (∀ fuel, orphanMetadata.chunksMap.size + orphanIncoming.size + 1 < fuel →
          orphanMetadata.getNextOrphanRange orphanIncoming [3] fuel = .ok result) ∧
        (result = none ↔ ∀ x, [3] ≤ x → x < orphanMetadata.getMaxKey →
          Covers (orphanMetadata.chunksMap.entries ++ orphanIncoming.entries) x) ∧
        ∀ range ∈ result, range.min < range.max ∧
          Avoids (orphanMetadata.chunksMap.entries ++ orphanIncoming.entries) range.min range.max ∧
          (∃ x, range.min ≤ x ∧ x < range.max ∧
            FirstUncovered (orphanMetadata.chunksMap.entries ++ orphanIncoming.entries) [3] x) ∧
          (range.min = orphanMetadata.getMinKey ∨
            ∃ e ∈ orphanMetadata.chunksMap.entries ++ orphanIncoming.entries, range.min = e.2) ∧
          (range.max = orphanMetadata.getMaxKey ∨
            ∃ e ∈ orphanMetadata.chunksMap.entries ++ orphanIncoming.entries, range.max = e.1) :=
  ⟨by decide, by decide, by decide,
    getNextOrphanRange_spec orphanMetadata orphanIncoming (by decide) (by decide) [3] (by decide)⟩

/-- From `[3]` the loop skips the owned chunk to `[4]` and the incoming one to `[5]`, and returns
the gap `[5, MaxKey)`. -/
example : orphanMetadata.getNextOrphanRange orphanIncoming [3] 5 = .ok (some ⟨[5], [9]⟩) := by
  decide

end Mongo
