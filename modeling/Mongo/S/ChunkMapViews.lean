import Mathlib
import Mongo.S.ChunkManager

/-!
# What `_constructChunkMapViews` builds from a tiling

On a chunk map that tiles the shard key space, with every chunk version set, the construction
of the views succeeds, and what it builds is again a tiling: one range per maximal run of
chunks on one shard, keyed by its upper bound, each range holding chunks of its own shard and
every chunk inside a range.  The version map names each shard that has chunks exactly once.

* `constructChunkMapViewsLoop_cons` — one iteration, when its checks pass: the range goes to the
  end of `chunkRangeMap` and the loop continues after the run.
* `constructChunkMapViewsLoop_tiles` — the whole loop, by strong induction on the chunks left.
* `constructChunkMapViews_tiles` — the construction succeeds on a tiling of
  `[globalMin n, globalMax n)` and its ranges tile that space.
* `routing_agrees_of_tiles` — on such a tiling `findIntersectingChunk` returns the chunk that
  holds a key, and the range of `chunkRangeMap` that holds it names that chunk's shard.

The checks of the construction do not give the tiling back: they compare the bounds of
consecutive runs only, so a gap between two chunks of one shard passes
(`constructChunkMapViews_accepts_gap`).
-/

namespace Mongo

open SortedMap Tiling

variable {V S : Type} [LinearOrder V] [DecidableEq S]

/-! ## The `find_if` -/

theorem findRangeEnd_append (shard : S) :
    ∀ (v : ChunkVersion) (cs : List (Chunk V S)),
      (findRangeEnd shard v cs).2.1 ++ (findRangeEnd shard v cs).2.2 = cs
  | _, [] => rfl
  | v, c :: cs => by
      by_cases h : c.shardId = shard
      · simp only [findRangeEnd, h, ne_eq, not_true_eq_false, if_false, List.cons_append,
          findRangeEnd_append shard _ cs]
      · simp [findRangeEnd, h]

theorem findRangeEnd_shardId (shard : S) :
    ∀ (v : ChunkVersion) (cs : List (Chunk V S)), ∀ c ∈ (findRangeEnd shard v cs).2.1,
      c.shardId = shard
  | _, [] => by simp [findRangeEnd]
  | v, c :: cs => by
      by_cases h : c.shardId = shard
      · intro d hd
        simp only [findRangeEnd, h, ne_eq, not_true_eq_false, if_false, List.mem_cons] at hd
        rcases hd with rfl | hd
        · exact h
        · exact findRangeEnd_shardId shard _ cs d hd
      · simp [findRangeEnd, h]

/-- The `find_if` only ever raises `maxShardVersion`. -/
theorem le_findRangeEnd (shard : S) :
    ∀ (v : ChunkVersion) (cs : List (Chunk V S)), v ≤ (findRangeEnd shard v cs).1
  | _, [] => le_refl _
  | v, c :: cs => by
      by_cases h : c.shardId = shard
      · have ih := le_findRangeEnd shard (if c.lastmod > v then c.lastmod else v) cs
        simp only [findRangeEnd, h, ne_eq, not_true_eq_false, if_false]
        refine le_trans ?_ ih
        split_ifs with hlt
        · exact le_of_lt hlt
        · exact le_refl v
      · simp [findRangeEnd, h]

theorem lastmod_le_rangeStartVersion (epoch : OID) (sv : List (S × ChunkVersion))
    (first : Chunk V S) : first.lastmod ≤ rangeStartVersion epoch sv first := by
  simp only [rangeStartVersion]
  split_ifs with h
  · exact le_refl _
  · exact ChunkVersion.not_lt.mp h
/-! ## One iteration of the loop -/

/-- **One range, when its checks pass.**  If every key of `chunkRangeMap` is below the range's
upper end and the last one is where the range starts, the range is appended and the loop goes
on after the run. -/
theorem constructChunkMapViewsLoop_cons {epoch : OID}
    {crm : OrdMap (List V) (ShardAndChunkRange V S)} {sv : List (S × ChunkVersion)}
    {first : Chunk V S} {rest run rest' : List (Chunk V S)} {v : ChunkVersion}
    (hr : findRangeEnd first.shardId (rangeStartVersion epoch sv first) rest = (v, run, rest'))
    (hlt : ∀ e ∈ crm.entries, e.1 < ((first :: run).getLast (List.cons_ne_nil _ _)).max)
    (hgap : ∀ e ∈ crm.entries.getLast?, e.1 = first.min) (hset : v.isSet) :
    constructChunkMapViewsLoop epoch crm sv (first :: rest) =
      constructChunkMapViewsLoop epoch
        (crm.insert ((first :: run).getLast (List.cons_ne_nil _ _)).max
          ⟨first.min, ((first :: run).getLast (List.cons_ne_nil _ _)).max, first.shardId⟩)
        (setShardVersion first.shardId v sv) rest' := by
  set rangeMax := ((first :: run).getLast (List.cons_ne_nil _ _)).max with hmax
  have hins : (crm.insert rangeMax ⟨first.min, rangeMax, first.shardId⟩).entries =
      crm.entries ++ [(rangeMax, ⟨first.min, rangeMax, first.shardId⟩)] :=
    insert_of_forall_lt hlt _
  have hsize : crm.size + 1 = (crm.insert rangeMax ⟨first.min, rangeMax, first.shardId⟩).size := by
    simp only [OrdMap.size, hins, List.length_append, List.length_singleton]
  have hpos : (crm.insert rangeMax ⟨first.min, rangeMax, first.shardId⟩).entries.findIdx
      (fun e => e.1 = rangeMax) = crm.entries.length := by
    rw [hins, List.findIdx_append]
    have hnone : crm.entries.findIdx (fun e => e.1 = rangeMax) = crm.entries.length :=
      List.findIdx_eq_length.mpr fun e he => by simpa using ne_of_lt (hlt e he)
    simp [hnone]
  have hprev : ∀ prev ∈ ((crm.insert rangeMax ⟨first.min, rangeMax, first.shardId⟩).entries.take
      crm.entries.length).getLast?, prev.1 = first.min := by
    rw [hins, List.take_left' rfl]
    exact hgap
  rw [constructChunkMapViewsLoop]
  simp only [hr, ← hmax, hsize, ne_eq, not_true_eq_false, if_false, hpos, hset]
  cases hl : ((crm.insert rangeMax ⟨first.min, rangeMax, first.shardId⟩).entries.take
      crm.entries.length).getLast? with
  | none => rfl
  | some prev =>
      rw [hl] at hprev
      simp [hprev prev rfl]

/-! ## The whole loop -/

/-- What the loop builds from chunks tiling `[lo, hi)`: ranges keyed by their upper end that tile
`[lo, hi)`, each made of chunks of its own shard, and together covering every chunk. -/
structure RangesOf (lo hi : List V) (cs : List (Chunk V S))
    (R : List (List V × ShardAndChunkRange V S)) : Prop where
  tiles : Tiles (fun e => e.2.min) (fun e => e.2.max) lo hi R
  key_eq : ∀ e ∈ R, e.1 = e.2.max
  covers : ∀ c ∈ cs, ∃ e ∈ R, e.2.min ≤ c.min ∧ c.max ≤ e.2.max ∧ e.2.shardId = c.shardId
  shardId_mem : ∀ e ∈ R, ∃ c ∈ cs, c.shardId = e.2.shardId

/-- What the loop records in the version map: one entry per shard it met, on top of `sv₀`. -/
structure ShardVersionsOf (sv₀ : List (S × ChunkVersion)) (cs : List (Chunk V S))
    (sv : List (S × ChunkVersion)) : Prop where
  mem_iff : ∀ s, s ∈ sv.map (·.1) ↔ s ∈ sv₀.map (·.1) ∨ ∃ c ∈ cs, c.shardId = s
  nodup : (sv₀.map (·.1)).Nodup → (sv.map (·.1)).Nodup

omit [DecidableEq S] in
theorem rangesOf_nil (lo : List V) : RangesOf lo lo ([] : List (Chunk V S)) [] :=
  ⟨rfl, by simp, by simp, by simp⟩

omit [DecidableEq S] in
/-- A range made of the run `first :: run` in front of the ranges of the chunks after it. -/
theorem RangesOf.cons {lo hi : List V} {first : Chunk V S} {run rest : List (Chunk V S)}
    {R : List (List V × ShardAndChunkRange V S)}
    (hrun : Tiles Chunk.min Chunk.max lo ((first :: run).getLast (List.cons_ne_nil _ _)).max
      (first :: run))
    (hshard : ∀ c ∈ run, c.shardId = first.shardId)
    (hrest : RangesOf ((first :: run).getLast (List.cons_ne_nil _ _)).max hi rest R) :
    RangesOf lo hi (first :: run ++ rest)
      ((((first :: run).getLast (List.cons_ne_nil _ _)).max,
        ⟨first.min, ((first :: run).getLast (List.cons_ne_nil _ _)).max, first.shardId⟩) :: R) := by
  set rangeMax := ((first :: run).getLast (List.cons_ne_nil _ _)).max
  obtain ⟨hlo, hlt, htl⟩ := hrun
  refine ⟨⟨hlo, lt_of_lt_of_le hlt htl.le, hrest.tiles⟩, ?_, ?_, ?_⟩
  · intro e he
    rcases List.mem_cons.mp he with rfl | he
    · rfl
    · exact hrest.key_eq e he
  · intro c hc
    rcases List.mem_append.mp hc with hc | hc
    · have hb := (show Tiles Chunk.min Chunk.max lo rangeMax (first :: run) from
        ⟨hlo, hlt, htl⟩).bounds c hc
      refine ⟨_, List.mem_cons_self .., hlo ▸ hb.1, hb.2, ?_⟩
      rcases List.mem_cons.mp hc with rfl | hc
      · rfl
      · exact (hshard c hc).symm
    · obtain ⟨e, he, hmin, hmax, hsh⟩ := hrest.covers c hc
      exact ⟨e, List.mem_cons_of_mem _ he, hmin, hmax, hsh⟩
  · intro e he
    rcases List.mem_cons.mp he with rfl | he
    · exact ⟨first, List.mem_cons_self .., rfl⟩
    · obtain ⟨c, hc, hsh⟩ := hrest.shardId_mem e he
      exact ⟨c, List.mem_append_right _ hc, hsh⟩

theorem mem_map_setShardVersion (shard : S) (v : ChunkVersion) :
    ∀ (sv : List (S × ChunkVersion)) (s : S),
      s ∈ (setShardVersion shard v sv).map (·.1) ↔ s = shard ∨ s ∈ sv.map (·.1)
  | [], s => by simp [setShardVersion]
  | e :: es, s => by
      by_cases he : e.1 = shard
      · simp [setShardVersion, he]
      · simp only [setShardVersion, he, if_false, List.map_cons, List.mem_cons,
          mem_map_setShardVersion shard v es s]
        tauto

theorem nodup_map_setShardVersion (shard : S) (v : ChunkVersion) :
    ∀ (sv : List (S × ChunkVersion)), (sv.map (·.1)).Nodup →
      ((setShardVersion shard v sv).map (·.1)).Nodup
  | [], _ => by simp [setShardVersion]
  | e :: es, h => by
      rw [List.map_cons, List.nodup_cons] at h
      by_cases he : e.1 = shard
      · simpa [setShardVersion, he] using h
      · rw [setShardVersion, if_neg he, List.map_cons, List.nodup_cons, mem_map_setShardVersion]
        exact ⟨fun hmem => hmem.elim he h.1, nodup_map_setShardVersion shard v es h.2⟩

/-- **The loop on a tiling.**  From chunks tiling `[lo, hi)`, after ranges that end at `lo`, the
loop succeeds; it appends ranges that tile `[lo, hi)`, and records a version for exactly the
shards it met.  By strong induction on the number of chunks left, one range per step
(`constructChunkMapViewsLoop_cons`). -/
theorem constructChunkMapViewsLoop_tiles (epoch : OID) :
    ∀ (n : ℕ) (cs : List (Chunk V S)), cs.length ≤ n →
      ∀ (lo hi : List V) (crm : OrdMap (List V) (ShardAndChunkRange V S))
        (sv : List (S × ChunkVersion)),
      Tiles Chunk.min Chunk.max lo hi cs → (∀ e ∈ crm.entries, e.1 ≤ lo) →
      (∀ e ∈ crm.entries.getLast?, e.1 = lo) →
      ∃ views R, constructChunkMapViewsLoop epoch crm sv cs = .ok views ∧
        views.chunkRangeMap.entries = crm.entries ++ R ∧ RangesOf lo hi cs R ∧
        ShardVersionsOf sv cs views.shardVersions
  | _, [], _, lo, hi, crm, sv, htiles, _, _ => by
      refine ⟨⟨crm, sv⟩, [], by rw [constructChunkMapViewsLoop], by simp, ?_, ?_⟩
      · rw [show hi = lo from htiles.symm]
        exact rangesOf_nil lo
      · exact ⟨fun s => by simp, id⟩
  | 0, _ :: _, hn, _, _, _, _, _, _, _ => absurd hn (by simp)
  | n + 1, first :: rest, hn, lo, hi, crm, sv, htiles, hle, hlast => by
      rcases h : findRangeEnd first.shardId (rangeStartVersion epoch sv first) rest with
        ⟨v, run, rest'⟩
      have happ : run ++ rest' = rest := by
        simpa [h] using findRangeEnd_append first.shardId (rangeStartVersion epoch sv first) rest
      have hshard : ∀ c ∈ run, c.shardId = first.shardId := by
        simpa [h] using findRangeEnd_shardId first.shardId (rangeStartVersion epoch sv first) rest
      have hv : rangeStartVersion epoch sv first ≤ v := by
        simpa [h] using le_findRangeEnd first.shardId (rangeStartVersion epoch sv first) rest
      set rangeMax := ((first :: run).getLast (List.cons_ne_nil _ _)).max with hmax
      rw [← happ, ← List.cons_append, tiles_append (List.cons_ne_nil _ _)] at htiles
      obtain ⟨hrun, hrest⟩ := htiles
      have hfirst : first.min = lo := hrun.1
      have hlo : lo < rangeMax := lt_of_lt_of_le (hfirst ▸ hrun.2.1) hrun.2.2.le
      have hset : v.isSet := ChunkVersion.isSet_of_le first.lastmod_isSet
        (le_trans (lastmod_le_rangeStartVersion epoch sv first) hv)
      rw [constructChunkMapViewsLoop_cons h (fun e he => lt_of_le_of_lt (hle e he) hlo)
        (fun e he => (hlast e he).trans hfirst.symm) hset]
      have hins : (crm.insert rangeMax ⟨first.min, rangeMax, first.shardId⟩).entries =
          crm.entries ++ [(rangeMax, ⟨first.min, rangeMax, first.shardId⟩)] :=
        insert_of_forall_lt (fun e he => lt_of_le_of_lt (hle e he) hlo) _
      have hlen : rest'.length ≤ n := by
        have := congrArg List.length happ
        simp only [List.length_append, List.length_cons] at this hn
        omega
      obtain ⟨views, R, hok, hent, hR, hsv⟩ := constructChunkMapViewsLoop_tiles epoch n rest' hlen
        rangeMax hi (crm.insert rangeMax ⟨first.min, rangeMax, first.shardId⟩)
        (setShardVersion first.shardId v sv) hrest
        (fun e he => by
          rw [hins] at he
          rcases List.mem_append.mp he with he | he
          · exact le_of_lt (lt_of_le_of_lt (hle e he) hlo)
          · rw [List.mem_singleton.mp he])
        (fun e he => by
          rw [hins, List.getLast?_append] at he
          simp only [List.getLast?_singleton, Option.some_or, Option.mem_def, Option.some.injEq] at he
          rw [← he])
      refine ⟨views, (rangeMax, ⟨first.min, rangeMax, first.shardId⟩) :: R, hok, ?_, ?_, ?_⟩
      · rw [hent, hins, List.append_assoc, List.singleton_append]
      · rw [← happ, ← List.cons_append]
        exact RangesOf.cons (hfirst ▸ hrun) hshard hR
      · refine ⟨fun s => ?_, fun hnd => hsv.nodup (nodup_map_setShardVersion _ _ _ hnd)⟩
        rw [hsv.mem_iff, mem_map_setShardVersion, ← happ]
        constructor
        · rintro ((rfl | hs) | ⟨c, hc, rfl⟩)
          · exact Or.inr ⟨first, List.mem_cons_self .., rfl⟩
          · exact Or.inl hs
          · exact Or.inr ⟨c, List.mem_cons_of_mem _ (List.mem_append_right _ hc), rfl⟩
        · rintro (hs | ⟨c, hc, rfl⟩)
          · exact Or.inl (Or.inr hs)
          · rcases List.mem_cons.mp hc with rfl | hc
            · exact Or.inl (Or.inl rfl)
            · rcases List.mem_append.mp hc with hc | hc
              · exact Or.inl (Or.inl (hshard c hc))
              · exact Or.inr ⟨c, hc, rfl⟩

theorem allMinKey_globalMin [BoundedOrder V] (n : ℕ) : allMinKey (globalMin n : List V) = true := by
  simp [allMinKey, globalMin]

theorem allMaxKey_globalMax [BoundedOrder V] (n : ℕ) : allMaxKey (globalMax n : List V) = true := by
  simp [allMaxKey, globalMax]

/-- **The views of a tiling.**  On a chunk map whose chunks tile `[globalMin n, globalMax n)`,
`_constructChunkMapViews` succeeds; its ranges tile the same space and cover every chunk, and its
version map names each shard with chunks, once. -/
theorem constructChunkMapViews_tiles [BoundedOrder V] (epoch : OID) (n : ℕ)
    (chunkMap : ChunkMap V S)
    (htiles : Tiles Chunk.min Chunk.max (globalMin n) (globalMax n) (chunkMap.entries.map (·.2))) :
    ∃ views, constructChunkMapViews epoch chunkMap = .ok views ∧
      RangesOf (globalMin n) (globalMax n) (chunkMap.entries.map (·.2))
        views.chunkRangeMap.entries ∧
      ShardVersionsOf [] (chunkMap.entries.map (·.2)) views.shardVersions := by
  obtain ⟨views, R, hok, hent, hR, hsv⟩ := constructChunkMapViewsLoop_tiles epoch _ _ le_rfl
    (globalMin n) (globalMax n) (OrdMap.empty : OrdMap (List V) (ShardAndChunkRange V S)) []
    htiles (by simp [OrdMap.empty]) (by simp [OrdMap.empty])
  have hR' : views.chunkRangeMap.entries = R := by simpa [OrdMap.empty] using hent
  subst hR'
  refine ⟨views, ?_, hR, hsv⟩
  simp only [constructChunkMapViews, hok, Except.ok_bind]
  by_cases hne : chunkMap.entries = []
  · simp [hne]
  · obtain ⟨c, hc⟩ := List.exists_mem_of_ne_nil _ hne
    obtain ⟨e, he, -⟩ := hR.covers c.2 (List.mem_map_of_mem hc)
    have hRne : views.chunkRangeMap.entries ≠ [] := List.ne_nil_of_mem he
    have hsvne : views.shardVersions ≠ [] := by
      obtain ⟨s, hs⟩ : ∃ s, s ∈ views.shardVersions.map (·.1) :=
        ⟨c.2.shardId, (hsv.mem_iff _).mpr (Or.inr ⟨c.2, List.mem_map_of_mem hc, rfl⟩)⟩
      intro h
      simp [h] at hs
    obtain ⟨first, hfirst⟩ := Option.ne_none_iff_exists'.mp (mt List.head?_eq_none_iff.mp hRne)
    obtain ⟨last, hlast⟩ := Option.ne_none_iff_exists'.mp (mt List.getLast?_eq_none_iff.mp hRne)
    have hmin : first.2.min = globalMin n := hR.tiles.lower_head first hfirst
    have hmax : last.1 = globalMax n := by
      rw [hR.key_eq last (List.mem_of_getLast? hlast)]
      exact hR.tiles.upper_getLast last hlast
    simp [hne, hRne, hsvne, hfirst, hlast, hmin, hmax, allMinKey_globalMin, allMaxKey_globalMax]

/-! ## Routing a key -/

omit [DecidableEq S] in
/-- **`findIntersectingChunk` on a tiling** returns the chunk that holds the key, when the map is
keyed by its chunks' `max`, as the routing table builds it. -/
theorem findIntersectingChunk_of_tiles {lo hi : List V} (cm : ChunkManager V S)
    (hkey : ∀ e ∈ cm.chunkMap.entries, e.1 = e.2.max)
    (htiles : Tiles Chunk.min Chunk.max lo hi (cm.chunkMap.entries.map (·.2)))
    {k : List V} (hlo : lo ≤ k) (hhi : k < hi) :
    ∃ c ∈ cm.chunkMap.entries.map (·.2), c.min ≤ k ∧ k < c.max ∧
      cm.findIntersectingChunkWithSimpleCollation k = .ok c := by
  obtain ⟨c, hc, hmin, hmax⟩ := htiles.exists_mem hlo hhi
  obtain ⟨e, he, rfl⟩ := List.mem_map.mp hc
  obtain ⟨f, hf, hfmem, hkf, hfe⟩ :=
    getElem?_upperBound cm.chunkMap.sorted he (hkey e he ▸ hmax)
  have hfc : f.2 ∈ cm.chunkMap.entries.map (·.2) := List.mem_map_of_mem hfmem
  have hfmax : f.2.max ≤ e.2.max := by
    rw [← hkey f hfmem, ← hkey e he]
    exact hfe
  have hfe' : f.2 = e.2 := htiles.eq_of_overlap hfc hc
    (lt_of_lt_of_le (htiles.lower_lt_upper _ hfc) hfmax)
    (lt_of_le_of_lt hmin (hkey f hfmem ▸ hkf))
  refine ⟨e.2, hc, hmin, hmax, ?_⟩
  simp only [ChunkManager.findIntersectingChunkWithSimpleCollation, OrdMap.upperBound, hf, hfe',
    Chunk.containsKey, hmin, hmax, and_self, if_true]

/-- **The two lookup structures agree on a tiling.**  For a key of the shard key space,
`findIntersectingChunk` returns the chunk that holds it, and every range of the views built by
`_constructChunkMapViews` that holds it names that chunk's shard. -/
theorem routing_agrees_of_tiles [BoundedOrder V] (epoch : OID) (n : ℕ) (cm : ChunkManager V S)
    (hkey : ∀ e ∈ cm.chunkMap.entries, e.1 = e.2.max)
    (htiles : Tiles Chunk.min Chunk.max (globalMin n) (globalMax n)
      (cm.chunkMap.entries.map (·.2)))
    (hviews : constructChunkMapViews epoch cm.chunkMap = .ok cm.chunkMapViews)
    {k : List V} (hlo : globalMin n ≤ k) (hhi : k < globalMax n) :
    ∃ c ∈ cm.chunkMap.entries.map (·.2), c.min ≤ k ∧ k < c.max ∧
      cm.findIntersectingChunkWithSimpleCollation k = .ok c ∧
      ∀ e ∈ cm.chunkMapViews.chunkRangeMap.entries, e.2.min ≤ k → k < e.2.max →
        e.2.shardId = c.shardId := by
  obtain ⟨c, hc, hmin, hmax, hfind⟩ := findIntersectingChunk_of_tiles cm hkey htiles hlo hhi
  obtain ⟨views, hok, hR, -⟩ := constructChunkMapViews_tiles epoch n cm.chunkMap htiles
  have hviews' : views = cm.chunkMapViews := by
    rw [hviews] at hok
    exact (Except.ok.inj hok).symm
  subst hviews'
  refine ⟨c, hc, hmin, hmax, hfind, fun e he hemin hemax => ?_⟩
  obtain ⟨r, hr, hrmin, hrmax, hrs⟩ := hR.covers c hc
  have her : e = r := hR.tiles.eq_of_overlap he hr
    (lt_of_le_of_lt hemin (lt_of_lt_of_le hmax hrmax)) (lt_of_le_of_lt (le_trans hrmin hmin) hemax)
  rw [her, hrs]

/-- The epoch of the chunks below. -/
def gapEpoch : OID := ⟨Vector.replicate 12 0⟩

def gapVersion : ChunkVersion := ChunkVersion.make 1 0 gapEpoch

/-- `[MinKey, 5)` and `[7, MaxKey)` on shard `0`, with nothing on `[5, 7)`. -/
def gapLowChunk : Chunk (Fin 10) ℕ := ⟨[0], [5], 0, gapVersion, by decide, by decide⟩

def gapHighChunk : Chunk (Fin 10) ℕ := ⟨[7], [9], 0, gapVersion, by decide, by decide⟩

def gapChunkMap : ChunkMap (Fin 10) ℕ := ⟨[([5], gapLowChunk), ([9], gapHighChunk)], by decide⟩

/-- One range `[MinKey, MaxKey)` on shard `0`. -/
def gapViews : ChunkMapViews (Fin 10) ℕ :=
  ⟨⟨[([9], ⟨[0], [9], 0⟩)], by decide⟩, [(0, gapVersion)]⟩

/-- **A gap inside a run of one shard passes the checks.**  The chunks `[MinKey, 5)` and
`[7, MaxKey)` of shard `0` do not tile the key space, yet `_constructChunkMapViews` builds one
range `[MinKey, MaxKey)` for them, which routes the key `6` to shard `0`, while
`findIntersectingChunk(6)` fails with `ShardKeyNotFound`. -/
theorem constructChunkMapViews_accepts_gap :
    ¬ Tiles Chunk.min Chunk.max (globalMin 1) (globalMax 1) (gapChunkMap.entries.map (·.2)) ∧
      constructChunkMapViews gapEpoch gapChunkMap = .ok gapViews ∧
      (∃ e ∈ gapViews.chunkRangeMap.entries, e.2.min ≤ [6] ∧ [6] < e.2.max ∧ e.2.shardId = 0) ∧
      (ChunkManager.mk gapChunkMap gapViews gapVersion).findIntersectingChunkWithSimpleCollation
        [6] = .error .shardKeyNotFound := by
  refine ⟨by decide, ?_, by decide, by decide⟩
  have hloop : constructChunkMapViewsLoop gapEpoch (OrdMap.empty : OrdMap (List (Fin 10)) _) []
      (gapChunkMap.entries.map (·.2)) = .ok gapViews := by
    have hrun : findRangeEnd gapLowChunk.shardId (rangeStartVersion gapEpoch [] gapLowChunk)
        [gapHighChunk] = (gapVersion, [gapHighChunk], []) := by
      decide
    rw [show gapChunkMap.entries.map (·.2) = [gapLowChunk, gapHighChunk] from rfl,
      constructChunkMapViewsLoop_cons hrun (by simp [OrdMap.empty]) (by simp [OrdMap.empty])
        (by decide), constructChunkMapViewsLoop]
    rfl
  rw [constructChunkMapViews, hloop]
  rfl

end Mongo
