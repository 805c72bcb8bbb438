import Mathlib
import Mongo.S.ChunkMapViews

/-!
# Incremental refresh of the routing table

The router refreshes a collection's routing table by asking the config server for the chunks
changed since its collection version `v`, sorted by version, and feeding them to
`ChunkManager::makeUpdated`.  Each changed chunk erases the entries whose `max` lies in
`(min, max]` and takes their place.  In between the map may hold overlapping chunks — half of a
split applied, the other half not yet — and only the whole run puts it right.

**`makeUpdated_eq_fullReload`**: if the old chunks tile the shard key space, the new chunks tile
it too, and every new chunk no newer than `v` was already there, then applying the new chunks of
version `v` or later, in version order, gives exactly the map a full reload of the new chunks
gives; the collection version becomes the last one applied, and the views of the result can be
built.

* `mem_applied` — one changed chunk, by membership.
* `MapOf` and `applyChunks_mapOf` — the invariant of the loop, over any prefix of the changes:
  the old chunks that no applied chunk erased, plus the applied ones.
* `mem_new_of_not_erased` — the covering argument: an old chunk that no newer chunk erased
  is still a chunk.
-/

namespace Mongo

open SortedMap Tiling

variable {V S : Type} [LinearOrder V]

/-- `c`'s update erases the entry of `d`: `d.max` lies in `(c.min, c.max]`. -/
def Erases (c d : Chunk V S) : Prop := c.min < d.max ∧ d.max ≤ c.max

/-! ## One changed chunk -/

/-- The map after one changed chunk is applied: the old entries outside `(chunk.min, chunk.max]`,
and the chunk. -/
def applied (chunkMap : ChunkMap V S) (chunk : Chunk V S) : ChunkMap V S :=
  (chunkMap.eraseRange (chunkMap.upperBound chunk.min) (chunkMap.upperBound chunk.max)).insert
    chunk.max chunk

theorem applyChunk_eq_ok {chunkMap : ChunkMap V S} {v : ChunkVersion} {chunk : Chunk V S}
    (hepoch : v.epoch = chunk.lastmod.epoch) (hv : v ≤ chunk.lastmod) :
    applyChunk chunkMap v chunk = .ok (applied chunkMap chunk, chunk.lastmod) := by
  simp [applyChunk, applied, hepoch, hv]

/-- **One changed chunk, by membership.**  The chunk's own key lies in the erased range, so the
insertion always adds it. -/
theorem mem_applied (chunkMap : ChunkMap V S) (chunk : Chunk V S) (e : List V × Chunk V S) :
    e ∈ (applied chunkMap chunk).entries ↔
      (e ∈ chunkMap.entries ∧ ¬ (chunk.min < e.1 ∧ e.1 ≤ chunk.max)) ∨ e = (chunk.max, chunk) := by
  have hgone : ∀ e' ∈ (chunkMap.eraseRange (chunkMap.upperBound chunk.min)
      (chunkMap.upperBound chunk.max)).entries, e'.1 ≠ chunk.max := by
    intro e' he' heq
    have h := (mem_eraseRange_upperBound chunkMap.sorted _ _ e').mp he'
    exact h.2 ⟨heq ▸ chunk.min_lt_max, heq.le⟩
  change e ∈ SortedMap.insert _ _ _ ↔ _
  rw [mem_insert_of_not_mem (chunkMap.eraseRange _ _).sorted hgone]
  change e ∈ SortedMap.eraseRange chunkMap.entries (SortedMap.upperBound chunkMap.entries chunk.min)
    (SortedMap.upperBound chunkMap.entries chunk.max) ∨ _ ↔ _
  rw [mem_eraseRange_upperBound chunkMap.sorted]

/-! ## The loop -/

/-- The invariant of the loop of `makeUpdated` after the changes `P`: every entry is keyed by
its chunk's `max`, and the chunks are the old ones no change of `P` erased, and those of `P`. -/
def MapOf (old P : List (Chunk V S)) (chunkMap : ChunkMap V S) : Prop :=
  ∀ e, e ∈ chunkMap.entries ↔
    e.1 = e.2.max ∧ ((e.2 ∈ old ∧ ∀ c ∈ P, ¬ Erases c e.2) ∨ e.2 ∈ P)

/-- The map of the old chunks, before any change, is `MapOf old []`. -/
theorem mapOf_nil {old : List (Chunk V S)} {chunkMap : ChunkMap V S}
    (hmap : chunkMap.entries = old.map fun c => (c.max, c)) : MapOf old [] chunkMap := by
  intro e
  rw [hmap, List.mem_map]
  constructor
  · rintro ⟨c, hc, rfl⟩
    exact ⟨rfl, Or.inl ⟨hc, by simp⟩⟩
  · rintro ⟨hkey, (⟨hc, -⟩ | hc)⟩
    · exact ⟨e.2, hc, Prod.ext hkey.symm rfl⟩
    · simp at hc

/-- **One step of the invariant.**  A change that erases none of the earlier changes keeps it. -/
theorem MapOf.applied {old P : List (Chunk V S)} {chunkMap : ChunkMap V S} {c : Chunk V S}
    (h : MapOf old P chunkMap) (hkeep : ∀ p ∈ P, ¬ Erases c p) :
    MapOf old (P ++ [c]) (Mongo.applied chunkMap c) := by
  intro e
  rw [mem_applied, h e]
  simp only [List.mem_append, List.mem_singleton]
  constructor
  · rintro (⟨⟨hkey, (⟨hold, hP⟩ | hP)⟩, hnot⟩ | rfl)
    · refine ⟨hkey, Or.inl ⟨hold, fun d hd => ?_⟩⟩
      rcases hd with hd | rfl
      · exact hP d hd
      · exact fun hc => hnot (by rw [hkey]; exact hc)
    · exact ⟨hkey, Or.inr (Or.inl hP)⟩
    · exact ⟨rfl, Or.inr (Or.inr rfl)⟩
  · rintro ⟨hkey, (⟨hold, hP⟩ | (hP | hc))⟩
    · exact Or.inl ⟨⟨hkey, Or.inl ⟨hold, fun d hd => hP d (Or.inl hd)⟩⟩,
        fun hc => hP c (Or.inr rfl) (by rw [Erases, ← hkey]; exact hc)⟩
    · exact Or.inl ⟨⟨hkey, Or.inr hP⟩, fun hc => hkeep e.2 hP (by rw [Erases, ← hkey]; exact hc)⟩
    · obtain ⟨k, d⟩ := e
      simp only at hkey hc
      subst hc hkey
      exact Or.inr rfl

/-- **The loop of `makeUpdated`.**  Changes of the collection's epoch, in version order from the
current version on, none erasing an earlier one, are all applied; the invariant then covers all
of them, and the collection version is the last one's.  By induction on the changes left. -/
theorem applyChunks_mapOf (old : List (Chunk V S)) :
    ∀ (Q P : List (Chunk V S)) (chunkMap : ChunkMap V S) (v : ChunkVersion),
      MapOf old P chunkMap → (∀ q ∈ Q, q.lastmod.epoch = v.epoch) → (∀ q ∈ Q, v ≤ q.lastmod) →
      Q.Pairwise (fun a b => a.lastmod ≤ b.lastmod) → (∀ p ∈ P, ∀ q ∈ Q, ¬ Erases q p) →
      Q.Pairwise (fun a b => ¬ Erases b a) →
      ∃ chunkMap', applyChunks chunkMap v Q =
          .ok (chunkMap', (Q.getLast?.map (·.lastmod)).getD v) ∧ MapOf old (P ++ Q) chunkMap'
  | [], P, chunkMap, v, h, _, _, _, _, _ => ⟨chunkMap, rfl, by simpa using h⟩
  | q :: Q, P, chunkMap, v, h, hepoch, hv, hsorted, hkeep, hpair => by
      obtain ⟨hqsorted, hQsorted⟩ := List.pairwise_cons.mp hsorted
      obtain ⟨hqkeep, hQkeep⟩ := List.pairwise_cons.mp hpair
      have hstep := h.applied fun p hp => hkeep p hp q (List.mem_cons_self ..)
      obtain ⟨chunkMap', hok, hinv⟩ := applyChunks_mapOf old Q (P ++ [q]) (applied chunkMap q)
        q.lastmod hstep
        (fun r hr => (hepoch r (List.mem_cons_of_mem q hr)).trans
          (hepoch q (List.mem_cons_self ..)).symm)
        hqsorted hQsorted
        (fun p hp r hr => by
          rcases List.mem_append.mp hp with hp | hp
          · exact hkeep p hp r (List.mem_cons_of_mem q hr)
          · rw [List.mem_singleton.mp hp]
            exact hqkeep r hr)
        hQkeep
      refine ⟨chunkMap', ?_, by simpa using hinv⟩
      rw [applyChunks, applyChunk_eq_ok (hepoch q (List.mem_cons_self ..)).symm
        (hv q (List.mem_cons_self ..)), Except.ok_bind, hok]
      cases Q with
      | nil => rfl
      | cons r Q =>
          obtain ⟨x, hx⟩ : ∃ x, (r :: Q).getLast? = some x :=
            ⟨_, List.getLast?_eq_some_getLast (List.cons_ne_nil r Q)⟩
          rw [List.getLast?_cons_cons, hx]
          rfl

/-! ## The end state -/

/-- **The covering argument.**  An old chunk that no change of version `v` or later erased is a
chunk of the new tiling: otherwise the new chunk ending at or after its `max` would be newer than
`v`, hence a change, and would have erased it. -/
theorem mem_new_of_not_erased {lo hi : List V} {old new D : List (Chunk V S)} {v : ChunkVersion}
    (hOld : Tiles Chunk.min Chunk.max lo hi old) (hNew : Tiles Chunk.min Chunk.max lo hi new)
    (hold : ∀ c ∈ new, c.lastmod ≤ v → c ∈ old) (hD : ∀ c ∈ new, v ≤ c.lastmod → c ∈ D)
    {o : Chunk V S} (ho : o ∈ old) (hnot : ∀ d ∈ D, ¬ Erases d o) : o ∈ new := by
  by_contra hon
  obtain ⟨hlo, hhi⟩ := hOld.bounds o ho
  obtain ⟨c, hc, hcmin, hcmax⟩ :=
    hNew.exists_mem_upper (lt_of_le_of_lt hlo o.min_lt_max) hhi
  have hcold : c ∉ old := by
    intro hc'
    have hco : c = o :=
      hOld.eq_of_overlap hc' ho hcmin (lt_of_lt_of_le o.min_lt_max hcmax)
    exact hon (hco ▸ hc)
  have hcv : v ≤ c.lastmod :=
    (ChunkVersion.total_le v c.lastmod).resolve_right fun h => hcold (hold c hc h)
  exact hnot c (hD c hc hcv) ⟨hcmin, hcmax⟩

/-- Two different chunks of one tiling never erase each other's entry. -/
theorem not_erases_of_ne {lo hi : List V} {cs : List (Chunk V S)}
    (h : Tiles Chunk.min Chunk.max lo hi cs) {a b : Chunk V S} (ha : a ∈ cs) (hb : b ∈ cs)
    (hab : a ≠ b) : ¬ Erases b a := fun ⟨hba, hab'⟩ =>
  hab (h.eq_of_overlap ha hb (lt_of_lt_of_le a.min_lt_max hab') hba)

theorem le_getLast_of_pairwise {l : List (Chunk V S)}
    (h : l.Pairwise fun a b => a.lastmod ≤ b.lastmod) (v : ChunkVersion) :
    ∀ c ∈ l, c.lastmod ≤ (l.getLast?.map (·.lastmod)).getD v := by
  induction l with
  | nil => simp
  | cons a l ih =>
      intro c hc
      obtain ⟨ha, hl⟩ := List.pairwise_cons.mp h
      cases l with
      | nil =>
          rw [List.mem_singleton.mp hc]
          exact le_refl _
      | cons b l =>
          rw [List.getLast?_cons_cons]
          rcases List.mem_cons.mp hc with rfl | hc
          · have hlast := List.getLast_mem (List.cons_ne_nil b l)
            rw [List.getLast?_eq_some_getLast (List.cons_ne_nil b l)]
            exact ha _ hlast
          · exact ih hl c hc

theorem mem_map_max_iff (cs : List (Chunk V S)) (e : List V × Chunk V S) :
    e ∈ cs.map (fun c => (c.max, c)) ↔ e.1 = e.2.max ∧ e.2 ∈ cs := by
  rw [List.mem_map]
  constructor
  · rintro ⟨c, hc, rfl⟩
    exact ⟨rfl, hc⟩
  · rintro ⟨hkey, hc⟩
    exact ⟨e.2, hc, Prod.ext hkey.symm rfl⟩

/-- **Incremental refresh equals a full reload.**  From a routing table holding the tiling `old`
at collection version `v`, applying the chunks of the tiling `new` of version `v` or later, in
version order, gives the chunk map of `new`, at the version of the last chunk applied (`v` when
there is none), and the views of that map can be built. -/
theorem makeUpdated_eq_fullReload [BoundedOrder V] [DecidableEq S] (n : ℕ)
    (cm : ChunkManager V S) (old new D : List (Chunk V S))
    (hOld : Tiles Chunk.min Chunk.max (globalMin n) (globalMax n) old)
    (hNew : Tiles Chunk.min Chunk.max (globalMin n) (globalMax n) new)
    (hmap : cm.chunkMap.entries = old.map fun c => (c.max, c))
    (hepoch : ∀ c ∈ new, c.lastmod.epoch = cm.collectionVersion.epoch)
    (hold : ∀ c ∈ new, c.lastmod ≤ cm.collectionVersion → c ∈ old)
    (hD : D.Perm (new.filter fun c => cm.collectionVersion ≤ c.lastmod))
    (hsorted : D.Pairwise fun a b => a.lastmod ≤ b.lastmod) :
    ∃ cm', cm.makeUpdated D = .ok cm' ∧
      cm'.chunkMap.entries = new.map (fun c => (c.max, c)) ∧
      cm'.collectionVersion = (D.getLast?.map (·.lastmod)).getD cm.collectionVersion ∧
      ∃ views, constructChunkMapViews cm'.collectionVersion.epoch cm'.chunkMap = .ok views := by
  set v := cm.collectionVersion with hv
  have hmemD : ∀ c, c ∈ D ↔ c ∈ new ∧ v ≤ c.lastmod := fun c => by
    rw [hD.mem_iff, List.mem_filter, decide_eq_true_iff]
  have hnodup : D.Nodup := hD.nodup_iff.mpr (hNew.nodup.filter _)
  have hpair : D.Pairwise fun a b => ¬ Erases b a :=
    hnodup.pairwise_of_forall_ne fun a ha b hb hab =>
      not_erases_of_ne hNew ((hmemD a).mp ha).1 ((hmemD b).mp hb).1 hab
  obtain ⟨chunkMap', hok, hinv⟩ := applyChunks_mapOf old D [] cm.chunkMap v (mapOf_nil hmap)
    (fun c hc => hepoch c ((hmemD c).mp hc).1) (fun c hc => ((hmemD c).mp hc).2) hsorted
    (by simp) hpair
  have hentries : chunkMap'.entries = new.map fun c => (c.max, c) := by
    refine eq_of_mem_iff chunkMap'.sorted ?_ fun e => ?_
    · exact List.pairwise_map.mpr hNew.pairwise_upper_lt
    · rw [hinv e, List.nil_append, mem_map_max_iff]
      refine and_congr_right fun _ => ⟨?_, fun hc => ?_⟩
      · rintro (⟨ho, hnot⟩ | hd)
        · exact mem_new_of_not_erased hOld hNew hold (fun c hc hcv => (hmemD c).mpr ⟨hc, hcv⟩)
            ho hnot
        · exact ((hmemD _).mp hd).1
      · by_cases hcv : v ≤ e.2.lastmod
        · exact Or.inr ((hmemD _).mpr ⟨hc, hcv⟩)
        · refine Or.inl ⟨hold _ hc ((ChunkVersion.total_le _ _).resolve_left hcv), ?_⟩
          intro d hd
          have hdv := ((hmemD d).mp hd).2
          exact not_erases_of_ne hNew hc ((hmemD d).mp hd).1
            (fun heq => hcv (heq ▸ hdv))
  have hviews : ∀ (epoch : OID) (chunkMap : ChunkMap V S),
      chunkMap.entries = new.map (fun c => (c.max, c)) →
      ∃ views, constructChunkMapViews epoch chunkMap = .ok views := by
    intro epoch chunkMap hcm
    have ht : Tiles Chunk.min Chunk.max (globalMin n) (globalMax n)
        (chunkMap.entries.map (·.2)) := by
      simpa [hcm, Function.comp_def] using hNew
    obtain ⟨views, hok, -⟩ := constructChunkMapViews_tiles epoch n chunkMap ht
    exact ⟨views, hok⟩
  simp only [ChunkManager.makeUpdated, ← hv, hok, Except.ok_bind]
  split_ifs with hsame
  · have hsub : ∀ c ∈ new, c ∈ old := by
      intro c hc
      by_cases hcv : c.lastmod ≤ v
      · exact hold c hc hcv
      · have hle := le_getLast_of_pairwise hsorted v c
          ((hmemD c).mpr ⟨hc, (ChunkVersion.total_le _ _).resolve_right hcv⟩)
        rw [hsame] at hle
        exact absurd hle hcv
    have hnew : new = old := hOld.eq_of_subset hNew hsub
    refine ⟨cm, rfl, by rw [hmap, hnew], hsame.symm, hviews _ _ (by rw [hmap, hnew])⟩
  · set v' := (D.getLast?.map (·.lastmod)).getD v
    obtain ⟨views, hviews'⟩ := hviews v'.epoch chunkMap' hentries
    refine ⟨⟨chunkMap', views, v'⟩, ?_, hentries, rfl, views, hviews'⟩
    simp only [ChunkManager.create, hviews', Except.ok_bind, Except.pure_eq_ok]

/-- The epoch of the split below. -/
def refreshEpoch : OID := ⟨Vector.replicate 12 0⟩

/-- Before the split: one chunk `[[0], [2])` on shard `1`, at version `1`. -/
def refreshParent : Chunk (Fin 3) ℕ := ⟨[0], [2], 1, ⟨1, refreshEpoch⟩, by decide, by decide⟩

/-- The lower half of the split, kept on shard `1`. -/
def refreshLeft : Chunk (Fin 3) ℕ := ⟨[0], [1], 1, ⟨2, refreshEpoch⟩, by decide, by decide⟩

/-- The upper half of the split, moved to shard `2`. -/
def refreshRight : Chunk (Fin 3) ℕ := ⟨[1], [2], 2, ⟨3, refreshEpoch⟩, by decide, by decide⟩

def refreshManager : ChunkManager (Fin 3) ℕ :=
  ⟨⟨[([2], refreshParent)], List.pairwise_singleton _ _⟩, ⟨OrdMap.empty, []⟩, ⟨1, refreshEpoch⟩⟩

theorem makeUpdated_after_split :
    ∃ cm', refreshManager.makeUpdated [refreshLeft, refreshRight] = .ok cm' ∧
      cm'.chunkMap.entries = [refreshLeft, refreshRight].map (fun c => (c.max, c)) ∧
      cm'.collectionVersion = ⟨3, refreshEpoch⟩ ∧
      ∃ views, constructChunkMapViews cm'.collectionVersion.epoch cm'.chunkMap = .ok views :=
  makeUpdated_eq_fullReload 1 refreshManager [refreshParent] [refreshLeft, refreshRight]
    [refreshLeft, refreshRight] (by decide) (by decide) rfl (by decide) (by decide) (by decide)
    (by decide)

end Mongo
