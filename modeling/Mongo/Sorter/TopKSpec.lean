import Mongo.Sorter.SorterSpec

/-!
# `TopKSorter` keeps the best `L`

A `TopKSorter` with limit `L` throws pairs away three ways: a contender the cutoff excludes, a
contender not better than the front of a full heap, and the front a better contender replaces.
Each time, the pair thrown away has at least `L` kept pairs not after it, and kept pairs only
move from the buffer to the files.  `TopKSorter.Inv` says so, with what the sort needs of the
buffer (a heap once full) and of the files (sorted).

The counters of `updateCutoff` carry the cutoff's justification (`CountersInv`): at least
`_worstCount` spilled pairs are not after `_worstSeen`, at least `_medianCount` not after
`_lastMedian`, and at least `L` not after `_cutoff`, which is what lets a contender the cutoff
excludes be thrown away.  Which pair is chosen as the median does not matter for this.

With these, `done()` returns a top-`L` sort of all the pairs (`TopKSorter.Inv.drain_done`),
through `isTopSort_of_dominated`.
-/

namespace Mongo

open List StableSort

variable {α : Type}

namespace TopKSorter

/-- The pairs a `TopKSorter` holds: those of its files, then those of its buffer. -/
def kept (s : TopKSorter α) : List α :=
  s.iters.flatten ++ s.data

/-- What the counters of `updateCutoff` guarantee over the spilled pairs `F`: each of `_cutoff`,
`_worstSeen` and `_lastMedian` has as many pairs of `F` not after it as it is credited with. -/
structure CountersInv (comp : α → α → ℤ) (F : List α) (s : TopKSorter α) : Prop where
  cutoff_le : s.haveCutoff = true → s.opts.limit ≤ F.countP (sortLE comp · s.cutoff)
  worstCount_le : s.worstCount ≤ F.countP (sortLE comp · s.worstSeen)
  medianCount_le : s.medianCount ≤ F.countP (sortLE comp · s.lastMedian)

/-- What a `TopKSorter` holds after the pairs `xs`: every pair it dropped has at least `L` kept
pairs not after it; its counters are justified by its files; its buffer holds at most `L` pairs
and is a heap when it holds `L`; and its files are sorted. -/
structure Inv (comp : α → α → ℤ) (heap : HeapAlgorithms (stlLess comp)) (opts : SortOptions)
    (xs : List α) (s : TopKSorter α) : Prop where
  opts_eq : s.opts = opts
  dominated : ∃ dropped : List α, xs ~ s.kept ++ dropped ∧
    ∀ x ∈ dropped, opts.limit ≤ s.kept.countP (sortLE comp · x)
  counters : s.CountersInv comp s.iters.flatten
  length_le : s.data.length ≤ opts.limit
  isHeap : s.data.length = opts.limit → heap.IsHeap s.data
  sorted : ∀ file ∈ s.iters, file.Pairwise fun a b => sortLE comp a b

variable {comp : α → α → ℤ} {heap : HeapAlgorithms (stlLess comp)} {opts : SortOptions}

theorem inv_make [Inhabited α] (comp : α → α → ℤ) (heap : HeapAlgorithms (stlLess comp))
    (opts : SortOptions) : (make opts : TopKSorter α).Inv comp heap opts [] :=
  ⟨rfl, ⟨[], by simp [kept, make], by simp⟩, ⟨by simp [make], by simp [make], by simp [make]⟩,
    by simp [make], fun _ => heap.isHeap_nil, by simp [make]⟩

/-- `promoteCutoff` sets the cutoff and nothing else. -/
theorem promoteCutoff_eq (s : TopKSorter α) (c : α) :
    s.promoteCutoff comp c =
      { s with
        cutoff := if !s.haveCutoff || stlLess comp c s.cutoff then c else s.cutoff
        haveCutoff := if !s.haveCutoff || stlLess comp c s.cutoff then true else s.haveCutoff } := by
  unfold promoteCutoff
  split_ifs <;> rfl

/-! ### The counters -/

namespace CountersInv

variable {F : List α} {s : TopKSorter α}

/-- More spilled pairs keep the counters justified. -/
theorem append (h : s.CountersInv comp F) (G : List α) : s.CountersInv comp (F ++ G) :=
  ⟨fun hc => (h.cutoff_le hc).trans (by simp [countP_append]),
    h.worstCount_le.trans (by simp [countP_append]),
    h.medianCount_le.trans (by simp [countP_append])⟩

/-- A candidate with `L` spilled pairs not after it may become the cutoff. -/
theorem promoteCutoff (h : s.CountersInv comp F) {c : α}
    (hc : s.opts.limit ≤ F.countP (sortLE comp · c)) : (s.promoteCutoff comp c).CountersInv comp F := by
  rw [promoteCutoff_eq]
  refine ⟨fun _ => ?_, h.worstCount_le, h.medianCount_le⟩
  split_ifs with hpromote
  · exact hc
  · simp only [Bool.or_eq_true, Bool.not_eq_true', not_or] at hpromote
    exact h.cutoff_le (by simpa using hpromote.1)

/-- The promotion of `_worstSeen` in `updateCutoff`. -/
theorem promoteWorst (h : s.CountersInv comp F) :
    (if s.worstCount ≥ s.opts.limit then
      { s.promoteCutoff comp s.worstSeen with worstCount := 0 } else s).CountersInv comp F := by
  split_ifs with hge
  · have hp := h.promoteCutoff (c := s.worstSeen) (le_trans hge h.worstCount_le)
    exact ⟨hp.cutoff_le, Nat.zero_le _, hp.medianCount_le⟩
  · exact h

/-- The promotion of `_lastMedian` in `updateCutoff`. -/
theorem promoteMedian (h : s.CountersInv comp F) :
    (if s.medianCount ≥ s.opts.limit then
      { s.promoteCutoff comp s.lastMedian with medianCount := 0 } else s).CountersInv comp F := by
  split_ifs with hge
  · have hp := h.promoteCutoff (c := s.lastMedian) (le_trans hge h.medianCount_le)
    exact ⟨hp.cutoff_le, hp.worstCount_le, Nat.zero_le _⟩
  · exact h

end CountersInv

section Counters

variable (hc : TotalPreorderComparator comp)
include hc

/-- Fewer pairs come after a later pair. -/
theorem countP_mono_of_sortLE {u : List α} {x y : α} (hxy : sortLE comp x y = true) :
    u.countP (sortLE comp · x) ≤ u.countP (sortLE comp · y) :=
  countP_mono_left fun z _ hz => hc.sortLE_trans z x y hz hxy

/-- **`updateCutoff` keeps its counters justified**, once the sorted buffer is spilled: the
buffer's last pair is its worst, and the prefix `upper_bound` measures is not after
`_lastMedian`. -/
theorem CountersInv.updateCutoff [Inhabited α] {F : List α} {s : TopKSorter α}
    (h : s.CountersInv comp F) (hsorted : s.data.Pairwise fun a b => sortLE comp a b)
    (hne : s.data ≠ []) : (s.updateCutoff comp).CountersInv comp (F ++ s.data) := by
  have hback : s.data.getLastD default = s.data.getLast hne := by
    rw [getLastD_eq_getLast?, getLast?_eq_some_getLast hne, Option.getD_some]
  have hle_back := le_getLast hc.sortLE_total hsorted hne
  unfold TopKSorter.updateCutoff
  refine CountersInv.promoteMedian (CountersInv.promoteWorst ⟨?_, ?_, ?_⟩)
  · exact fun hcut => (h.cutoff_le hcut).trans (by simp [countP_append])
  · dsimp only
    rw [countP_append, hback]
    split_ifs with hworst
    · rw [countP_eq_length.mpr hle_back]
      simp only [Bool.or_eq_true, decide_eq_true_eq] at hworst
      rcases hworst with hzero | hless
      · omega
      · have := (countP_mono_of_sortLE hc (u := F) (hc.sortLE_of_stlLess hless)).trans'
          h.worstCount_le
        omega
    · simp only [Bool.or_eq_true, decide_eq_true_eq, not_or] at hworst
      have hback_le : sortLE comp (s.data.getLast hne) s.worstSeen = true := by
        simp [sortLE, hworst.2]
      rw [countP_eq_length.mpr fun e he => hc.sortLE_trans _ _ _ (hle_back e he) hback_le]
      have := h.worstCount_le
      omega
  · dsimp only
    rw [countP_append]
    generalize hm : (if s.medianCount = 0 then s.data.getD (s.data.length / 2) default
      else s.lastMedian) = m
    have hprefix : (s.data.takeWhile fun e => !stlLess comp m e).length ≤
        s.data.countP (sortLE comp · m) := by
      rw [← countP_eq_length.mpr fun e he => all_eq_true.mp all_takeWhile e he]
      exact ( takeWhile_prefix _).sublist.countP_le
    have hold : s.medianCount ≤ F.countP (sortLE comp · m) := by
      split_ifs at hm with hzero
      · omega
      · exact hm ▸ h.medianCount_le
    omega

end Counters

/-! ### The steps -/

section Steps

variable {xs : List α} {s : TopKSorter α}

theorem perm_append_singleton_comm (l m : List α) (x : α) : l ++ m ++ [x] ~ l ++ [x] ++ m := by
  rw [append_assoc, append_assoc]
  exact perm_append_comm.append_left _

/-- A pair with `L` kept pairs not after it may be thrown away. -/
theorem Inv.drop (hinv : s.Inv comp heap opts xs) {x : α}
    (hx : opts.limit ≤ s.kept.countP (sortLE comp · x)) : s.Inv comp heap opts (xs ++ [x]) := by
  obtain ⟨dropped, hxs, hdom⟩ := hinv.dominated
  refine { hinv with dominated := ⟨dropped ++ [x], ?_, ?_⟩ }
  · rw [← append_assoc]
    exact hxs.append_right [x]
  · intro y hy
    rcases mem_append.mp hy with hy | hy
    · exact hdom y hy
    · rw [mem_singleton.mp hy]
      exact hx

/-- A contender that joins a buffer below the limit, which becomes a heap when full. -/
theorem Inv.push (hinv : s.Inv comp heap opts xs) (hlt : s.data.length < opts.limit) (x : α)
    (memUsed : ℕ) :
    ({ s with
        data := if (s.data ++ [x]).length = s.opts.limit then heap.makeHeap (s.data ++ [x])
          else s.data ++ [x]
        memUsed := memUsed } : TopKSorter α).Inv comp heap opts (xs ++ [x]) := by
  set data := if (s.data ++ [x]).length = s.opts.limit then heap.makeHeap (s.data ++ [x])
    else s.data ++ [x] with hdata
  have hperm : data ~ s.data ++ [x] := by
    rw [hdata]
    split_ifs
    · exact heap.perm_makeHeap _
    · exact Perm.refl _
  have hkept : (s.iters.flatten ++ data) ~ s.kept ++ [x] := by
    rw [kept, append_assoc]
    exact hperm.append_left _
  obtain ⟨dropped, hxs, hdom⟩ := hinv.dominated
  refine ⟨hinv.opts_eq, ⟨dropped, ?_, fun y hy => ?_⟩,
    ⟨hinv.counters.1, hinv.counters.2, hinv.counters.3⟩, ?_, ?_, hinv.sorted⟩
  · exact (hxs.append_right [x]).trans
      ((perm_append_singleton_comm _ _ _).trans (hkept.symm.append_right dropped))
  · have hcount := hkept.countP_eq (sortLE comp · y)
    simp only [kept] at hcount ⊢
    rw [hcount, countP_append]
    exact (hdom y hy).trans (Nat.le_add_right _ _)
  · simp only [hperm.length_eq, length_append, length_singleton]
    omega
  · intro hfull
    have hlen : (s.data ++ [x]).length = s.opts.limit := by
      rw [hinv.opts_eq, ← hperm.length_eq]
      exact hfull
    simp only [hdata, if_pos hlen]
    exact heap.isHeap_makeHeap _

variable [Inhabited α] (hc : TotalPreorderComparator comp)
include hc

/-- A spill that may go to disk: the sorted buffer, with the counters updated, becomes the next
file. -/
theorem Inv.spill (hinv : s.Inv comp heap opts xs) (hext : opts.extSortAllowed = true) :
    ∃ s', s.spill comp heap = .ok s' ∧ s'.Inv comp heap opts xs ∧ s'.data = [] := by
  by_cases hdata : s.data = []
  · exact ⟨s, by simp [TopKSorter.spill, hdata], hinv, hdata⟩
  have hext' : s.opts.extSortAllowed = true := by rw [hinv.opts_eq]; exact hext
  set t := s.sort comp heap with ht
  have hperm : t.data ~ s.data := by
    simp only [ht, TopKSorter.sort]
    split_ifs
    · exact heap.perm_sortHeap _
    · exact mergeSort_perm _ _
  have hsorted : t.data.Pairwise fun a b => sortLE comp a b := by
    simp only [ht, TopKSorter.sort]
    split_ifs with hfull
    · exact (heap.sorted_sortHeap _ (hinv.isHeap (hinv.opts_eq ▸ hfull))).imp
        fun h => by simp [sortLE, h]
    · exact pairwise_mergeSort hc.sortLE_trans hc.sortLE_total _
  have htne : t.data ≠ [] := fun h => hdata (Perm.eq_nil (h ▸ hperm.symm))
  have hcounters : (t.updateCutoff comp).CountersInv comp (s.iters.flatten ++ t.data) :=
    CountersInv.updateCutoff hc ⟨hinv.counters.1, hinv.counters.2, hinv.counters.3⟩ hsorted htne
  have hu : (t.updateCutoff comp).data = t.data ∧ (t.updateCutoff comp).iters = s.iters ∧
      (t.updateCutoff comp).opts = s.opts := by
    unfold TopKSorter.updateCutoff
    dsimp only
    split_ifs <;> simp [promoteCutoff_eq, ht, TopKSorter.sort]
  set s' : TopKSorter α := { t.updateCutoff comp with
    iters := (t.updateCutoff comp).iters ++ [(t.updateCutoff comp).data], data := [], memUsed := 0 }
    with hs'
  have hflat : s'.iters.flatten = s.iters.flatten ++ t.data := by simp [hs', hu.1, hu.2.1]
  have hkept : s'.kept ~ s.kept := by
    rw [kept, hflat, append_nil, kept]
    exact hperm.append_left _
  refine ⟨s', by simp [hs', TopKSorter.spill, hdata, hext', ← ht], ⟨?_, ?_, ?_, by simp [hs'], ?_, ?_⟩,
    rfl⟩
  · simpa [hs', hu.2.2] using hinv.opts_eq
  · obtain ⟨dropped, hxs, hdom⟩ := hinv.dominated
    refine ⟨dropped, hxs.trans (hkept.symm.append_right dropped), fun x hx => ?_⟩
    rw [hkept.countP_eq]
    exact hdom x hx
  · rw [hflat]
    exact ⟨hcounters.1, hcounters.2, hcounters.3⟩
  · exact fun _ => heap.isHeap_nil
  · intro file hfile
    rcases (by simpa [hs', hu.2.1] using hfile :
        file ∈ s.iters ∨ file = (t.updateCutoff comp).data) with hfile | hfile
    · exact hinv.sorted file hfile
    · rw [hfile, hu.1]
      exact hsorted

/-- The end of `add`: a spill when the buffer passes the memory limit. -/
theorem Inv.spillIfOver (hinv : s.Inv comp heap opts xs) (hext : opts.extSortAllowed = true)
    (exceeded : Prop) [Decidable exceeded] :
    ∃ s', (if exceeded then s.spill comp heap else .ok s) = .ok s' ∧ s'.Inv comp heap opts xs := by
  split_ifs
  · obtain ⟨s', hs', hinv', _⟩ := hinv.spill hc hext
    exact ⟨s', hs', hinv'⟩
  · exact ⟨s, rfl, hinv⟩

/-- A contender better than the front of the full heap replaces it. -/
theorem Inv.replace (hinv : s.Inv comp heap opts xs) (hL : 1 ≤ opts.limit)
    (hfull : ¬s.data.length < opts.limit) {x : α}
    (hless : stlLess comp x (s.data.headD default) = true) (memUsed : ℕ) :
    ({ s with memUsed := memUsed, data := heap.replaceFront s.data x } : TopKSorter α).Inv comp
      heap opts (xs ++ [x]) := by
  have hlen : s.data.length = opts.limit := le_antisymm hinv.length_le (not_lt.mp hfull)
  obtain ⟨front, tail, hfront⟩ : ∃ front tail, s.data = front :: tail := by
    cases hd : s.data with
    | nil => rw [hd] at hlen; simp at hlen; omega
    | cons front tail => exact ⟨front, tail, rfl⟩
  have hheap := hinv.isHeap hlen
  have hmax : ∀ b ∈ s.data, sortLE comp b front = true := fun b hb => by
    simpa [sortLE] using heap.front_max _ hheap front (by simp [hfront]) b hb
  have hxfront : sortLE comp x front = true := hc.sortLE_of_stlLess (by simpa [hfront] using hless)
  have hperm : heap.replaceFront s.data x ~ x :: tail := by
    simpa [hfront] using heap.perm_replaceFront s.data x
  have hkept : ({ s with memUsed := memUsed, data := heap.replaceFront s.data x } :
      TopKSorter α).kept ~ s.iters.flatten ++ x :: tail := hperm.append_left _
  obtain ⟨dropped, hxs, hdom⟩ := hinv.dominated
  refine ⟨hinv.opts_eq, ⟨dropped ++ [front], ?_, fun y hy => ?_⟩,
    ⟨hinv.counters.1, hinv.counters.2, hinv.counters.3⟩, ?_,
    fun _ => heap.isHeap_replaceFront _ _ hheap, hinv.sorted⟩
  · have hswap : front :: tail ++ [x] ~ x :: tail ++ [front] :=
      calc front :: tail ++ [x] ~ front :: x :: tail := (perm_append_singleton x tail).cons front
        _ ~ x :: front :: tail := Perm.swap x front tail
        _ ~ x :: tail ++ [front] := ((perm_append_singleton front tail).cons x).symm
    have hkeptx : s.kept ++ [x] ~ s.iters.flatten ++ x :: tail ++ [front] := by
      rw [kept, hfront, append_assoc, append_assoc]
      exact hswap.append_left _
    calc xs ++ [x] ~ s.kept ++ dropped ++ [x] := hxs.append_right [x]
      _ ~ s.kept ++ [x] ++ dropped := perm_append_singleton_comm _ _ _
      _ ~ s.iters.flatten ++ x :: tail ++ [front] ++ dropped := hkeptx.append_right dropped
      _ ~ s.iters.flatten ++ x :: tail ++ dropped ++ [front] :=
        (perm_append_singleton_comm _ _ _).symm
      _ ~ _ := by
        rw [← append_assoc]
        exact (hkept.symm.append_right dropped).append_right [front]
  · rw [hkept.countP_eq]
    rcases mem_append.mp hy with hy | hy
    · refine (hdom y hy).trans ?_
      rw [kept, hfront]
      simp only [countP_append, countP_cons]
      have : (if sortLE comp front y = true then 1 else 0) ≤
          (if sortLE comp x y = true then 1 else 0) := by
        split_ifs with h₁ h₂ <;> simp_all [hc.sortLE_trans x front y hxfront]
      omega
    · rw [mem_singleton.mp hy]
      have hall : (x :: tail).countP (sortLE comp · front) = opts.limit := by
        rw [countP_eq_length.mpr, length_cons, ← hlen, hfront, length_cons]
        intro b hb
        rcases mem_cons.mp hb with rfl | hb
        · exact hxfront
        · exact hmax b (by simp [hfront, hb])
      rw [countP_append, hall]
      exact Nat.le_add_left _ _
  · rw [heap.length_replaceFront _ _ (by simp [hfront])]
    exact hinv.length_le

/-- **The step lemma.**  Adding a pair succeeds and keeps the invariant. -/
theorem Inv.add [SorterData α] (hinv : s.Inv comp heap opts xs) (hL : 1 ≤ opts.limit)
    (hext : opts.extSortAllowed = true) (x : α) :
    ∃ s', s.add comp heap x = .ok s' ∧ s'.Inv comp heap opts (xs ++ [x]) := by
  have hopts := hinv.opts_eq
  unfold TopKSorter.add
  dsimp only
  by_cases hlt : s.data.length < s.opts.limit
  · rw [if_pos hlt]
    by_cases hcut : (s.haveCutoff && !stlLess comp x s.cutoff) = true
    · rw [if_pos hcut]
      simp only [Bool.and_eq_true, Bool.not_eq_true'] at hcut
      have hx : sortLE comp s.cutoff x = true := by simp [sortLE, hcut.2]
      refine ⟨s, rfl, hinv.drop ?_⟩
      calc opts.limit ≤ s.iters.flatten.countP (sortLE comp · s.cutoff) :=
            hopts ▸ hinv.counters.cutoff_le hcut.1
        _ ≤ s.iters.flatten.countP (sortLE comp · x) := countP_mono_of_sortLE hc hx
        _ ≤ s.kept.countP (sortLE comp · x) := by simp [kept, countP_append]
    · rw [if_neg hcut]
      exact (hinv.push (by rw [← hopts]; exact hlt) x _).spillIfOver hc hext _
  · rw [if_neg hlt]
    by_cases hfront : (!stlLess comp x (s.data.headD default)) = true
    · rw [if_pos hfront]
      have hlen : s.data.length = opts.limit :=
        le_antisymm hinv.length_le (by rw [hopts] at hlt; omega)
      have hx : sortLE comp (s.data.headD default) x = true := by simpa [sortLE] using hfront
      have hall : s.data.countP (sortLE comp · x) = opts.limit := by
        rw [countP_eq_length.mpr, hlen]
        intro b hb
        have hne : s.data ≠ [] := ne_nil_of_mem hb
        have := heap.front_max _ (hinv.isHeap hlen) (s.data.headD default)
          (by cases hd : s.data with
              | nil => exact absurd hd hne
              | cons a t => simp) b hb
        exact hc.sortLE_trans _ _ _ (by simpa [sortLE] using this) hx
      refine ⟨s, rfl, hinv.drop ?_⟩
      rw [kept, countP_append, hall]
      exact Nat.le_add_left _ _
    · rw [if_neg hfront]
      simp only [Bool.not_eq_true', Bool.not_eq_false] at hfront
      exact (hinv.replace hc hL (hopts ▸ hlt) hfront _).spillIfOver hc hext _

/-- **`TopKSorter` keeps the best `L`.**  Its iterator returns a top-`L` sort of all the pairs. -/
theorem Inv.drain_done (hinv : s.Inv comp heap opts xs) (hL : 1 ≤ opts.limit)
    (hext : opts.extSortAllowed = true) :
    ∃ it ys, s.done comp heap = .ok it ∧ (∀ fuel, xs.length < fuel → it.drain comp fuel = some ys) ∧
      IsTopSort comp opts.limit xs ys := by
  obtain ⟨dropped, hxs, hdom⟩ := hinv.dominated
  unfold TopKSorter.done
  by_cases hiters : s.iters = []
  · set sorted := (s.sort comp heap).data with hsorted_def
    have hperm : sorted ~ s.data := by
      simp only [hsorted_def, TopKSorter.sort]
      split_ifs
      · exact heap.perm_sortHeap _
      · exact mergeSort_perm _ _
    have hsorted : sorted.Pairwise fun a b => sortLE comp a b := by
      simp only [hsorted_def, TopKSorter.sort]
      split_ifs with hfull
      · exact (heap.sorted_sortHeap _ (hinv.isHeap (hinv.opts_eq ▸ hfull))).imp
          fun h => by simp [sortLE, h]
      · exact pairwise_mergeSort hc.sortLE_trans hc.sortLE_total _
    have hkept : s.kept = s.data := by simp [kept, hiters]
    refine ⟨.inMem ⟨sorted⟩, sorted, by simp [hiters], fun fuel hfuel => drain_inMem comp _ ?_,
      ?_⟩
    · have := hxs.length_eq
      rw [length_append, hkept] at this
      rw [hperm.length_eq]
      omega
    · have htake : sorted.take opts.limit = sorted :=
        take_of_length_le (by rw [hperm.length_eq]; exact hinv.length_le)
      rw [← htake]
      rw [hkept] at hxs hdom
      exact hc.isTopSort_of_dominated hxs hdom hperm hsorted
  · obtain ⟨s', hs', hinv', hdata'⟩ := hinv.spill hc hext
    obtain ⟨dropped', hxs', hdom'⟩ := hinv'.dominated
    have hkept' : s'.kept = s'.iters.flatten := by simp [kept, hdata']
    rw [hkept'] at hxs' hdom'
    set merged := mergeAll (sortLE comp) s'.iters with hmerged
    have hperm : merged ~ s'.iters.flatten := mergeAll_perm _
    have hsorted : merged.Pairwise fun a b => sortLE comp a b :=
      pairwise_mergeAll hc.sortLE_trans hc.sortLE_total _ hinv'.sorted
    refine ⟨.merge (MergeIterator.make comp s'.iters s'.opts), merged.take opts.limit,
      by simp [hiters, hs'], fun fuel hfuel => ?_, hc.isTopSort_of_dominated hxs' hdom' hperm hsorted⟩
    have hlen : s'.iters.flatten.length < fuel := by
      have := hxs'.length_eq
      simp only [length_append] at this
      omega
    rw [MergeIterator.drain_make hc _ _ hlen, hinv'.opts_eq, if_pos (by omega)]

end Steps

end TopKSorter

end Mongo
