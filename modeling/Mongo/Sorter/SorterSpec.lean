import Mongo.Lib.Except
import Mongo.Sorter.MergeIteratorSpec

/-!
# What the sorters without a heap keep

`IsTopSort comp L xs ys` is what a sort limited to `L` pairs may return: `min L |xs|` pairs in
order, drawn from `xs`, each equivalent to the pair at its place in the stable sort of `xs`.
`isTopSort_of_dominated` is how a sorter meets it: what it returns is the first `L` of a sort
of the pairs it kept, and each pair it dropped has at least `L` kept pairs not after it.

`NoLimitSorter.Inv` says what a `NoLimitSorter` holds after the pairs `xs`: files that are the
stable sorts of consecutive segments of `xs` and the rest of `xs` in its buffer, whose memory use
it tracks and keeps within the limit between calls.  Its result (`NoLimitSorter.Inv.drain_done`)
is the stable sort of `xs` when the pairs fit in memory, and otherwise the first `2^64 - 1`
pairs of it, where the merge stops.

`LimitOneSorter.Inv` says that it keeps the first least pair.
-/

namespace Mongo

open List StableSort

variable {α : Type}

/-- What a sort limited to `L` pairs may return for `xs`: `min L |xs|` pairs in order, drawn from
`xs`, each equivalent under `comp` to the pair at its place in the stable sort of `xs`.  Which of
several equivalent pairs at the cut are returned is not fixed. -/
def IsTopSort (comp : α → α → ℤ) (L : ℕ) (xs ys : List α) : Prop :=
  ys.length = min L xs.length ∧ ys.Pairwise (fun a b => comp a b ≤ 0) ∧ ys <+~ xs ∧
    ∀ (i : ℕ) (hi : i < ys.length) (hi' : i < (stableSort (stlLess comp) xs).length),
      comp ys[i] (stableSort (stlLess comp) xs)[i] = 0

/-- An `InMemIterator` returns its pairs. -/
theorem drain_inMem (comp : α → α → ℤ) :
    ∀ (l : List α) {fuel : ℕ}, l.length < fuel → SortIterator.drain comp fuel (.inMem ⟨l⟩) = some l
  | _, 0, h => absurd h (Nat.not_lt_zero _)
  | [], _ + 1, _ => rfl
  | x :: l, fuel + 1, h => by
      have hrest := drain_inMem comp l (show l.length < fuel by simpa using h)
      simp [SortIterator.drain, SortIterator.more, InMemIterator.more, SortIterator.next,
        InMemIterator.next, hrest]

namespace TotalPreorderComparator

variable {comp : α → α → ℤ} (hc : TotalPreorderComparator comp)
include hc

theorem eq_zero_of_le {a b : α} (hab : comp a b ≤ 0) (hba : comp b a ≤ 0) : comp a b = 0 := by
  have := hc.neg_iff b a
  omega

/-- A strictly less pair comes before: `stlLess a b` gives `sortLE a b`. -/
theorem sortLE_of_stlLess {a b : α} (h : stlLess comp a b = true) : sortLE comp a b = true := by
  have := hc.neg_iff b a
  simp only [stlLess, decide_eq_true_eq] at h
  rw [hc.sortLE_iff]
  omega

/-- **The first places of a sort survive dropping dominated pairs.**  If each dropped pair has
at least `L` kept pairs not after it, the first `L` of a sort of the kept pairs are a top-`L`
sort of all of them. -/
theorem isTopSort_of_dominated {L : ℕ} {xs kept dropped sorted : List α}
    (hxs : xs ~ kept ++ dropped) (hdom : ∀ x ∈ dropped, L ≤ kept.countP (sortLE comp · x))
    (hperm : sorted ~ kept) (hsorted : sorted.Pairwise fun a b => sortLE comp a b) :
    IsTopSort comp L xs (sorted.take L) := by
  have htrans := hc.sortLE_trans
  have htotal := hc.sortLE_total
  have hlen : xs.length = kept.length + dropped.length := by rw [hxs.length_eq, length_append]
  refine ⟨?_, ?_, ?_, fun i hi hi' => ?_⟩
  · rw [length_take, hperm.length_eq, hlen]
    rcases dropped with _ | ⟨x, dropped⟩
    · simp
    · have := (hdom x mem_cons_self).trans countP_le_length
      simp only [length_cons]
      omega
  · exact (hsorted.sublist (take_sublist _ _)).imp fun h => (hc.sortLE_iff _ _).mp h
  · exact (take_sublist L sorted).subperm.trans
      (hperm.subperm.trans ((sublist_append_left _ _).subperm.trans hxs.symm.subperm))
  · rw [length_take] at hi
    obtain ⟨_, h₁, h₂⟩ := getElem_equiv_of_dominated htrans htotal hxs hdom hperm hsorted
      (mergeSort_perm xs _) (pairwise_mergeSort htrans htotal xs) (by omega : i < L) hi'
    rw [getElem_take]
    exact hc.eq_zero_of_le ((hc.sortLE_iff _ _).mp h₁) ((hc.sortLE_iff _ _).mp h₂)

end TotalPreorderComparator

/-! ### `NoLimitSorter` -/

namespace NoLimitSorter

variable [SorterData α] {comp : α → α → ℤ} {opts : SortOptions}

/-- What a `NoLimitSorter` holds after the pairs `xs`: files that are the stable sorts of
consecutive segments of `xs`, followed by the rest of `xs` in the buffer; the memory use of the
buffer, within the limit; and files only once the pairs together passed the limit. -/
structure Inv (comp : α → α → ℤ) (opts : SortOptions) (xs : List α) (s : NoLimitSorter α) :
    Prop where
  opts_eq : s.opts = opts
  segments : ∃ segs : List (List α),
    s.iters = segs.map (stableSort (stlLess comp)) ∧ segs.flatten ++ s.data = xs
  memUsed_eq : s.memUsed = (s.data.map memUsageForSorter).sum
  memUsed_le : s.memUsed ≤ opts.maxMemoryUsageBytes
  spilled : s.iters ≠ [] → opts.maxMemoryUsageBytes < (xs.map memUsageForSorter).sum

theorem inv_make (comp : α → α → ℤ) (opts : SortOptions) :
    (make opts : NoLimitSorter α).Inv comp opts [] :=
  ⟨rfl, ⟨[], rfl, rfl⟩, rfl, Nat.zero_le _, fun h => absurd rfl h⟩

omit [SorterData α] in
/-- A spill that may go to disk writes the sorted buffer as the next file. -/
theorem spill_eq (s : NoLimitSorter α) (hext : s.opts.extSortAllowed = true)
    (hdata : s.data ≠ []) :
    s.spill comp = .ok { s with
      data := []
      memUsed := 0
      iters := s.iters ++ [stableSort (stlLess comp) s.data] } := by
  simp [spill, hdata, hext, sort]

/-- **The step lemma.**  Adding a pair succeeds and keeps the invariant. -/
theorem Inv.add {xs : List α} {s : NoLimitSorter α} (hinv : s.Inv comp opts xs)
    (hext : opts.extSortAllowed = true) (x : α) :
    ∃ s', s.add comp x = .ok s' ∧ s'.Inv comp opts (xs ++ [x]) := by
  obtain ⟨hopts, ⟨segs, hiters, hxs⟩, hmem, hle, hspilled⟩ := hinv
  have hsum : (xs.map memUsageForSorter).sum =
      (segs.flatten.map memUsageForSorter).sum + s.memUsed := by
    rw [← hxs, map_append, sum_append, hmem]
  unfold NoLimitSorter.add
  dsimp only
  split_ifs with hover
  · rw [spill_eq _ (by simpa [hopts] using hext) (by simp)]
    refine ⟨_, rfl, ⟨hopts, ⟨segs ++ [s.data ++ [x]], ?_, ?_⟩, rfl, Nat.zero_le _, fun _ => ?_⟩⟩
    · simp [hiters]
    · simp [← hxs]
    · simp only [map_append, sum_append, map_cons, map_nil, sum_cons, sum_nil, hsum]
      rw [hopts] at hover
      omega
  · refine ⟨_, rfl, ⟨hopts, ⟨segs, hiters, by simp [← hxs]⟩, by simp [hmem], ?_, fun h => ?_⟩⟩
    · rw [hopts] at hover
      exact not_lt.mp hover
    · have := hspilled h
      simp only [map_append, sum_append]
      omega

/-- The pairs stay in the buffer exactly while they fit in memory. -/
theorem Inv.iters_eq_nil_iff {xs : List α} {s : NoLimitSorter α} (hinv : s.Inv comp opts xs) :
    s.iters = [] ↔ (xs.map memUsageForSorter).sum ≤ opts.maxMemoryUsageBytes := by
  obtain ⟨_, ⟨segs, hiters, hxs⟩, hmem, hle, hspilled⟩ := hinv
  constructor
  · intro h
    have hsegs : segs = [] := by simpa [h] using hiters.symm
    rw [← hxs, hsegs, flatten_nil, nil_append, ← hmem]
    exact hle
  · intro h
    by_contra hne
    exact absurd (hspilled hne) (not_lt.mpr h)

/-- **`NoLimitSorter` sorts.**  Its iterator returns the stable sort of all the pairs when they
fit in memory, and otherwise the first `2^64 - 1` pairs of it, where the merge stops. -/
theorem Inv.drain_done {xs : List α} {s : NoLimitSorter α} (hc : TotalPreorderComparator comp)
    (hinv : s.Inv comp opts xs) (hext : opts.extSortAllowed = true) (hlimit : opts.limit = 0) :
    ∃ it, s.done comp = .ok it ∧ ∀ fuel, xs.length < fuel →
      it.drain comp fuel = some
        (if (xs.map memUsageForSorter).sum ≤ opts.maxMemoryUsageBytes then
          stableSort (stlLess comp) xs
        else (stableSort (stlLess comp) xs).take (2 ^ 64 - 1)) := by
  have hempty := hinv.iters_eq_nil_iff
  obtain ⟨hopts, ⟨segs, hiters, hxs⟩, _, _, _⟩ := hinv
  unfold done
  by_cases h : s.iters = []
  · have hsegs : segs = [] := by simpa [h] using hiters.symm
    rw [hsegs, flatten_nil, nil_append] at hxs
    refine ⟨.inMem ⟨(s.sort comp).data⟩, by simp [h], fun fuel hfuel => ?_⟩
    rw [if_pos (hempty.mp h), sort, hxs]
    exact drain_inMem comp _ (by rw [stableSort, length_mergeSort]; exact hfuel)
  · obtain ⟨s', segs', hs, hspill, hflat, hspillOpts⟩ : ∃ (s' : NoLimitSorter α)
        (segs' : List (List α)), s.spill comp = .ok s' ∧
        s'.iters = segs'.map (stableSort (stlLess comp)) ∧ segs'.flatten = xs ∧ s'.opts = opts := by
      by_cases hdata : s.data = []
      · exact ⟨s, segs, by simp [spill, hdata], hiters, by simpa [hdata] using hxs, hopts⟩
      · exact ⟨_, segs ++ [s.data], spill_eq _ (by simpa [hopts] using hext) hdata,
          by simp [hiters], by simp [← hxs], hopts⟩
    refine ⟨.merge (MergeIterator.make comp s'.iters s'.opts), by simp [h, hs], fun fuel hfuel => ?_⟩
    have hlen : (s'.iters).flatten.length < fuel := by
      simpa [hspill, length_flatten, stableSort, Function.comp_def, ← hflat,
        length_flatten] using hfuel
    rw [MergeIterator.drain_make hc _ _ hlen, hspill, hspillOpts, hlimit,
      if_neg (mt hempty.mpr h)]
    simp only [ne_eq, not_true_eq_false, if_false, stableSort_stlLess]
    rw [show stableSort (stlLess comp) = (mergeSort · (sortLE comp)) from rfl,
      mergeAll_map_mergeSort hc.sortLE_trans hc.sortLE_total, hflat]

end NoLimitSorter

/-! ### `LimitOneSorter` -/

namespace LimitOneSorter

variable {comp : α → α → ℤ}

/-- What a `LimitOneSorter` holds after the pairs `xs`: a pair exactly when there was one, and
then a pair of `xs` not after any other. -/
structure Inv (comp : α → α → ℤ) (xs : List α) (s : LimitOneSorter α) : Prop where
  haveData_iff : s.haveData = true ↔ xs ≠ []
  best : s.haveData = true → s.best ∈ xs ∧ ∀ y ∈ xs, comp s.best y ≤ 0

theorem inv_make [Inhabited α] (comp : α → α → ℤ) : (make : LimitOneSorter α).Inv comp [] :=
  ⟨by simp [make], by simp [make]⟩

/-- **The step lemma.**  A contender replaces the best pair only when strictly less. -/
theorem Inv.add {xs : List α} {s : LimitOneSorter α} (hc : TotalPreorderComparator comp)
    (hinv : s.Inv comp xs) (x : α) : (s.add comp x).Inv comp (xs ++ [x]) := by
  unfold LimitOneSorter.add
  by_cases hdata : s.haveData = true
  · obtain ⟨hbest, hle⟩ := hinv.best hdata
    rw [if_pos hdata]
    split_ifs with hx
    · refine ⟨by simp [hdata], fun _ => ⟨mem_append_left _ hbest, fun y hy => ?_⟩⟩
      rcases mem_append.mp hy with hy | hy
      · exact hle y hy
      · rw [mem_singleton.mp hy]
        exact hx
    · have hxb : comp x s.best ≤ 0 := by
        have := hc.neg_iff x s.best
        omega
      refine ⟨by simp [hdata], fun _ => ⟨by simp, ?_⟩⟩
      simp only [mem_append, mem_singleton]
      rintro y (hy | rfl)
      · exact hc.le_trans _ _ _ hxb (hle y hy)
      · exact (hc.comp_self y).le
  · have hxs : xs = [] := by simpa [hdata] using hinv.haveData_iff.not
    subst hxs
    rw [if_neg hdata]
    exact ⟨by simp, fun _ => by simp [(hc.comp_self x).le]⟩

/-- **`LimitOneSorter` returns a least pair.** -/
theorem Inv.drain_done {xs : List α} {s : LimitOneSorter α} (hc : TotalPreorderComparator comp)
    (hinv : s.Inv comp xs) :
    ∃ ys, (∀ fuel, xs.length < fuel → s.done.drain comp fuel = some ys) ∧
      IsTopSort comp 1 xs ys := by
  classical
  unfold done
  split_ifs with hdata
  · obtain ⟨hbest, hle⟩ := hinv.best hdata
    have hpos : 0 < xs.length := length_pos_of_mem hbest
    refine ⟨_, fun fuel hfuel => drain_inMem comp [s.best] (by simp; omega), ?_⟩
    have := hc.isTopSort_of_dominated (L := 1) (perm_cons_erase hbest)
      (fun x hx => by simp [hc.sortLE_iff, hle x (mem_of_mem_erase hx)]) (Perm.refl [s.best])
      (pairwise_singleton _ _)
    simpa using this
  · have hxs : xs = [] := by simpa [hdata] using hinv.haveData_iff.not
    subst hxs
    refine ⟨_, fun fuel hfuel => drain_inMem comp [] hfuel, ?_⟩
    simpa using hc.isTopSort_of_dominated (L := 1) (show ([] : List α) ~ [] ++ [] from Perm.refl _)
      (by simp) (Perm.refl []) Pairwise.nil

end LimitOneSorter

end Mongo
