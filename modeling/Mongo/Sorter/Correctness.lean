import Mongo.Sorter.TopKSpec

/-!
# The external sorter sorts

`Sorter.Inv` is the invariant of whichever sorter `Sorter::make` chose: `NoLimitSorter.Inv`,
`LimitOneSorter.Inv` or `TopKSorter.Inv`.  `Sorter::make` starts it (`Sorter.inv_make`), each
`add` keeps it (`Sorter.Inv.add`), so a whole run of `add`s does (`Sorter.inv_addAll`, by
`Except.foldlM_invariant`), and `done()` turns it into the result (`Sorter.Inv.drain_done`).

`sortAndIterate_spec` is the whole client run, for every comparator that is a total preorder,
every implementation of the heap algorithms, every memory limit and every input, with external
sorting allowed.  With no limit the result is the stable sort of the input as long as no spill
happened; once one did, the merge stops after `ULLONG_MAX` pairs, so an input of `2^64` pairs or
more would lose its last ones.  No sorter receives such an input: each spill writes a file and
a `_iters` entry, and memory and disk run out long before `2^64` pairs.  `sortAndIterate_sorts`
is the result for every input shorter than that.  With a limit `L ≥ 1` it is a top-`L` sort
(`IsTopSort`).
-/

namespace Mongo

open List StableSort

variable {α : Type}

namespace Sorter

/-- What the sorter `Sorter::make` chose holds after the pairs `xs`. -/
def Inv [SorterData α] (comp : α → α → ℤ) (heap : HeapAlgorithms (stlLess comp))
    (opts : SortOptions) (xs : List α) : Sorter α → Prop
  | .noLimit s => opts.limit = 0 ∧ s.Inv comp opts xs
  | .limitOne s => opts.limit = 1 ∧ s.Inv comp xs
  | .topK s => 2 ≤ opts.limit ∧ s.Inv comp heap opts xs

variable [Inhabited α] [SorterData α] {comp : α → α → ℤ} {heap : HeapAlgorithms (stlLess comp)}
  {opts : SortOptions}

theorem inv_make (comp : α → α → ℤ) (heap : HeapAlgorithms (stlLess comp)) (opts : SortOptions) :
    (make opts : Sorter α).Inv comp heap opts [] := by
  unfold make
  match hlimit : opts.limit with
  | 0 => exact ⟨hlimit, NoLimitSorter.inv_make comp opts⟩
  | 1 => exact ⟨hlimit, LimitOneSorter.inv_make comp⟩
  | _ + 2 => exact ⟨by omega, TopKSorter.inv_make comp heap opts⟩

variable (hc : TotalPreorderComparator comp) (hext : opts.extSortAllowed = true)
include hc hext

/-- **The step lemma.**  Adding a pair succeeds and keeps the invariant. -/
theorem Inv.add {xs : List α} {s : Sorter α} (hinv : s.Inv comp heap opts xs) (x : α) :
    ∃ s', s.add comp heap x = .ok s' ∧ s'.Inv comp heap opts (xs ++ [x]) := by
  cases s with
  | noLimit s =>
      obtain ⟨hlimit, hinv⟩ := hinv
      obtain ⟨s', hs', hinv'⟩ := hinv.add hext x
      exact ⟨.noLimit s', by simp [Sorter.add, hs'], hlimit, hinv'⟩
  | limitOne s =>
      obtain ⟨hlimit, hinv⟩ := hinv
      exact ⟨.limitOne (s.add comp x), rfl, hlimit, hinv.add hc x⟩
  | topK s =>
      obtain ⟨hlimit, hinv⟩ := hinv
      obtain ⟨s', hs', hinv'⟩ := hinv.add hc (by omega) hext x
      exact ⟨.topK s', by simp [Sorter.add, hs'], hlimit, hinv'⟩

/-- **The run lemma.**  Adding every pair succeeds and leaves the invariant for all of them. -/
theorem inv_addAll (heap : HeapAlgorithms (stlLess comp)) (xs : List α) :
    ∃ s, (make opts : Sorter α).addAll comp heap xs = .ok s ∧ s.Inv comp heap opts xs := by
  simpa [addAll] using Except.foldlM_invariant (add comp heap) (fun seen s => s.Inv comp heap opts seen)
    (fun _ _ x hinv => hinv.add hc hext x) xs [] _ (inv_make comp heap opts)

/-- `done()` and the iteration: with no limit, the stable sort, cut at `ULLONG_MAX` pairs once a
spill happened; with a limit, a top-`L` sort. -/
theorem Inv.drain_done {xs : List α} {s : Sorter α} (hinv : s.Inv comp heap opts xs) :
    ∃ it ys, s.done comp heap = .ok it ∧
      (∀ fuel, xs.length < fuel → it.drain comp fuel = some ys) ∧
      (opts.limit = 0 → ys =
        if (xs.map memUsageForSorter).sum ≤ opts.maxMemoryUsageBytes then
          stableSort (stlLess comp) xs
        else (stableSort (stlLess comp) xs).take (2 ^ 64 - 1)) ∧
      (1 ≤ opts.limit → IsTopSort comp opts.limit xs ys) := by
  cases s with
  | noLimit s =>
      obtain ⟨hlimit, hinv⟩ := hinv
      obtain ⟨it, hit, hdrain⟩ := hinv.drain_done hc hext hlimit
      exact ⟨it, _, hit, hdrain, fun _ => rfl, fun h => absurd hlimit (by omega)⟩
  | limitOne s =>
      obtain ⟨hlimit, hinv⟩ := hinv
      obtain ⟨ys, hdrain, htop⟩ := hinv.drain_done hc
      exact ⟨_, ys, rfl, hdrain, fun h => absurd hlimit (by omega), fun _ => hlimit ▸ htop⟩
  | topK s =>
      obtain ⟨hlimit, hinv⟩ := hinv
      obtain ⟨it, ys, hit, hdrain, htop⟩ := hinv.drain_done hc (by omega) hext
      exact ⟨it, ys, hit, hdrain, fun h => absurd hlimit (by omega), fun _ => htop⟩

end Sorter

/-- The heap kept sorted from the greatest down, for a comparator that is a total preorder:
`STLComparator` is then a strict weak order. -/
def TotalPreorderComparator.sortedHeap {comp : α → α → ℤ} (hc : TotalPreorderComparator comp) :
    HeapAlgorithms (stlLess comp) :=
  HeapAlgorithms.sorted (fun a b => hc.sortLE_total b a)
    (fun a b c hab hbc => hc.sortLE_trans c b a hbc hab)

section Client

variable [Inhabited α] [SorterData α] {comp : α → α → ℤ}

/-- **The client's run.**  Making a sorter, adding the pairs and iterating `done()` to the end
succeeds with one result for all enough fuel: with no limit, the stable sort of the pairs, cut at
`ULLONG_MAX` pairs when they did not fit in memory; with a limit, a top-`L` sort.  The cut is
`MergeIterator`'s `_remaining`, which starts at `ULLONG_MAX` when there is no limit; it shortens
only inputs of `2^64` pairs or more. -/
theorem sortAndIterate_spec (hc : TotalPreorderComparator comp)
    (heap : HeapAlgorithms (stlLess comp)) (opts : SortOptions)
    (hext : opts.extSortAllowed = true) (xs : List α) :
    ∃ ys, (∀ fuel, xs.length < fuel → sortAndIterate comp heap opts xs fuel = .ok (some ys)) ∧
      (opts.limit = 0 → ys =
        if (xs.map memUsageForSorter).sum ≤ opts.maxMemoryUsageBytes then
          stableSort (stlLess comp) xs
        else (stableSort (stlLess comp) xs).take (2 ^ 64 - 1)) ∧
      (1 ≤ opts.limit → IsTopSort comp opts.limit xs ys) := by
  obtain ⟨s, hs, hinv⟩ := Sorter.inv_addAll hc hext heap xs
  obtain ⟨it, ys, hit, hdrain, hzero, htop⟩ := hinv.drain_done hc hext
  refine ⟨ys, fun fuel hfuel => ?_, hzero, htop⟩
  simp [sortAndIterate, hs, hit, hdrain fuel hfuel]

/-- **The external sorter computes a (top-`L`) sort.**  For every comparator that is a total
preorder, every implementation of the heap algorithms, every limit and memory limit, and every
input, with external sorting allowed: iterating `done()` to the end gives the stable sort of an
input of fewer than `2^64` pairs when there is no limit, and a top-`L` sort when the limit `L` is
at least one. -/
theorem sortAndIterate_sorts (hc : TotalPreorderComparator comp)
    (heap : HeapAlgorithms (stlLess comp)) (opts : SortOptions)
    (hext : opts.extSortAllowed = true) (xs : List α) :
    ∃ ys, (∀ fuel, xs.length < fuel → sortAndIterate comp heap opts xs fuel = .ok (some ys)) ∧
      (opts.limit = 0 → xs.length < 2 ^ 64 → ys = stableSort (stlLess comp) xs) ∧
      (1 ≤ opts.limit → IsTopSort comp opts.limit xs ys) := by
  obtain ⟨ys, hrun, hzero, htop⟩ := sortAndIterate_spec hc heap opts hext xs
  refine ⟨ys, hrun, fun hlimit hlen => ?_, htop⟩
  rw [hzero hlimit]
  split_ifs
  · rfl
  · rw [take_of_length_le]
    rw [stableSort, length_mergeSort]
    omega

end Client

/-! ### Pairs ordered by their key -/

/-- Pairs compared by their first component, the key, as a sort on one field compares
documents. -/
def keyComp (a b : ℕ × ℕ) : ℤ :=
  (a.1 : ℤ) - b.1

/-- Each pair takes one byte. -/
instance : SorterData (ℕ × ℕ) :=
  ⟨fun _ => 1⟩

theorem keyComp_totalPreorder : TotalPreorderComparator keyComp :=
  ⟨fun a b => by simp only [keyComp]; omega, fun a b c => by simp only [keyComp]; omega⟩

/-- The heap kept sorted, for pairs ordered by their key. -/
def keyHeap : HeapAlgorithms (stlLess keyComp) :=
  keyComp_totalPreorder.sortedHeap

/-- The two best of three pairs, two of them with equal keys, under a memory limit of one byte. -/
theorem sortAndIterate_sorts_top2 :
    TotalPreorderComparator keyComp ∧ (⟨2, 1, true⟩ : SortOptions).extSortAllowed = true ∧
      ∃ ys, (∀ fuel, [(2, 0), (1, 0), (2, 1)].length < fuel →
          sortAndIterate keyComp keyHeap ⟨2, 1, true⟩ [(2, 0), (1, 0), (2, 1)] fuel =
            .ok (some ys)) ∧
        ((⟨2, 1, true⟩ : SortOptions).limit = 0 → [(2, 0), (1, 0), (2, 1)].length < 2 ^ 64 →
          ys = stableSort (stlLess keyComp) [(2, 0), (1, 0), (2, 1)]) ∧
        (1 ≤ (⟨2, 1, true⟩ : SortOptions).limit →
          IsTopSort keyComp (⟨2, 1, true⟩ : SortOptions).limit [(2, 0), (1, 0), (2, 1)] ys) :=
  ⟨keyComp_totalPreorder, rfl,
    sortAndIterate_sorts keyComp_totalPreorder keyHeap ⟨2, 1, true⟩ rfl [(2, 0), (1, 0), (2, 1)]⟩

end Mongo
