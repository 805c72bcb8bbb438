import Mongo.Sorter.Sorter

/-!
# The merge iterator merges

For a comparator that is a total preorder, `MergeIterator` over `n` sorted files returns
`mergeAll` of the files, ties going to the earlier file, cut at `_remaining` pairs.

The abstraction is `MergeIterator.pending`: what is left of each file (`runsOf`, read off the
streams by file number) merged, up to `_remaining` pairs.  `MergeIterator.Inv` is what keeps it
meaningful: the streams have distinct file numbers below `n`, and before the first `next` the
current stream is the least.  One step (`next_of_more`) returns the head of `pending` and leaves
its tail: the stream it takes is least among all streams (`mergeAll_runsOf_of_least`, through
the k-way merge step `mergeAll_eq_cons_of_min`).  The run lemma (`drain_merge`) follows by
induction on the fuel, and the constructor starts it on the merge of the files
(`pending_make`).
-/

namespace Mongo

open List StableSort

variable {α : Type}

/-- A comparator that is a total preorder, which `dassertCompIsSane` checks for the pairs it is
given: swapping the arguments swaps the sign, and `comp a b ≤ 0` is transitive. -/
structure TotalPreorderComparator (comp : α → α → ℤ) : Prop where
  neg_iff : ∀ a b, comp b a < 0 ↔ 0 < comp a b
  le_trans : ∀ a b c, comp a b ≤ 0 → comp b c ≤ 0 → comp a c ≤ 0

/-- The order `stableSort (stlLess comp)` places pairs in: `a` before `b` unless `b` is strictly
less. -/
def sortLE (comp : α → α → ℤ) (a b : α) : Bool :=
  !stlLess comp b a

theorem stableSort_stlLess (comp : α → α → ℤ) (l : List α) :
    stableSort (stlLess comp) l = l.mergeSort (sortLE comp) := rfl

/-- Not greater, for streams: a pair not after the other's, and the lower file among equals. -/
theorem MergeIterator.Stream.greater_eq_false_iff (comp : α → α → ℤ)
    (s t : MergeIterator.Stream α) :
    MergeIterator.Stream.greater comp s t = false ↔
      comp s.current t.current ≤ 0 ∧ (comp s.current t.current = 0 → s.fileNum ≤ t.fileNum) := by
  simp only [MergeIterator.Stream.greater]
  split_ifs <;> simp only [decide_eq_false_iff_not, not_lt] <;> omega

namespace TotalPreorderComparator

variable {comp : α → α → ℤ} (hc : TotalPreorderComparator comp)
include hc

theorem comp_self (a : α) : comp a a = 0 := by
  have := hc.neg_iff a a
  omega

theorem sortLE_iff (a b : α) : sortLE comp a b = true ↔ comp a b ≤ 0 := by
  have := hc.neg_iff a b
  have := hc.neg_iff b a
  simp only [sortLE, stlLess, Bool.not_eq_true', decide_eq_false_iff_not]
  omega

theorem sortLE_trans (a b c : α) : sortLE comp a b → sortLE comp b c → sortLE comp a c := by
  simp only [hc.sortLE_iff]
  exact hc.le_trans a b c

theorem sortLE_total (a b : α) : (sortLE comp a b || sortLE comp b a) = true := by
  have := hc.neg_iff a b
  simp only [Bool.or_eq_true, hc.sortLE_iff]
  omega

theorem greater_asymm (s t : MergeIterator.Stream α) :
    MergeIterator.Stream.greater comp s t = true → MergeIterator.Stream.greater comp t s = false := by
  have := hc.neg_iff s.current t.current
  have := hc.neg_iff t.current s.current
  rw [← Bool.not_eq_false, MergeIterator.Stream.greater_eq_false_iff,
    MergeIterator.Stream.greater_eq_false_iff]
  omega

theorem greater_trans (s t u : MergeIterator.Stream α) :
    MergeIterator.Stream.greater comp s t = false → MergeIterator.Stream.greater comp t u = false →
      MergeIterator.Stream.greater comp s u = false := by
  simp only [MergeIterator.Stream.greater_eq_false_iff]
  rintro ⟨hst, hst'⟩ ⟨htu, htu'⟩
  refine ⟨hc.le_trans _ _ _ hst htu, fun hsu => ?_⟩
  have hus : comp u.current s.current = 0 := by
    have := hc.neg_iff u.current s.current
    have := hc.neg_iff s.current u.current
    omega
  have hut := hc.le_trans _ _ _ hus.le hst
  have hts := hc.le_trans _ _ _ htu hus.le
  have := hc.neg_iff t.current u.current
  have := hc.neg_iff u.current t.current
  have := hc.neg_iff s.current t.current
  have := hc.neg_iff t.current s.current
  omega

end TotalPreorderComparator

namespace MergeIterator

/-- A stream's pair and the rest of its file. -/
def Stream.toList (s : Stream α) : List α :=
  s.current :: s.rest

/-- What is left of file `j` in the streams. -/
def runAt (streams : List (Stream α)) (j : ℕ) : List α :=
  streams.flatMap fun s => if s.fileNum = j then s.toList else []

/-- What is left of each of `n` files. -/
def runsOf (n : ℕ) (streams : List (Stream α)) : List (List α) :=
  (range n).map (runAt streams)

@[simp]
theorem runAt_nil (j : ℕ) : runAt ([] : List (Stream α)) j = [] := rfl

@[simp]
theorem runAt_cons (s : Stream α) (streams : List (Stream α)) (j : ℕ) :
    runAt (s :: streams) j = (if s.fileNum = j then s.toList else []) ++ runAt streams j := rfl

@[simp]
theorem runAt_append (streams streams' : List (Stream α)) (j : ℕ) :
    runAt (streams ++ streams') j = runAt streams j ++ runAt streams' j := by
  simp [runAt]

theorem runAt_eq_nil {streams : List (Stream α)} {j : ℕ} (h : ∀ s ∈ streams, s.fileNum ≠ j) :
    runAt streams j = [] := by
  simp only [runAt, flatMap_eq_nil_iff]
  intro s hs
  rw [if_neg (h s hs)]

/-- The stream with file number `j` holds all that is left of file `j`. -/
theorem runAt_of_mem {streams : List (Stream α)} (hnd : (streams.map Stream.fileNum).Nodup)
    {s : Stream α} (hs : s ∈ streams) : runAt streams s.fileNum = s.toList := by
  induction streams with
  | nil => simp at hs
  | cons t streams ih =>
      rw [map_cons, nodup_cons] at hnd
      rw [runAt_cons]
      rcases mem_cons.mp hs with rfl | hs
      · have hfresh : ∀ u ∈ streams, u.fileNum ≠ s.fileNum := fun u hu h =>
          hnd.1 (by rw [← h]; exact mem_map_of_mem hu)
        rw [if_pos rfl, runAt_eq_nil hfresh, append_nil]
      · have hne : t.fileNum ≠ s.fileNum := fun h => hnd.1 (by rw [h]; exact mem_map_of_mem hs)
        rw [if_neg hne, nil_append, ih hnd.2 hs]

/-- Where the streams are kept does not change what is left of the files. -/
theorem runAt_perm {streams streams' : List (Stream α)}
    (hnd : (streams.map Stream.fileNum).Nodup) (h : streams ~ streams') (j : ℕ) :
    runAt streams j = runAt streams' j := by
  by_cases hj : ∃ s ∈ streams, s.fileNum = j
  · obtain ⟨s, hs, rfl⟩ := hj
    rw [runAt_of_mem hnd hs, runAt_of_mem ((h.map _).nodup_iff.mp hnd) (h.subset hs)]
  · push Not at hj
    rw [runAt_eq_nil hj, runAt_eq_nil fun s hs => hj s (h.symm.subset hs)]

theorem runsOf_perm {streams streams' : List (Stream α)}
    (hnd : (streams.map Stream.fileNum).Nodup) (h : streams ~ streams') (n : ℕ) :
    runsOf n streams = runsOf n streams' := by
  rw [runsOf, runsOf, funext (runAt_perm hnd h)]

theorem exists_of_runAt_eq_cons {streams : List (Stream α)}
    (hnd : (streams.map Stream.fileNum).Nodup) {j : ℕ} {b : α} {u : List α}
    (h : runAt streams j = b :: u) : ∃ t ∈ streams, t.fileNum = j ∧ t.current = b := by
  by_cases hj : ∃ t ∈ streams, t.fileNum = j
  · obtain ⟨t, ht, rfl⟩ := hj
    rw [runAt_of_mem hnd ht, Stream.toList, cons.injEq] at h
    exact ⟨t, ht, rfl, h.1⟩
  · push Not at hj
    rw [runAt_eq_nil hj] at h
    cases h

/-- Advancing a stream leaves the rest of its file. -/
theorem runAt_advance (s : Stream α) (j : ℕ) :
    runAt s.advance.toList j = if s.fileNum = j then s.rest else [] := by
  unfold Stream.advance
  split <;> rename_i h <;> simp [h, Stream.toList]

theorem fileNum_of_mem_advance {s t : Stream α} (h : t ∈ s.advance.toList) :
    t.fileNum = s.fileNum := by
  unfold Stream.advance at h
  split at h <;> simp_all

theorem nodup_advance_append {s : Stream α} {others : List (Stream α)}
    (hnd : ((s :: others).map Stream.fileNum).Nodup) :
    ((s.advance.toList ++ others).map Stream.fileNum).Nodup := by
  rw [map_cons, nodup_cons] at hnd
  rw [map_append, nodup_append]
  refine ⟨by unfold Stream.advance; split <;> simp, hnd.2, ?_⟩
  intro a ha b hb hab
  obtain ⟨t, ht, rfl⟩ := mem_map.mp ha
  rw [fileNum_of_mem_advance ht] at hab
  exact hnd.1 (hab ▸ hb)

/-- The streams the iterator has yet to read from: `_current`, once its pair has been returned
advanced, and the heap. -/
def streams (it : MergeIterator α) : List (Stream α) :=
  match it.current with
  | none => []
  | some current => (if it.first then [current] else current.advance.toList) ++ it.heap

/-- What the iterator has yet to return: the merge of what is left of the `n` files, up to
`_remaining` pairs. -/
def pending (comp : α → α → ℤ) (n : ℕ) (it : MergeIterator α) : List α :=
  (mergeAll (sortLE comp) (runsOf n it.streams)).take it.remaining

/-- The iterator's invariant over `n` files. -/
structure Inv (comp : α → α → ℤ) (n : ℕ) (it : MergeIterator α) : Prop where
  nodup : (it.streams.map Stream.fileNum).Nodup
  fileNum_lt : ∀ s ∈ it.streams, s.fileNum < n
  /-- before the first `next`, `_current` is the least stream -/
  first_least : it.first = true → ∀ current, it.current = some current →
    ∀ t ∈ it.heap, Stream.greater comp current t = false
  /-- `_current` is released only with `_remaining` -/
  remaining_of_none : it.current = none → it.remaining = 0

variable {comp : α → α → ℤ} (hc : TotalPreorderComparator comp)
include hc

/-- **The k-way merge step.**  If a stream is least among the streams, the merge of what is
left of the files starts with its pair and goes on with it advanced. -/
theorem mergeAll_runsOf_of_least {n : ℕ} {s : Stream α} {others : List (Stream α)}
    (hnd : ((s :: others).map Stream.fileNum).Nodup) (hlt : ∀ t ∈ s :: others, t.fileNum < n)
    (hmin : ∀ t ∈ others, Stream.greater comp s t = false) :
    mergeAll (sortLE comp) (runsOf n (s :: others)) =
      s.current :: mergeAll (sortLE comp) (runsOf n (s.advance.toList ++ others)) := by
  have hs : s.fileNum < n := hlt s mem_cons_self
  have hothers : ∀ t ∈ others, t.fileNum ≠ s.fileNum := by
    rw [map_cons, nodup_cons] at hnd
    exact fun t ht h => hnd.1 (by rw [← h]; exact mem_map_of_mem ht)
  have hset : runsOf n (s.advance.toList ++ others) =
      (runsOf n (s :: others)).set s.fileNum s.rest := by
    refine ext_getElem (by simp [runsOf]) fun j h₁ h₂ => ?_
    simp only [runsOf, getElem_set, getElem_map, getElem_range, runAt_append, runAt_advance,
      runAt_cons]
    split_ifs with hj
    · subst hj
      rw [runAt_eq_nil hothers, append_nil]
    · simp
  rw [hset]
  refine mergeAll_eq_cons_of_min ?_ fun j b u hj hjm => ?_
  · simp [runsOf, hs, runAt_of_mem hnd mem_cons_self, Stream.toList]
  · obtain ⟨_, hrun⟩ := List.getElem?_eq_some_iff.mp hj
    simp only [runsOf, getElem_map, getElem_range] at hrun
    obtain ⟨t, ht, rfl, rfl⟩ := exists_of_runAt_eq_cons hnd hrun
    have htne : t ≠ s := fun h => hjm (h ▸ rfl)
    have hothers' := (mem_cons.mp ht).resolve_left htne
    have hts := (Stream.greater_eq_false_iff comp s t).mp (hmin t hothers')
    have hne := hothers t hothers'
    have := hc.neg_iff s.current t.current
    have := hc.neg_iff t.current s.current
    simp only [hc.sortLE_iff]
    omega

/-- One step that takes a least stream: its pair is the head of what was pending, and what is
pending after it is the rest. -/
theorem pending_of_least {n : ℕ} {it it' : MergeIterator α} (hinv : it.Inv comp n)
    {s : Stream α} {others : List (Stream α)} (hperm : it.streams ~ s :: others)
    (hmin : ∀ t ∈ others, Stream.greater comp s t = false) (hpos : 0 < it.remaining)
    (hstreams : it'.streams = s.advance.toList ++ others) (hrem : it'.remaining = it.remaining - 1)
    (hfirst : it'.first = false) (hcur : it'.current ≠ none) :
    it.pending comp n = s.current :: it'.pending comp n ∧ it'.Inv comp n := by
  have hnd : ((s :: others).map Stream.fileNum).Nodup := (hperm.map _).nodup_iff.mp hinv.nodup
  have hlt : ∀ t ∈ s :: others, t.fileNum < n := fun t ht => hinv.fileNum_lt t (hperm.symm.subset ht)
  refine ⟨?_, ⟨?_, ?_, ?_, ?_⟩⟩
  · obtain ⟨r, hr⟩ := Nat.exists_eq_succ_of_ne_zero hpos.ne'
    rw [pending, pending, runsOf_perm hinv.nodup hperm, mergeAll_runsOf_of_least hc hnd hlt hmin,
      hstreams, hrem, hr, take_succ_cons, Nat.succ_sub_one]
  · rw [hstreams]
    exact nodup_advance_append hnd
  · rw [hstreams]
    intro t ht
    rcases mem_append.mp ht with ht | ht
    · rw [fileNum_of_mem_advance ht]
      exact hlt s mem_cons_self
    · exact hlt t (mem_cons_of_mem s ht)
  · simp [hfirst]
  · exact fun h => absurd h hcur

omit hc in
theorem more_eq_true {it : MergeIterator α} (h : (it.more).1 = true) : (it.more).2 = it := by
  unfold more at h ⊢
  dsimp only at h ⊢
  split_ifs at h ⊢
  rfl

omit hc in
theorem Stream.advance_eq_none {s : Stream α} : s.advance = none ↔ s.more = false := by
  unfold Stream.advance Stream.more
  split <;> simp_all

omit hc in
theorem runsOf_nil (n : ℕ) : runsOf n ([] : List (Stream α)) = replicate n [] := by
  simp [runsOf, show runAt ([] : List (Stream α)) = fun _ => [] from funext runAt_nil]

omit hc in
/-- When `more()` answers false, nothing is pending. -/
theorem pending_eq_nil_of_more {n : ℕ} {it : MergeIterator α} (hinv : it.Inv comp n)
    (h : (it.more).1 = false) : it.pending comp n = [] := by
  obtain ⟨remaining, first, current, heap⟩ := it
  unfold more at h
  dsimp only at h
  split_ifs at h with hmore
  simp only [Bool.and_eq_true, decide_eq_true_eq, Bool.or_eq_true, Bool.not_eq_true',
    List.isEmpty_eq_false_iff, not_and, not_or, ne_eq, Decidable.not_not] at hmore
  rcases Nat.eq_zero_or_pos remaining with hzero | hpos
  · simp [pending, hzero]
  · obtain ⟨⟨hfirst, hheap⟩, hcurrent⟩ := hmore hpos
    have hstreams : streams ⟨remaining, first, current, heap⟩ = [] := by
      cases current with
      | none => rfl
      | some c =>
          have hadv : c.advance = none := Stream.advance_eq_none.mpr (by simpa using hcurrent)
          simp [streams, hfirst, hheap, hadv]
    rw [pending, hstreams, runsOf_nil, mergeAll_eq_nil fun r hr => (mem_replicate.mp hr).2,
      take_nil]

/-- **The step lemma.**  When `more()` answers true, `next()` returns the head of what is
pending and leaves its tail, keeping the invariant. -/
theorem next_of_more {n : ℕ} {it : MergeIterator α} (hinv : it.Inv comp n)
    (h : (it.more).1 = true) :
    ∃ x it', it.next comp = some (x, it') ∧ it.pending comp n = x :: it'.pending comp n ∧
      it'.Inv comp n := by
  have asymm := hc.greater_asymm
  have trans := hc.greater_trans
  obtain ⟨remaining, first, current, heap⟩ := it
  unfold more at h
  dsimp only at h
  split_ifs at h with hmore
  simp only [Bool.and_eq_true, decide_eq_true_eq, Bool.or_eq_true, Bool.not_eq_true',
    List.isEmpty_eq_false_iff] at hmore
  obtain ⟨hpos, hmore⟩ := hmore
  have hrem : remaining ≠ 0 := hpos.ne'
  cases current with
  | none => exact absurd (hinv.remaining_of_none rfl) hrem
  | some c =>
  cases first with
  | true =>
      refine ⟨c.current, ⟨remaining - 1, false, some c, heap⟩, by simp [next, hrem], ?_⟩
      refine pending_of_least hc hinv (show _ ~ c :: heap from Perm.refl _)
        (hinv.first_least rfl c rfl) hpos rfl rfl rfl (by simp)
  | false =>
  cases hadv : c.advance with
  | none =>
      have hheap : heap ≠ [] := by
        rcases hmore with (hmore | hmore) | hmore
        · cases hmore
        · exact hmore
        · simp [Stream.advance_eq_none.mp hadv] at hmore
      obtain ⟨⟨m, others⟩, hpop⟩ := Option.ne_none_iff_exists'.mp
        (mt (@popMin_eq_none_iff _ (Stream.greater comp) _).mp hheap)
      refine ⟨m.current, ⟨remaining - 1, false, some m, others⟩, by simp [next, hrem, hadv, hpop], ?_⟩
      refine pending_of_least hc hinv ?_ ?_ hpos rfl rfl rfl (by simp)
      · simpa [streams, hadv] using (perm_popMin hpop).symm
      · exact not_greater_of_popMin asymm trans hpop
  | some a =>
  cases hpop : popMin (Stream.greater comp) heap with
  | none =>
      have hheap : heap = [] := popMin_eq_none_iff.mp hpop
      subst hheap
      refine ⟨a.current, ⟨remaining - 1, false, some a, []⟩, by simp [next, hrem, hadv, hpop], ?_⟩
      exact pending_of_least hc hinv (show _ ~ [a] by simp [streams, hadv]) (by simp) hpos rfl rfl rfl (by simp)
  | some p =>
  obtain ⟨m, others⟩ := p
  have hperm := perm_popMin hpop
  have hmin := not_greater_of_popMin asymm trans hpop
  by_cases hg : Stream.greater comp a m = true
  · refine ⟨m.current, ⟨remaining - 1, false, some m, a :: others⟩,
      by simp [next, hrem, hadv, hpop, hg], ?_⟩
    refine pending_of_least hc hinv (show _ ~ m :: a :: others from ?_) ?_ hpos rfl rfl rfl
      (by simp)
    · simpa [streams, hadv] using ((hperm.symm.cons a).trans (Perm.swap m a others))
    · intro t ht
      rcases mem_cons.mp ht with rfl | ht
      · exact asymm _ _ hg
      · exact hmin t ht
  · rw [Bool.not_eq_true] at hg
    refine ⟨a.current, ⟨remaining - 1, false, some a, heap⟩,
      by simp [next, hrem, hadv, hpop, hg], ?_⟩
    refine pending_of_least hc hinv (show _ ~ a :: heap by simp [streams, hadv]) ?_ hpos
      rfl rfl rfl (by simp)
    intro t ht
    rcases mem_cons.mp (hperm.symm.subset ht) with rfl | ht
    · exact hg
    · exact trans _ _ _ hg (hmin t ht)

/-- **The run lemma.**  From a state satisfying the invariant, iterating to the end with enough
fuel returns exactly what is pending. -/
theorem drain_merge {n : ℕ} :
    ∀ (fuel : ℕ) (it : MergeIterator α), it.Inv comp n → (it.pending comp n).length < fuel →
      SortIterator.drain comp fuel (.merge it) = some (it.pending comp n)
  | 0, _, _, hlen => absurd hlen (Nat.not_lt_zero _)
  | fuel + 1, it, hinv, hlen => by
      cases hm : (it.more).1 with
      | false =>
          rw [pending_eq_nil_of_more hinv hm]
          simp [SortIterator.drain, SortIterator.more, hm]
      | true =>
          obtain ⟨x, it', hnext, hpend, hinv'⟩ := next_of_more hc hinv hm
          have hlen' : (it'.pending comp n).length < fuel := by
            rw [hpend, length_cons] at hlen
            omega
          have hrest := drain_merge fuel it' hinv' hlen'
          simp [SortIterator.drain, SortIterator.more, hm, more_eq_true hm, SortIterator.next,
            hnext, hrest, hpend]

/-! ### The constructor -/

omit hc in
theorem fileNum_streamsFrom {i : ℕ} {iters : List (List α)} {s : Stream α}
    (h : s ∈ streamsFrom i iters) : i ≤ s.fileNum ∧ s.fileNum < i + iters.length := by
  induction iters generalizing i with
  | nil => simp [streamsFrom] at h
  | cons file iters ih =>
      cases file with
      | nil =>
          have := ih h
          simp only [length_cons]
          omega
      | cons x rest =>
          rcases mem_cons.mp h with rfl | h
          · simp
          · have := ih h
            simp only [length_cons]
            omega

omit hc in
theorem nodup_streamsFrom (i : ℕ) (iters : List (List α)) :
    ((streamsFrom i iters).map Stream.fileNum).Nodup := by
  induction iters generalizing i with
  | nil => simp [streamsFrom]
  | cons file iters ih =>
      cases file with
      | nil => exact ih (i + 1)
      | cons x rest =>
          refine nodup_cons.mpr ⟨fun hi => ?_, ih (i + 1)⟩
          obtain ⟨s, hs, hsi⟩ := mem_map.mp hi
          have := (fileNum_streamsFrom hs).1
          simp only at hsi
          omega

omit hc in
theorem streamsFrom_eq_nil {i : ℕ} {iters : List (List α)} (h : streamsFrom i iters = []) :
    ∀ file ∈ iters, file = [] := by
  induction iters generalizing i with
  | nil => simp
  | cons file iters ih =>
      cases file with
      | nil => simpa using ih h
      | cons x rest => simp [streamsFrom] at h

omit hc in
/-- The constructor's streams hold the files, each under its place. -/
theorem runAt_streamsFrom (i : ℕ) (iters : List (List α)) (j : ℕ) :
    runAt (streamsFrom i iters) (i + j) = iters.getD j [] := by
  induction iters generalizing i j with
  | nil => simp [streamsFrom]
  | cons file iters ih =>
      have hlater : runAt (streamsFrom (i + 1) iters) i = [] :=
        runAt_eq_nil fun s hs => by have := (fileNum_streamsFrom hs).1; omega
      cases j with
      | zero =>
          cases file with
          | nil => simpa [streamsFrom] using hlater
          | cons x rest => simp [streamsFrom, hlater, Stream.toList]
      | succ j =>
          have hij : i + (j + 1) = i + 1 + j := by omega
          have hne : i ≠ i + 1 + j := by omega
          cases file with
          | nil => simpa [streamsFrom, hij] using ih (i + 1) j
          | cons x rest => simpa [streamsFrom, hij, hne] using ih (i + 1) j

omit hc in
theorem runsOf_streamsFrom (iters : List (List α)) :
    runsOf iters.length (streamsFrom 0 iters) = iters := by
  refine ext_getElem (by simp [runsOf]) fun j h₁ h₂ => ?_
  have := runAt_streamsFrom 0 iters j
  simp only [Nat.zero_add] at this
  simp [runsOf, this, getElem?_eq_getElem h₂]

/-- The constructor keeps the invariant over its files. -/
theorem inv_make (iters : List (List α)) (opts : SortOptions) :
    (make comp iters opts).Inv comp iters.length := by
  unfold make
  split
  · exact ⟨by simp [streams], by simp [streams], by simp, fun _ => rfl⟩
  · rename_i current heap hpop
    have hperm := perm_popMin hpop
    refine ⟨?_, ?_, ?_, by simp⟩
    · simpa [streams] using (hperm.map Stream.fileNum).nodup_iff.mpr (nodup_streamsFrom 0 iters)
    · intro s hs
      have := (fileNum_streamsFrom (hperm.subset (by simpa [streams] using hs))).2
      omega
    · intro _ c hc' t ht
      cases hc'
      exact not_greater_of_popMin hc.greater_asymm hc.greater_trans hpop t ht

omit hc in
/-- The constructor starts on the merge of its files, cut at the limit. -/
theorem pending_make (iters : List (List α)) (opts : SortOptions) :
    (make comp iters opts).pending comp iters.length =
      (mergeAll (sortLE comp) iters).take (if opts.limit ≠ 0 then opts.limit else 2 ^ 64 - 1) := by
  unfold make
  split
  · rename_i hpop
    rw [mergeAll_eq_nil (streamsFrom_eq_nil (popMin_eq_none_iff.mp hpop))]
    simp [pending]
  · rename_i current heap hpop
    have hperm := perm_popMin hpop
    have hnd : ((current :: heap).map Stream.fileNum).Nodup :=
      (hperm.map Stream.fileNum).nodup_iff.mpr (nodup_streamsFrom 0 iters)
    simp only [pending, streams, if_true, singleton_append]
    rw [runsOf_perm hnd hperm, runsOf_streamsFrom]

/-- **The merge iterator merges.**  Iterating it to the end returns the merge of the files, ties
to the earlier file, cut at the limit (`ULLONG_MAX` when there is none). -/
theorem drain_make (iters : List (List α)) (opts : SortOptions) {fuel : ℕ}
    (hfuel : iters.flatten.length < fuel) :
    SortIterator.drain comp fuel (.merge (make comp iters opts)) =
      some ((mergeAll (sortLE comp) iters).take
        (if opts.limit ≠ 0 then opts.limit else 2 ^ 64 - 1)) := by
  rw [← pending_make]
  refine drain_merge hc fuel _ (inv_make hc iters opts) ?_
  rw [pending_make, length_take, (mergeAll_perm iters).length_eq]
  omega

end MergeIterator

end Mongo
