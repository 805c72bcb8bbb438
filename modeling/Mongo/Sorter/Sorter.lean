import Mongo.Lib.HeapAlgorithms
import Mongo.Lib.StableSort

/-!
# The external sorter

`Sorter::make` (`sorter.cpp`) picks one of three sorters by `SortOptions::limit`:

* `NoLimitSorter` (limit 0) buffers the pairs it is given and, whenever their memory use passes
  `maxMemoryUsageBytes`, stable-sorts the buffer and spills it to a file;
* `LimitOneSorter` (limit 1) keeps the first least pair;
* `TopKSorter` (any other limit `L`) keeps at most `L` pairs in memory, as a max-heap once it
  holds `L` of them, replaces the greatest by a smaller contender, and when it spills, sorts
  the buffer and updates `_cutoff`, below which it ignores every later contender.

`done()` returns an `InMemIterator` over the sorted buffer when nothing was spilled, and
otherwise spills what is left and returns a `MergeIterator` over the files: a k-way merge on a
min-heap of streams, ties going to the lower file number, that stops after `limit` pairs
(`ULLONG_MAX` when the limit is 0).

The pairs are a type `α` compared by `comp : α → α → ℤ`; `STLComparator` is `comp a b < 0`.  A
file is read back exactly as it was written (serialization and compression are not modelled),
so a spilled file is the list it holds.  The standard heap algorithms are any implementation of
their specification (`HeapAlgorithms`); the merge heap's front is its least stream
(`popMin`), which the specification determines because streams have distinct file numbers.  A
`verify` or `invariant` that fails ends the process: `next` answers `none` there.  The
`massert`s of `Sorter::make` on the environment (`mongos`, `tempDir`) are not modelled.
-/

namespace Mongo

open StableSort

/-- What the sorters read of `SortOptions`. -/
structure SortOptions where
  /-- the number of pairs to return; 0 for no limit -/
  limit : ℕ
  maxMemoryUsageBytes : ℕ
  /-- whether a spill may go to disk -/
  extSortAllowed : Bool
  deriving DecidableEq, Repr

/-- The message of a spill that may not go to disk (codes 16819 and 16820). -/
def sortExceededMemoryLimitMessage (maxMemoryUsageBytes : ℕ) : String :=
  "Sort exceeded memory limit of " ++ toString maxMemoryUsageBytes ++
    " bytes, but did not opt in to external sorting. Aborting operation." ++
    " Pass allowDiskUse:true to opt in."

/-- A `uasserted` error: its code and its message. -/
structure SorterError where
  code : ℕ
  reason : String
  deriving DecidableEq, Repr

/-- What the sorter asks of a pair: `key.memUsageForSorter() + val.memUsageForSorter()`. -/
class SorterData (α : Type) where
  memUsageForSorter : α → ℕ

export SorterData (memUsageForSorter)

/-- `STLComparator` of the sorters: `_comp(lhs, rhs) < 0`. -/
def stlLess {α : Type} (comp : α → α → ℤ) (lhs rhs : α) : Bool :=
  decide (comp lhs rhs < 0)

variable {α : Type}

/-! ### Iterators -/

/-- `InMemIterator`: the pairs still to return. -/
structure InMemIterator (α : Type) where
  data : List α
  deriving DecidableEq, Repr

namespace InMemIterator

def more (it : InMemIterator α) : Bool :=
  !it.data.isEmpty

/-- `next()`; the front of an empty deque is not defined. -/
def next (it : InMemIterator α) : Option (α × InMemIterator α) :=
  match it.data with
  | [] => none
  | x :: rest => some (x, ⟨rest⟩)

end InMemIterator

/-- `MergeIterator::Stream`: a file's number, the pair read last from it, and the rest of it. -/
structure MergeIterator.Stream (α : Type) where
  fileNum : ℕ
  current : α
  rest : List α
  deriving DecidableEq, Repr

/-- `MergeIterator`: the pairs it may still return, whether `next` has been called, the stream
whose pair it returned last (`_current`), and the min-heap of the other streams with data. -/
structure MergeIterator (α : Type) where
  remaining : ℕ
  first : Bool
  current : Option (MergeIterator.Stream α)
  heap : List (MergeIterator.Stream α)
  deriving DecidableEq, Repr

namespace MergeIterator

namespace Stream

def more (s : Stream α) : Bool :=
  !s.rest.isEmpty

/-- `advance()`: the stream on the next pair of its file; `none` for false, at the end. -/
def advance (s : Stream α) : Option (Stream α) :=
  match s.rest with
  | [] => none
  | x :: rest => some ⟨s.fileNum, x, rest⟩

/-- `MergeIterator::STLComparator`: greater rather than less, for a min-heap; equal pairs are
ordered by file number, for stability. -/
def greater (comp : α → α → ℤ) (lhs rhs : Stream α) : Bool :=
  let ret := comp lhs.current rhs.current
  if ret ≠ 0 then decide (ret > 0) else decide (lhs.fileNum > rhs.fileNum)

end Stream

/-- The streams of the constructor's loop: one for each file with data, numbered by its place
among all the files. -/
def streamsFrom : ℕ → List (List α) → List (Stream α)
  | _, [] => []
  | i, [] :: iters => streamsFrom (i + 1) iters
  | i, (x :: rest) :: iters => ⟨i, x, rest⟩ :: streamsFrom (i + 1) iters

variable (comp : α → α → ℤ)

/-- The constructor: `_remaining` is the limit, or `ULLONG_MAX` when there is none, and `0` when
no file has data; otherwise the least stream becomes `_current`. -/
def make (iters : List (List α)) (opts : SortOptions) : MergeIterator α :=
  match popMin (Stream.greater comp) (streamsFrom 0 iters) with
  | none => ⟨0, true, none, []⟩
  | some (current, heap) =>
      ⟨if opts.limit ≠ 0 then opts.limit else 2 ^ 64 - 1, true, some current, heap⟩

/-- `more()`; when it answers false it releases the streams. -/
def more (it : MergeIterator α) : Bool × MergeIterator α :=
  let currentMore := match it.current with
    | some current => current.more
    | none => false
  if decide (0 < it.remaining) && (it.first || !it.heap.isEmpty || currentMore) then (true, it)
  else (false, { it with heap := [], current := none, remaining := 0 })

/-- `next()`: the first call returns the constructor's least pair; later calls advance
`_current` and, if its file is done or it is no longer least, take the heap's least stream in
its place. -/
def next (it : MergeIterator α) : Option (α × MergeIterator α) :=
  -- verify(_remaining)
  if it.remaining = 0 then none
  else
    let it := { it with remaining := it.remaining - 1 }
    match it.current with
    | none => none
    | some current =>
        if it.first then some (current.current, { it with first := false })
        else
          match current.advance with
          | none =>
              -- verify(!_heap.empty())
              match popMin (Stream.greater comp) it.heap with
              | none => none
              | some (least, heap) => some (least.current, { it with current := some least, heap })
          | some advanced =>
              match popMin (Stream.greater comp) it.heap with
              | some (least, heap) =>
                  if Stream.greater comp advanced least then
                    some (least.current, { it with current := some least, heap := advanced :: heap })
                  else some (advanced.current, { it with current := some advanced })
              | none => some (advanced.current, { it with current := some advanced })

end MergeIterator

/-- The iterator `done()` returns. -/
inductive SortIterator (α : Type)
  | inMem (it : InMemIterator α)
  | merge (it : MergeIterator α)
  deriving DecidableEq, Repr

namespace SortIterator

variable (comp : α → α → ℤ)

def more : SortIterator α → Bool × SortIterator α
  | .inMem it => (it.more, .inMem it)
  | .merge it => ((it.more).1, .merge (it.more).2)

def next : SortIterator α → Option (α × SortIterator α)
  | .inMem it => (it.next).map fun p => (p.1, .inMem p.2)
  | .merge it => (it.next comp).map fun p => (p.1, .merge p.2)

/-- `while (it->more()) out.push_back(it->next());` with `fuel` rounds at most; `none` when the
fuel runs out or a `verify` fails. -/
def drain : ℕ → SortIterator α → Option (List α)
  | 0, _ => none
  | fuel + 1, it =>
      match it.more with
      | (false, _) => some []
      | (true, it) =>
          match it.next comp with
          | none => none
          | some (x, it) => (drain fuel it).map (x :: ·)

end SortIterator

/-! ### Sorters -/

/-- `NoLimitSorter`: the options, the memory use of the buffer, the buffer, and the files. -/
structure NoLimitSorter (α : Type) where
  opts : SortOptions
  memUsed : ℕ
  data : List α
  iters : List (List α)
  deriving DecidableEq, Repr

namespace NoLimitSorter

variable [SorterData α] (comp : α → α → ℤ)

def make (opts : SortOptions) : NoLimitSorter α :=
  ⟨opts, 0, [], []⟩

/-- `sort()`: `std::stable_sort` of the buffer. -/
def sort (s : NoLimitSorter α) : NoLimitSorter α :=
  { s with data := stableSort (stlLess comp) s.data }

/-- `spill()`: the sorted buffer becomes the next file. -/
def spill (s : NoLimitSorter α) : Except SorterError (NoLimitSorter α) :=
  if s.data.isEmpty then .ok s
  else if !s.opts.extSortAllowed then
    .error ⟨16819, sortExceededMemoryLimitMessage s.opts.maxMemoryUsageBytes⟩
  else
    let s := s.sort comp
    .ok { s with data := [], iters := s.iters ++ [s.data], memUsed := 0 }

def add (s : NoLimitSorter α) (x : α) : Except SorterError (NoLimitSorter α) :=
  let s := { s with data := s.data ++ [x], memUsed := s.memUsed + memUsageForSorter x }
  if s.memUsed > s.opts.maxMemoryUsageBytes then s.spill comp else .ok s

def done (s : NoLimitSorter α) : Except SorterError (SortIterator α) :=
  if s.iters.isEmpty then .ok (.inMem ⟨(s.sort comp).data⟩)
  else do
    let s ← s.spill comp
    return .merge (MergeIterator.make comp s.iters s.opts)

end NoLimitSorter

/-- `LimitOneSorter`: the best pair so far, and whether there is one. -/
structure LimitOneSorter (α : Type) where
  best : α
  haveData : Bool
  deriving DecidableEq, Repr

namespace LimitOneSorter

variable [Inhabited α] (comp : α → α → ℤ)

def make : LimitOneSorter α :=
  ⟨default, false⟩

/-- `add`: a contender replaces the best pair only if it is strictly better. -/
def add (s : LimitOneSorter α) (x : α) : LimitOneSorter α :=
  if s.haveData then
    if comp s.best x ≤ 0 then s else { s with best := x }
  else ⟨x, true⟩

def done (s : LimitOneSorter α) : SortIterator α :=
  .inMem ⟨if s.haveData then [s.best] else []⟩

end LimitOneSorter

/-- `TopKSorter`: the options, the memory use of the buffer, the buffer (a max-heap when it holds
`limit` pairs), the files, and what `updateCutoff` keeps. -/
structure TopKSorter (α : Type) where
  opts : SortOptions
  memUsed : ℕ
  data : List α
  iters : List (List α)
  haveCutoff : Bool
  /-- every later contender that is not better is ignored -/
  cutoff : α
  /-- the worst pair spilled since the last reset -/
  worstSeen : α
  /-- how many spilled pairs are at least as good as `worstSeen` -/
  worstCount : ℕ
  /-- the median of the first batch since the last reset -/
  lastMedian : α
  /-- how many spilled pairs are at least as good as `lastMedian` -/
  medianCount : ℕ
  deriving DecidableEq, Repr

namespace TopKSorter

variable [Inhabited α] [SorterData α] (comp : α → α → ℤ) (heap : HeapAlgorithms (stlLess comp))

/-- The constructor; `_cutoff`, `_worstSeen` and `_lastMedian` are default-constructed. -/
def make (opts : SortOptions) : TopKSorter α :=
  ⟨opts, 0, [], [], false, default, default, 0, default, 0⟩

/-- `sort()`: `std::sort_heap` of a full buffer, `std::stable_sort` of any other. -/
def sort (s : TopKSorter α) : TopKSorter α :=
  { s with data :=
      if s.data.length = s.opts.limit then heap.sortHeap s.data
      else stableSort (stlLess comp) s.data }

/-- The promotion of `updateCutoff`: `candidate` becomes `_cutoff` if there is none or it is
better. -/
def promoteCutoff (s : TopKSorter α) (candidate : α) : TopKSorter α :=
  if !s.haveCutoff || stlLess comp candidate s.cutoff then
    { s with cutoff := candidate, haveCutoff := true }
  else s

/-- `updateCutoff()`, on a sorted non-empty buffer.  `std::upper_bound` of `_lastMedian` in the
sorted buffer is the end of its prefix of pairs not worse than `_lastMedian`. -/
def updateCutoff (s : TopKSorter α) : TopKSorter α :=
  let less := stlLess comp
  let back := s.data.getLastD default
  let s := { s with
    worstSeen := if s.worstCount = 0 || less s.worstSeen back then back else s.worstSeen
    lastMedian := if s.medianCount = 0 then s.data.getD (s.data.length / 2) default
      else s.lastMedian }
  let s := { s with
    worstCount := s.worstCount + s.data.length
    medianCount := s.medianCount + (s.data.takeWhile fun e => !less s.lastMedian e).length }
  let s : TopKSorter α := if s.worstCount ≥ s.opts.limit then
      { s.promoteCutoff comp s.worstSeen with worstCount := 0 }
    else s
  if s.medianCount ≥ s.opts.limit then
    { s.promoteCutoff comp s.lastMedian with medianCount := 0 }
  else s

/-- `spill()`: sort, update the cutoff, and write the buffer as the next file. -/
def spill (s : TopKSorter α) : Except SorterError (TopKSorter α) :=
  if s.data.isEmpty then .ok s
  else if !s.opts.extSortAllowed then
    .error ⟨16820, sortExceededMemoryLimitMessage s.opts.maxMemoryUsageBytes⟩
  else
    let s := (s.sort comp heap).updateCutoff comp
    .ok { s with iters := s.iters ++ [s.data], data := [], memUsed := 0 }

/-- `add`: below the limit, a contender the cutoff does not exclude joins the buffer, which
becomes a heap when it is full; at the limit, a contender better than the heap's front replaces
it.  The `verify` that the buffer is exactly full there always holds. -/
def add (s : TopKSorter α) (x : α) : Except SorterError (TopKSorter α) :=
  let less := stlLess comp
  if s.data.length < s.opts.limit then
    if s.haveCutoff && !less x s.cutoff then .ok s
    else
      let data := s.data ++ [x]
      let s := { s with
        data := if data.length = s.opts.limit then heap.makeHeap data else data
        memUsed := s.memUsed + memUsageForSorter x }
      if s.memUsed > s.opts.maxMemoryUsageBytes then s.spill comp heap else .ok s
  else
    let front := s.data.headD default
    if !less x front then .ok s
    else
      let s := { s with
        memUsed := s.memUsed + memUsageForSorter x - memUsageForSorter front
        data := heap.replaceFront s.data x }
      if s.memUsed > s.opts.maxMemoryUsageBytes then s.spill comp heap else .ok s

def done (s : TopKSorter α) : Except SorterError (SortIterator α) :=
  if s.iters.isEmpty then .ok (.inMem ⟨(s.sort comp heap).data⟩)
  else do
    let s ← s.spill comp heap
    return .merge (MergeIterator.make comp s.iters s.opts)

end TopKSorter

/-- The sorter `Sorter::make` returns. -/
inductive Sorter (α : Type)
  | noLimit (s : NoLimitSorter α)
  | limitOne (s : LimitOneSorter α)
  | topK (s : TopKSorter α)
  deriving DecidableEq, Repr

namespace Sorter

variable [Inhabited α] [SorterData α] (comp : α → α → ℤ) (heap : HeapAlgorithms (stlLess comp))

/-- `Sorter::make`: the sorter for the limit. -/
def make (opts : SortOptions) : Sorter α :=
  match opts.limit with
  | 0 => .noLimit (.make opts)
  | 1 => .limitOne .make
  | _ => .topK (.make opts)

def add : Sorter α → α → Except SorterError (Sorter α)
  | .noLimit s, x => .noLimit <$> s.add comp x
  | .limitOne s, x => .ok (.limitOne (s.add comp x))
  | .topK s, x => .topK <$> s.add comp heap x

def done : Sorter α → Except SorterError (SortIterator α)
  | .noLimit s => s.done comp
  | .limitOne s => .ok s.done
  | .topK s => s.done comp heap

/-- `add` each pair in turn. -/
def addAll (s : Sorter α) (xs : List α) : Except SorterError (Sorter α) :=
  xs.foldlM (add comp heap) s

end Sorter

/-- What a client of the sorter does: make one, add the pairs, and iterate `done()` to the end,
with `fuel` rounds at most. -/
def sortAndIterate [Inhabited α] [SorterData α] (comp : α → α → ℤ)
    (heap : HeapAlgorithms (stlLess comp)) (opts : SortOptions) (xs : List α) (fuel : ℕ) :
    Except SorterError (Option (List α)) := do
  let s ← (Sorter.make opts).addAll comp heap xs
  let it ← s.done comp heap
  return it.drain comp fuel

end Mongo
