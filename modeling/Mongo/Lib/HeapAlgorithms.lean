import Mathlib

/-!
# The standard heap algorithms, by their specification

`std::make_heap`, `std::pop_heap`, `std::push_heap` and `std::sort_heap` keep a vector as a
max-heap for a strict weak order `less`.  A caller may rely on what the standard says of them,
not on the layout an implementation picks, and among elements that `less` does not tell apart
the choice is the implementation's.  `HeapAlgorithms less` is any implementation meeting the
specification, with the heap property as a predicate it keeps: the front of a heap is a greatest
element, replacing the front (`pop_heap`, then overwriting `back()`, then `push_heap`) removes
it and adds the new element, and `sort_heap` sorts.

`HeapAlgorithms.sorted` is one implementation, keeping the vector sorted from the greatest down.

Where the order is strict and total on what a heap holds, the front is determined: `popMin`
is `pop_heap` followed by `back()` and `pop_back()` for a heap kept with a "greater" comparator,
with the layout of the rest left open (`perm_popMin`, `not_greater_of_popMin`).
-/

open List

/-- An implementation of the heap algorithms for the strict weak order `less`. -/
structure HeapAlgorithms {α : Type} (less : α → α → Bool) where
  /-- The heap property, which the algorithms keep. -/
  IsHeap : List α → Prop
  /-- `std::make_heap`. -/
  makeHeap : List α → List α
  /-- `std::pop_heap`, then `back() = x`, then `std::push_heap`. -/
  replaceFront : List α → α → List α
  /-- `std::sort_heap`. -/
  sortHeap : List α → List α
  perm_makeHeap : ∀ l, makeHeap l ~ l
  isHeap_makeHeap : ∀ l, IsHeap (makeHeap l)
  perm_replaceFront : ∀ l x, replaceFront l x ~ x :: l.tail
  isHeap_replaceFront : ∀ l x, IsHeap l → IsHeap (replaceFront l x)
  /-- Nothing in a heap is greater than its front. -/
  front_max : ∀ l, IsHeap l → ∀ a ∈ l.head?, ∀ b ∈ l, less a b = false
  perm_sortHeap : ∀ l, sortHeap l ~ l
  /-- `sort_heap` leaves no element after a smaller one. -/
  sorted_sortHeap : ∀ l, IsHeap l → (sortHeap l).Pairwise fun a b => less b a = false

namespace HeapAlgorithms

variable {α : Type} {less : α → α → Bool}

/-- The empty vector is a heap: `make_heap` of it is itself. -/
theorem isHeap_nil (heap : HeapAlgorithms less) : heap.IsHeap [] := by
  have h := heap.isHeap_makeHeap []
  rwa [Perm.eq_nil (heap.perm_makeHeap [])] at h

theorem length_replaceFront (heap : HeapAlgorithms less) (l : List α) (x : α) (hl : l ≠ []) :
    (heap.replaceFront l x).length = l.length := by
  rw [(heap.perm_replaceFront l x).length_eq, length_cons, length_tail]
  have := length_pos_of_ne_nil hl
  omega

/-- The heap kept sorted from the greatest down: a valid layout of a max-heap.  It needs `less`
to be a strict weak order: no two elements are each less than the other, and not being less is
transitive. -/
def sorted (asymm : ∀ a b, !less a b || !less b a)
    (trans : ∀ a b c, !less a b → !less b c → !less a c) : HeapAlgorithms less where
  IsHeap l := l.Pairwise fun a b => less a b = false
  makeHeap l := l.mergeSort fun a b => !less a b
  replaceFront l x := (x :: l.tail).mergeSort fun a b => !less a b
  sortHeap l := l.reverse
  perm_makeHeap l := mergeSort_perm l _
  isHeap_makeHeap l := by
    simpa using @pairwise_mergeSort _ (fun a b => !less a b) trans asymm l
  perm_replaceFront l x := mergeSort_perm _ _
  isHeap_replaceFront l x _ := by
    simpa using @pairwise_mergeSort _ (fun a b => !less a b) trans asymm (x :: l.tail)
  front_max l hl a ha b hb := by
    cases l with
    | nil => simp at ha
    | cons c l =>
        simp only [head?_cons, Option.mem_def, Option.some.injEq] at ha
        subst ha
        rcases mem_cons.mp hb with hba | hb
        · simpa [hba] using asymm c c
        · exact rel_of_pairwise_cons hl hb
  perm_sortHeap l := reverse_perm l
  sorted_sortHeap l hl := pairwise_reverse.mpr hl

end HeapAlgorithms

/-! ### The front under a strict total order -/

section PopMin

variable {β : Type} (greater : β → β → Bool)

/-- `std::pop_heap` on a min-heap kept with `greater`, then `back()` and `pop_back()`: an element
no other is below, and the others in some order. -/
def popMin : List β → Option (β × List β)
  | [] => none
  | s :: heap =>
      match popMin heap with
      | none => some (s, [])
      | some (m, others) => if greater s m then some (m, s :: others) else some (s, heap)

variable {greater}

@[simp]
theorem popMin_eq_none_iff {heap : List β} : popMin greater heap = none ↔ heap = [] := by
  cases heap with
  | nil => simp [popMin]
  | cons s heap =>
      simp only [popMin, reduceCtorEq, iff_false]
      split <;> (try split) <;> simp

theorem perm_popMin {heap others : List β} {m : β} (h : popMin greater heap = some (m, others)) :
    m :: others ~ heap := by
  induction heap generalizing m others with
  | nil => simp [popMin] at h
  | cons s heap ih =>
      simp only [popMin] at h
      split at h
      · rename_i hnone
        rw [popMin_eq_none_iff] at hnone
        simp_all
      · rename_i m' others' hsome
        split_ifs at h <;> simp only [Option.some.injEq, Prod.mk.injEq] at h <;>
          obtain ⟨rfl, rfl⟩ := h
        · exact (Perm.swap s m' others').trans ((ih hsome).cons s)
        · rfl

/-- Where `greater` is asymmetric and not being greater is transitive, nothing left in the heap
is below the element `popMin` takes. -/
theorem not_greater_of_popMin (asymm : ∀ a b, greater a b = true → greater b a = false)
    (trans : ∀ a b c, greater a b = false → greater b c = false → greater a c = false)
    {heap others : List β} {m : β} (h : popMin greater heap = some (m, others)) :
    ∀ t ∈ others, greater m t = false := by
  induction heap generalizing m others with
  | nil => simp [popMin] at h
  | cons s heap ih =>
      simp only [popMin] at h
      split at h
      · simp_all
      · rename_i m' others' hsome
        split_ifs at h with hsm <;> simp only [Option.some.injEq, Prod.mk.injEq] at h <;>
          obtain ⟨rfl, rfl⟩ := h
        · intro t ht
          rcases mem_cons.mp ht with rfl | ht
          · exact asymm _ _ hsm
          · exact ih hsome t ht
        · intro t ht
          rcases mem_cons.mp ((perm_popMin hsome).symm.subset ht) with rfl | ht
          · simpa using hsm
          · exact trans _ _ _ (by simpa using hsm) (ih hsome t ht)

end PopMin
