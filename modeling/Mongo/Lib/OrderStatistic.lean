import Mathlib

/-!
# The value a quorum has reached

Take a list of values sorted ascending, and a quorum size `w` with `0 < w ≤ length`.  The
element at index `length - w` is the greatest value that at least `w` elements reach:

* `le_countAtLeast_getElem` — at least `w` elements are at or above it;
* `le_getElem_of_le_countAtLeast` — any value that `w` elements reach is at most it.

The count does not depend on the order of the list (`countAtLeast_perm`).  So the two facts
carry over to the unsorted list that the sorted one was made from.
-/

namespace OrderStatistic

variable {α : Type*} [LinearOrder α]

/-- How many elements of `l` are at or above `x`. -/
def countAtLeast (x : α) (l : List α) : ℕ :=
  l.countP (fun y => x ≤ y)

theorem countAtLeast_perm {x : α} {l₁ l₂ : List α} (h : l₁.Perm l₂) :
    countAtLeast x l₁ = countAtLeast x l₂ :=
  h.countP_eq _

section Sorted

variable {l : List α} (hs : l.Pairwise (· ≤ ·))
include hs

/-- In a sorted list, the elements from index `i` on are at or above the one at `i`. -/
theorem getElem_le_of_mem_drop {i : ℕ} (hi : i < l.length) {y : α} (hy : y ∈ l.drop i) :
    l[i] ≤ y := by
  rw [List.drop_eq_getElem_cons hi] at hy
  rcases List.mem_cons.mp hy with rfl | hy
  · exact le_refl _
  · have hmem : l[i] ∈ l.take (i + 1) :=
      List.mem_iff_getElem.mpr ⟨i, by simp only [List.length_take]; omega, by simp⟩
    exact hs.rel_of_mem_take_of_mem_drop hmem hy

/-- In a sorted list, the elements before index `i` are at or below the one at `i`. -/
theorem le_getElem_of_mem_take {i : ℕ} (hi : i < l.length) {y : α} (hy : y ∈ l.take i) :
    y ≤ l[i] :=
  hs.rel_of_mem_take_of_mem_drop hy
    (List.mem_iff_getElem.mpr ⟨0, by simp only [List.length_drop]; omega, by simp⟩)

/-- **The element at `length - w` is reached by `w` elements**: itself and those after it. -/
theorem le_countAtLeast_getElem {w : ℕ} (hw : 0 < w) (hn : w ≤ l.length) :
    w ≤ countAtLeast l[l.length - w] l := by
  have hi : l.length - w < l.length := by omega
  have hdrop : countAtLeast l[l.length - w] (l.drop (l.length - w)) = w := by
    rw [countAtLeast, List.countP_eq_length.mpr fun y hy => by
      simpa using getElem_le_of_mem_drop hs hi hy]
    simp only [List.length_drop]
    omega
  calc w = countAtLeast l[l.length - w] (l.drop (l.length - w)) := hdrop.symm
    _ ≤ countAtLeast l[l.length - w] l := (List.drop_sublist _ _).countP_le

/-- **Nothing above the element at `length - w` is reached by `w` elements**: the elements before
it are at or below it, and it is not above such a value, which leaves the `w - 1` after it. -/
theorem le_getElem_of_le_countAtLeast {w : ℕ} (hw : 0 < w) (hn : w ≤ l.length) {x : α}
    (hx : w ≤ countAtLeast x l) : x ≤ l[l.length - w] := by
  by_contra hlt
  rw [not_le] at hlt
  have hi : l.length - w < l.length := by omega
  have htake : countAtLeast x (l.take (l.length - w)) = 0 :=
    List.countP_eq_zero.mpr fun y hy => by
      simpa using lt_of_le_of_lt (le_getElem_of_mem_take hs hi hy) hlt
  have hrest : countAtLeast x (l.drop (l.length - w + 1)) ≤ w - 1 := by
    calc countAtLeast x (l.drop (l.length - w + 1))
        ≤ (l.drop (l.length - w + 1)).length := List.countP_le_length
      _ = w - 1 := by simp only [List.length_drop]; omega
  have hl : l = l.take (l.length - w) ++ l[l.length - w] :: l.drop (l.length - w + 1) := by
    rw [← List.drop_eq_getElem_cons hi, List.take_append_drop]
  have hsplit : countAtLeast x l =
      countAtLeast x (l.take (l.length - w)) + countAtLeast x (l.drop (l.length - w + 1)) := by
    have hnot : ¬ x ≤ l[l.length - w] := not_le.mpr hlt
    rw [congrArg (countAtLeast x) hl]
    simp only [countAtLeast, List.countP_append, List.countP_cons, hnot, decide_false,
      Bool.false_eq_true, if_false, Nat.add_zero]
  omega

end Sorted

end OrderStatistic
