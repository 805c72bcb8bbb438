import Mathlib

/-!
# Editing a list in place

A loop that walks a vector with an index and erases or overwrites the elements at the index is
argued at a split `pre ++ a :: b :: post`, with `pre` the elements before the index.  Erasing
`a` or erasing `b` are then edits of the middle (`eraseIdx_split`, `eraseIdx_split_succ`), and
what they keep is said of the middle:

* `Pairwise.replace` — an element replaced by one that relates to the others as it did keeps a
  list pairwise related;
* `IsChain.replace_last` — the same for the last element of a chain;
* `exists_mem_split` — "some element satisfies `P`" is read off the edited middle.
-/

namespace List

variable {α : Type} {pre post : List α} {a b m : α}

/-- An index inside a list splits it before two elements. -/
theorem exists_split {l : List α} {i : ℕ} (h : i + 1 < l.length) :
    ∃ pre a b post, l = pre ++ a :: b :: post ∧ pre.length = i := by
  refine ⟨l.take i, l[i], l[i + 1], l.drop (i + 2), ?_, List.length_take_of_le (by omega)⟩
  have hdrop : l.drop i = l[i] :: l[i + 1] :: l.drop (i + 2) := by
    rw [List.drop_eq_getElem_cons (by omega), List.drop_eq_getElem_cons (by omega)]
  rw [← hdrop, List.take_append_drop]

theorem getElem?_split : (pre ++ a :: b :: post)[pre.length]? = some a := by
  simp

theorem getElem?_split_succ : (pre ++ a :: b :: post)[pre.length + 1]? = some b := by
  rw [List.getElem?_append_right (by omega)]
  simp

theorem eraseIdx_split : (pre ++ a :: b :: post).eraseIdx pre.length = pre ++ b :: post := by
  rw [List.eraseIdx_append_of_length_le (Nat.le_refl _)]
  simp

theorem eraseIdx_split_succ :
    (pre ++ a :: b :: post).eraseIdx (pre.length + 1) = pre ++ a :: post := by
  rw [List.eraseIdx_append_of_length_le (by omega)]
  simp

theorem take_split {rest : List α} : (pre ++ a :: rest).take (pre.length + 1) = pre ++ [a] := by
  rw [List.take_append, List.take_of_length_le (by omega)]
  simp

theorem take_split_two : (pre ++ a :: b :: post).take (pre.length + 2) = pre ++ [a, b] := by
  rw [List.take_append, List.take_of_length_le (by omega)]
  simp

/-- An element replaced by one that relates to every other element as it did. -/
theorem Pairwise.replace {R : α → α → Prop} (h : (pre ++ a :: post).Pairwise R)
    (hl : ∀ x, R x a → R x m) (hr : ∀ y, R a y → R m y) : (pre ++ m :: post).Pairwise R := by
  rw [List.pairwise_append, List.pairwise_cons] at h ⊢
  obtain ⟨hpre, ⟨hapost, hpost⟩, hcross⟩ := h
  refine ⟨hpre, ⟨fun y hy => hr y (hapost y hy), hpost⟩, fun x hx y hy => ?_⟩
  rcases List.mem_cons.mp hy with rfl | hy
  · exact hl x (hcross x hx a List.mem_cons_self)
  · exact hcross x hx y (List.mem_cons_of_mem a hy)

/-- The last element of a chain replaced by one its predecessor relates to as it did. -/
theorem IsChain.replace_last {R : α → α → Prop} (h : (pre ++ [a]).IsChain R)
    (hl : ∀ x, R x a → R x m) : (pre ++ [m]).IsChain R := by
  rw [List.isChain_append] at h ⊢
  obtain ⟨hpre, -, hcross⟩ := h
  refine ⟨hpre, List.isChain_singleton m, fun x hx y hy => ?_⟩
  rw [List.head?_cons, Option.mem_some_iff] at hy
  subst hy
  exact hl x (hcross x hx a rfl)

theorem IsChain.append_pair {R : α → α → Prop} (h : (pre ++ [a]).IsChain R) (hab : R a b) :
    (pre ++ [a, b]).IsChain R := by
  have hsplit : pre ++ [a, b] = (pre ++ [a]) ++ [b] := by simp
  rw [hsplit, List.isChain_append]
  refine ⟨h, List.isChain_singleton b, fun x hx y hy => ?_⟩
  rw [List.getLast?_concat, Option.mem_some_iff] at hx
  rw [List.head?_cons, Option.mem_some_iff] at hy
  subst hx hy
  exact hab

/-- Some element of a split list satisfies `P` iff one outside the middle does or one in it. -/
theorem exists_mem_split {P : α → Prop} {mid : List α} :
    (∃ x ∈ pre ++ mid ++ post, P x) ↔ (∃ x ∈ pre ++ post, P x) ∨ ∃ x ∈ mid, P x := by
  simp only [List.mem_append]
  constructor
  · rintro ⟨x, (hx | hx) | hx, hp⟩
    · exact Or.inl ⟨x, Or.inl hx, hp⟩
    · exact Or.inr ⟨x, hx, hp⟩
    · exact Or.inl ⟨x, Or.inr hx, hp⟩
  · rintro (⟨x, hx | hx, hp⟩ | ⟨x, hx, hp⟩)
    · exact ⟨x, Or.inl (Or.inl hx), hp⟩
    · exact ⟨x, Or.inr hx, hp⟩
    · exact ⟨x, Or.inl (Or.inr hx), hp⟩

end List
