import Mathlib

/-!
# Boxes of compound keys

A compound key is a list of field values, ordered lexicographically.  A *box* bounds every
field on its own: `k` lies in the box of `lo` and `hi` when `lo ≤ k ≤ hi` field by field.  A
box is usually far smaller than the lexicographic range between its corners, but it always lies
inside that range (`InBox.lex`), which is what lets a range lookup stand in for a box.

* `le_of_forall₂_le` — componentwise order implies lexicographic order.
* `InBox.snoc` — a box grows one field at a time.
-/

namespace Lex

variable {α : Type*} [LinearOrder α]

/-- **Componentwise order implies lexicographic order.** -/
theorem le_of_forall₂_le : ∀ {a b : List α}, List.Forall₂ (· ≤ ·) a b → a ≤ b
  | [], [], .nil => le_refl _
  | x :: xs, y :: ys, .cons hxy hxs => by
      rcases lt_or_eq_of_le hxy with hlt | rfl
      · exact le_of_lt (List.cons_lt_cons_iff.mpr (Or.inl hlt))
      · rcases lt_or_eq_of_le (le_of_forall₂_le hxs) with hlt | rfl
        · exact le_of_lt (List.cons_lt_cons_iff.mpr (Or.inr ⟨rfl, hlt⟩))
        · exact le_refl _

/-- `k` lies in the box with corners `lo` and `hi`: field by field, `lo ≤ k ≤ hi`. -/
def InBox (lo hi k : List α) : Prop :=
  List.Forall₂ (· ≤ ·) lo k ∧ List.Forall₂ (· ≤ ·) k hi

theorem inBox_nil : InBox ([] : List α) [] [] :=
  ⟨.nil, .nil⟩

/-- A box grows by one field whose bounds hold. -/
theorem InBox.snoc {lo hi k : List α} {s e x : α} (h : InBox lo hi k) (hs : s ≤ x)
    (he : x ≤ e) : InBox (lo ++ [s]) (hi ++ [e]) (k ++ [x]) :=
  ⟨List.rel_append h.1 (.cons hs .nil), List.rel_append h.2 (.cons he .nil)⟩

/-- **A box lies in the lexicographic range between its corners.** -/
theorem InBox.lex {lo hi k : List α} (h : InBox lo hi k) : lo ≤ k ∧ k ≤ hi :=
  ⟨le_of_forall₂_le h.1, le_of_forall₂_le h.2⟩

end Lex
