import Mathlib

/-!
# Open and closed ends as points of a lexicographic order

An end of an interval of a linear order `V` is a value and whether it is included.  Tagging
values and ends with a number and ordering the pairs lexicographically puts every end strictly
between values: a value `x` is `point x = (x, 1)`, a closed lower end at `s` sits just below
`point s` and an open one just above it, and the other way round for upper ends.  So an interval
with either kind of ends is the open interval between its two tagged ends (`lower_lt_point`,
`point_lt_upper`), and what is said of the ends (which starts first, whether an interval ends
before another starts) is an order fact about tagged ends, for `order` to decide.

A value is never an end (`point_ne_lower`, `point_ne_upper`), which is what lets two intervals
that share an end with one side closed cover the value there.
-/

namespace TaggedBound

variable {V : Type} {x s s' e e' : V} {si si' ei ei' : Bool}

/-- The value `x`. -/
def point (x : V) : V ×ₗ ℕ :=
  toLex (x, 1)

/-- A lower end at `s`: below `point s` when closed, above it when open. -/
def lower (s : V) (inclusive : Bool) : V ×ₗ ℕ :=
  toLex (s, if inclusive then 0 else 2)

/-- An upper end at `e`: above `point e` when closed, below it when open. -/
def upper (e : V) (inclusive : Bool) : V ×ₗ ℕ :=
  toLex (e, if inclusive then 2 else 0)

theorem point_ne_lower : point x ≠ lower s si := by
  cases si <;> simp [lower, point]

theorem point_ne_upper : point x ≠ upper e ei := by
  cases ei <;> simp [upper, point]

theorem lower_inj : lower s si = lower s' si' ↔ s = s' ∧ si = si' := by
  cases si <;> cases si' <;> simp [lower]

theorem upper_inj : upper e ei = upper e' ei' ↔ e = e' ∧ ei = ei' := by
  cases ei <;> cases ei' <;> simp [upper]

/-- An upper end meets a lower end when one of them is closed and the other open. -/
theorem upper_eq_lower : upper e ei = lower s si ↔ e = s ∧ ei = !si := by
  cases si <;> cases ei <;> simp [lower, upper]

variable [LinearOrder V]

theorem lower_lt_point : lower s si < point x ↔ s < x ∨ x = s ∧ si = true := by
  cases si <;> simp [lower, point, Prod.Lex.toLex_lt_toLex, eq_comm]

theorem point_lt_upper : point x < upper e ei ↔ x < e ∨ x = e ∧ ei = true := by
  cases ei <;> simp [upper, point, Prod.Lex.toLex_lt_toLex]

theorem lower_lt_upper : lower s si < upper e ei ↔ s < e ∨ s = e ∧ si = true ∧ ei = true := by
  cases si <;> cases ei <;> simp [lower, upper, Prod.Lex.toLex_lt_toLex]

theorem upper_lt_lower : upper e ei < lower s si ↔ e < s ∨ e = s ∧ ei = false ∧ si = false := by
  cases si <;> cases ei <;> simp [lower, upper, Prod.Lex.toLex_lt_toLex]

theorem lower_le_lower :
    lower s si ≤ lower s' si' ↔ s < s' ∨ s = s' ∧ (si' = true → si = true) := by
  cases si <;> cases si' <;> simp [lower, Prod.Lex.toLex_le_toLex]

theorem lower_lt_lower : lower s si < lower s' si' ↔ s < s' ∨ s = s' ∧ si = true ∧ si' = false := by
  cases si <;> cases si' <;> simp [lower, Prod.Lex.toLex_lt_toLex]

theorem upper_le_upper :
    upper e ei ≤ upper e' ei' ↔ e < e' ∨ e = e' ∧ (ei = true → ei' = true) := by
  cases ei <;> cases ei' <;> simp [upper, Prod.Lex.toLex_le_toLex]

end TaggedBound
