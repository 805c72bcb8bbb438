import Mathlib
import Mongo.Lib.SortedMap

/-!
# Disjoint half-open ranges

A range map of the sharding code (inclusive lower bound ↦ exclusive upper bound) is a sorted
association list whose entries `(lo, hi)` stand for the ranges `[lo, hi)`.  When the ranges are
nonempty and each ends before the next begins (`Ordered`), the place of a key in the map decides
whether it is covered: only the last range that starts at or before the key can contain it.
Nothing here is specific to one program.

* `Covers` — some range contains the key; `Avoids` — no range meets a given range.
* `Ordered.merge`, `covers_merge` — two ranges that touch join into one.
* `Ordered.covers_split` — with the list cut at a key, the key is covered exactly when the last
  range before the cut reaches past it.
* `Ordered.avoids_split` — and nothing meets the gap from that range's end to the start of the
  first range after the cut.
* `Ordered.exists_overlap_split` — with the list cut at the lower end of a range, the range is met
  by the last range before the cut or by one that starts after the cut and before its upper end.
* `Ordered.covers_iff_upperBound`, `Ordered.avoids_upperBound`,
  `Ordered.exists_overlap_iff_lowerBound` — the same, with the cut made by `upper_bound` and
  `lower_bound`.
* `exists_overlap_iff` — a list of nonempty ranges meets `[lo, hi)` exactly when it covers one of
  its keys, so two lists that cover the same keys meet the same ranges.
* `countP_lt_countP` — a stronger test counts fewer: the measure of a scan that jumps from range
  end to range end.
-/

namespace RangeList

open SortedMap

variable {κ : Type*} [LinearOrder κ]

/-- Some range `[r.1, r.2)` of `l` contains `k`. -/
def Covers (l : List (κ × κ)) (k : κ) : Prop :=
  ∃ r ∈ l, r.1 ≤ k ∧ k < r.2

/-- No range of `l` meets `[a, b)`. -/
def Avoids (l : List (κ × κ)) (a b : κ) : Prop :=
  ∀ r ∈ l, r.2 ≤ a ∨ b ≤ r.1

/-- The ranges are nonempty, and each ends at or before the start of every later one. -/
structure Ordered (l : List (κ × κ)) : Prop where
  nonempty : ∀ r ∈ l, r.1 < r.2
  pairwise : l.Pairwise fun a b => a.2 ≤ b.1

instance (l : List (κ × κ)) : Decidable (Ordered l) :=
  decidable_of_iff ((∀ r ∈ l, r.1 < r.2) ∧ l.Pairwise fun a b => a.2 ≤ b.1)
    ⟨fun h => ⟨h.1, h.2⟩, fun h => ⟨h.nonempty, h.pairwise⟩⟩

/-! ## Covered keys -/

@[simp] theorem covers_nil (k : κ) : ¬ Covers ([] : List (κ × κ)) k := by
  simp [Covers]

@[simp] theorem covers_append {l₁ l₂ : List (κ × κ)} {k : κ} :
    Covers (l₁ ++ l₂) k ↔ Covers l₁ k ∨ Covers l₂ k := by
  simp only [Covers, List.mem_append, or_and_right, exists_or]

@[simp] theorem covers_cons {r : κ × κ} {l : List (κ × κ)} {k : κ} :
    Covers (r :: l) k ↔ (r.1 ≤ k ∧ k < r.2) ∨ Covers l k := by
  simp [Covers]

@[simp] theorem avoids_append {l₁ l₂ : List (κ × κ)} {a b : κ} :
    Avoids (l₁ ++ l₂) a b ↔ Avoids l₁ a b ∧ Avoids l₂ a b := by
  simp only [Avoids, List.mem_append, or_imp, forall_and]

/-- What avoids a range avoids every range inside it. -/
theorem Avoids.mono {l : List (κ × κ)} {a b a' b' : κ} (h : Avoids l a b) (ha : a ≤ a')
    (hb : b' ≤ b) : Avoids l a' b' := by
  intro r hr
  rcases h r hr with h₁ | h₂
  · exact Or.inl (le_trans h₁ ha)
  · exact Or.inr (le_trans hb h₂)

/-- **Two touching ranges cover what their join covers.** -/
theorem covers_merge (l r : List (κ × κ)) {a b c : κ} (hab : a ≤ b) (hbc : b ≤ c) (k : κ) :
    Covers (l ++ (a, b) :: (b, c) :: r) k ↔ Covers (l ++ (a, c) :: r) k := by
  simp only [covers_append, covers_cons]
  constructor
  · rintro (hl | ⟨h₁, h₂⟩ | ⟨h₁, h₂⟩ | hr)
    · exact Or.inl hl
    · exact Or.inr (Or.inl ⟨h₁, lt_of_lt_of_le h₂ hbc⟩)
    · exact Or.inr (Or.inl ⟨le_trans hab h₁, h₂⟩)
    · exact Or.inr (Or.inr hr)
  · rintro (hl | ⟨h₁, h₂⟩ | hr)
    · exact Or.inl hl
    · by_cases hk : k < b
      · exact Or.inr (Or.inl ⟨h₁, hk⟩)
      · exact Or.inr (Or.inr (Or.inl ⟨not_lt.mp hk, h₂⟩))
    · exact Or.inr (Or.inr (Or.inr hr))

/-- **A nonempty range meets `[lo, hi)` exactly when they share a key.** -/
theorem overlaps_iff_exists {r : κ × κ} (hr : r.1 < r.2) {lo hi : κ} (hlt : lo < hi) :
    (r.1 < hi ∧ lo < r.2) ↔ ∃ k, lo ≤ k ∧ k < hi ∧ r.1 ≤ k ∧ k < r.2 := by
  constructor
  · rintro ⟨h₁, h₂⟩
    exact ⟨max lo r.1, le_max_left _ _, max_lt hlt h₁, le_max_right _ _, max_lt h₂ hr⟩
  · rintro ⟨k, hlo, hhi, h₁, h₂⟩
    exact ⟨lt_of_le_of_lt h₁ hhi, lt_of_le_of_lt hlo h₂⟩

/-- **A list of nonempty ranges meets `[lo, hi)` exactly when it covers a key of it.** -/
theorem exists_overlap_iff {l : List (κ × κ)} (hl : ∀ r ∈ l, r.1 < r.2) {lo hi : κ}
    (hlt : lo < hi) :
    (∃ r ∈ l, r.1 < hi ∧ lo < r.2) ↔ ∃ k, lo ≤ k ∧ k < hi ∧ Covers l k := by
  constructor
  · rintro ⟨r, hr, hmeet⟩
    obtain ⟨k, hlo, hhi, h₁, h₂⟩ := (overlaps_iff_exists (hl r hr) hlt).mp hmeet
    exact ⟨k, hlo, hhi, r, hr, h₁, h₂⟩
  · rintro ⟨k, hlo, hhi, r, hr, h₁, h₂⟩
    exact ⟨r, hr, (overlaps_iff_exists (hl r hr) hlt).mpr ⟨k, hlo, hhi, h₁, h₂⟩⟩

/-! ## Ordered lists -/

theorem Ordered.nil : Ordered ([] : List (κ × κ)) :=
  ⟨by simp, List.Pairwise.nil⟩

theorem Ordered.sublist {l l' : List (κ × κ)} (h : Ordered l) (hs : l'.Sublist l) :
    Ordered l' :=
  ⟨fun r hr => h.nonempty r (hs.subset hr), h.pairwise.sublist hs⟩

/-- Ordered ranges have strictly increasing lower bounds: they form a sorted map. -/
theorem Ordered.keysSorted {l : List (κ × κ)} (h : Ordered l) : KeysSorted l :=
  h.pairwise.imp_of_mem fun {a _} ha _ hab => lt_of_lt_of_le (h.nonempty a ha) hab

/-- The ranges before a range of an ordered list start before it. -/
theorem Ordered.fst_lt_of_append {l r : List (κ × κ)} {x : κ × κ} (h : Ordered (l ++ x :: r)) :
    ∀ e ∈ l, e.1 < x.1 :=
  fun e he => (List.pairwise_append.mp h.keysSorted).2.2 e he x (List.mem_cons_self ..)

/-- **Two touching ranges of an ordered list join into one.** -/
theorem Ordered.merge {l r : List (κ × κ)} {a b c : κ}
    (h : Ordered (l ++ (a, b) :: (b, c) :: r)) : Ordered (l ++ (a, c) :: r) := by
  have hab : a < b := h.nonempty (a, b) (by simp)
  have hbc : b < c := h.nonempty (b, c) (by simp)
  have hpw := h.pairwise
  rw [List.pairwise_append, List.pairwise_cons, List.pairwise_cons] at hpw
  obtain ⟨hl, ⟨-, hc, hr⟩, hcross⟩ := hpw
  refine ⟨fun x hx => ?_, ?_⟩
  · rcases List.mem_append.mp hx with hx | hx
    · exact h.nonempty x (List.mem_append_left _ hx)
    · rcases List.mem_cons.mp hx with rfl | hx
      · exact lt_trans hab hbc
      · exact h.nonempty x (by simp [hx])
  · refine List.pairwise_append.mpr ⟨hl, List.Pairwise.cons hc hr, fun x hx y hy => ?_⟩
    rcases List.mem_cons.mp hy with rfl | hy
    · exact hcross x hx (a, b) (List.mem_cons_self ..)
    · exact hcross x hx y (by simp [hy])

/-- The last range of an ordered list ends last. -/
theorem Ordered.le_getLast {l : List (κ × κ)} (h : Ordered l) {p : κ × κ}
    (hp : l.getLast? = some p) : ∀ r ∈ l, r.2 ≤ p.2 := by
  obtain ⟨ys, rfl⟩ := List.getLast?_eq_some_iff.mp hp
  intro r hr
  rcases List.mem_append.mp hr with hr | hr
  · have hle : r.2 ≤ p.1 :=
      (List.pairwise_append.mp h.pairwise).2.2 r hr p (List.mem_singleton_self p)
    exact le_trans hle (le_of_lt (h.nonempty p (by simp)))
  · rw [List.mem_singleton.mp hr]

/-- The first range of an ordered list starts first. -/
theorem Ordered.head_le {l : List (κ × κ)} (h : Ordered l) {q : κ × κ}
    (hq : l.head? = some q) : ∀ r ∈ l, q.1 ≤ r.1 := by
  cases l with
  | nil => simp at hq
  | cons x l =>
      obtain rfl : x = q := by simpa using hq
      intro r hr
      rcases List.mem_cons.mp hr with rfl | hr
      · exact le_rfl
      · exact le_trans (le_of_lt (h.nonempty x (List.mem_cons_self ..)))
          (List.rel_of_pairwise_cons h.pairwise hr)

/-! ## A key's place in the list -/

section Split

variable {l₁ l₂ : List (κ × κ)}

/-- **A key is covered exactly when the last range that starts at or before it reaches past
it.**  The list is cut at the key: `l₁` holds the ranges that start at or before it, `l₂` those
that start after it. -/
theorem Ordered.covers_split (h : Ordered (l₁ ++ l₂)) {k : κ} (h₁ : ∀ r ∈ l₁, r.1 ≤ k)
    (h₂ : ∀ r ∈ l₂, k < r.1) : Covers (l₁ ++ l₂) k ↔ ∃ p ∈ l₁.getLast?, k < p.2 := by
  constructor
  · rintro ⟨r, hr, hrk, hkr⟩
    rcases List.mem_append.mp hr with hr | hr
    · obtain ⟨p, hp⟩ := Option.ne_none_iff_exists'.mp
        (mt List.getLast?_eq_none_iff.mp (List.ne_nil_of_mem hr))
      exact ⟨p, hp, lt_of_lt_of_le hkr
        ((h.sublist (List.sublist_append_left _ _)).le_getLast hp r hr)⟩
    · exact absurd hrk (not_le.mpr (h₂ r hr))
  · rintro ⟨p, hp, hkp⟩
    have hpmem := List.mem_of_getLast? hp
    exact ⟨p, List.mem_append_left _ hpmem, h₁ p hpmem, hkp⟩

/-- **The gap around an uncovered key.**  With the list cut as in `covers_split`, no range meets
`[a, b)` when `a` is at or past the end of the last range before the cut and `b` at or before
the start of the first range after it. -/
theorem Ordered.avoids_split (h : Ordered (l₁ ++ l₂)) {a b : κ}
    (ha : ∀ p ∈ l₁.getLast?, p.2 ≤ a) (hb : ∀ q ∈ l₂.head?, b ≤ q.1) :
    Avoids (l₁ ++ l₂) a b := by
  intro r hr
  rcases List.mem_append.mp hr with hr | hr
  · obtain ⟨p, hp⟩ := Option.ne_none_iff_exists'.mp
      (mt List.getLast?_eq_none_iff.mp (List.ne_nil_of_mem hr))
    exact Or.inl (le_trans ((h.sublist (List.sublist_append_left _ _)).le_getLast hp r hr)
      (ha p hp))
  · obtain ⟨q, hq⟩ := Option.ne_none_iff_exists'.mp
      (mt List.head?_eq_none_iff.mp (List.ne_nil_of_mem hr))
    exact Or.inr (le_trans (hb q hq)
      ((h.sublist (List.sublist_append_right _ _)).head_le hq r hr))

/-- **The ranges that meet `[lo, hi)`.**  The list is cut at `lo`: `l₁` holds the ranges that
start before it, `l₂` those that start at or after it.  Of `l₁` only the last range can reach
past `lo`; a range of `l₂` meets `[lo, hi)` as soon as it starts below `hi`. -/
theorem Ordered.exists_overlap_split (h : Ordered (l₁ ++ l₂)) {lo hi : κ} (hlt : lo < hi)
    (h₁ : ∀ r ∈ l₁, r.1 < lo) (h₂ : ∀ r ∈ l₂, lo ≤ r.1) :
    (∃ r ∈ l₁ ++ l₂, r.1 < hi ∧ lo < r.2) ↔ (∃ p ∈ l₁.getLast?, lo < p.2) ∨ ∃ r ∈ l₂, r.1 < hi := by
  constructor
  · rintro ⟨r, hr, hrhi, hlor⟩
    rcases List.mem_append.mp hr with hr | hr
    · obtain ⟨p, hp⟩ := Option.ne_none_iff_exists'.mp
        (mt List.getLast?_eq_none_iff.mp (List.ne_nil_of_mem hr))
      exact Or.inl ⟨p, hp, lt_of_lt_of_le hlor
        ((h.sublist (List.sublist_append_left _ _)).le_getLast hp r hr)⟩
    · exact Or.inr ⟨r, hr, hrhi⟩
  · rintro (⟨p, hp, hlop⟩ | ⟨r, hr, hrhi⟩)
    · have hpmem := List.mem_of_getLast? hp
      exact ⟨p, List.mem_append_left _ hpmem, lt_trans (h₁ p hpmem) hlt, hlop⟩
    · have hne := h.nonempty r (List.mem_append_right _ hr)
      exact ⟨r, List.mem_append_right _ hr, hrhi, lt_of_le_of_lt (h₂ r hr) hne⟩

end Split

/-! ## Cutting at `upper_bound` and `lower_bound` -/

section Cut

variable {l : List (κ × κ)}

theorem Ordered.cut (h : Ordered l) (i : ℕ) : Ordered (l.take i ++ l.drop i) := by
  rwa [List.take_append_drop]

/-- **A key is covered exactly when the range before `upper_bound(k)` reaches past it.** -/
theorem Ordered.covers_iff_upperBound (h : Ordered l) (k : κ) :
    Covers l k ↔ ∃ p ∈ (l.take (upperBound l k)).getLast?, k < p.2 := by
  have hiff := (h.cut (upperBound l k)).covers_split
    (fun r hr => ((mem_take_upperBound h.keysSorted k r).mp hr).2)
    (fun r hr => ((mem_drop_upperBound h.keysSorted k r).mp hr).2)
  rwa [List.take_append_drop] at hiff

/-- Nothing meets the gap from the end of the range before `upper_bound(k)` to the start of the
range at it. -/
theorem Ordered.avoids_upperBound (h : Ordered l) (k : κ) {a b : κ}
    (ha : ∀ p ∈ (l.take (upperBound l k)).getLast?, p.2 ≤ a)
    (hb : ∀ q ∈ (l.drop (upperBound l k)).head?, b ≤ q.1) : Avoids l a b := by
  have havoids := (h.cut (upperBound l k)).avoids_split ha hb
  rwa [List.take_append_drop] at havoids

/-- **The ranges that meet `[lo, hi)`, by `lower_bound`**: the range before `lower_bound(lo)`
when it reaches past `lo`, and the ranges from `lower_bound(lo)` up to `lower_bound(hi)`. -/
theorem Ordered.exists_overlap_iff_lowerBound (h : Ordered l) {lo hi : κ} (hlt : lo < hi) :
    (∃ r ∈ l, r.1 < hi ∧ lo < r.2) ↔
      (∃ p ∈ (l.take (lowerBound l lo)).getLast?, lo < p.2) ∨
        lowerBound l lo < lowerBound l hi := by
  have hiff := (h.cut (lowerBound l lo)).exists_overlap_split hlt
    (fun r hr => ((mem_take_lowerBound h.keysSorted lo r).mp hr).2)
    (fun r hr => ((mem_drop_lowerBound h.keysSorted lo r).mp hr).2)
  rw [List.take_append_drop] at hiff
  rw [hiff, lowerBound_lt_lowerBound_iff h.keysSorted]
  simp only [mem_drop_lowerBound h.keysSorted, and_assoc]

end Cut

/-! ## Scanning from range end to range end -/

/-- **A stronger test counts fewer.**  When `p` implies `q` on the list and some element passes
`q` but not `p`, fewer elements pass `p`.  A scan that jumps from a key to the end of a range
reaching past it counts the ranges that end past the key: the range jumped over no longer does. -/
theorem countP_lt_countP {α : Type*} {l : List α} {p q : α → Bool}
    (hpq : ∀ x ∈ l, p x = true → q x = true) {r : α} (hr : r ∈ l) (hq : q r = true)
    (hp : p r = false) : l.countP p < l.countP q := by
  induction l with
  | nil => simp at hr
  | cons x l ih =>
      have hmono : l.countP p ≤ l.countP q :=
        List.countP_mono_left fun y hy => hpq y (List.mem_cons_of_mem x hy)
      rw [List.countP_cons, List.countP_cons]
      rcases List.mem_cons.mp hr with rfl | hr
      · simp only [hp, hq, if_true, Bool.false_eq_true, if_false]
        omega
      · have hlt := ih (fun y hy => hpq y (List.mem_cons_of_mem x hy)) hr
        by_cases hpx : p x = true
        · simp only [hpx, hpq x (List.mem_cons_self ..) hpx, if_true]
          omega
        · by_cases hqx : q x = true
          · simp only [hpx, hqx, if_true, Bool.false_eq_true, if_false]
            omega
          · simp only [hpx, hqx, Bool.false_eq_true, if_false]
            omega

end RangeList
