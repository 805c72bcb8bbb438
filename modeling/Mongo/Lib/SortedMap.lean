import Mathlib

/-!
# Ordered maps as sorted association lists

An ordered map (`std::map` with a strict weak order on its keys) is modelled by the list of its
entries in strictly increasing key order.  Nothing here is specific to one program: the keys are
any linear order and the values anything.

* `upperBound` — `upper_bound(k)`, the position of the first entry whose key is greater
  than `k`.  A position rather than an iterator: `end()` is the length of the list.
* `lowerBound` — `lower_bound(k)`, the position of the first entry whose key is not less
  than `k`.
* `eraseRange` — `erase(first, last)` on positions.
* `insert` — `insert({k, v})`, which leaves the map alone when `k` is already a key.

Every operation is described by **membership**: `mem_take_upperBound`, `mem_drop_upperBound`,
`mem_eraseRange_upperBound` and `mem_insert_of_not_mem`.  A map is then pinned down by its
members alone (`eq_of_mem_iff`), which is how whole runs of updates are compared with the map
they should produce.

`OrdMap` packages the entry list with its invariant, so that a map that is not sorted cannot be
built; its operations are the list operations above.
-/

namespace SortedMap

variable {κ ν : Type*} [LinearOrder κ]

/-! ## The invariant and the operations -/

/-- The map invariant: keys strictly increase along the entry list. -/
def KeysSorted (l : List (κ × ν)) : Prop :=
  l.Pairwise fun a b => a.1 < b.1

instance (l : List (κ × ν)) : Decidable (KeysSorted l) :=
  inferInstanceAs (Decidable (l.Pairwise fun a b => a.1 < b.1))

/-- `upper_bound(k)`: the position of the first entry whose key is greater than `k`. -/
def upperBound (l : List (κ × ν)) (k : κ) : ℕ :=
  l.findIdx fun e => k < e.1

/-- `lower_bound(k)`: the position of the first entry whose key is not less than `k`. -/
def lowerBound (l : List (κ × ν)) (k : κ) : ℕ :=
  l.findIdx fun e => k ≤ e.1

/-- `erase(first, last)` for the positions `[i, j)`.  `std::map` requires `i ≤ j`; past that the
range is empty. -/
def eraseRange (l : List (κ × ν)) (i j : ℕ) : List (κ × ν) :=
  l.take i ++ l.drop (max i j)

/-- `insert({k, v})`: the entry goes to its place by key, unless `k` is already a key, in which
case the map is unchanged. -/
def insert (k : κ) (v : ν) : List (κ × ν) → List (κ × ν)
  | [] => [(k, v)]
  | e :: es => if k < e.1 then (k, v) :: e :: es else if k = e.1 then e :: es else e :: insert k v es

/-! ## `upper_bound` -/

@[simp] theorem upperBound_nil (k : κ) : upperBound ([] : List (κ × ν)) k = 0 := rfl

theorem upperBound_cons (e : κ × ν) (l : List (κ × ν)) (k : κ) :
    upperBound (e :: l) k = if k < e.1 then 0 else upperBound l k + 1 := by
  by_cases h : k < e.1 <;> simp [upperBound, List.findIdx_cons, h]

theorem upperBound_le_length (l : List (κ × ν)) (k : κ) : upperBound l k ≤ l.length :=
  List.findIdx_le_length

/-- A larger key never has an earlier upper bound. -/
theorem upperBound_mono (l : List (κ × ν)) {a b : κ} (hab : a ≤ b) :
    upperBound l a ≤ upperBound l b := by
  induction l with
  | nil => simp
  | cons e l ih =>
      rw [upperBound_cons, upperBound_cons]
      by_cases hb : b < e.1
      · simp [lt_of_le_of_lt hab hb, hb]
      · by_cases ha : a < e.1
        · simp [ha, hb]
        · simp [ha, hb, ih]

theorem max_upperBound (l : List (κ × ν)) (a b : κ) :
    max (upperBound l a) (upperBound l b) = upperBound l (max a b) := by
  rcases le_total a b with hab | hba
  · rw [max_eq_right hab, Nat.max_eq_right (upperBound_mono l hab)]
  · rw [max_eq_left hba, Nat.max_eq_left (upperBound_mono l hba)]

theorem KeysSorted.cons {e : κ × ν} {l : List (κ × ν)} (h : KeysSorted (e :: l)) :
    ∀ e' ∈ l, e.1 < e'.1 :=
  (List.pairwise_cons.mp h).1

theorem KeysSorted.tail {e : κ × ν} {l : List (κ × ν)} (h : KeysSorted (e :: l)) :
    KeysSorted l :=
  (List.pairwise_cons.mp h).2

/-- The entries before `upper_bound(k)` are exactly those with key at most `k`. -/
theorem mem_take_upperBound {l : List (κ × ν)} (h : KeysSorted l) (k : κ) (e : κ × ν) :
    e ∈ l.take (upperBound l k) ↔ e ∈ l ∧ e.1 ≤ k := by
  induction l with
  | nil => simp
  | cons x l ih =>
      rw [upperBound_cons]
      by_cases hx : k < x.1
      · have hgt : ∀ e' ∈ x :: l, k < e'.1 := by
          intro e' he'
          rcases List.mem_cons.mp he' with rfl | he'
          · exact hx
          · exact lt_trans hx (h.cons e' he')
        simp only [hx, if_true, List.take_zero, List.not_mem_nil, false_iff, not_and, not_le]
        exact hgt e
      · simp only [hx, if_false, List.take_succ_cons, List.mem_cons, ih h.tail]
        constructor
        · rintro (rfl | ⟨he, hle⟩)
          · exact ⟨Or.inl rfl, not_lt.mp hx⟩
          · exact ⟨Or.inr he, hle⟩
        · rintro ⟨rfl | he, hle⟩
          · exact Or.inl rfl
          · exact Or.inr ⟨he, hle⟩

/-- The entries from `upper_bound(k)` on are exactly those with key greater than `k`. -/
theorem mem_drop_upperBound {l : List (κ × ν)} (h : KeysSorted l) (k : κ) (e : κ × ν) :
    e ∈ l.drop (upperBound l k) ↔ e ∈ l ∧ k < e.1 := by
  induction l with
  | nil => simp
  | cons x l ih =>
      rw [upperBound_cons]
      by_cases hx : k < x.1
      · simp only [hx, if_true, List.drop_zero]
        constructor
        · intro he
          refine ⟨he, ?_⟩
          rcases List.mem_cons.mp he with rfl | he
          · exact hx
          · exact lt_trans hx (h.cons e he)
        · exact fun he => he.1
      · simp only [hx, if_false, List.drop_succ_cons, ih h.tail, List.mem_cons]
        constructor
        · exact fun he => ⟨Or.inr he.1, he.2⟩
        · rintro ⟨rfl | he, hlt⟩
          · exact absurd hlt hx
          · exact ⟨he, hlt⟩

/-- `upper_bound(k)` is not `end()` as soon as some key is greater than `k`. -/
theorem upperBound_lt_length {l : List (κ × ν)} {k : κ} {e : κ × ν} (he : e ∈ l) (hk : k < e.1) :
    upperBound l k < l.length :=
  List.findIdx_lt_length_of_exists ⟨e, he, decide_eq_true hk⟩

/-- `upper_bound(k)` is `end()` exactly when no key is greater than `k`. -/
theorem upperBound_eq_length_iff {l : List (κ × ν)} {k : κ} :
    upperBound l k = l.length ↔ ∀ e ∈ l, e.1 ≤ k := by
  rw [upperBound, List.findIdx_eq_length]
  simp only [decide_eq_false_iff_not, not_lt]

/-- The entry at `upper_bound(k)` is the first whose key is greater than `k`: it comes no later
than any other such entry. -/
theorem getElem?_upperBound {l : List (κ × ν)} (h : KeysSorted l) {k : κ} {e : κ × ν}
    (he : e ∈ l) (hk : k < e.1) :
    ∃ f, l[upperBound l k]? = some f ∧ f ∈ l ∧ k < f.1 ∧ f.1 ≤ e.1 := by
  have hdrop : e ∈ l.drop (upperBound l k) := (mem_drop_upperBound h k e).mpr ⟨he, hk⟩
  rcases hl : l.drop (upperBound l k) with _ | ⟨f, rest⟩
  · rw [hl] at hdrop
    simp at hdrop
  · have hf : f ∈ l ∧ k < f.1 := (mem_drop_upperBound h k f).mp (hl ▸ List.mem_cons_self ..)
    have hsorted : KeysSorted (f :: rest) := hl ▸ List.Pairwise.sublist (List.drop_sublist _ _) h
    refine ⟨f, ?_, hf.1, hf.2, ?_⟩
    · rw [← List.head?_drop, hl, List.head?_cons]
    · rw [hl] at hdrop
      rcases List.mem_cons.mp hdrop with rfl | he'
      · exact le_rfl
      · exact (hsorted.cons e he').le

/-- The iteration from `upper_bound(lo)` up to position `j` visits exactly the entries before
`j` whose key is greater than `lo`. -/
theorem mem_drop_upperBound_take {l : List (κ × ν)} (h : KeysSorted l) (lo : κ) (j : ℕ)
    (e : κ × ν) :
    e ∈ (l.drop (upperBound l lo)).take (j - upperBound l lo) ↔ e ∈ l.take j ∧ lo < e.1 := by
  induction l generalizing j with
  | nil => simp
  | cons x l ih =>
      rw [upperBound_cons]
      by_cases hx : lo < x.1
      · simp only [hx, if_true, List.drop_zero, Nat.sub_zero, iff_self_and]
        intro he
        rcases List.mem_cons.mp (List.mem_of_mem_take he) with rfl | he
        · exact hx
        · exact lt_trans hx (h.cons e he)
      · simp only [hx, if_false, List.drop_succ_cons]
        cases j with
        | zero => simp
        | succ j =>
            rw [Nat.add_sub_add_right, ih h.tail, List.take_succ_cons, List.mem_cons]
            constructor
            · exact fun he => ⟨Or.inr he.1, he.2⟩
            · rintro ⟨rfl | he, hlt⟩
              · exact absurd hlt hx
              · exact ⟨he, hlt⟩

/-- One step past `upper_bound(k)`: an entry all of whose smaller keys are at most `k` is among
the first `upper_bound(k) + 1` entries. -/
theorem mem_take_upperBound_succ {l : List (κ × ν)} (h : KeysSorted l) {k : κ} {e : κ × ν}
    (he : e ∈ l) (hprev : ∀ e' ∈ l, e'.1 < e.1 → e'.1 ≤ k) :
    e ∈ l.take (upperBound l k + 1) := by
  induction l with
  | nil => simp at he
  | cons x l ih =>
      rcases List.mem_cons.mp he with rfl | he
      · exact List.mem_cons_self ..
      · have hxk : ¬ k < x.1 :=
          not_lt.mpr (hprev x (List.mem_cons_self ..) (h.cons e he))
        rw [upperBound_cons, if_neg hxk, List.take_succ_cons]
        exact List.mem_cons_of_mem x
          (ih h.tail he fun e' he' => hprev e' (List.mem_cons_of_mem x he'))

omit [LinearOrder κ] in
/-- `std::prev(it)` for a position `i` that is not past `end()`: the last entry before it, if
there is one. -/
theorem getLast?_take_of_le {l : List (κ × ν)} {i : ℕ} (hi : i ≤ l.length) :
    (l.take i).getLast? = if i = 0 then none else l[i - 1]? := by
  rw [List.getLast?_take]
  split_ifs with h
  · rfl
  · rw [List.getElem?_eq_getElem (by omega), Option.some_or]

/-! ## `lower_bound` -/

@[simp] theorem lowerBound_nil (k : κ) : lowerBound ([] : List (κ × ν)) k = 0 := rfl

theorem lowerBound_cons (e : κ × ν) (l : List (κ × ν)) (k : κ) :
    lowerBound (e :: l) k = if k ≤ e.1 then 0 else lowerBound l k + 1 := by
  by_cases h : k ≤ e.1 <;> simp [lowerBound, List.findIdx_cons, h]

theorem lowerBound_le_length (l : List (κ × ν)) (k : κ) : lowerBound l k ≤ l.length :=
  List.findIdx_le_length

/-- The entries before `lower_bound(k)` are exactly those with key below `k`. -/
theorem mem_take_lowerBound {l : List (κ × ν)} (h : KeysSorted l) (k : κ) (e : κ × ν) :
    e ∈ l.take (lowerBound l k) ↔ e ∈ l ∧ e.1 < k := by
  induction l with
  | nil => simp
  | cons x l ih =>
      rw [lowerBound_cons]
      by_cases hx : k ≤ x.1
      · simp only [hx, if_true, List.take_zero, List.not_mem_nil, false_iff, not_and, not_lt]
        intro he
        rcases List.mem_cons.mp he with rfl | he
        · exact hx
        · exact le_of_lt (lt_of_le_of_lt hx (h.cons e he))
      · simp only [hx, if_false, List.take_succ_cons, List.mem_cons, ih h.tail]
        constructor
        · rintro (rfl | ⟨he, hlt⟩)
          · exact ⟨Or.inl rfl, not_le.mp hx⟩
          · exact ⟨Or.inr he, hlt⟩
        · rintro ⟨rfl | he, hlt⟩
          · exact Or.inl rfl
          · exact Or.inr ⟨he, hlt⟩

/-- The entries from `lower_bound(k)` on are exactly those with key at least `k`. -/
theorem mem_drop_lowerBound {l : List (κ × ν)} (h : KeysSorted l) (k : κ) (e : κ × ν) :
    e ∈ l.drop (lowerBound l k) ↔ e ∈ l ∧ k ≤ e.1 := by
  induction l with
  | nil => simp
  | cons x l ih =>
      rw [lowerBound_cons]
      by_cases hx : k ≤ x.1
      · simp only [hx, if_true, List.drop_zero]
        constructor
        · intro he
          refine ⟨he, ?_⟩
          rcases List.mem_cons.mp he with rfl | he
          · exact hx
          · exact le_of_lt (lt_of_le_of_lt hx (h.cons e he))
        · exact fun he => he.1
      · simp only [hx, if_false, List.drop_succ_cons, ih h.tail, List.mem_cons]
        constructor
        · exact fun he => ⟨Or.inr he.1, he.2⟩
        · rintro ⟨rfl | he, hle⟩
          · exact absurd hle hx
          · exact ⟨he, hle⟩

/-- A larger key never has an earlier lower bound. -/
theorem lowerBound_mono (l : List (κ × ν)) {a b : κ} (hab : a ≤ b) :
    lowerBound l a ≤ lowerBound l b := by
  induction l with
  | nil => simp
  | cons e l ih =>
      rw [lowerBound_cons, lowerBound_cons]
      by_cases hb : b ≤ e.1
      · simp [le_trans hab hb, hb]
      · by_cases ha : a ≤ e.1
        · simp [ha, hb]
        · simp [ha, hb, ih]

/-- **Two lower bounds are apart exactly when a key lies between them.** -/
theorem lowerBound_lt_lowerBound_iff {l : List (κ × ν)} (h : KeysSorted l) (lo hi : κ) :
    lowerBound l lo < lowerBound l hi ↔ ∃ e ∈ l, lo ≤ e.1 ∧ e.1 < hi := by
  induction l with
  | nil => simp
  | cons x l ih =>
      rw [lowerBound_cons, lowerBound_cons]
      by_cases hhi : hi ≤ x.1
      · simp only [hhi, if_true, Nat.not_lt_zero, false_iff, not_exists, not_and, not_lt]
        intro e he _
        rcases List.mem_cons.mp he with rfl | he
        · exact hhi
        · exact le_of_lt (lt_of_le_of_lt hhi (h.cons e he))
      · by_cases hlo : lo ≤ x.1
        · simp only [hlo, hhi, if_true, if_false, Nat.zero_lt_succ, true_iff]
          exact ⟨x, List.mem_cons_self .., hlo, not_le.mp hhi⟩
        · simp only [hlo, hhi, if_false, Nat.add_lt_add_iff_right, ih h.tail, List.mem_cons]
          constructor
          · rintro ⟨e, he, hle, hlt⟩
            exact ⟨e, Or.inr he, hle, hlt⟩
          · rintro ⟨e, rfl | he, hle, hlt⟩
            · exact absurd hle hlo
            · exact ⟨e, he, hle, hlt⟩

/-! ## `erase(upper_bound(a), upper_bound(b))` -/

omit [LinearOrder κ] in
theorem eraseRange_sublist (l : List (κ × ν)) (i j : ℕ) : (eraseRange l i j).Sublist l := by
  have h := (List.drop_sublist_drop_left l (Nat.le_max_left i j)).append_left (l.take i)
  rwa [List.take_append_drop] at h

theorem KeysSorted.eraseRange {l : List (κ × ν)} (h : KeysSorted l) (i j : ℕ) :
    KeysSorted (SortedMap.eraseRange l i j) :=
  h.sublist (eraseRange_sublist l i j)

/-- **Erasing between two upper bounds removes exactly the keys in `(a, b]`.** -/
theorem mem_eraseRange_upperBound {l : List (κ × ν)} (h : KeysSorted l) (a b : κ)
    (e : κ × ν) :
    e ∈ eraseRange l (upperBound l a) (upperBound l b) ↔ e ∈ l ∧ ¬ (a < e.1 ∧ e.1 ≤ b) := by
  rw [eraseRange, max_upperBound, List.mem_append, mem_take_upperBound h,
    mem_drop_upperBound h]
  constructor
  · rintro (⟨he, hle⟩ | ⟨he, hlt⟩)
    · exact ⟨he, fun hab => absurd hab.1 (not_lt.mpr hle)⟩
    · exact ⟨he, fun hab => absurd (lt_of_le_of_lt (le_max_right a b) hlt) (not_lt.mpr hab.2)⟩
  · rintro ⟨he, hnot⟩
    by_cases hle : e.1 ≤ a
    · exact Or.inl ⟨he, hle⟩
    · have hb : b < e.1 := not_le.mp fun hb => hnot ⟨not_le.mp hle, hb⟩
      exact Or.inr ⟨he, max_lt (not_le.mp hle) hb⟩

/-! ## `insert` -/

/-- Inserting a key that is not there adds exactly that entry. -/
theorem mem_insert_of_not_mem {l : List (κ × ν)} (h : KeysSorted l) {k : κ}
    (hk : ∀ e ∈ l, e.1 ≠ k) (v : ν) (e : κ × ν) :
    e ∈ insert k v l ↔ e ∈ l ∨ e = (k, v) := by
  induction l with
  | nil => simp [insert]
  | cons x l ih =>
      have hxk : k ≠ x.1 := fun hx => hk x (List.mem_cons_self ..) hx.symm
      by_cases hlt : k < x.1
      · simp only [insert, hlt, if_true, List.mem_cons]
        tauto
      · simp only [insert, hlt, hxk, if_false, List.mem_cons,
          ih h.tail fun e he => hk e (List.mem_cons_of_mem x he)]
        tauto

/-- Whatever `insert` returns is an old entry or the new one. -/
theorem mem_of_mem_insert {l : List (κ × ν)} {k : κ} {v : ν} {e : κ × ν}
    (he : e ∈ insert k v l) : e ∈ l ∨ e = (k, v) := by
  induction l with
  | nil => simpa [insert] using he
  | cons x l ih =>
      simp only [insert] at he
      split_ifs at he with hlt heq
      · simpa [or_comm] using he
      · exact Or.inl he
      · rcases List.mem_cons.mp he with rfl | he
        · exact Or.inl (List.mem_cons_self ..)
        · exact (ih he).imp (List.mem_cons_of_mem x) id

/-- A key above every key of the map is inserted at the end. -/
theorem insert_of_forall_lt {l : List (κ × ν)} {k : κ} (hk : ∀ e ∈ l, e.1 < k) (v : ν) :
    insert k v l = l ++ [(k, v)] := by
  induction l with
  | nil => rfl
  | cons x l ih =>
      have hx : x.1 < k := hk x (List.mem_cons_self ..)
      simp only [insert, not_lt.mpr (le_of_lt hx), (ne_of_lt hx).symm, if_false, List.cons_append,
        ih fun e he => hk e (List.mem_cons_of_mem x he)]

theorem KeysSorted.insert {l : List (κ × ν)} (h : KeysSorted l) (k : κ) (v : ν) :
    KeysSorted (SortedMap.insert k v l) := by
  induction l with
  | nil => exact List.pairwise_singleton _ _
  | cons x l ih =>
      by_cases hlt : k < x.1
      · simp only [SortedMap.insert, hlt, if_true]
        refine List.Pairwise.cons ?_ h
        intro e he
        rcases List.mem_cons.mp he with rfl | he
        · exact hlt
        · exact lt_trans hlt (h.cons e he)
      · by_cases heq : k = x.1
        · simpa [SortedMap.insert, hlt, heq] using h
        · simp only [SortedMap.insert, hlt, heq, if_false]
          refine List.Pairwise.cons ?_ (ih h.tail)
          intro e he
          rcases mem_of_mem_insert he with he | rfl
          · exact h.cons e he
          · exact lt_of_le_of_ne (not_lt.mp hlt) (Ne.symm heq)

/-! ## A map is its set of entries -/

/-- **Two sorted maps with the same entries are the same list.** -/
theorem eq_of_mem_iff {l₁ l₂ : List (κ × ν)} (h₁ : KeysSorted l₁) (h₂ : KeysSorted l₂)
    (h : ∀ e, e ∈ l₁ ↔ e ∈ l₂) : l₁ = l₂ := by
  induction l₁ generalizing l₂ with
  | nil =>
      cases l₂ with
      | nil => rfl
      | cons y l₂ => exact absurd ((h y).mpr (List.mem_cons_self ..)) (List.not_mem_nil)
  | cons x l₁ ih =>
      cases l₂ with
      | nil => exact absurd ((h x).mp (List.mem_cons_self ..)) (List.not_mem_nil)
      | cons y l₂ =>
          have hxy : x = y := by
            rcases List.mem_cons.mp ((h x).mp (List.mem_cons_self ..)) with hx | hx
            · exact hx
            · rcases List.mem_cons.mp ((h y).mpr (List.mem_cons_self ..)) with hy | hy
              · exact hy.symm
              · exact absurd (lt_trans (h₂.cons x hx) (h₁.cons y hy)) (lt_irrefl _)
          subst hxy
          have hnot₁ : x ∉ l₁ := fun hx => lt_irrefl _ (h₁.cons x hx)
          have hnot₂ : x ∉ l₂ := fun hx => lt_irrefl _ (h₂.cons x hx)
          refine congrArg _ (ih h₁.tail h₂.tail fun e => ?_)
          have he := h e
          simp only [List.mem_cons] at he
          constructor
          · intro he₁
            have hne : e ≠ x := fun hex => hnot₁ (hex ▸ he₁)
            exact (he.mp (Or.inr he₁)).resolve_left hne
          · intro he₂
            have hne : e ≠ x := fun hex => hnot₂ (hex ▸ he₂)
            exact (he.mpr (Or.inr he₂)).resolve_left hne

/-! ## Maps that carry their invariant -/

/-- An ordered map: its entries, with the proof that their keys strictly increase. -/
structure OrdMap (κ ν : Type*) [LinearOrder κ] where
  entries : List (κ × ν)
  sorted : KeysSorted entries

namespace OrdMap

/-- The empty map. -/
def empty : OrdMap κ ν := ⟨[], List.Pairwise.nil⟩

/-- `size()`. -/
def size (m : OrdMap κ ν) : ℕ := m.entries.length

/-- `upper_bound(k)`. -/
def upperBound (m : OrdMap κ ν) (k : κ) : ℕ := SortedMap.upperBound m.entries k

/-- `lower_bound(k)`. -/
def lowerBound (m : OrdMap κ ν) (k : κ) : ℕ := SortedMap.lowerBound m.entries k

/-- `erase(first, last)` on positions. -/
def eraseRange (m : OrdMap κ ν) (i j : ℕ) : OrdMap κ ν :=
  ⟨SortedMap.eraseRange m.entries i j, m.sorted.eraseRange i j⟩

/-- `insert({k, v})`. -/
def insert (m : OrdMap κ ν) (k : κ) (v : ν) : OrdMap κ ν :=
  ⟨SortedMap.insert k v m.entries, m.sorted.insert k v⟩

end OrdMap

end SortedMap
