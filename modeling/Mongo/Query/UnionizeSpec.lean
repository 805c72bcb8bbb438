import Mongo.Lib.ListEdit
import Mongo.Lib.TaggedBound
import Mongo.Query.IndexBoundsBuilder
import Mongo.Query.IntervalSpec

/-!
# Unionize merges an interval list into a canonical one

Read over the ascending order of values, each comparison `Interval` makes is a statement about
endpoints (`equals_iff`, `intersects_iff`, `within_iff`, `precedes_iff`), and the order
`IntervalComparison` sorts by is `precedes` (`intervalComparison_eq_precedes`).

For non-null intervals (`NonNull`: ordered, and a single value only when both ends are closed)
in sorted order, `compare` never answers `succeeds` or `overlapsAfter`
(`compare_ne_of_sorted`), `precedes` is the answer exactly when the first ends before the second
starts with a gap or an open end (`compare_eq_precedes_iff`), and each other answer names an edit
that keeps the values covered: an interval within another is dropped, and two that overlap or
touch are merged into one (`contains_merge_iff`).

The merge loop keeps `UnionizeInv`: the intervals are non-null and sorted, those up to `i` each
precede the next, and together they cover the values the input covers.  Every iteration keeps it
and shortens the list or moves `i` on (`unionizeStep_progress`), so `unionize` ends, never fails
its `verify`, and leaves a sorted list of intervals each preceding the next, covering exactly
what the input covers (`unionize_spec`).
-/

namespace Mongo

open DirLex TaggedBound

variable {V : Type} [LinearOrder V]

namespace Interval

/-! ## The comparisons, read as statements about endpoints -/

/-- The end test of `intersects` and `within`: `x` is below `y`, or on it and not excluded. -/
theorem gtTest_eq_true (x y : V) (excluded k : Bool) :
    (if woCompareSign x y > 0 then false
      else if (woCompareSign x y == 0 && excluded) then false else k) = true ↔
      (x < y ∨ x = y ∧ excluded = false) ∧ k = true := by
  rcases lt_trichotomy x y with h | rfl | h
  · have hw : woCompareSign x y = -1 := woCompareSign_eq_neg_one.mpr h
    simp [hw, h]
  · have hw : woCompareSign x x = 0 := woCompareSign_eq_zero.mpr rfl
    simp [hw]
  · have hw : woCompareSign x y = 1 := woCompareSign_eq_one.mpr h
    simp [hw, h.not_gt, h.ne']

/-- The start test of `within`: `x` is above `y`, or on it and not excluded. -/
theorem ltTest_eq_true (x y : V) (excluded k : Bool) :
    (if woCompareSign x y < 0 then false
      else if (woCompareSign x y == 0 && excluded) then false else k) = true ↔
      (y < x ∨ x = y ∧ excluded = false) ∧ k = true := by
  rcases lt_trichotomy x y with h | rfl | h
  · have hw : woCompareSign x y = -1 := woCompareSign_eq_neg_one.mpr h
    simp [hw, h.not_gt, h.ne]
  · have hw : woCompareSign x x = 0 := woCompareSign_eq_zero.mpr rfl
    simp [hw]
  · have hw : woCompareSign x y = 1 := woCompareSign_eq_one.mpr h
    simp [hw, h]

/-- The lower end of an interval, as a tagged end. -/
def lo (interval : Interval V) : V ×ₗ ℕ :=
  lower interval.start interval.startInclusive

/-- The upper end of an interval, as a tagged end. -/
def hi (interval : Interval V) : V ×ₗ ℕ :=
  upper interval.end_ interval.endInclusive

/-- A non-null interval: ordered, and a single value only when both ends are closed. -/
def NonNull (interval : Interval V) : Prop :=
  interval.start < interval.end_ ∨
    interval.start = interval.end_ ∧ interval.startInclusive = true ∧ interval.endInclusive = true

instance (interval : Interval V) : Decidable interval.NonNull := by
  unfold NonNull
  infer_instance

theorem nonNull_iff {interval : Interval V} : interval.NonNull ↔ interval.lo < interval.hi :=
  lower_lt_upper.symm

/-- **An interval is the open interval between its tagged ends.** -/
theorem contains_one_iff {interval : Interval V} {x : V} :
    interval.Contains 1 x ↔ interval.lo < point x ∧ point x < interval.hi := by
  rw [lo, hi, lower_lt_point, point_lt_upper]
  simp [Contains, StartOK, EndOK, DirLt]

theorem equals_iff {a b : Interval V} : a.equals b = true ↔ a = b := by
  obtain ⟨s, si, e, ei⟩ := a
  obtain ⟨s', si', e', ei'⟩ := b
  unfold equals
  cases si <;> cases si' <;> cases ei <;> cases ei' <;> simp

theorem intersects_iff {a b : Interval V} : a.intersects b = true ↔ a.lo < b.hi ∧ b.lo < a.hi := by
  unfold intersects
  dsimp only
  rw [gtTest_eq_true, gtTest_eq_true, lo, hi, lo, hi, lower_lt_upper, lower_lt_upper]
  cases a.startInclusive <;> cases b.startInclusive <;> cases a.endInclusive <;>
    cases b.endInclusive <;> simp

theorem within_iff {a b : Interval V} : a.within b = true ↔ b.lo ≤ a.lo ∧ a.hi ≤ b.hi := by
  unfold within
  simp only [Bool.and_assoc]
  rw [ltTest_eq_true, gtTest_eq_true, lo, lo, hi, hi, lower_le_lower, upper_le_upper]
  cases a.startInclusive <;> cases b.startInclusive <;> cases a.endInclusive <;>
    cases b.endInclusive <;> simp [eq_comm]

theorem precedes_iff {a b : Interval V} : a.precedes b = true ↔ a.lo < b.lo := by
  unfold precedes
  dsimp only
  rw [lo, lo, lower_lt_lower]
  rcases lt_trichotomy a.start b.start with h | h | h
  · have hw : woCompareSign a.start b.start = -1 := woCompareSign_eq_neg_one.mpr h
    simp [hw, h]
  · have hw : woCompareSign a.start b.start = 0 := woCompareSign_eq_zero.mpr h
    simp only [hw]
    cases a.startInclusive <;> cases b.startInclusive <;> simp [h]
  · have hw : woCompareSign a.start b.start = 1 := woCompareSign_eq_one.mpr h
    simp [hw, h.not_gt, h.ne']

/-! ## What `compare` answers -/

/-- What each answer of `compare` says of the tagged ends of the two intervals. -/
inductive CompareSpec (a b : Interval V) : IntervalComparison → Prop
  | equals : a = b → CompareSpec a b .equals
  | within : b.lo ≤ a.lo → a.hi ≤ b.hi → CompareSpec a b .within
  | contains : a.lo ≤ b.lo → b.hi ≤ a.hi → CompareSpec a b .contains
  | overlapsBefore : b.lo < a.hi → a.lo < b.lo → a.hi < b.hi → CompareSpec a b .overlapsBefore
  | overlapsAfter : b.lo < a.lo → b.hi < a.hi → CompareSpec a b .overlapsAfter
  | precedesCouldUnion : ¬ (a.lo < b.hi ∧ b.lo < a.hi) → a.lo < b.lo →
      (a.endInclusive || b.startInclusive) = true → a.end_ = b.start →
      CompareSpec a b .precedesCouldUnion
  | precedes : ¬ (a.lo < b.hi ∧ b.lo < a.hi) → a.lo < b.lo →
      ¬ ((a.endInclusive || b.startInclusive) = true ∧ a.end_ = b.start) → CompareSpec a b .precedes
  | succeeds : ¬ (a.lo < b.hi ∧ b.lo < a.hi) → b.lo ≤ a.lo → CompareSpec a b .succeeds

theorem compare_spec (a b : Interval V) : CompareSpec a b (a.compare b) := by
  unfold compare
  by_cases hi : a.intersects b = true
  · rw [if_pos hi]
    rw [intersects_iff] at hi
    by_cases he : a.equals b = true
    · rw [if_pos he]
      exact .equals (equals_iff.mp he)
    rw [if_neg he]
    by_cases hw : a.within b = true
    · rw [if_pos hw]
      obtain ⟨h₁, h₂⟩ := within_iff.mp hw
      exact .within h₁ h₂
    rw [if_neg hw, within_iff] at *
    by_cases hc : b.within a = true
    · rw [if_pos hc]
      obtain ⟨h₁, h₂⟩ := within_iff.mp hc
      exact .contains h₁ h₂
    rw [if_neg hc, within_iff] at *
    by_cases hp : a.precedes b = true
    · rw [if_pos hp]
      rw [precedes_iff] at hp
      exact .overlapsBefore hi.2 hp (lt_of_not_ge fun h => hc ⟨hp.le, h⟩)
    · rw [if_neg hp]
      rw [precedes_iff, not_lt] at hp
      have hend : b.hi < a.hi := lt_of_not_ge fun h => hw ⟨hp, h⟩
      exact .overlapsAfter (lt_of_not_ge fun h => hc ⟨h, hend.le⟩) hend
  · rw [if_neg hi]
    rw [intersects_iff] at hi
    by_cases hp : a.precedes b = true
    · rw [if_pos hp]
      rw [precedes_iff] at hp
      by_cases hu : (a.endInclusive || b.startInclusive) = true ∧ a.end_ = b.start
      · rw [if_pos (by simpa using hu)]
        exact .precedesCouldUnion hi hp hu.1 hu.2
      · rw [if_neg (by simpa using hu)]
        exact .precedes hi hp hu
    · rw [if_neg hp]
      rw [precedes_iff, not_lt] at hp
      exact .succeeds hi hp

variable {a b : Interval V}

/-- **`precedes` is the answer exactly when the first interval ends before the second starts**,
with a gap or an open end between them. -/
theorem compare_eq_precedes_iff (ha : a.NonNull) (hb : b.NonNull) :
    a.compare b = .precedes ↔ a.hi < b.lo := by
  rw [nonNull_iff] at ha hb
  have hspec := compare_spec a b
  constructor
  · intro hcmp
    rw [hcmp] at hspec
    cases hspec with
    | precedes hni hp hcu =>
        rcases lt_trichotomy a.hi b.lo with h | h | h
        · exact h
        · obtain ⟨he, hei⟩ := upper_eq_lower.mp h
          refine absurd ⟨?_, he⟩ hcu
          cases hsi : b.startInclusive <;> simp_all
        · exact absurd ⟨by order, h⟩ hni
  · intro h
    generalize a.compare b = cmp at hspec
    cases hspec with
    | equals he => subst he; order
    | within h₁ h₂ => order
    | contains h₁ h₂ => order
    | overlapsBefore h₁ h₂ h₃ => order
    | overlapsAfter h₁ h₂ => order
    | precedesCouldUnion _ _ hu he =>
        rcases upper_lt_lower.mp h with h | ⟨-, hei, hsi⟩
        · exact absurd he h.ne
        · simp [hei, hsi] at hu
    | precedes => rfl
    | succeeds _ h₁ => order

/-- **In sorted order, `compare` gives an answer the merge loop has a branch for.** -/
theorem compare_ne_of_sorted (ha : a.NonNull) (hb : b.NonNull) (hs : ¬ b.lo < a.lo) :
    a.compare b ≠ .succeeds ∧ a.compare b ≠ .overlapsAfter ∧ a.compare b ≠ .unknown := by
  rw [nonNull_iff] at ha hb
  have hspec := compare_spec a b
  generalize a.compare b = cmp at hspec
  cases hspec with
  | overlapsAfter h₁ _ => exact absurd h₁ hs
  | succeeds hni h₁ => exact absurd ⟨by order, by order⟩ hni
  | _ => simp

/-- Two intervals `compare` would merge: the second starts later, ends later, and starts no
later than the first ends. -/
theorem merge_bounds (h : a.compare b = .overlapsBefore ∨ a.compare b = .precedesCouldUnion)
    (hb : b.NonNull) : a.lo < b.lo ∧ b.lo ≤ a.hi ∧ a.hi < b.hi := by
  rw [nonNull_iff] at hb
  have hspec := compare_spec a b
  rcases h with h | h <;> rw [h] at hspec
  · cases hspec with
    | overlapsBefore h₁ h₂ h₃ => exact ⟨h₂, h₁.le, h₃⟩
  · cases hspec with
    | precedesCouldUnion hni hp hu he =>
        have hmeet : b.lo ≤ a.hi := by
          refine le_of_not_gt fun hlt => ?_
          rcases upper_lt_lower.mp hlt with h | ⟨-, hei, hsi⟩
          · exact h.ne he
          · simp [hei, hsi] at hu
        exact ⟨hp, hmeet, lt_of_not_ge fun h => hni ⟨by order, by order⟩⟩

/-- **Merging two intervals `compare` would merge covers what the two cover.** -/
theorem contains_merge (h : a.compare b = .overlapsBefore ∨ a.compare b = .precedesCouldUnion)
    (hb : b.NonNull) (x : V) :
    (makeRangeInterval a.start b.end_ a.startInclusive b.endInclusive).Contains 1 x ↔
      a.Contains 1 x ∨ b.Contains 1 x := by
  obtain ⟨h₁, h₂, h₃⟩ := merge_bounds h hb
  have hx : point x ≠ a.hi := point_ne_upper
  simp only [contains_one_iff]
  change a.lo < point x ∧ point x < b.hi ↔ _
  constructor
  · rintro ⟨hlo, hhi⟩
    rcases lt_or_gt_of_ne hx with hlt | hgt
    · exact Or.inl ⟨hlo, hlt⟩
    · exact Or.inr ⟨by order, hhi⟩
  · rintro (⟨hlo, hhi⟩ | ⟨hlo, hhi⟩)
    · exact ⟨hlo, by order⟩
    · exact ⟨by order, hhi⟩

theorem nonNull_merge (h : a.compare b = .overlapsBefore ∨ a.compare b = .precedesCouldUnion)
    (hb : b.NonNull) :
    (makeRangeInterval a.start b.end_ a.startInclusive b.endInclusive).NonNull := by
  obtain ⟨h₁, h₂, h₃⟩ := merge_bounds h hb
  rw [nonNull_iff]
  change a.lo < b.hi
  order

theorem Contains.of_within (h : a.within b = true) {x : V} (hx : a.Contains 1 x) :
    b.Contains 1 x := by
  rw [within_iff] at h
  rw [contains_one_iff] at hx ⊢
  exact ⟨lt_of_le_of_lt h.1 hx.1, lt_of_lt_of_le hx.2 h.2⟩

end Interval

/-- `IntervalComparison` is `precedes`. -/
theorem intervalComparison_eq_precedes (a b : Interval V) :
    intervalComparison a b = a.precedes b := by
  unfold intervalComparison Interval.precedes
  dsimp only
  rcases lt_trichotomy a.start b.start with h | h | h
  · have hw : woCompareSign a.start b.start = -1 := woCompareSign_eq_neg_one.mpr h
    simp [hw]
  · have hw : woCompareSign a.start b.start = 0 := woCompareSign_eq_zero.mpr h
    simp only [hw]
    cases a.startInclusive <;> cases b.startInclusive <;> simp
  · have hw : woCompareSign a.start b.start = 1 := woCompareSign_eq_one.mpr h
    simp [hw]

theorem intervalComparison_eq_false_iff {a b : Interval V} :
    intervalComparison a b = false ↔ ¬ a.lo < b.lo := by
  rw [intervalComparison_eq_precedes, ← Interval.precedes_iff, Bool.not_eq_true]

/-! ## The merge loop -/

section Loop

variable {pre post : List (Interval V)} {a b : Interval V}

/-- **One iteration of the merge loop**, at `i = pre.length` with `a` and `b` at `i` and `i + 1`. -/
theorem unionizeStep_split :
    unionizeStep ⟨pre ++ a :: b :: post, pre.length⟩ =
      match a.compare b with
      | .succeeds => .error .verifyFailed
      | .precedes => .ok ⟨pre ++ a :: b :: post, pre.length + 1⟩
      | .equals | .within => .ok ⟨pre ++ b :: post, pre.length⟩
      | .contains => .ok ⟨pre ++ a :: post, pre.length⟩
      | .overlapsBefore | .precedesCouldUnion =>
          .ok ⟨pre ++ makeRangeInterval a.start b.end_ a.startInclusive b.endInclusive :: post,
            pre.length⟩
      | .overlapsAfter | .unknown => .ok ⟨pre ++ a :: b :: post, pre.length⟩ := by
  simp only [unionizeStep, List.getElem?_split, List.getElem?_split_succ]
  cases a.compare b <;>
    simp [List.eraseIdx_split, List.eraseIdx_split_succ]

/-- What the merge loop keeps, for the input `L`: the intervals are non-null and sorted, each of
those up to `i` ends before the next starts, and together they cover what `L` covers. -/
structure UnionizeInv (L : List (Interval V)) (s : UnionizeState V) : Prop where
  lt_length : s.i < s.iv.length
  nonNull : ∀ interval ∈ s.iv, interval.NonNull
  sorted : s.iv.Pairwise fun a b => intervalComparison b a = false
  chain : (s.iv.take (s.i + 1)).IsChain fun a b => a.hi < b.lo
  covers : ∀ x, (∃ interval ∈ s.iv, interval.Contains 1 x) ↔ ∃ interval ∈ L, interval.Contains 1 x

/-- The measure of the merge loop: each iteration shortens the vector or moves `i` on. -/
def UnionizeState.measure (s : UnionizeState V) : ℕ :=
  s.iv.length + (s.iv.length - s.i)

/-- The covered values of a list with `mid` between `pre` and `post` depend on `mid` only through
what it covers. -/
theorem covers_split (pre post : List (Interval V)) {mid mid' : List (Interval V)}
    (h : ∀ x, (∃ interval ∈ mid, interval.Contains 1 x) ↔ ∃ interval ∈ mid', interval.Contains 1 x)
    (x : V) :
    (∃ interval ∈ pre ++ mid ++ post, interval.Contains 1 x) ↔
      ∃ interval ∈ pre ++ mid' ++ post, interval.Contains 1 x := by
  rw [List.exists_mem_split, List.exists_mem_split, h]

/-- `i` moves on past `a`, which precedes `b`. -/
theorem UnionizeInv.advance {L : List (Interval V)}
    (h : UnionizeInv L ⟨pre ++ a :: b :: post, pre.length⟩) (hab : a.hi < b.lo) :
    UnionizeInv L ⟨pre ++ a :: b :: post, pre.length + 1⟩ where
  lt_length := by simp
  nonNull := h.nonNull
  sorted := h.sorted
  chain := by
    have hchain := h.chain
    dsimp only at hchain ⊢
    rw [List.take_split] at hchain
    rw [show pre.length + 1 + 1 = pre.length + 2 by omega, List.take_split_two]
    exact hchain.append_pair hab
  covers := h.covers

/-- `a` is erased in favour of `b`, which covers it and starts where it does. -/
theorem UnionizeInv.eraseFirst {L : List (Interval V)}
    (h : UnionizeInv L ⟨pre ++ a :: b :: post, pre.length⟩)
    (hsub : ∀ x, a.Contains 1 x → b.Contains 1 x) (hlo : a.lo = b.lo) :
    UnionizeInv L ⟨pre ++ b :: post, pre.length⟩ where
  lt_length := by simp
  nonNull := fun interval hi => h.nonNull interval (by simp at hi ⊢; tauto)
  sorted := h.sorted.sublist ((List.sublist_cons_self a (b :: post)).append_left pre)
  chain := by
    have hchain := h.chain
    dsimp only at hchain ⊢
    rw [List.take_split] at hchain ⊢
    exact hchain.replace_last fun x hx => hlo ▸ hx
  covers := fun x => by
    rw [← h.covers x]
    have hmid : ∀ y, (∃ interval ∈ [b], interval.Contains 1 y) ↔
        ∃ interval ∈ [a, b], interval.Contains 1 y := by
      intro y
      simp only [List.mem_cons, List.not_mem_nil, or_false, exists_eq_or_imp, exists_eq_left]
      exact ⟨Or.inr, fun hy => hy.elim (hsub y) id⟩
    simpa using covers_split pre post hmid x

/-- `b` is erased: `a` covers it. -/
theorem UnionizeInv.eraseSecond {L : List (Interval V)}
    (h : UnionizeInv L ⟨pre ++ a :: b :: post, pre.length⟩)
    (hsub : ∀ x, b.Contains 1 x → a.Contains 1 x) :
    UnionizeInv L ⟨pre ++ a :: post, pre.length⟩ where
  lt_length := by simp
  nonNull := fun interval hi => h.nonNull interval (by simp at hi ⊢; tauto)
  sorted := h.sorted.sublist
    (((List.sublist_cons_self b post).cons_cons a).append_left pre)
  chain := by
    have hchain := h.chain
    dsimp only at hchain ⊢
    rw [List.take_split] at hchain ⊢
    exact hchain
  covers := fun x => by
    rw [← h.covers x]
    have hmid : ∀ y, (∃ interval ∈ [a], interval.Contains 1 y) ↔
        ∃ interval ∈ [a, b], interval.Contains 1 y := by
      intro y
      simp only [List.mem_cons, List.not_mem_nil, or_false, exists_eq_or_imp, exists_eq_left]
      exact ⟨Or.inl, fun hy => hy.elim id (hsub y)⟩
    simpa using covers_split pre post hmid x

/-- `a` and `b` are replaced by `m`, which covers what they cover and starts where `a` does. -/
theorem UnionizeInv.merge {L : List (Interval V)} {m : Interval V}
    (h : UnionizeInv L ⟨pre ++ a :: b :: post, pre.length⟩)
    (hm : ∀ x, m.Contains 1 x ↔ a.Contains 1 x ∨ b.Contains 1 x) (hmn : m.NonNull)
    (hlo : m.lo = a.lo) :
    UnionizeInv L ⟨pre ++ m :: post, pre.length⟩ where
  lt_length := by simp
  nonNull := fun interval hi => by
    simp only [List.mem_append, List.mem_cons] at hi
    rcases hi with hi | rfl | hi
    · exact h.nonNull interval (by simp [hi])
    · exact hmn
    · exact h.nonNull interval (by simp [hi])
  sorted := by
    have hsorted : (pre ++ a :: post).Pairwise fun a b => intervalComparison b a = false :=
      h.sorted.sublist (((List.sublist_cons_self b post).cons_cons a).append_left pre)
    refine hsorted.replace (fun x hx => ?_) (fun y hy => ?_)
    · rw [intervalComparison_eq_false_iff] at hx ⊢
      rwa [hlo]
    · rw [intervalComparison_eq_false_iff] at hy ⊢
      rwa [hlo]
  chain := by
    have hchain := h.chain
    dsimp only at hchain ⊢
    rw [List.take_split] at hchain ⊢
    exact hchain.replace_last fun x hx => hlo ▸ hx
  covers := fun x => by
    rw [← h.covers x]
    have hmid : ∀ y, (∃ interval ∈ [m], interval.Contains 1 y) ↔
        ∃ interval ∈ [a, b], interval.Contains 1 y := by
      intro y
      simp only [List.mem_cons, List.not_mem_nil, or_false, exists_eq_or_imp, exists_eq_left]
      exact hm y
    simpa using covers_split pre post hmid x

omit [LinearOrder V] in
theorem measure_advance :
    (⟨pre ++ a :: b :: post, pre.length + 1⟩ : UnionizeState V).measure <
      (⟨pre ++ a :: b :: post, pre.length⟩ : UnionizeState V).measure := by
  simp only [UnionizeState.measure, List.length_append, List.length_cons]
  omega

omit [LinearOrder V] in
theorem measure_erase {c : Interval V} :
    (⟨pre ++ c :: post, pre.length⟩ : UnionizeState V).measure <
      (⟨pre ++ a :: b :: post, pre.length⟩ : UnionizeState V).measure := by
  simp only [UnionizeState.measure, List.length_append, List.length_cons]
  omega

/-- **Every iteration of the merge loop succeeds, keeps the invariant, and shortens the vector
or moves `i` on.** -/
theorem unionizeStep_progress {L : List (Interval V)} {s : UnionizeState V}
    (h : UnionizeInv L s) (hd : ¬ s.done) :
    ∃ s', unionizeStep s = .ok s' ∧ UnionizeInv L s' ∧ s'.measure < s.measure := by
  obtain ⟨iv, i⟩ := s
  have hlen : i + 1 < iv.length := by
    have hi := h.lt_length
    unfold UnionizeState.done at hd
    dsimp only at hi hd
    omega
  obtain ⟨pre, a, b, post, rfl, rfl⟩ := List.exists_split hlen
  have ha : a.NonNull := h.nonNull a (by simp)
  have hb : b.NonNull := h.nonNull b (by simp)
  have hab : ¬ b.lo < a.lo := by
    have hpair := h.sorted
    rw [List.pairwise_append, List.pairwise_cons] at hpair
    exact intervalComparison_eq_false_iff.mp (hpair.2.1.1 b (by simp))
  obtain ⟨hsucc, hafter, hunk⟩ := Interval.compare_ne_of_sorted ha hb hab
  have hspec := Interval.compare_spec a b
  rw [unionizeStep_split]
  generalize hcmp : a.compare b = cmp at hspec hsucc hafter hunk
  cases hspec with
  | equals he =>
      subst he
      exact ⟨_, rfl, h.eraseFirst (fun _ hx => hx) rfl, measure_erase⟩
  | within h₁ h₂ =>
      have hlo : a.lo = b.lo := le_antisymm (not_lt.mp hab) h₁
      have hsub := fun x => Interval.Contains.of_within (x := x) (Interval.within_iff.mpr ⟨h₁, h₂⟩)
      exact ⟨_, rfl, h.eraseFirst hsub hlo, measure_erase⟩
  | contains h₁ h₂ =>
      have hsub := fun x => Interval.Contains.of_within (x := x) (Interval.within_iff.mpr ⟨h₁, h₂⟩)
      exact ⟨_, rfl, h.eraseSecond hsub, measure_erase⟩
  | overlapsBefore =>
      exact ⟨_, rfl, h.merge (Interval.contains_merge (Or.inl hcmp) hb)
        (Interval.nonNull_merge (Or.inl hcmp) hb) rfl, measure_erase⟩
  | overlapsAfter => exact absurd rfl hafter
  | precedesCouldUnion =>
      exact ⟨_, rfl, h.merge (Interval.contains_merge (Or.inr hcmp) hb)
        (Interval.nonNull_merge (Or.inr hcmp) hb) rfl, measure_erase⟩
  | precedes =>
      exact ⟨_, rfl, h.advance ((Interval.compare_eq_precedes_iff ha hb).mp hcmp), measure_advance⟩
  | succeeds => exact absurd rfl hsucc

end Loop

/-- `List.mergeSort` by `IntervalComparison` leaves one of the orders `std::sort` may leave. -/
def IntervalSort.mergeSort : IntervalSort V where
  sort iv := iv.mergeSort fun a b => !intervalComparison b a
  perm iv := List.mergeSort_perm iv _
  sorted iv := by
    have htrans : ∀ a b c : Interval V, (!intervalComparison b a) = true →
        (!intervalComparison c b) = true → (!intervalComparison c a) = true := by
      intro a b c hab hbc
      simp only [Bool.not_eq_true', intervalComparison_eq_false_iff] at hab hbc ⊢
      order
    have htotal : ∀ a b : Interval V,
        ((!intervalComparison b a) || (!intervalComparison a b)) = true := by
      intro a b
      simp only [Bool.or_eq_true, Bool.not_eq_true', intervalComparison_eq_false_iff, not_lt]
      exact le_total a.lo b.lo
    simpa using @List.pairwise_mergeSort _ (fun a b => !intervalComparison b a) htrans htotal iv

/-- The merge loop starts from the sorted intervals at `i = 0`. -/
theorem unionizeInv_start (srt : IntervalSort V) {L : List (Interval V)}
    (hL : ∀ interval ∈ L, interval.NonNull) (hne : L ≠ []) :
    UnionizeInv L ⟨srt.sort L, 0⟩ where
  lt_length := by
    rw [(srt.perm L).length_eq]
    exact List.length_pos_of_ne_nil hne
  nonNull := fun interval hi => hL interval ((srt.perm L).subset hi)
  sorted := srt.sorted L
  chain := by
    rcases srt.sort L with _ | ⟨x, rest⟩ <;> simp
  covers := fun x => by
    simp only [(srt.perm L).mem_iff]

/-- Where the merge loop ends, every interval ends before the next starts. -/
theorem UnionizeInv.result {L : List (Interval V)} {s : UnionizeState V} (h : UnionizeInv L s)
    (hd : s.done) : s.iv.IsChain fun a b => a.compare b = .precedes := by
  have hchain := h.chain
  rw [List.take_of_length_le (by unfold UnionizeState.done at hd; omega)] at hchain
  exact hchain.imp_of_mem_imp fun a b ha hb hab =>
    (Interval.compare_eq_precedes_iff (h.nonNull a ha) (h.nonNull b hb)).mpr hab

/-- **`unionize` merges a list of non-null intervals into a canonical one.**  With fuel enough
for its loop it never fails its `verify`; the intervals it leaves are sorted by
`IntervalComparison`, each precedes the next, and together they cover exactly the values `L`
covers. -/
theorem unionize_spec (srt : IntervalSort V) (L : List (Interval V))
    (hL : ∀ interval ∈ L, interval.NonNull) :
    ∃ result : List (Interval V),
      (∀ fuel, 2 * L.length < fuel → unionize srt fuel L = .ok result) ∧
      result.Pairwise (fun a b => intervalComparison b a = false) ∧
      result.IsChain (fun a b => a.compare b = .precedes) ∧
      ∀ x, (∃ interval ∈ result, interval.Contains 1 x) ↔ ∃ interval ∈ L, interval.Contains 1 x := by
  by_cases hne : L = []
  · subst hne
    exact ⟨[], fun _ _ => rfl, List.Pairwise.nil, List.isChain_nil, fun x => by simp⟩
  · obtain ⟨s, hs, hd, hrun⟩ := Loop.runState_of_progress
      (fun s hs hd => unionizeStep_progress hs hd) _ (unionizeInv_start srt hL hne)
    refine ⟨s.iv, fun fuel hfuel => ?_, hs.sorted, hs.result hd, hs.covers⟩
    have hμ : (⟨srt.sort L, 0⟩ : UnionizeState V).measure = 2 * L.length := by
      simp only [UnionizeState.measure, (srt.perm L).length_eq]
      omega
    rw [unionize, if_neg (by simpa using hne), hrun fuel (by omega)]
    rfl

/-- Two overlapping intervals and a third that touches the second at a closed end merge into
one. -/
theorem unionize_spec_touching :
    (∀ interval ∈ ([⟨1, true, 3, false⟩, ⟨2, true, 5, true⟩, ⟨5, false, 9, true⟩] :
        List (Interval ℕ)), interval.NonNull) ∧
    ∃ result : List (Interval ℕ),
      (∀ fuel, 2 * ([⟨1, true, 3, false⟩, ⟨2, true, 5, true⟩, ⟨5, false, 9, true⟩] :
          List (Interval ℕ)).length < fuel →
        unionize IntervalSort.mergeSort fuel
          [⟨1, true, 3, false⟩, ⟨2, true, 5, true⟩, ⟨5, false, 9, true⟩] = .ok result) ∧
      result.Pairwise (fun a b => intervalComparison b a = false) ∧
      result.IsChain (fun a b => a.compare b = .precedes) ∧
      ∀ x, (∃ interval ∈ result, interval.Contains 1 x) ↔
        ∃ interval ∈ ([⟨1, true, 3, false⟩, ⟨2, true, 5, true⟩, ⟨5, false, 9, true⟩] :
          List (Interval ℕ)), interval.Contains 1 x := by
  have hL : ∀ interval ∈ ([⟨1, true, 3, false⟩, ⟨2, true, 5, true⟩, ⟨5, false, 9, true⟩] :
      List (Interval ℕ)), interval.NonNull := by decide
  exact ⟨hL, unionize_spec IntervalSort.mergeSort _ hL⟩

end Mongo
