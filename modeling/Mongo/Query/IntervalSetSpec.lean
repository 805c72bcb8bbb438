import Mathlib
import Mongo.Query.UnionizeSpec

/-!
# Interval comparisons read as point sets

An ascending interval holds the values between its tagged ends (`Interval.contains_one_iff`).
Read that way, what `Interval::compare` answers is a statement about point sets:

* the answers under "There is some intersection." in `interval.h` are exactly those for two
  intervals whose tagged ranges overlap (`intersecting_compare`); the others leave no value in
  both (`not_contains_both`);
* after such an answer, `intersect` keeps the larger start and the smaller end, and `combine`
  the smaller start and the larger end (`intersect_spec`, `combine_spec`), so they hold the
  values in both and in either (`contains_iff_and`, `contains_iff_or`);
* `equals`, `within` and `contains` carry the order of the ends, so they give equality and
  inclusion of point sets, but not the other way round: where no value lies between two ends,
  two different intervals hold the same values.

`Canonical` is the shape `intersectize` and `complement` take and give: non-null intervals,
sorted by `IntervalComparison`, no two intersecting.  On tagged ends it says each interval ends
at or before the next one starts (`canonical_iff_separated`), which is the form the proofs use.
-/

namespace Mongo

open TaggedBound

variable {V : Type} [LinearOrder V]

namespace Interval

/-- The answers `interval.h` lists under "There is some intersection.". -/
def IntervalComparison.intersecting : IntervalComparison → Bool
  | .equals | .contains | .within | .overlapsBefore | .overlapsAfter => true
  | .precedes | .precedesCouldUnion | .succeeds | .unknown => false

variable {a b c : Interval V}

omit [LinearOrder V] in
@[simp] theorem lo_makeRangeInterval (s e : V) (si ei : Bool) :
    (makeRangeInterval s e si ei).lo = lower s si := rfl

omit [LinearOrder V] in
@[simp] theorem hi_makeRangeInterval (s e : V) (si ei : Bool) :
    (makeRangeInterval s e si ei).hi = upper e ei := rfl

/-- **`compare` answers an intersecting case exactly when the tagged ranges overlap.** -/
theorem intersecting_compare (a b : Interval V) :
    (a.compare b).intersecting = true ↔ a.lo < b.hi ∧ b.lo < a.hi := by
  rw [← intersects_iff]
  unfold compare
  split_ifs <;> simp_all [IntervalComparison.intersecting]

/-- Two intervals whose tagged ranges do not overlap share no value. -/
theorem not_contains_both (h : ¬ (a.lo < b.hi ∧ b.lo < a.hi)) (x : V) :
    ¬ (a.Contains 1 x ∧ b.Contains 1 x) := by
  rintro ⟨hxa, hxb⟩
  rw [contains_one_iff] at hxa hxb
  exact h ⟨hxa.1.trans hxb.2, hxb.1.trans hxa.2⟩

/-- An interval from the larger start to the smaller end holds the values in both. -/
theorem contains_iff_and (hlo : c.lo = max a.lo b.lo) (hhi : c.hi = min a.hi b.hi) (x : V) :
    c.Contains 1 x ↔ a.Contains 1 x ∧ b.Contains 1 x := by
  simp only [contains_one_iff, hlo, hhi, max_lt_iff, lt_min_iff]
  tauto

/-- For two overlapping intervals, an interval from the smaller start to the larger end holds
the values in either. -/
theorem contains_iff_or (hab : a.lo < b.hi ∧ b.lo < a.hi) (hlo : c.lo = min a.lo b.lo)
    (hhi : c.hi = max a.hi b.hi) (x : V) :
    c.Contains 1 x ↔ a.Contains 1 x ∨ b.Contains 1 x := by
  simp only [contains_one_iff, hlo, hhi, min_lt_iff, lt_max_iff]
  constructor
  · rintro ⟨hlo | hlo, hhi | hhi⟩
    · exact Or.inl ⟨hlo, hhi⟩
    · by_cases h : point x < a.hi
      · exact Or.inl ⟨hlo, h⟩
      · exact Or.inr ⟨by order, hhi⟩
    · by_cases h : point x < b.hi
      · exact Or.inr ⟨hlo, h⟩
      · exact Or.inl ⟨by order, hhi⟩
    · exact Or.inr ⟨hlo, hhi⟩
  · rintro (⟨hlo, hhi⟩ | ⟨hlo, hhi⟩)
    · exact ⟨Or.inl hlo, Or.inl hhi⟩
    · exact ⟨Or.inr hlo, Or.inr hhi⟩

/-- An interval whose tagged ends lie within another's holds only values of the other. -/
theorem Contains.of_le (hlo : b.lo ≤ a.lo) (hhi : a.hi ≤ b.hi) {x : V} (hx : a.Contains 1 x) :
    b.Contains 1 x := by
  rw [contains_one_iff] at hx ⊢
  exact ⟨lt_of_le_of_lt hlo hx.1, lt_of_lt_of_le hx.2 hhi⟩

/-- **`intersect` after an intersecting answer keeps the larger start and the smaller end.** -/
theorem intersect_spec [Inhabited V] (h : (a.compare b).intersecting = true) :
    ∃ c, a.intersect b (a.compare b) = .ok c ∧ c.lo = max a.lo b.lo ∧ c.hi = min a.hi b.hi := by
  have hspec := compare_spec a b
  generalize hcmp : a.compare b = cmp at hspec h
  cases hspec with
  | equals he =>
      subst he
      exact ⟨a, by simp [intersect], (max_self _).symm, (min_self _).symm⟩
  | within h₁ h₂ =>
      exact ⟨a, by simp [intersect], (max_eq_left h₁).symm, (min_eq_left h₂).symm⟩
  | contains h₁ h₂ =>
      refine ⟨makeRangeInterval b.start b.end_ b.startInclusive b.endInclusive,
        by simp [intersect], ?_, ?_⟩
      · exact (max_eq_right h₁).symm
      · exact (min_eq_right h₂).symm
  | overlapsBefore _ h₂ h₃ =>
      refine ⟨makeRangeInterval b.start a.end_ b.startInclusive a.endInclusive,
        by simp [intersect], ?_, ?_⟩
      · exact (max_eq_right h₂.le).symm
      · exact (min_eq_left h₃.le).symm
  | overlapsAfter h₁ h₂ =>
      refine ⟨makeRangeInterval a.start b.end_ a.startInclusive b.endInclusive,
        by simp [intersect], ?_, ?_⟩
      · exact (max_eq_left h₁.le).symm
      · exact (min_eq_right h₂.le).symm
  | precedesCouldUnion | precedes | succeeds => simp [IntervalComparison.intersecting] at h

/-- **`combine` after an intersecting answer keeps the smaller start and the larger end.** -/
theorem combine_spec (h : (a.compare b).intersecting = true) :
    ∃ c, a.combine b (a.compare b) = .ok c ∧ c.lo = min a.lo b.lo ∧ c.hi = max a.hi b.hi := by
  have hspec := compare_spec a b
  generalize hcmp : a.compare b = cmp at hspec h
  cases hspec with
  | equals he =>
      subst he
      exact ⟨a, by simp [combine], (min_self _).symm, (max_self _).symm⟩
  | within h₁ h₂ =>
      refine ⟨makeRangeInterval b.start b.end_ b.startInclusive b.endInclusive,
        by simp [combine], ?_, ?_⟩
      · exact (min_eq_right h₁).symm
      · exact (max_eq_right h₂).symm
  | contains h₁ h₂ =>
      exact ⟨a, by simp [combine], (min_eq_left h₁).symm, (max_eq_left h₂).symm⟩
  | overlapsBefore _ h₂ h₃ =>
      refine ⟨makeRangeInterval a.start b.end_ a.startInclusive b.endInclusive,
        by simp [combine], ?_, ?_⟩
      · exact (min_eq_left h₂.le).symm
      · exact (max_eq_right h₃.le).symm
  | overlapsAfter h₁ h₂ =>
      refine ⟨makeRangeInterval b.start a.end_ b.startInclusive a.endInclusive,
        by simp [combine], ?_, ?_⟩
      · exact (min_eq_right h₁.le).symm
      · exact (max_eq_left h₂.le).symm
  | precedesCouldUnion | precedes | succeeds => simp [IntervalComparison.intersecting] at h

/-- **Comparison, intersection and union agree with point sets.**  For two ascending intervals,
the second non-null: an answer without intersection leaves no value in both; after an intersecting answer
`intersect` holds the values in both and `combine` those in either; two intervals that could be
unioned hold together the values from the first's start to the second's end; and `equals`,
`within` and `contains` give equality and the two inclusions of the point sets. -/
theorem compare_pointSet_semantics [Inhabited V] (a b : Interval V) (hb : b.NonNull) :
    (a.compare b = .precedes ∨ a.compare b = .precedesCouldUnion ∨ a.compare b = .succeeds →
      ∀ x, ¬ (a.Contains 1 x ∧ b.Contains 1 x)) ∧
    (a.compare b = .equals ∨ a.compare b = .within ∨ a.compare b = .contains ∨
        a.compare b = .overlapsBefore ∨ a.compare b = .overlapsAfter →
      (∃ c, a.intersect b (a.compare b) = .ok c ∧
        ∀ x, c.Contains 1 x ↔ a.Contains 1 x ∧ b.Contains 1 x) ∧
      ∃ c, a.combine b (a.compare b) = .ok c ∧
        ∀ x, c.Contains 1 x ↔ a.Contains 1 x ∨ b.Contains 1 x) ∧
    (a.compare b = .precedesCouldUnion → ∀ x,
      (makeRangeInterval a.start b.end_ a.startInclusive b.endInclusive).Contains 1 x ↔
        a.Contains 1 x ∨ b.Contains 1 x) ∧
    (a.compare b = .equals → ∀ x, a.Contains 1 x ↔ b.Contains 1 x) ∧
    (a.compare b = .within → ∀ x, a.Contains 1 x → b.Contains 1 x) ∧
    (a.compare b = .contains → ∀ x, b.Contains 1 x → a.Contains 1 x) := by
  have hspec := compare_spec a b
  refine ⟨fun h => ?_, fun h => ?_, fun h => contains_merge (Or.inr h) hb,
    fun h => ?_, fun h => ?_, fun h => ?_⟩
  · have hni : (a.compare b).intersecting = false := by
      rcases h with h | h | h <;> rw [h] <;> rfl
    have hover := mt (intersecting_compare a b).mpr (by simp [hni])
    exact not_contains_both hover
  · have hint : (a.compare b).intersecting = true := by
      rcases h with h | h | h | h | h <;> rw [h] <;> rfl
    obtain ⟨c, hc, hclo, hchi⟩ := intersect_spec hint
    obtain ⟨c', hc', hclo', hchi'⟩ := combine_spec hint
    exact ⟨⟨c, hc, contains_iff_and hclo hchi⟩,
      ⟨c', hc', contains_iff_or ((intersecting_compare a b).mp hint) hclo' hchi'⟩⟩
  · rw [h] at hspec
    cases hspec with
    | equals he => exact fun x => he ▸ Iff.rfl
  · rw [h] at hspec
    cases hspec with
    | within h₁ h₂ => exact fun x => Contains.of_le h₁ h₂
  · rw [h] at hspec
    cases hspec with
    | contains h₁ h₂ => exact fun x => Contains.of_le h₁ h₂

/-- `[1, 3]` and `[2, 5)`, which overlap: `compare` answers `overlapsBefore`. -/
theorem compare_pointSet_semantics_overlap :
    (⟨2, true, 5, false⟩ : Interval ℕ).NonNull ∧
    ((⟨1, true, 3, true⟩ : Interval ℕ).compare ⟨2, true, 5, false⟩ = .precedes ∨
        (⟨1, true, 3, true⟩ : Interval ℕ).compare ⟨2, true, 5, false⟩ = .precedesCouldUnion ∨
        (⟨1, true, 3, true⟩ : Interval ℕ).compare ⟨2, true, 5, false⟩ = .succeeds →
      ∀ x, ¬ ((⟨1, true, 3, true⟩ : Interval ℕ).Contains 1 x ∧
        (⟨2, true, 5, false⟩ : Interval ℕ).Contains 1 x)) ∧
    ((⟨1, true, 3, true⟩ : Interval ℕ).compare ⟨2, true, 5, false⟩ = .equals ∨
        (⟨1, true, 3, true⟩ : Interval ℕ).compare ⟨2, true, 5, false⟩ = .within ∨
        (⟨1, true, 3, true⟩ : Interval ℕ).compare ⟨2, true, 5, false⟩ = .contains ∨
        (⟨1, true, 3, true⟩ : Interval ℕ).compare ⟨2, true, 5, false⟩ = .overlapsBefore ∨
        (⟨1, true, 3, true⟩ : Interval ℕ).compare ⟨2, true, 5, false⟩ = .overlapsAfter →
      (∃ c, (⟨1, true, 3, true⟩ : Interval ℕ).intersect ⟨2, true, 5, false⟩
          ((⟨1, true, 3, true⟩ : Interval ℕ).compare ⟨2, true, 5, false⟩) = .ok c ∧
        ∀ x, c.Contains 1 x ↔ (⟨1, true, 3, true⟩ : Interval ℕ).Contains 1 x ∧
          (⟨2, true, 5, false⟩ : Interval ℕ).Contains 1 x) ∧
      ∃ c, (⟨1, true, 3, true⟩ : Interval ℕ).combine ⟨2, true, 5, false⟩
          ((⟨1, true, 3, true⟩ : Interval ℕ).compare ⟨2, true, 5, false⟩) = .ok c ∧
        ∀ x, c.Contains 1 x ↔ (⟨1, true, 3, true⟩ : Interval ℕ).Contains 1 x ∨
          (⟨2, true, 5, false⟩ : Interval ℕ).Contains 1 x) ∧
    ((⟨1, true, 3, true⟩ : Interval ℕ).compare ⟨2, true, 5, false⟩ = .precedesCouldUnion →
      ∀ x, (makeRangeInterval 1 5 true false).Contains 1 x ↔
        (⟨1, true, 3, true⟩ : Interval ℕ).Contains 1 x ∨
          (⟨2, true, 5, false⟩ : Interval ℕ).Contains 1 x) ∧
    ((⟨1, true, 3, true⟩ : Interval ℕ).compare ⟨2, true, 5, false⟩ = .equals →
      ∀ x, (⟨1, true, 3, true⟩ : Interval ℕ).Contains 1 x ↔
        (⟨2, true, 5, false⟩ : Interval ℕ).Contains 1 x) ∧
    ((⟨1, true, 3, true⟩ : Interval ℕ).compare ⟨2, true, 5, false⟩ = .within →
      ∀ x, (⟨1, true, 3, true⟩ : Interval ℕ).Contains 1 x →
        (⟨2, true, 5, false⟩ : Interval ℕ).Contains 1 x) ∧
    ((⟨1, true, 3, true⟩ : Interval ℕ).compare ⟨2, true, 5, false⟩ = .contains →
      ∀ x, (⟨2, true, 5, false⟩ : Interval ℕ).Contains 1 x →
        (⟨1, true, 3, true⟩ : Interval ℕ).Contains 1 x) :=
  ⟨by decide, compare_pointSet_semantics ⟨1, true, 3, true⟩ ⟨2, true, 5, false⟩ (by decide)⟩

/-- `[false, true)` and `[false, false]` hold the same boolean, `false`, and no value lies
between `false` and `true`; yet `compare` answers `contains`, not `equals`. -/
theorem compare_contains_of_same_points :
    (∀ x : Bool, (⟨false, true, true, false⟩ : Interval Bool).Contains 1 x ↔
        (⟨false, true, false, true⟩ : Interval Bool).Contains 1 x) ∧
      (⟨false, true, true, false⟩ : Interval Bool).compare ⟨false, true, false, true⟩ =
        .contains := by
  refine ⟨fun x => ?_, by decide⟩
  cases x <;> simp [contains_one_iff, lo, hi, lower_lt_point, point_lt_upper]

end Interval

/-! ## Canonical interval lists -/

/-- An interval list as `intersectize` and `complement` take it: non-null intervals, sorted by
`IntervalComparison`, no two intersecting. -/
structure Canonical (l : List (Interval V)) : Prop where
  nonNull : ∀ interval ∈ l, interval.NonNull
  sorted : l.Pairwise fun a b => intervalComparison b a = false
  disjoint : l.Pairwise fun a b => a.intersects b = false

instance (l : List (Interval V)) : Decidable (Canonical l) :=
  decidable_of_iff ((∀ interval ∈ l, interval.NonNull) ∧
      (l.Pairwise fun a b => intervalComparison b a = false) ∧
      l.Pairwise fun a b => a.intersects b = false)
    ⟨fun ⟨h₁, h₂, h₃⟩ => ⟨h₁, h₂, h₃⟩, fun ⟨h₁, h₂, h₃⟩ => ⟨h₁, h₂, h₃⟩⟩

/-- The tagged form of `Canonical`: each interval's ends are in order, and each interval ends at
or before any later one starts. -/
def Separated (l : List (Interval V)) : Prop :=
  (∀ interval ∈ l, interval.lo < interval.hi) ∧ l.Pairwise fun a b => a.hi ≤ b.lo

/-- Two non-null intervals in sorted order that do not intersect: the first ends before the
second starts. -/
private theorem sorted_disjoint_iff {a b : Interval V} (ha : a.lo < a.hi) (hb : b.lo < b.hi) :
    (intervalComparison b a = false ∧ a.intersects b = false) ↔ a.hi ≤ b.lo := by
  rw [intervalComparison_eq_false_iff, ← Bool.not_eq_true, Interval.intersects_iff]
  constructor
  · rintro ⟨hsorted, hdisj⟩
    exact le_of_not_gt fun h => hdisj ⟨by order, h⟩
  · intro h
    exact ⟨by order, fun hab => by order⟩

theorem canonical_iff_separated {l : List (Interval V)} : Canonical l ↔ Separated l := by
  have hnn : (∀ interval ∈ l, interval.NonNull) ↔ ∀ interval ∈ l, interval.lo < interval.hi :=
    forall₂_congr fun _ _ => Interval.nonNull_iff
  constructor
  · rintro ⟨hnonNull, hsorted, hdisj⟩
    have hlt := hnn.mp hnonNull
    refine ⟨hlt, (hsorted.and hdisj).imp_of_mem fun ha hb h => ?_⟩
    exact (sorted_disjoint_iff (hlt _ ha) (hlt _ hb)).mp h
  · rintro ⟨hlt, hsep⟩
    have hboth := hsep.imp_of_mem fun ha hb h =>
      (sorted_disjoint_iff (hlt _ ha) (hlt _ hb)).mpr h
    exact ⟨hnn.mpr hlt, hboth.imp And.left, hboth.imp And.right⟩

namespace Separated

variable {a : Interval V} {l : List (Interval V)}

theorem nil : Separated ([] : List (Interval V)) :=
  ⟨by simp, List.Pairwise.nil⟩

theorem cons_iff :
    Separated (a :: l) ↔ a.lo < a.hi ∧ (∀ b ∈ l, a.hi ≤ b.lo) ∧ Separated l := by
  simp only [Separated, List.mem_cons, forall_eq_or_imp, List.pairwise_cons]
  tauto

theorem tail (h : Separated (a :: l)) : Separated l :=
  (cons_iff.mp h).2.2

/-- A value below the start of the first interval of a separated list lies in none of them. -/
theorem not_contains_of_lt_lo (h : Separated (a :: l)) {x : V}
    (hx : point x < a.lo) : ¬ ∃ b ∈ a :: l, b.Contains 1 x := by
  rintro ⟨b, hb, hxb⟩
  rw [Interval.contains_one_iff] at hxb
  rcases List.mem_cons.mp hb with rfl | hb
  · exact absurd hxb.1 (lt_asymm hx)
  · obtain ⟨halt, hle, -⟩ := cons_iff.mp h
    have := hle b hb
    exact absurd hxb.1 (by order)

end Separated

end Mongo
