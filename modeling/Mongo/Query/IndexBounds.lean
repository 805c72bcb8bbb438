import Mathlib

/-!
# Intervals and index bounds

The query planner describes the keys a query can match, one field at a time: an `Interval` of
values (`db/query/interval.h`), an `OrderedIntervalList` of intervals per field, and the
`IndexBounds` of a whole compound key (`db/query/index_bounds.h`).  Field values are any linear
order `V`; `woCompare(other, false)` is `compare`, and the code only ever takes its sign.

An interval's endpoints are ordered along a direction: `intervalCmp interval key d` places
`key` behind, within or ahead of `interval` read in direction `d`.  What "`key` lies in
`interval`" means is that function's `within` answer, so the proofs use no other membership.

* `intervalCmp_within_iff` — for the ascending direction, `within` is the usual open/closed
  range test.
* `OrderedIntervalList.within_front_back` — in a list valid for the ascending direction, a key
  within any interval lies between the first start and the last end.

`OrderedIntervalList.complement` scans the values from `MinKey` to `MaxKey`, the least and the
greatest of a bounded order, and keeps the gaps between the intervals.  The endpoints the
planner builds all carry the empty field name, so the field-name comparison of
`BSONElement::woCompare` never decides and comparing values is enough.
-/

namespace Mongo

variable {V : Type} [LinearOrder V]

/-- `sgn(a.woCompare(b, false))`. -/
def woCompareSign (a b : V) : Int :=
  match compare a b with
  | .lt => -1
  | .eq => 0
  | .gt => 1

@[simp] theorem woCompareSign_eq_zero {a b : V} : woCompareSign a b = 0 ↔ a = b := by
  unfold woCompareSign
  rcases lt_trichotomy a b with h | rfl | h
  · simp [compare_lt_iff_lt.mpr h, ne_of_lt h]
  · simp
  · simp [compare_gt_iff_gt.mpr h, ne_of_gt h]

@[simp] theorem woCompareSign_eq_one {a b : V} : woCompareSign a b = 1 ↔ b < a := by
  unfold woCompareSign
  rcases lt_trichotomy a b with h | rfl | h
  · simp [compare_lt_iff_lt.mpr h, not_lt_of_gt h]
  · simp
  · simp [compare_gt_iff_gt.mpr h, h]

@[simp] theorem woCompareSign_eq_neg_one {a b : V} : woCompareSign a b = -1 ↔ a < b := by
  unfold woCompareSign
  rcases lt_trichotomy a b with h | rfl | h
  · simp [compare_lt_iff_lt.mpr h, h]
  · simp
  · simp [compare_gt_iff_gt.mpr h, not_lt_of_gt h]

/-! ## Intervals -/

/-- An `Interval`: a range of values for one field, from `start` to `end`, each end open or
closed.  The endpoints are ordered along the index direction.  `end` is a Lean keyword, so the
field is `end_`. -/
structure Interval (V : Type) where
  start : V
  startInclusive : Bool
  end_ : V
  endInclusive : Bool
  deriving DecidableEq, Repr

namespace Interval

/-- `isPoint()`: both ends closed and equal. -/
def isPoint (interval : Interval V) : Bool :=
  interval.startInclusive && interval.endInclusive &&
    woCompareSign interval.start interval.end_ == 0

theorem isPoint_iff {interval : Interval V} :
    interval.isPoint = true ↔
      interval.startInclusive = true ∧ interval.endInclusive = true ∧
        interval.start = interval.end_ := by
  simp [isPoint, and_assoc]

end Interval

/-- `IndexBoundsChecker::Location`: where a key lies with respect to an interval, read along the
scan direction. -/
inductive Location
  | behind
  | within
  | ahead
  deriving DecidableEq, Repr

/-- `intervalCmp(interval, key, expectedDirection)`: `behind` if `key` fails the start test,
`ahead` if it passes that but fails the end test, `within` otherwise. -/
def intervalCmp (interval : Interval V) (key : V) (expectedDirection : Int) : Location :=
  let cmp := woCompareSign key interval.start
  let startOK := cmp == expectedDirection || (cmp == 0 && interval.startInclusive)
  if !startOK then .behind
  else
    let cmp := woCompareSign key interval.end_
    let endOK := cmp == -expectedDirection || (cmp == 0 && interval.endInclusive)
    if !endOK then .ahead else .within

private theorem location_within_iff (startOK endOK : Bool) :
    (if !startOK then Location.behind else if !endOK then .ahead else .within) = .within ↔
      startOK = true ∧ endOK = true := by
  cases startOK <;> cases endOK <;> decide

/-- **Membership in an ascending interval.** -/
theorem intervalCmp_within_iff {interval : Interval V} {key : V} :
    intervalCmp interval key 1 = .within ↔
      (interval.start < key ∨ interval.startInclusive = true ∧ key = interval.start) ∧
        (key < interval.end_ ∨ interval.endInclusive = true ∧ key = interval.end_) := by
  have hstart : ∀ s si, (woCompareSign key s == 1 || (woCompareSign key s == 0 && si)) = true ↔
      s < key ∨ si = true ∧ key = s := by
    intro s si
    simp [and_comm]
  have hend : ∀ e ei, (woCompareSign key e == -1 || (woCompareSign key e == 0 && ei)) = true ↔
      key < e ∨ ei = true ∧ key = e := by
    intro e ei
    simp [and_comm]
  unfold intervalCmp
  simp only [Int.reduceNeg]
  rw [location_within_iff, hstart, hend]

/-- A key within an ascending interval lies between its endpoints. -/
theorem start_le_of_within {interval : Interval V} {key : V}
    (h : intervalCmp interval key 1 = .within) : interval.start ≤ key ∧ key ≤ interval.end_ := by
  obtain ⟨hs, he⟩ := intervalCmp_within_iff.mp h
  constructor
  · rcases hs with hs | ⟨-, rfl⟩
    · exact le_of_lt hs
    · exact le_refl _
  · rcases he with he | ⟨-, rfl⟩
    · exact le_of_lt he
    · exact le_refl _

/-! ## Ordered interval lists and index bounds -/

/-- An `OrderedIntervalList`: the intervals one field may take, in index order, and the field's
name. -/
structure OrderedIntervalList (V : Type) where
  intervals : List (Interval V)
  name : String
  deriving DecidableEq, Repr

/-- `IndexBounds`, for bounds that are not a simple range: one interval list per key field. -/
structure IndexBounds (V : Type) where
  fields : List (OrderedIntervalList V)
  deriving DecidableEq, Repr

namespace OrderedIntervalList

/-- `OrderedIntervalList::isValidFor(expectedOrientation)`: every interval is oriented along
`expectedOrientation` (or is a closed point), and every interval starts at or after the end of
the one before it, read along the same orientation. -/
def isValidFor (oil : OrderedIntervalList V) (expectedOrientation : Int) : Bool :=
  oil.intervals.all (fun interval =>
      let cmp := woCompareSign interval.end_ interval.start
      (cmp == 0 && interval.startInclusive && interval.endInclusive) ||
        cmp == expectedOrientation) &&
    (oil.intervals.zip oil.intervals.tail).all fun (prev, next) =>
      let cmp := woCompareSign next.start prev.end_
      cmp == 0 || cmp == expectedOrientation

/-- The shape of a list valid for the ascending direction: each interval is ordered, and each
starts at or after the end of the one before. -/
theorem isValidFor_one {oil : OrderedIntervalList V} (h : oil.isValidFor 1 = true) :
    (∀ interval ∈ oil.intervals, interval.start ≤ interval.end_) ∧
      oil.intervals.IsChain fun prev next => prev.end_ ≤ next.start := by
  obtain ⟨hall, hnext⟩ := Bool.and_eq_true_iff.mp h
  refine ⟨fun interval hi => ?_, ?_⟩
  · have hi' := List.all_eq_true.mp hall interval hi
    simp only [Bool.or_eq_true, Bool.and_eq_true, beq_iff_eq, woCompareSign_eq_zero,
      woCompareSign_eq_one] at hi'
    rcases hi' with ⟨⟨heq, -⟩, -⟩ | hlt
    · exact le_of_eq heq.symm
    · exact le_of_lt hlt
  · generalize oil.intervals = l at hnext
    induction l with
    | nil => exact List.IsChain.nil
    | cons a l ih =>
        cases l with
        | nil => exact List.IsChain.singleton a
        | cons b l =>
            rw [List.tail_cons, List.zip_cons_cons, List.all_cons, Bool.and_eq_true] at hnext
            refine List.isChain_cons_cons.mpr ⟨?_, ih hnext.2⟩
            have hab := hnext.1
            simp only [Bool.or_eq_true, beq_iff_eq, woCompareSign_eq_zero,
              woCompareSign_eq_one] at hab
            rcases hab with heq | hlt
            · exact le_of_eq heq.symm
            · exact le_of_lt hlt

/-- Along an ascending chain of ordered intervals, the first start is the least start. -/
theorem head_start_le {l : List (Interval V)} (hord : ∀ i ∈ l, i.start ≤ i.end_)
    (hchain : l.IsChain fun prev next => prev.end_ ≤ next.start) (hne : l ≠ []) :
    ∀ i ∈ l, (l.head hne).start ≤ i.start := by
  induction l with
  | nil => exact absurd rfl hne
  | cons a l ih =>
      intro i hi
      rcases List.mem_cons.mp hi with rfl | hi
      · exact le_refl _
      · cases l with
        | nil => simp at hi
        | cons b l =>
            obtain ⟨hab, hrest⟩ := List.isChain_cons_cons.mp hchain
            have hb := ih (fun j hj => hord j (List.mem_cons_of_mem a hj)) hrest
              (List.cons_ne_nil b l) i hi
            calc a.start ≤ a.end_ := hord a (List.mem_cons_self ..)
              _ ≤ b.start := hab
              _ ≤ i.start := hb

/-- Along an ascending chain of ordered intervals, the last end is the greatest end. -/
theorem end_le_getLast {l : List (Interval V)} (hord : ∀ i ∈ l, i.start ≤ i.end_)
    (hchain : l.IsChain fun prev next => prev.end_ ≤ next.start) (hne : l ≠ []) :
    ∀ i ∈ l, i.end_ ≤ (l.getLast hne).end_ := by
  induction l with
  | nil => exact absurd rfl hne
  | cons a l ih =>
      intro i hi
      cases l with
      | nil =>
          rw [List.mem_singleton.mp hi]
          exact le_refl _
      | cons b l =>
          obtain ⟨hab, hrest⟩ := List.isChain_cons_cons.mp hchain
          have ih' := ih (fun j hj => hord j (List.mem_cons_of_mem a hj)) hrest
            (List.cons_ne_nil b l)
          rw [List.getLast_cons (List.cons_ne_nil b l)]
          rcases List.mem_cons.mp hi with rfl | hi
          · calc i.end_ ≤ b.start := hab
              _ ≤ b.end_ := hord b (List.mem_cons_of_mem _ (List.mem_cons_self ..))
              _ ≤ _ := ih' b (List.mem_cons_self ..)
          · exact ih' i hi

/-- **Every key within some interval of an ascending list lies between the first start and the
last end.** -/
theorem within_front_back {oil : OrderedIntervalList V} (h : oil.isValidFor 1 = true)
    (hne : oil.intervals ≠ []) {key : V}
    (hkey : ∃ interval ∈ oil.intervals, intervalCmp interval key 1 = .within) :
    (oil.intervals.head hne).start ≤ key ∧ key ≤ (oil.intervals.getLast hne).end_ := by
  obtain ⟨hord, hchain⟩ := isValidFor_one h
  obtain ⟨interval, hi, hwithin⟩ := hkey
  obtain ⟨hs, he⟩ := start_le_of_within hwithin
  exact ⟨le_trans (head_start_le hord hchain hne interval hi) hs,
    le_trans he (end_le_getLast hord hchain hne interval hi)⟩

/-! ## Complement -/

section Complement

/-! BSON values run from `MinKey`, the least, to `MaxKey`, the greatest: `⊥` and `⊤`. -/

variable [BoundedOrder V]

/-- The loop of `OrderedIntervalList::complement` from `intervals[j]` on, with `curBoundary` and
`curInclusive` as the intervals before left them: the gaps it pushes onto `newIntervals`, then
the final interval that ends in `MaxKey`. -/
def complementFrom (curBoundary : V) (curInclusive : Bool) :
    List (Interval V) → List (Interval V)
  | [] =>
      -- we may have to add a final interval which ends in MaxKey
      if woCompareSign (⊤ : V) curBoundary != 0 || !curInclusive then
        [⟨curBoundary, !curInclusive, ⊤, true⟩]
      else []
  | curInt :: intervals =>
      -- a new interval from curBoundary to the start of curInt
      let gap : List (Interval V) :=
        if woCompareSign curInt.start curBoundary != 0 ||
            (!curInclusive && !curInt.startInclusive) then
          [⟨curBoundary, !curInclusive, curInt.start, !curInt.startInclusive⟩]
        else []
      gap ++ complementFrom curInt.end_ curInt.endInclusive intervals

/-- `OrderedIntervalList::complement()`: the scan starts at `MinKey`, which no interval has
covered yet. -/
def complement (oil : OrderedIntervalList V) : OrderedIntervalList V :=
  { oil with intervals := complementFrom ⊥ false oil.intervals }

end Complement

end OrderedIntervalList

end Mongo
