import Mathlib
import Mongo.Lib.Except
import Mongo.Lib.DirLex
import Mongo.Query.IntervalSpec
import Mongo.Query.IndexBoundsChecker

/-!
# The index bounds checker skips no key in the bounds

A key lies in the bounds when each of its fields lies in an interval of that field's list
(`InBounds`).  Keys are read in scan order, the lexicographic order with each field read along
its direction (`LexLt`), and a key is before a seek point when it is before the query object
that `makeQueryObject` builds from it (`BeforeBound`).  `KeyStateSound` states what each
answer of `checkKey` promises: `VALID` exactly for keys in the bounds; with `MUST_ADVANCE`, no
key after this one and before the seek point is in the bounds; with `DONE`, no key after this
one is.

* `checkKey_sound` — from any cursor that points at an interval of every field, `checkKey`
  answers soundly and leaves such a cursor;
* `checkKeys_sound` — so does every run of `checkKey` over any sequence of keys, in order or
  not.

The bounds are taken valid for the key pattern and with an interval in every field
(`CheckerBounds`); an index scan checks the second with `getStartSeekPoint` before it asks about
any key.  The argument goes field by field: the cursor of a field behind its current interval
is moved back to the first one, so a key before that interval's start lies in none of them
(`not_inField_of_not_startOK`); a field ahead of every interval stays so for all later values
(`not_inField_of_ahead`); and a field at the closed end of its last interval has nothing after
it (`not_inField_of_end_dirLt`).
-/

namespace Mongo

open DirLex Mongo.Interval

variable {V : Type} [LinearOrder V]

/-! ## What the bounds contain -/

/-- The value `x` of field `i` lies in an interval of the field, read along its direction. -/
def InField (bounds : IndexBounds V) (ds : List ℤ) (i : ℕ) (x : V) : Prop :=
  ∃ oil d, bounds.fields[i]? = some oil ∧ ds[i]? = some d ∧
    ∃ interval ∈ oil.intervals, interval.Contains d x

/-- The key lies in the bounds: one value per field, each in an interval of its field. -/
def InBounds (bounds : IndexBounds V) (ds : List ℤ) (key : List V) : Prop :=
  key.length = bounds.fields.length ∧ ∀ i x, key[i]? = some x → InField bounds ds i x

/-- What `checkKey` promises about the key it answers for: `VALID` exactly for keys in the
bounds; with `MUST_ADVANCE`, a well-formed seek point before which no key after this one is in
the bounds; with `DONE`, no key after this one is in the bounds. -/
def KeyStateSound (bounds : IndexBounds V) (ds : List ℤ) (key : List V) : KeyState V → Prop
  | .valid => InBounds bounds ds key
  | .mustAdvance seekPoint =>
      ¬ InBounds bounds ds key ∧ ∃ query, seekPoint.makeQueryObject = some query ∧
        ∀ key', LexLt ds key key' → BeforeBound ds key' query → ¬ InBounds bounds ds key'
  | .done => ¬ InBounds bounds ds key ∧ ∀ key', LexLt ds key key' → ¬ InBounds bounds ds key'

/-- A `MUST_ADVANCE` moves the scan on: the key it answers for lies before its seek point, so the
seek lands past that key. -/
def KeyStateAdvances (ds : List ℤ) (key : List V) : KeyState V → Prop
  | .mustAdvance seekPoint =>
      ∀ query, seekPoint.makeQueryObject = some query → BeforeBound ds key query
  | .valid | .done => True

/-- Bounds a checker can run over, with each field's direction along the scan: one direction
per field, each interval list valid for its field's direction, and an interval in every
field. -/
structure CheckerBounds (bounds : IndexBounds V) (ds : List ℤ) : Prop where
  ne_nil : bounds.fields ≠ []
  length_eq : ds.length = bounds.fields.length
  isDir : ∀ (i : ℕ) (d : ℤ), ds[i]? = some d → IsDir d
  validFor : ∀ (i : ℕ) (oil : OrderedIntervalList V) (d : ℤ), bounds.fields[i]? = some oil →
    ds[i]? = some d → ValidFor d oil.intervals
  intervals_ne_nil : ∀ oil ∈ bounds.fields, oil.intervals ≠ []

/-- The cursor points at an interval of every field. -/
structure CursorOK (bounds : IndexBounds V) (cur : List ℕ) : Prop where
  length_eq : cur.length = bounds.fields.length
  lt : ∀ (i : ℕ) (oil : OrderedIntervalList V) (m : ℕ), bounds.fields[i]? = some oil →
    cur[i]? = some m → m < oil.intervals.length

/-- The interval field `i`'s cursor points at. -/
def cursorInterval? (bounds : IndexBounds V) (cur : List ℕ) (i : ℕ) : Option (Interval V) := do
  let oil ← bounds.fields[i]?
  let m ← cur[i]?
  oil.intervals[m]?

variable {bounds : IndexBounds V} {ds : List ℤ} {cur : List ℕ} {key : List V}

theorem not_inBounds_of_not_inField {i : ℕ} {x : V} (hx : key[i]? = some x)
    (h : ¬ InField bounds ds i x) : ¬ InBounds bounds ds key :=
  fun hin => h (hin.2 i x hx)

theorem elemAt_eq_ok {α : Type} {v : List α} {i : ℕ} {a : α} :
    elemAt v i = .ok a ↔ v[i]? = some a := by
  unfold elemAt
  split <;> simp_all

theorem elemAt_of_getElem? {α : Type} {v : List α} {i : ℕ} {a : α} (h : v[i]? = some a) :
    elemAt v i = .ok a :=
  elemAt_eq_ok.mpr h

omit [LinearOrder V] in
theorem cursorInterval?_eq_some {i : ℕ} {interval : Interval V} :
    cursorInterval? bounds cur i = some interval ↔
      ∃ oil m, bounds.fields[i]? = some oil ∧ cur[i]? = some m ∧
        oil.intervals[m]? = some interval := by
  simp [cursorInterval?, Option.bind_eq_some_iff]

/-! ## Each field, along its direction -/

section Field

variable {i : ℕ} {oil : OrderedIntervalList V} {d : ℤ}

theorem CheckerBounds.exists_field (hb : CheckerBounds bounds ds) (hi : i < bounds.fields.length) :
    ∃ oil d, bounds.fields[i]? = some oil ∧ ds[i]? = some d ∧ IsDir d ∧
      ValidFor d oil.intervals ∧ oil.intervals ≠ [] := by
  have hoil : bounds.fields[i]? = some bounds.fields[i] := List.getElem?_eq_getElem hi
  have hdi : i < ds.length := by rw [hb.length_eq]; exact hi
  have hd : ds[i]? = some ds[i] := List.getElem?_eq_getElem hdi
  exact ⟨_, _, hoil, hd, hb.isDir i _ hd, hb.validFor i _ _ hoil hd,
    hb.intervals_ne_nil _ (List.mem_of_getElem? hoil)⟩

omit [LinearOrder V] in
theorem CursorOK.exists_interval (hc : CursorOK bounds cur) (hi : i < bounds.fields.length) :
    ∃ interval, cursorInterval? bounds cur i = some interval := by
  have hci : i < cur.length := by rw [hc.length_eq]; exact hi
  have hoil : bounds.fields[i]? = some bounds.fields[i] := List.getElem?_eq_getElem hi
  have hm : cur[i]? = some cur[i] := List.getElem?_eq_getElem hci
  have hlt := hc.lt i _ _ hoil hm
  exact ⟨_, cursorInterval?_eq_some.mpr ⟨_, _, hoil, hm, List.getElem?_eq_getElem hlt⟩⟩

theorem inField_iff (hoil : bounds.fields[i]? = some oil) (hd : ds[i]? = some d) {y : V} :
    InField bounds ds i y ↔ ∃ interval ∈ oil.intervals, interval.Contains d y := by
  simp [InField, hoil, hd]

/-- **A value of a field past a failed start test, and in no earlier interval, is in none.** -/
theorem not_inField_of_not_startOK (hb : CheckerBounds bounds ds)
    (hoil : bounds.fields[i]? = some oil) (hd : ds[i]? = some d) {m : ℕ} {interval : Interval V}
    (hm : oil.intervals[m]? = some interval) {y : V}
    (hearlier : ∀ m' < m, ∀ interval', oil.intervals[m']? = some interval' →
      ¬ interval'.Contains d y)
    (hy : ¬ StartOK d interval y) : ¬ InField bounds ds i y := by
  rw [inField_iff hoil hd]
  rintro ⟨interval', hmem, hc⟩
  obtain ⟨m', hm', rfl⟩ := List.mem_iff_getElem.mp hmem
  obtain ⟨hmlt, rfl⟩ := List.getElem?_eq_some_iff.mp hm
  by_cases hlt : m' < m
  · exact hearlier m' hlt _ (List.getElem?_eq_getElem hm') hc
  · exact (hb.validFor i oil d hoil hd).not_contains_of_not_startOK hmlt hm' (by omega) hy hc

/-- A value of a field not before one ahead of every interval is in none. -/
theorem not_inField_of_ahead (hb : CheckerBounds bounds ds)
    (hoil : bounds.fields[i]? = some oil) (hd : ds[i]? = some d) {x y : V}
    (hall : ∀ interval ∈ oil.intervals, intervalCmp interval x d = .ahead) (hxy : DirLe d x y) :
    ¬ InField bounds ds i y := by
  rw [inField_iff hoil hd]
  rintro ⟨interval, hmem, hc⟩
  exact not_contains_of_ahead (hb.isDir i d hd) (hall interval hmem) hxy hc

/-- A value of a field not before one behind the interval the binary search found, and past
every earlier one, is in none if it fails that interval's start test. -/
theorem not_inField_of_behind (hb : CheckerBounds bounds ds)
    (hoil : bounds.fields[i]? = some oil) (hd : ds[i]? = some d) {m : ℕ} {interval : Interval V}
    (hm : oil.intervals[m]? = some interval) {x y : V}
    (hearlier : ∀ m' < m, ∀ interval', oil.intervals[m']? = some interval' →
      intervalCmp interval' x d = .ahead)
    (hxy : DirLe d x y) (hy : ¬ StartOK d interval y) : ¬ InField bounds ds i y :=
  not_inField_of_not_startOK hb hoil hd hm
    (fun m' hm' interval' hi' => not_contains_of_ahead (hb.isDir i d hd) (hearlier m' hm' interval' hi') hxy)
    hy

/-- A value of a field past the end of its last interval is in none. -/
theorem not_inField_of_end_dirLt (hb : CheckerBounds bounds ds)
    (hoil : bounds.fields[i]? = some oil) (hd : ds[i]? = some d) {m : ℕ} {interval : Interval V}
    (hm : oil.intervals[m]? = some interval) (hlast : m + 1 = oil.intervals.length) {y : V}
    (hy : DirLt d interval.end_ y) : ¬ InField bounds ds i y := by
  rw [inField_iff hoil hd]
  rintro ⟨interval', hmem, hc⟩
  obtain ⟨hmlt, rfl⟩ := List.getElem?_eq_some_iff.mp hm
  exact (hb.validFor i oil d hoil hd).not_contains_of_end_dirLt hmlt hlast hy interval' hmem hc

end Field

/-! ## One spec per routine -/

section Routines

variable {c : IndexBoundsChecker V}

theorem currentLocation_eq_ok_iff {i : ℕ} {loc : Location} :
    c.currentLocation key i = .ok loc ↔
      ∃ interval x d, cursorInterval? c.bounds c.curInterval i = some interval ∧
        key[i]? = some x ∧ c.expectedDirection[i]? = some d ∧ intervalCmp interval x d = loc := by
  simp only [IndexBoundsChecker.currentLocation, Except.bind_eq_ok, elemAt_eq_ok,
    cursorInterval?_eq_some, Except.pure_eq_ok, Except.ok.injEq]
  constructor
  · rintro ⟨oil, hoil, m, hm, interval, hi, x, hx, d, hd, rfl⟩
    exact ⟨interval, x, d, ⟨oil, m, hoil, hm, hi⟩, hx, hd, rfl⟩
  · rintro ⟨interval, x, d, ⟨oil, m, hoil, hm, hi⟩, hx, hd, rfl⟩
    exact ⟨oil, hoil, m, hm, interval, hi, x, hx, d, hd, rfl⟩

/-- The location of a field depends on the cursor only through that field's entry. -/
theorem currentLocation_congr {bounds : IndexBounds V} {cur cur' : List ℕ} {i : ℕ}
    (h : cur[i]? = cur'[i]?) :
    IndexBoundsChecker.currentLocation ⟨bounds, cur, ds⟩ key i =
      IndexBoundsChecker.currentLocation ⟨bounds, cur', ds⟩ key i := by
  simp only [IndexBoundsChecker.currentLocation, elemAt, h]

theorem currentLocation_exists (hb : CheckerBounds bounds ds) (hc : CursorOK bounds cur)
    (hk : key.length = bounds.fields.length) {i : ℕ} (hi : i < bounds.fields.length) :
    ∃ loc, IndexBoundsChecker.currentLocation ⟨bounds, cur, ds⟩ key i = .ok loc := by
  obtain ⟨interval, hinterval⟩ := hc.exists_interval hi
  obtain ⟨oil, d, -, hd, -⟩ := hb.exists_field hi
  have hx : key[i]? = some key[i] := List.getElem?_eq_getElem (by omega)
  exact ⟨_, currentLocation_eq_ok_iff.mpr ⟨interval, _, d, hinterval, hx, hd, rfl⟩⟩

/-- A field within the interval its cursor points at is in the bounds. -/
theorem inField_of_within (hb : CheckerBounds bounds ds) {i : ℕ} {x : V}
    (h : IndexBoundsChecker.currentLocation ⟨bounds, cur, ds⟩ key i = .ok .within)
    (hx : key[i]? = some x) : InField bounds ds i x := by
  obtain ⟨interval, x', d, hinterval, hx', hd, hcmp⟩ := currentLocation_eq_ok_iff.mp h
  rw [hx] at hx'
  cases hx'
  obtain ⟨oil, m, hoil, -, hm⟩ := cursorInterval?_eq_some.mp hinterval
  exact ⟨oil, d, hoil, hd, interval, List.mem_of_getElem? hm,
    (intervalCmp_eq_within_iff (hb.isDir i d hd)).mp hcmp⟩

theorem inBounds_of_within (hb : CheckerBounds bounds ds) (hk : key.length = bounds.fields.length)
    (h : ∀ i < bounds.fields.length,
      IndexBoundsChecker.currentLocation ⟨bounds, cur, ds⟩ key i = .ok .within) :
    InBounds bounds ds key := by
  refine ⟨hk, fun i x hx => inField_of_within hb (h i ?_) hx⟩
  rw [← hk]
  exact (List.getElem?_eq_some_iff.mp hx).1

/-- What `findLeftmostProblem` reports about the fields `[lo, hi)`: every one within its current
interval, or the first that is not and where it lies. -/
def LeftmostProblem (c : IndexBoundsChecker V) (key : List V) (lo hi : ℕ) :
    Option (ℕ × Location) → Prop
  | none => ∀ j, lo ≤ j → j < hi → c.currentLocation key j = .ok .within
  | some (i, loc) => lo ≤ i ∧ i < hi ∧ loc ≠ .within ∧ c.currentLocation key i = .ok loc ∧
      ∀ j, lo ≤ j → j < i → c.currentLocation key j = .ok .within

theorem findLeftmostProblemFrom_spec :
    ∀ (count i : ℕ), (∀ j, i ≤ j → j < i + count → ∃ loc, c.currentLocation key j = .ok loc) →
      ∃ r, c.findLeftmostProblemFrom key count i = .ok r ∧
        LeftmostProblem c key i (i + count) r
  | 0, i, _ => ⟨none, rfl, fun j h₁ h₂ => absurd h₂ (by omega)⟩
  | count + 1, i, hdefined => by
      obtain ⟨loc, hloc⟩ := hdefined i le_rfl (by omega)
      by_cases hw : loc = .within
      · subst hw
        obtain ⟨r, hr, hspec⟩ := findLeftmostProblemFrom_spec count (i + 1) fun j h₁ h₂ =>
          hdefined j (by omega) (by omega)
        refine ⟨r, by simp [IndexBoundsChecker.findLeftmostProblemFrom, hloc, hr], ?_⟩
        cases r with
        | none =>
            intro j h₁ h₂
            rcases Nat.lt_or_ge j (i + 1) with hj | hj
            · rw [show j = i by omega]
              exact hloc
            · exact hspec j hj (by omega)
        | some p =>
            obtain ⟨i', loc'⟩ := p
            obtain ⟨h₁, h₂, hne, hloc', hbefore⟩ := hspec
            refine ⟨by omega, by omega, hne, hloc', fun j hj₁ hj₂ => ?_⟩
            rcases Nat.lt_or_ge j (i + 1) with hj | hj
            · rw [show j = i by omega]
              exact hloc
            · exact hbefore j hj hj₂
      · refine ⟨some (i, loc), ?_, le_rfl, by omega, hw, hloc, fun j h₁ h₂ => absurd h₂ (by omega)⟩
        simp [IndexBoundsChecker.findLeftmostProblemFrom, hloc, hw]

/-- Field `j` of the key sits at the closed end of the last interval of the field, the one case
in which `spaceLeftToAdvance` goes on past it. -/
def AtLastEnd (c : IndexBoundsChecker V) (key : List V) (j : ℕ) : Prop :=
  ∃ oil m interval x d, c.bounds.fields[j]? = some oil ∧ c.curInterval[j]? = some m ∧
    m + 1 = oil.intervals.length ∧ oil.intervals[m]? = some interval ∧
    interval.endInclusive = true ∧ key[j]? = some x ∧ c.expectedDirection[j]? = some d ∧
    -d ≠ woCompareSign x interval.end_

theorem spaceLeftToAdvanceFrom_spec :
    ∀ (count i : ℕ), (∀ j, i ≤ j → j < i + count → ∃ loc, c.currentLocation key j = .ok loc) →
      ∃ b, c.spaceLeftToAdvanceFrom key count i = .ok b ∧
        (b = false → ∀ j, i ≤ j → j < i + count → AtLastEnd c key j)
  | 0, i, _ => ⟨false, rfl, fun _ j h₁ h₂ => absurd h₂ (by omega)⟩
  | count + 1, i, hdefined => by
      obtain ⟨loc, hloc⟩ := hdefined i le_rfl (by omega)
      obtain ⟨interval, x, d, hinterval, hx, hd, -⟩ := currentLocation_eq_ok_iff.mp hloc
      obtain ⟨oil, m, hoil, hm, hi⟩ := cursorInterval?_eq_some.mp hinterval
      obtain ⟨b, hb, hspec⟩ := spaceLeftToAdvanceFrom_spec count (i + 1) fun j h₁ h₂ =>
        hdefined j (by omega) (by omega)
      simp only [IndexBoundsChecker.spaceLeftToAdvanceFrom, elemAt_of_getElem? hoil,
        elemAt_of_getElem? hm, elemAt_of_getElem? hi, elemAt_of_getElem? hx,
        elemAt_of_getElem? hd, Except.ok_bind]
      by_cases hlast : m + 1 = oil.intervals.length
      · by_cases hincl : interval.endInclusive = true
        · by_cases hbefore : -d = woCompareSign x interval.end_
          · refine ⟨true, by simp [hlast, hincl, hbefore], fun h => by cases h⟩
          · refine ⟨b, by simp [hlast, hincl, hbefore, hb], fun hfalse j h₁ h₂ => ?_⟩
            rcases Nat.lt_or_ge j (i + 1) with hj | hj
            · rw [show j = i by omega]
              exact ⟨oil, m, interval, x, d, hoil, hm, hlast, hi, hincl, hx, hd, hbefore⟩
            · exact hspec hfalse j hj (by omega)
        · refine ⟨true, by simp [hlast, hincl], fun h => by cases h⟩
      · refine ⟨true, by simp [hlast], fun h => by cases h⟩

/-- `start` is the start of the interval field `j`'s cursor points at, with its inclusivity. -/
def StartOfCursor (bounds : IndexBounds V) (cur : List ℕ) (j : ℕ) (start : V × Bool) : Prop :=
  ∃ interval, cursorInterval? bounds cur j = some interval ∧
    start = (interval.start, interval.startInclusive)

omit [LinearOrder V] in
theorem startsFrom_spec (hc : CursorOK c.bounds c.curInterval) (first : ℕ) :
    ∃ starts, c.startsFrom first = .ok starts ∧
      List.Forall₂ (StartOfCursor c.bounds c.curInterval)
        ((List.range c.bounds.fields.length).drop first) starts := by
  unfold IndexBoundsChecker.startsFrom
  rw [hc.length_eq]
  refine Except.mapM_eq_ok_of_forall fun j hj => ?_
  have hjlt : j < c.bounds.fields.length := List.mem_range.mp (List.mem_of_mem_drop hj)
  obtain ⟨interval, hinterval⟩ := hc.exists_interval hjlt
  obtain ⟨oil, m, hoil, hm, hi⟩ := cursorInterval?_eq_some.mp hinterval
  refine ⟨(interval.start, interval.startInclusive), ?_, interval, hinterval, rfl⟩
  simp only [elemAt_of_getElem? hoil, elemAt_of_getElem? hm, elemAt_of_getElem? hi,
    Except.ok_bind]
  rfl

/-- What the binary search of `findIntervalForField` finds for `elt` among `intervals`: the
interval at `m` holding it; or the one at `m` it is behind, every earlier one being ahead of
it; or that it is ahead of all of them. -/
inductive FoundInterval (d : ℤ) (intervals : List (Interval V)) (elt : V) :
    Location → ℕ → Prop
  | within {m : ℕ} {interval : Interval V} : intervals[m]? = some interval →
      interval.Contains d elt → FoundInterval d intervals elt .within m
  | behind {m : ℕ} {interval : Interval V} : intervals[m]? = some interval →
      ¬ StartOK d interval elt →
      (∀ m' < m, ∀ interval', intervals[m']? = some interval' →
        intervalCmp interval' elt d = .ahead) →
      FoundInterval d intervals elt .behind m
  | ahead {m : ℕ} : (∀ interval ∈ intervals, intervalCmp interval elt d = .ahead) →
      FoundInterval d intervals elt .ahead m

/-- **`findIntervalForField` never fails, and finds what the binary search promises.** -/
theorem findIntervalForField_spec {d : ℤ} (hd : IsDir d) (elt : V) (oil : OrderedIntervalList V) :
    ∃ loc m, findIntervalForField elt oil d = .ok (loc, m) ∧
      FoundInterval d oil.intervals elt loc m := by
  unfold findIntervalForField
  have hearlier : ∀ m' < oil.intervals.findIdx (fun interval => intervalCmp interval elt d ≠ .ahead),
      ∀ interval', oil.intervals[m']? = some interval' → intervalCmp interval' elt d = .ahead := by
    intro m' hm' interval' hi'
    obtain ⟨hlt, rfl⟩ := List.getElem?_eq_some_iff.mp hi'
    simpa using List.not_of_lt_findIdx hm'
  dsimp only
  split
  · next hnone =>
      refine ⟨_, _, rfl, .ahead fun interval hmem => ?_⟩
      obtain ⟨m', hm', rfl⟩ := List.mem_iff_getElem.mp hmem
      have hge := List.getElem?_eq_none_iff.mp hnone
      exact hearlier m' (by omega) _ (List.getElem?_eq_getElem hm')
  · next interval hsome =>
      obtain ⟨hlt, hget⟩ := List.getElem?_eq_some_iff.mp hsome
      have hfound : intervalCmp interval elt d ≠ .ahead := by
        have := List.findIdx_getElem (w := hlt)
        rw [hget] at this
        simpa using this
      rw [if_neg hfound]
      refine ⟨_, _, rfl, ?_⟩
      cases hcmp : intervalCmp interval elt d with
      | within => exact .within hsome ((intervalCmp_eq_within_iff hd).mp hcmp)
      | behind => exact .behind hsome ((intervalCmp_eq_behind_iff hd).mp hcmp) hearlier
      | ahead => exact absurd hcmp hfound

end Routines

/-! ## Moving the cursor -/

section Cursor

variable {first j : ℕ}

omit [LinearOrder V] in
@[simp] theorem length_resetFrom : (resetFrom first cur).length = cur.length := by
  simp [resetFrom]

omit [LinearOrder V] in
theorem getElem?_resetFrom :
    (resetFrom first cur)[j]? = if first ≤ j then cur[j]?.map fun _ => 0 else cur[j]? := by
  unfold resetFrom
  rw [List.getElem?_mapIdx]
  split <;> cases cur[j]? <;> simp_all

omit [LinearOrder V] in
theorem getElem?_resetFrom_of_lt (h : j < first) : (resetFrom first cur)[j]? = cur[j]? := by
  rw [getElem?_resetFrom, if_neg (by omega)]

omit [LinearOrder V] in
theorem getElem?_resetFrom_of_le (h : first ≤ j) (hj : j < cur.length) :
    (resetFrom first cur)[j]? = some 0 := by
  rw [getElem?_resetFrom, if_pos h, List.getElem?_eq_getElem hj]
  rfl

theorem CursorOK.resetFrom (hb : CheckerBounds bounds ds) (hc : CursorOK bounds cur) :
    CursorOK bounds (resetFrom first cur) := by
  refine ⟨by rw [length_resetFrom, hc.length_eq], fun i oil m hoil hm => ?_⟩
  rw [getElem?_resetFrom] at hm
  split at hm
  · obtain ⟨m', -, rfl⟩ := Option.map_eq_some_iff.mp hm
    exact List.length_pos_iff.mpr (hb.intervals_ne_nil oil (List.mem_of_getElem? hoil))
  · exact hc.lt i oil m hoil hm

omit [LinearOrder V] in
theorem CursorOK.set (hc : CursorOK bounds cur) {oil : OrderedIntervalList V}
    (hoil : bounds.fields[j]? = some oil) {m : ℕ} (hm : m < oil.intervals.length) :
    CursorOK bounds (cur.set j m) := by
  refine ⟨by rw [List.length_set, hc.length_eq], fun i oil' m' hoil' hm' => ?_⟩
  by_cases hij : j = i
  · subst hij
    rw [hoil] at hoil'
    cases hoil'
    rw [List.getElem?_set_self (by rw [hc.length_eq]; exact (List.getElem?_eq_some_iff.mp hoil).1)]
      at hm'
    cases hm'
    exact hm
  · rw [List.getElem?_set_ne hij] at hm'
    exact hc.lt i oil' m' hoil' hm'

omit [LinearOrder V] in
/-- A field whose cursor was reset points at the field's first interval. -/
theorem cursorInterval?_resetFrom {interval : Interval V} (h : first ≤ j)
    (hi : cursorInterval? bounds (resetFrom first cur) j = some interval) :
    ∃ oil, bounds.fields[j]? = some oil ∧ oil.intervals[0]? = some interval := by
  obtain ⟨oil, m, hoil, hm, hi⟩ := cursorInterval?_eq_some.mp hi
  rw [getElem?_resetFrom, if_pos h] at hm
  obtain ⟨m', -, rfl⟩ := Option.map_eq_some_iff.mp hm
  exact ⟨oil, hoil, hi⟩

end Cursor

/-! ## Seek points -/

section SeekPoint

variable {keyPrefix : List V} {prefixLen : ℕ}

omit [LinearOrder V] in
theorem makeQueryObject_inclusive {keySuffix : List V} {suffixInclusive : List Bool}
    (hp : prefixLen ≤ keyPrefix.length) (hs : keySuffix.length = suffixInclusive.length) :
    IndexSeekPoint.makeQueryObject ⟨keyPrefix, prefixLen, false, keySuffix, suffixInclusive⟩ =
      some ((keyPrefix.take prefixLen).map (·, true) ++ querySuffix keySuffix suffixInclusive) := by
  have hmap : (keyPrefix.take prefixLen).mapIdx (fun i e => (e, !(false && i == prefixLen - 1))) =
      (keyPrefix.take prefixLen).map (·, true) := by
    refine List.mapIdx_eq_iff.mpr fun i => ?_
    rw [List.getElem?_map]
    cases (keyPrefix.take prefixLen)[i]? <;> simp
  unfold IndexSeekPoint.makeQueryObject
  dsimp only
  rw [if_neg (Nat.not_lt.mpr hp), if_neg Bool.false_ne_true, if_neg (not_not.mpr hs), hmap]

omit [LinearOrder V] in
theorem makeQueryObject_exclusive {keySuffix : List V} {suffixInclusive : List Bool}
    (hp : prefixLen < keyPrefix.length) :
    IndexSeekPoint.makeQueryObject ⟨keyPrefix, prefixLen + 1, true, keySuffix, suffixInclusive⟩ =
      some ((keyPrefix.take prefixLen).map (·, true) ++ [(keyPrefix[prefixLen], false)]) := by
  have htake : keyPrefix.take (prefixLen + 1) = keyPrefix.take prefixLen ++ [keyPrefix[prefixLen]] :=
    by rw [List.take_add_one, List.getElem?_eq_getElem hp, Option.toList_some]
  have hmap : (keyPrefix.take (prefixLen + 1)).mapIdx
      (fun i e => (e, !(true && i == prefixLen + 1 - 1))) =
      (keyPrefix.take prefixLen).map (·, true) ++ [(keyPrefix[prefixLen], false)] := by
    rw [htake, List.mapIdx_append, List.mapIdx_singleton]
    congr 1
    · refine List.mapIdx_eq_iff.mpr fun i => ?_
      rw [List.getElem?_map]
      rcases Nat.lt_or_ge i prefixLen with hi | hi
      · rw [List.getElem?_take, if_pos hi]
        cases keyPrefix[i]? <;> simp [Nat.ne_of_lt hi]
      · rw [List.getElem?_take, if_neg (by omega)]
        rfl
    · simp [Nat.min_eq_left hp.le]
  unfold IndexSeekPoint.makeQueryObject
  dsimp only
  rw [if_neg (Nat.not_lt.mpr hp), if_pos rfl, if_neg (Nat.succ_ne_zero _), hmap]

/-- A key before the query's suffix is before the whole list the suffix is cut from. -/
theorem beforeBound_of_querySuffix :
    ∀ {ds : List ℤ} {xs : List V} {bound : List (V × Bool)},
      BeforeBound ds xs (querySuffix (bound.map Prod.fst) (bound.map Prod.snd)) →
        BeforeBound ds xs bound
  | [], _, _, h => by cases h
  | _ :: _, [], _, h => by cases h
  | _ :: _, _ :: _, [], h => by cases h
  | d :: ds, x :: xs, (y, inclusive) :: bound, h => by
      cases inclusive with
      | true =>
          simp only [List.map_cons, querySuffix, if_true, beforeBound_cons] at h ⊢
          rcases h with h | ⟨rfl, h⟩
          · exact Or.inl h
          · exact Or.inr ⟨rfl, h.imp id beforeBound_of_querySuffix⟩
      | false =>
          simp only [List.map_cons, querySuffix, Bool.false_eq_true, if_false,
            beforeBound_cons] at h ⊢
          rcases h with h | ⟨rfl, h⟩
          · exact Or.inl h
          · exact Or.inr ⟨rfl, by simp⟩

end SeekPoint

/-! ## What each answer rules out -/

section Answers

variable {f : ℕ} {key' : List V}

/-- **A key after `key` and before the seek to the starts of the cursor's intervals from field
`f` on fails one of those start tests**, at field `f` itself from a value not before `key`'s. -/
theorem exists_not_startOK_of_beforeStarts (hb : CheckerBounds bounds ds)
    (hk : key.length = bounds.fields.length) (hf : f ≤ bounds.fields.length)
    {starts : List (V × Bool)}
    (hstarts : List.Forall₂ (StartOfCursor bounds cur)
      ((List.range bounds.fields.length).drop f) starts)
    (hlex : LexLt ds key key')
    (hbefore : BeforeBound ds key' ((key.take f).map (·, true) ++
      querySuffix (starts.map Prod.fst) (starts.map Prod.snd))) :
    ∃ j y interval d, f ≤ j ∧ key'[j]? = some y ∧ cursorInterval? bounds cur j = some interval ∧
      ds[j]? = some d ∧ ¬ StartOK d interval y ∧
      (j = f → ∀ x, key[f]? = some x → DirLe d x y) := by
  have hlen : (key.take f).length = f := List.length_take_of_le (by omega)
  rw [← List.take_append_drop f key] at hlex
  obtain ⟨zs, rfl, hzs, hzb⟩ :=
    hlex.eq_prefix_of_beforeBound (by rw [hlen, hb.length_eq]; exact hf) hbefore
  rw [hlen] at hzs hzb
  obtain ⟨j, hjz, hjs, hj⟩ := (beforeBound_of_querySuffix hzb).exists_before
  have hjn : f + j < bounds.fields.length := by
    have := hstarts.length_eq
    simp only [List.length_drop, List.length_range] at this
    omega
  obtain ⟨interval, hinterval, hstart⟩ : StartOfCursor bounds cur (f + j) starts[j] := by
    have := hstarts.get (by simp only [List.length_drop, List.length_range]; omega) hjs
    simpa using this
  obtain ⟨d, hd⟩ : ∃ d, ds[f + j]? = some d :=
    ⟨_, List.getElem?_eq_getElem (by rw [hb.length_eq]; exact hjn)⟩
  have hdj : (ds.drop f).getD j 0 = d := by
    rw [List.getD_eq_getElem?_getD, List.getElem?_drop, hd]
    rfl
  refine ⟨f + j, zs[j], interval, d, by omega, ?_, hinterval, hd, ?_, ?_⟩
  · rw [List.getElem?_append_right (by omega), hlen, Nat.add_sub_cancel_left]
    exact List.getElem?_eq_getElem hjz
  · rw [hstart, hdj] at hj
    exact not_startOK_of_before hj
  · intro hjf x hx
    have hj0 : j = 0 := by omega
    subst hj0
    refine hzs.dirLe_of_head? ?_ ?_ ?_
    · rw [List.head?_drop]
      exact hd
    · rw [List.head?_drop]
      exact hx
    · rw [List.head?_eq_getElem?]
      exact List.getElem?_eq_getElem hjz

/-- **A key after `key` and before the seek past its first `p + 1` fields agrees with it on
them**, so its next field is not before `key`'s. -/
theorem exists_dirLe_of_beforeExclusive {p : ℕ} (hp : p + 1 < key.length)
    (hds : key.length ≤ ds.length) (hlex : LexLt ds key key')
    (hbefore : BeforeBound ds key' ((key.take p).map (·, true) ++ [(key[p], false)])) :
    ∃ y, key'[p + 1]? = some y ∧
      ∀ x d, key[p + 1]? = some x → ds[p + 1]? = some d → DirLe d x y := by
  have hlen : (key.take p).length = p := List.length_take_of_le (by omega)
  have hsplit : key = key.take p ++ key[p] :: key.drop (p + 1) := by
    rw [← List.drop_eq_getElem_cons]
    exact (List.take_append_drop p key).symm
  rw [hsplit] at hlex
  obtain ⟨zs, rfl, hzs, hzb⟩ := hlex.eq_prefix_of_beforeBound (by rw [hlen]; omega) hbefore
  rw [hlen, List.drop_eq_getElem_cons (by omega : p < ds.length)] at hzs hzb
  obtain ⟨zs', rfl, hzs'⟩ := hzs.eq_cons_of_beforeBound_exclusive hzb
  obtain ⟨y, ys, rfl⟩ := List.exists_cons_of_ne_nil hzs'.ne_nil_right
  refine ⟨y, ?_, fun x d hx hd => hzs'.dirLe_of_head? ?_ ?_ rfl⟩
  · rw [List.getElem?_append_right (by omega), hlen, show p + 1 - p = 1 by omega]
    rfl
  · rw [List.head?_drop]
    exact hd
  · rw [List.head?_drop]
    exact hx

/-- **With every field before `f` at the closed end of its last interval and field `f` past all
of its intervals, no later key is in the bounds.** -/
theorem not_inBounds_of_lexLt (hb : CheckerBounds bounds ds)
    (hk : key.length = bounds.fields.length) (hf : f < bounds.fields.length)
    (hafter : ∀ j < f, ∀ x d y, key[j]? = some x → ds[j]? = some d → DirLt d x y →
      ¬ InField bounds ds j y)
    (hfrom : ∀ x d y, key[f]? = some x → ds[f]? = some d → DirLe d x y →
      ¬ InField bounds ds f y)
    (hlex : LexLt ds key key') : ¬ InBounds bounds ds key' := by
  intro hin
  have hlen : (key.take f).length = f := List.length_take_of_le (by omega)
  by_cases hpre : ∀ i (hi : i < (key.take f).length) (hy : i < key'.length),
      DirLe (ds.getD i 0) key'[i] (key.take f)[i]
  · rw [← List.take_append_drop f key] at hlex
    obtain ⟨zs, rfl, hzs⟩ := hlex.eq_prefix_of_dirLe hpre
    rw [hlen] at hzs
    obtain ⟨y, ys, rfl⟩ := List.exists_cons_of_ne_nil hzs.ne_nil_right
    obtain ⟨d, hd⟩ : ∃ d, ds[f]? = some d :=
      ⟨_, List.getElem?_eq_getElem (by rw [hb.length_eq]; exact hf)⟩
    have hx : key[f]? = some key[f] := List.getElem?_eq_getElem (by omega)
    have hxy : DirLe d key[f] y := by
      refine hzs.dirLe_of_head? ?_ ?_ rfl
      · rw [List.head?_drop]
        exact hd
      · rw [List.head?_drop]
        exact hx
    have hy : (key.take f ++ y :: ys)[f]? = some y := by
      rw [List.getElem?_append_right (by omega), hlen, Nat.sub_self]
      rfl
    exact hfrom _ d y hx hd hxy (hin.2 f y hy)
  · push Not at hpre
    obtain ⟨i, hi, hy, hne⟩ := hpre
    rw [hlen] at hi
    obtain ⟨d, hd⟩ : ∃ d, ds[i]? = some d :=
      ⟨_, List.getElem?_eq_getElem (by rw [hb.length_eq]; omega)⟩
    rw [List.getD_eq_getElem?_getD, hd, Option.getD_some, List.getElem_take] at hne
    have hlt : DirLt d key[i] key'[i] := by
      by_contra h
      exact hne ((not_dirLt_iff (hb.isDir i d hd)).mp h)
    exact hafter i hi _ d _ (List.getElem?_eq_getElem _) hd hlt
      (hin.2 i _ (List.getElem?_eq_getElem hy))

/-- **The seek to the starts of the cursor's intervals is sound** when the key's field `f` is
behind its interval and every value failing a start test from field `f` on (at field `f`, one
not before the key's) is out of the bounds. -/
theorem seekToStarts_sound (hb : CheckerBounds bounds ds) (hc : CursorOK bounds cur)
    (hk : key.length = bounds.fields.length) (hf : f < bounds.fields.length)
    (hbehind : IndexBoundsChecker.currentLocation ⟨bounds, cur, ds⟩ key f = .ok .behind)
    (hskip : ∀ j y interval d, f ≤ j → cursorInterval? bounds cur j = some interval →
      ds[j]? = some d → ¬ StartOK d interval y →
      (j = f → ∀ x, key[f]? = some x → DirLe d x y) → ¬ InField bounds ds j y) :
    ∃ seekPoint, IndexBoundsChecker.seekToStarts ⟨bounds, cur, ds⟩ key f = .ok seekPoint ∧
      KeyStateSound bounds ds key (.mustAdvance seekPoint) := by
  obtain ⟨starts, hrun, hstarts⟩ := startsFrom_spec (c := ⟨bounds, cur, ds⟩) hc f
  refine ⟨_, by simp only [IndexBoundsChecker.seekToStarts, hrun, Except.ok_bind]; rfl, ?_, ?_⟩
  · obtain ⟨interval, x, d, hinterval, hx, hd, hcmp⟩ := currentLocation_eq_ok_iff.mp hbehind
    refine not_inBounds_of_not_inField hx (hskip f x interval d le_rfl hinterval hd ?_ ?_)
    · exact (intervalCmp_eq_behind_iff (hb.isDir f d hd)).mp hcmp
    · intro _ x' hx'
      rw [hx] at hx'
      cases hx'
      exact DirLe.refl x
  · refine ⟨_, makeQueryObject_inclusive (by omega) (by simp), fun key' hlex hbefore => ?_⟩
    obtain ⟨j, y, interval, d, hj, hy, hinterval, hd, hnot, hfirst⟩ :=
      exists_not_startOK_of_beforeStarts hb hk hf.le hstarts hlex hbefore
    exact not_inBounds_of_not_inField hy (hskip j y interval d hj hinterval hd hnot hfirst)

/-- A field at the closed end of its last interval has nothing past it in the bounds. -/
theorem AtLastEnd.not_inField (hb : CheckerBounds bounds ds) {j : ℕ}
    (h : AtLastEnd ⟨bounds, cur, ds⟩ key j)
    (hw : IndexBoundsChecker.currentLocation ⟨bounds, cur, ds⟩ key j = .ok .within) {x y : V}
    {d : ℤ} (hx : key[j]? = some x) (hd : ds[j]? = some d) (hy : DirLt d x y) :
    ¬ InField bounds ds j y := by
  obtain ⟨oil, m, interval, x', d', hoil, hm, hlast, hi, -, hx', hd', hne⟩ := h
  obtain ⟨interval'', x'', d'', hinterval, hx'', hd'', hcmp⟩ := currentLocation_eq_ok_iff.mp hw
  simp only at hoil hm hd' hd'' hinterval
  rw [hx] at hx' hx''
  rw [hd] at hd' hd''
  cases hx'
  cases hx''
  cases hd'
  cases hd''
  have hsame : interval'' = interval := by
    rw [cursorInterval?_eq_some] at hinterval
    obtain ⟨oil', m', hoil', hm', hi'⟩ := hinterval
    rw [hoil] at hoil'
    rw [hm] at hm'
    cases hoil'
    cases hm'
    rw [hi] at hi'
    exact (Option.some.inj hi').symm
  subst hsame
  have hend : x = interval''.end_ := by
    rcases ((intervalCmp_eq_within_iff (hb.isDir j d hd)).mp hcmp).2 with hlt | ⟨heq, -⟩
    · exact absurd ((woCompareSign_eq_neg_iff (hb.isDir j d hd)).mpr hlt).symm hne
    · exact heq
  rw [hend] at hy
  exact not_inField_of_end_dirLt hb hoil hd hi hlast hy

/-- `DONE` is sound once every field before `f` is at the closed end of its last interval and
field `f` is past all of its intervals. -/
theorem keyStateSound_done (hb : CheckerBounds bounds ds) (hk : key.length = bounds.fields.length)
    (hf : f < bounds.fields.length)
    (hafter : ∀ j < f, ∀ x d y, key[j]? = some x → ds[j]? = some d → DirLt d x y →
      ¬ InField bounds ds j y)
    (hfrom : ∀ x d y, key[f]? = some x → ds[f]? = some d → DirLe d x y →
      ¬ InField bounds ds f y) :
    KeyStateSound bounds ds key .done := by
  obtain ⟨d, hd⟩ : ∃ d, ds[f]? = some d :=
    ⟨_, List.getElem?_eq_getElem (by rw [hb.length_eq]; exact hf)⟩
  have hx : key[f]? = some key[f] := List.getElem?_eq_getElem (by omega)
  exact ⟨not_inBounds_of_not_inField hx (hfrom _ d _ hx hd (DirLe.refl _)),
    fun key' hlex => not_inBounds_of_lexLt hb hk hf hafter hfrom hlex⟩

/-- The seek past the first `p + 1` fields is sound once field `p + 1` is past all of its
intervals. -/
theorem keyStateSound_exclusive (hb : CheckerBounds bounds ds)
    (hk : key.length = bounds.fields.length) {p : ℕ} (hp : p + 1 < bounds.fields.length)
    (hfrom : ∀ x d y, key[p + 1]? = some x → ds[p + 1]? = some d → DirLe d x y →
      ¬ InField bounds ds (p + 1) y) :
    KeyStateSound bounds ds key (.mustAdvance ⟨key, p + 1, true, [], []⟩) := by
  obtain ⟨d, hd⟩ : ∃ d, ds[p + 1]? = some d :=
    ⟨_, List.getElem?_eq_getElem (by rw [hb.length_eq]; exact hp)⟩
  have hx : key[p + 1]? = some key[p + 1] := List.getElem?_eq_getElem (by omega)
  refine ⟨not_inBounds_of_not_inField hx (hfrom _ d _ hx hd (DirLe.refl _)), _,
    makeQueryObject_exclusive (by omega), fun key' hlex hbefore => ?_⟩
  obtain ⟨y, hy, hxy⟩ := exists_dirLe_of_beforeExclusive (by omega)
    (by rw [hk, hb.length_eq]) hlex hbefore
  exact not_inBounds_of_not_inField hy (hfrom _ d y hx hd (hxy _ d hx hd))

end Answers

/-! ## Each answer moves the scan on -/

section Advances

/-- A value behind an interval is before a bound that begins at the interval's start. -/
theorem beforeBound_querySuffix_of_not_startOK {d : ℤ} (hd : IsDir d) {interval : Interval V}
    {x : V} (hx : ¬ StartOK d interval x) (xs : List V) (ds : List ℤ) (starts : List (V × Bool)) :
    BeforeBound (d :: ds) (x :: xs) (querySuffix (interval.start :: starts.map Prod.fst)
      (interval.startInclusive :: starts.map Prod.snd)) := by
  rcases DirLt.trichotomy hd x interval.start with hlt | rfl | hgt
  · unfold querySuffix
    split <;> exact Or.inl hlt
  · have hincl : interval.startInclusive = false := by
      by_contra h
      exact hx (Or.inr ⟨rfl, by simpa using h⟩)
    simp only [querySuffix, hincl, Bool.false_eq_true, if_false]
    exact Or.inr ⟨rfl, Or.inl rfl⟩
  · exact absurd (Or.inl hgt) hx

/-- **The seek to the starts of the cursor's intervals lands past the key** whose field `f` is
behind its interval. -/
theorem keyStateAdvances_seekToStarts (hb : CheckerBounds bounds ds) (hc : CursorOK bounds cur)
    (hk : key.length = bounds.fields.length) {f : ℕ} (hf : f < bounds.fields.length)
    (hbehind : IndexBoundsChecker.currentLocation ⟨bounds, cur, ds⟩ key f = .ok .behind)
    {seekPoint : IndexSeekPoint V}
    (hseek : IndexBoundsChecker.seekToStarts ⟨bounds, cur, ds⟩ key f = .ok seekPoint) :
    KeyStateAdvances ds key (.mustAdvance seekPoint) := by
  obtain ⟨starts, hrun, hstarts⟩ := startsFrom_spec (c := ⟨bounds, cur, ds⟩) hc f
  simp only [IndexBoundsChecker.seekToStarts, hrun, Except.ok_bind, Except.pure_eq_ok,
    Except.ok.injEq] at hseek
  subst hseek
  intro query hquery
  rw [makeQueryObject_inclusive (by omega) (by simp)] at hquery
  cases hquery
  obtain ⟨interval, x, d, hinterval, hx, hd, hcmp⟩ := currentLocation_eq_ok_iff.mp hbehind
  simp only at hinterval hd
  rw [List.drop_eq_getElem_cons (by simpa using hf), List.getElem_range,
    List.forall₂_cons_left_iff] at hstarts
  obtain ⟨start, rest, ⟨interval', hinterval', rfl⟩, -, rfl⟩ := hstarts
  rw [hinterval] at hinterval'
  cases hinterval'
  obtain ⟨hfk, rfl⟩ := List.getElem?_eq_some_iff.mp hx
  have hsplit : key = key.take f ++ key[f] :: key.drop (f + 1) := by
    rw [← List.drop_eq_getElem_cons hfk]
    exact (List.take_append_drop f key).symm
  have hlen : (key.take f).length = f := List.length_take_of_le (by omega)
  have hds : ds.drop f = d :: ds.drop (f + 1) := by
    obtain ⟨hfd, rfl⟩ := List.getElem?_eq_some_iff.mp hd
    exact List.drop_eq_getElem_cons hfd
  have hdir : IsDir d := hb.isDir f d hd
  have h := (beforeBound_prefix_iff _ ds (key.take f) (key[f] :: key.drop (f + 1))
    (by rw [hlen, hb.length_eq]; exact hf.le)).mpr (by
      rw [hlen, hds]
      exact beforeBound_querySuffix_of_not_startOK hdir
        ((intervalCmp_eq_behind_iff hdir).mp hcmp) _ _ rest)
  rwa [← hsplit] at h

/-- The seek past the key's first `p + 1` fields lands past the key. -/
theorem keyStateAdvances_exclusive {p : ℕ} (hp : p + 1 < key.length) (hds : key.length ≤ ds.length) :
    KeyStateAdvances ds key (.mustAdvance ⟨key, p + 1, true, [], []⟩) := by
  intro query hquery
  rw [makeQueryObject_exclusive (by omega)] at hquery
  cases hquery
  have hpk : p < key.length := by omega
  have hsplit : key = key.take p ++ key[p] :: key.drop (p + 1) := by
    rw [← List.drop_eq_getElem_cons hpk]
    exact (List.take_append_drop p key).symm
  have hlen : (key.take p).length = p := List.length_take_of_le (by omega)
  have hdrop : ds.drop p = ds[p] :: ds.drop (p + 1) := List.drop_eq_getElem_cons (by omega)
  have h := (beforeBound_prefix_iff [(key[p], false)] ds (key.take p)
    (key[p] :: key.drop (p + 1)) (by omega)).mpr (by
      rw [hlen, hdrop]
      exact Or.inr ⟨rfl, Or.inl rfl⟩)
  rwa [← hsplit] at h

end Advances

/-! ## The checker -/

section Checker

/-- A field whose cursor was reset keeps every value failing its first start test out of the
bounds. -/
theorem not_inField_of_reset (hb : CheckerBounds bounds ds) {first j : ℕ} {interval : Interval V}
    {d : ℤ} {y : V} (hj : first ≤ j) (hi : cursorInterval? bounds (resetFrom first cur) j = some interval)
    (hd : ds[j]? = some d) (hy : ¬ StartOK d interval y) : ¬ InField bounds ds j y := by
  obtain ⟨oil, hoil, h0⟩ := cursorInterval?_resetFrom hj hi
  exact not_inField_of_not_startOK hb hoil hd h0 (fun m' hm' => absurd hm' (Nat.not_lt_zero _)) hy

/-- Setting the cursor of field `first` to an interval holding the key's field keeps every field
up to `first` within its interval. -/
theorem within_set (hb : CheckerBounds bounds ds) (hc : CursorOK bounds cur) {first m : ℕ}
    {oil : OrderedIntervalList V} {d : ℤ} {interval : Interval V}
    (hoil : bounds.fields[first]? = some oil) (hd : ds[first]? = some d)
    (hm : oil.intervals[m]? = some interval) {x : V} (hx : key[first]? = some x)
    (hcontains : interval.Contains d x)
    (hwithin : ∀ j < first, IndexBoundsChecker.currentLocation ⟨bounds, cur, ds⟩ key j = .ok .within) :
    ∀ j < first + 1,
      IndexBoundsChecker.currentLocation ⟨bounds, cur.set first m, ds⟩ key j = .ok .within := by
  intro j hj
  rcases Nat.lt_or_ge j first with hlt | hge
  · rw [currentLocation_congr (List.getElem?_set_ne (l := cur) (a := m) (by omega))]
    exact hwithin j hlt
  · have hjf : j = first := by omega
    subst hjf
    have hset : (cur.set j m)[j]? = some m := List.getElem?_set_self (by
      rw [hc.length_eq]
      exact (List.getElem?_eq_some_iff.mp hoil).1)
    refine currentLocation_eq_ok_iff.mpr ⟨interval, x, d, ?_, hx, hd, ?_⟩
    · exact cursorInterval?_eq_some.mpr ⟨oil, m, hoil, hset, hm⟩
    · exact (intervalCmp_eq_within_iff (hb.isDir j d hd)).mpr hcontains

/-- **`advanceAhead` answers soundly** from any cursor pointing at an interval of every field,
once the fields before `first` are within theirs, and leaves such a cursor. -/
theorem advanceAhead_sound (hb : CheckerBounds bounds ds)
    (hk : key.length = bounds.fields.length) :
    ∀ (first : ℕ) (cur : List ℕ), CursorOK bounds cur →
      (∀ j < first, IndexBoundsChecker.currentLocation ⟨bounds, cur, ds⟩ key j = .ok .within) →
      ∃ state cur', IndexBoundsChecker.advanceAhead ⟨bounds, cur, ds⟩ key first =
          .ok (state, ⟨bounds, cur', ds⟩) ∧
        CursorOK bounds cur' ∧ KeyStateSound bounds ds key state ∧
          KeyStateAdvances ds key state := by
  intro first
  induction hmeasure : bounds.fields.length - first generalizing first with
  | zero =>
      intro cur hc hwithin
      have hdone : ¬ first < cur.length := by
        rw [hc.length_eq]
        omega
      refine ⟨.valid, cur, by rw [IndexBoundsChecker.advanceAhead, if_neg hdone]; rfl, hc, ?_,
        trivial⟩
      exact inBounds_of_within hb hk fun i hi => hwithin i (by omega)
  | succ k ih =>
      intro cur hc hwithin
      have hf : first < bounds.fields.length := by omega
      obtain ⟨oil, d, hoil, hd, hdir, -, -⟩ := hb.exists_field hf
      have hx : key[first]? = some key[first] := List.getElem?_eq_getElem (by omega)
      obtain ⟨loc, m, hfind, hfound⟩ := findIntervalForField_spec hdir key[first] oil
      rw [IndexBoundsChecker.advanceAhead, if_pos (by rw [hc.length_eq]; exact hf)]
      simp only [elemAt_of_getElem? hoil, elemAt_of_getElem? hx, elemAt_of_getElem? hd,
        Except.ok_bind, hfind]
      cases hfound with
      | within hm hcontains =>
          exact ih (first + 1) (by omega) _ (hc.set hoil (List.getElem?_eq_some_iff.mp hm).1)
            (within_set hb hc hoil hd hm hx hcontains hwithin)
      | @behind _ interval hm hnot hearlier =>
          have hc' : CursorOK bounds (resetFrom (first + 1) (cur.set first m)) :=
            (hc.set hoil (List.getElem?_eq_some_iff.mp hm).1).resetFrom hb
          have hset : (resetFrom (first + 1) (cur.set first m))[first]? = some m := by
            rw [getElem?_resetFrom_of_lt (by omega),
              List.getElem?_set_self (by rw [hc.length_eq]; exact hf)]
          have hinterval :
              cursorInterval? bounds (resetFrom (first + 1) (cur.set first m)) first =
                some interval :=
            cursorInterval?_eq_some.mpr ⟨oil, m, hoil, hset, hm⟩
          have hbehind : IndexBoundsChecker.currentLocation
              ⟨bounds, resetFrom (first + 1) (cur.set first m), ds⟩ key first = .ok .behind :=
            currentLocation_eq_ok_iff.mpr
              ⟨interval, _, d, hinterval, hx, hd, (intervalCmp_eq_behind_iff hdir).mpr hnot⟩
          obtain ⟨seekPoint, hseek, hsound⟩ := seekToStarts_sound hb hc' hk hf hbehind
            (fun j y interval' d' hj hi' hd' hy hfirst => by
              rcases Nat.lt_or_ge first j with hlt | hge
              · exact not_inField_of_reset hb hlt hi' hd' hy
              · have hjf : j = first := by omega
                subst hjf
                rw [hinterval] at hi'
                cases hi'
                rw [hd] at hd'
                cases hd'
                exact not_inField_of_behind hb hoil hd hm hearlier (hfirst rfl _ hx) hy)
          exact ⟨_, _, by rw [hseek]; rfl, hc', hsound,
            keyStateAdvances_seekToStarts hb hc' hk hf hbehind hseek⟩
      | ahead hall =>
          have hfrom : ∀ x' d' y, key[first]? = some x' → ds[first]? = some d' → DirLe d' x' y →
              ¬ InField bounds ds first y := by
            intro x' d' y hx' hd' hxy
            rw [hx] at hx'
            cases hx'
            rw [hd] at hd'
            cases hd'
            exact not_inField_of_ahead hb hoil hd hall hxy
          obtain ⟨b, hspace, hatEnd⟩ := spaceLeftToAdvanceFrom_spec (c := ⟨bounds, cur, ds⟩)
            first 0 fun j _ hj => ⟨_, hwithin j (by omega)⟩
          simp only [IndexBoundsChecker.spaceLeftToAdvance, hspace, Except.ok_bind]
          cases b with
          | false =>
              refine ⟨.done, cur, rfl, hc, keyStateSound_done hb hk hf ?_ hfrom, trivial⟩
              intro j hj x' d' y hx' hd' hy
              exact (hatEnd rfl j (Nat.zero_le _) (by omega)).not_inField hb (hwithin j hj) hx' hd' hy
          | true =>
              obtain ⟨p, rfl⟩ : ∃ p, first = p + 1 := by
                cases first with
                | zero => cases hspace
                | succ p => exact ⟨p, rfl⟩
              exact ⟨_, _, rfl, hc.resetFrom hb, keyStateSound_exclusive hb hk hf hfrom,
                keyStateAdvances_exclusive (by omega) (by rw [hk, hb.length_eq])⟩

/-- **`checkKey` answers soundly** from any cursor pointing at an interval of every field, and
leaves such a cursor. -/
theorem checkKey_sound (hb : CheckerBounds bounds ds) (hc : CursorOK bounds cur)
    (hk : key.length = bounds.fields.length) :
    ∃ state cur', IndexBoundsChecker.checkKey ⟨bounds, cur, ds⟩ key =
        .ok (state, ⟨bounds, cur', ds⟩) ∧
      CursorOK bounds cur' ∧ KeyStateSound bounds ds key state ∧ KeyStateAdvances ds key state := by
  have hverify : ¬ (cur.length = 0 ∨ key.length ≠ cur.length) := by
    have := List.length_pos_iff.mpr hb.ne_nil
    rw [hc.length_eq]
    omega
  obtain ⟨r, hr, hspec⟩ := findLeftmostProblemFrom_spec (c := ⟨bounds, cur, ds⟩) cur.length 0
    fun j _ hj => currentLocation_exists hb hc hk (by rw [← hc.length_eq]; omega)
  unfold IndexBoundsChecker.checkKey
  simp only [if_neg hverify, IndexBoundsChecker.findLeftmostProblem, hr, Except.pure_eq_ok,
    Except.ok_bind]
  rcases r with _ | ⟨i, loc⟩
  · have hall : ∀ j < bounds.fields.length,
        IndexBoundsChecker.currentLocation ⟨bounds, cur, ds⟩ key j = .ok .within :=
      fun j hj => hspec j (Nat.zero_le _) (by rw [hc.length_eq]; omega)
    exact ⟨.valid, cur, rfl, hc, inBounds_of_within hb hk hall, trivial⟩
  obtain ⟨-, -, hne, -, hbefore⟩ := hspec
  cases loc with
  | within => exact absurd rfl hne
  | ahead =>
      simp only [reduceCtorEq, if_false]
      exact advanceAhead_sound hb hk i cur hc fun j hj => hbefore j (Nat.zero_le _) hj
  | behind =>
      have hc₁ : CursorOK bounds (resetFrom i cur) := hc.resetFrom hb
      obtain ⟨r₁, hr₁, hspec₁⟩ := findLeftmostProblemFrom_spec (c := ⟨bounds, resetFrom i cur, ds⟩)
        (resetFrom i cur).length 0
        fun j _ hj => currentLocation_exists hb hc₁ hk (by rw [← hc₁.length_eq]; omega)
      simp only [if_true, hr₁, Except.ok_bind]
      rcases r₁ with _ | ⟨i', loc'⟩
      · have hall : ∀ j < bounds.fields.length,
            IndexBoundsChecker.currentLocation ⟨bounds, resetFrom i cur, ds⟩ key j = .ok .within :=
          fun j hj => hspec₁ j (Nat.zero_le _) (by rw [hc₁.length_eq]; omega)
        exact ⟨.valid, resetFrom i cur, rfl, hc₁, inBounds_of_within hb hk hall, trivial⟩
      obtain ⟨-, hi', hne', hloc', hbefore'⟩ := hspec₁
      rw [Nat.zero_add, hc₁.length_eq] at hi'
      have hii' : i ≤ i' := by
        by_contra hlt
        have hsame : (resetFrom i cur)[i']? = cur[i']? := getElem?_resetFrom_of_lt (by omega)
        rw [currentLocation_congr hsame, hbefore i' (Nat.zero_le _) (by omega)] at hloc'
        exact hne' (Except.ok.inj hloc').symm
      cases loc' with
      | within => exact absurd rfl hne'
      | ahead =>
          exact advanceAhead_sound hb hk i' (resetFrom i cur) hc₁
            fun j hj => hbefore' j (Nat.zero_le _) hj
      | behind =>
          obtain ⟨seekPoint, hseek, hsound⟩ := seekToStarts_sound hb hc₁ hk hi' hloc'
            fun j y interval d hj hinterval hd hy _ =>
              not_inField_of_reset hb (by omega) hinterval hd hy
          exact ⟨_, _, by simp only [hseek]; rfl, hc₁, hsound,
            keyStateAdvances_seekToStarts hb hc₁ hk hi' hloc' hseek⟩

/-- **Every run of the checker over keys with one value per field answers soundly for each key**,
from any cursor pointing at an interval of every field, whatever order the keys come in. -/
theorem checkKeys_sound (hb : CheckerBounds bounds ds) :
    ∀ (keys : List (List V)) (cur : List ℕ), CursorOK bounds cur →
      (∀ key ∈ keys, key.length = bounds.fields.length) →
      ∃ states, checkKeys ⟨bounds, cur, ds⟩ keys = .ok states ∧
        List.Forall₂ (KeyStateSound bounds ds) keys states
  | [], _, _, _ => ⟨[], rfl, .nil⟩
  | key :: keys, cur, hc, hk => by
      obtain ⟨state, cur', hcheck, hc', hsound, -⟩ := checkKey_sound hb hc (hk key List.mem_cons_self)
      obtain ⟨states, hstates, hrest⟩ :=
        checkKeys_sound hb keys cur' hc' fun key' hmem => hk key' (List.mem_cons_of_mem key hmem)
      refine ⟨state :: states, ?_, .cons hsound hrest⟩
      simp only [checkKeys, hcheck, hstates, Except.ok_bind, Except.pure_eq_ok]

end Checker

/-! ## The checker an index scan builds -/

section Make

variable {keyPattern : List (String × ℤ)} {scanDirection : ℤ}

omit [LinearOrder V] in
theorem getElem?_expectedDirections {numbers : List ℤ} {i : ℕ} :
    (expectedDirections numbers scanDirection)[i]? =
      numbers[i]?.map fun number => (if number ≥ 0 then 1 else -1) * scanDirection := by
  simp [expectedDirections]

/-- **Bounds valid for a key pattern and a scan direction, with an interval in every field, are
bounds the checker runs over**, each field read along its key-pattern sign times the scan
direction. -/
theorem checkerBounds_of_isValidFor (hd : scanDirection = 1 ∨ scanDirection = -1)
    (hv : bounds.isValidFor keyPattern scanDirection = true) (hne : keyPattern ≠ [])
    (hintervals : ∀ oil ∈ bounds.fields, oil.intervals ≠ []) :
    CheckerBounds bounds (expectedDirections (keyPattern.map Prod.snd) scanDirection) := by
  unfold IndexBounds.isValidFor at hv
  rw [Bool.and_eq_true, beq_iff_eq] at hv
  obtain ⟨hlen, hall⟩ := hv
  have hdir : ∀ (i : ℕ) (d : ℤ), (expectedDirections (keyPattern.map Prod.snd) scanDirection)[i]? = some d →
      ∃ name number, keyPattern[i]? = some (name, number) ∧
        d = (if number ≥ 0 then 1 else -1) * scanDirection := by
    intro i d hd'
    rw [getElem?_expectedDirections, List.getElem?_map] at hd'
    obtain ⟨number, hnumber, rfl⟩ := Option.map_eq_some_iff.mp hd'
    obtain ⟨⟨name, number'⟩, hentry, rfl⟩ := Option.map_eq_some_iff.mp hnumber
    exact ⟨name, number', hentry, rfl⟩
  have hisDir : ∀ (i : ℕ) (d : ℤ), (expectedDirections (keyPattern.map Prod.snd) scanDirection)[i]? = some d →
      IsDir d := by
    intro i d hd'
    obtain ⟨-, number, -, rfl⟩ := hdir i d hd'
    rcases hd with rfl | rfl <;> split_ifs <;> simp [IsDir]
  refine ⟨fun h => hne (List.length_eq_zero_iff.mp (by rw [← hlen, h]; rfl)), ?_, hisDir, ?_,
    hintervals⟩
  · simp [expectedDirections, hlen]
  · intro i oil d hoil hd'
    obtain ⟨name, number, hentry, rfl⟩ := hdir i d hd'
    have hmem : (oil, (name, number)) ∈ bounds.fields.zip keyPattern :=
      List.mem_of_getElem? (List.getElem?_zip_eq_some.mpr ⟨hoil, hentry⟩)
    have hvalid := List.all_eq_true.mp hall _ hmem
    rw [Bool.and_eq_true] at hvalid
    rw [Int.mul_comm]
    exact OrderedIntervalList.validFor (by rw [Int.mul_comm]; exact hisDir i _ hd') hvalid.2

omit [LinearOrder V] in
/-- The cursor of a new checker points at the first interval of every field. -/
theorem cursorOK_replicate (hintervals : ∀ oil ∈ bounds.fields, oil.intervals ≠ []) :
    CursorOK bounds (List.replicate bounds.fields.length 0) := by
  refine ⟨List.length_replicate, fun i oil m hoil hm => ?_⟩
  rw [List.getElem?_replicate] at hm
  split at hm
  · cases hm
    exact List.length_pos_iff.mpr (hintervals oil (List.mem_of_getElem? hoil))
  · cases hm

/-- **The checker an index scan builds answers soundly for every key it is asked about**: for
bounds valid for a key pattern and a scan direction, with an interval in every field, and keys
with one value per key-pattern field, in any order. -/
theorem checkKeys_make_sound (keys : List (List V))
    (hd : scanDirection = 1 ∨ scanDirection = -1)
    (hv : bounds.isValidFor keyPattern scanDirection = true) (hne : keyPattern ≠ [])
    (hintervals : ∀ oil ∈ bounds.fields, oil.intervals ≠ [])
    (hk : ∀ key ∈ keys, key.length = keyPattern.length) :
    ∃ states, checkKeys (IndexBoundsChecker.make bounds (keyPattern.map Prod.snd) scanDirection)
        keys = .ok states ∧
      List.Forall₂ (KeyStateSound bounds (expectedDirections (keyPattern.map Prod.snd) scanDirection))
        keys states := by
  have hb := checkerBounds_of_isValidFor hd hv hne hintervals
  have hlen : bounds.fields.length = keyPattern.length := by
    rw [← hb.length_eq]
    simp [expectedDirections]
  exact checkKeys_sound hb keys _ (cursorOK_replicate hintervals) fun key hmem => by
    rw [hk key hmem, hlen]

/-- Two intervals of one ascending field, `[2, 3]` and `[5, 7)`. -/
def twoIntervals : IndexBounds ℕ :=
  ⟨[⟨[⟨2, true, 3, true⟩, ⟨5, true, 7, false⟩], "a"⟩]⟩

theorem checkKeys_make_sound_twoIntervals :
    ((1 : ℤ) = 1 ∨ (1 : ℤ) = -1) ∧ twoIntervals.isValidFor [("a", 1)] 1 = true ∧
      ([("a", 1)] : List (String × ℤ)) ≠ [] ∧
      (∀ oil ∈ twoIntervals.fields, oil.intervals ≠ []) ∧
      (∀ key ∈ [[1], [2], [4], [6], [9]], key.length = ([("a", 1)] : List (String × ℤ)).length) ∧
      ∃ states, checkKeys (IndexBoundsChecker.make twoIntervals
          (([("a", 1)] : List (String × ℤ)).map Prod.snd) 1) [[1], [2], [4], [6], [9]] = .ok states ∧
        List.Forall₂ (KeyStateSound twoIntervals
          (expectedDirections (([("a", 1)] : List (String × ℤ)).map Prod.snd) 1))
          [[1], [2], [4], [6], [9]] states := by
  have hd : (1 : ℤ) = 1 ∨ (1 : ℤ) = -1 := Or.inl rfl
  have hv : twoIntervals.isValidFor [("a", 1)] 1 = true := by decide
  have hne : ([("a", 1)] : List (String × ℤ)) ≠ [] := List.cons_ne_nil _ _
  have hintervals : ∀ oil ∈ twoIntervals.fields, oil.intervals ≠ [] := by decide
  have hk : ∀ key ∈ [[1], [2], [4], [6], [9]],
      key.length = ([("a", 1)] : List (String × ℤ)).length := by decide
  exact ⟨hd, hv, hne, hintervals, hk,
    checkKeys_make_sound [[1], [2], [4], [6], [9]] hd hv hne hintervals hk⟩

/-- With a field that has no interval, the checker reads past the end of the field's list. -/
theorem checkKey_emptyIntervals :
    (⟨[⟨[], "a"⟩]⟩ : IndexBounds ℕ).isValidFor [("a", 1)] 1 = true ∧
      IndexBoundsChecker.checkKey (IndexBoundsChecker.make ⟨[⟨[], "a"⟩]⟩ [1] 1) [0] =
        .error .outOfRange :=
  ⟨by decide, rfl⟩

end Make

end Mongo
