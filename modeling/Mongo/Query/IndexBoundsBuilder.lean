import Mathlib
import Mongo.Lib.Loop
import Mongo.Query.IndexBounds

/-!
# Unionizing an interval list

`IndexBoundsBuilder::unionize` (`db/query/index_bounds_builder.cpp`) turns the intervals of one
field into the list an `OrderedIntervalList` keeps: it sorts them by `IntervalComparison`, then
walks the vector comparing each interval with the next (`Interval::compare`,
`db/query/interval.cpp`), erasing one of the two or merging them in place, and moving on only when
the first precedes the second.

The vector is a list: `erase` is `eraseIdx`, and a merge erases `iv[i]` and overwrites the
interval that takes its place.  `std::sort` leaves equivalent intervals in an order it does not
specify, so the sort is a parameter that carries its postcondition (`IntervalSort`).  The merge
loop is a `Loop.runState` with fuel: a comparison the loop has no branch for leaves the state as it
is, so a loop that meets one runs out of any fuel, as the source loops forever.  The `BSONObj`
that `makeRangeInterval` is built from holds the two endpoints and nothing else, so the interval is
built from them.

`IndexBoundsBuilder::intersectize` walks two interval lists with one index each, pushing the
intersection (`Interval::intersect`) of every two intervals that intersect; its loop is a
recursion on the two suffixes still to visit.  `Interval()`, which `intersect` leaves when the
two do not intersect, has `BSONElement()` at both ends: `default` stands for it.
-/

namespace Mongo

variable {V : Type} [LinearOrder V]

namespace Interval

/-- `Interval::IntervalComparison`. -/
inductive IntervalComparison
  | equals
  | contains
  | within
  | overlapsBefore
  | overlapsAfter
  | precedes
  | precedesCouldUnion
  | succeeds
  | unknown
  deriving DecidableEq, Repr

/-- `Interval::equals(other)`. -/
def equals (interval other : Interval V) : Bool :=
  if interval.startInclusive != other.startInclusive then false
  else if interval.endInclusive != other.endInclusive then false
  else if woCompareSign interval.start other.start != 0 then false
  else if woCompareSign interval.end_ other.end_ != 0 then false
  else true

/-- `Interval::intersects(other)`. -/
def intersects (interval other : Interval V) : Bool :=
  let res := woCompareSign interval.start other.end_
  if res > 0 then false
  else if res == 0 && (!interval.startInclusive || !other.endInclusive) then false
  else
    let res := woCompareSign other.start interval.end_
    if res > 0 then false
    else if res == 0 && (!other.startInclusive || !interval.endInclusive) then false
    else true

/-- `Interval::within(other)`. -/
def within (interval other : Interval V) : Bool :=
  let res := woCompareSign interval.start other.start
  if res < 0 then false
  else if res == 0 && interval.startInclusive && !other.startInclusive then false
  else
    let res := woCompareSign interval.end_ other.end_
    if res > 0 then false
    else if res == 0 && interval.endInclusive && !other.endInclusive then false
    else true

/-- `Interval::precedes(other)`: the start of `interval` comes before the start of `other`. -/
def precedes (interval other : Interval V) : Bool :=
  let res := woCompareSign interval.start other.start
  if res < 0 then true
  else if res == 0 && interval.startInclusive && !other.startInclusive then true
  else false

/-- `Interval::compare(other)`. -/
def compare (interval other : Interval V) : IntervalComparison :=
  if interval.intersects other then
    if interval.equals other then .equals
    else if interval.within other then .within
    else if other.within interval then .contains
    else if interval.precedes other then .overlapsBefore
    else .overlapsAfter
  else if interval.precedes other then
    if (interval.endInclusive || other.startInclusive) &&
        woCompareSign interval.end_ other.start == 0 then .precedesCouldUnion
    else .precedes
  else .succeeds

end Interval

/-- `IntervalComparison(lhs, rhs)`, the order step 1 sorts by: by start, and an inclusive start
before an exclusive one. -/
def intervalComparison (lhs rhs : Interval V) : Bool :=
  let wo := woCompareSign lhs.start rhs.start
  if wo != 0 then wo < 0
  else if lhs.startInclusive == rhs.startInclusive then false
  else lhs.startInclusive

/-- `makeRangeInterval(data, makeBoundInclusionFromBoundBools(startInclusive, endInclusive))`
for the object `data` of the two endpoints. -/
def makeRangeInterval (start end_ : V) (startInclusive endInclusive : Bool) : Interval V :=
  { start, startInclusive, end_, endInclusive }

/-- A failed `verify` in `Interval::intersect`, `Interval::combine` or
`IndexBoundsBuilder::intersectize`. -/
inductive IntervalError
  | verifyFailed
  deriving DecidableEq, Repr

namespace Interval

/-- `Interval()`: both ends are `BSONElement()`, the empty element, which `default` stands for,
and both are open. -/
def empty [Inhabited V] : Interval V :=
  ⟨default, false, default, false⟩

/-- `Interval::intersect(other, cmp)`: what `this` holds after it.  `INTERVAL_UNKNOWN` asks for
`compare(other)` to be run first. -/
def intersect [Inhabited V] (interval other : Interval V) (cmp : IntervalComparison) :
    Except IntervalError (Interval V) :=
  let cmp := if cmp = .unknown then interval.compare other else cmp
  match cmp with
  | .equals | .within => .ok interval
  | .contains =>
      .ok (makeRangeInterval other.start other.end_ other.startInclusive other.endInclusive)
  | .overlapsAfter =>
      .ok (makeRangeInterval interval.start other.end_ interval.startInclusive other.endInclusive)
  | .overlapsBefore =>
      .ok (makeRangeInterval other.start interval.end_ other.startInclusive interval.endInclusive)
  | .precedes | .succeeds => .ok empty
  -- default: verify(false)
  | .precedesCouldUnion | .unknown => .error .verifyFailed

/-- `Interval::combine(other, cmp)`: what `this` holds after it. -/
def combine (interval other : Interval V) (cmp : IntervalComparison) :
    Except IntervalError (Interval V) :=
  let cmp := if cmp = .unknown then interval.compare other else cmp
  match cmp with
  | .equals | .contains => .ok interval
  | .within =>
      .ok (makeRangeInterval other.start other.end_ other.startInclusive other.endInclusive)
  | .overlapsAfter | .succeeds =>
      .ok (makeRangeInterval other.start interval.end_ other.startInclusive interval.endInclusive)
  | .overlapsBefore | .precedes =>
      .ok (makeRangeInterval interval.start other.end_ interval.startInclusive other.endInclusive)
  -- default: verify(false)
  | .precedesCouldUnion | .unknown => .error .verifyFailed

end Interval

/-- The loop of `IndexBoundsBuilder::intersectize`, from `argiv[argidx]` and `iv[ividx]` on: the
intersections it pushes onto `result`, in order.  Moving an index on drops the head of its
list. -/
def intersectizeLoop [Inhabited V] :
    List (Interval V) → List (Interval V) → Except IntervalError (List (Interval V))
  | a :: argiv, b :: iv =>
      let cmp := a.compare b
      -- verify(Interval::INTERVAL_UNKNOWN != cmp)
      if cmp = .unknown then .error .verifyFailed
      else if cmp = .precedes ∨ cmp = .precedesCouldUnion then
        -- argiv is before iv: move argiv forward
        intersectizeLoop argiv (b :: iv)
      else if cmp = .succeeds then
        -- iv is before argiv: move iv forward
        intersectizeLoop (a :: argiv) iv
      else do
        let newInt ← a.intersect b cmp
        let result ←
          if cmp = .equals then intersectizeLoop argiv iv
          else if cmp = .within then intersectizeLoop argiv (b :: iv)
          else if cmp = .contains then intersectizeLoop (a :: argiv) iv
          else if cmp = .overlapsBefore then intersectizeLoop argiv (b :: iv)
          else if cmp = .overlapsAfter then intersectizeLoop (a :: argiv) iv
          else .error .verifyFailed
        pure (newInt :: result)
  | _, _ => .ok []
termination_by argiv iv => argiv.length + iv.length

/-- `IndexBoundsBuilder::intersectize(arg, oilOut)`: `oilOut` after it, its intervals swapped for
the intersections. -/
def intersectize [Inhabited V] (arg oilOut : OrderedIntervalList V) :
    Except IntervalError (OrderedIntervalList V) :=
  -- verify(arg.name == oilOut->name)
  if arg.name ≠ oilOut.name then .error .verifyFailed
  else (fun result => { oilOut with intervals := result }) <$>
    intersectizeLoop arg.intervals oilOut.intervals

/-- `std::sort(iv.begin(), iv.end(), IntervalComparison)`: a reordering after which no interval
compares below one before it. -/
structure IntervalSort (V : Type) [LinearOrder V] where
  sort : List (Interval V) → List (Interval V)
  perm : ∀ iv, (sort iv).Perm iv
  sorted : ∀ iv, (sort iv).Pairwise fun a b => intervalComparison b a = false

/-- What stops `unionize` short of a result: the failed `verify`, a vector read out of range, or
the fuel of the merge loop running out. -/
inductive UnionizeError
  | verifyFailed
  | outOfRange
  | outOfFuel
  deriving DecidableEq, Repr

/-- The state of the merge loop: the vector and the index `i`. -/
structure UnionizeState (V : Type) where
  iv : List (Interval V)
  i : ℕ
  deriving DecidableEq, Repr

/-- `while (i < iv.size() - 1)` has ended. -/
def UnionizeState.done (s : UnionizeState V) : Prop :=
  ¬ s.i < s.iv.length - 1

instance : DecidablePred (UnionizeState.done (V := V)) :=
  fun s => inferInstanceAs (Decidable (¬ s.i < s.iv.length - 1))

/-- One iteration of step 2 of `unionize`: compare `iv[i]` with `iv[i + 1]`. -/
def unionizeStep (s : UnionizeState V) : Except UnionizeError (UnionizeState V) :=
  match s.iv[s.i]?, s.iv[s.i + 1]? with
  | some a, some b =>
      let cmp := a.compare b
      -- verify(INTERVAL_SUCCEEDS != cmp)
      if cmp = .succeeds then .error .verifyFailed
      else if cmp = .precedes then .ok { s with i := s.i + 1 }
      else if cmp = .equals ∨ cmp = .within then .ok { s with iv := s.iv.eraseIdx s.i }
      else if cmp = .contains then .ok { s with iv := s.iv.eraseIdx (s.i + 1) }
      else if cmp = .overlapsBefore ∨ cmp = .precedesCouldUnion then
        let merged := makeRangeInterval a.start b.end_ a.startInclusive b.endInclusive
        -- iv[i] is now the former iv[i + 1]
        .ok { s with iv := (s.iv.eraseIdx s.i).set s.i merged }
      else .ok s
  | _, _ => .error .outOfRange

/-- `IndexBoundsBuilder::unionize(oilOut)` on `oilOut->intervals`, with the merge loop run for at
most `fuel` iterations. -/
def unionize (srt : IntervalSort V) (fuel : ℕ) (iv : List (Interval V)) :
    Except UnionizeError (List (Interval V)) :=
  -- This can happen.
  if iv.isEmpty then .ok []
  else
    (Loop.runState UnionizeState.done unionizeStep .outOfFuel fuel ⟨srt.sort iv, 0⟩).map
      UnionizeState.iv

end Mongo
