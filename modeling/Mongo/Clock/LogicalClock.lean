import Mathlib
import Mongo.Lib.Trace

/-!
# The logical clock

`LogicalClock` (`db/logical_clock.cpp`) keeps the cluster time, a `LogicalTime`: a 64-bit word
whose high half is the seconds and whose low half is the increment of a `Timestamp`.

* `reserveTicks(n)` hands out the `n` ticks after the current time.  It first moves the time to
  the wall clock's second when that is ahead, or to the next second when `n` more increments
  would pass `2^31 - 1`.  It refuses to go past the largest time, and returns the first tick.
* `advanceClusterTime(t)` takes a time gossiped by another node, once the rate limiter has
  checked it against the wall clock.
* `setClusterTimeFromTrustedSource(t)` takes a time without the rate limiter.

A call that fails (`uassert` or a bad status) leaves the clock as it was.  The wall clock is an
argument of each call, and nothing relates one reading to the next.
-/

namespace Mongo

namespace LogicalClock

/-- `Timestamp`: seconds and an increment, compared in that order. -/
structure Timestamp where
  secs : UInt32
  i : UInt32
  deriving DecidableEq, Repr

/-- `Timestamp::operator<`: `tie() < r.tie()`. -/
def Timestamp.lt (l r : Timestamp) : Bool :=
  l.secs < r.secs || (l.secs == r.secs && l.i < r.i)

/-- `Timestamp::asULL`: the seconds in the high half, the increment in the low half. -/
def Timestamp.asULL (ts : Timestamp) : UInt64 :=
  (ts.secs.toUInt64 <<< 32) ||| ts.i.toUInt64

/-- `LogicalTime`: the 64-bit word `_time`. -/
structure LogicalTime where
  time : UInt64
  deriving DecidableEq, Repr

/-- `LogicalTime(Timestamp ts)`. -/
def LogicalTime.ofTimestamp (ts : Timestamp) : LogicalTime :=
  ⟨ts.asULL⟩

/-- `LogicalTime::asTimestamp`: `Timestamp(unsigned long long v)`, the high half as seconds and
the low half as the increment. -/
def LogicalTime.asTimestamp (t : LogicalTime) : Timestamp :=
  ⟨(t.time >>> 32).toUInt32, t.time.toUInt32⟩

/-- `LogicalTime::addTicks`: `_time += ticks`, in 64 bits. -/
def LogicalTime.addTicks (t : LogicalTime) (ticks : UInt64) : LogicalTime :=
  ⟨t.time + ticks⟩

/-- `operator<` on `LogicalTime`s compares their timestamps. -/
def LogicalTime.lt (l r : LogicalTime) : Bool :=
  l.asTimestamp.lt r.asTimestamp

/-- `LogicalClock::kMaxSignedInt`. -/
def kMaxSignedInt : UInt32 := ((1 : UInt32) <<< 31) - 1

/-- `lessThanOrEqualToMaxPossibleTime`: the seconds are at most `2^31 - 1`, and `nTicks` more
increments stay at most `2^31 - 1`; the subtraction is in 64 bits. -/
def lessThanOrEqualToMaxPossibleTime (time : LogicalTime) (nTicks : UInt64) : Bool :=
  time.asTimestamp.secs ≤ kMaxSignedInt &&
    time.asTimestamp.i.toUInt64 ≤ kMaxSignedInt.toUInt64 - nTicks

/-- Why a call failed. -/
inductive ClockError
  /-- `invariant(nTicks > 0 && nTicks <= kMaxSignedInt)`. -/
  | nTicksOutOfRange
  /-- `ErrorCodes::ClusterTimeFailsRateLimiter`. -/
  | clusterTimeFailsRateLimiter
  /-- A `uassert` with its code: 40482, 40483 or 40484. -/
  | uassert (code : ℕ)
  deriving DecidableEq, Repr

/-- The state of a `LogicalClock`. -/
structure State where
  clusterTime : LogicalTime
  deriving DecidableEq, Repr

/-- A clock as it is constructed: `_clusterTime` is `LogicalTime()`, zero. -/
def init : State := ⟨⟨0⟩⟩

/-- `LogicalClock::_passesRateLimiter_inlock`: a time too far ahead of the wall clock fails, and
so does one past the largest time. -/
def passesRateLimiter (newTime : LogicalTime) (wallClockSecs maxAcceptableDriftSecs : UInt32) :
    Except ClockError Unit :=
  let newTimeSecs := newTime.asTimestamp.secs
  -- "Both values are unsigned, so compare them first to avoid wrap-around."
  if newTimeSecs > wallClockSecs ∧ newTimeSecs - wallClockSecs > maxAcceptableDriftSecs then
    .error .clusterTimeFailsRateLimiter
  else if !lessThanOrEqualToMaxPossibleTime newTime 0 then .error (.uassert 40484)
  else .ok ()

/-- `LogicalClock::advanceClusterTime`. -/
def advanceClusterTime (s : State) (newTime : LogicalTime)
    (wallClockSecs maxAcceptableDriftSecs : UInt32) : Except ClockError State := do
  passesRateLimiter newTime wallClockSecs maxAcceptableDriftSecs
  if s.clusterTime.lt newTime then return ⟨newTime⟩ else return s

/-- `LogicalClock::reserveTicks`: the new state and the first reserved tick. -/
def reserveTicks (s : State) (nTicks : UInt64) (wallClockSecs : UInt32) :
    Except ClockError (State × LogicalTime) :=
  if ¬ (nTicks > 0 ∧ nTicks ≤ kMaxSignedInt.toUInt64) then .error .nTicksOutOfRange
  else
    let clusterTime := s.clusterTime
    let clusterTimeSecs := clusterTime.asTimestamp.secs
    -- "Synchronize clusterTime with wall clock time, if clusterTime was behind in seconds."
    let clusterTime :=
      if clusterTimeSecs < wallClockSecs then LogicalTime.ofTimestamp ⟨wallClockSecs, 0⟩
      -- "overflow by moving to the next second"
      else if clusterTime.asTimestamp.i.toUInt64 > kMaxSignedInt.toUInt64 - nTicks then
        LogicalTime.ofTimestamp ⟨clusterTime.asTimestamp.secs + 1, 0⟩
      else clusterTime
    if !lessThanOrEqualToMaxPossibleTime clusterTime nTicks then .error (.uassert 40482)
    else
      -- "Save the next cluster time."
      let clusterTime := clusterTime.addTicks 1
      -- "Add the rest of the requested ticks if needed."
      let newClusterTime := if nTicks > 1 then clusterTime.addTicks (nTicks - 1) else clusterTime
      .ok (⟨newClusterTime⟩, clusterTime)

/-- `LogicalClock::setClusterTimeFromTrustedSource`. -/
def setClusterTimeFromTrustedSource (s : State) (newTime : LogicalTime) :
    Except ClockError State :=
  if !lessThanOrEqualToMaxPossibleTime newTime 0 then .error (.uassert 40483)
  else if s.clusterTime.lt newTime then .ok ⟨newTime⟩ else .ok s

/-! ## Runs of calls -/

/-- A call on the clock, with the wall clock's second it reads. -/
inductive Call
  | reserveTicks (nTicks : UInt64) (wallClockSecs : UInt32)
  | advanceClusterTime (newTime : LogicalTime) (wallClockSecs maxAcceptableDriftSecs : UInt32)
  | setClusterTimeFromTrustedSource (newTime : LogicalTime)

/-- What a run records, as numbers: the cluster time after each call, each reservation of `n`
ticks from `r`, and each time an `advanceClusterTime` or `setClusterTimeFromTrustedSource` call
accepted. -/
inductive Event
  | held (t : ℕ)
  | reserved (r n : ℕ)
  | accepted (t : ℕ)
  deriving DecidableEq, Repr

/-- One call: a reservation records its ticks, an accepted time is recorded, and every call
records the cluster time it leaves.  A call that fails with a `uassert` or the rate limiter's
status leaves the clock alone.  An `nTicks` outside `[1, 2^31 - 1]` fails an `invariant`, which
aborts the process: no call follows it.  The model lets the run go on from the clock as it was,
so a real run that aborts is the model's run of the calls before the abort, and what holds of
every run of the model holds of it. -/
def step (s : State) : Call → State × List Event
  | .reserveTicks nTicks wallClockSecs =>
      match reserveTicks s nTicks wallClockSecs with
      | .ok (s', r) => (s', [.reserved r.time.toNat nTicks.toNat, .held s'.clusterTime.time.toNat])
      | .error _ => (s, [.held s.clusterTime.time.toNat])
  | .advanceClusterTime newTime wallClockSecs maxAcceptableDriftSecs =>
      match advanceClusterTime s newTime wallClockSecs maxAcceptableDriftSecs with
      | .ok s' => (s', [.accepted newTime.time.toNat, .held s'.clusterTime.time.toNat])
      | .error _ => (s, [.held s.clusterTime.time.toNat])
  | .setClusterTimeFromTrustedSource newTime =>
      match setClusterTimeFromTrustedSource s newTime with
      | .ok s' => (s', [.accepted newTime.time.toNat, .held s'.clusterTime.time.toNat])
      | .error _ => (s, [.held s.clusterTime.time.toNat])

end LogicalClock

end Mongo
