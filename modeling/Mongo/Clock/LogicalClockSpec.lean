import Mongo.Clock.LogicalClock
import Mongo.Lib.BigEndian
import Mongo.Lib.Except

/-!
# Reserved cluster times are unique and increasing

The proofs read a `LogicalTime` as the number `secs * 2^32 + inc` (`toNat_asULL`,
`secs_asTimestamp`, `i_asTimestamp`), under which `operator<` is `<` on numbers (`lt_iff`).

`Bounded` is the invariant of the clock: the seconds and the increment are each at most
`2^31 - 1`.  Every call keeps it and never lowers the cluster time.  A reservation of `n` ticks
starts just after a base time at or above the cluster time, and its `n` ticks stay in the
base's second (`reserveTicks_eq_ok`).

On runs, `Event.Before` orders what a run records.  A reservation comes after everything
recorded before it: each tick it hands out is above every time the clock held, every tick
reserved and every time accepted.  The cluster time only grows.  `reservedTicks_increasing`
proves this for every sequence of calls from a new clock, with any wall-clock readings.
-/

namespace Mongo

namespace LogicalClock

/-! ## Times as numbers -/

theorem toNat_asULL (ts : Timestamp) : ts.asULL.toNat = ts.secs.toNat * 2 ^ 32 + ts.i.toNat := by
  have hi := ts.i.toNat_lt
  have hs := ts.secs.toNat_lt
  have hhigh : ts.secs.toNat <<< 32 % 2 ^ 64 = ts.secs.toNat * 2 ^ 32 := by
    rw [Nat.shiftLeft_eq, Nat.mod_eq_of_lt (by omega)]
  rw [Timestamp.asULL, UInt64.toNat_or, UInt64.toNat_shiftLeft, UInt32.toNat_toUInt64,
    UInt32.toNat_toUInt64]
  change ts.secs.toNat <<< 32 % 2 ^ 64 ||| ts.i.toNat = _
  rw [hhigh, ← Nat.shiftLeft_eq, BigEndian.shiftLeft_or_of_lt hi, Nat.shiftLeft_eq]

theorem secs_asTimestamp (t : LogicalTime) : t.asTimestamp.secs.toNat = t.time.toNat / 2 ^ 32 := by
  have ht := t.time.toNat_lt
  rw [LogicalTime.asTimestamp, UInt64.toNat_toUInt32, UInt64.toNat_shiftRight]
  change t.time.toNat >>> 32 % 2 ^ 32 = _
  rw [Nat.shiftRight_eq_div_pow]
  omega

theorem i_asTimestamp (t : LogicalTime) : t.asTimestamp.i.toNat = t.time.toNat % 2 ^ 32 := by
  rw [LogicalTime.asTimestamp, UInt64.toNat_toUInt32]

theorem toNat_ofTimestamp (ts : Timestamp) :
    (LogicalTime.ofTimestamp ts).time.toNat = ts.secs.toNat * 2 ^ 32 + ts.i.toNat :=
  toNat_asULL ts

/-- `operator<` on `LogicalTime`s is `<` on the words. -/
theorem lt_iff (l r : LogicalTime) : l.lt r = true ↔ l.time.toNat < r.time.toNat := by
  simp only [LogicalTime.lt, Timestamp.lt, Bool.or_eq_true, Bool.and_eq_true, beq_iff_eq,
    decide_eq_true_eq, UInt32.lt_iff_toNat_lt, ← UInt32.toNat_inj, secs_asTimestamp,
    i_asTimestamp]
  omega

theorem toNat_kMaxSignedInt : kMaxSignedInt.toNat = 2 ^ 31 - 1 := by decide

/-- The clock's invariant: seconds and increment at most `2^31 - 1`. -/
def Bounded (t : LogicalTime) : Prop :=
  t.time.toNat / 2 ^ 32 ≤ 2 ^ 31 - 1 ∧ t.time.toNat % 2 ^ 32 ≤ 2 ^ 31 - 1

theorem lessThanOrEqualToMaxPossibleTime_iff (t : LogicalTime) {nTicks : UInt64}
    (hn : nTicks.toNat ≤ 2 ^ 31 - 1) :
    lessThanOrEqualToMaxPossibleTime t nTicks = true ↔
      t.time.toNat / 2 ^ 32 ≤ 2 ^ 31 - 1 ∧ t.time.toNat % 2 ^ 32 + nTicks.toNat ≤ 2 ^ 31 - 1 := by
  have hle : nTicks ≤ kMaxSignedInt.toUInt64 := by
    rw [UInt64.le_iff_toNat_le, UInt32.toNat_toUInt64, toNat_kMaxSignedInt]
    exact hn
  simp only [lessThanOrEqualToMaxPossibleTime, Bool.and_eq_true, decide_eq_true_eq,
    UInt32.le_iff_toNat_le, UInt64.le_iff_toNat_le, UInt64.toNat_sub_of_le _ _ hle,
    UInt32.toNat_toUInt64, toNat_kMaxSignedInt, secs_asTimestamp, i_asTimestamp]
  omega

/-- A time that passes `lessThanOrEqualToMaxPossibleTime` with no ticks is bounded. -/
theorem bounded_of_lessThanOrEqualToMaxPossibleTime {t : LogicalTime}
    (h : lessThanOrEqualToMaxPossibleTime t 0 = true) : Bounded t := by
  rw [lessThanOrEqualToMaxPossibleTime_iff t (by decide)] at h
  exact ⟨h.1, by simpa using h.2⟩

theorem bounded_init : Bounded init.clusterTime := by
  unfold Bounded init
  decide

/-! ## One lemma per call -/

/-- The time `reserveTicks` starts from: the wall clock's second when the cluster time is behind
it, the next second when `nTicks` more increments would pass `2^31 - 1`, and else the cluster
time. -/
def reserveBase (s : State) (nTicks : UInt64) (wallClockSecs : UInt32) : LogicalTime :=
  if s.clusterTime.asTimestamp.secs < wallClockSecs then LogicalTime.ofTimestamp ⟨wallClockSecs, 0⟩
  else if s.clusterTime.asTimestamp.i.toUInt64 > kMaxSignedInt.toUInt64 - nTicks then
    LogicalTime.ofTimestamp ⟨s.clusterTime.asTimestamp.secs + 1, 0⟩
  else s.clusterTime

theorem reserveTicks_eq (s : State) (nTicks : UInt64) (wallClockSecs : UInt32) :
    reserveTicks s nTicks wallClockSecs =
      if ¬ (nTicks > 0 ∧ nTicks ≤ kMaxSignedInt.toUInt64) then .error .nTicksOutOfRange
      else if !lessThanOrEqualToMaxPossibleTime (reserveBase s nTicks wallClockSecs) nTicks then
        .error (.uassert 40482)
      else
        .ok (⟨if nTicks > 1 then
              ((reserveBase s nTicks wallClockSecs).addTicks 1).addTicks (nTicks - 1)
            else (reserveBase s nTicks wallClockSecs).addTicks 1⟩,
          (reserveBase s nTicks wallClockSecs).addTicks 1) :=
  rfl

/-- The base is at or above the cluster time of a bounded clock. -/
theorem le_reserveBase {s : State} (hs : Bounded s.clusterTime) (nTicks : UInt64)
    (wallClockSecs : UInt32) :
    s.clusterTime.time.toNat ≤ (reserveBase s nTicks wallClockSecs).time.toNat := by
  have hsecs := secs_asTimestamp s.clusterTime
  unfold reserveBase
  split_ifs with hwall hinc
  · rw [toNat_ofTimestamp]
    rw [UInt32.lt_iff_toNat_lt, hsecs] at hwall
    simp only [UInt32.toNat_zero, add_zero]
    omega
  · rw [toNat_ofTimestamp, UInt32.toNat_add]
    simp only [UInt32.toNat_one, UInt32.toNat_zero, add_zero]
    obtain ⟨hsb, -⟩ := hs
    rw [hsecs, Nat.mod_eq_of_lt (by omega)]
    omega
  · exact le_refl _

/-- **What a reservation does.**  From a bounded clock, a reservation of `n` ticks that succeeds
picks a base time at or above the cluster time whose second and increment leave room for the
`n` ticks, returns the tick after it, and leaves the clock at its `n`-th tick. -/
theorem reserveTicks_eq_ok {s s' : State} {nTicks : UInt64} {wallClockSecs : UInt32}
    {r : LogicalTime} (hs : Bounded s.clusterTime)
    (h : reserveTicks s nTicks wallClockSecs = .ok (s', r)) :
    ∃ base : ℕ, s.clusterTime.time.toNat ≤ base ∧ base / 2 ^ 32 ≤ 2 ^ 31 - 1 ∧
      1 ≤ nTicks.toNat ∧ base % 2 ^ 32 + nTicks.toNat ≤ 2 ^ 31 - 1 ∧
      r.time.toNat = base + 1 ∧ s'.clusterTime.time.toNat = base + nTicks.toNat := by
  have hn : nTicks > 0 ∧ nTicks ≤ kMaxSignedInt.toUInt64 := by
    by_contra hn
    rw [reserveTicks_eq, if_pos hn] at h
    cases h
  have hmax : ¬ (!lessThanOrEqualToMaxPossibleTime (reserveBase s nTicks wallClockSecs) nTicks) =
      true := by
    intro hmax
    rw [reserveTicks_eq, if_neg (not_not.mpr hn), if_pos hmax] at h
    cases h
  rw [reserveTicks_eq, if_neg (not_not.mpr hn), if_neg hmax] at h
  obtain ⟨hn0, hnmax⟩ := hn
  rw [gt_iff_lt, UInt64.lt_iff_toNat_lt, UInt64.toNat_zero] at hn0
  rw [UInt64.le_iff_toNat_le, UInt32.toNat_toUInt64, toNat_kMaxSignedInt] at hnmax
  set base := reserveBase s nTicks wallClockSecs
  have hpass := (lessThanOrEqualToMaxPossibleTime_iff base hnmax).mp (by simpa using hmax)
  have hbase1 : (base.addTicks 1).time.toNat = base.time.toNat + 1 := by
    rw [LogicalTime.addTicks, UInt64.toNat_add, UInt64.toNat_one, Nat.mod_eq_of_lt (by omega)]
  obtain ⟨rfl, rfl⟩ := Prod.mk.inj (Except.ok.inj h)
  refine ⟨base.time.toNat, le_reserveBase hs nTicks wallClockSecs, hpass.1, hn0, hpass.2,
    hbase1, ?_⟩
  split_ifs with hgt
  · have hsub : (nTicks - 1).toNat = nTicks.toNat - 1 := by
      rw [UInt64.toNat_sub_of_le _ _ (by rw [UInt64.le_iff_toNat_le, UInt64.toNat_one]; omega),
        UInt64.toNat_one]
    rw [LogicalTime.addTicks, UInt64.toNat_add, hbase1, hsub, Nat.mod_eq_of_lt (by omega)]
    omega
  · rw [gt_iff_lt, UInt64.lt_iff_toNat_lt, UInt64.toNat_one] at hgt
    rw [hbase1]
    omega

/-- A time the rate limiter lets through is bounded. -/
theorem bounded_of_passesRateLimiter {t : LogicalTime} {w d : UInt32}
    (h : passesRateLimiter t w d = .ok ()) : Bounded t := by
  unfold passesRateLimiter at h
  dsimp only at h
  split_ifs at h with hrate hmax
  exact bounded_of_lessThanOrEqualToMaxPossibleTime (by simpa using hmax)

/-- `advanceClusterTime` that succeeds leaves the larger of the two times, and the new one is
bounded. -/
theorem advanceClusterTime_eq_ok {s s' : State} {newTime : LogicalTime} {w d : UInt32}
    (h : advanceClusterTime s newTime w d = .ok s') :
    Bounded newTime ∧ (s' = s ∨ s' = ⟨newTime⟩) ∧
      s.clusterTime.time.toNat ≤ s'.clusterTime.time.toNat ∧
      newTime.time.toNat ≤ s'.clusterTime.time.toNat := by
  rw [advanceClusterTime] at h
  obtain ⟨_, hpass, hnext⟩ := Except.bind_eq_ok.mp h
  have hb := bounded_of_passesRateLimiter hpass
  by_cases hlt : s.clusterTime.lt newTime = true
  · simp only [hlt, if_true, Except.pure_eq_ok, Except.ok.injEq] at hnext
    subst hnext
    exact ⟨hb, Or.inr rfl, ((lt_iff _ _).mp hlt).le, le_refl _⟩
  · simp only [hlt, Bool.false_eq_true, if_false, Except.pure_eq_ok, Except.ok.injEq] at hnext
    subst hnext
    rw [lt_iff, not_lt] at hlt
    exact ⟨hb, Or.inl rfl, le_refl _, hlt⟩

/-- `setClusterTimeFromTrustedSource` that succeeds leaves the larger of the two times, and the
new one is bounded. -/
theorem setClusterTimeFromTrustedSource_eq_ok {s s' : State} {newTime : LogicalTime}
    (h : setClusterTimeFromTrustedSource s newTime = .ok s') :
    Bounded newTime ∧ (s' = s ∨ s' = ⟨newTime⟩) ∧ s.clusterTime.time.toNat ≤ s'.clusterTime.time.toNat ∧
      newTime.time.toNat ≤ s'.clusterTime.time.toNat := by
  unfold setClusterTimeFromTrustedSource at h
  split_ifs at h with hmax hlt
  · have hb := bounded_of_lessThanOrEqualToMaxPossibleTime (by simpa using hmax)
    obtain rfl := Except.ok.inj h
    exact ⟨hb, Or.inr rfl, ((lt_iff _ _).mp hlt).le, le_refl _⟩
  · have hb := bounded_of_lessThanOrEqualToMaxPossibleTime (by simpa using hmax)
    obtain rfl := Except.ok.inj h
    rw [Bool.not_eq_true, ← Bool.not_eq_true, lt_iff, not_lt] at hlt
    exact ⟨hb, Or.inl rfl, le_refl _, hlt⟩

/-! ## Runs -/

/-- The last tick an event stands for: the time held or accepted, or the last tick reserved. -/
def Event.last : Event → ℕ
  | .held t => t
  | .reserved r n => r + n - 1
  | .accepted t => t

/-- `e` is recorded before `f` as the clock allows: a reservation starts above everything
recorded before it, and the cluster time is at or above it.  An accepted time may lie below the
cluster time, so nothing is asked of what comes before it. -/
def Event.Before (e f : Event) : Prop :=
  match f with
  | .reserved r _ => e.last < r
  | .held t => e.last ≤ t
  | .accepted _ => True

/-- Whether `f` may follow `e` depends on `e`'s last time alone, and an earlier one may follow
less. -/
theorem Event.Before.of_last_le {e e' f : Event} (h : Event.Before e' f)
    (hle : e.last ≤ e'.last) : Event.Before e f := by
  cases f with
  | reserved r n => exact lt_of_le_of_lt hle h
  | held t => exact hle.trans h
  | accepted t => trivial

/-- A reservation of `n ≥ 1` ticks from `r`: the ticks share `r`'s seconds and their increments
lie in `[1, 2^31 - 1]`. -/
def Event.WellFormed : Event → Prop
  | .reserved r n => 1 ≤ n ∧ (r + n - 1) / 2 ^ 32 = r / 2 ^ 32 ∧ 1 ≤ r % 2 ^ 32 ∧
      (r + n - 1) % 2 ^ 32 ≤ 2 ^ 31 - 1
  | .held _ | .accepted _ => True

/-- The invariant of a run: the clock is bounded, what was recorded is in order, and the
cluster time is at or above all of it. -/
structure Inv (s : State) (log : List Event) : Prop where
  bounded : Bounded s.clusterTime
  ordered : log.Pairwise Event.Before
  le_clusterTime : ∀ e ∈ log, e.last ≤ s.clusterTime.time.toNat
  wellFormed : ∀ e ∈ log, e.WellFormed

/-- Appending events that come after everything logged so far keeps the order. -/
theorem Inv.append {s s' : State} {log new : List Event} (hinv : Inv s log)
    (hbounded : Bounded s'.clusterTime) (hnew : new.Pairwise Event.Before)
    (hafter : ∀ f ∈ new, ∀ t ≤ s.clusterTime.time.toNat, Event.Before (.held t) f)
    (hle : ∀ f ∈ new, f.last ≤ s'.clusterTime.time.toNat)
    (hmono : s.clusterTime.time.toNat ≤ s'.clusterTime.time.toNat)
    (hwf : ∀ f ∈ new, f.WellFormed) : Inv s' (log ++ new) := by
  refine ⟨hbounded, ?_, ?_, ?_⟩
  · refine List.pairwise_append.mpr ⟨hinv.ordered, hnew, fun e he f hf => ?_⟩
    exact (hafter f hf e.last (hinv.le_clusterTime e he)).of_last_le le_rfl
  · intro e he
    rcases List.mem_append.mp he with he | he
    · exact (hinv.le_clusterTime e he).trans hmono
    · exact hle e he
  · intro e he
    rcases List.mem_append.mp he with he | he
    · exact hinv.wellFormed e he
    · exact hwf e he

/-- A call that fails records the cluster time it leaves as it was. -/
theorem Inv.unchanged {s : State} {log : List Event} (hinv : Inv s log) :
    Inv s (log ++ [.held s.clusterTime.time.toNat]) :=
  hinv.append hinv.bounded (List.pairwise_singleton _ _) (by simp [Event.Before, Event.last])
    (by simp [Event.last]) le_rfl (by simp [Event.WellFormed])

/-- An accepted time and the cluster time it leaves. -/
theorem Inv.accept {s s' : State} {log : List Event} {newTime : LogicalTime} (hinv : Inv s log)
    (h : Bounded newTime ∧ (s' = s ∨ s' = ⟨newTime⟩) ∧
      s.clusterTime.time.toNat ≤ s'.clusterTime.time.toNat ∧
      newTime.time.toNat ≤ s'.clusterTime.time.toNat) :
    Inv s' (log ++ [.accepted newTime.time.toNat, .held s'.clusterTime.time.toNat]) := by
  obtain ⟨hb, hs', hmono, hnew⟩ := h
  have hbounded : Bounded s'.clusterTime := by
    rcases hs' with rfl | rfl
    · exact hinv.bounded
    · exact hb
  refine hinv.append hbounded ?_ ?_ ?_ hmono (by simp [Event.WellFormed])
  · simpa [Event.Before, Event.last] using hnew
  · intro f hf t ht
    simp only [List.mem_cons, List.not_mem_nil, or_false] at hf
    rcases hf with rfl | rfl
    · trivial
    · simp only [Event.Before, Event.last]
      omega
  · simp [Event.last, hnew]

/-- A reservation and the cluster time it leaves. -/
theorem Inv.reserve {s s' : State} {log : List Event} {nTicks : UInt64} {wallClockSecs : UInt32}
    {r : LogicalTime} (hinv : Inv s log) (h : reserveTicks s nTicks wallClockSecs = .ok (s', r)) :
    Inv s' (log ++ [.reserved r.time.toNat nTicks.toNat, .held s'.clusterTime.time.toNat]) := by
  obtain ⟨base, hle, hsecs, hn, hinc, hr, hs'⟩ := reserveTicks_eq_ok hinv.bounded h
  have hbounded : Bounded s'.clusterTime := by
    rw [Bounded, hs']
    omega
  refine hinv.append hbounded ?_ ?_ ?_ (by omega) ?_
  · simp only [List.pairwise_cons, List.mem_singleton, forall_eq, Event.Before, Event.last,
      List.not_mem_nil, IsEmpty.forall_iff, implies_true, List.Pairwise.nil, and_true]
    omega
  · intro f hf t ht
    simp only [List.mem_cons, List.not_mem_nil, or_false] at hf
    rcases hf with rfl | rfl <;> simp only [Event.Before, Event.last] <;> omega
  · intro f hf
    simp only [List.mem_cons, List.not_mem_nil, or_false] at hf
    rcases hf with rfl | rfl <;> simp only [Event.last] <;> omega
  · intro f hf
    simp only [List.mem_cons, List.not_mem_nil, or_false] at hf
    rcases hf with rfl | rfl
    · simp only [Event.WellFormed]
      omega
    · trivial

/-- **Every call keeps the invariant.** -/
theorem Inv.step {s : State} {log : List Event} (hinv : Inv s log) (call : Call) :
    Inv (step s call).1 (log ++ (step s call).2) := by
  cases call with
  | reserveTicks nTicks wallClockSecs =>
      simp only [LogicalClock.step]
      split
      · next s' r h => exact hinv.reserve h
      · exact hinv.unchanged
  | advanceClusterTime newTime wallClockSecs maxAcceptableDriftSecs =>
      simp only [LogicalClock.step]
      split
      · next s' h => exact hinv.accept (advanceClusterTime_eq_ok h)
      · exact hinv.unchanged
  | setClusterTimeFromTrustedSource newTime =>
      simp only [LogicalClock.step]
      split
      · next s' h => exact hinv.accept (setClusterTimeFromTrustedSource_eq_ok h)
      · exact hinv.unchanged

/-- **Reserved cluster times are unique and strictly increasing.**  Over every sequence of calls
on a new clock, with any wall-clock readings, the run records events in the order `Before`.
The cluster time never decreases.  Each reservation starts strictly above every time the clock
held before it, every tick reserved before it and every time accepted before it.  The `n`
ticks of each reservation share its seconds and have increments in `[1, 2^31 - 1]`.  A process
that an out-of-range `nTicks` aborts has run the calls before it, which this covers. -/
theorem reservedTicks_increasing (calls : List Call) :
    (Trace.run step (init, [.held 0]) calls).2.Pairwise Event.Before ∧
      ∀ e ∈ (Trace.run step (init, [.held 0]) calls).2, e.WellFormed := by
  have hinit : Inv init [.held 0] :=
    ⟨bounded_init, List.pairwise_singleton _ _, by simp [Event.last], by simp [Event.WellFormed]⟩
  have hrun := Trace.run_invariant_all step Inv (fun s log call h => h.step call) calls init
    [.held 0] hinit
  exact ⟨hrun.ordered, hrun.wellFormed⟩

/-- A time the rate limiter turns away is never held, and a later reservation may lie below it:
from a new clock, `advanceClusterTime` to second 100 with the wall clock at second 0 and a drift
of 10 seconds fails, and `reserveTicks(1)` then returns tick 1. -/
theorem reserveTicks_below_rejected_time :
    advanceClusterTime init ⟨(100 : UInt64) <<< 32⟩ 0 10 = .error .clusterTimeFailsRateLimiter ∧
      reserveTicks init 1 0 = .ok (⟨⟨1⟩⟩, ⟨1⟩) ∧
      (1 : UInt64).toNat < ((100 : UInt64) <<< 32).toNat := by
  decide

end LogicalClock

end Mongo
