import Mathlib
import Mongo.Repl.TopologyCoordinator

/-!
# The commit point

How a primary advances `_lastCommittedOpTime`, the newest optime it knows a majority of the set
to have (`topology_coordinator_impl.cpp`).

* `updateLastCommittedOpTime` collects the applied optime of every voting member from
  `_memberData`, or the durable one when the configuration journals majority writes.  It sorts
  them with `OpTime::operator<` and takes the one at index `size - getWriteMajority()`.
* `advanceLastCommittedOpTime` sets the commit point to an optime unless it equals the current
  one or is older.  A primary also refuses an optime older than `_firstOpTimeOfMyTerm`.
  Heartbeats call it directly with the commit point their sender reports.
* `ReplSetConfig::_calculateMajorities` sets `_writeMajority` to
  `min(voters / 2 + 1, voters - arbiters)`.

A run is a sequence of `Event`s: the two methods, and any other method of the coordinator, which
may change every field these two read except `_lastCommittedOpTime`.  `commitPoints` lists the
commit point before each event and after the last one, up to an `invariant` that fails.

The coordinator here is the part of `TopologyCoordinatorImpl` that the two methods read.  The
configuration and the heartbeat data are reduced the same way, so their types shadow the election
model's.  Not modelled: the log lines, and the invariants of `_iAmPrimary` on
`_currentPrimaryIndex` and the leader mode.  The member counts fit in an `int`, as
`ReplSetConfig::validate` allows at most 50 members.
-/

namespace Mongo
namespace Repl

/-- `OpTime()`: timestamp `Timestamp(0, 0)` in `kUninitializedTerm`, the smallest optime. -/
def OpTime.null : OpTime :=
  ⟨OpTime.kUninitializedTerm, 0⟩

/-- `OpTime::operator==`: an optime of protocol version 0 on either side compares the timestamps
only, so that `(Timestamp(), 0) == (Timestamp(), -1)`. -/
def OpTime.eq (a b : OpTime) : Bool :=
  if a.term = OpTime.kUninitializedTerm ∨ b.term = OpTime.kUninitializedTerm then
    decide (a.timestamp = b.timestamp)
  else decide (a.term = b.term) && decide (a.timestamp = b.timestamp)

/-- `OpTime::operator>=`: `!(*this < rhs)`. -/
def OpTime.ge (a b : OpTime) : Bool :=
  !a.lt b

namespace CommitPoint

/-- What `updateLastCommittedOpTime` reads of a `MemberConfig`: `_votes` and `_arbiterOnly`. -/
structure MemberConfig where
  votes : ℤ
  arbiterOnly : Bool
  deriving DecidableEq, Repr

/-- `MemberConfig::isVoter`. -/
def MemberConfig.isVoter (m : MemberConfig) : Bool :=
  m.votes ≠ 0

/-- `MemberConfig::isArbiter`. -/
def MemberConfig.isArbiter (m : MemberConfig) : Bool :=
  m.arbiterOnly

/-- What the commit point reads of a `ReplSetConfig`: the members and
`writeConcernMajorityJournalDefault`. -/
structure ReplSetConfig where
  members : List MemberConfig
  writeConcernMajorityJournalDefault : Bool
  deriving DecidableEq, Repr

namespace ReplSetConfig

variable (c : ReplSetConfig)

/-- `_writeMajority` as `_calculateMajorities` sets it:
`std::min(_majorityVoteCount, voters - arbiters)` with `_majorityVoteCount = voters / 2 + 1`. -/
def getWriteMajority : ℤ :=
  let voters : ℤ := c.members.countP MemberConfig.isVoter
  let arbiters : ℤ := c.members.countP MemberConfig.isArbiter
  let majorityVoteCount := voters.tdiv 2 + 1
  min majorityVoteCount (voters - arbiters)

/-- `getWriteConcernMajorityShouldJournal()`. -/
def getWriteConcernMajorityShouldJournal : Bool :=
  c.writeConcernMajorityJournalDefault

/-- `getMemberAt(i)`; `none` when its `invariant(i < _members.size())` fails. -/
def getMemberAt (i : ℕ) : Option MemberConfig :=
  c.members[i]?

end ReplSetConfig

/-- What the commit point reads of a `MemberData`. -/
structure MemberData where
  configIndex : ℤ
  lastAppliedOpTime : OpTime
  lastDurableOpTime : OpTime
  deriving DecidableEq, Repr

/-- The fields of `TopologyCoordinatorImpl` that the commit point reads and writes. -/
structure TopologyCoordinator where
  role : Role
  leaderMode : LeaderMode
  rsConfig : ReplSetConfig
  memberData : List MemberData
  lastCommittedOpTime : OpTime
  firstOpTimeOfMyTerm : OpTime
  deriving DecidableEq, Repr

/-- `static_cast<unsigned long>` of an `int`: a negative value wraps to `2^64 + w`. -/
def unsignedLong (w : ℤ) : ℕ :=
  if 0 ≤ w then w.toNat else (2 ^ 64 + w).toNat

/-- `std::sort` of a vector of optimes with `OpTime::operator<`, here an insertion sort.  Where
the comparison is a strict weak order every sort gives this list, up to optimes neither of which
is before the other. -/
def sortOpTimes (opTimes : List OpTime) : List OpTime :=
  opTimes.insertionSort (fun a b => b.lt a = false)

/-- The optime `updateLastCommittedOpTime` passes on: `votingNodesOpTimes[size - writeMajority]`
of the sorted vector.  An index past the end, which a write majority of at least 1 never gives,
reads `OpTime()` here. -/
def committedOpTime (votingNodesOpTimes : List OpTime) (writeMajority : ℕ) : OpTime :=
  let sorted := sortOpTimes votingNodesOpTimes
  sorted.getD (sorted.length - writeMajority) OpTime.null

namespace TopologyCoordinator

variable (t : TopologyCoordinator)

/-- `_iAmPrimary()`. -/
def iAmPrimary : Bool :=
  t.role = .leader

/-- The loop of `updateLastCommittedOpTime` over `_memberData`: the applied or durable optime of
each voting member, in order.  `none` when `invariant(memberIndex >= 0)` or `getMemberAt`'s
invariant fails. -/
def collectVotingOpTimes (useDurableOpTime : Bool) : List MemberData → Option (List OpTime)
  | [] => some []
  | memberData :: rest =>
      let memberIndex := memberData.configIndex
      if memberIndex < 0 then none
      else
        match t.rsConfig.getMemberAt memberIndex.toNat with
        | none => none
        | some memberConfig =>
            match collectVotingOpTimes useDurableOpTime rest with
            | none => none
            | some others =>
                if memberConfig.isVoter then
                  let opTime :=
                    if useDurableOpTime then memberData.lastDurableOpTime
                    else memberData.lastAppliedOpTime
                  some (opTime :: others)
                else some others

/-- `votingNodesOpTimes` as `updateLastCommittedOpTime` collects it. -/
def votingNodesOpTimes : Option (List OpTime) :=
  t.collectVotingOpTimes t.rsConfig.getWriteConcernMajorityShouldJournal t.memberData

/-- `advanceLastCommittedOpTime(committedOpTime)`: whether the commit point moved, and the new
state. -/
def advanceLastCommittedOpTime (committedOpTime : OpTime) : Bool × TopologyCoordinator :=
  if committedOpTime.eq t.lastCommittedOpTime then (false, t)
  -- an older commit point, as an out-of-order heartbeat may report
  else if committedOpTime.lt t.lastCommittedOpTime then (false, t)
  -- a primary does not commit an optime of an earlier term
  else if t.iAmPrimary && committedOpTime.lt t.firstOpTimeOfMyTerm then (false, t)
  else (true, { t with lastCommittedOpTime := committedOpTime })

/-- `updateLastCommittedOpTime()`; `none` when an `invariant` fails. -/
def updateLastCommittedOpTime : Option (Bool × TopologyCoordinator) :=
  if !t.iAmPrimary || t.leaderMode = .kSteppingDown then some (false, t)
  else
    match t.votingNodesOpTimes with
    | none => none
    | some votingNodesOpTimes =>
        -- `invariant(votingNodesOpTimes.size() > 0)`
        if votingNodesOpTimes.length = 0 then none
        else if votingNodesOpTimes.length < unsignedLong t.rsConfig.getWriteMajority then
          some (false, t)
        else
          some (t.advanceLastCommittedOpTime
            (committedOpTime votingNodesOpTimes (unsignedLong t.rsConfig.getWriteMajority)))

end TopologyCoordinator

/-- What happens to the coordinator: one of the two methods, or any other method. -/
inductive Event
  | updateLastCommittedOpTime
  | advanceLastCommittedOpTime (committedOpTime : OpTime)
  /-- Any other method.  Heartbeats set `_memberData`; elections, step-downs and
  `completeTransitionToPrimary` set the role, the leader mode and `_firstOpTimeOfMyTerm`; a
  reconfiguration sets `_rsConfig`.  None of them writes `_lastCommittedOpTime`. -/
  | other (role : Role) (leaderMode : LeaderMode) (rsConfig : ReplSetConfig)
      (memberData : List MemberData) (firstOpTimeOfMyTerm : OpTime)
  deriving DecidableEq, Repr

namespace TopologyCoordinator

variable (t : TopologyCoordinator)

/-- One event; `none` when an `invariant` fails and the process stops. -/
def step : Event → Option TopologyCoordinator
  | .updateLastCommittedOpTime => t.updateLastCommittedOpTime.map Prod.snd
  | .advanceLastCommittedOpTime committedOpTime =>
      some (t.advanceLastCommittedOpTime committedOpTime).2
  | .other role leaderMode rsConfig memberData firstOpTimeOfMyTerm =>
      some { t with
        role := role
        leaderMode := leaderMode
        rsConfig := rsConfig
        memberData := memberData
        firstOpTimeOfMyTerm := firstOpTimeOfMyTerm }

/-- The commit point before each event and after the last one, until an `invariant` fails. -/
def commitPoints (t : TopologyCoordinator) : List Event → List OpTime
  | [] => [t.lastCommittedOpTime]
  | event :: events =>
      t.lastCommittedOpTime ::
        match t.step event with
        | none => []
        | some t' => commitPoints t' events

end TopologyCoordinator

end CommitPoint

end Repl
end Mongo
