import Mathlib

/-!
# The topology coordinator's election state

What `TopologyCoordinatorImpl` (`topology_coordinator_impl.cpp`) keeps for protocol version 1
elections, and the methods that read and change it: the member's `_term`, its `_lastVote`, its
role and leader mode, and the parts of the configuration and of the heartbeat data that a vote
request is checked against.

`updateTerm` advances `_term` only when the member is not primary; a primary learning of a newer
term answers `kTriggerStepDown` and keeps its term until the step-down is over and a later call
advances it.  `processReplSetRequestVotes` refuses a vote for a term it has already voted in by
comparing `_lastVote`'s term with the request's for equality, and otherwise overwrites
`_lastVote`.

Not modelled: the times (`_electionSleepUntil`, election ids and optimes of the election),
`_currentPrimaryIndex` and the sync source, which `finishUnconditionalStepDown` and
`processWinElection` also set, and the wording of refusal reasons beyond the values they name.
-/

namespace Mongo
namespace Repl

/-- `TopologyCoordinator::Role`. -/
inductive Role
  | leader
  | follower
  | candidate
  deriving DecidableEq, Repr

/-- `TopologyCoordinator::LeaderMode`. -/
inductive LeaderMode
  | kNotLeader
  | kLeaderElect
  | kMaster
  | kSteppingDown
  | kAttemptingStepDown
  deriving DecidableEq, Repr

/-- An `OpTime`: a term and a timestamp. -/
structure OpTime where
  term : ℤ
  timestamp : ℕ
  deriving DecidableEq, Repr

/-- `OpTime::kUninitializedTerm`: the term of an optime of protocol version 0. -/
def OpTime.kUninitializedTerm : ℤ := -1

/-- `OpTime::operator<`.  An optime of protocol version 0 on either side compares the timestamps
only; otherwise `std::tie(_term, _timestamp) < std::tie(rhs._term, rhs._timestamp)`. -/
def OpTime.lt (a b : OpTime) : Bool :=
  if a.term = OpTime.kUninitializedTerm ∨ b.term = OpTime.kUninitializedTerm then
    decide (a.timestamp < b.timestamp)
  else decide (a.term < b.term) || (decide (a.term = b.term) && decide (a.timestamp < b.timestamp))

/-- A `LastVote`: the term of a vote and the index of the candidate it went to. -/
structure LastVote where
  term : ℤ
  candidateIndex : ℤ
  deriving DecidableEq, Repr

/-- What the vote path reads of a `MemberConfig`. -/
structure MemberConfig where
  priority : ℚ
  arbiterOnly : Bool
  deriving DecidableEq, Repr, Inhabited

/-- What the vote path reads of a `ReplSetConfig`. -/
structure ReplSetConfig where
  replSetName : String
  configVersion : ℤ
  members : List MemberConfig
  deriving DecidableEq, Repr

/-- `ReplSetConfig::getMemberAt(i)`.  The source indexes a vector; an index out of range, which it
never reads, reads the default member here. -/
def ReplSetConfig.getMemberAt (config : ReplSetConfig) (i : ℤ) : MemberConfig :=
  config.members.getD i.toNat default

/-- What the vote path reads of a `MemberData`: whether the member is up and whether its
heartbeats report it primary (`getState() == MemberState::RS_PRIMARY`). -/
structure MemberData where
  up : Bool
  primary : Bool
  deriving DecidableEq, Repr

/-- The fields of `TopologyCoordinatorImpl` that protocol version 1 elections read and write. -/
structure TopologyCoordinator where
  role : Role
  leaderMode : LeaderMode
  term : ℤ
  lastVote : LastVote
  selfIndex : ℤ
  rsConfig : ReplSetConfig
  memberData : List MemberData
  myLastAppliedOpTime : OpTime
  deriving DecidableEq, Repr

/-- `TopologyCoordinator::UpdateTermResult`. -/
inductive UpdateTermResult
  | kAlreadyUpToDate
  | kTriggerStepDown
  | kUpdatedTerm
  deriving DecidableEq, Repr

/-- A `replSetRequestVotes` request (`ReplSetRequestVotesArgs`). -/
structure ReplSetRequestVotesArgs where
  setName : String
  term : ℤ
  candidateIndex : ℤ
  configVersion : ℤ
  dryRun : Bool
  lastDurableOpTime : OpTime
  deriving DecidableEq, Repr

/-- Why a vote is refused, with the values the reason's text names. -/
inductive VoteRefusal
  /-- "candidate's term (..) is lower than mine (..)" -/
  | termLower (candidateTerm term : ℤ)
  /-- "candidate's config version (..) differs from mine (..)" -/
  | configVersionDiffers (candidateConfigVersion configVersion : ℤ)
  /-- "candidate's set name (..) differs from mine (..)" -/
  | setNameDiffers (candidateSetName setName : String)
  /-- "candidate's data is staler than mine. ..." -/
  | staleData (candidateOpTime opTime : OpTime)
  /-- "already voted for another candidate (..) this term (..)" -/
  | alreadyVoted (candidateIndex term : ℤ)
  /-- "can see a healthy primary (..) of equal or greater priority" -/
  | healthyPrimary (primaryIndex : ℤ)
  deriving DecidableEq, Repr

/-- A `ReplSetRequestVotesResponse`. -/
structure ReplSetRequestVotesResponse where
  term : ℤ
  voteGranted : Bool
  reason : Option VoteRefusal
  deriving DecidableEq, Repr

namespace TopologyCoordinator

/-- The initial state (`TopologyCoordinatorImpl`'s constructor and `_lastVote`'s initializer):
a follower in `OpTime::kUninitializedTerm`, with `_lastVote{OpTime::kInitialTerm, -1}`. -/
def init (selfIndex : ℤ) (rsConfig : ReplSetConfig) (memberData : List MemberData)
    (myLastAppliedOpTime : OpTime) : TopologyCoordinator where
  role := .follower
  leaderMode := .kNotLeader
  term := -1
  lastVote := ⟨0, -1⟩
  selfIndex := selfIndex
  rsConfig := rsConfig
  memberData := memberData
  myLastAppliedOpTime := myLastAppliedOpTime

variable (t : TopologyCoordinator)

/-- `_iAmPrimary()`. -/
def iAmPrimary : Bool :=
  t.role = .leader

/-- `updateTerm(term, now)`. -/
def updateTerm (term : ℤ) : UpdateTermResult × TopologyCoordinator :=
  if term ≤ t.term then (.kAlreadyUpToDate, t)
  -- a primary keeps its term until it has stepped down
  else if t.iAmPrimary then (.kTriggerStepDown, t)
  else (.kUpdatedTerm, { t with term := term })

/-- `prepareForUnconditionalStepDown()`: false when a step-down is already under way. -/
def prepareForUnconditionalStepDown : Bool × TopologyCoordinator :=
  if t.leaderMode = .kSteppingDown then (false, t)
  else (true, { t with leaderMode := .kSteppingDown })

/-- `finishUnconditionalStepDown()`, through `_stepDownSelfAndReplaceWith`. -/
def finishUnconditionalStepDown : TopologyCoordinator :=
  { t with role := .follower, leaderMode := .kNotLeader }

/-- `_findHealthyPrimaryOfEqualOrGreaterPriority(candidateIndex)`, over `_memberData` from the
member at index `i` on; `-1` when there is none. -/
def findHealthyPrimaryFrom (candidateIndex : ℤ) : ℕ → List MemberData → ℤ
  | _, [] => -1
  | i, data :: rest =>
      if !data.up || !data.primary then findHealthyPrimaryFrom candidateIndex (i + 1) rest
      else if (i : ℤ) ≠ candidateIndex ∧
          (t.rsConfig.getMemberAt candidateIndex).priority ≤ (t.rsConfig.getMemberAt i).priority
        then i
      else findHealthyPrimaryFrom candidateIndex (i + 1) rest

/-- `_findHealthyPrimaryOfEqualOrGreaterPriority(candidateIndex)`. -/
def findHealthyPrimaryOfEqualOrGreaterPriority (candidateIndex : ℤ) : ℤ :=
  t.findHealthyPrimaryFrom candidateIndex 0 t.memberData

/-- `processReplSetRequestVotes(args, response)`: the checks in the source's order; a vote that
is not a dry run overwrites `_lastVote`. -/
def processReplSetRequestVotes (args : ReplSetRequestVotesArgs) :
    ReplSetRequestVotesResponse × TopologyCoordinator :=
  let refuse (reason : VoteRefusal) : ReplSetRequestVotesResponse × TopologyCoordinator :=
    (⟨t.term, false, some reason⟩, t)
  if args.term < t.term then refuse (.termLower args.term t.term)
  else if args.configVersion ≠ t.rsConfig.configVersion then
    refuse (.configVersionDiffers args.configVersion t.rsConfig.configVersion)
  else if args.setName ≠ t.rsConfig.replSetName then
    refuse (.setNameDiffers args.setName t.rsConfig.replSetName)
  else if args.lastDurableOpTime.lt t.myLastAppliedOpTime then
    refuse (.staleData args.lastDurableOpTime t.myLastAppliedOpTime)
  -- the only guard against a second vote in a term
  else if !args.dryRun ∧ t.lastVote.term = args.term then
    refuse (.alreadyVoted t.lastVote.candidateIndex t.lastVote.term)
  else
    let betterPrimary := t.findHealthyPrimaryOfEqualOrGreaterPriority args.candidateIndex
    if (t.rsConfig.getMemberAt t.selfIndex).arbiterOnly ∧ 0 ≤ betterPrimary then
      refuse (.healthyPrimary betterPrimary)
    else if !args.dryRun then
      (⟨t.term, true, none⟩, { t with lastVote := ⟨args.term, args.candidateIndex⟩ })
    else (⟨t.term, true, none⟩, t)

/-- `voteForMyselfV1()`. -/
def voteForMyselfV1 : TopologyCoordinator :=
  { t with lastVote := ⟨t.term, t.selfIndex⟩ }

/-- `becomeCandidateIfElectable(now, reason)`; `electable` is what `_getMyUnelectableReason`
decides from the heartbeat data and the clock, which are not modelled. -/
def becomeCandidateIfElectable (electable : Bool) : Option TopologyCoordinator :=
  if t.role = .leader then none
  else if t.role = .candidate then none
  else if !electable then none
  else some { t with role := .candidate }

/-- `processWinElection(electionId, electionOpTime)`. -/
def processWinElection : TopologyCoordinator :=
  { t with role := .leader, leaderMode := .kLeaderElect }

/-- `processLoseElection()`. -/
def processLoseElection : TopologyCoordinator :=
  { t with role := .follower }

/-- `canCompleteTransitionToPrimary(termWhenDrainCompleted)`. -/
def canCompleteTransitionToPrimary (termWhenDrainCompleted : ℤ) : Bool :=
  termWhenDrainCompleted = t.term ∧
    (t.leaderMode = .kLeaderElect ∨ t.leaderMode = .kAttemptingStepDown)

/-- `completeTransitionToPrimary(firstOpTimeOfTerm)`; `none` is `PrimarySteppedDown`. -/
def completeTransitionToPrimary (firstOpTimeOfTerm : OpTime) : Option TopologyCoordinator :=
  if !t.canCompleteTransitionToPrimary firstOpTimeOfTerm.term then none
  else if t.leaderMode = .kLeaderElect then some { t with leaderMode := .kMaster }
  else some t

end TopologyCoordinator

end Repl
end Mongo
