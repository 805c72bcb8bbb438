import Mongo.Lib.Trace
import Mongo.Repl.TopologyCoordinator

/-!
# The replication coordinator's election steps

The steps of `ReplicationCoordinatorImpl` (`replication_coordinator_impl.cpp`,
`replication_coordinator_impl_elect_v1.cpp`, `replication_coordinator_impl_heartbeat.cpp`) that
drive a member's `TopologyCoordinator` through protocol version 1 elections, as a step function
on events the environment delivers in any order:

* a `replSetRequestVotes` command (`processReplSetRequestVotes`): `updateTerm` with the request's
  term, waiting for a step-down it starts, then the topology's check, then the `LastVote`
  document;
* a term learned from a heartbeat or from metadata (`_updateTerm_inlock`), which starts a
  step-down when a primary learns of a newer term, and the step-down's scheduled end
  (`_stepDownFinish`);
* the member's own election: becoming a candidate and starting the dry run
  (`_startElectSelfV1`), its end (`_onDryRunComplete`: `updateTerm(term + 1)` and
  `voteForMyselfV1`), the `LastVote` document written for it (`_writeLastVoteForMyElection`),
  the end of the real vote (`_onVoteRequestComplete`), and the end of drain mode
  (`signalDrainComplete`).

Each step emits the votes the member grants, not counting dry runs: the vote for itself when the
dry run succeeds, and each vote request it answers with `voteGranted` (`Trace` collects them).
The `VoteRequester`s are not modelled: the outcome of a dry run or of an election is part of the
event that ends it.  A write of the `LastVote` document does not fail here.
-/

namespace Mongo
namespace Repl

open TopologyCoordinator

/-- The election the coordinator is running: which callback `_voteRequester` will call. -/
inductive ElectionPhase
  | idle
  /-- `_onDryRunComplete(originalTerm)` -/
  | dryRun (originalTerm : ℤ)
  /-- `_writeLastVoteForMyElection(lastVote)` -/
  | writingLastVote (lastVote : LastVote)
  /-- `_onVoteRequestComplete(newTerm)` -/
  | voteRequest (newTerm : ℤ)
  deriving DecidableEq, Repr

/-- `VoteRequester::Result`. -/
inductive VoteRequesterResult
  | kSuccessfullyElected
  | kStaleTerm
  | kInsufficientVotes
  | kPrimaryRespondedNo
  deriving DecidableEq, Repr

/-- What `ReplicationCoordinatorImpl` keeps for elections: its topology coordinator, the election
it runs, and the local `LastVote` document. -/
structure ReplicationCoordinator where
  topCoord : TopologyCoordinator
  election : ElectionPhase
  lastVoteDocument : Option LastVote
  deriving DecidableEq, Repr

/-- What the environment delivers to a member. -/
inductive Event
  /-- a `replSetRequestVotes` command -/
  | requestVotes (args : ReplSetRequestVotesArgs)
  /-- a term from a heartbeat response or from request metadata -/
  | updateTerm (term : ℤ)
  /-- the scheduled `_stepDownFinish` -/
  | stepDownFinish
  /-- the election timeout: `becomeCandidateIfElectable` then `_startElectSelfV1` -/
  | startElection (electable : Bool)
  | dryRunComplete (result : VoteRequesterResult)
  | lastVoteWritten
  | voteRequestComplete (result : VoteRequesterResult)
  /-- `signalDrainComplete`, with the term of the first optime of the new term -/
  | drainComplete (firstOpTimeOfTerm : OpTime)
  deriving DecidableEq, Repr

namespace ReplicationCoordinator

variable (c : ReplicationCoordinator)

/-- `ReplicationCoordinatorExternalStateImpl::storeLocalLastVoteDocument(lastVote)`: the document
is replaced only by a vote of a higher term. -/
def storeLocalLastVoteDocument (lastVote : LastVote) : ReplicationCoordinator :=
  match c.lastVoteDocument with
  | none => { c with lastVoteDocument := some lastVote }
  | some old =>
      if old.term < lastVote.term then { c with lastVoteDocument := some lastVote } else c

/-- `_updateTerm_inlock(term, &updateTermResult)`: the result, and whether it started a
step-down (the event it returns is valid). -/
def updateTermInlock (term : ℤ) : UpdateTermResult × Bool × ReplicationCoordinator :=
  let updated := c.topCoord.updateTerm term
  if updated.1 = .kTriggerStepDown then
    let prepared := updated.2.prepareForUnconditionalStepDown
    (updated.1, prepared.1, { c with topCoord := prepared.2 })
  else (updated.1, false, { c with topCoord := updated.2 })

/-- `_stepDownFinish`: `finishUnconditionalStepDown`, which asserts that a step-down is under way
(`_leaderMode == kSteppingDown`, `_role == leader`); otherwise nothing happens. -/
def stepDownFinish : ReplicationCoordinator :=
  if c.topCoord.role = .leader ∧ c.topCoord.leaderMode = .kSteppingDown then
    { c with topCoord := c.topCoord.finishUnconditionalStepDown }
  else c

/-- `processReplSetRequestVotes(opCtx, args, response)`.  `updateTerm` waits for the step-down
it starts to finish before the topology checks the request. -/
def processReplSetRequestVotes (args : ReplSetRequestVotesArgs) :
    ReplSetRequestVotesResponse × ReplicationCoordinator :=
  let updated := c.updateTermInlock args.term
  let c₂ := if updated.2.1 then updated.2.2.stepDownFinish else updated.2.2
  let processed := c₂.topCoord.processReplSetRequestVotes args
  let c₃ := { c₂ with topCoord := processed.2 }
  if !args.dryRun && processed.1.voteGranted then
    (processed.1, c₃.storeLocalLastVoteDocument ⟨args.term, args.candidateIndex⟩)
  else (processed.1, c₃)

/-- The loss guards (`LoseElectionDryRunGuardV1`, `LoseElectionGuardV1`): `processLoseElection`
and no election running. -/
def loseElection : ReplicationCoordinator :=
  { c with topCoord := c.topCoord.processLoseElection, election := .idle }

/-- `becomeCandidateIfElectable` and `_startElectSelfV1`: a dry run in the current term. -/
def startElectSelfV1 (electable : Bool) : ReplicationCoordinator :=
  match c.topCoord.becomeCandidateIfElectable electable with
  | some t => { c with topCoord := t, election := .dryRun t.term }
  | none => c

/-- `_onDryRunComplete(originalTerm)`: on success, `updateTerm(originalTerm + 1)` and
`voteForMyselfV1`; the vote for itself is emitted. -/
def onDryRunComplete (originalTerm : ℤ) (result : VoteRequesterResult) :
    ReplicationCoordinator × List LastVote :=
  if c.topCoord.term ≠ originalTerm then (c.loseElection, [])
  else if result ≠ .kSuccessfullyElected then (c.loseElection, [])
  else
    let newTerm := originalTerm + 1
    -- "Stepdown is impossible from this term update."
    let c₁ := (c.updateTermInlock newTerm).2.2
    let t := c₁.topCoord.voteForMyselfV1
    ({ c₁ with topCoord := t, election := .writingLastVote ⟨newTerm, c.topCoord.selfIndex⟩ },
      [t.lastVote])

/-- `_writeLastVoteForMyElection(lastVote)`: the document, then the real vote if the term has not
moved on. -/
def writeLastVoteForMyElection (lastVote : LastVote) : ReplicationCoordinator :=
  let c₁ := c.storeLocalLastVoteDocument lastVote
  if c₁.topCoord.term ≠ lastVote.term then c₁.loseElection
  else { c₁ with election := .voteRequest lastVote.term }

/-- `_onVoteRequestComplete(newTerm)`.  A real vote never ends in `kPrimaryRespondedNo`, which the
source asserts; here it loses like the other failures. -/
def onVoteRequestComplete (newTerm : ℤ) (result : VoteRequesterResult) : ReplicationCoordinator :=
  if c.topCoord.term ≠ newTerm then c.loseElection
  else if result = .kSuccessfullyElected then
    { c with topCoord := c.topCoord.processWinElection, election := .idle }
  else c.loseElection

/-- `signalDrainComplete`: `completeTransitionToPrimary`. -/
def signalDrainComplete (firstOpTimeOfTerm : OpTime) : ReplicationCoordinator :=
  match c.topCoord.completeTransitionToPrimary firstOpTimeOfTerm with
  | some t => { c with topCoord := t }
  | none => c

/-- One event, and the votes the member grants in it.  A callback of an election that is not
running is never called. -/
def step : Event → ReplicationCoordinator × List LastVote
  | .requestVotes args =>
      let processed := c.processReplSetRequestVotes args
      (processed.2,
        if !args.dryRun && processed.1.voteGranted then [⟨args.term, args.candidateIndex⟩] else [])
  | .updateTerm term => ((c.updateTermInlock term).2.2, [])
  | .stepDownFinish => (c.stepDownFinish, [])
  | .startElection electable => (c.startElectSelfV1 electable, [])
  | .dryRunComplete result =>
      match c.election with
      | .dryRun originalTerm => c.onDryRunComplete originalTerm result
      | _ => (c, [])
  | .lastVoteWritten =>
      match c.election with
      | .writingLastVote lastVote => (c.writeLastVoteForMyElection lastVote, [])
      | _ => (c, [])
  | .voteRequestComplete result =>
      match c.election with
      | .voteRequest newTerm => (c.onVoteRequestComplete newTerm result, [])
      | _ => (c, [])
  | .drainComplete firstOpTimeOfTerm => (c.signalDrainComplete firstOpTimeOfTerm, [])

end ReplicationCoordinator

/-- A member that has just started: its topology coordinator's initial state, no election, and
no `LastVote` document. -/
def ReplicationCoordinator.init (t : TopologyCoordinator) : ReplicationCoordinator :=
  ⟨t, .idle, none⟩

/-- The state a member reaches on `events` from `c`, and the votes it grants on the way. -/
def runEvents (c : ReplicationCoordinator) (events : List Event) :
    ReplicationCoordinator × List LastVote :=
  Trace.run ReplicationCoordinator.step (c, []) events

end Repl
end Mongo
