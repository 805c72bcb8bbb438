import Mongo.Repl.ReplicationCoordinator

/-!
# One vote per term, and the runs that break it

A member's votes are safe when it never grants a vote for a term after granting one for that
term to another candidate (`OneVotePerTerm`).  The only guard in `processReplSetRequestVotes` is
`_lastVote.getTerm() == args.getTerm()`, which is enough as long as `_lastVote`'s term never
exceeds `_term`: every vote granted then goes to a term above every earlier one.  That is the
invariant `VoteInv`, and every step keeps it (`VoteInv.step`) except one: a vote request for a
term above the member's own while it is primary (`LaggingVoteRequest`).  There `updateTerm`
answers `kTriggerStepDown` without advancing `_term`, the vote is granted, and `_lastVote`'s term
is left above `_term`; a later request for a term in between is granted too and overwrites
`_lastVote` with a lower term, after which the first term can be voted in again
(`runEvents_votes_twice_in_term`).

The first group of lemmas says what each step does to the term, the last vote, the role and the
election, so that the invariant's proof never unfolds a step.
-/

namespace Mongo
namespace Repl

/-! ### What the topology coordinator's methods change -/

namespace TopologyCoordinator

variable (t : TopologyCoordinator) (term : ℤ) (args : ReplSetRequestVotesArgs)

@[simp]
theorem updateTerm_role : (t.updateTerm term).2.role = t.role := by
  unfold updateTerm; split_ifs <;> rfl

@[simp]
theorem updateTerm_lastVote : (t.updateTerm term).2.lastVote = t.lastVote := by
  unfold updateTerm; split_ifs <;> rfl

theorem le_updateTerm_term : t.term ≤ (t.updateTerm term).2.term := by
  unfold updateTerm
  split_ifs with hle <;> dsimp only <;> omega

/-- A member that is not primary takes every newer term it learns. -/
theorem updateTerm_term_of_ne_leader (h : t.role ≠ .leader) (hlt : t.term < term) :
    (t.updateTerm term).2.term = term := by
  unfold updateTerm
  rw [if_neg (not_le.mpr hlt), if_neg (by simp [iAmPrimary, h])]

theorem le_updateTerm_term_of_ne_leader (h : t.role ≠ .leader) :
    term ≤ (t.updateTerm term).2.term := by
  rcases le_or_gt term t.term with hle | hlt
  · exact hle.trans (t.le_updateTerm_term term)
  · exact (t.updateTerm_term_of_ne_leader term h hlt).ge

theorem role_of_updateTerm_eq_kTriggerStepDown
    (h : (t.updateTerm term).1 = .kTriggerStepDown) : t.role = .leader := by
  unfold updateTerm at h
  split_ifs at h with hle hp
  simpa [iAmPrimary] using hp

@[simp]
theorem prepareForUnconditionalStepDown_term : t.prepareForUnconditionalStepDown.2.term = t.term := by
  unfold prepareForUnconditionalStepDown; split_ifs <;> rfl

@[simp]
theorem prepareForUnconditionalStepDown_lastVote :
    t.prepareForUnconditionalStepDown.2.lastVote = t.lastVote := by
  unfold prepareForUnconditionalStepDown; split_ifs <;> rfl

@[simp]
theorem prepareForUnconditionalStepDown_role :
    t.prepareForUnconditionalStepDown.2.role = t.role := by
  unfold prepareForUnconditionalStepDown; split_ifs <;> rfl

@[simp]
theorem processReplSetRequestVotes_term : (t.processReplSetRequestVotes args).2.term = t.term := by
  unfold processReplSetRequestVotes; dsimp only; split_ifs <;> rfl

@[simp]
theorem processReplSetRequestVotes_role : (t.processReplSetRequestVotes args).2.role = t.role := by
  unfold processReplSetRequestVotes; dsimp only; split_ifs <;> rfl

/-- A vote request changes `_lastVote` only by a vote it grants, not in a dry run. -/
theorem processReplSetRequestVotes_lastVote :
    (t.processReplSetRequestVotes args).2.lastVote =
      if (t.processReplSetRequestVotes args).1.voteGranted && !args.dryRun then
        ⟨args.term, args.candidateIndex⟩
      else t.lastVote := by
  unfold processReplSetRequestVotes
  dsimp only
  split_ifs <;> simp_all

/-- What a granted vote that is not a dry run has passed: the term check and the equality test
against `_lastVote`. -/
theorem processReplSetRequestVotes_granted
    (h : (t.processReplSetRequestVotes args).1.voteGranted = true) (hd : args.dryRun = false) :
    t.term ≤ args.term ∧ t.lastVote.term ≠ args.term := by
  unfold processReplSetRequestVotes at h
  dsimp only at h
  split_ifs at h <;> simp_all

theorem becomeCandidateIfElectable_eq_some {electable : Bool} {t' : TopologyCoordinator}
    (h : t.becomeCandidateIfElectable electable = some t') :
    t'.role = .candidate ∧ t'.term = t.term ∧ t'.lastVote = t.lastVote := by
  unfold becomeCandidateIfElectable at h
  split_ifs at h
  cases h
  exact ⟨rfl, rfl, rfl⟩

theorem completeTransitionToPrimary_eq_some {firstOpTimeOfTerm : OpTime} {t' : TopologyCoordinator}
    (h : t.completeTransitionToPrimary firstOpTimeOfTerm = some t') :
    t'.role = t.role ∧ t'.term = t.term ∧ t'.lastVote = t.lastVote := by
  unfold completeTransitionToPrimary at h
  split_ifs at h <;> cases h <;> exact ⟨rfl, rfl, rfl⟩

end TopologyCoordinator

/-! ### What the replication coordinator's steps change -/

namespace ReplicationCoordinator

open TopologyCoordinator

variable (c : ReplicationCoordinator) (term : ℤ) (lastVote : LastVote)

@[simp]
theorem storeLocalLastVoteDocument_topCoord :
    (c.storeLocalLastVoteDocument lastVote).topCoord = c.topCoord := by
  unfold storeLocalLastVoteDocument; split <;> (try split_ifs) <;> rfl

@[simp]
theorem storeLocalLastVoteDocument_election :
    (c.storeLocalLastVoteDocument lastVote).election = c.election := by
  unfold storeLocalLastVoteDocument; split <;> (try split_ifs) <;> rfl

@[simp]
theorem updateTermInlock_term :
    (c.updateTermInlock term).2.2.topCoord.term = (c.topCoord.updateTerm term).2.term := by
  unfold updateTermInlock; dsimp only; split_ifs <;> simp

@[simp]
theorem updateTermInlock_lastVote :
    (c.updateTermInlock term).2.2.topCoord.lastVote = c.topCoord.lastVote := by
  unfold updateTermInlock; dsimp only; split_ifs <;> simp

@[simp]
theorem updateTermInlock_role : (c.updateTermInlock term).2.2.topCoord.role = c.topCoord.role := by
  unfold updateTermInlock; dsimp only; split_ifs <;> simp

@[simp]
theorem updateTermInlock_election : (c.updateTermInlock term).2.2.election = c.election := by
  unfold updateTermInlock; dsimp only; split_ifs <;> rfl

/-- Only a primary starts a step-down. -/
theorem role_of_updateTermInlock_started (h : (c.updateTermInlock term).2.1 = true) :
    c.topCoord.role = .leader := by
  unfold updateTermInlock at h
  dsimp only at h
  split_ifs at h with ht
  exact c.topCoord.role_of_updateTerm_eq_kTriggerStepDown term ht

@[simp]
theorem stepDownFinish_term : c.stepDownFinish.topCoord.term = c.topCoord.term := by
  unfold stepDownFinish; split_ifs <;> rfl

@[simp]
theorem stepDownFinish_lastVote : c.stepDownFinish.topCoord.lastVote = c.topCoord.lastVote := by
  unfold stepDownFinish; split_ifs <;> rfl

@[simp]
theorem stepDownFinish_election : c.stepDownFinish.election = c.election := by
  unfold stepDownFinish; split_ifs <;> rfl

/-- The end of a step-down changes the role of a primary only. -/
theorem stepDownFinish_role_of_ne_leader (h : c.topCoord.role ≠ .leader) :
    c.stepDownFinish.topCoord.role = c.topCoord.role := by
  unfold stepDownFinish; rw [if_neg (by simp [h])]

variable (args : ReplSetRequestVotesArgs)

@[simp]
theorem processReplSetRequestVotes_election :
    (c.processReplSetRequestVotes args).2.election = c.election := by
  unfold processReplSetRequestVotes; dsimp only; split_ifs <;> simp

@[simp]
theorem processReplSetRequestVotes_topCoord_term :
    (c.processReplSetRequestVotes args).2.topCoord.term = (c.topCoord.updateTerm args.term).2.term := by
  unfold processReplSetRequestVotes; dsimp only; split_ifs <;> simp

/-- Only a primary changes its role on a vote request: it steps down first. -/
theorem processReplSetRequestVotes_role_of_ne_leader (h : c.topCoord.role ≠ .leader) :
    (c.processReplSetRequestVotes args).2.topCoord.role = c.topCoord.role := by
  have hrole : (c.updateTermInlock args.term).2.2.topCoord.role ≠ .leader := by simpa using h
  unfold processReplSetRequestVotes; dsimp only
  split_ifs <;> simp [stepDownFinish_role_of_ne_leader _ hrole]

theorem processReplSetRequestVotes_topCoord_lastVote :
    (c.processReplSetRequestVotes args).2.topCoord.lastVote =
      if !args.dryRun && (c.processReplSetRequestVotes args).1.voteGranted then
        ⟨args.term, args.candidateIndex⟩
      else c.topCoord.lastVote := by
  unfold processReplSetRequestVotes; dsimp only
  split_ifs <;> simp_all [TopologyCoordinator.processReplSetRequestVotes_lastVote, Bool.and_comm]

/-- A vote granted on a request, not in a dry run, is for a term at least the member's term once
it has taken the request's, and not the term of its last vote. -/
theorem processReplSetRequestVotes_granted_of_updateTerm
    (h : (c.processReplSetRequestVotes args).1.voteGranted = true) (hd : args.dryRun = false) :
    (c.topCoord.updateTerm args.term).2.term ≤ args.term ∧ c.topCoord.lastVote.term ≠ args.term := by
  unfold processReplSetRequestVotes at h; dsimp only at h
  split_ifs at h <;>
    simpa using TopologyCoordinator.processReplSetRequestVotes_granted _ args h hd

end ReplicationCoordinator

/-! ### The invariant -/

/-- No two votes of the log for one term go to different candidates. -/
def OneVotePerTerm (votes : List LastVote) : Prop :=
  votes.Pairwise fun v w => v.term = w.term → v.candidateIndex = w.candidateIndex

instance : DecidablePred OneVotePerTerm := fun votes =>
  inferInstanceAs (Decidable (votes.Pairwise _))

/-- What makes the equality test against `_lastVote` enough: its term never exceeds `_term`, and
every vote granted so far is `_lastVote` or of a lower term. -/
structure VoteInv (c : ReplicationCoordinator) (votes : List LastVote) : Prop where
  lastVote_le_term : c.topCoord.lastVote.term ≤ c.topCoord.term
  candidate_of_election : c.election ≠ .idle → c.topCoord.role = .candidate
  le_lastVote : ∀ v ∈ votes, v.term < c.topCoord.lastVote.term ∨ v = c.topCoord.lastVote
  oneVotePerTerm : OneVotePerTerm votes

/-- The one step that can break `VoteInv`: a vote request, not a dry run, for a term above the
member's while it is primary, so that `updateTerm` leaves the term behind. -/
def LaggingVoteRequest (c : ReplicationCoordinator) : Event → Prop
  | .requestVotes args =>
      args.dryRun = false ∧ c.topCoord.role = .leader ∧ c.topCoord.term < args.term
  | _ => False

namespace VoteInv

variable {c c' : ReplicationCoordinator} {votes : List LastVote}

/-- A step that grants no vote keeps the invariant when it keeps `_lastVote`, does not lower the
term, and leaves an election running only with the member a candidate. -/
theorem frame (h : VoteInv c votes) (hlv : c'.topCoord.lastVote = c.topCoord.lastVote)
    (hterm : c.topCoord.term ≤ c'.topCoord.term)
    (hcand : c'.election ≠ .idle → c'.topCoord.role = .candidate) : VoteInv c' votes where
  lastVote_le_term := by rw [hlv]; exact h.lastVote_le_term.trans hterm
  candidate_of_election := hcand
  le_lastVote := by rw [hlv]; exact h.le_lastVote
  oneVotePerTerm := h.oneVotePerTerm

/-- A vote granted for a term above `_lastVote`'s, which becomes `_lastVote`, keeps the
invariant: it is for a term no earlier vote has. -/
theorem grant {u : LastVote} (h : VoteInv c votes) (hlt : c.topCoord.lastVote.term < u.term)
    (hlv : c'.topCoord.lastVote = u) (hterm : u.term ≤ c'.topCoord.term)
    (hcand : c'.election ≠ .idle → c'.topCoord.role = .candidate) :
    VoteInv c' (votes ++ [u]) where
  lastVote_le_term := by rw [hlv]; exact hterm
  candidate_of_election := hcand
  le_lastVote := by
    intro v hv
    rw [hlv]
    rcases List.mem_append.mp hv with hv | hv
    · left
      rcases h.le_lastVote v hv with hlt' | rfl
      · exact hlt'.trans hlt
      · exact hlt
    · right; simpa using hv
  oneVotePerTerm := by
    refine List.pairwise_append.mpr ⟨h.oneVotePerTerm, List.pairwise_singleton _ _, ?_⟩
    intro v hv w hw hterm'
    rw [List.mem_singleton] at hw
    subst hw
    have hvlt : v.term < w.term := by
      rcases h.le_lastVote v hv with hlt' | rfl
      · exact hlt'.trans hlt
      · exact hlt
    exact absurd hterm' hvlt.ne

theorem loseElection (h : VoteInv c votes) : VoteInv c.loseElection votes :=
  h.frame rfl le_rfl (by simp [ReplicationCoordinator.loseElection])

/-- A vote request that is not lagging keeps the invariant: a vote it grants is for a term the
member has taken, above `_lastVote`'s. -/
theorem requestVotes {args : ReplSetRequestVotesArgs} (h : VoteInv c votes)
    (hg : ¬LaggingVoteRequest c (.requestVotes args)) :
    VoteInv (c.step (.requestVotes args)).1 (votes ++ (c.step (.requestVotes args)).2) := by
  set r := c.processReplSetRequestVotes args with hr
  have hcand : r.2.election ≠ .idle → r.2.topCoord.role = .candidate := by
    intro he
    rw [hr, ReplicationCoordinator.processReplSetRequestVotes_election] at he
    have hc := h.candidate_of_election he
    rw [hr, ReplicationCoordinator.processReplSetRequestVotes_role_of_ne_leader _ _ (by simp [hc]),
      hc]
  simp only [ReplicationCoordinator.step, ← hr]
  by_cases hgrant : args.dryRun = false ∧ r.1.voteGranted = true
  · obtain ⟨hd, hv⟩ := hgrant
    obtain ⟨hle, hne⟩ := c.processReplSetRequestVotes_granted_of_updateTerm args hv hd
    have hterm : args.term ≤ (c.topCoord.updateTerm args.term).2.term := by
      by_cases hl : c.topCoord.role = .leader
      · have : args.term ≤ c.topCoord.term := by
          simp only [LaggingVoteRequest, hd, hl, true_and, not_lt] at hg
          exact hg
        exact this.trans (c.topCoord.le_updateTerm_term args.term)
      · exact c.topCoord.le_updateTerm_term_of_ne_leader args.term hl
    have hlt : c.topCoord.lastVote.term < args.term :=
      lt_of_le_of_ne (h.lastVote_le_term.trans
        ((c.topCoord.le_updateTerm_term args.term).trans hle)) hne
    rw [if_pos (by simp [hd, hv])]
    refine h.grant hlt ?_ ?_ hcand
    · rw [hr, ReplicationCoordinator.processReplSetRequestVotes_topCoord_lastVote, ← hr,
        if_pos (by simp [hd, hv])]
    · rw [hr, ReplicationCoordinator.processReplSetRequestVotes_topCoord_term]
      exact hterm
  · have hnot : (!args.dryRun && r.1.voteGranted) = false := by
      cases hd : args.dryRun <;> cases hv : r.1.voteGranted <;> simp_all
    rw [if_neg (by simp [hnot]), List.append_nil]
    refine h.frame ?_ ?_ hcand
    · rw [hr, ReplicationCoordinator.processReplSetRequestVotes_topCoord_lastVote, ← hr,
        if_neg (by simp [hnot])]
    · rw [hr, ReplicationCoordinator.processReplSetRequestVotes_topCoord_term]
      exact c.topCoord.le_updateTerm_term args.term

/-- The end of a successful dry run: the member, a candidate, takes the next term and votes for
itself in it, above every earlier vote. -/
theorem onDryRunComplete {originalTerm : ℤ} {result : VoteRequesterResult}
    (h : VoteInv c votes) (he : c.election = .dryRun originalTerm) :
    VoteInv (c.onDryRunComplete originalTerm result).1
      (votes ++ (c.onDryRunComplete originalTerm result).2) := by
  have hc : c.topCoord.role = .candidate := h.candidate_of_election (by simp [he])
  unfold ReplicationCoordinator.onDryRunComplete
  split_ifs with hterm hres
  · simpa using h.loseElection
  · simpa using h.loseElection
  · push Not at hterm
    have hnew : (c.topCoord.updateTerm (originalTerm + 1)).2.term = originalTerm + 1 :=
      c.topCoord.updateTerm_term_of_ne_leader _ (by simp [hc]) (by omega)
    refine h.grant ?_ rfl ?_ ?_
    · simp only [TopologyCoordinator.voteForMyselfV1, ReplicationCoordinator.updateTermInlock_term,
        hnew]
      have := h.lastVote_le_term
      omega
    · simp [TopologyCoordinator.voteForMyselfV1]
    · intro _
      simp [TopologyCoordinator.voteForMyselfV1, hc]

/-- Every step but a lagging vote request keeps the invariant. -/
theorem step {e : Event} (h : VoteInv c votes) (hg : ¬LaggingVoteRequest c e) :
    VoteInv (c.step e).1 (votes ++ (c.step e).2) := by
  cases e with
  | requestVotes args => exact h.requestVotes hg
  | updateTerm term =>
      simp only [ReplicationCoordinator.step, List.append_nil]
      refine h.frame (by simp) (by simpa using c.topCoord.le_updateTerm_term term) ?_
      intro he
      simpa using h.candidate_of_election (by simpa using he)
  | stepDownFinish =>
      simp only [ReplicationCoordinator.step, List.append_nil]
      refine h.frame (by simp) (by simp) ?_
      intro he
      have hc := h.candidate_of_election (by simpa using he)
      rw [ReplicationCoordinator.stepDownFinish_role_of_ne_leader _ (by simp [hc]), hc]
  | startElection electable =>
      simp only [ReplicationCoordinator.step, List.append_nil,
        ReplicationCoordinator.startElectSelfV1]
      split
      · rename_i t ht
        obtain ⟨hrole, hterm, hlv⟩ :=
          TopologyCoordinator.becomeCandidateIfElectable_eq_some _ ht
        exact h.frame hlv hterm.ge (fun _ => hrole)
      · exact h
  | dryRunComplete result =>
      simp only [ReplicationCoordinator.step]
      split
      · rename_i originalTerm he
        exact h.onDryRunComplete he
      · simpa using h
  | lastVoteWritten =>
      simp only [ReplicationCoordinator.step]
      split
      · rename_i lastVote he
        have hc := h.candidate_of_election (by simp [he])
        simp only [List.append_nil, ReplicationCoordinator.writeLastVoteForMyElection]
        split_ifs
        · exact (h.frame (by simp) (by simp) (by simp [he, hc])).loseElection
        · exact h.frame (by simp) (by simp) (by simp [hc])
      · simpa using h
  | voteRequestComplete result =>
      simp only [ReplicationCoordinator.step]
      split
      · simp only [List.append_nil, ReplicationCoordinator.onVoteRequestComplete]
        split_ifs
        · exact h.loseElection
        · refine h.frame ?_ ?_ (by simp)
          · simp [TopologyCoordinator.processWinElection]
          · simp [TopologyCoordinator.processWinElection]
        · exact h.loseElection
      · simpa using h
  | drainComplete firstOpTimeOfTerm =>
      simp only [ReplicationCoordinator.step, List.append_nil,
        ReplicationCoordinator.signalDrainComplete]
      split
      · rename_i t ht
        obtain ⟨hrole, hterm, hlv⟩ :=
          TopologyCoordinator.completeTransitionToPrimary_eq_some _ ht
        refine h.frame hlv hterm.ge ?_
        intro he
        rw [hrole]
        exact h.candidate_of_election he
      · exact h

end VoteInv

/-! ### Runs -/

/-- In every run from a state with the invariant in which the member is never asked, while primary,
for a vote in a term above its own, it grants at most one vote per term. -/
theorem oneVotePerTerm_runEvents (c : ReplicationCoordinator) (events : List Event)
    (h : VoteInv c [])
    (hg : Trace.Guarded ReplicationCoordinator.step (fun c e => ¬LaggingVoteRequest c e) c events) :
    OneVotePerTerm (runEvents c events).2 :=
  (Trace.run_invariant ReplicationCoordinator.step _ VoteInv (fun _ _ _ hinv he => hinv.step he)
    events c [] h hg).oneVotePerTerm

/-- A member started afresh (`_lastVote{kInitialTerm, -1}` in `kUninitializedTerm`) satisfies the
invariant once it has taken a term from its oplog (`_updateTerm_inlock(term)` at startup). -/
theorem voteInv_init_updateTerm (selfIndex : ℤ) (rsConfig : ReplSetConfig)
    (memberData : List MemberData) (opTime : OpTime) (term : ℤ) (hterm : 0 ≤ term) :
    VoteInv ((ReplicationCoordinator.init
      (TopologyCoordinator.init selfIndex rsConfig memberData opTime)).step (.updateTerm term)).1
      [] := by
  set t := TopologyCoordinator.init selfIndex rsConfig memberData opTime with ht
  have hnew : (t.updateTerm term).2.term = term :=
    t.updateTerm_term_of_ne_leader _ (by simp [ht, TopologyCoordinator.init])
      (by simp [ht, TopologyCoordinator.init]; omega)
  refine ⟨?_, ?_, by simp, List.Pairwise.nil⟩
  · simp only [ReplicationCoordinator.step, ReplicationCoordinator.updateTermInlock_lastVote,
      ReplicationCoordinator.updateTermInlock_term, ReplicationCoordinator.init, hnew]
    simpa [ht, TopologyCoordinator.init] using hterm
  · simp [ReplicationCoordinator.step, ReplicationCoordinator.init]

/-- So a member started afresh grants at most one vote per term in every run in which it is never
asked, while primary, for a vote in a term above its own. -/
theorem oneVotePerTerm_runEvents_init (selfIndex : ℤ) (rsConfig : ReplSetConfig)
    (memberData : List MemberData) (opTime : OpTime) (term : ℤ) (hterm : 0 ≤ term)
    (events : List Event)
    (hg : Trace.Guarded ReplicationCoordinator.step (fun c e => ¬LaggingVoteRequest c e)
      ((ReplicationCoordinator.init
        (TopologyCoordinator.init selfIndex rsConfig memberData opTime)).step (.updateTerm term)).1
      events) :
    OneVotePerTerm (runEvents (ReplicationCoordinator.init
      (TopologyCoordinator.init selfIndex rsConfig memberData opTime)) (.updateTerm term :: events)).2 := by
  have h := oneVotePerTerm_runEvents _ events
    (voteInv_init_updateTerm selfIndex rsConfig memberData opTime term hterm) hg
  simpa [runEvents, ReplicationCoordinator.step] using h

/-- Member 0 of the three-member set `rs0` of config version 1 (no arbiters, equal priorities,
every member up), started afresh. -/
def rs0Member0 : ReplicationCoordinator :=
  ReplicationCoordinator.init
    (TopologyCoordinator.init 0 ⟨"rs0", 1, List.replicate 3 ⟨1, false⟩⟩
      (List.replicate 3 ⟨true, false⟩) ⟨0, 0⟩)

/-- Member 0 takes term 0, wins an election in term 1 and drains; then it is asked for votes,
none in a dry run: by member 1 for term 3, by member 2 for term 2 (a delayed request), and by
member 2 for term 3. -/
def rs0Member0Events : List Event :=
  [.updateTerm 0, .startElection true, .dryRunComplete .kSuccessfullyElected, .lastVoteWritten,
    .voteRequestComplete .kSuccessfullyElected, .drainComplete ⟨1, 0⟩,
    .requestVotes ⟨"rs0", 3, 1, 1, false, ⟨0, 0⟩⟩, .requestVotes ⟨"rs0", 2, 2, 1, false, ⟨0, 0⟩⟩,
    .requestVotes ⟨"rs0", 3, 2, 1, false, ⟨0, 0⟩⟩]

/-- `_lastVote` goes back: primary in term 1, the member grants member 1's vote in term 3 without
taking term 3; it then takes term 2 and grants member 2's vote in it, overwriting `_lastVote`;
and it grants member 2 a second vote in term 3.  The `LastVote` document still holds the first. -/
theorem runEvents_votes_twice_in_term :
    (runEvents rs0Member0 rs0Member0Events).2 = [⟨1, 0⟩, ⟨3, 1⟩, ⟨2, 2⟩, ⟨3, 2⟩] ∧
      (runEvents rs0Member0 rs0Member0Events).1.lastVoteDocument = some ⟨3, 1⟩ ∧
      ¬OneVotePerTerm (runEvents rs0Member0 rs0Member0Events).2 := by
  decide

end Repl
end Mongo
