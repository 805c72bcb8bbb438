import Mathlib
import Mongo.Repl.CommitPoint
import Mongo.Lib.OrderStatistic

/-!
# The commit point is the optime a write majority has reached

`OpTime::operator<` compares only the timestamps when either side is of protocol version 0.  So it
is not an order on all optimes.  It is one on the *term-ordered* optimes, though: the null
optime, and the optimes of protocol version 1 with a non-null timestamp.  There it is the
lexicographic order of the pair (term, timestamp) (`OpTime.lt_eq_true_iff`).  Those are what
`_memberData` holds under protocol version 1, for members heard from and not.

For term-ordered optimes:

* `committedOpTime_isGreatestReached` — the optime `updateLastCommittedOpTime` passes to
  `advanceLastCommittedOpTime` is the greatest term-ordered optime that at least
  `getWriteMajority()` voters are at or above.  The sorted keys are an instance of
  `OrderStatistic`.
* `commitPoints_sorted` — over any run of the two methods and of any other method, the commit
  point never goes back.  `step_termOrdered` is the step: each event keeps the optimes
  term-ordered and does not lower the commit point.
* `step_ge_firstOpTimeOfMyTerm` — whatever the optimes, a primary never moves the commit point
  below `_firstOpTimeOfMyTerm`.
-/

namespace Mongo
namespace Repl

open OrderStatistic

/-! ## Where `OpTime::operator<` is an order -/

/-- An optime that `OpTime::operator<` orders as the pair (term, timestamp): the null optime
`OpTime()`, or an optime of protocol version 1 (its term at least `kInitialTerm`) with a non-null
timestamp. -/
def OpTime.TermOrdered (o : OpTime) : Prop :=
  o = OpTime.null ∨ (0 ≤ o.term ∧ 0 < o.timestamp)

instance : DecidablePred OpTime.TermOrdered :=
  fun o => inferInstanceAs (Decidable (o = OpTime.null ∨ (0 ≤ o.term ∧ 0 < o.timestamp)))

/-- The pair (term, timestamp), in the lexicographic order. -/
def OpTime.key (o : OpTime) : ℤ ×ₗ ℕ :=
  toLex (o.term, o.timestamp)

namespace OpTime

variable {a b : OpTime}

theorem termOrdered_null : OpTime.null.TermOrdered :=
  .inl rfl

theorem lt_of_uninitialized (h : a.term = kUninitializedTerm ∨ b.term = kUninitializedTerm) :
    a.lt b = decide (a.timestamp < b.timestamp) :=
  if_pos h

theorem lt_of_initialized (ha : a.term ≠ kUninitializedTerm) (hb : b.term ≠ kUninitializedTerm) :
    a.lt b = (decide (a.term < b.term) || (decide (a.term = b.term) &&
      decide (a.timestamp < b.timestamp))) :=
  if_neg (by rintro (h | h) <;> contradiction)

/-- **On term-ordered optimes `operator<` is the order of the keys.**  The null optime is below
every other one both ways: by its timestamp, and by its term `-1`. -/
theorem lt_eq_true_iff (ha : a.TermOrdered) (hb : b.TermOrdered) :
    a.lt b = true ↔ a.key < b.key := by
  rw [key, key, Prod.Lex.toLex_lt_toLex]
  rcases ha with rfl | ⟨ha₀, ha₁⟩ <;> rcases hb with rfl | ⟨hb₀, hb₁⟩
  · rw [lt_of_uninitialized (.inl rfl), decide_eq_true_eq]
    simp [OpTime.null]
  · rw [lt_of_uninitialized (.inl rfl), decide_eq_true_eq]
    simp only [OpTime.null, kUninitializedTerm]
    omega
  · rw [lt_of_uninitialized (.inr rfl), decide_eq_true_eq]
    simp only [OpTime.null, kUninitializedTerm]
    omega
  · rw [lt_of_initialized (by simp only [kUninitializedTerm]; omega)
      (by simp only [kUninitializedTerm]; omega)]
    simp

/-- On term-ordered optimes `operator>=` is the `≥` of the keys. -/
theorem ge_eq_true_iff (ha : a.TermOrdered) (hb : b.TermOrdered) :
    a.ge b = true ↔ b.key ≤ a.key := by
  rw [ge, Bool.not_eq_true', ← Bool.not_eq_true, lt_eq_true_iff ha hb, not_lt]

/-- The comparison the sort uses is the `≤` of the keys. -/
theorem lt_eq_false_iff (ha : a.TermOrdered) (hb : b.TermOrdered) :
    b.lt a = false ↔ a.key ≤ b.key := by
  rw [← Bool.not_eq_true, lt_eq_true_iff hb ha, not_lt]

end OpTime

namespace CommitPoint

/-! ## The sorted vector -/

/-- The keys of the optimes, sorted. -/
def sortedKeys (opTimes : List OpTime) : List (ℤ ×ₗ ℕ) :=
  (opTimes.map OpTime.key).insertionSort (· ≤ ·)

/-- How many of `opTimes` are at or above `x` by `OpTime::operator>=`. -/
def countGe (x : OpTime) (opTimes : List OpTime) : ℕ :=
  opTimes.countP (fun o => o.ge x)

/-- `x` is the greatest term-ordered optime that at least `w` of `opTimes` are at or above. -/
def IsGreatestReached (opTimes : List OpTime) (w : ℕ) (x : OpTime) : Prop :=
  x.TermOrdered ∧ w ≤ countGe x opTimes ∧
    ∀ y : OpTime, y.TermOrdered → w ≤ countGe y opTimes → x.ge y = true

section Sorted

variable {opTimes : List OpTime} (h : ∀ o ∈ opTimes, o.TermOrdered)
include h

/-- Sorting term-ordered optimes sorts their keys. -/
theorem map_key_sortOpTimes : (sortOpTimes opTimes).map OpTime.key = sortedKeys opTimes :=
  List.map_insertionSort _ _ _ _ fun a ha b hb => OpTime.lt_eq_false_iff (h a ha) (h b hb)

theorem countGe_eq_countAtLeast {x : OpTime} (hx : x.TermOrdered) :
    countGe x opTimes = countAtLeast x.key (sortedKeys opTimes) := by
  rw [sortedKeys, countAtLeast_perm (List.perm_insertionSort _ _), countAtLeast, List.countP_map,
    countGe]
  exact List.countP_congr fun o ho => by simpa using OpTime.ge_eq_true_iff (h o ho) hx

/-- **The committed optime is the greatest one a write majority has reached.**  Its key is the
sorted keys' element at `size - w`, which `OrderStatistic` characterises. -/
theorem committedOpTime_isGreatestReached {w : ℕ} (hw : 0 < w) (hn : w ≤ opTimes.length) :
    IsGreatestReached opTimes w (committedOpTime opTimes w) := by
  have hslen : (sortOpTimes opTimes).length = opTimes.length := List.length_insertionSort _ _
  have hklen : (sortedKeys opTimes).length = opTimes.length := by simp [sortedKeys]
  have hi : (sortOpTimes opTimes).length - w < (sortOpTimes opTimes).length := by omega
  have hc : committedOpTime opTimes w =
      (sortOpTimes opTimes)[(sortOpTimes opTimes).length - w] := by
    rw [committedOpTime, List.getD_eq_getElem?_getD, List.getElem?_eq_getElem hi, Option.getD_some]
  have hterm : (committedOpTime opTimes w).TermOrdered := by
    rw [hc]
    exact h _ ((List.mem_insertionSort _).mp (List.getElem_mem _))
  have hk : (sortedKeys opTimes).length - w < (sortedKeys opTimes).length := by omega
  have hkey : (committedOpTime opTimes w).key =
      (sortedKeys opTimes)[(sortedKeys opTimes).length - w] := by
    simp only [hc, ← map_key_sortOpTimes h, List.getElem_map, List.length_map]
  have hsorted : (sortedKeys opTimes).Pairwise (· ≤ ·) := List.pairwise_insertionSort _ _
  refine ⟨hterm, ?_, fun y hy hreach => ?_⟩
  · rw [countGe_eq_countAtLeast h hterm, hkey]
    exact le_countAtLeast_getElem hsorted hw (by omega)
  · rw [OpTime.ge_eq_true_iff hterm hy, hkey]
    exact le_getElem_of_le_countAtLeast hsorted hw (by omega)
      (by rwa [← countGe_eq_countAtLeast h hy])

end Sorted

/-- The committed optime is one of the voting optimes, or `OpTime()` past the end. -/
theorem committedOpTime_termOrdered {opTimes : List OpTime} (h : ∀ o ∈ opTimes, o.TermOrdered)
    (w : ℕ) : (committedOpTime opTimes w).TermOrdered := by
  rw [committedOpTime, List.getD_eq_getElem?_getD]
  cases hget : (sortOpTimes opTimes)[(sortOpTimes opTimes).length - w]? with
  | none => exact OpTime.termOrdered_null
  | some o =>
      exact h o ((List.mem_insertionSort _).mp (List.mem_of_getElem? hget))

theorem unsignedLong_of_nonneg {w : ℤ} (h : 0 ≤ w) : unsignedLong w = w.toNat :=
  if_pos h

/-! ## The two methods -/

/-- The optimes a member's heartbeats report are term-ordered. -/
def MemberData.TermOrdered (m : MemberData) : Prop :=
  m.lastAppliedOpTime.TermOrdered ∧ m.lastDurableOpTime.TermOrdered

instance : DecidablePred MemberData.TermOrdered :=
  fun m => inferInstanceAs (Decidable (m.lastAppliedOpTime.TermOrdered ∧ _))

/-- The commit point and the optimes of `_memberData` are term-ordered. -/
structure TopologyCoordinator.TermOrdered (t : TopologyCoordinator) : Prop where
  lastCommittedOpTime : t.lastCommittedOpTime.TermOrdered
  memberData : ∀ m ∈ t.memberData, m.TermOrdered

/-- The optimes an event brings in are term-ordered. -/
def Event.TermOrdered : Event → Prop
  | .updateLastCommittedOpTime => True
  | .advanceLastCommittedOpTime committedOpTime => committedOpTime.TermOrdered
  | .other _ _ _ memberData _ => ∀ m ∈ memberData, m.TermOrdered

instance : DecidablePred Event.TermOrdered
  | .updateLastCommittedOpTime => inferInstanceAs (Decidable True)
  | .advanceLastCommittedOpTime committedOpTime =>
      inferInstanceAs (Decidable committedOpTime.TermOrdered)
  | .other _ _ _ memberData _ => inferInstanceAs (Decidable (∀ m ∈ memberData, m.TermOrdered))

namespace TopologyCoordinator

variable {t t' : TopologyCoordinator}

/-- `advanceLastCommittedOpTime` leaves the state alone, or it sets the commit point to an optime
that is not older than the current one and, on a primary, not older than
`_firstOpTimeOfMyTerm`. -/
theorem advanceLastCommittedOpTime_cases (c : OpTime) :
    (t.advanceLastCommittedOpTime c).2 = t ∨
      ((t.advanceLastCommittedOpTime c).2 = { t with lastCommittedOpTime := c } ∧
        c.lt t.lastCommittedOpTime = false ∧
        (t.iAmPrimary = true → c.lt t.firstOpTimeOfMyTerm = false)) := by
  unfold advanceLastCommittedOpTime
  split_ifs with heq hlt hfirst
  · exact .inl rfl
  · exact .inl rfl
  · exact .inl rfl
  · exact .inr ⟨rfl, by simpa using hlt, fun hp => by simpa [hp] using hfirst⟩

/-- `updateLastCommittedOpTime` leaves the state alone, or it advances to the committed optime of
the voting optimes. -/
theorem updateLastCommittedOpTime_cases {moved : Bool}
    (h : t.updateLastCommittedOpTime = some (moved, t')) :
    t' = t ∨ ∃ opTimes, t.votingNodesOpTimes = some opTimes ∧
      (moved, t') = t.advanceLastCommittedOpTime
        (committedOpTime opTimes (unsignedLong t.rsConfig.getWriteMajority)) := by
  unfold updateLastCommittedOpTime at h
  split at h
  · cases h
    exact .inl rfl
  · split at h
    · cases h
    · next opTimes hvoting =>
      split at h
      · cases h
      · split at h
        · cases h
          exact .inl rfl
        · exact .inr ⟨opTimes, hvoting, (Option.some.inj h).symm⟩

/-- A primary that is not stepping down and has at least a write majority of voting optimes
passes the optime at `size - getWriteMajority()` to `advanceLastCommittedOpTime`. -/
theorem updateLastCommittedOpTime_eq_advance {opTimes : List OpTime}
    (hprimary : t.iAmPrimary = true) (hmode : t.leaderMode ≠ .kSteppingDown)
    (hvoting : t.votingNodesOpTimes = some opTimes) (hw : 1 ≤ t.rsConfig.getWriteMajority)
    (hn : t.rsConfig.getWriteMajority ≤ opTimes.length) :
    t.updateLastCommittedOpTime = some (t.advanceLastCommittedOpTime
      (committedOpTime opTimes t.rsConfig.getWriteMajority.toNat)) := by
  have hu := unsignedLong_of_nonneg (show 0 ≤ t.rsConfig.getWriteMajority by omega)
  have hguard : ¬ ((!t.iAmPrimary || decide (t.leaderMode = .kSteppingDown)) = true) := by
    simp [hprimary, hmode]
  have hne : ¬ opTimes.length = 0 := by omega
  have hge : ¬ opTimes.length < t.rsConfig.getWriteMajority.toNat := by omega
  rw [updateLastCommittedOpTime, if_neg hguard, hvoting]
  simp only [hu, if_neg hne, if_neg hge]

/-- The optimes the loop collects are the heartbeat optimes of voting members. -/
theorem collectVotingOpTimes_termOrdered {useDurableOpTime : Bool} :
    ∀ {memberData : List MemberData} {opTimes : List OpTime}, (∀ m ∈ memberData, m.TermOrdered) →
      t.collectVotingOpTimes useDurableOpTime memberData = some opTimes →
      ∀ o ∈ opTimes, o.TermOrdered
  | [], opTimes, _, h => by
      cases h
      simp
  | m :: rest, opTimes, hm, h => by
      have hmine : (if useDurableOpTime then m.lastDurableOpTime
          else m.lastAppliedOpTime).TermOrdered := by
        split
        · exact (hm m List.mem_cons_self).2
        · exact (hm m List.mem_cons_self).1
      rw [collectVotingOpTimes] at h
      split at h
      · cases h
      · split at h
        · cases h
        · split at h
          · cases h
          · next others hothers =>
            have hrest := collectVotingOpTimes_termOrdered
              (fun x hx => hm x (List.mem_cons_of_mem _ hx)) hothers
            split at h
            · cases h
              intro o ho
              rcases List.mem_cons.mp ho with rfl | ho
              · exact hmine
              · exact hrest o ho
            · cases h
              exact hrest

/-! ## Runs -/

/-- Advancing to a term-ordered optime keeps the state term-ordered and does not lower the commit
point. -/
theorem advanceLastCommittedOpTime_termOrdered (ht : t.TermOrdered) {c : OpTime}
    (hc : c.TermOrdered) :
    (t.advanceLastCommittedOpTime c).2.TermOrdered ∧
      t.lastCommittedOpTime.key ≤ (t.advanceLastCommittedOpTime c).2.lastCommittedOpTime.key := by
  rcases advanceLastCommittedOpTime_cases c with h | ⟨h, hlt, -⟩ <;> rw [h]
  · exact ⟨ht, le_refl _⟩
  · exact ⟨⟨hc, ht.memberData⟩, (OpTime.lt_eq_false_iff ht.lastCommittedOpTime hc).mp hlt⟩

/-- **One event** keeps the optimes term-ordered and does not lower the commit point. -/
theorem step_termOrdered (ht : t.TermOrdered) {e : Event} (he : e.TermOrdered)
    (h : t.step e = some t') :
    t'.TermOrdered ∧ t.lastCommittedOpTime.key ≤ t'.lastCommittedOpTime.key := by
  cases e with
  | updateLastCommittedOpTime =>
      obtain ⟨⟨moved, t''⟩, hupdate, rfl⟩ := Option.map_eq_some_iff.mp h
      rcases updateLastCommittedOpTime_cases hupdate with rfl | ⟨opTimes, hvoting, hadvance⟩
      · exact ⟨ht, le_refl _⟩
      · have hops := collectVotingOpTimes_termOrdered ht.memberData hvoting
        have hsnd : t'' = (t.advanceLastCommittedOpTime
            (committedOpTime opTimes (unsignedLong t.rsConfig.getWriteMajority))).2 := by
          rw [← hadvance]
        rw [hsnd]
        exact advanceLastCommittedOpTime_termOrdered ht (committedOpTime_termOrdered hops _)
  | advanceLastCommittedOpTime c =>
      cases h
      exact advanceLastCommittedOpTime_termOrdered ht he
  | other role leaderMode rsConfig memberData firstOpTimeOfMyTerm =>
      cases h
      exact ⟨⟨ht.lastCommittedOpTime, he⟩, le_refl _⟩

/-- **The commit point never goes back** over a run whose optimes are term-ordered: each point is
at or below every later one.  By induction on the events, with `step_termOrdered`. -/
theorem commitPoints_sorted :
    ∀ {t : TopologyCoordinator} {events : List Event}, t.TermOrdered →
      (∀ e ∈ events, e.TermOrdered) →
      (t.commitPoints events).Pairwise (fun a b => a.key ≤ b.key) ∧
        ∀ o ∈ t.commitPoints events, o.TermOrdered ∧ t.lastCommittedOpTime.key ≤ o.key
  | t, [], ht, _ => by
      simp [commitPoints, ht.lastCommittedOpTime]
  | t, e :: events, ht, he => by
      rw [commitPoints]
      cases hstep : t.step e with
      | none => simp [ht.lastCommittedOpTime]
      | some t' =>
          obtain ⟨ht', hle⟩ := step_termOrdered ht (he e List.mem_cons_self) hstep
          obtain ⟨hpw, hall⟩ :=
            commitPoints_sorted ht' fun e' he' => he e' (List.mem_cons_of_mem _ he')
          refine ⟨List.pairwise_cons.mpr ⟨fun o ho => le_trans hle (hall o ho).2, hpw⟩, ?_⟩
          intro o ho
          rcases List.mem_cons.mp ho with rfl | ho
          · exact ⟨ht.lastCommittedOpTime, le_refl _⟩
          · exact ⟨(hall o ho).1, le_trans hle (hall o ho).2⟩

/-- A primary's `advanceLastCommittedOpTime` never moves the commit point below
`_firstOpTimeOfMyTerm`. -/
theorem advanceLastCommittedOpTime_ge_first (c : OpTime) (hprimary : t.iAmPrimary = true)
    (hmoved : (t.advanceLastCommittedOpTime c).2.lastCommittedOpTime ≠ t.lastCommittedOpTime) :
    (t.advanceLastCommittedOpTime c).2.lastCommittedOpTime.ge t.firstOpTimeOfMyTerm = true := by
  rcases advanceLastCommittedOpTime_cases c with h | ⟨h, -, hfirst⟩ <;> rw [h] at hmoved ⊢
  · exact absurd rfl hmoved
  · simp [OpTime.ge, hfirst hprimary]

/-- **A primary never moves the commit point below `_firstOpTimeOfMyTerm`**, whatever the
optimes. -/
theorem step_ge_firstOpTimeOfMyTerm {e : Event} (h : t.step e = some t')
    (hprimary : t.iAmPrimary = true) (hmoved : t'.lastCommittedOpTime ≠ t.lastCommittedOpTime) :
    t'.lastCommittedOpTime.ge t.firstOpTimeOfMyTerm = true := by
  cases e with
  | updateLastCommittedOpTime =>
      obtain ⟨⟨moved, t''⟩, hupdate, rfl⟩ := Option.map_eq_some_iff.mp h
      rcases updateLastCommittedOpTime_cases hupdate with rfl | ⟨opTimes, -, hadvance⟩
      · exact absurd rfl hmoved
      · have hsnd : t'' = (t.advanceLastCommittedOpTime
            (committedOpTime opTimes (unsignedLong t.rsConfig.getWriteMajority))).2 := by
          rw [← hadvance]
        rw [hsnd] at hmoved ⊢
        exact advanceLastCommittedOpTime_ge_first _ hprimary hmoved
  | advanceLastCommittedOpTime c =>
      cases h
      exact advanceLastCommittedOpTime_ge_first c hprimary hmoved
  | other role leaderMode rsConfig memberData firstOpTimeOfMyTerm =>
      cases h
      exact absurd rfl hmoved

end TopologyCoordinator

/-! ## The commit point -/

/-- **The commit point is the optime a write majority has reached, and it never goes back.**
* A primary that is not stepping down, with at least `getWriteMajority() ≥ 1` term-ordered voting
  optimes, passes to `advanceLastCommittedOpTime` the greatest term-ordered optime that
  `getWriteMajority()` of them are at or above.
* Over any run of the two methods and of any other method whose optimes are term-ordered,
  each commit point is at or below every later one.
* Whatever the optimes, an event that moves a primary's commit point moves it to an optime at or
  above `_firstOpTimeOfMyTerm`. -/
theorem updateLastCommittedOpTime_spec :
    (∀ (t : TopologyCoordinator) (opTimes : List OpTime), t.iAmPrimary = true →
      t.leaderMode ≠ .kSteppingDown → t.votingNodesOpTimes = some opTimes →
      (∀ o ∈ opTimes, o.TermOrdered) → 1 ≤ t.rsConfig.getWriteMajority →
      t.rsConfig.getWriteMajority ≤ opTimes.length →
      ∃ c, t.updateLastCommittedOpTime = some (t.advanceLastCommittedOpTime c) ∧
        IsGreatestReached opTimes t.rsConfig.getWriteMajority.toNat c) ∧
    (∀ (t : TopologyCoordinator) (events : List Event), t.TermOrdered →
      (∀ e ∈ events, e.TermOrdered) →
      (t.commitPoints events).Pairwise (fun a b => b.ge a = true)) ∧
    (∀ (t t' : TopologyCoordinator) (e : Event), t.step e = some t' → t.iAmPrimary = true →
      t'.lastCommittedOpTime ≠ t.lastCommittedOpTime →
      t'.lastCommittedOpTime.ge t.firstOpTimeOfMyTerm = true) := by
  refine ⟨fun t opTimes hprimary hmode hvoting hops hw hn => ?_,
    fun t events ht he => ?_, fun t t' e h hprimary hmoved =>
      TopologyCoordinator.step_ge_firstOpTimeOfMyTerm h hprimary hmoved⟩
  · exact ⟨_,
      TopologyCoordinator.updateLastCommittedOpTime_eq_advance hprimary hmode hvoting hw hn,
      committedOpTime_isGreatestReached hops (by omega) (by omega)⟩
  · obtain ⟨hsorted, hall⟩ := TopologyCoordinator.commitPoints_sorted ht he
    exact hsorted.imp_of_mem fun ha hb hle =>
      (OpTime.ge_eq_true_iff (hall _ hb).1 (hall _ ha).1).mpr hle

/-- A primary of two data-bearing members and an arbiter, all voting: itself at (term 1,
timestamp 5), the other member at (1, 3) and the arbiter at `OpTime()`.  Its write majority is 2,
and its commit point is `OpTime()`. -/
def twoMembersAndArbiter : TopologyCoordinator where
  role := .leader
  leaderMode := .kMaster
  rsConfig := ⟨[⟨1, false⟩, ⟨1, false⟩, ⟨1, true⟩], false⟩
  memberData := [⟨0, ⟨1, 5⟩, ⟨1, 5⟩⟩, ⟨1, ⟨1, 3⟩, ⟨1, 3⟩⟩, ⟨2, OpTime.null, OpTime.null⟩]
  lastCommittedOpTime := OpTime.null
  firstOpTimeOfMyTerm := ⟨1, 1⟩

theorem updateLastCommittedOpTime_twoMembersAndArbiter :
    (∃ c, twoMembersAndArbiter.updateLastCommittedOpTime =
        some (twoMembersAndArbiter.advanceLastCommittedOpTime c) ∧
      IsGreatestReached [⟨1, 5⟩, ⟨1, 3⟩, OpTime.null] 2 c) ∧
    (twoMembersAndArbiter.commitPoints
      [.updateLastCommittedOpTime, .advanceLastCommittedOpTime ⟨1, 4⟩]).Pairwise
        (fun a b => b.ge a = true) ∧
    (twoMembersAndArbiter.step .updateLastCommittedOpTime).map
      (fun t' => t'.lastCommittedOpTime.ge twoMembersAndArbiter.firstOpTimeOfMyTerm) = some true :=
  ⟨updateLastCommittedOpTime_spec.1 twoMembersAndArbiter _ rfl (by decide) rfl (by decide)
      (by decide) (by decide),
    updateLastCommittedOpTime_spec.2.1 twoMembersAndArbiter _ ⟨by decide, by decide⟩ (by decide),
    by
      have hstep : twoMembersAndArbiter.step .updateLastCommittedOpTime =
          some { twoMembersAndArbiter with lastCommittedOpTime := ⟨1, 3⟩ } := by decide
      rw [hstep, Option.map_some,
        updateLastCommittedOpTime_spec.2.2 _ _ _ hstep rfl (by decide)]⟩

/-- A primary of three voting members at (term -1, timestamp 4), (1, 5) and (2, 3).  The first
optime is of protocol version 0, and `operator<` goes round the three. -/
def cycleVoters : TopologyCoordinator where
  role := .leader
  leaderMode := .kMaster
  rsConfig := ⟨[⟨1, false⟩, ⟨1, false⟩, ⟨1, false⟩], false⟩
  memberData := [⟨0, ⟨-1, 4⟩, ⟨-1, 4⟩⟩, ⟨1, ⟨1, 5⟩, ⟨1, 5⟩⟩, ⟨2, ⟨2, 3⟩, ⟨2, 3⟩⟩]
  lastCommittedOpTime := OpTime.null
  firstOpTimeOfMyTerm := OpTime.null

/-- With an optime of protocol version 0 among the voters, the optime passed on is not the
greatest that two voters reach: (1, 5) is passed on, and two voters are at or above (2, 3), which
is greater.  Whichever of the three a sort puts at index 1, a greater one is reached by two. -/
theorem updateLastCommittedOpTime_cycle :
    cycleVoters.updateLastCommittedOpTime =
        some (cycleVoters.advanceLastCommittedOpTime ⟨1, 5⟩) ∧
      2 ≤ countGe ⟨2, 3⟩ [⟨-1, 4⟩, ⟨1, 5⟩, ⟨2, 3⟩] ∧ OpTime.lt ⟨1, 5⟩ ⟨2, 3⟩ = true ∧
      ∀ x ∈ [(⟨-1, 4⟩ : OpTime), ⟨1, 5⟩, ⟨2, 3⟩], ∃ y ∈ [(⟨-1, 4⟩ : OpTime), ⟨1, 5⟩, ⟨2, 3⟩],
        2 ≤ countGe y [⟨-1, 4⟩, ⟨1, 5⟩, ⟨2, 3⟩] ∧ x.lt y = true := by
  decide

end CommitPoint

end Repl
end Mongo
