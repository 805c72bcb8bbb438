import Mathlib
import Mongo.Repl.RollBackLocalOperations

/-!
# Rollback finds the newest common entry

For a local and a remote oplog whose timestamps strictly decrease, `syncRollBackLocalOperations`
returns a common point exactly when the oplogs share an entry, the first call's time check
passes, and `_rollbackOperation` succeeds on every local entry newer than the newest shared one.
That entry is the common point, and `_rollbackOperation` was called on exactly the local entries
newer than it, newest first (`syncRollBackLocalOperations_spec`).  Oplogs that share nothing end
in `NoMatchingDocument` only when both are non-empty and nothing else fails first.

The proof follows the merge of the two oplogs.

* `rollBackNewer_eq_none` and `rollBackNewer_eq_some` say what the `while` loop of
  `onRemoteOperation` does with the local entries newer than the remote one.
* `Positioned` is the invariant between two remote entries.  The local entries rolled back so
  far are shared with nothing and were rolled back without failure, and the current local entry
  is older than every remote entry read so far.
* `compareWithRemote_cases` lists what one remote entry can lead to: the common point, the next
  remote entry from a `Positioned` state, `NoMatchingDocument` with nothing shared, or a failed
  rollback of an entry newer than any shared one.  `syncLoop_cases` carries the three outcomes
  that end a run over the remote entries.
-/

namespace Mongo

namespace Repl

open LogicalClock (Timestamp)

/-! ## What the merge looks for -/

/-- An oplog iterated newest first: its timestamps strictly decrease. -/
def NewestFirst (oplog : List OplogEntry) : Prop :=
  oplog.Pairwise (fun a b => b.ts < a.ts)

/-- Whether `remoteOplog` holds an entry with the timestamp and the hash of `e`. -/
def isShared (remoteOplog : List OplogEntry) (e : OplogEntry) : Bool :=
  remoteOplog.any (fun r => r.ts = e.ts ∧ r.h = e.h)

/-- The newest local entry that the remote oplog shares. -/
def commonPoint (localOplog remoteOplog : List OplogEntry) : Option OplogEntry :=
  localOplog.find? (isShared remoteOplog)

/-- The local entries newer than the newest shared one, or all of them when none is shared. -/
def toRollBack (localOplog remoteOplog : List OplogEntry) : List OplogEntry :=
  localOplog.takeWhile (fun e => !isShared remoteOplog e)

/-- The first call's check: the newest local entry is at most 1800 seconds newer than the newest
remote entry. -/
def WithinTimeLimit : List OplogEntry → List OplogEntry → Prop
  | value :: _, operation :: _ => (value.ts.secs.toNat : ℤ) - operation.ts.secs.toNat ≤ 1800
  | _, _ => True

instance : DecidablePred NewestFirst :=
  fun oplog => inferInstanceAs (Decidable (oplog.Pairwise (fun a b => b.ts < a.ts)))

theorem isShared_iff {remoteOplog : List OplogEntry} {e : OplogEntry} :
    isShared remoteOplog e = true ↔ ∃ r ∈ remoteOplog, r.ts = e.ts ∧ r.h = e.h := by
  simp [isShared]

/-- An entry whose timestamp no remote entry has is not shared. -/
theorem isShared_eq_false {remoteOplog : List OplogEntry} {e : OplogEntry}
    (h : ∀ r ∈ remoteOplog, r.ts ≠ e.ts) : isShared remoteOplog e = false := by
  rw [← Bool.not_eq_true, isShared_iff]
  rintro ⟨r, hr, hts, -⟩
  exact h r hr hts

/-- The entries after the first one of an oplog iterated newest first are older than it. -/
theorem NewestFirst.lt_head {e : OplogEntry} {rest : List OplogEntry}
    (h : NewestFirst (e :: rest)) : ∀ x ∈ rest, x.ts < e.ts :=
  (List.pairwise_cons.mp h).1

theorem NewestFirst.tail {e : OplogEntry} {rest : List OplogEntry}
    (h : NewestFirst (e :: rest)) : NewestFirst rest :=
  (List.pairwise_cons.mp h).2

theorem NewestFirst.right {l₁ l₂ : List OplogEntry} (h : NewestFirst (l₁ ++ l₂)) :
    NewestFirst l₂ :=
  (List.pairwise_append.mp h).2.1

theorem NewestFirst.lt_of_mem {l₁ l₂ : List OplogEntry} (h : NewestFirst (l₁ ++ l₂))
    {a b : OplogEntry} (ha : a ∈ l₁) (hb : b ∈ l₂) : b.ts < a.ts :=
  (List.pairwise_append.mp h).2.2 a ha b hb

/-! ## The `while` loop of `onRemoteOperation` -/

section Newer

variable {t : Timestamp} {e : OplogEntry} {l : List OplogEntry}

theorem takeWhile_newer_of_lt (h : t < e.ts) :
    (e :: l).takeWhile (fun x => t < x.ts) = e :: l.takeWhile (fun x => t < x.ts) :=
  List.takeWhile_cons_of_pos (by simpa using h)

theorem dropWhile_newer_of_lt (h : t < e.ts) :
    (e :: l).dropWhile (fun x => t < x.ts) = l.dropWhile (fun x => t < x.ts) :=
  List.dropWhile_cons_of_pos (by simpa using h)

theorem takeWhile_newer_of_le (h : ¬ t < e.ts) :
    (e :: l).takeWhile (fun x => t < x.ts) = [] :=
  List.takeWhile_cons_of_neg (by simpa using h)

theorem dropWhile_newer_of_le (h : ¬ t < e.ts) :
    (e :: l).dropWhile (fun x => t < x.ts) = e :: l :=
  List.dropWhile_cons_of_neg (by simpa using h)

end Newer

section Loop

variable {fn : OplogEntry → Except Status Unit} {t : Timestamp}

/-- **The loop runs through.**  When the loop finds an entry at or below `t`, it rolled back
the entries newer than `t` before it, each without failure, and stands on that entry. -/
theorem rollBackNewer_eq_none : ∀ {iterator : List OplogEntry} {value : OplogEntry}
    {scanned : ℕ} {rolledBack : List OplogEntry} {s' : RollBackLocalOperations},
    rollBackNewer fn t value iterator scanned rolledBack = (none, s') →
      (∀ e ∈ (value :: iterator).takeWhile (fun e => t < e.ts), fn e = .ok ()) ∧
      s'.rolledBack = rolledBack ++ (value :: iterator).takeWhile (fun e => t < e.ts) ∧
      s'.localOplogValue :: s'.localOplogIterator =
        (value :: iterator).dropWhile (fun e => t < e.ts) ∧
      scanned ≤ s'.scanned
  | iterator, value, scanned, rolledBack, s', h => by
      unfold rollBackNewer at h
      split_ifs at h with hnewer
      · split at h
        · cases h
        · next hok =>
          split at h
          · cases h
          · next next rest =>
            obtain ⟨hall, hrolled, hrest, hscanned⟩ := rollBackNewer_eq_none h
            rw [takeWhile_newer_of_lt hnewer, dropWhile_newer_of_lt hnewer]
            refine ⟨?_, ?_, hrest, by omega⟩
            · intro e he
              rcases List.mem_cons.mp he with rfl | he
              · exact hok
              · exact hall e he
            · rw [hrolled, List.append_assoc, List.singleton_append]
      · cases h
        rw [takeWhile_newer_of_le hnewer, dropWhile_newer_of_le hnewer]
        exact ⟨by simp, by simp, rfl, le_refl _⟩

/-- **The loop stops short.**  Either every remaining local entry is newer than `t` and was
rolled back, and the local oplog ran out (RS101), or the rollback of an entry newer than `t`
failed after those before it succeeded. -/
theorem rollBackNewer_eq_some : ∀ {iterator : List OplogEntry} {value : OplogEntry}
    {scanned : ℕ} {rolledBack : List OplogEntry} {f : Failure} {s' : RollBackLocalOperations},
    rollBackNewer fn t value iterator scanned rolledBack = (some f, s') →
      (f = .status ⟨.noMatchingDocument, "RS101 reached beginning of local oplog [2]"⟩ ∧
        ∀ e ∈ value :: iterator, t < e.ts ∧ fn e = .ok ()) ∨
      (∃ pre e post st, value :: iterator = pre ++ e :: post ∧
        (∀ x ∈ pre, t < x.ts ∧ fn x = .ok ()) ∧ t < e.ts ∧ fn e = .error st ∧
        f = rollbackFailure st)
  | iterator, value, scanned, rolledBack, f, s', h => by
      unfold rollBackNewer at h
      split_ifs at h with hnewer
      · split at h
        · next st hst =>
          cases h
          exact .inr ⟨[], value, iterator, st, rfl, by simp, hnewer, hst, rfl⟩
        · next hok =>
          split at h
          · cases h
            exact .inl ⟨rfl, by simpa using ⟨hnewer, hok⟩⟩
          · next next rest =>
            rcases rollBackNewer_eq_some h with ⟨hf, hall⟩ | ⟨pre, e, post, st, hsplit, hpre, he⟩
            · refine .inl ⟨hf, fun e he => ?_⟩
              rcases List.mem_cons.mp he with rfl | he
              · exact ⟨hnewer, hok⟩
              · exact hall e he
            · refine .inr ⟨value :: pre, e, post, st, by rw [hsplit]; rfl, ?_, he⟩
              intro x hx
              rcases List.mem_cons.mp hx with rfl | hx
              · exact ⟨hnewer, hok⟩
              · exact hpre x hx
      · cases h

end Loop

/-! ## One remote entry -/

section Step

variable (fn : OplogEntry → Except Status Unit) (localOplog remoteOplog : List OplogEntry)

/-- The state between two remote entries, after the remote entries `done`: the local oplog is
what was rolled back, then the current entry, then what the iterator has left.  What was rolled
back is shared with nothing and was rolled back without failure, and the current entry is older
than every remote entry read so far. -/
structure Positioned (done : List OplogEntry) (s : RollBackLocalOperations) : Prop where
  split : s.rolledBack ++ s.localOplogValue :: s.localOplogIterator = localOplog
  notShared : ∀ e ∈ s.rolledBack, isShared remoteOplog e = false
  rolledBackOk : ∀ e ∈ s.rolledBack, fn e = .ok ()
  older : ∀ r ∈ done, s.localOplogValue.ts < r.ts

/-- The common point `c` was found from the state `s`: the local oplog is what was rolled back,
then `c`, and `c` is shared while nothing rolled back is. -/
structure Found (c : OplogEntry) (s : RollBackLocalOperations) : Prop where
  split : s.rolledBack ++ c :: s.localOplogIterator = localOplog
  shared : isShared remoteOplog c = true
  notShared : ∀ e ∈ s.rolledBack, isShared remoteOplog e = false
  rolledBackOk : ∀ e ∈ s.rolledBack, fn e = .ok ()

/-- `_rollbackOperation` failed with `st` on a local entry that is shared with nothing and newer
than every shared one. -/
def FailsBefore (st : Status) : Prop :=
  ∃ pre e post, localOplog = pre ++ e :: post ∧ (∀ x ∈ pre, isShared remoteOplog x = false) ∧
    isShared remoteOplog e = false ∧ fn e = .error st

/-- How a run over the remote entries can end: at the common point, with `NoMatchingDocument`
when nothing is shared, or with the failed rollback of an entry newer than any shared one. -/
def LoopOutcome (result : Except Failure OplogEntry × RollBackLocalOperations) : Prop :=
  (∃ c, result.1 = .ok c ∧ Found fn localOplog remoteOplog c result.2) ∨
  (∃ reason, result.1 = .error (.status ⟨.noMatchingDocument, reason⟩) ∧
    ∀ e ∈ localOplog, isShared remoteOplog e = false) ∨
  (∃ st, result.1 = .error (rollbackFailure st) ∧ FailsBefore fn localOplog remoteOplog st)

/-- What one remote entry can lead to: an end of the run, or the next remote entry from a
`Positioned` state that has scanned something. -/
def StepOutcome (done : List OplogEntry) (result : Except Failure OplogEntry × RollBackLocalOperations) :
    Prop :=
  LoopOutcome fn localOplog remoteOplog result ∨
  (∃ reason, result.1 = .error (.status ⟨.noSuchKey, reason⟩) ∧
    Positioned fn localOplog remoteOplog done result.2 ∧ 0 < result.2.scanned)

variable {fn localOplog remoteOplog}

/-- The head of what is left after the newer entries is not newer. -/
theorem not_newer_of_dropWhile {t : Timestamp} {v : OplogEntry} :
    ∀ {l it : List OplogEntry}, l.dropWhile (fun x => t < x.ts) = v :: it → ¬ t < v.ts
  | [], _, h => by cases h
  | e :: l, it, h => by
      by_cases he : t < e.ts
      · rw [dropWhile_newer_of_lt he] at h
        exact not_newer_of_dropWhile h
      · rw [dropWhile_newer_of_le he] at h
        cases h
        exact he

/-- The local entries not rolled back yet are at or below the current one. -/
theorem Positioned.le_current {done : List OplogEntry} {s : RollBackLocalOperations}
    (hpos : Positioned fn localOplog remoteOplog done s) (hL : NewestFirst localOplog) :
    ∀ e ∈ s.localOplogValue :: s.localOplogIterator, e.ts ≤ s.localOplogValue.ts := by
  rw [← hpos.split] at hL
  intro e he
  rcases List.mem_cons.mp he with rfl | he
  · exact le_refl _
  · exact (hL.right.lt_head e he).le

/-- From a `Positioned` state, a local entry not rolled back yet and not older than the next
remote entry `op` is shared exactly when it matches `op`: the remote entries read before `op` are
newer than every such entry, and those after `op` are older than it. -/
theorem Positioned.isShared_iff_matches {done rs : List OplogEntry} {op : OplogEntry}
    {s : RollBackLocalOperations} (hpos : Positioned fn localOplog remoteOplog done s)
    (hL : NewestFirst localOplog) (hR : NewestFirst remoteOplog)
    (hsplit : remoteOplog = done ++ op :: rs) {e : OplogEntry}
    (he : e ∈ s.localOplogValue :: s.localOplogIterator) (hge : op.ts ≤ e.ts) :
    isShared remoteOplog e = true ↔ e.ts = op.ts ∧ e.h = op.h := by
  constructor
  · rw [isShared_iff]
    rintro ⟨r, hr, hts, hh⟩
    rw [hsplit] at hr hR
    rcases List.mem_append.mp hr with hr | hr
    · have hlt := lt_of_le_of_lt (hpos.le_current hL e he) (hpos.older r hr)
      rw [hts] at hlt
      exact absurd hlt (lt_irrefl _)
    · rcases List.mem_cons.mp hr with rfl | hr
      · exact ⟨hts.symm, hh.symm⟩
      · have hlt := lt_of_lt_of_le (hR.right.lt_head r hr) hge
        rw [hts] at hlt
        exact absurd hlt (lt_irrefl _)
  · rintro ⟨hts, hh⟩
    rw [isShared_iff]
    exact ⟨op, by rw [hsplit]; simp, hts.symm, hh.symm⟩

/-- A state whose current local entry is older than `op` is `Positioned` after `op`, once what
it rolled back is shared with nothing and was rolled back without failure. -/
theorem positioned_of_lt {done : List OplogEntry} {op : OplogEntry} {s : RollBackLocalOperations}
    (hsplit : s.rolledBack ++ s.localOplogValue :: s.localOplogIterator = localOplog)
    (hrolled : ∀ e ∈ s.rolledBack, isShared remoteOplog e = false ∧ fn e = .ok ())
    (hdone : ∀ r ∈ done, op.ts < r.ts) (hlt : s.localOplogValue.ts < op.ts) :
    Positioned fn localOplog remoteOplog (done ++ [op]) s where
  split := hsplit
  notShared e he := (hrolled e he).1
  rolledBackOk e he := (hrolled e he).2
  older := List.forall_mem_append.mpr
    ⟨fun r hr => lt_trans hlt (hdone r hr), List.forall_mem_singleton.mpr hlt⟩

/-- **One remote entry.**  From a `Positioned` state, the next remote entry `op` leads to the
common point, to `NoMatchingDocument` with nothing shared, to the failed rollback of an entry
newer than any shared one, or to the entry after `op` from a `Positioned` state. -/
theorem compareWithRemote_cases (hL : NewestFirst localOplog) (hR : NewestFirst remoteOplog)
    {done rs : List OplogEntry} {op : OplogEntry} (hsplit : remoteOplog = done ++ op :: rs)
    {s : RollBackLocalOperations} (hpos : Positioned fn localOplog remoteOplog done s) :
    StepOutcome fn localOplog remoteOplog (done ++ [op]) (compareWithRemote fn s op) := by
  have hdone : ∀ r ∈ done, op.ts < r.ts := by
    rw [hsplit] at hR
    exact fun r hr => hR.lt_of_mem hr List.mem_cons_self
  have hnewer : ∀ e ∈ s.localOplogValue :: s.localOplogIterator, op.ts < e.ts →
      isShared remoteOplog e = false := by
    intro e he hlt
    rw [← Bool.not_eq_true, hpos.isShared_iff_matches hL hR hsplit he hlt.le]
    exact fun h => hlt.ne' h.1
  unfold StepOutcome LoopOutcome compareWithRemote
  rcases hw : rollBackNewer fn op.ts s.localOplogValue s.localOplogIterator s.scanned
    s.rolledBack with ⟨_ | f, s₁⟩
  · obtain ⟨hok, hrolled, hrest, -⟩ := rollBackNewer_eq_none hw
    have hvmem : s₁.localOplogValue ∈ s.localOplogValue :: s.localOplogIterator :=
      (List.dropWhile_suffix _).subset (by rw [← hrest]; exact List.mem_cons_self)
    have hvnot : ¬ op.ts < s₁.localOplogValue.ts := not_newer_of_dropWhile hrest.symm
    have hsplit₁ : s₁.rolledBack ++ s₁.localOplogValue :: s₁.localOplogIterator = localOplog := by
      rw [hrolled, hrest, List.append_assoc, List.takeWhile_append_dropWhile, hpos.split]
    have hrolled₁ : ∀ e ∈ s₁.rolledBack, isShared remoteOplog e = false ∧ fn e = .ok () := by
      rw [hrolled]
      refine List.forall_mem_append.mpr ⟨fun e he => ⟨hpos.notShared e he, hpos.rolledBackOk e he⟩,
        fun e he => ⟨hnewer e ((List.takeWhile_sublist _).subset he) ?_, hok e he⟩⟩
      simpa using List.mem_takeWhile_imp he
    dsimp only
    split_ifs with heq hh
    · exact .inl (.inl ⟨s₁.localOplogValue, rfl, hsplit₁,
        (hpos.isShared_iff_matches hL hR hsplit hvmem heq.symm.le).mpr ⟨heq, hh⟩,
        fun e he => (hrolled₁ e he).1, fun e he => (hrolled₁ e he).2⟩)
    · have hvshared : isShared remoteOplog s₁.localOplogValue = false := by
        rw [← Bool.not_eq_true, hpos.isShared_iff_matches hL hR hsplit hvmem heq.symm.le]
        exact fun h => hh h.2
      split
      · next st hst =>
        exact .inl (.inr (.inr ⟨st, rfl, s₁.rolledBack, s₁.localOplogValue,
          s₁.localOplogIterator, hsplit₁.symm, fun x hx => (hrolled₁ x hx).1, hvshared, hst⟩))
      · next hvok =>
        split
        · -- the local oplog ran out (RS101): everything was rolled back
          next hnil =>
          refine .inl (.inr (.inl ⟨_, rfl, ?_⟩))
          rw [← hsplit₁, hnil]
          exact List.forall_mem_append.mpr
            ⟨fun e he => (hrolled₁ e he).1, List.forall_mem_singleton.mpr hvshared⟩
        · next next rest hnext =>
          have hL₁ : NewestFirst (s₁.localOplogValue :: s₁.localOplogIterator) := by
            rw [← hsplit₁] at hL
            exact hL.right
          have hnextlt : next.ts < op.ts := by
            rw [← heq]
            exact hL₁.lt_head next (by rw [hnext]; exact List.mem_cons_self)
          refine .inr ⟨_, rfl, positioned_of_lt ?_ ?_ hdone hnextlt, Nat.succ_pos _⟩
          · rw [← hsplit₁, hnext, List.append_assoc, List.singleton_append]
          · exact List.forall_mem_append.mpr
              ⟨hrolled₁, List.forall_mem_singleton.mpr ⟨hvshared, hvok⟩⟩
    · have hvlt : s₁.localOplogValue.ts < op.ts := lt_of_le_of_ne (not_lt.mp hvnot) heq
      exact .inr ⟨_, rfl, positioned_of_lt hsplit₁ hrolled₁ hdone hvlt, Nat.succ_pos _⟩
  · rcases rollBackNewer_eq_some hw with ⟨rfl, hall⟩ | ⟨pre, e, post, st, hP, hpre, he, hst, rfl⟩
    · -- the local oplog ran out (RS101): everything left was newer than `op`
      refine .inl (.inr (.inl ⟨_, rfl, ?_⟩))
      rw [← hpos.split]
      exact List.forall_mem_append.mpr ⟨hpos.notShared, fun e he => hnewer e he (hall e he).1⟩
    · refine .inl (.inr (.inr ⟨st, rfl, s.rolledBack ++ pre, e, post, ?_, ?_,
        hnewer e (by rw [hP]; simp) he, hst⟩))
      · rw [← hpos.split, hP, List.append_assoc]
      · exact List.forall_mem_append.mpr
          ⟨hpos.notShared, fun x hx => hnewer x (by rw [hP]; simp [hx]) (hpre x hx).1⟩

end Step

/-! ## The run over the remote entries -/

section Run

variable {fn : OplogEntry → Except Status Unit} {localOplog remoteOplog : List OplogEntry}

theorem isNoSuchKey_rollbackFailure (st : Status) : (rollbackFailure st).isNoSuchKey = false := by
  unfold rollbackFailure
  split_ifs with h
  · rfl
  · simpa [Failure.isNoSuchKey] using h

/-- After the first call, `onRemoteOperation` goes straight to the comparison. -/
theorem onRemoteOperation_of_scanned_pos {s : RollBackLocalOperations} (h : 0 < s.scanned)
    (operation : OplogEntry) :
    onRemoteOperation fn s operation = compareWithRemote fn s operation := by
  rw [onRemoteOperation, if_neg (by omega)]

/-- **One turn of the loop of `syncRollBackLocalOperations`.**  A call that ends the run ends it,
and a `NoSuchKey` goes on with the remote entries after it. -/
theorem syncLoop_cons_of_stepOutcome {s : RollBackLocalOperations} {op : OplogEntry}
    {done rs : List OplogEntry}
    (hstep : StepOutcome fn localOplog remoteOplog done (onRemoteOperation fn s op))
    (hnext : ∀ s', Positioned fn localOplog remoteOplog done s' → 0 < s'.scanned →
      LoopOutcome fn localOplog remoteOplog (syncLoop fn s' rs)) :
    LoopOutcome fn localOplog remoteOplog (syncLoop fn s (op :: rs)) := by
  unfold syncLoop
  rcases hr : onRemoteOperation fn s op with ⟨failure | c, s'⟩
  · rw [hr] at hstep
    dsimp only
    rcases hstep with hend | ⟨reason, hres, hpos', hscanned'⟩
    · have hnot : failure.isNoSuchKey = false := by
        rcases hend with ⟨c, hc, -⟩ | ⟨reason, hres, -⟩ | ⟨st, hres, -⟩
        · cases hc
        · cases hres
          rfl
        · cases hres
          exact isNoSuchKey_rollbackFailure st
      rw [if_neg (by simp [hnot])]
      exact hend
    · cases hres
      have hyes : (Failure.status ⟨.noSuchKey, reason⟩).isNoSuchKey = true := rfl
      rw [if_pos hyes]
      exact hnext s' hpos' hscanned'
  · rw [hr] at hstep
    rcases hstep with hend | ⟨reason, hres, -⟩
    · exact hend
    · cases hres

/-- **A run over the remote entries.**  From a `Positioned` state that has scanned something, the
run over the remote entries left ends at the common point, with `NoMatchingDocument` and nothing
shared, or with the failed rollback of an entry newer than any shared one. -/
theorem syncLoop_cases (hL : NewestFirst localOplog) (hR : NewestFirst remoteOplog) :
    ∀ (rs : List OplogEntry) {done : List OplogEntry} {s : RollBackLocalOperations},
      remoteOplog = done ++ rs → Positioned fn localOplog remoteOplog done s → 0 < s.scanned →
      LoopOutcome fn localOplog remoteOplog (syncLoop fn s rs)
  | [], done, s, hsplit, hpos, _ => by
      -- the remote oplog ran out (RS100), and the local entries left are older than all of it
      refine .inr (.inl ⟨_, rfl, fun e he => ?_⟩)
      rw [List.append_nil] at hsplit
      subst hsplit
      have hle := hpos.le_current hL
      rw [← hpos.split] at he
      rcases List.mem_append.mp he with he | he
      · exact hpos.notShared e he
      · exact isShared_eq_false fun r hr => (lt_of_le_of_lt (hle e he) (hpos.older r hr)).ne'
  | op :: rs, done, s, hsplit, hpos, hscanned => by
      have hstep : StepOutcome fn localOplog remoteOplog (done ++ [op])
          (onRemoteOperation fn s op) := by
        rw [onRemoteOperation_of_scanned_pos hscanned]
        exact compareWithRemote_cases hL hR hsplit hpos
      exact syncLoop_cons_of_stepOutcome hstep fun s' hpos' hscanned' =>
        syncLoop_cases hL hR rs (by rw [hsplit, List.append_assoc, List.singleton_append]) hpos'
          hscanned'

/-- **What `syncRollBackLocalOperations` can answer.**  An empty remote oplog is an invalid sync
source, an empty local oplog is `OplogStartMissing`, and a newest local entry more than 1800
seconds newer than the newest remote one is `ExceededTimeLimit`.  Otherwise the run over the
remote entries ends in one of the three ways of `LoopOutcome`, and the entries rolled back are
the ones of its final state. -/
theorem syncRollBackLocalOperations_cases (hL : NewestFirst localOplog)
    (hR : NewestFirst remoteOplog) :
    (remoteOplog = [] ∧ (syncRollBackLocalOperations fn localOplog remoteOplog).1 =
        .error (.status ⟨.invalidSyncSource, "remote oplog empty or unreadable"⟩)) ∨
    (remoteOplog ≠ [] ∧ localOplog = [] ∧
      (syncRollBackLocalOperations fn localOplog remoteOplog).1 =
        .error (.status ⟨.oplogStartMissing, "no oplog during initsync"⟩)) ∨
    (remoteOplog ≠ [] ∧ localOplog ≠ [] ∧ ¬ WithinTimeLimit localOplog remoteOplog ∧
      (syncRollBackLocalOperations fn localOplog remoteOplog).1 =
        .error (.status ⟨.exceededTimeLimit,
          "rollback error: not willing to roll back more than 30 minutes of data"⟩)) ∨
    (WithinTimeLimit localOplog remoteOplog ∧ ∃ r, LoopOutcome fn localOplog remoteOplog r ∧
      syncRollBackLocalOperations fn localOplog remoteOplog = (r.1, r.2.rolledBack)) := by
  rcases remoteOplog with _ | ⟨op, rs⟩
  · exact .inl ⟨rfl, rfl⟩
  rcases localOplog with _ | ⟨value, it⟩
  · exact .inr (.inl ⟨List.cons_ne_nil _ _, rfl, rfl⟩)
  by_cases hdiff : WithinTimeLimit (value :: it) (op :: rs)
  · refine .inr (.inr (.inr ⟨hdiff, _, ?_, rfl⟩))
    have hpos : Positioned fn (value :: it) (op :: rs) [] ⟨it, value, 0, []⟩ :=
      ⟨rfl, by simp, by simp, by simp⟩
    have hstep : StepOutcome fn (value :: it) (op :: rs) ([] ++ [op])
        (onRemoteOperation fn (RollBackLocalOperations.make (value :: it)) op) := by
      have hdiff' : ¬ ((value.ts.secs.toNat : ℤ) - op.ts.secs.toNat > 1800) := by
        have h : (value.ts.secs.toNat : ℤ) - op.ts.secs.toNat ≤ 1800 := hdiff
        omega
      rw [onRemoteOperation, if_pos (show (RollBackLocalOperations.make (value :: it)).scanned = 0
        from rfl)]
      dsimp only [RollBackLocalOperations.make]
      rw [if_neg hdiff']
      exact compareWithRemote_cases hL hR (show op :: rs = [] ++ op :: rs from rfl) hpos
    exact syncLoop_cons_of_stepOutcome hstep fun s' hpos' hscanned' =>
      syncLoop_cases hL hR rs rfl hpos' hscanned'
  · refine .inr (.inr (.inl ⟨List.cons_ne_nil _ _, List.cons_ne_nil _ _, hdiff, ?_⟩))
    have hdiff' : (value.ts.secs.toNat : ℤ) - op.ts.secs.toNat > 1800 := by
      have h : ¬ ((value.ts.secs.toNat : ℤ) - op.ts.secs.toNat ≤ 1800) := hdiff
      omega
    simp only [syncRollBackLocalOperations, syncLoop, onRemoteOperation,
      RollBackLocalOperations.make, if_true, hdiff', Failure.isNoSuchKey]
    rfl

end Run

/-! ## The common point and the entries rolled back -/

section Outcome

variable {fn : OplogEntry → Except Status Unit} {localOplog remoteOplog : List OplogEntry}

/-- The entry found is the newest shared one. -/
theorem Found.commonPoint_eq {c : OplogEntry} {s : RollBackLocalOperations}
    (h : Found fn localOplog remoteOplog c s) : commonPoint localOplog remoteOplog = some c := by
  rw [commonPoint, ← h.split, List.find?_append,
    List.find?_eq_none.mpr fun x hx => by simp [h.notShared x hx],
    List.find?_cons_of_pos h.shared]
  rfl

/-- What was rolled back before the common point is everything newer than the newest shared
entry. -/
theorem Found.toRollBack_eq {c : OplogEntry} {s : RollBackLocalOperations}
    (h : Found fn localOplog remoteOplog c s) : toRollBack localOplog remoteOplog = s.rolledBack := by
  rw [toRollBack, ← h.split, List.takeWhile_append_of_pos fun x hx => by simp [h.notShared x hx],
    List.takeWhile_cons_of_neg (by simp [h.shared]), List.append_nil]

/-- In an oplog iterated newest first, the entries before the common point are those newer than
it. -/
theorem Found.rolledBack_eq_newer (hL : NewestFirst localOplog) {c : OplogEntry}
    {s : RollBackLocalOperations} (h : Found fn localOplog remoteOplog c s) :
    s.rolledBack = localOplog.takeWhile (fun e => c.ts < e.ts) := by
  have hL' := hL
  rw [← h.split] at hL'
  rw [← h.split, List.takeWhile_append_of_pos fun x hx => by
      simpa using hL'.lt_of_mem hx List.mem_cons_self,
    takeWhile_newer_of_le (lt_irrefl _), List.append_nil]

/-- The entry whose rollback failed is one of those newer than any shared entry. -/
theorem FailsBefore.exists_mem {st : Status} (h : FailsBefore fn localOplog remoteOplog st) :
    ∃ e ∈ toRollBack localOplog remoteOplog, fn e = .error st := by
  obtain ⟨pre, e, post, rfl, hpre, he, hst⟩ := h
  refine ⟨e, ?_, hst⟩
  rw [toRollBack, List.takeWhile_append_of_pos fun x hx => by simp [hpre x hx],
    List.takeWhile_cons_of_pos (by simp [he])]
  simp

/-- A shared entry needs a non-empty remote oplog, and a common point a non-empty local one. -/
theorem ne_nil_of_commonPoint {c : OplogEntry}
    (h : commonPoint localOplog remoteOplog = some c) : localOplog ≠ [] ∧ remoteOplog ≠ [] := by
  have hmem := List.mem_of_find?_eq_some h
  have hshared := List.find?_some h
  refine ⟨List.ne_nil_of_mem hmem, ?_⟩
  obtain ⟨r, hr, -⟩ := isShared_iff.mp hshared
  exact List.ne_nil_of_mem hr

/-- A run that ends in one of its three ways answers `c` exactly when `c` is the newest shared
entry and every rollback before it succeeds. -/
theorem LoopOutcome.eq_ok_iff {res : Except Failure OplogEntry × RollBackLocalOperations}
    (hout : LoopOutcome fn localOplog remoteOplog res) (c : OplogEntry) :
    res.1 = .ok c ↔ commonPoint localOplog remoteOplog = some c ∧
      ∀ e ∈ toRollBack localOplog remoteOplog, fn e = .ok () := by
  constructor
  · intro hc
    rcases hout with ⟨c', hc', hfound⟩ | ⟨_, hr1, _⟩ | ⟨_, hr1, _⟩ <;> rw [hc] at *
    · cases hc'
      refine ⟨hfound.commonPoint_eq, fun e he => ?_⟩
      rw [hfound.toRollBack_eq] at he
      exact hfound.rolledBackOk e he
    · cases hr1
    · cases hr1
  · rintro ⟨hcp, hok⟩
    rcases hout with ⟨c', hc', hfound⟩ | ⟨_, _, hnone⟩ | ⟨_, _, hfail⟩
    · rw [hfound.commonPoint_eq] at hcp
      cases hcp
      exact hc'
    · have hshared := List.find?_some hcp
      rw [hnone c (List.mem_of_find?_eq_some hcp)] at hshared
      cases hshared
    · obtain ⟨e, he, hst⟩ := hfail.exists_mem
      rw [hok e he] at hst
      cases hst

/-- A run that answers `c` rolled back exactly the local entries newer than `c`. -/
theorem LoopOutcome.rolledBack_eq (hL : NewestFirst localOplog)
    {res : Except Failure OplogEntry × RollBackLocalOperations}
    (hout : LoopOutcome fn localOplog remoteOplog res) {c : OplogEntry} (hc : res.1 = .ok c) :
    res.2.rolledBack = localOplog.takeWhile (fun e => c.ts < e.ts) := by
  rcases hout with ⟨c', hc', hfound⟩ | ⟨_, hr1, _⟩ | ⟨_, hr1, _⟩ <;> rw [hc] at *
  · cases hc'
    exact hfound.rolledBack_eq_newer hL
  · cases hr1
  · cases hr1

/-- A run over oplogs that share nothing, where no rollback fails, ends in
`NoMatchingDocument`. -/
theorem LoopOutcome.noMatchingDocument {res : Except Failure OplogEntry × RollBackLocalOperations}
    (hout : LoopOutcome fn localOplog remoteOplog res)
    (hnone : commonPoint localOplog remoteOplog = none) (hok : ∀ e ∈ localOplog, fn e = .ok ()) :
    ∃ reason, res.1 = .error (.status ⟨.noMatchingDocument, reason⟩) := by
  rcases hout with ⟨c', hc', hfound⟩ | ⟨reason, hr1, _⟩ | ⟨_, _, hfail⟩
  · rw [hfound.commonPoint_eq] at hnone
    cases hnone
  · exact ⟨reason, hr1⟩
  · obtain ⟨e, he, hst⟩ := hfail.exists_mem
    rw [hok e ((List.takeWhile_sublist _).subset he)] at hst
    cases hst

theorem syncRollBackLocalOperations_eq_ok_iff (hL : NewestFirst localOplog)
    (hR : NewestFirst remoteOplog) (c : OplogEntry) :
    (syncRollBackLocalOperations fn localOplog remoteOplog).1 = .ok c ↔
      commonPoint localOplog remoteOplog = some c ∧ WithinTimeLimit localOplog remoteOplog ∧
        ∀ e ∈ toRollBack localOplog remoteOplog, fn e = .ok () := by
  rcases @syncRollBackLocalOperations_cases fn localOplog remoteOplog hL hR with
    ⟨hnil, hres⟩ | ⟨-, hnil, hres⟩ | ⟨-, -, hdiff, hres⟩ | ⟨hdiff, r, hout, hres⟩
  · rw [hres]
    refine ⟨nofun, fun ⟨hc, _⟩ => absurd hnil (ne_nil_of_commonPoint hc).2⟩
  · rw [hres]
    refine ⟨nofun, fun ⟨hc, _⟩ => absurd hnil (ne_nil_of_commonPoint hc).1⟩
  · rw [hres]
    refine ⟨nofun, fun ⟨_, hw, _⟩ => absurd hw hdiff⟩
  · rw [hres]
    dsimp only
    rw [hout.eq_ok_iff c]
    exact ⟨fun ⟨hcp, hok⟩ => ⟨hcp, hdiff, hok⟩, fun ⟨hcp, _, hok⟩ => ⟨hcp, hok⟩⟩

theorem syncRollBackLocalOperations_rolledBack_eq (hL : NewestFirst localOplog)
    (hR : NewestFirst remoteOplog) {c : OplogEntry}
    (hc : (syncRollBackLocalOperations fn localOplog remoteOplog).1 = .ok c) :
    (syncRollBackLocalOperations fn localOplog remoteOplog).2 =
      localOplog.takeWhile (fun e => c.ts < e.ts) := by
  rcases @syncRollBackLocalOperations_cases fn localOplog remoteOplog hL hR with
    ⟨-, hres⟩ | ⟨-, -, hres⟩ | ⟨-, -, -, hres⟩ | ⟨-, r, hout, hres⟩
  · rw [hres] at hc
    cases hc
  · rw [hres] at hc
    cases hc
  · rw [hres] at hc
    cases hc
  · rw [hres] at hc ⊢
    exact hout.rolledBack_eq hL hc

theorem syncRollBackLocalOperations_noMatchingDocument (hL : NewestFirst localOplog)
    (hR : NewestFirst remoteOplog) (hnone : commonPoint localOplog remoteOplog = none)
    (hlocal : localOplog ≠ []) (hremote : remoteOplog ≠ [])
    (hdiff : WithinTimeLimit localOplog remoteOplog) (hok : ∀ e ∈ localOplog, fn e = .ok ()) :
    ∃ reason, (syncRollBackLocalOperations fn localOplog remoteOplog).1 =
      .error (.status ⟨.noMatchingDocument, reason⟩) := by
  rcases @syncRollBackLocalOperations_cases fn localOplog remoteOplog hL hR with
    ⟨hnil, -⟩ | ⟨-, hnil, -⟩ | ⟨-, -, hdiff', -⟩ | ⟨-, r, hout, hres⟩
  · exact absurd hnil hremote
  · exact absurd hnil hlocal
  · exact absurd hdiff hdiff'
  · rw [hres]
    exact hout.noMatchingDocument hnone hok

/-- The answers of the checks before the run: an empty remote oplog is an invalid sync source,
an empty local oplog is `OplogStartMissing`, and a newest local entry more than 1800 seconds newer
than the newest remote one is `ExceededTimeLimit`. -/
theorem syncRollBackLocalOperations_checks (hL : NewestFirst localOplog)
    (hR : NewestFirst remoteOplog) :
    (remoteOplog = [] → (syncRollBackLocalOperations fn localOplog remoteOplog).1 =
        .error (.status ⟨.invalidSyncSource, "remote oplog empty or unreadable"⟩)) ∧
    (remoteOplog ≠ [] → localOplog = [] →
      (syncRollBackLocalOperations fn localOplog remoteOplog).1 =
        .error (.status ⟨.oplogStartMissing, "no oplog during initsync"⟩)) ∧
    (remoteOplog ≠ [] → localOplog ≠ [] → ¬ WithinTimeLimit localOplog remoteOplog →
      (syncRollBackLocalOperations fn localOplog remoteOplog).1 =
        .error (.status ⟨.exceededTimeLimit,
          "rollback error: not willing to roll back more than 30 minutes of data"⟩)) := by
  refine ⟨fun hremote => by subst hremote; rfl, fun hremote hlocal => ?_, ?_⟩
  · subst hlocal
    obtain ⟨op, rs, rfl⟩ := List.exists_cons_of_ne_nil hremote
    rfl
  · intro hremote hlocal hdiff
    rcases @syncRollBackLocalOperations_cases fn localOplog remoteOplog hL hR with
      ⟨hnil, -⟩ | ⟨-, hnil, -⟩ | ⟨-, -, -, hres⟩ | ⟨hdiff', -⟩
    · exact absurd hnil hremote
    · exact absurd hnil hlocal
    · exact hres
    · exact absurd hdiff' hdiff

/-- **How the run fails once the checks pass**: with `NoMatchingDocument` when the oplogs share
nothing, or with the status `_rollbackOperation` returned on an entry newer than every shared
one, which is an `invariant` failure for `NoSuchKey`. -/
theorem syncRollBackLocalOperations_error (hL : NewestFirst localOplog)
    (hR : NewestFirst remoteOplog) {err : Failure}
    (herr : (syncRollBackLocalOperations fn localOplog remoteOplog).1 = .error err)
    (hlocal : localOplog ≠ []) (hremote : remoteOplog ≠ [])
    (hdiff : WithinTimeLimit localOplog remoteOplog) :
    (∃ reason, err = .status ⟨.noMatchingDocument, reason⟩ ∧
        commonPoint localOplog remoteOplog = none) ∨
      ∃ st, err = rollbackFailure st ∧ FailsBefore fn localOplog remoteOplog st := by
  rcases @syncRollBackLocalOperations_cases fn localOplog remoteOplog hL hR with
    ⟨hnil, -⟩ | ⟨-, hnil, -⟩ | ⟨-, -, hdiff', -⟩ | ⟨-, r, hout, hres⟩
  · exact absurd hnil hremote
  · exact absurd hnil hlocal
  · exact absurd hdiff hdiff'
  rw [hres] at herr
  rcases hout with ⟨c, hc, -⟩ | ⟨reason, hr, hnone⟩ | ⟨st, hr, hfails⟩
  · rw [hc] at herr
    cases herr
  · rw [hr] at herr
    cases herr
    exact .inl ⟨reason, rfl, List.find?_eq_none.mpr fun e he => by simp [hnone e he]⟩
  · rw [hr] at herr
    cases herr
    exact .inr ⟨st, rfl, hfails⟩

/-- **`syncRollBackLocalOperations` finds the newest common entry.**  For a local and a remote
oplog whose timestamps strictly decrease, and any `_rollbackOperation`:
* the result is a common point `c` exactly when `c` is the newest local entry the remote oplog
  shares, the first call's time check passes, and `_rollbackOperation` succeeds on every local
  entry newer than `c`;
* `_rollbackOperation` was then called on exactly the local entries newer than `c`, each once,
  newest first;
* oplogs that share nothing end in `NoMatchingDocument` when both are non-empty, the time check
  passes and `_rollbackOperation` never fails;
* an empty remote oplog is `InvalidSyncSource`, an empty local oplog `OplogStartMissing`, and a
  newest local entry more than 1800 seconds newer than the newest remote one
  `ExceededTimeLimit`;
* any other failure is `NoMatchingDocument` of oplogs that share nothing, or the status of
  `_rollbackOperation` on an entry newer than every shared one, an `invariant` failure for
  `NoSuchKey`. -/
theorem syncRollBackLocalOperations_spec (fn : OplogEntry → Except Status Unit)
    (hL : NewestFirst localOplog) (hR : NewestFirst remoteOplog) :
    (∀ c, (syncRollBackLocalOperations fn localOplog remoteOplog).1 = .ok c ↔
      commonPoint localOplog remoteOplog = some c ∧ WithinTimeLimit localOplog remoteOplog ∧
        ∀ e ∈ toRollBack localOplog remoteOplog, fn e = .ok ()) ∧
    (∀ c, (syncRollBackLocalOperations fn localOplog remoteOplog).1 = .ok c →
      (syncRollBackLocalOperations fn localOplog remoteOplog).2 =
        localOplog.takeWhile (fun e => c.ts < e.ts)) ∧
    (commonPoint localOplog remoteOplog = none → localOplog ≠ [] → remoteOplog ≠ [] →
      WithinTimeLimit localOplog remoteOplog → (∀ e ∈ localOplog, fn e = .ok ()) →
      ∃ reason, (syncRollBackLocalOperations fn localOplog remoteOplog).1 =
        .error (.status ⟨.noMatchingDocument, reason⟩)) ∧
    (remoteOplog = [] → (syncRollBackLocalOperations fn localOplog remoteOplog).1 =
        .error (.status ⟨.invalidSyncSource, "remote oplog empty or unreadable"⟩)) ∧
    (remoteOplog ≠ [] → localOplog = [] →
      (syncRollBackLocalOperations fn localOplog remoteOplog).1 =
        .error (.status ⟨.oplogStartMissing, "no oplog during initsync"⟩)) ∧
    (remoteOplog ≠ [] → localOplog ≠ [] → ¬ WithinTimeLimit localOplog remoteOplog →
      (syncRollBackLocalOperations fn localOplog remoteOplog).1 =
        .error (.status ⟨.exceededTimeLimit,
          "rollback error: not willing to roll back more than 30 minutes of data"⟩)) ∧
    (∀ err, (syncRollBackLocalOperations fn localOplog remoteOplog).1 = .error err →
      localOplog ≠ [] → remoteOplog ≠ [] → WithinTimeLimit localOplog remoteOplog →
      (∃ reason, err = .status ⟨.noMatchingDocument, reason⟩ ∧
          commonPoint localOplog remoteOplog = none) ∨
        ∃ st, err = rollbackFailure st ∧ FailsBefore fn localOplog remoteOplog st) := by
  obtain ⟨hinvalid, hmissing, hexceeded⟩ := @syncRollBackLocalOperations_checks fn _ _ hL hR
  exact ⟨syncRollBackLocalOperations_eq_ok_iff hL hR,
    fun _ hc => syncRollBackLocalOperations_rolledBack_eq hL hR hc,
    fun hnone hlocal hremote hdiff hok =>
      syncRollBackLocalOperations_noMatchingDocument hL hR hnone hlocal hremote hdiff hok,
    hinvalid, hmissing, hexceeded,
    fun _ herr hlocal hremote hdiff =>
      syncRollBackLocalOperations_error hL hR herr hlocal hremote hdiff⟩

/-- Two oplogs that diverged after the entry at second 2: the local entry at second 3 is rolled
back and the one at second 2 is the common point. -/
theorem syncRollBackLocalOperations_diverged :
    NewestFirst [⟨⟨3, 0⟩, 3⟩, ⟨⟨2, 0⟩, 2⟩, ⟨⟨1, 0⟩, 1⟩] ∧ NewestFirst [⟨⟨4, 0⟩, 4⟩, ⟨⟨2, 0⟩, 2⟩] ∧
      (syncRollBackLocalOperations (fun _ => .ok ()) [⟨⟨3, 0⟩, 3⟩, ⟨⟨2, 0⟩, 2⟩, ⟨⟨1, 0⟩, 1⟩]
        [⟨⟨4, 0⟩, 4⟩, ⟨⟨2, 0⟩, 2⟩]).2 = [⟨⟨3, 0⟩, 3⟩] := by
  have hL : NewestFirst [⟨⟨3, 0⟩, 3⟩, ⟨⟨2, 0⟩, 2⟩, ⟨⟨1, 0⟩, 1⟩] := by decide
  have hR : NewestFirst [⟨⟨4, 0⟩, 4⟩, ⟨⟨2, 0⟩, 2⟩] := by decide
  have hc : (syncRollBackLocalOperations (fun _ => .ok ()) [⟨⟨3, 0⟩, 3⟩, ⟨⟨2, 0⟩, 2⟩, ⟨⟨1, 0⟩, 1⟩]
      [⟨⟨4, 0⟩, 4⟩, ⟨⟨2, 0⟩, 2⟩]).1 = .ok ⟨⟨2, 0⟩, 2⟩ := by rfl
  refine ⟨hL, hR, ?_⟩
  rw [(syncRollBackLocalOperations_spec (fun _ => .ok ()) hL hR).2.1 ⟨⟨2, 0⟩, 2⟩ hc]
  decide

/-- An empty local oplog shares nothing with a remote one, and the answer is
`OplogStartMissing`, not `NoMatchingDocument`. -/
theorem syncRollBackLocalOperations_empty_local :
    commonPoint [] [⟨⟨1, 0⟩, 1⟩] = none ∧
      (syncRollBackLocalOperations (fun _ => .ok ()) [] [⟨⟨1, 0⟩, 1⟩]).1 =
        .error (.status ⟨.oplogStartMissing, "no oplog during initsync"⟩) :=
  ⟨rfl, rfl⟩

end Outcome

end Repl

end Mongo
