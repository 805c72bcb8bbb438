import Mathlib
import Mongo.Clock.LogicalClock

/-!
# Finding the common point of two oplogs

Rollback walks the local oplog and the sync source's oplog together, each newest first, to find
the newest entry they share (`db/repl/roll_back_local_operations.cpp`).

* `RollBackLocalOperations::onRemoteOperation` takes the next remote entry.  At the first call it
  reads the newest local entry and refuses a rollback of more than 30 minutes.
* It then rolls back every local entry newer than the remote entry, with `_rollbackOperation`.
* A local entry with the remote entry's timestamp and hash is the common point.
* A local entry with its timestamp and another hash is rolled back too, and the caller is asked
  for the next remote entry (`NoSuchKey`).  So is a local entry that is older.
* `syncRollBackLocalOperations` feeds the remote entries in until a call answers something other
  than `NoSuchKey`.  It fails with `NoMatchingDocument` when the remote oplog runs out (RS100);
  `onRemoteOperation` fails the same way when the local oplog runs out (RS101).

An oplog entry is what these functions read of it: its timestamp `ts` and its hash `h`.  The
iterators are the lists of entries they have yet to return, and `_rollbackOperation` is a
function from an entry to a status.  The state keeps the entries `_rollbackOperation` was
called on, in order: the effect the caller sees.
-/

namespace Mongo

/-! ## Timestamps -/

/-- A `Timestamp` as the number `asULL` reads: the seconds in the high 32 bits, the increment
in the low ones. -/
def LogicalClock.Timestamp.rank (ts : LogicalClock.Timestamp) : ℕ :=
  ts.secs.toNat * 2 ^ 32 + ts.i.toNat

theorem LogicalClock.Timestamp.rank_injective :
    Function.Injective LogicalClock.Timestamp.rank := by
  rintro ⟨s₁, i₁⟩ ⟨s₂, i₂⟩ h
  simp only [LogicalClock.Timestamp.rank] at h
  have hi₁ := i₁.toNat_lt
  have hi₂ := i₂.toNat_lt
  have hs : s₁ = s₂ := UInt32.toNat_inj.mp (by omega)
  have hi : i₁ = i₂ := UInt32.toNat_inj.mp (by omega)
  rw [hs, hi]

/-- `Timestamp::operator<` and its kin compare `tie()`, the seconds and then the increment: the
order of `rank`. -/
instance : LinearOrder LogicalClock.Timestamp :=
  LinearOrder.lift' LogicalClock.Timestamp.rank LogicalClock.Timestamp.rank_injective

namespace Repl

open LogicalClock (Timestamp)

/-- What rollback reads of an oplog entry: `operation["ts"]` and `operation["h"]`. -/
structure OplogEntry where
  ts : Timestamp
  h : Int64
  deriving DecidableEq, Repr

/-- The codes of the statuses these functions return. -/
inductive ErrorCodes
  | noSuchKey
  | oplogStartMissing
  | exceededTimeLimit
  | noMatchingDocument
  | invalidSyncSource
  /-- Any other code, as `_rollbackOperation` may return. -/
  | other (code : ℕ)
  deriving DecidableEq, Repr

/-- A `Status` that is not OK. -/
structure Status where
  code : ErrorCodes
  reason : String
  deriving DecidableEq, Repr

/-- Why a call returns no common point: a status, or an `invariant` that failed and stopped the
process. -/
inductive Failure
  | status (status : Status)
  | invariantFailure
  deriving DecidableEq, Repr

/-- Whether a failure is the `NoSuchKey` that asks for the next remote entry. -/
def Failure.isNoSuchKey : Failure → Bool
  | .status st => st.code = .noSuchKey
  | .invariantFailure => false

/-- `RollBackLocalOperations`: the entries `_localOplogIterator` has yet to return, the entry it
returned last (`_localOplogValue`), `_scanned`, and the entries `_rollbackOperation` was called
on. -/
structure RollBackLocalOperations where
  localOplogIterator : List OplogEntry
  localOplogValue : OplogEntry
  scanned : ℕ
  rolledBack : List OplogEntry
  deriving Repr

/-- The finder as constructed: nothing read yet.  `_localOplogValue` is an empty document until
the first call reads the newest local entry. -/
def RollBackLocalOperations.make (localOplog : List OplogEntry) : RollBackLocalOperations :=
  ⟨localOplog, ⟨⟨0, 0⟩, 0⟩, 0, []⟩

/-- A status of `_rollbackOperation` that is not OK is returned, after
`invariant(ErrorCodes::NoSuchKey != status.code())`. -/
def rollbackFailure (status : Status) : Failure :=
  if status.code = .noSuchKey then .invariantFailure else .status status

section

variable (rollbackOperation : OplogEntry → Except Status Unit)

/-- The `while` loop of `onRemoteOperation`: while the local entry is newer than `theirTime`,
roll it back and read the next one.  It answers a failure, or the state to go on from. -/
def rollBackNewer (theirTime : Timestamp) (localOplogValue : OplogEntry)
    (localOplogIterator : List OplogEntry) (scanned : ℕ) (rolledBack : List OplogEntry) :
    Option Failure × RollBackLocalOperations :=
  if localOplogValue.ts > theirTime then
    let rolledBack := rolledBack ++ [localOplogValue]
    match rollbackOperation localOplogValue with
    | .error status =>
        (some (rollbackFailure status),
          ⟨localOplogIterator, localOplogValue, scanned + 1, rolledBack⟩)
    | .ok () =>
        match localOplogIterator with
        | [] =>
            (some (.status ⟨.noMatchingDocument, "RS101 reached beginning of local oplog [2]"⟩),
              ⟨[], localOplogValue, scanned + 1, rolledBack⟩)
        | next :: rest => rollBackNewer theirTime next rest (scanned + 1) rolledBack
  else (none, ⟨localOplogIterator, localOplogValue, scanned, rolledBack⟩)

/-- `onRemoteOperation` after its first-call block: roll back the newer local entries, then
compare the local entry with the remote one. -/
def compareWithRemote (s : RollBackLocalOperations) (operation : OplogEntry) :
    Except Failure OplogEntry × RollBackLocalOperations :=
  match rollBackNewer rollbackOperation operation.ts s.localOplogValue s.localOplogIterator
      s.scanned s.rolledBack with
  | (some failure, s) => (.error failure, s)
  | (none, s) =>
      if s.localOplogValue.ts = operation.ts then
        let s := { s with scanned := s.scanned + 1 }
        if s.localOplogValue.h = operation.h then (.ok s.localOplogValue, s)
        else
          let s := { s with rolledBack := s.rolledBack ++ [s.localOplogValue] }
          match rollbackOperation s.localOplogValue with
          | .error status => (.error (rollbackFailure status), s)
          | .ok () =>
              match s.localOplogIterator with
              | [] =>
                  (.error (.status
                    ⟨.noMatchingDocument, "RS101 reached beginning of local oplog [1]"⟩), s)
              | next :: rest =>
                  (.error (.status ⟨.noSuchKey,
                    "Unable to determine common point - same timestamp but different hash. " ++
                      "Need to process additional remote operations."⟩),
                    { s with localOplogValue := next, localOplogIterator := rest })
      else
        -- `invariant(getTimestamp(_localOplogValue) < getTimestamp(operation))` holds here
        (.error (.status ⟨.noSuchKey,
          "Unable to determine common point. Need to process additional remote operations."⟩),
          { s with scanned := s.scanned + 1 })

/-- `RollBackLocalOperations::onRemoteOperation`.  The first call reads the newest local entry
and refuses a rollback when it is more than 1800 seconds newer than the remote entry. -/
def onRemoteOperation (s : RollBackLocalOperations) (operation : OplogEntry) :
    Except Failure OplogEntry × RollBackLocalOperations :=
  if s.scanned = 0 then
    match s.localOplogIterator with
    | [] => (.error (.status ⟨.oplogStartMissing, "no oplog during initsync"⟩), s)
    | value :: rest =>
        let s := { s with localOplogIterator := rest, localOplogValue := value }
        -- `long long` minus `unsigned`: the exact difference of the seconds
        let diff : ℤ := (value.ts.secs.toNat : ℤ) - operation.ts.secs.toNat
        if diff > 1800 then
          (.error (.status ⟨.exceededTimeLimit,
            "rollback error: not willing to roll back more than 30 minutes of data"⟩), s)
        else compareWithRemote rollbackOperation s operation
  else compareWithRemote rollbackOperation s operation

/-- The `while` loop of `syncRollBackLocalOperations` over the remote entries it has yet to
read. -/
def syncLoop (finder : RollBackLocalOperations) :
    List OplogEntry → Except Failure OplogEntry × RollBackLocalOperations
  | [] => (.error (.status ⟨.noMatchingDocument, "RS100 reached beginning of remote oplog [1]"⟩),
      finder)
  | operation :: rest =>
      match onRemoteOperation rollbackOperation finder operation with
      | (.ok commonPoint, finder) => (.ok commonPoint, finder)
      | (.error failure, finder) =>
          if failure.isNoSuchKey then syncLoop finder rest else (.error failure, finder)

/-- `syncRollBackLocalOperations`: the common point or why there is none, and the local entries
`_rollbackOperation` was called on. -/
def syncRollBackLocalOperations (localOplog remoteOplog : List OplogEntry) :
    Except Failure OplogEntry × List OplogEntry :=
  match remoteOplog with
  | [] => (.error (.status ⟨.invalidSyncSource, "remote oplog empty or unreadable"⟩), [])
  | operation :: rest =>
      let result := syncLoop rollbackOperation (RollBackLocalOperations.make localOplog)
        (operation :: rest)
      (result.1, result.2.rolledBack)

end

end Repl

end Mongo
