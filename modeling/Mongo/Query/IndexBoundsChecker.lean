import Mathlib
import Mongo.Query.IndexBounds

/-!
# The index bounds checker

An index scan over bounds that are not a simple range walks the index in order and asks an
`IndexBoundsChecker` (`db/query/index_bounds.cpp`) about every key it meets: `VALID` if the key
lies in the bounds, `MUST_ADVANCE` with a seek point when the scan can jump ahead, `DONE` when no
later key can lie in the bounds.  The checker keeps a cursor per field, `_curInterval`, the
interval that field was last found in.

The model is the source's, with every vector read checked: a read out of range, a failed
`verify` or a failed `invariant` is a `CheckerError`.  `std::lower_bound` over the intervals is
the first interval the key is not ahead of, which is what the binary search finds when the
intervals are ordered as `isValidFor` requires.  The seek point keeps the entries of
`keySuffix` and `suffixInclusive` from `prefixLen` on, the ones the source fills and reads.
-/

namespace Mongo

variable {V : Type} [LinearOrder V]

/-- A failed `verify` or `invariant`, or a vector read out of range. -/
inductive CheckerError
  | verifyFailed
  | outOfRange
  deriving DecidableEq, Repr

/-- `v[i]`, which must be in range. -/
def elemAt {α : Type} (v : List α) (i : ℕ) : Except CheckerError α :=
  match v[i]? with
  | some a => pure a
  | none => throw .outOfRange

/-- `IndexSeekPoint`: the key to take the first `prefixLen` fields of, whether to seek past every
key with that prefix, and else the values (with their inclusivity) to seek to for the fields from
`prefixLen` on. -/
structure IndexSeekPoint (V : Type) where
  keyPrefix : List V
  prefixLen : ℕ
  prefixExclusive : Bool
  keySuffix : List V
  suffixInclusive : List Bool
  deriving DecidableEq, Repr

/-- The suffix loop of `IndexEntryComparison::makeQueryObject`: each value with whether it is
inclusive, up to and including the first exclusive one, after which no field matters. -/
def querySuffix : List V → List Bool → List (V × Bool)
  | value :: values, inclusive :: rest =>
      if inclusive then (value, true) :: querySuffix values rest else [(value, false)]
  | _, _ => []

/-- `IndexEntryComparison::makeQueryObject(keyPrefix, prefixLen, prefixExclusive, keySuffix,
suffixInclusive, cursorDirection)`: the key a seek looks for, each value paired with whether an
index key equal to it there is at the seek point (`true`) or before it (`false`).  The cursor
direction only picks the field-name byte that says "before", so the model leaves it out and
reads the result along the scan.  A failed `invariant` is `none`. -/
def IndexSeekPoint.makeQueryObject (sp : IndexSeekPoint V) : Option (List (V × Bool)) :=
  -- `invariant(it.more())` for each of the first `prefixLen` fields
  if sp.keyPrefix.length < sp.prefixLen then none
  else
    let keyPrefix := (sp.keyPrefix.take sp.prefixLen).mapIdx fun i e =>
      (e, !(sp.prefixExclusive && i == sp.prefixLen - 1))
    if sp.prefixExclusive then
      -- `invariant(prefixLen > 0)`
      if sp.prefixLen = 0 then none else some keyPrefix
    -- `invariant(keySuffix.size() == suffixInclusive.size())`
    else if sp.keySuffix.length ≠ sp.suffixInclusive.length then none
    else some (keyPrefix ++ querySuffix sp.keySuffix sp.suffixInclusive)

/-- `IndexBoundsChecker::KeyState`, with the seek point of a `MUST_ADVANCE`. -/
inductive KeyState (V : Type)
  | valid
  | mustAdvance (seekPoint : IndexSeekPoint V)
  | done
  deriving DecidableEq, Repr

/-- An `IndexBoundsChecker`: the bounds, the current interval of each field, and each field's
direction along the scan. -/
structure IndexBoundsChecker (V : Type) where
  bounds : IndexBounds V
  curInterval : List ℕ
  expectedDirection : List ℤ

/-- The direction of each field along the scan: the key pattern's sign times the scan direction.
A key-pattern element is given by its numeric value (`number()`, zero for a non-number). -/
def expectedDirections (keyPattern : List ℤ) (scanDirection : ℤ) : List ℤ :=
  keyPattern.map fun number => (if number ≥ 0 then 1 else -1) * scanDirection

/-- `IndexBoundsChecker(bounds, keyPattern, scanDirection)`: every field at its first
interval. -/
def IndexBoundsChecker.make (bounds : IndexBounds V) (keyPattern : List ℤ) (scanDirection : ℤ) :
    IndexBoundsChecker V :=
  ⟨bounds, List.replicate bounds.fields.length 0, expectedDirections keyPattern scanDirection⟩

/-- `IndexBounds::isValidFor(keyPattern, direction)` for bounds that are not a simple range: one
interval list per key-pattern field, of the same name, valid for the field's direction. -/
def IndexBounds.isValidFor (bounds : IndexBounds V) (keyPattern : List (String × ℤ))
    (direction : ℤ) : Bool :=
  bounds.fields.length == keyPattern.length &&
    (bounds.fields.zip keyPattern).all fun (field, name, number) =>
      field.name == name && field.isValidFor (direction * if number ≥ 0 then 1 else -1)

/-- Sets the current interval of every field from `first` on back to the first one. -/
def resetFrom (first : ℕ) (curInterval : List ℕ) : List ℕ :=
  curInterval.mapIdx fun i cur => if first ≤ i then 0 else cur

namespace IndexBoundsChecker

/-- `intervalCmp(fields[i].intervals[_curInterval[i]], keyValues[i], _expectedDirection[i])`. -/
def currentLocation (c : IndexBoundsChecker V) (keyValues : List V) (i : ℕ) :
    Except CheckerError Location := do
  let field ← elemAt c.bounds.fields i
  let cur ← elemAt c.curInterval i
  let interval ← elemAt field.intervals cur
  let key ← elemAt keyValues i
  let direction ← elemAt c.expectedDirection i
  pure (intervalCmp interval key direction)

/-- The loop of `findLeftmostProblem` over the `count` fields from `i`. -/
def findLeftmostProblemFrom (c : IndexBoundsChecker V) (keyValues : List V) :
    ℕ → ℕ → Except CheckerError (Option (ℕ × Location))
  | 0, _ => pure none
  | count + 1, i => do
      let cmp ← c.currentLocation keyValues i
      if cmp ≠ .within then pure (some (i, cmp))
      else c.findLeftmostProblemFrom keyValues count (i + 1)

/-- `findLeftmostProblem(keyValues, &where, &what)`: the first field not within its current
interval, and where it lies. -/
def findLeftmostProblem (c : IndexBoundsChecker V) (keyValues : List V) :
    Except CheckerError (Option (ℕ × Location)) :=
  c.findLeftmostProblemFrom keyValues c.curInterval.length 0

/-- The loop of `spaceLeftToAdvance` over the `count` fields from `i`. -/
def spaceLeftToAdvanceFrom (c : IndexBoundsChecker V) (keyValues : List V) :
    ℕ → ℕ → Except CheckerError Bool
  | 0, _ => pure false
  | count + 1, i => do
      let field ← elemAt c.bounds.fields i
      let cur ← elemAt c.curInterval i
      -- `_curInterval[i] != intervals.size() - 1`, a `size_t` comparison
      if cur + 1 ≠ field.intervals.length then pure true
      else
        let ival ← elemAt field.intervals cur
        if !ival.endInclusive then pure true
        else
          let key ← elemAt keyValues i
          let direction ← elemAt c.expectedDirection i
          if -direction = woCompareSign key ival.end_ then pure true
          else c.spaceLeftToAdvanceFrom keyValues count (i + 1)

/-- `spaceLeftToAdvance(fieldsToCheck, keyValues)`: whether one of the first `fieldsToCheck`
fields can still move forward, not being at the closed end of its last interval. -/
def spaceLeftToAdvance (c : IndexBoundsChecker V) (fieldsToCheck : ℕ) (keyValues : List V) :
    Except CheckerError Bool :=
  c.spaceLeftToAdvanceFrom keyValues fieldsToCheck 0

end IndexBoundsChecker

/-- `findIntervalForField(elt, oil, expectedDirection, &newIntervalIndex)`: `std::lower_bound`
for the first interval `elt` is not ahead of; `AHEAD` past them all, else where `elt` lies in
that interval and its index. -/
def findIntervalForField (elt : V) (oil : OrderedIntervalList V) (expectedDirection : ℤ) :
    Except CheckerError (Location × ℕ) :=
  let i := oil.intervals.findIdx fun interval => intervalCmp interval elt expectedDirection ≠ .ahead
  match oil.intervals[i]? with
  | none => pure (.ahead, i)
  | some interval =>
      let where_ := intervalCmp interval elt expectedDirection
      -- `invariant(BEHIND == where || WITHIN == where)`
      if where_ = .ahead then throw .verifyFailed else pure (where_, i)

namespace IndexBoundsChecker

/-- The starts of the current intervals of the fields from `first` on, with their
inclusivity. -/
def startsFrom (c : IndexBoundsChecker V) (first : ℕ) : Except CheckerError (List (V × Bool)) :=
  ((List.range c.curInterval.length).drop first).mapM fun j => do
    let field ← elemAt c.bounds.fields j
    let cur ← elemAt c.curInterval j
    let interval ← elemAt field.intervals cur
    pure (interval.start, interval.startInclusive)

/-- The seek point to the starts of the current intervals of the fields from `first` on. -/
def seekToStarts (c : IndexBoundsChecker V) (keyValues : List V) (first : ℕ) :
    Except CheckerError (IndexSeekPoint V) := do
  let starts ← c.startsFrom first
  pure ⟨keyValues, first, false, starts.map Prod.fst, starts.map Prod.snd⟩

/-- The `while` loop of `checkKey` once field `first` is ahead of its current interval: find
each field's interval by binary search, from `first` on. -/
def advanceAhead (c : IndexBoundsChecker V) (keyValues : List V) (first : ℕ) :
    Except CheckerError (KeyState V × IndexBoundsChecker V) :=
  if first < c.curInterval.length then do
    let field ← elemAt c.bounds.fields first
    let elt ← elemAt keyValues first
    let direction ← elemAt c.expectedDirection first
    let (where_, newIntervalForField) ← findIntervalForField elt field direction
    match where_ with
    | .within =>
        advanceAhead { c with curInterval := c.curInterval.set first newIntervalForField }
          keyValues (first + 1)
    | .behind =>
        let curInterval := resetFrom (first + 1) (c.curInterval.set first newIntervalForField)
        let c := { c with curInterval := curInterval }
        let seekPoint ← c.seekToStarts keyValues first
        pure (.mustAdvance seekPoint, c)
    | .ahead =>
        if !(← c.spaceLeftToAdvance first keyValues) then pure (.done, c)
        else
          pure (.mustAdvance ⟨keyValues, first, true, [], []⟩,
            { c with curInterval := resetFrom first c.curInterval })
  else pure (.valid, c)
termination_by c.curInterval.length - first
decreasing_by simp only [List.length_set]; omega

/-- `checkKey(key, &out)`. -/
def checkKey (c : IndexBoundsChecker V) (key : List V) :
    Except CheckerError (KeyState V × IndexBoundsChecker V) := do
  -- `verify(_curInterval.size() > 0)` and `verify(keyValues.size() == _curInterval.size())`
  if c.curInterval.length = 0 ∨ key.length ≠ c.curInterval.length then throw .verifyFailed
  match ← c.findLeftmostProblem key with
  | none => pure (.valid, c)
  | some (firstNonContainedField, orientation) =>
      -- behind its current interval: start the fields from there over, and look again
      let (c, problem) ← if orientation = .behind then do
          let c := { c with curInterval := resetFrom firstNonContainedField c.curInterval }
          pure (c, ← c.findLeftmostProblem key)
        else pure (c, some (firstNonContainedField, orientation))
      match problem with
      | none => pure (.valid, c)
      | some (firstNonContainedField, .behind) => do
          let seekPoint ← c.seekToStarts key firstNonContainedField
          pure (.mustAdvance seekPoint, c)
      | some (firstNonContainedField, .ahead) => c.advanceAhead key firstNonContainedField
      -- `verify(AHEAD == orientation)`
      | some (_, .within) => throw .verifyFailed

end IndexBoundsChecker

/-- Checking the keys of a scan, in order, with one checker. -/
def checkKeys (c : IndexBoundsChecker V) : List (List V) → Except CheckerError (List (KeyState V))
  | [] => pure []
  | key :: keys => do
      let (state, c) ← c.checkKey key
      let states ← checkKeys c keys
      pure (state :: states)

end Mongo
