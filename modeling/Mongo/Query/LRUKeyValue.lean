import Mathlib
import Mongo.Lib.IterList

/-!
# The plan cache's least-recently-used store

`LRUKeyValue<K, V>` (`db/query/lru_key_value.h`) is the store behind the `PlanCache`: a
`std::list` of key-entry pairs, the most recently used first (`_kvList`), a hash map from each key
to the iterator of its pair (`_kvMap`), and a count of the entries (`_currentSize`).  `add` puts
an entry in front, in place of the key's old one, and evicts the entry at the back when the store
has grown past `_maxSize`; `get` moves the key's pair to the front; `remove` and `clear` drop
entries.

The list is an `IterList` and an iterator is a node's identity (`Mongo.Lib.IterList`).  An entry
is the object a `V*` points at: the model does not follow ownership, the `delete` of a dropped
entry, or null pointers, so `invariant(evictedEntry)` has nothing to check.  A failed `invariant`
is an error of its own.
-/

namespace Mongo

/-- Why a call of the store fails: a `Status` of `NoSuchKey`, with its reason, or an `invariant`
that fails and stops the process. -/
inductive LRUKeyValueError
  | noSuchKey (reason : String)
  | invariantFailure
  deriving DecidableEq, Repr

/-- An `LRUKeyValue`: `_maxSize`, `_currentSize`, `_kvList` and `_kvMap`. -/
structure LRUKeyValue (K V : Type) where
  maxSize : ℕ
  currentSize : ℕ
  kvList : IterList (K × V)
  kvMap : K → Option ℕ

namespace LRUKeyValue

variable {K V : Type} [DecidableEq K]

/-- `LRUKeyValue(maxSize)`. -/
def make (maxSize : ℕ) : LRUKeyValue K V :=
  ⟨maxSize, 0, IterList.empty, fun _ => none⟩

/-- The first part of `add(key, entry)`: the key's old entry deleted, if there is one, and the new
one in front. -/
def addFront (s : LRUKeyValue K V) (key : K) (entry : V) : LRUKeyValue K V :=
  -- If the key already exists, delete it first.
  let s := match s.kvMap key with
    | some found =>
        { s with kvMap := Function.update s.kvMap key none
                 kvList := s.kvList.erase found
                 currentSize := s.currentSize - 1 }
    | none => s
  let kvList := s.kvList.pushFront (key, entry)
  { s with kvList := kvList
           kvMap := Function.update s.kvMap key kvList.begin
           currentSize := s.currentSize + 1 }

/-- `add(key, entry)`: the entry in front, in place of the key's old one, and the least recently
used entry evicted when the store has grown past its size. -/
def add (s : LRUKeyValue K V) (key : K) (entry : V) :
    Except LRUKeyValueError (Option V × LRUKeyValue K V) :=
  let s := s.addFront key entry
  -- If the store has grown beyond its allowed size, evict the least recently used entry.
  if s.currentSize > s.maxSize then
    match s.kvList.back? with
    | some (evictedKey, evictedEntry) =>
        let s := { s with kvMap := Function.update s.kvMap evictedKey none
                          kvList := s.kvList.popBack
                          currentSize := s.currentSize - 1 }
        if s.currentSize = s.maxSize then pure (some evictedEntry, s)
        else throw .invariantFailure
    -- `back()` of the list that has just had a node pushed: not reached
    | none => throw .invariantFailure
  else pure (none, s)

/-- The reason of the `NoSuchKey` that `get` and `remove` return. -/
def noSuchKeyReason : String :=
  "no such key in LRU key-value store"

/-- `get(key, &entryOut)`: the key's entry, its pair promoted to the front of the list. -/
def get (s : LRUKeyValue K V) (key : K) : Except LRUKeyValueError (V × LRUKeyValue K V) :=
  match s.kvMap key with
  | none => throw (.noSuchKey noSuchKeyReason)
  | some found =>
      match s.kvList.get? found with
      | some (_, foundEntry) =>
          -- Promote the kv-store entry to the front of the list.
          let kvList := (s.kvList.erase found).pushFront (key, foundEntry)
          pure (foundEntry, { s with
            kvMap := Function.update (Function.update s.kvMap key none) key kvList.begin
            kvList := kvList })
      -- the map's iterator points at no node: not reached
      | none => throw .invariantFailure

/-- `remove(key)`. -/
def remove (s : LRUKeyValue K V) (key : K) : Except LRUKeyValueError (LRUKeyValue K V) :=
  match s.kvMap key with
  | none => throw (.noSuchKey noSuchKeyReason)
  | some found =>
      pure { s with kvMap := Function.update s.kvMap key none
                    kvList := s.kvList.erase found
                    currentSize := s.currentSize - 1 }

/-- `clear()`. -/
def clear (s : LRUKeyValue K V) : LRUKeyValue K V :=
  { s with kvList := s.kvList.clear, kvMap := fun _ => none, currentSize := 0 }

/-- `hasKey(key)`. -/
def hasKey (s : LRUKeyValue K V) (key : K) : Bool :=
  (s.kvMap key).isSome

/-- `size()`. -/
def size (s : LRUKeyValue K V) : ℕ :=
  s.currentSize

/-- One call of a client of the store, as the plan cache makes them: `add` (the evicted entry
dropped), `get` (the entry read), `remove` or `clear`.  A `get` or a `remove` of a key the store
does not have answers `NoSuchKey` and leaves the store as it was. -/
def apply (s : LRUKeyValue K V) : LRUStore.Op K V → Except LRUKeyValueError (LRUKeyValue K V)
  | .add k v => (s.add k v).map Prod.snd
  | .use k =>
      match s.get k with
      | .ok (_, s') => pure s'
      | .error (.noSuchKey _) => pure s
      | .error e => throw e
  | .remove k =>
      match s.remove k with
      | .ok s' => pure s'
      | .error (.noSuchKey _) => pure s
      | .error e => throw e
  | .clear => pure s.clear

/-- The calls in turn, up to the first `invariant` that fails. -/
def run (s : LRUKeyValue K V) : List (LRUStore.Op K V) → Except LRUKeyValueError (LRUKeyValue K V)
  | [] => pure s
  | op :: ops => do
      let s ← s.apply op
      run s ops

end LRUKeyValue

end Mongo
