import Mathlib
import Mongo.Lib.RecencyList
import Mongo.Lib.IterList
import Mongo.Lib.Except
import Mongo.Query.LRUKeyValue

/-!
# The plan cache's store is a least-recently-used store

`Refines s t` says the store `s` holds the entries of the least-recently-used store `t`
(`Mongo.Lib.RecencyList`), in the same order, with its map indexing the list and its
`_currentSize` the number of entries.  Each call keeps the relation with the abstract operation
of the same name (`add_spec`, `get_spec`, `remove_spec`, `clear_spec`), so every run of calls
from a new store does (`run_make`): no `invariant` of `add` ever fails, and
`invariant(_currentSize == _maxSize)` after an eviction in particular holds.

From the abstract store's retention theorem, `get_of_fewUsed`: an entry the plan cache adds is
found again, with its value, after any calls that neither replace, remove nor clear it, as long
as they use fewer other keys than the store's size.
-/

namespace Mongo

namespace LRUKeyValue

open RecencyList IterList

variable {K V : Type} [DecidableEq K]

/-- The store holds the entries of `t`, in order, with its map indexing its list and its count
exact. -/
structure Refines (s : LRUKeyValue K V) (t : LRUStore K V) : Prop where
  indexes : Indexes s.kvMap s.kvList
  currentSize_eq : s.currentSize = s.kvList.values.length
  maxSize_eq : s.maxSize = t.capacity
  values_eq : s.kvList.values = t.entries

theorem refines_make (n : ℕ) : Refines (make n : LRUKeyValue K V) (LRUStore.empty n) :=
  ⟨Indexes.empty, rfl, rfl, rfl⟩

variable {s : LRUKeyValue K V} {t : LRUStore K V}

/-- **The first part of `add`** puts the entry in front, in place of the key's old one. -/
theorem addFront_spec (h : Refines s t) (k : K) (v : V) :
    Indexes (s.addFront k v).kvMap (s.addFront k v).kvList ∧
      (s.addFront k v).kvList.values = put k v t.entries ∧
      (s.addFront k v).currentSize = (put k v t.entries).length ∧
      (s.addFront k v).maxSize = t.capacity := by
  unfold addFront
  cases hk : s.kvMap k with
  | some found =>
      obtain ⟨hidx₁, hval₁⟩ := h.indexes.erase hk
      have hk₁ : Function.update s.kvMap k none k = none := Function.update_self _ _ _
      obtain ⟨hidx₂, hval₂⟩ := hidx₁.pushFront hk₁ v
      have hmem : k ∈ s.kvList.values.map Prod.fst := by
        obtain ⟨w, -, hw⟩ := h.indexes.get?_of_map hk
        exact mem_of_lookup_eq_some hw
      have hlen := length_eraseKey h.indexes.nodup_keys hmem
      have hput : put k v (eraseKey k s.kvList.values) = put k v s.kvList.values := by
        simp [put, eraseKey, List.filter_filter]
      dsimp only
      rw [begin_pushFront, Function.update_idem, fresh_erase]
      rw [fresh_erase, Function.update_idem] at hidx₂
      refine ⟨hidx₂, by rw [hval₂, hval₁, hput, h.values_eq], ?_, h.maxSize_eq⟩
      rw [← h.values_eq, put, List.length_cons, h.currentSize_eq]
      omega
  | none =>
      obtain ⟨hidx, hval⟩ := h.indexes.pushFront hk v
      dsimp only
      rw [begin_pushFront]
      refine ⟨hidx, by rw [hval, h.values_eq], ?_, h.maxSize_eq⟩
      rw [← h.values_eq, ← hval, values_pushFront, List.length_cons, h.currentSize_eq]

/-- **`add`** does what the least-recently-used store's `add` does, and returns the entry it
evicts; its `invariant`s hold. -/
theorem add_spec (h : Refines s t) (k : K) (v : V) :
    ∃ s', s.add k v = .ok ((t.evicted k v).map Prod.snd, s') ∧ Refines s' (t.add k v) := by
  obtain ⟨hidx, hval, hsize, hmax⟩ := addFront_spec h k v
  have hle : (put k v t.entries).length ≤ t.capacity + 1 :=
    (length_put_le t.nodup).trans (Nat.add_le_add_right t.length_le 1)
  unfold add
  dsimp only
  split
  next hover =>
    rw [hsize, hmax] at hover
    have hevict : evictOver t.capacity (put k v t.entries) =
        ((put k v t.entries).dropLast, (put k v t.entries).getLast?) := if_pos hover
    obtain ⟨e, he⟩ : ∃ e, (put k v t.entries).getLast? = some e :=
      Option.isSome_iff_exists.mp (List.getLast?_isSome.mpr (List.cons_ne_nil _ _))
    obtain ⟨ek, ev⟩ := e
    have hback : (s.addFront k v).kvList.back? = some (ek, ev) := by
      rw [back?_eq, hval, he]
    have hev : (t.evicted k v).map Prod.snd = some ev := by
      simp [LRUStore.evicted, hevict, he]
    rw [hback, hev]
    dsimp only
    rw [if_pos (by rw [hsize, hmax]; omega)]
    refine ⟨_, rfl, ⟨hidx.popBack hback, ?_, hmax, ?_⟩⟩
    · rw [values_popBack, List.length_dropLast, hval, hsize]
    · rw [values_popBack, hval]
      simp [LRUStore.add, hevict]
  next hle' =>
    rw [hsize, hmax] at hle'
    have hevict := evictOver_of_le (Nat.not_lt.mp hle')
    have hev : (t.evicted k v).map Prod.snd = none := by
      simp [LRUStore.evicted, hevict]
    rw [hev]
    refine ⟨_, rfl, ⟨hidx, by rw [hsize, hval], hmax, ?_⟩⟩
    rw [hval]
    simp [LRUStore.add, hevict]

/-- **`get`** finds the entry of a key the store has and moves it to the front, as the
least-recently-used store's `use` does, and answers `NoSuchKey` for any other key. -/
theorem get_spec (h : Refines s t) (k : K) :
    (∀ v, t.lookup k = some v → ∃ s', s.get k = .ok (v, s') ∧ Refines s' (t.use k)) ∧
      (t.lookup k = none → s.get k = .error (.noSuchKey noSuchKeyReason)) := by
  constructor
  · intro v hv
    rw [LRUStore.lookup, ← h.values_eq] at hv
    obtain ⟨it, hk⟩ := h.indexes.exists_map_of_lookup (by rw [hv]; exact Option.some_ne_none v)
    obtain ⟨w, hget, hw⟩ := h.indexes.get?_of_map hk
    rw [hv] at hw
    cases hw
    obtain ⟨hidx₁, hval₁⟩ := h.indexes.erase hk
    obtain ⟨hidx₂, hval₂⟩ := hidx₁.pushFront (Function.update_self _ _ _) v
    have hmem : k ∈ s.kvList.values.map Prod.fst := mem_of_lookup_eq_some hv
    have hput : put k v (eraseKey k s.kvList.values) = put k v s.kvList.values := by
      simp [put, eraseKey, List.filter_filter]
    simp only [get, hk, hget]
    refine ⟨_, rfl, ⟨?_, ?_, h.maxSize_eq, ?_⟩⟩
    · dsimp only
      rw [begin_pushFront, fresh_erase]
      rw [fresh_erase] at hidx₂
      exact hidx₂
    · rw [hval₂, hval₁, hput, length_put h.indexes.nodup_keys hmem, h.currentSize_eq]
    · rw [hval₂, hval₁, hput, h.values_eq]
      simp only [LRUStore.use]
      rw [touch_of_lookup (h.values_eq ▸ hv)]
  · intro hnone
    rw [LRUStore.lookup, ← h.values_eq] at hnone
    simp only [get, h.indexes.map_of_lookup_none hnone]
    rfl

/-- **`remove`** takes out the entry of a key the store has, and answers `NoSuchKey` for any
other key. -/
theorem remove_spec (h : Refines s t) (k : K) :
    (t.lookup k ≠ none → ∃ s', s.remove k = .ok s' ∧ Refines s' (t.remove k)) ∧
      (t.lookup k = none → s.remove k = .error (.noSuchKey noSuchKeyReason)) := by
  constructor
  · intro hsome
    rw [LRUStore.lookup, ← h.values_eq] at hsome
    obtain ⟨v, hv⟩ := Option.ne_none_iff_exists'.mp hsome
    obtain ⟨it, hk⟩ := h.indexes.exists_map_of_lookup hsome
    obtain ⟨hidx, hval⟩ := h.indexes.erase hk
    have hlen := length_eraseKey h.indexes.nodup_keys (mem_of_lookup_eq_some hv)
    simp only [remove, hk]
    refine ⟨_, rfl, ⟨hidx, ?_, h.maxSize_eq, ?_⟩⟩
    · dsimp only
      rw [hval, h.currentSize_eq]
      omega
    · rw [hval, h.values_eq]
      rfl
  · intro hnone
    rw [LRUStore.lookup, ← h.values_eq] at hnone
    simp only [remove, h.indexes.map_of_lookup_none hnone]
    rfl

theorem clear_spec (h : Refines s t) : Refines s.clear t.clear :=
  ⟨Indexes.clear s.kvList, rfl, h.maxSize_eq, rfl⟩

/-- **One call** keeps the store in step with the least-recently-used store. -/
theorem apply_spec (h : Refines s t) (op : LRUStore.Op K V) :
    ∃ s', s.apply op = .ok s' ∧ Refines s' (t.apply op) := by
  cases op with
  | add k v =>
      obtain ⟨s', hadd, h'⟩ := add_spec h k v
      exact ⟨s', by simp [apply, hadd]; rfl, h'⟩
  | use k =>
      cases hl : t.lookup k with
      | some v =>
          obtain ⟨s', hget, h'⟩ := (get_spec h k).1 v hl
          exact ⟨s', by simp [apply, hget], h'⟩
      | none =>
          have hget := (get_spec h k).2 hl
          refine ⟨s, by simp [apply, hget], ?_⟩
          show Refines s (t.use k)
          rw [LRUStore.use_of_lookup_eq_none hl]
          exact h
  | remove k =>
      cases hl : t.lookup k with
      | some v =>
          obtain ⟨s', hrem, h'⟩ := (remove_spec h k).1 (by rw [hl]; exact Option.some_ne_none v)
          exact ⟨s', by simp [apply, hrem], h'⟩
      | none =>
          have hrem := (remove_spec h k).2 hl
          refine ⟨s, by simp [apply, hrem], ?_⟩
          show Refines s (t.remove k)
          rw [LRUStore.remove_of_lookup_eq_none hl]
          exact h
  | clear => exact ⟨s.clear, rfl, clear_spec h⟩

/-- A run of calls keeps the store in step with the least-recently-used store. -/
theorem run_spec : ∀ (ops : List (LRUStore.Op K V)) (s : LRUKeyValue K V) (t : LRUStore K V),
    Refines s t → ∃ s', s.run ops = .ok s' ∧ Refines s' (t.run ops)
  | [], s, _, h => ⟨s, rfl, h⟩
  | op :: ops, s, t, h => by
      obtain ⟨s₁, happly, h₁⟩ := apply_spec h op
      obtain ⟨s₂, hrun, h₂⟩ := run_spec ops s₁ _ h₁
      refine ⟨s₂, ?_, h₂⟩
      rw [run, happly]
      exact hrun

/-- **Every run of the plan cache's store from a new one** passes every `invariant` of its code,
and it holds what a least-recently-used store of its size holds after the same calls, in the
same order, with its map indexing its list and its count exact. -/
theorem run_make (n : ℕ) (ops : List (LRUStore.Op K V)) :
    ∃ s, (make n : LRUKeyValue K V).run ops = .ok s ∧ Refines s ((LRUStore.empty n).run ops) :=
  run_spec ops _ _ (refines_make n)

/-- **An entry the plan cache adds is found again**, with its value, after any calls that neither
replace, remove nor clear it and use fewer other keys than the store's size. -/
theorem get_of_fewUsed (n : ℕ) (hn : 0 < n) (pre ops : List (LRUStore.Op K V)) (k : K) (v : V)
    (hspare : ∀ op ∈ ops, op.Spares k) (hfew : ((LRUStore.usedKeys ops).erase k).card < n) :
    ∃ s, (make n : LRUKeyValue K V).run (pre ++ .add k v :: ops) = .ok s ∧
      ∃ s', s.get k = .ok (v, s') := by
  obtain ⟨s, hrun, h⟩ := run_make (K := K) (V := V) n (pre ++ .add k v :: ops)
  set t₀ := (LRUStore.empty n : LRUStore K V).run pre
  have hcap : t₀.capacity = n := LRUStore.run_capacity _ _
  obtain ⟨hadd, hahead⟩ := LRUStore.lookup_add_self (k := k) (v := v) (hcap ▸ hn : 0 < t₀.capacity)
  have hkeep := LRUStore.lookup_run_of_fewUsed ops (t₀.add k v) hadd hspare
    (by rw [hahead, List.toFinset_nil, Finset.empty_union]; exact hcap ▸ hfew)
  rw [LRUStore.run_append, LRUStore.run_cons] at h
  obtain ⟨s', hget, -⟩ := (get_spec h k).1 v hkeep
  exact ⟨s, hrun, s', hget⟩

/-- In a store of two entries, the entry of `0` outlives the addition of `1`. -/
theorem get_of_fewUsed_two :
    0 < 2 ∧ (∀ op ∈ [LRUStore.Op.add (1 : ℕ) (10 : ℕ)], op.Spares 0) ∧
      ((LRUStore.usedKeys [LRUStore.Op.add (1 : ℕ) (10 : ℕ)]).erase 0).card < 2 ∧
      ∃ s, (make 2 : LRUKeyValue ℕ ℕ).run ([] ++ .add 0 5 :: [.add 1 10]) = .ok s ∧
        ∃ s', s.get 0 = .ok (5, s') := by
  have hspare : ∀ op ∈ [LRUStore.Op.add (1 : ℕ) (10 : ℕ)], op.Spares 0 := by
    simp [LRUStore.Op.Spares]
  have hfew : ((LRUStore.usedKeys [LRUStore.Op.add (1 : ℕ) (10 : ℕ)]).erase 0).card < 2 := by
    simp [LRUStore.usedKeys, LRUStore.Op.used]
  exact ⟨by decide, hspare, hfew, get_of_fewUsed 2 (by decide) [] _ 0 5 hspare hfew⟩

end LRUKeyValue

end Mongo
