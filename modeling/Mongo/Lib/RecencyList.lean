import Mathlib

/-!
# Recency lists and least-recently-used stores

A *recency list* holds key-value entries with distinct keys, the most recently used first.  Using
a key puts its entry in front (`put`, `touch`).  A store of bounded capacity drops the entry at
the back, the least recently used, when an entry put in front takes it past its capacity
(`evictOver`).  `LRUStore` is such a store, with its two invariants as fields: distinct keys, and
no more entries than the capacity.  Its operations are those a cache offers: add an entry, use a
key, remove a key, clear.

What a least-recently-used store is for, `LRUStore.lookup_run_of_fewUsed`: an entry stays, with
its value, as long as fewer keys than the capacity are used in front of it, whatever else is done
to the store meanwhile, short of replacing, removing or clearing it.  The argument follows the keys
in front of the entry (`ahead`): an operation puts at most the key it uses there
(`LRUStore.apply_spec`), and an entry with fewer keys in front of it than the capacity is not the
last of an overfull list (`evictOver_keeps`).

* `put`, `eraseKey`, `touch`, `evictOver` keep the keys distinct, and `lookup` through them is
  known (`lookup_put_self`, `lookup_put_of_ne`, `lookup_eraseKey_of_ne`, `lookup_touch`);
* `ahead_put_of_ne`, `ahead_eraseKey_of_ne` — how the keys in front of an entry change.
-/

namespace RecencyList

variable {K V : Type} [DecidableEq K]

/-- Every entry but `k`'s. -/
def eraseKey (k : K) (l : List (K × V)) : List (K × V) :=
  l.filter fun e => e.1 != k

/-- `k`'s entry, with value `v`, in front, and no other entry of `k`. -/
def put (k : K) (v : V) (l : List (K × V)) : List (K × V) :=
  (k, v) :: eraseKey k l

/-- `k`'s entry, if there is one, moved to the front. -/
def touch (k : K) (l : List (K × V)) : List (K × V) :=
  match l.lookup k with
  | some v => put k v l
  | none => l

/-- Past `capacity` entries the last one goes: the entries kept, and the one evicted. -/
def evictOver (capacity : ℕ) (l : List (K × V)) : List (K × V) × Option (K × V) :=
  if capacity < l.length then (l.dropLast, l.getLast?) else (l, none)

/-- The keys of the entries in front of `k`'s, used more recently. -/
def ahead (k : K) (l : List (K × V)) : List K :=
  (l.map Prod.fst).takeWhile fun j => j != k

section Lemmas

variable {l : List (K × V)} {j k : K} {v w : V}

@[simp] theorem mem_eraseKey {e : K × V} : e ∈ eraseKey k l ↔ e ∈ l ∧ e.1 ≠ k := by
  simp [eraseKey]

theorem eraseKey_sublist : List.Sublist (eraseKey k l) l :=
  List.filter_sublist

theorem map_fst_eraseKey : (eraseKey k l).map Prod.fst = (l.map Prod.fst).filter (· != k) := by
  rw [eraseKey, List.filter_map]
  rfl

theorem not_mem_eraseKey : k ∉ (eraseKey k l).map Prod.fst := by
  simp [map_fst_eraseKey]

theorem nodup_eraseKey (h : (l.map Prod.fst).Nodup) : ((eraseKey k l).map Prod.fst).Nodup :=
  (eraseKey_sublist.map _).nodup h

theorem nodup_put (h : (l.map Prod.fst).Nodup) : ((put k v l).map Prod.fst).Nodup :=
  List.nodup_cons.mpr ⟨not_mem_eraseKey, nodup_eraseKey h⟩

theorem eraseKey_of_not_mem (hk : k ∉ l.map Prod.fst) : eraseKey k l = l := by
  refine List.filter_eq_self.mpr fun e he => ?_
  have hne : e.1 ≠ k := fun h => hk (h ▸ List.mem_map_of_mem he)
  simpa using hne

/-- Taking out a key there is takes out one entry. -/
theorem length_eraseKey (h : (l.map Prod.fst).Nodup) (hk : k ∈ l.map Prod.fst) :
    (eraseKey k l).length + 1 = l.length := by
  have hlen := congrArg List.length (h.erase_eq_filter k)
  rw [List.length_erase_of_mem hk, ← map_fst_eraseKey, List.length_map, List.length_map] at hlen
  have hpos := List.length_pos_of_mem hk
  rw [List.length_map] at hpos
  omega

theorem lookup_eraseKey_self : (eraseKey k l).lookup k = none := by
  refine List.lookup_eq_none_iff.mpr fun e he => ?_
  rw [mem_eraseKey] at he
  rw [bne_iff_ne]
  exact fun h => he.2 h.symm

theorem lookup_eraseKey_of_ne (hjk : j ≠ k) : (eraseKey k l).lookup j = l.lookup j := by
  induction l with
  | nil => rfl
  | cons e l ih =>
      by_cases hek : e.1 = k
      · have hje : (j == e.1) = false := by simp [hek, hjk]
        have hfilter : eraseKey k (e :: l) = eraseKey k l := by simp [eraseKey, hek]
        rw [hfilter, ih, List.lookup_cons, hje]
      · simp only [eraseKey, List.filter_cons, bne_iff_ne, ne_eq, hek, not_false_eq_true,
          if_true]
        rw [List.lookup_cons, List.lookup_cons, ← ih]
        rfl

@[simp] theorem lookup_put_self : (put k v l).lookup k = some v :=
  List.lookup_cons_self

theorem lookup_put_of_ne (hjk : j ≠ k) : (put k v l).lookup j = l.lookup j := by
  rw [put, List.lookup_cons, beq_eq_false_iff_ne.mpr hjk, lookup_eraseKey_of_ne hjk]

theorem mem_of_lookup_eq_some (h : l.lookup k = some v) : k ∈ l.map Prod.fst := by
  have hsome : (l.lookup k).isSome = true := by rw [h]; rfl
  obtain ⟨e, he, hke⟩ := List.lookup_isSome_iff.mp hsome
  rw [beq_iff_eq] at hke
  exact hke ▸ List.mem_map_of_mem he

/-- In a list with distinct keys, a key's value is the one of its entry. -/
theorem lookup_eq_some_iff_mem (h : (l.map Prod.fst).Nodup) : l.lookup k = some v ↔ (k, v) ∈ l := by
  constructor
  · intro hl
    obtain ⟨l₁, l₂, rfl, -⟩ := List.lookup_eq_some_iff.mp hl
    exact List.mem_append_right _ List.mem_cons_self
  · intro hmem
    induction l with
    | nil => cases hmem
    | cons e l ih =>
        rw [List.map_cons, List.nodup_cons] at h
        rcases List.mem_cons.mp hmem with rfl | hmem
        · exact List.lookup_cons_self
        · have hke : k ≠ e.1 := fun hke => h.1 (hke ▸ List.mem_map_of_mem hmem)
          rw [List.lookup_cons, beq_eq_false_iff_ne.mpr hke]
          exact ih h.2 hmem

theorem length_put (h : (l.map Prod.fst).Nodup) (hk : k ∈ l.map Prod.fst) :
    (put k v l).length = l.length := by
  rw [put, List.length_cons, length_eraseKey h hk]

theorem length_put_le (h : (l.map Prod.fst).Nodup) : (put k v l).length ≤ l.length + 1 := by
  by_cases hk : k ∈ l.map Prod.fst
  · rw [length_put h hk]
    omega
  · rw [put, eraseKey_of_not_mem hk, List.length_cons]

theorem touch_of_lookup (h : l.lookup k = some v) : touch k l = put k v l := by
  simp [touch, h]

theorem nodup_touch (h : (l.map Prod.fst).Nodup) : ((touch k l).map Prod.fst).Nodup := by
  unfold touch
  split
  · exact nodup_put h
  · exact h

theorem length_touch (h : (l.map Prod.fst).Nodup) : (touch k l).length = l.length := by
  unfold touch
  split
  next v hv => exact length_put h (mem_of_lookup_eq_some hv)
  next => rfl

/-- Using a key changes no key's value. -/
theorem lookup_touch : (touch k l).lookup j = l.lookup j := by
  unfold touch
  split
  next v hv =>
    by_cases hjk : j = k
    · rw [hjk, lookup_put_self, hv]
    · exact lookup_put_of_ne hjk
  next => rfl

omit [DecidableEq K] in
theorem evictOver_sublist (capacity : ℕ) : List.Sublist (evictOver capacity l).1 l := by
  unfold evictOver
  split
  · exact List.dropLast_sublist l
  · exact List.Sublist.refl l

omit [DecidableEq K] in
theorem length_evictOver_le {capacity : ℕ} (h : l.length ≤ capacity + 1) :
    (evictOver capacity l).1.length ≤ capacity := by
  unfold evictOver
  split <;> dsimp only
  · rw [List.length_dropLast]
    omega
  · omega

omit [DecidableEq K] in
theorem evictOver_of_le {capacity : ℕ} (h : l.length ≤ capacity) :
    evictOver capacity l = (l, none) :=
  if_neg (Nat.not_lt.mpr h)

/-! ### The keys in front of an entry -/

@[simp] theorem ahead_put_self : ahead k (put k v l) = [] := by
  simp [ahead, put]

theorem ahead_eraseKey_of_ne (hjk : j ≠ k) :
    ahead k (eraseKey j l) = (ahead k l).filter (· != j) := by
  rw [ahead, map_fst_eraseKey, List.takeWhile_filter, ahead]
  congr 2
  funext i
  by_cases hij : i = j
  · simp [hij, hjk]
  · simp [hij]

theorem ahead_put_of_ne (hjk : j ≠ k) :
    ahead k (put j w l) = j :: (ahead k l).filter (· != j) := by
  rw [← ahead_eraseKey_of_ne hjk]
  simp [ahead, put, hjk]

theorem ahead_cons_of_ne {e : K × V} (h : e.1 ≠ k) : ahead k (e :: l) = e.1 :: ahead k l := by
  simp [ahead, h]

theorem nodup_ahead (h : (l.map Prod.fst).Nodup) : (ahead k l).Nodup :=
  (List.takeWhile_prefix _).sublist.nodup h

/-- Fewer keys in front of `k`'s entry than `n`, counted as a set of distinct keys. -/
theorem length_ahead_lt (h : (l.map Prod.fst).Nodup) {A : Finset K} {n : ℕ}
    (hA : (ahead k l).toFinset ⊆ A) (hcard : A.card < n) : (ahead k l).length < n := by
  rw [← List.toFinset_card_of_nodup (nodup_ahead h)]
  exact (Finset.card_le_card hA).trans_lt hcard

/-- The entries of a list with `k`'s: those in front of it, its own, and the rest. -/
theorem eq_append_of_lookup (h : l.lookup k = some v) :
    ∃ front rest, l = front ++ (k, v) :: rest ∧ front.map Prod.fst = ahead k l := by
  induction l with
  | nil => cases h
  | cons e l ih =>
      by_cases hek : e.1 = k
      · rw [List.lookup_cons, show (k == e.1) = true by simp [hek]] at h
        cases h
        refine ⟨[], l, ?_, by simp [ahead, hek]⟩
        rw [← hek]
        rfl
      · rw [List.lookup_cons, show (k == e.1) = false by simp [Ne.symm hek]] at h
        obtain ⟨front, rest, rfl, hfront⟩ := ih h
        refine ⟨e :: front, rest, rfl, ?_⟩
        rw [ahead_cons_of_ne hek, List.map_cons, hfront]

/-- **An entry with fewer keys in front of it than the capacity is not evicted**, and keeps the
keys in front of it. -/
theorem evictOver_keeps {capacity : ℕ} (h : l.lookup k = some v)
    (hlt : (ahead k l).length < capacity) :
    (evictOver capacity l).1.lookup k = some v ∧ ahead k (evictOver capacity l).1 = ahead k l := by
  unfold evictOver
  split
  next hover =>
    obtain ⟨front, rest, rfl, hfront⟩ := eq_append_of_lookup h
    have hrest : rest ≠ [] := by
      rintro rfl
      have := congrArg List.length hfront
      simp only [List.length_map] at this
      simp only [List.length_append, List.length_singleton] at hover
      omega
    have hdrop : (front ++ (k, v) :: rest).dropLast = front ++ (k, v) :: rest.dropLast := by
      rw [List.dropLast_append_of_ne_nil (List.cons_ne_nil _ _),
        List.dropLast_cons_of_ne_nil hrest]
    have hnot : ∀ e ∈ front, e.1 ≠ k := by
      intro e he hek
      have hmem : e.1 ∈ ahead k (front ++ (k, v) :: rest) := hfront ▸ List.mem_map_of_mem he
      have := List.mem_takeWhile_imp hmem
      simp [hek] at this
    have hlookup : ∀ tail : List (K × V), (front ++ (k, v) :: tail).lookup k = some v := by
      intro tail
      rw [List.lookup_append, List.lookup_eq_none_iff.mpr fun e he => by simpa using
        (hnot e he).symm, Option.none_or, List.lookup_cons_self]
    have hahead : ∀ tail : List (K × V), ahead k (front ++ (k, v) :: tail) = front.map Prod.fst := by
      intro tail
      rw [ahead, List.map_append, List.takeWhile_append_of_pos (by simpa using hnot)]
      simp
    rw [hdrop, hlookup, hahead, hahead]
    exact ⟨rfl, rfl⟩
  next => exact ⟨h, rfl⟩

end Lemmas

end RecencyList

open RecencyList

/-- A least-recently-used store: entries with distinct keys, the most recently used first, no
more of them than the capacity. -/
@[ext]
structure LRUStore (K V : Type) [DecidableEq K] where
  capacity : ℕ
  entries : List (K × V)
  nodup : (entries.map Prod.fst).Nodup
  length_le : entries.length ≤ capacity

namespace LRUStore

variable {K V : Type} [DecidableEq K]

/-- The empty store. -/
def empty (capacity : ℕ) : LRUStore K V :=
  ⟨capacity, [], List.nodup_nil, Nat.zero_le _⟩

/-- The value of a key. -/
def lookup (s : LRUStore K V) (k : K) : Option V :=
  s.entries.lookup k

/-- Adds `k` with value `v` as the most recently used entry, in place of `k`'s entry if there is
one, and evicts the least recently used entry if the store is then over its capacity. -/
def add (s : LRUStore K V) (k : K) (v : V) : LRUStore K V :=
  ⟨s.capacity, (evictOver s.capacity (put k v s.entries)).1,
    ((evictOver_sublist _).map _).nodup (nodup_put s.nodup),
    length_evictOver_le ((length_put_le s.nodup).trans (Nat.add_le_add_right s.length_le 1))⟩

/-- The entry `add` evicts. -/
def evicted (s : LRUStore K V) (k : K) (v : V) : Option (K × V) :=
  (evictOver s.capacity (put k v s.entries)).2

/-- Uses `k`: its entry, if there is one, becomes the most recently used. -/
def use (s : LRUStore K V) (k : K) : LRUStore K V :=
  ⟨s.capacity, touch k s.entries, nodup_touch s.nodup, (length_touch s.nodup).trans_le s.length_le⟩

/-- Removes `k`'s entry. -/
def remove (s : LRUStore K V) (k : K) : LRUStore K V :=
  ⟨s.capacity, eraseKey k s.entries, nodup_eraseKey s.nodup,
    eraseKey_sublist.length_le.trans s.length_le⟩

/-- Removes every entry. -/
def clear (s : LRUStore K V) : LRUStore K V :=
  empty s.capacity

/-- A `use` of a key the store does not have leaves it as it is. -/
theorem use_of_lookup_eq_none {s : LRUStore K V} {k : K} (h : s.lookup k = none) :
    s.use k = s := by
  refine LRUStore.ext rfl ?_
  simp only [use, touch]
  rw [show s.entries.lookup k = none from h]

/-- A `remove` of a key the store does not have leaves it as it is. -/
theorem remove_of_lookup_eq_none {s : LRUStore K V} {k : K} (h : s.lookup k = none) :
    s.remove k = s := by
  refine LRUStore.ext rfl ?_
  simp only [remove]
  rw [eraseKey_of_not_mem fun hmem => ?_]
  obtain ⟨e, he, rfl⟩ := List.mem_map.mp hmem
  have hfound := (lookup_eq_some_iff_mem s.nodup).mpr he
  rw [lookup] at h
  rw [h] at hfound
  cases hfound

/-- The operations of a store. -/
inductive Op (K V : Type)
  | add (k : K) (v : V)
  | use (k : K)
  | remove (k : K)
  | clear

/-- One operation. -/
def apply (s : LRUStore K V) : Op K V → LRUStore K V
  | .add k v => s.add k v
  | .use k => s.use k
  | .remove k => s.remove k
  | .clear => s.clear

@[simp] theorem apply_capacity (s : LRUStore K V) (op : Op K V) :
    (s.apply op).capacity = s.capacity := by
  cases op <;> rfl

/-- The operations in turn. -/
def run (s : LRUStore K V) (ops : List (Op K V)) : LRUStore K V :=
  ops.foldl apply s

@[simp] theorem run_nil (s : LRUStore K V) : s.run [] = s :=
  rfl

@[simp] theorem run_cons (s : LRUStore K V) (op : Op K V) (ops : List (Op K V)) :
    s.run (op :: ops) = (s.apply op).run ops :=
  rfl

@[simp] theorem run_capacity :
    ∀ (s : LRUStore K V) (ops : List (Op K V)), (s.run ops).capacity = s.capacity
  | _, [] => rfl
  | s, op :: ops => by rw [run_cons, run_capacity, apply_capacity]

theorem run_append (s : LRUStore K V) (ops ops' : List (Op K V)) :
    s.run (ops ++ ops') = (s.run ops).run ops' :=
  List.foldl_append

/-- The key an operation makes the most recently used. -/
def Op.used : Op K V → Option K
  | .add k _ | .use k => some k
  | .remove _ | .clear => none

/-- An operation that leaves `k`'s entry where it is, unless the store evicts it: it does not
replace, remove or clear it. -/
def Op.Spares (k : K) : Op K V → Prop
  | .add j _ | .remove j => j ≠ k
  | .use _ => True
  | .clear => False

/-- The keys the operations make the most recently used. -/
def usedKeys (ops : List (Op K V)) : Finset K :=
  (ops.filterMap Op.used).toFinset

@[simp] theorem usedKeys_cons (op : Op K V) (ops : List (Op K V)) :
    usedKeys (op :: ops) = op.used.toFinset ∪ usedKeys ops := by
  cases op <;> simp [usedKeys, Op.used, List.filterMap_cons]

section Retention

variable {s : LRUStore K V} {k : K} {v : V}

/-- **One operation that spares `k`'s entry**, with fewer keys in front of it and the key the
operation uses than the capacity, keeps it, with at most that key newly in front of it. -/
theorem apply_spec (hk : s.lookup k = some v) {op : Op K V} (hspare : op.Spares k)
    (hfew : ((ahead k s.entries).toFinset ∪ op.used.toFinset.erase k).card < s.capacity) :
    (s.apply op).lookup k = some v ∧
      (ahead k (s.apply op).entries).toFinset ⊆
        (ahead k s.entries).toFinset ∪ op.used.toFinset.erase k := by
  have hput : ∀ {j : K} {w : V}, j ≠ k →
      (ahead k (put j w s.entries)).toFinset ⊆ (ahead k s.entries).toFinset ∪ {j} := by
    intro j w hjk x hx
    rw [ahead_put_of_ne hjk, List.toFinset_cons, Finset.mem_insert, List.mem_toFinset,
      List.mem_filter] at hx
    rcases hx with rfl | ⟨hx, -⟩
    · exact Finset.mem_union_right _ (Finset.mem_singleton_self _)
    · exact Finset.mem_union_left _ (List.mem_toFinset.mpr hx)
  cases op with
  | add j w =>
      have hjk : j ≠ k := hspare
      have hused : (Op.used (Op.add j w : Op K V)).toFinset.erase k = {j} :=
        Finset.erase_eq_of_notMem (by simp [Op.used, Ne.symm hjk])
      rw [hused] at hfew ⊢
      have hlt : (ahead k (put j w s.entries)).length < s.capacity :=
        length_ahead_lt (nodup_put s.nodup) (hput hjk) hfew
      obtain ⟨hlookup, hahead⟩ := evictOver_keeps
        ((lookup_put_of_ne (Ne.symm hjk)).trans hk) hlt
      refine ⟨hlookup, ?_⟩
      simp only [apply, add]
      rw [hahead]
      exact hput hjk
  | use j =>
      refine ⟨(lookup_touch (k := j)).trans hk, ?_⟩
      simp only [apply, use, touch]
      split
      next w hw =>
        by_cases hjk : j = k
        · subst hjk
          simp
        · have hused : (Op.used (Op.use j : Op K V)).toFinset.erase k = {j} :=
            Finset.erase_eq_of_notMem (by simp [Op.used, Ne.symm hjk])
          rw [hused]
          exact hput hjk
      next => exact Finset.subset_union_left
  | remove j =>
      have hjk : j ≠ k := hspare
      refine ⟨(lookup_eraseKey_of_ne (Ne.symm hjk)).trans hk, ?_⟩
      simp only [apply, remove]
      rw [ahead_eraseKey_of_ne hjk]
      intro x hx
      rw [List.mem_toFinset, List.mem_filter] at hx
      exact Finset.mem_union_left _ (List.mem_toFinset.mpr hx.1)
  | clear => exact absurd hspare id

/-- **What a least-recently-used store is for.**  An entry stays, with its value, through any
operations that neither replace, remove nor clear it, as long as the keys in front of it and the
other keys the operations use are fewer than the capacity. -/
theorem lookup_run_of_fewUsed :
    ∀ (ops : List (Op K V)) (s : LRUStore K V), s.lookup k = some v →
      (∀ op ∈ ops, op.Spares k) →
      ((ahead k s.entries).toFinset ∪ (usedKeys ops).erase k).card < s.capacity →
      (s.run ops).lookup k = some v
  | [], _, hk, _, _ => hk
  | op :: ops, s, hk, hspare, hfew => by
      rw [usedKeys_cons, Finset.erase_union_distrib] at hfew
      have hstep := apply_spec hk (hspare op List.mem_cons_self)
        ((Finset.card_le_card (Finset.union_subset_union_right Finset.subset_union_left)).trans_lt
          hfew)
      refine lookup_run_of_fewUsed ops _ hstep.1 (fun op' hop' => hspare op'
        (List.mem_cons_of_mem _ hop')) ?_
      rw [apply_capacity]
      refine (Finset.card_le_card ?_).trans_lt hfew
      intro x hx
      rcases Finset.mem_union.mp hx with hx | hx
      · rcases Finset.mem_union.mp (hstep.2 hx) with hx | hx
        · exact Finset.mem_union_left _ hx
        · exact Finset.mem_union_right _ (Finset.mem_union_left _ hx)
      · exact Finset.mem_union_right _ (Finset.mem_union_right _ hx)

/-- An entry just added is the most recently used, with nothing in front of it. -/
theorem lookup_add_self (hcap : 0 < s.capacity) : (s.add k v).lookup k = some v ∧
    ahead k (s.add k v).entries = [] := by
  have hlt : (ahead k (put k v s.entries)).length < s.capacity := by
    rw [ahead_put_self]
    exact hcap
  have h := evictOver_keeps (lookup_put_self (k := k) (v := v) (l := s.entries)) hlt
  rw [ahead_put_self] at h
  exact h

end Retention

end LRUStore
