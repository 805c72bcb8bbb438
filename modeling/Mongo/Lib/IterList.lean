import Mathlib
import Mongo.Lib.RecencyList

/-!
# Lists with stable iterators, indexed by key

A `std::list` keeps each element in a node of its own.  An iterator points at a node, and it stays
valid while other nodes come and go.  `IterList α` models such a list as its nodes in order, each
with the identity an iterator to it holds, and the identity the next node will get.  The
identities are distinct, a field of the structure.  The operations are those of `std::list`:
`push_front`, `erase(it)`, `back`, `pop_back`, `splice(begin(), list, it)` and `clear`.  An
iterator is `some` identity, and `end()` is `none`.

A cache keeps such a list of key-value entries, with a hash map from each key to the iterator of
its entry.  `Indexes map l` says the map is exact: it sends each key of the list to the node of its
entry and no other key anywhere, and no key is in two nodes.  For each way a cache moves an entry,
the lemmas give the map that keeps the list indexed, and what the entries undergo as a recency
list (`Mongo.Lib.RecencyList`):

* `Indexes.erase` — erasing a key's node, and the key from the map, is `eraseKey`;
* `Indexes.pushFront` — a new node in front for a key the map does not have is `put`;
* `Indexes.popBack` — dropping the last node, and its key from the map, drops the last entry;
* `Indexes.splice` — moving a key's node to the front is `touch`;
* `Indexes.get?_of_map`, `Indexes.lookup_of_map_none`, `Indexes.exists_map_of_lookup`,
  `Indexes.map_of_lookup_none` — what the map finds.
-/

/-- A `std::list`: its nodes in order, each with the identity an iterator to it holds, and the
identity of the next node it allocates. -/
structure IterList (α : Type) where
  nodes : List (ℕ × α)
  fresh : ℕ
  nodup : (nodes.map Prod.fst).Nodup
  lt_fresh : ∀ n ∈ nodes, n.1 < fresh

namespace IterList

variable {α : Type}

/-- An empty list. -/
def empty : IterList α :=
  ⟨[], 0, List.nodup_nil, fun _ h => absurd h List.not_mem_nil⟩

/-- The elements, in order. -/
def values (l : IterList α) : List α :=
  l.nodes.map Prod.snd

/-- `size()`. -/
def size (l : IterList α) : ℕ :=
  l.nodes.length

/-- `begin()`: an iterator to the first node, or `end()`. -/
def begin (l : IterList α) : Option ℕ :=
  l.nodes.head?.map Prod.fst

/-- `*it`: the element of the node `it` points at. -/
def get? (l : IterList α) (it : ℕ) : Option α :=
  l.nodes.lookup it

/-- `push_front(x)`: a new node in front. -/
def pushFront (l : IterList α) (x : α) : IterList α :=
  ⟨(l.fresh, x) :: l.nodes, l.fresh + 1,
    List.nodup_cons.mpr ⟨fun h => by
      obtain ⟨n, hn, hid⟩ := List.mem_map.mp h
      exact absurd (hid ▸ l.lt_fresh n hn) (lt_irrefl _), l.nodup⟩,
    fun n hn => by
      rcases List.mem_cons.mp hn with rfl | hn
      · exact Nat.lt_succ_self _
      · exact Nat.lt_succ_of_lt (l.lt_fresh n hn)⟩

/-- `erase(it)`: the list without the node `it` points at. -/
def erase (l : IterList α) (it : ℕ) : IterList α :=
  ⟨l.nodes.filter (·.1 != it), l.fresh, (List.filter_sublist.map _).nodup l.nodup,
    fun n hn => l.lt_fresh n (List.mem_of_mem_filter hn)⟩

/-- The iterator `erase(it)` returns: to the node after the one `it` points at, or `end()`. -/
def next (l : IterList α) (it : ℕ) : Option ℕ :=
  ((l.nodes.dropWhile (·.1 != it)).drop 1).head?.map Prod.fst

/-- `back()`: the element of the last node. -/
def back? (l : IterList α) : Option α :=
  l.nodes.getLast?.map Prod.snd

/-- `pop_back()`. -/
def popBack (l : IterList α) : IterList α :=
  ⟨l.nodes.dropLast, l.fresh, ((List.dropLast_sublist _).map _).nodup l.nodup,
    fun n hn => l.lt_fresh n ((List.dropLast_sublist _).subset hn)⟩

/-- The nodes with the one `it` points at moved to the front. -/
def spliceNodes (it : ℕ) (nodes : List (ℕ × α)) : List (ℕ × α) :=
  match nodes.find? (·.1 == it) with
  | some n => n :: nodes.filter (·.1 != it)
  | none => nodes

theorem mem_spliceNodes {it : ℕ} {nodes : List (ℕ × α)} {n : ℕ × α} :
    n ∈ spliceNodes it nodes → n ∈ nodes := by
  unfold spliceNodes
  split
  next m hm =>
    intro hn
    rcases List.mem_cons.mp hn with rfl | hn
    · exact List.mem_of_find?_eq_some hm
    · exact List.mem_of_mem_filter hn
  next => exact id

theorem nodup_spliceNodes {it : ℕ} {nodes : List (ℕ × α)} (h : (nodes.map Prod.fst).Nodup) :
    ((spliceNodes it nodes).map Prod.fst).Nodup := by
  unfold spliceNodes
  split
  next m hm =>
    have hid : m.1 = it := by simpa using List.find?_some hm
    refine List.nodup_cons.mpr ⟨?_, (List.filter_sublist.map _).nodup h⟩
    rw [hid]
    simp
  next => exact h

/-- `splice(begin(), *this, it)`: the node `it` points at moved to the front. -/
def splice (l : IterList α) (it : ℕ) : IterList α :=
  ⟨spliceNodes it l.nodes, l.fresh, nodup_spliceNodes l.nodup,
    fun n hn => l.lt_fresh n (mem_spliceNodes hn)⟩

/-- `clear()`. -/
def clear (l : IterList α) : IterList α :=
  ⟨[], l.fresh, List.nodup_nil, fun _ h => absurd h List.not_mem_nil⟩

@[simp] theorem values_pushFront (l : IterList α) (x : α) :
    (l.pushFront x).values = x :: l.values :=
  rfl

@[simp] theorem begin_pushFront (l : IterList α) (x : α) : (l.pushFront x).begin = some l.fresh :=
  rfl

@[simp] theorem size_pushFront (l : IterList α) (x : α) : (l.pushFront x).size = l.size + 1 :=
  rfl

@[simp] theorem fresh_erase (l : IterList α) (it : ℕ) : (l.erase it).fresh = l.fresh :=
  rfl

@[simp] theorem values_popBack (l : IterList α) : l.popBack.values = l.values.dropLast := by
  simp [popBack, values, List.map_dropLast]

@[simp] theorem values_clear (l : IterList α) : l.clear.values = [] :=
  rfl

theorem size_eq_length_values (l : IterList α) : l.size = l.values.length := by
  simp [size, values]

theorem back?_eq (l : IterList α) : l.back? = l.values.getLast? := by
  simp [back?, values, List.getLast?_map]

/-- Two nodes with one identity are one node. -/
theorem eq_of_id (l : IterList α) {it : ℕ} {x y : α} (hx : (it, x) ∈ l.nodes)
    (hy : (it, y) ∈ l.nodes) : x = y := by
  have := List.inj_on_of_nodup_map l.nodup hx hy rfl
  simp only [Prod.mk.injEq, true_and] at this
  exact this

@[simp] theorem nodes_pushFront (l : IterList α) (x : α) :
    (l.pushFront x).nodes = (l.fresh, x) :: l.nodes :=
  rfl

/-- An iterator points at the node of that identity. -/
theorem get?_eq_some_iff (l : IterList α) {it : ℕ} {x : α} :
    l.get? it = some x ↔ (it, x) ∈ l.nodes :=
  RecencyList.lookup_eq_some_iff_mem l.nodup

end IterList

namespace IterList

open RecencyList

variable {K V : Type} [DecidableEq K] {map : K → Option ℕ} {l : IterList (K × V)}

/-- `map` indexes the entries of `l` by key: it sends a key to the node that holds the key's
entry, and no key is held by two nodes. -/
structure Indexes (map : K → Option ℕ) (l : IterList (K × V)) : Prop where
  nodup_keys : (l.values.map Prod.fst).Nodup
  map_eq_some : ∀ k it, map k = some it ↔ ∃ v, (it, (k, v)) ∈ l.nodes

omit [DecidableEq K] in
theorem Indexes.empty : Indexes (fun _ => none) (IterList.empty : IterList (K × V)) :=
  ⟨List.nodup_nil, fun _ _ => by simp [IterList.empty]⟩

omit [DecidableEq K] in
theorem Indexes.clear (l : IterList (K × V)) : Indexes (fun _ => none) l.clear :=
  ⟨List.nodup_nil, fun _ _ => by simp [IterList.clear]⟩

section Indexed

variable (h : Indexes map l)
include h

omit [DecidableEq K] in
/-- Two nodes with one key are one node. -/
theorem Indexes.eq_of_key {it it' : ℕ} {k : K} {v v' : V} (hn : (it, (k, v)) ∈ l.nodes)
    (hn' : (it', (k, v')) ∈ l.nodes) : it = it' ∧ v = v' := by
  have hnodup : (l.nodes.map fun n => n.2.1).Nodup := by
    have := h.nodup_keys
    rwa [values, List.map_map] at this
  have := List.inj_on_of_nodup_map hnodup hn hn' rfl
  simp only [Prod.mk.injEq] at this
  exact ⟨this.1, this.2.2⟩

/-- The entries have the values of the nodes the map finds. -/
theorem Indexes.lookup_eq_some_iff {k : K} {v : V} :
    l.values.lookup k = some v ↔ ∃ it, (it, (k, v)) ∈ l.nodes := by
  rw [lookup_eq_some_iff_mem h.nodup_keys, values, List.mem_map]
  constructor
  · rintro ⟨n, hn, hnv⟩
    exact ⟨n.1, by rw [← hnv]; exact hn⟩
  · rintro ⟨it, hn⟩
    exact ⟨_, hn, rfl⟩

/-- **What the map finds**: the node of the key's entry, with its value. -/
theorem Indexes.get?_of_map {k : K} {it : ℕ} (hk : map k = some it) :
    ∃ v, l.get? it = some (k, v) ∧ l.values.lookup k = some v := by
  obtain ⟨v, hn⟩ := (h.map_eq_some k it).mp hk
  exact ⟨v, l.get?_eq_some_iff.mpr hn, h.lookup_eq_some_iff.mpr ⟨it, hn⟩⟩

/-- A key the map does not have has no entry. -/
theorem Indexes.lookup_of_map_none {k : K} (hk : map k = none) : l.values.lookup k = none := by
  cases hl : l.values.lookup k with
  | none => rfl
  | some v =>
      obtain ⟨it, hn⟩ := h.lookup_eq_some_iff.mp hl
      have := (h.map_eq_some k it).mpr ⟨v, hn⟩
      rw [hk] at this
      cases this

/-- A key with an entry is in the map. -/
theorem Indexes.exists_map_of_lookup {k : K} (hl : l.values.lookup k ≠ none) :
    ∃ it, map k = some it := by
  cases hk : map k with
  | some it => exact ⟨it, rfl⟩
  | none => exact absurd (h.lookup_of_map_none hk) hl

/-- A key with no entry is not in the map. -/
theorem Indexes.map_of_lookup_none {k : K} (hl : l.values.lookup k = none) : map k = none := by
  cases hk : map k with
  | none => rfl
  | some it =>
      obtain ⟨v, -, hv⟩ := h.get?_of_map hk
      rw [hl] at hv
      cases hv

omit [DecidableEq K] in
/-- The node an iterator points at is the one the map has for its key. -/
theorem Indexes.map_of_get? {it : ℕ} {k : K} {v : V} (hit : l.get? it = some (k, v)) :
    map k = some it :=
  (h.map_eq_some k it).mpr ⟨v, l.get?_eq_some_iff.mp hit⟩

/-- The nodes other than the one the map has for `k` are those of the other keys. -/
theorem Indexes.filter_id_eq {k : K} {it : ℕ} (hk : map k = some it) :
    l.nodes.filter (·.1 != it) = l.nodes.filter (·.2.1 != k) := by
  obtain ⟨v, hn⟩ := (h.map_eq_some k it).mp hk
  refine List.filter_congr fun n hmem => ?_
  have hiff : n.1 = it ↔ n.2.1 = k := by
    constructor
    · intro hid
      have hmem' : (it, n.2) ∈ l.nodes := hid ▸ hmem
      rw [l.eq_of_id hmem' hn]
    · intro hkey
      have hmem' : (n.1, (k, n.2.2)) ∈ l.nodes := hkey ▸ hmem
      exact (h.eq_of_key hmem' hn).1
  have hbeq : (n.1 == it) = (n.2.1 == k) := by
    rw [Bool.eq_iff_iff, beq_iff_eq, beq_iff_eq]
    exact hiff
  simp only [bne, hbeq]

/-- **Erasing a key's node**, and the key from the map, takes its entry out. -/
theorem Indexes.erase {k : K} {it : ℕ} (hk : map k = some it) :
    Indexes (Function.update map k none) (l.erase it) ∧
      (l.erase it).values = eraseKey k l.values := by
  have hnodes : (l.erase it).nodes = l.nodes.filter (·.2.1 != k) := h.filter_id_eq hk
  have hvalues : (l.erase it).values = eraseKey k l.values := by
    rw [values, hnodes, eraseKey, values, List.filter_map]
    rfl
  refine ⟨⟨hvalues ▸ nodup_eraseKey h.nodup_keys, fun j it' => ?_⟩, hvalues⟩
  rw [hnodes]
  by_cases hjk : j = k
  · subst hjk
    simp
  · simp [h.map_eq_some, hjk]

/-- **A new node in front** for a key the map does not have puts its entry in front. -/
theorem Indexes.pushFront {k : K} (hk : map k = none) (v : V) :
    Indexes (Function.update map k (some l.fresh)) (l.pushFront (k, v)) ∧
      (l.pushFront (k, v)).values = put k v l.values := by
  have hnot : k ∉ l.values.map Prod.fst := by
    intro hmem
    obtain ⟨e, he, hek⟩ := List.mem_map.mp hmem
    obtain ⟨n, hn, rfl⟩ := List.mem_map.mp he
    have := (h.map_eq_some k n.1).mpr ⟨n.2.2, by rw [← hek]; exact hn⟩
    rw [hk] at this
    cases this
  have hvalues : (l.pushFront (k, v)).values = put k v l.values := by
    rw [values_pushFront, put, eraseKey_of_not_mem hnot]
  refine ⟨⟨?_, fun j it' => ?_⟩, hvalues⟩
  · rw [values_pushFront, List.map_cons]
    exact List.nodup_cons.mpr ⟨hnot, h.nodup_keys⟩
  · by_cases hjk : j = k
    · subst hjk
      have hnone : ∀ v', (it', (j, v')) ∉ l.nodes := fun v' hn => by
        have := (h.map_eq_some j it').mpr ⟨v', hn⟩
        rw [hk] at this
        cases this
      simp only [Function.update_self, Option.some.injEq, nodes_pushFront, List.mem_cons,
        Prod.mk.injEq]
      constructor
      · rintro rfl
        exact ⟨v, Or.inl ⟨rfl, trivial, rfl⟩⟩
      · rintro ⟨v', ⟨rfl, -⟩ | hn⟩
        · rfl
        · exact absurd hn (hnone v')
    · simp [h.map_eq_some, hjk]

/-- **Dropping the last node**, and its key from the map, drops the last entry. -/
theorem Indexes.popBack {k : K} {v : V} (hback : l.back? = some (k, v)) :
    Indexes (Function.update map k none) l.popBack := by
  obtain ⟨it, hlast⟩ : ∃ it, l.nodes.getLast? = some (it, (k, v)) := by
    rw [back?, Option.map_eq_some_iff] at hback
    obtain ⟨n, hn, hnv⟩ := hback
    exact ⟨n.1, by rw [hn, ← hnv]⟩
  obtain ⟨front, hnodes⟩ := List.getLast?_eq_some_iff.mp hlast
  have hfront : l.popBack.nodes = front := by
    simp [IterList.popBack, hnodes]
  refine ⟨by rw [values_popBack]; exact ((List.dropLast_sublist _).map _).nodup h.nodup_keys,
    fun j it' => ?_⟩
  rw [hfront]
  by_cases hjk : j = k
  · subst hjk
    simp only [Function.update_self, reduceCtorEq, false_iff, not_exists]
    intro v' hn
    have hn' : (it', (j, v')) ∈ l.nodes := hnodes ▸ List.mem_append_left _ hn
    have hlast' : (it, (j, v)) ∈ l.nodes := hnodes ▸ List.mem_append_right _ List.mem_cons_self
    obtain ⟨rfl, rfl⟩ := h.eq_of_key hn' hlast'
    have hnd := l.nodup
    rw [hnodes, List.map_append, List.nodup_append] at hnd
    exact hnd.2.2 _ (List.mem_map_of_mem hn) _ List.mem_cons_self rfl
  · rw [Function.update_of_ne hjk, h.map_eq_some, hnodes]
    simp [hjk]

/-- **Moving a key's node to the front** moves its entry to the front, and the map still finds
it. -/
theorem Indexes.splice {k : K} {it : ℕ} (hk : map k = some it) :
    Indexes map (l.splice it) ∧ (l.splice it).values = touch k l.values := by
  obtain ⟨v, hget, hlookup⟩ := h.get?_of_map hk
  have hn : (it, (k, v)) ∈ l.nodes := l.get?_eq_some_iff.mp hget
  have hfind : l.nodes.find? (·.1 == it) = some (it, (k, v)) := by
    obtain ⟨n, hfound⟩ : ∃ n, l.nodes.find? (·.1 == it) = some n :=
      Option.isSome_iff_exists.mp (List.find?_isSome.mpr ⟨_, hn, by simp⟩)
    have hid : n.1 = it := by simpa using List.find?_some hfound
    have hmem : (it, n.2) ∈ l.nodes := hid ▸ List.mem_of_find?_eq_some hfound
    rw [hfound, show n = (it, (k, v)) from Prod.ext hid (l.eq_of_id hmem hn)]
  have hnodes : (l.splice it).nodes = (it, (k, v)) :: l.nodes.filter (·.2.1 != k) := by
    simp only [IterList.splice, spliceNodes, hfind, h.filter_id_eq hk]
  have hvalues : (l.splice it).values = touch k l.values := by
    rw [values, hnodes, touch_of_lookup hlookup, put, eraseKey, values, List.filter_map]
    rfl
  refine ⟨⟨hvalues ▸ nodup_touch h.nodup_keys, fun j it' => ?_⟩, hvalues⟩
  rw [h.map_eq_some, hnodes]
  by_cases hjk : j = k
  · subst hjk
    simp only [List.mem_cons, Prod.mk.injEq, List.mem_filter, bne_self_eq_false,
      Bool.false_eq_true, and_false, or_false]
    constructor
    · rintro ⟨v', hn'⟩
      obtain ⟨rfl, rfl⟩ := h.eq_of_key hn' hn
      exact ⟨v', rfl, trivial, rfl⟩
    · rintro ⟨v', rfl, -, rfl⟩
      exact ⟨v', hn⟩
  · simp [hjk]

end Indexed

end IterList
