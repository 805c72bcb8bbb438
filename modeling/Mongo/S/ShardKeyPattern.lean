import Mongo.Lib.Except
import Mongo.Lib.Lex
import Mongo.Query.IndexBounds
import Mongo.S.ChunkManager

/-!
# Flattening index bounds into shard key ranges

`ShardKeyPattern::flattenBounds` turns the per-field intervals of a query into a list of
`(min, max)` shard key pairs for `getShardIdsForRange`.  It walks the fields in order.  While every
field so far is a single point it appends that point to the one pair it builds.  The first field
that is not a single point multiplies the pairs, one per interval of the field, under the limit
`kMaxFlattenedInCombinations`.  Every later field is widened to the first interval's start and
the last interval's end.  Keys are lists of field values; the field names the code appends with
play no part in the order and are left out.

The pairs are not the query's key set: they over-approximate it.  What targeting needs is that
they miss nothing, and that holds box by box:

* `expandBuilders_eq` — the multiplying clause is the product of pairs and intervals, or the
  `17439` error when that product is over the limit.
* `flattenBoundsLoop_boxesKey` — the run invariant: a key whose fields lie in the intervals lies
  in the box of some pair.
* `flattenBounds_boxesKey` — hence in the lexicographic range of some pair.
-/

namespace Mongo

open Lex

variable {V : Type} [LinearOrder V]

/-- `ShardKeyPattern::kMaxFlattenedInCombinations`. -/
def kMaxFlattenedInCombinations : ℕ := 4000000

/-- Extend every pair of partial bounds by one field: `start` on the lower bound, `end_` on the
upper. -/
def appendBounds (builders : List (List V × List V)) (start end_ : V) :
    List (List V × List V) :=
  builders.map fun (first, second) => (first ++ [start], second ++ [end_])

/-- The clause for the first field that is not a single point: each pair is copied once per
interval of the field, and the limit is checked before each copy. -/
def expandBuilders (builders : List (List V × List V)) (intervals : List (Interval V)) :
    Except RoutingError (List (List V × List V)) :=
  builders.foldlM (fun newBuilders (first, second) =>
    intervals.foldlM (fun newBuilders interval =>
      if newBuilders.length < kMaxFlattenedInCombinations then
        pure (newBuilders ++ [(first ++ [interval.start], second ++ [interval.end_])])
      else throw .combinatorialLimitExceeded) newBuilders) []

/-- The loop of `flattenBounds` over the fields, with its flag `equalityOnly`.  The fields are
known to have intervals, so `front()` and `back()` exist. -/
def flattenBoundsLoop : Bool → List (List V × List V) →
    (fields : List (OrderedIntervalList V)) → (∀ oil ∈ fields, oil.intervals ≠ []) →
    Except RoutingError (List (List V × List V))
  | _, builders, [], _ => pure builders
  | equalityOnly, builders, oil :: fields, h =>
      have hne : oil.intervals ≠ [] := h oil (List.mem_cons_self ..)
      have hrest : ∀ o ∈ fields, o.intervals ≠ [] := fun o ho => h o (List.mem_cons_of_mem oil ho)
      let front := oil.intervals.head hne
      let back := oil.intervals.getLast hne
      if equalityOnly then
        if oil.intervals.length = 1 ∧ front.isPoint then
          flattenBoundsLoop true (appendBounds builders front.start front.end_) fields hrest
        else do
          let newBuilders ← expandBuilders builders oil.intervals
          flattenBoundsLoop false newBuilders fields hrest
      else flattenBoundsLoop false (appendBounds builders front.start back.end_) fields hrest

/-- `ShardKeyPattern::flattenBounds(indexBounds)`: no pairs when some field has no interval. -/
def flattenBounds (indexBounds : IndexBounds V) : Except RoutingError (List (List V × List V)) :=
  if h : ∀ oil ∈ indexBounds.fields, oil.intervals ≠ [] then
    flattenBoundsLoop true [([], [])] indexBounds.fields h
  else pure []

/-! ## The multiplying clause -/

/-- The pairs the multiplying clause builds: each pair, extended by each interval in turn. -/
def crossBounds (builders : List (List V × List V)) (intervals : List (Interval V)) :
    List (List V × List V) :=
  builders.flatMap fun b => intervals.map fun interval =>
    (b.1 ++ [interval.start], b.2 ++ [interval.end_])

omit [LinearOrder V] in
theorem expandBuilders_eq (builders : List (List V × List V)) (intervals : List (Interval V)) :
    expandBuilders builders intervals =
      if (crossBounds builders intervals).length ≤ kMaxFlattenedInCombinations then
        .ok (crossBounds builders intervals)
      else .error .combinatorialLimitExceeded := by
  have hinner : ∀ (b : List V × List V) (acc : List (List V × List V)),
      acc.length ≤ kMaxFlattenedInCombinations →
      (intervals.foldlM (fun newBuilders interval =>
          if newBuilders.length < kMaxFlattenedInCombinations then
            pure (newBuilders ++ [(b.1 ++ [interval.start], b.2 ++ [interval.end_])])
          else throw RoutingError.combinatorialLimitExceeded) acc :
        Except RoutingError (List (List V × List V))) =
        if acc.length + (crossBounds [b] intervals).length ≤ kMaxFlattenedInCombinations then
          .ok (acc ++ crossBounds [b] intervals)
        else .error .combinatorialLimitExceeded := by
    intro b acc hacc
    rw [Except.foldlM_append_capped kMaxFlattenedInCombinations .combinatorialLimitExceeded
      (fun interval => [(b.1 ++ [interval.start], b.2 ++ [interval.end_])]) _ ?_ intervals acc hacc]
    · simp [crossBounds, List.map_eq_flatMap]
    · intro acc' interval _
      simp only [List.length_singleton, ← Nat.lt_iff_add_one_le]
      rfl
  unfold expandBuilders
  rw [Except.foldlM_append_capped kMaxFlattenedInCombinations .combinatorialLimitExceeded
    (fun b => crossBounds [b] intervals) _ ?_ builders [] (by simp)]
  · simp [crossBounds]
  · rintro acc ⟨first, second⟩ hacc
    exact hinner (first, second) acc hacc

/-! ## Soundness: no key is lost -/

/-- Some pair of `builders` boxes the key `k`. -/
def BoxesKey (builders : List (List V × List V)) (k : List V) : Prop :=
  ∃ b ∈ builders, InBox b.1 b.2 k

theorem BoxesKey.appendBounds {builders : List (List V × List V)} {k : List V}
    (h : BoxesKey builders k) {start end_ x : V} (hs : start ≤ x) (he : x ≤ end_) :
    BoxesKey (Mongo.appendBounds builders start end_) (k ++ [x]) := by
  obtain ⟨⟨first, second⟩, hb, hbox⟩ := h
  exact ⟨(first ++ [start], second ++ [end_]), List.mem_map_of_mem hb, hbox.snoc hs he⟩

theorem BoxesKey.crossBounds {builders : List (List V × List V)} {k : List V}
    (h : BoxesKey builders k) {intervals : List (Interval V)} {interval : Interval V}
    (hi : interval ∈ intervals) {x : V} (hs : interval.start ≤ x) (he : x ≤ interval.end_) :
    BoxesKey (Mongo.crossBounds builders intervals) (k ++ [x]) := by
  obtain ⟨b, hb, hbox⟩ := h
  exact ⟨(b.1 ++ [interval.start], b.2 ++ [interval.end_]),
    List.mem_flatMap_of_mem hb (List.mem_map_of_mem hi), hbox.snoc hs he⟩

/-- The fields of `k` each lie in some interval of their field's list. -/
def KeyWithin (k : List V) (fields : List (OrderedIntervalList V)) : Prop :=
  List.Forall₂ (fun x oil => ∃ interval ∈ oil.intervals, intervalCmp interval x 1 = .within)
    k fields

instance (k : List V) (fields : List (OrderedIntervalList V)) : Decidable (KeyWithin k fields) :=
  inferInstanceAs (Decidable (List.Forall₂ _ k fields))

/-- A key within the fields leaves no field without intervals. -/
theorem KeyWithin.intervals_ne_nil :
    ∀ {k : List V} {fields : List (OrderedIntervalList V)}, KeyWithin k fields →
      ∀ oil ∈ fields, oil.intervals ≠ []
  | [], [], _ => by simp
  | _ :: k, oil :: fields, .cons hx hk => by
      intro o ho
      rcases List.mem_cons.mp ho with rfl | ho
      · obtain ⟨interval, hi, -⟩ := hx
        exact List.ne_nil_of_mem hi
      · exact KeyWithin.intervals_ne_nil hk o ho

/-- **The run invariant of `flattenBounds`.**  If some pair boxes the fields seen so far, then
some resulting pair boxes them together with every later field, in each of the three clauses. -/
theorem flattenBoundsLoop_boxesKey :
    ∀ (fields : List (OrderedIntervalList V)) (h : ∀ oil ∈ fields, oil.intervals ≠ [])
      (equalityOnly : Bool) (builders ranges : List (List V × List V)) (k ks : List V),
      (∀ oil ∈ fields, oil.isValidFor 1 = true) → KeyWithin ks fields → BoxesKey builders k →
      flattenBoundsLoop equalityOnly builders fields h = .ok ranges → BoxesKey ranges (k ++ ks)
  | [], _, _, builders, ranges, k, ks, _, hks, hbox, hrun => by
      cases hks
      simp only [flattenBoundsLoop, Except.pure_eq_ok, Except.ok.injEq] at hrun
      subst hrun
      simpa using hbox
  | oil :: fields, h, equalityOnly, builders, ranges, k, ks, hvalid, hks, hbox, hrun => by
      obtain _ | ⟨hx, hks'⟩ := hks
      rename_i x ks
      have hne : oil.intervals ≠ [] := h oil (List.mem_cons_self ..)
      have hrest := fun o ho => h o (List.mem_cons_of_mem oil ho)
      have hvalid' := fun o ho => hvalid o (List.mem_cons_of_mem oil ho)
      have hfb := OrderedIntervalList.within_front_back (hvalid oil (List.mem_cons_self ..)) hne hx
      rw [show k ++ x :: ks = (k ++ [x]) ++ ks by simp]
      simp only [flattenBoundsLoop] at hrun
      split_ifs at hrun with heq hpoint
      · obtain ⟨hlen, hpt⟩ := hpoint
        have hsingle : oil.intervals = [oil.intervals.head hne] := by
          rw [List.length_eq_one_iff] at hlen
          obtain ⟨a, ha⟩ := hlen
          simp [ha]
        obtain ⟨interval, hi, hwithin⟩ := hx
        rw [hsingle, List.mem_singleton] at hi
        obtain ⟨hs, he⟩ := start_le_of_within hwithin
        rw [hi] at hs he
        exact flattenBoundsLoop_boxesKey fields hrest _ _ ranges _ ks hvalid' hks'
          (hbox.appendBounds hs he) hrun
      · obtain ⟨newBuilders, hexp, hrun⟩ := Except.bind_eq_ok.mp hrun
        rw [expandBuilders_eq] at hexp
        split_ifs at hexp
        cases hexp
        obtain ⟨interval, hi, hwithin⟩ := hx
        obtain ⟨hs, he⟩ := start_le_of_within hwithin
        exact flattenBoundsLoop_boxesKey fields hrest _ _ ranges _ ks hvalid' hks'
          (hbox.crossBounds hi hs he) hrun
      · exact flattenBoundsLoop_boxesKey fields hrest _ _ ranges _ ks hvalid' hks'
          (hbox.appendBounds hfb.1 hfb.2) hrun

/-- **`flattenBounds` loses no key.**  A key whose fields lie in the intervals of bounds valid
for the ascending direction lies in the lexicographic range of some resulting pair. -/
theorem flattenBounds_boxesKey {indexBounds : IndexBounds V}
    (hvalid : ∀ oil ∈ indexBounds.fields, oil.isValidFor 1 = true) {k : List V}
    (hk : KeyWithin k indexBounds.fields) {ranges : List (List V × List V)}
    (hflat : flattenBounds indexBounds = .ok ranges) : ∃ r ∈ ranges, r.1 ≤ k ∧ k ≤ r.2 := by
  have hne := hk.intervals_ne_nil
  rw [flattenBounds, dif_pos hne] at hflat
  obtain ⟨r, hr, hbox⟩ := flattenBoundsLoop_boxesKey indexBounds.fields hne true [([], [])]
    ranges [] k hvalid hk ⟨([], []), List.mem_singleton_self _, inBox_nil⟩ hflat
  exact ⟨r, hr, hbox.lex⟩

end Mongo
