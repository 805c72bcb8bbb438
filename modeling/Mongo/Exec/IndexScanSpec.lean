import Mathlib
import Mongo.Lib.DirLex
import Mongo.Query.IndexBoundsCheckerSpec
import Mongo.Exec.IndexScan

/-!
# An index scan returns exactly the entries in its bounds

The stage jumps over the index: each `MUST_ADVANCE` of the checker makes the cursor seek, past
every entry between.  `run_eq_scanOutput` proves that it returns what reading every entry
would: the entries of the index whose keys lie in the bounds, in the order of the cursor, through
the dedup and the filter (`scanOutput`), for every index sorted by its key pattern, every
direction and every bounds valid for the key pattern that are not a single interval; it takes at
most one call of `doWork` per entry and one more.  With `maxScan` it returns a prefix of
that.

* Cursor: a seek lands past every entry before the query and on no later one
  (`beforeBound_of_lt_seekPosition`, `lt_seekPosition_of_beforeBound`); this needs the entries
  sorted along the scan (`KeysSorted`), which a backward cursor keeps (`keysSorted_scanOrder`).
* Expected output: `returnedUpTo n`, what the dedup and the filter let through of the entries in
  the bounds among the first `n`, grows by what one more entry gives
  (`returnedUpTo_succ_of_matches`).
* Step: `ScanAt n s` says the scan has dealt with the first `n` entries and reads next at or
  after `n`, with nothing in the bounds before that.  One call of `doWork` either ends the scan,
  every entry in the bounds behind it unless `maxScan` stopped it, or deals with more entries and
  returns what they add (`doWork_spec`).  Each `MUST_ADVANCE` lands past the key it answers for
  (`KeyStateAdvances`), which is what makes the scan move on.
* Run: by induction on the fuel, from `ScanAt` (`run_spec`).
-/

namespace Mongo

open DirLex

variable {V R : Type}

/-! ## The cursor -/

section Cursor

variable [LinearOrder V]

/-- Entries sorted along directions `ds`: no entry's key comes after a later one's. -/
def KeysSorted (ds : List ℤ) (entries : List (IndexKeyEntry V R)) : Prop :=
  entries.Pairwise fun a b => LexLt ds a.key b.key ∨ a.key = b.key

instance (ds : List ℤ) (entries : List (IndexKeyEntry V R)) : Decidable (KeysSorted ds entries) :=
  inferInstanceAs (Decidable (entries.Pairwise _))

theorem KeysSorted.le_of_le {ds : List ℤ} {entries : List (IndexKeyEntry V R)}
    (h : KeysSorted ds entries) {i j : ℕ} (hij : i ≤ j) (hj : j < entries.length) :
    LexLt ds entries[i].key entries[j].key ∨ entries[i].key = entries[j].key := by
  rcases Nat.lt_or_eq_of_le hij with hlt | rfl
  · exact List.pairwise_iff_getElem.mp h i j (by omega) hj hlt
  · exact Or.inr rfl

namespace IndexCursor

variable {c : IndexCursor V R}

theorem entryAt_of_endPosition (h : c.endPosition = none) (i : ℕ) : c.entryAt i = c.entries[i]? := by
  unfold entryAt
  split <;> simp_all

/-- Every entry a seek lands past is before the query. -/
theorem beforeBound_of_lt_seekPosition {query : List (V × Bool)} {i : ℕ}
    (h : i < c.seekPosition query) (hi : i < c.entries.length) :
    BeforeBound c.directions c.entries[i].key query := by
  have := List.not_of_lt_findIdx h
  simpa using this

/-- **A seek lands past every entry before the query**, when the entries are sorted. -/
theorem lt_seekPosition_of_beforeBound (hs : KeysSorted c.directions c.entries)
    {query : List (V × Bool)} {j : ℕ} (hj : j < c.entries.length)
    (hb : BeforeBound c.directions c.entries[j].key query) : j < c.seekPosition query := by
  by_contra hle
  have hlt : c.seekPosition query < c.entries.length := by omega
  have hnot := List.findIdx_getElem (w := hlt)
  simp only [Bool.not_eq_eq_eq_not, Bool.not_true, decide_eq_false_iff_not] at hnot
  rcases hs.le_of_le (Nat.le_of_not_lt hle) hj with hlex | heq
  · exact hnot (hb.of_lexLt hlex)
  · exact hnot (heq ▸ hb)

end IndexCursor

end Cursor

/-! ## Reading an index forwards and backwards -/

/-- The index's entries in the order the stage's cursor reads them. -/
def IndexScan.scanOrder (p : IndexScanParams V) (index : List (IndexKeyEntry V R)) :
    List (IndexKeyEntry V R) :=
  if p.direction == 1 then index else index.reverse

/-- The direction of each key field along the scan, as the stage's cursor reads it. -/
def IndexScanParams.scanDirections (p : IndexScanParams V) : List ℤ :=
  expectedDirections (p.keyPattern.map Prod.snd) (if p.direction == 1 then 1 else -1)

section Order

variable {p : IndexScanParams V} {index : List (IndexKeyEntry V R)}

@[simp] theorem newCursor_entries : (IndexScan.newCursor p index).entries = IndexScan.scanOrder p index :=
  rfl

@[simp] theorem newCursor_directions :
    (IndexScan.newCursor p index).directions = p.scanDirections :=
  rfl

@[simp] theorem newCursor_endPosition : (IndexScan.newCursor p index).endPosition = none :=
  rfl

@[simp] theorem mem_scanOrder {entry : IndexKeyEntry V R} :
    entry ∈ IndexScan.scanOrder p index ↔ entry ∈ index := by
  unfold IndexScan.scanOrder
  split <;> simp

@[simp] theorem length_scanOrder : (IndexScan.scanOrder p index).length = index.length := by
  unfold IndexScan.scanOrder
  split <;> simp

/-- For a direction of `1` or `-1`, the cursor and the checker read the fields the same way. -/
theorem scanDirections_eq (hd : p.direction = 1 ∨ p.direction = -1) :
    p.scanDirections = expectedDirections (p.keyPattern.map Prod.snd) p.direction := by
  rcases hd with hd | hd <;> simp [IndexScanParams.scanDirections, hd]

/-- Reading the fields against the scan direction reads each field the other way. -/
theorem expectedDirections_neg_one (keyPattern : List ℤ) :
    expectedDirections keyPattern (-1) = (expectedDirections keyPattern 1).map (- ·) := by
  simp [expectedDirections]

/-- **A cursor reads an index sorted by its key pattern in order**, forwards or backwards. -/
theorem keysSorted_scanOrder [LinearOrder V]
    (hsorted : KeysSorted (expectedDirections (p.keyPattern.map Prod.snd) 1) index) :
    KeysSorted p.scanDirections (IndexScan.scanOrder p index) := by
  unfold IndexScan.scanOrder IndexScanParams.scanDirections
  by_cases hd : p.direction == 1
  · simpa [hd] using hsorted
  · simp only [KeysSorted, hd, Bool.false_eq_true, if_false, expectedDirections_neg_one, lexLt_map_neg,
      List.pairwise_reverse]
    refine hsorted.imp fun h => ?_
    rcases h with h | h
    · exact Or.inl h
    · exact Or.inr h.symm

end Order

/-! ## What the scan should return -/

section Output

variable [DecidableEq R]

/-- The entries with a `RecordId` neither in `seen` nor on an earlier entry: the first entry of
each document. -/
def firstOfEachLoc (seen : List R) : List (IndexKeyEntry V R) → List (IndexKeyEntry V R)
  | [] => []
  | entry :: entries =>
      if entry.loc ∈ seen then firstOfEachLoc seen entries
      else entry :: firstOfEachLoc (entry.loc :: seen) entries

theorem firstOfEachLoc_append_singleton (entry : IndexKeyEntry V R) :
    ∀ (seen : List R) (entries : List (IndexKeyEntry V R)),
      firstOfEachLoc seen (entries ++ [entry]) = firstOfEachLoc seen entries ++
        if entry.loc ∈ seen ∨ ∃ e ∈ entries, e.loc = entry.loc then [] else [entry]
  | seen, [] => by
      by_cases h : entry.loc ∈ seen <;> simp [firstOfEachLoc, h]
  | seen, e :: entries => by
      by_cases he : e.loc ∈ seen
      · have hiff : (entry.loc ∈ seen ∨ ∃ e' ∈ e :: entries, e'.loc = entry.loc) ↔
            (entry.loc ∈ seen ∨ ∃ e' ∈ entries, e'.loc = entry.loc) := by
          constructor
          · rintro (h | ⟨e', he', hloc⟩)
            · exact Or.inl h
            · rcases List.mem_cons.mp he' with rfl | he'
              · exact Or.inl (hloc ▸ he)
              · exact Or.inr ⟨e', he', hloc⟩
          · rintro (h | ⟨e', he', hloc⟩)
            · exact Or.inl h
            · exact Or.inr ⟨e', List.mem_cons_of_mem e he', hloc⟩
        simp only [List.cons_append, firstOfEachLoc, if_pos he, hiff]
        exact firstOfEachLoc_append_singleton entry seen entries
      · have hiff : (entry.loc ∈ e.loc :: seen ∨ ∃ e' ∈ entries, e'.loc = entry.loc) ↔
            (entry.loc ∈ seen ∨ ∃ e' ∈ e :: entries, e'.loc = entry.loc) := by
          simp only [List.mem_cons, exists_eq_or_imp]
          constructor
          · rintro ((h | h) | h)
            · exact Or.inr (Or.inl h.symm)
            · exact Or.inl h
            · exact Or.inr (Or.inr h)
          · rintro (h | h | h)
            · exact Or.inl (Or.inr h)
            · exact Or.inl (Or.inl h.symm)
            · exact Or.inr h
        simp only [List.cons_append, firstOfEachLoc, if_neg he, List.cons_append,
          firstOfEachLoc_append_singleton entry (e.loc :: seen) entries, hiff]

theorem firstOfEachLoc_prefix_append (seen : List R) (entries more : List (IndexKeyEntry V R)) :
    firstOfEachLoc seen entries <+: firstOfEachLoc seen (entries ++ more) := by
  induction entries generalizing seen with
  | nil => exact List.nil_prefix
  | cons e entries ih =>
      by_cases he : e.loc ∈ seen
      · simpa [firstOfEachLoc, he] using ih seen
      · simpa [firstOfEachLoc, he] using ih (e.loc :: seen)

/-- What the dedup and the filter of an index scan let through of the entries in the bounds, in
order. -/
def passThrough (p : IndexScanParams V) (inBounds : List (IndexKeyEntry V R)) :
    List (IndexKeyEntry V R) :=
  (if p.shouldDedup then firstOfEachLoc [] inBounds else inBounds).filter
    fun entry => p.passesFilter entry.key

theorem passThrough_prefix_append (p : IndexScanParams V) (entries more : List (IndexKeyEntry V R)) :
    passThrough p entries <+: passThrough p (entries ++ more) := by
  unfold passThrough
  split
  · exact (firstOfEachLoc_prefix_append [] entries more).filter _
  · exact (List.prefix_append entries more).filter _

/-- One more entry in the bounds adds itself, unless the scan dedups and an earlier entry had its
`RecordId`, or the filter drops it. -/
theorem passThrough_append_singleton (p : IndexScanParams V) (entries : List (IndexKeyEntry V R))
    (entry : IndexKeyEntry V R) :
    passThrough p (entries ++ [entry]) = passThrough p entries ++
      if p.shouldDedup ∧ ∃ e ∈ entries, e.loc = entry.loc then []
      else if p.passesFilter entry.key then [entry] else [] := by
  unfold passThrough
  by_cases hdedup : p.shouldDedup = true
  · by_cases hseen : ∃ e ∈ entries, e.loc = entry.loc
    · simp [hdedup, hseen, firstOfEachLoc_append_singleton]
    · by_cases hpass : p.passesFilter entry.key = true <;>
        simp [hdedup, hseen, hpass, firstOfEachLoc_append_singleton]
  · by_cases hpass : p.passesFilter entry.key = true <;> simp [hdedup, hpass]

end Output

/-! ## Where the scan starts -/

section Start

variable [LinearOrder V] {bounds : IndexBounds V} {ds : List ℤ} {starts : List (V × Bool)}

/-- `start` is the start of the field's first interval, with its inclusivity. -/
def FirstStart (field : OrderedIntervalList V) (start : V × Bool) : Prop :=
  ∃ interval rest, field.intervals = interval :: rest ∧
    start = (interval.start, interval.startInclusive)

omit [LinearOrder V] in
theorem mapM_firstStarts_eq_some :
    ∀ (fields : List (OrderedIntervalList V)) (starts : List (V × Bool)),
      fields.mapM (fun field => field.intervals.head?.map fun interval =>
        (interval.start, interval.startInclusive)) = some starts ↔
      List.Forall₂ FirstStart fields starts
  | [], starts => by
      simp only [List.mapM_nil, List.forall₂_nil_left_iff]
      exact ⟨fun h => (Option.some.inj h).symm, fun h => h ▸ rfl⟩
  | oil :: fields, starts => by
      rw [List.mapM_cons, List.forall₂_cons_left_iff]
      simp only [Option.bind_eq_bind, Option.pure_def, Option.bind_eq_some_iff, Option.some.injEq,
        mapM_firstStarts_eq_some fields, Option.map_eq_some_iff, List.head?_eq_some_iff, FirstStart]
      constructor
      · rintro ⟨start, ⟨interval, ⟨rest, hoil⟩, rfl⟩, starts', hall, rfl⟩
        exact ⟨_, starts', ⟨interval, rest, hoil, rfl⟩, hall, rfl⟩
      · rintro ⟨start, starts', ⟨interval, rest, hoil, rfl⟩, hall, rfl⟩
        exact ⟨_, ⟨interval, ⟨rest, hoil⟩, rfl⟩, starts', hall, rfl⟩

omit [LinearOrder V] in
/-- **`getStartSeekPoint` answers with the starts of every field's first interval**, and only
when every field has one. -/
theorem getStartSeekPoint_eq_some {c : IndexBoundsChecker V} {seekPoint : IndexSeekPoint V} :
    c.getStartSeekPoint = some seekPoint ↔ ∃ starts, List.Forall₂ FirstStart c.bounds.fields starts ∧
      seekPoint = ⟨[], 0, false, starts.map Prod.fst, starts.map Prod.snd⟩ := by
  simp only [IndexBoundsChecker.getStartSeekPoint, Option.bind_eq_bind, Option.bind_eq_some_iff,
    mapM_firstStarts_eq_some, Option.pure_def, Option.some.injEq]
  exact ⟨fun ⟨starts, h, heq⟩ => ⟨starts, h, heq.symm⟩, fun ⟨starts, h, heq⟩ => ⟨starts, h, heq.symm⟩⟩

omit [LinearOrder V] in
theorem exists_firstStarts :
    ∀ fields : List (OrderedIntervalList V), (∀ oil ∈ fields, oil.intervals ≠ []) →
      ∃ starts, List.Forall₂ FirstStart fields starts
  | [], _ => ⟨[], .nil⟩
  | oil :: fields, h => by
      obtain ⟨interval, rest, hoil⟩ := List.exists_cons_of_ne_nil (h oil List.mem_cons_self)
      obtain ⟨starts, hall⟩ := exists_firstStarts fields fun o ho => h o (List.mem_cons_of_mem _ ho)
      exact ⟨_, .cons ⟨interval, rest, hoil, rfl⟩ hall⟩

omit [LinearOrder V] in
theorem Forall₂.intervals_ne_nil {fields : List (OrderedIntervalList V)}
    (h : List.Forall₂ FirstStart fields starts) : ∀ oil ∈ fields, oil.intervals ≠ [] := by
  intro oil hoil
  induction h with
  | nil => cases hoil
  | cons hfirst _ ih =>
      rcases List.mem_cons.mp hoil with rfl | hoil
      · obtain ⟨interval, rest, h, -⟩ := hfirst
        rw [h]
        exact List.cons_ne_nil _ _
      · exact ih hoil

omit [LinearOrder V] in
/-- A cursor points at an interval of every field only when every field has one. -/
theorem CursorOK.intervals_ne_nil {cur : List ℕ} (hc : CursorOK bounds cur) :
    ∀ oil ∈ bounds.fields, oil.intervals ≠ [] := by
  intro oil hoil
  obtain ⟨i, hi, rfl⟩ := List.mem_iff_getElem.mp hoil
  have hci : i < cur.length := by rw [hc.length_eq]; exact hi
  have hlt := hc.lt i _ _ (List.getElem?_eq_getElem hi) (List.getElem?_eq_getElem hci)
  exact List.ne_nil_of_length_pos (by omega)

/-- A key is in no bounds with a field that has no interval. -/
theorem not_inBounds_of_nil {oil : OrderedIntervalList V} (hoil : oil ∈ bounds.fields)
    (hnil : oil.intervals = []) (key : List V) : ¬ InBounds bounds ds key := by
  rintro ⟨hlen, hin⟩
  obtain ⟨i, hi, rfl⟩ := List.mem_iff_getElem.mp hoil
  obtain ⟨oil', d, hoil', -, interval, hmem, -⟩ :=
    hin i key[i] (List.getElem?_eq_getElem (by omega))
  rw [List.getElem?_eq_getElem hi] at hoil'
  cases hoil'
  rw [hnil] at hmem
  cases hmem

/-- **A key before the starts of every field's first interval is in no bounds.** -/
theorem not_inBounds_of_beforeStarts (hb : CheckerBounds bounds ds)
    (hstarts : List.Forall₂ FirstStart bounds.fields starts) {key : List V}
    (hbefore : BeforeBound ds key (querySuffix (starts.map Prod.fst) (starts.map Prod.snd))) :
    ¬ InBounds bounds ds key := by
  intro hin
  obtain ⟨i, hy, hbi, hi⟩ := (beforeBound_of_querySuffix hbefore).exists_before
  obtain ⟨hlen, hall⟩ := List.forall₂_iff_get.mp hstarts
  have hfi : i < bounds.fields.length := by omega
  obtain ⟨interval, rest, hoil, hstart⟩ := hall i hfi hbi
  simp only [List.get_eq_getElem] at hoil hstart
  have hdi : i < ds.length := by rw [hb.length_eq]; exact hfi
  have hd : ds[i]? = some ds[i] := List.getElem?_eq_getElem hdi
  rw [List.getD_eq_getElem _ _ hdi, hstart] at hi
  refine not_inField_of_not_startOK hb (List.getElem?_eq_getElem hfi) hd (m := 0)
    (by rw [hoil]; rfl) (fun m' hm' => absurd hm' (Nat.not_lt_zero _)) (not_startOK_of_before hi)
    (hin.2 i key[i] (List.getElem?_eq_getElem hy))

end Start

/-! ## The entries dealt with so far -/

section Dealt

variable [LinearOrder V] [DecidableEq R] (p : IndexScanParams V) (index : List (IndexKeyEntry V R))

/-- The key lies in the bounds, each field read along the scan. -/
def IndexScanParams.Matches (p : IndexScanParams V) (key : List V) : Prop :=
  InBounds p.bounds p.scanDirections key

/-- No entry in scan order from `n` up to `m` lies in the bounds. -/
def NoneMatch (n m : ℕ) : Prop :=
  ∀ i (hi : i < (IndexScan.scanOrder p index).length), n ≤ i → i < m →
    ¬ p.Matches (IndexScan.scanOrder p index)[i].key

open Classical in
/-- **What an index scan should return**: the entries of the index in the order its cursor reads
them whose keys lie in the bounds, through the dedup and the filter. -/
noncomputable def scanOutput : List (IndexKeyEntry V R) :=
  passThrough p ((IndexScan.scanOrder p index).filter fun entry => decide (p.Matches entry.key))

open Classical in
/-- What the scan should have returned once it has dealt with the first `n` entries in scan
order. -/
noncomputable def returnedUpTo (n : ℕ) : List (IndexKeyEntry V R) :=
  passThrough p
    (((IndexScan.scanOrder p index).take n).filter fun entry => decide (p.Matches entry.key))

theorem returnedUpTo_length :
    returnedUpTo p index (IndexScan.scanOrder p index).length = scanOutput p index := by
  rw [returnedUpTo, List.take_length, scanOutput]

theorem returnedUpTo_zero : returnedUpTo p index 0 = [] := by
  unfold returnedUpTo passThrough
  split <;> rfl

theorem returnedUpTo_prefix_of_le {m n : ℕ} (h : m ≤ n) :
    returnedUpTo p index m <+: returnedUpTo p index n := by
  obtain ⟨more, hmore⟩ := (List.take_prefix_take_left (l := IndexScan.scanOrder p index) h).filter
    (fun entry => @decide (p.Matches entry.key) (Classical.propDecidable _))
  unfold returnedUpTo
  rw [← hmore]
  exact passThrough_prefix_append p _ more

variable {p index}

omit [DecidableEq R] in
open Classical in
theorem filter_take_eq_of_noneMatch {n : ℕ} :
    ∀ {m : ℕ}, n ≤ m → NoneMatch p index n m →
      ((IndexScan.scanOrder p index).take m).filter (fun entry => decide (p.Matches entry.key)) =
        ((IndexScan.scanOrder p index).take n).filter fun entry => decide (p.Matches entry.key)
  | 0, hnm, _ => by rw [Nat.le_zero.mp hnm]
  | m + 1, hnm, hnone => by
      rcases Nat.lt_or_eq_of_le hnm with hlt | rfl
      · rw [List.take_add_one, List.filter_append,
          filter_take_eq_of_noneMatch (by omega) fun i hi hni him => hnone i hi hni (by omega)]
        rcases Nat.lt_or_ge m (IndexScan.scanOrder p index).length with hm | hm
        · rw [List.getElem?_eq_getElem hm, Option.toList_some, List.filter_singleton,
            decide_eq_false (hnone m hm (by omega) (by omega)), cond_false, List.append_nil]
        · rw [List.getElem?_eq_none hm, Option.toList_none, List.filter_nil, List.append_nil]
      · rfl

/-- What the scan should return grows with no entry out of the bounds. -/
theorem returnedUpTo_eq_of_noneMatch {n m : ℕ} (hnm : n ≤ m) (hnone : NoneMatch p index n m) :
    returnedUpTo p index m = returnedUpTo p index n := by
  unfold returnedUpTo
  rw [filter_take_eq_of_noneMatch hnm hnone]

omit [DecidableEq R] in
/-- The entries in the bounds among the first `F + 1`, past none from `n` to `F`: those among the
first `n`, and the entry at `F` if it is in the bounds. -/
theorem exists_mem_take_succ_iff {n F : ℕ} (hnF : n ≤ F) (hF : F < (IndexScan.scanOrder p index).length)
    (hnone : NoneMatch p index n F) (P : IndexKeyEntry V R → Prop) :
    (∃ e ∈ (IndexScan.scanOrder p index).take (F + 1), p.Matches e.key ∧ P e) ↔
      (∃ e ∈ (IndexScan.scanOrder p index).take n, p.Matches e.key ∧ P e) ∨
        (p.Matches (IndexScan.scanOrder p index)[F].key ∧ P (IndexScan.scanOrder p index)[F]) := by
  rw [List.take_add_one, List.getElem?_eq_getElem hF, Option.toList_some]
  constructor
  · rintro ⟨e, he, hme, hP⟩
    rcases List.mem_append.mp he with he | he
    · obtain ⟨i, hi, rfl⟩ := List.mem_take_iff_getElem.mp he
      have hin : i < n := by
        by_contra hni
        exact hnone i (by omega) (by omega) (by omega) hme
      exact Or.inl ⟨_, List.mem_take_iff_getElem.mpr ⟨i, by omega, rfl⟩, hme, hP⟩
    · rw [List.mem_singleton] at he
      subst he
      exact Or.inr ⟨hme, hP⟩
  · rintro (⟨e, he, hme, hP⟩ | ⟨hme, hP⟩)
    · exact ⟨e, List.mem_append_left _ ((List.take_prefix_take_left hnF).subset he), hme, hP⟩
    · exact ⟨_, List.mem_append_right _ (List.mem_singleton_self _), hme, hP⟩

open Classical in
/-- **One more entry in the bounds** adds itself to what the scan returns, unless the scan
dedups and an earlier entry in the bounds had its `RecordId`, or the filter drops it. -/
theorem returnedUpTo_succ_of_matches {n F : ℕ} (hnF : n ≤ F)
    (hF : F < (IndexScan.scanOrder p index).length) (hnone : NoneMatch p index n F)
    (hm : p.Matches (IndexScan.scanOrder p index)[F].key) :
    returnedUpTo p index (F + 1) = returnedUpTo p index n ++
      if p.shouldDedup ∧ ∃ e ∈ (IndexScan.scanOrder p index).take n,
          p.Matches e.key ∧ e.loc = (IndexScan.scanOrder p index)[F].loc then []
      else if p.passesFilter (IndexScan.scanOrder p index)[F].key then
        [(IndexScan.scanOrder p index)[F]]
      else [] := by
  classical
  unfold returnedUpTo
  rw [List.take_add_one, List.getElem?_eq_getElem hF, Option.toList_some, List.filter_append,
    filter_take_eq_of_noneMatch hnF hnone, List.filter_singleton, decide_eq_true hm, cond_true,
    passThrough_append_singleton]
  simp only [List.mem_filter, decide_eq_true_eq, and_assoc]

end Dealt

/-! ## One call of `doWork` -/

section Step

variable [LinearOrder V] [DecidableEq R] (p : IndexScanParams V)
  (index : List (IndexKeyEntry V R))

/-- What an index scan on the checker's path keeps while it walks the index, once it has dealt
with the first `n` entries in scan order: a checker over the bounds whose cursor points at an
interval of every field; the stage's cursor on the entries, with no end; the dedup flag of the
parameters; and, when it dedups, the `RecordId`s of the entries in the bounds among the first
`n` as the ones returned. -/
structure Walking (n : ℕ) (s : IndexScan V R) : Prop where
  checker : ∃ cur, s.checker = some ⟨p.bounds, cur, p.scanDirections⟩ ∧ CursorOK p.bounds cur
  entries : s.cursor.entries = IndexScan.scanOrder p index
  directions : s.cursor.directions = p.scanDirections
  endPosition : s.cursor.endPosition = none
  shouldDedup : s.shouldDedup = p.shouldDedup
  returned : ∀ r, r ∈ s.returned ↔ p.shouldDedup = true ∧
    ∃ e ∈ (IndexScan.scanOrder p index).take n, p.Matches e.key ∧ e.loc = r

/-- The scan has dealt with the first `n` entries in scan order, and its next call of `doWork`
reads the entry at `n`, or seeks to a place at or after `n` with no entry in the bounds
between. -/
structure ScanAt (n : ℕ) (s : IndexScan V R) : Prop extends Walking p index n s where
  next : (s.scanState = .gettingNext ∧ s.cursor.position + 1 = n) ∨
    (s.scanState = .needSeek ∧ ∃ query, s.seekPoint.makeQueryObject = some query ∧
      n ≤ (IndexScan.newCursor p index).seekPosition query ∧
      NoneMatch p index n ((IndexScan.newCursor p index).seekPosition query))

/-- The entries a call of `doWork` returns. -/
def StageState.entries : StageState V R → List (IndexKeyEntry V R)
  | .advanced entry => [entry]
  | .needTime | .isEOF => []

omit [LinearOrder V] [DecidableEq R] in
@[simp] theorem StageState.entries_needTime : (StageState.needTime : StageState V R).entries = [] :=
  rfl

/-- What one call of `doWork` does from a scan that has dealt with the first `n` entries: it ends
the scan, with no entry in the bounds left unless `maxScan` stopped it; or it deals with more
entries and returns what they add to the scan's output. -/
def StepResult (n : ℕ) (state : StageState V R) (s : IndexScan V R) : Prop :=
  (state = .isEOF ∧ s.scanState = .hitEnd ∧
      (p.maxScan = 0 → NoneMatch p index n (IndexScan.scanOrder p index).length)) ∨
    ∃ n', n < n' ∧ n' ≤ (IndexScan.scanOrder p index).length ∧ state ≠ .isEOF ∧
      ScanAt p index n' s ∧ returnedUpTo p index n' = returnedUpTo p index n ++ state.entries

variable {p index}

/-- **An entry in the bounds is dealt with**: the dedup and the filter return what it adds to the
scan's output. -/
theorem returnEntry_spec {n F : ℕ} {s : IndexScan V R} (hw : Walking p index n s)
    (hpos : s.cursor.position = F) (hnF : n ≤ F) (hF : F < (IndexScan.scanOrder p index).length)
    (hnone : NoneMatch p index n F) (hm : p.Matches (IndexScan.scanOrder p index)[F].key) :
    StepResult p index n (s.returnEntry p (IndexScan.scanOrder p index)[F]).1
      (s.returnEntry p (IndexScan.scanOrder p index)[F]).2 := by
  classical
  set entry := (IndexScan.scanOrder p index)[F] with hentry
  have hseen : (s.shouldDedup && decide (entry.loc ∈ s.returned)) = true ↔
      p.shouldDedup = true ∧ ∃ e ∈ (IndexScan.scanOrder p index).take n,
        p.Matches e.key ∧ e.loc = entry.loc := by
    rw [Bool.and_eq_true, decide_eq_true_iff, hw.returned, hw.shouldDedup]
    exact ⟨fun ⟨h, _, h'⟩ => ⟨h, h'⟩, fun ⟨h, h'⟩ => ⟨h, h, h'⟩⟩
  have hreturned : ∀ r, (∃ e ∈ (IndexScan.scanOrder p index).take (F + 1),
      p.Matches e.key ∧ e.loc = r) ↔
      (∃ e ∈ (IndexScan.scanOrder p index).take n, p.Matches e.key ∧ e.loc = r) ∨
        entry.loc = r := by
    intro r
    rw [exists_mem_take_succ_iff hnF hF hnone]
    simp [hm, entry]
  have hgrow := returnedUpTo_succ_of_matches hnF hF hnone hm
  refine Or.inr ⟨F + 1, by omega, hF, ?_⟩
  dsimp only [IndexScan.returnEntry]
  by_cases hdup : (s.shouldDedup && decide (entry.loc ∈ s.returned)) = true
  · rw [if_pos hdup]
    dsimp only
    refine ⟨nofun, ⟨⟨hw.checker, hw.entries, hw.directions, hw.endPosition, hw.shouldDedup,
      fun r => ?_⟩, Or.inl ⟨rfl, by rw [hpos]⟩⟩, ?_⟩
    · rw [hw.returned, hreturned]
      constructor
      · rintro ⟨hd, h⟩
        exact ⟨hd, Or.inl h⟩
      · rintro ⟨hd, h | rfl⟩
        · exact ⟨hd, h⟩
        · exact ⟨hd, (hseen.mp hdup).2⟩
    · rw [hgrow, if_pos (hseen.mp hdup)]
      rfl
  · rw [if_neg hdup]
    have hnew : ¬ (p.shouldDedup = true ∧ ∃ e ∈ (IndexScan.scanOrder p index).take n,
        p.Matches e.key ∧ e.loc = entry.loc) := fun h => hdup (hseen.mpr h)
    obtain ⟨s', hs', hscan⟩ : ∃ s', (if s.shouldDedup = true then
          { s with scanState := .gettingNext, returned := entry.loc :: s.returned }
        else { s with scanState := .gettingNext }) = s' ∧ ScanAt p index (F + 1) s' := by
      refine ⟨_, rfl, ?_⟩
      split
      next h =>
        have hd : p.shouldDedup = true := hw.shouldDedup ▸ h
        refine ⟨⟨hw.checker, hw.entries, hw.directions, hw.endPosition, hw.shouldDedup,
          fun r => ?_⟩, Or.inl ⟨rfl, by rw [hpos]⟩⟩
        rw [List.mem_cons, hw.returned, hreturned]
        simp only [hd, true_and]
        constructor
        · rintro (rfl | h)
          · exact Or.inr rfl
          · exact Or.inl h
        · rintro (h | rfl)
          · exact Or.inr h
          · exact Or.inl rfl
      next h =>
        have hd : ¬ p.shouldDedup = true := hw.shouldDedup ▸ h
        refine ⟨⟨hw.checker, hw.entries, hw.directions, hw.endPosition, hw.shouldDedup,
          fun r => ?_⟩, Or.inl ⟨rfl, by rw [hpos]⟩⟩
        rw [hw.returned, hreturned]
        simp only [hd, Bool.false_eq_true, false_and]
    rw [hs']
    have hgrow' := hgrow
    rw [if_neg hnew] at hgrow'
    by_cases hpass : p.passesFilter entry.key = true
    · rw [if_pos hpass] at hgrow' ⊢
      exact ⟨nofun, hscan, hgrow'⟩
    · rw [if_neg hpass] at hgrow' ⊢
      exact ⟨nofun, hscan, hgrow'⟩

omit [DecidableEq R] in
/-- A walking scan stays so whatever it does to its state, its position or its seek point, as long
as it keeps its checker, its cursor's entries and end, its dedup flag and what it returned. -/
theorem Walking.frame {n : ℕ} {s s' : IndexScan V R} (hw : Walking p index n s)
    (hchecker : s'.checker = s.checker) (hentries : s'.cursor.entries = s.cursor.entries)
    (hdirections : s'.cursor.directions = s.cursor.directions)
    (hend : s'.cursor.endPosition = s.cursor.endPosition) (hdedup : s'.shouldDedup = s.shouldDedup)
    (hreturned : s'.returned = s.returned) : Walking p index n s' := by
  refine ⟨?_, ?_, ?_, ?_, ?_, fun r => ?_⟩
  · rw [hchecker]
    exact hw.checker
  · rw [hentries]
    exact hw.entries
  · rw [hdirections]
    exact hw.directions
  · rw [hend]
    exact hw.endPosition
  · rw [hdedup]
    exact hw.shouldDedup
  · rw [hreturned]
    exact hw.returned r

omit [DecidableEq R] in
/-- The cursor of a walking scan reads the index's entries, with no end. -/
theorem Walking.entryAt {n : ℕ} {s : IndexScan V R} (hw : Walking p index n s) (i : ℕ) :
    s.cursor.entryAt i = (IndexScan.scanOrder p index)[i]? := by
  rw [IndexCursor.entryAt_of_endPosition hw.endPosition, hw.entries]

omit [DecidableEq R] in
/-- A walking scan's cursor seeks where a new cursor would. -/
theorem Walking.seekPosition {n : ℕ} {s : IndexScan V R} (hw : Walking p index n s)
    (query : List (V × Bool)) :
    s.cursor.seekPosition query = (IndexScan.newCursor p index).seekPosition query := by
  unfold IndexCursor.seekPosition
  rw [hw.entries, hw.directions]
  rfl

omit [DecidableEq R] in
/-- An entry out of the bounds is dealt with without a trace. -/
theorem Walking.succ_of_not_matches {n F : ℕ} {s : IndexScan V R} (hw : Walking p index n s)
    (hnF : n ≤ F) (hF : F < (IndexScan.scanOrder p index).length) (hnone : NoneMatch p index n F)
    (hm : ¬ p.Matches (IndexScan.scanOrder p index)[F].key) : Walking p index (F + 1) s := by
  refine ⟨hw.checker, hw.entries, hw.directions, hw.endPosition, hw.shouldDedup, fun r => ?_⟩
  rw [hw.returned, exists_mem_take_succ_iff hnF hF hnone]
  simp [hm]

omit [DecidableEq R] in
theorem NoneMatch.succ {n F : ℕ} (hnone : NoneMatch p index n F)
    (hm : ∀ hF : F < (IndexScan.scanOrder p index).length,
      ¬ p.Matches (IndexScan.scanOrder p index)[F].key) : NoneMatch p index n (F + 1) := by
  intro i hi hni hiF
  rcases Nat.lt_or_eq_of_le (Nat.le_of_lt_succ hiF) with hlt | rfl
  · exact hnone i hi hni hlt
  · exact hm hi

/-- **The rest of `doWork`**, once the cursor of a scan that has dealt with the first `n` entries
has moved to `F`, past none in the bounds: the scan ends, or deals with the entry at `F`. -/
theorem examine_spec (hb : CheckerBounds p.bounds p.scanDirections)
    (hkeys : ∀ e ∈ IndexScan.scanOrder p index, e.key.length = p.bounds.fields.length)
    (hsorted : KeysSorted p.scanDirections (IndexScan.scanOrder p index))
    {n F : ℕ} {s : IndexScan V R} (hw : Walking p index n s) (hpos : s.cursor.position = F)
    (hnF : n ≤ F) (hnone : NoneMatch p index n F) :
    ∃ state s', s.examine p (IndexScan.scanOrder p index)[F]? = .ok (state, s') ∧
      StepResult p index n state s' := by
  rcases Nat.lt_or_ge F (IndexScan.scanOrder p index).length with hF | hF
  · rw [List.getElem?_eq_getElem hF]
    dsimp only [IndexScan.examine]
    split_ifs with hmax
    · exact ⟨_, _, rfl, Or.inl ⟨rfl, rfl, fun h => absurd h hmax.1⟩⟩
    obtain ⟨cur, hchecker, hcur⟩ := hw.checker
    obtain ⟨state, cur', hcheck, hcur', hsound, hadv⟩ :=
      checkKey_sound hb hcur (hkeys _ (List.getElem_mem hF))
    simp only [hchecker, hcheck, Except.ok_bind]
    have hw' : Walking p index n { s with
        keysExamined := s.keysExamined + 1
        checker := some ⟨p.bounds, cur', p.scanDirections⟩ } :=
      ⟨⟨cur', rfl, hcur'⟩, hw.entries, hw.directions, hw.endPosition, hw.shouldDedup, hw.returned⟩
    cases state with
    | valid => exact ⟨_, _, rfl, returnEntry_spec hw' hpos hnF hF hnone hsound⟩
    | done =>
        refine ⟨_, _, rfl, Or.inl ⟨rfl, rfl, fun _ i hi hni _ => ?_⟩⟩
        rcases Nat.lt_or_ge i F with hiF | hiF
        · exact hnone i hi hni hiF
        · rcases hsorted.le_of_le hiF hi with hlt | heq
          · exact hsound.2 _ hlt
          · rw [← heq]
            exact hsound.1
    | mustAdvance seekPoint =>
        obtain ⟨hout, query, hquery, hskip⟩ := hsound
        have hpast : F < (IndexScan.newCursor p index).seekPosition query :=
          IndexCursor.lt_seekPosition_of_beforeBound (c := IndexScan.newCursor p index) hsorted hF
            (hadv query hquery)
        have hnone' : NoneMatch p index n (F + 1) := hnone.succ fun _ => hout
        refine ⟨_, _, rfl, Or.inr ⟨F + 1, by omega, hF, nofun,
          ⟨(hw'.succ_of_not_matches hnF hF hnone hout).frame rfl rfl rfl rfl rfl rfl,
            Or.inr ⟨rfl, query, hquery, hpast, ?_⟩⟩,
          by rw [returnedUpTo_eq_of_noneMatch (by omega) hnone', StageState.entries_needTime,
            List.append_nil]⟩⟩
        intro i hi hFi hilt
        have hbefore := IndexCursor.beforeBound_of_lt_seekPosition (c := IndexScan.newCursor p index)
          hilt hi
        rcases hsorted.le_of_le (Nat.le_of_succ_le hFi) hi with hlt | heq
        · exact hskip _ hlt hbefore
        · rw [← heq]
          exact hout
  · rw [List.getElem?_eq_none hF]
    exact ⟨_, _, rfl, Or.inl ⟨rfl, rfl, fun _ i hi hni _ => hnone i hi hni (by omega)⟩⟩

end Step

/-! ## Runs of `doWork` -/

section Work

variable [LinearOrder V] [BoundedOrder V] [DecidableEq R] {p : IndexScanParams V}
  {index : List (IndexKeyEntry V R)}

/-- **One call of `doWork`** from a scan that has dealt with the first `n` entries ends the scan
or deals with more of them. -/
theorem doWork_spec (hb : CheckerBounds p.bounds p.scanDirections)
    (hkeys : ∀ e ∈ IndexScan.scanOrder p index, e.key.length = p.bounds.fields.length)
    (hsorted : KeysSorted p.scanDirections (IndexScan.scanOrder p index))
    {n : ℕ} {s : IndexScan V R} (h : ScanAt p index n s) :
    ∃ state s', s.doWork p index = .ok (state, s') ∧ StepResult p index n state s' := by
  have hw := h.toWalking
  rcases h.next with ⟨hstate, hpos⟩ | ⟨hstate, query, hquery, hn, hnone⟩
  · have hkv : s.cursor.entryAt (s.cursor.position + 1) = (IndexScan.scanOrder p index)[n]? := by
      rw [hw.entryAt, hpos]
    simp only [IndexScan.doWork, hstate, IndexCursor.next, hkv]
    exact examine_spec hb hkeys hsorted (hw.frame rfl rfl rfl rfl rfl rfl) hpos le_rfl
      fun i _ hni hin => absurd hin (by omega)
  · simp only [IndexScan.doWork, hstate, IndexCursor.seekTo, hquery, IndexCursor.seek,
      hw.seekPosition, hw.entryAt]
    exact examine_spec hb hkeys hsorted (hw.frame rfl rfl rfl rfl rfl rfl) rfl hn hnone

omit [BoundedOrder V] [DecidableEq R] in
theorem length_fields_of_isValidFor (hv : p.bounds.isValidFor p.keyPattern p.direction = true) :
    p.bounds.fields.length = p.keyPattern.length := by
  unfold IndexBounds.isValidFor at hv
  rw [Bool.and_eq_true, beq_iff_eq] at hv
  exact hv.1

omit [BoundedOrder V] [DecidableEq R] in
theorem key_length_of_isValidFor (hv : p.bounds.isValidFor p.keyPattern p.direction = true)
    (hkeys : ∀ e ∈ index, e.key.length = p.keyPattern.length) :
    ∀ e ∈ IndexScan.scanOrder p index, e.key.length = p.bounds.fields.length := by
  intro e he
  rw [length_fields_of_isValidFor hv]
  exact hkeys e (mem_scanOrder.mp he)

/-- **One call of `doWork`** from a scan walking an index sorted by the key pattern, with bounds
valid for it: the checker's cursor points at an interval of every field, so the bounds meet the
checker's conditions. -/
theorem doWork_spec_of_isValidFor (hd : p.direction = 1 ∨ p.direction = -1)
    (hv : p.bounds.isValidFor p.keyPattern p.direction = true) (hne : p.keyPattern ≠ [])
    (hkeys : ∀ e ∈ index, e.key.length = p.keyPattern.length)
    (hsorted : KeysSorted (expectedDirections (p.keyPattern.map Prod.snd) 1) index)
    {n : ℕ} {s : IndexScan V R} (h : ScanAt p index n s) :
    ∃ state s', s.doWork p index = .ok (state, s') ∧ StepResult p index n state s' := by
  obtain ⟨cur, -, hc⟩ := h.checker
  have hb : CheckerBounds p.bounds p.scanDirections := by
    rw [scanDirections_eq hd]
    exact checkerBounds_of_isValidFor hd hv hne hc.intervals_ne_nil
  exact doWork_spec hb (key_length_of_isValidFor hv hkeys) (keysSorted_scanOrder hsorted) h

/-- **The first call of `doWork`** opens the scan at the starts of the fields' first intervals, or
ends it at once when a field has none; either way it passes no entry in the bounds. -/
theorem doWork_make_spec (hd : p.direction = 1 ∨ p.direction = -1)
    (hv : p.bounds.isValidFor p.keyPattern p.direction = true) (hne : p.keyPattern ≠ [])
    (hsingle : isSingleInterval p.bounds = none)
    (hkeys : ∀ e ∈ index, e.key.length = p.keyPattern.length)
    (hsorted : KeysSorted (expectedDirections (p.keyPattern.map Prod.snd) 1) index) :
    ∃ state s', (IndexScan.make p index).doWork p index = .ok (state, s') ∧
      StepResult p index 0 state s' := by
  simp only [IndexScan.doWork, IndexScan.make, IndexScan.initIndexScan, hsingle]
  cases hsp : (IndexBoundsChecker.make p.bounds (p.keyPattern.map Prod.snd)
      p.direction).getStartSeekPoint with
  | none =>
      obtain ⟨oil, hoil, hnil⟩ : ∃ oil ∈ p.bounds.fields, oil.intervals = [] := by
        by_contra hall
        push Not at hall
        obtain ⟨starts, hstarts⟩ := exists_firstStarts _ hall
        have := (getStartSeekPoint_eq_some
          (c := IndexBoundsChecker.make p.bounds (p.keyPattern.map Prod.snd) p.direction)).mpr
          ⟨starts, hstarts, rfl⟩
        rw [hsp] at this
        cases this
      exact ⟨_, _, rfl, Or.inl ⟨rfl, rfl, fun _ i _ _ _ => not_inBounds_of_nil hoil hnil _⟩⟩
  | some seekPoint =>
      obtain ⟨starts, hstarts, rfl⟩ := (getStartSeekPoint_eq_some
        (c := IndexBoundsChecker.make p.bounds (p.keyPattern.map Prod.snd) p.direction)).mp hsp
      have hb : CheckerBounds p.bounds p.scanDirections := by
        rw [scanDirections_eq hd]
        exact checkerBounds_of_isValidFor hd hv hne (Forall₂.intervals_ne_nil hstarts)
      have hquery : IndexSeekPoint.makeQueryObject
          ⟨([] : List V), 0, false, starts.map Prod.fst, starts.map Prod.snd⟩ =
            some (querySuffix (starts.map Prod.fst) (starts.map Prod.snd)) := by
        rw [makeQueryObject_inclusive (Nat.zero_le _) (by simp)]
        rfl
      simp only [IndexCursor.seekTo, hquery, IndexCursor.seek,
        IndexCursor.entryAt_of_endPosition newCursor_endPosition, newCursor_entries]
      refine examine_spec hb (key_length_of_isValidFor hv hkeys) (keysSorted_scanOrder hsorted)
        ⟨⟨_, by rw [scanDirections_eq hd]; rfl, cursorOK_replicate (Forall₂.intervals_ne_nil hstarts)⟩,
          rfl, rfl, rfl, rfl, fun r => by simp⟩ rfl (Nat.zero_le _) ?_
      intro i hi _ hiF
      exact not_inBounds_of_beforeStarts hb hstarts
        (IndexCursor.beforeBound_of_lt_seekPosition (c := IndexScan.newCursor p index) hiF hi)

variable (p index) in
/-- What a run of the scan that has dealt with the first `n` entries returns from then on: the rest
of the scan's output, or with `maxScan` a part of it, after which the scan is at its end. -/
def RunResult (n : ℕ) (out : List (IndexKeyEntry V R)) (s : IndexScan V R) : Prop :=
  s.scanState = .hitEnd ∧ returnedUpTo p index n ++ out <+: scanOutput p index ∧
    (p.maxScan = 0 → returnedUpTo p index n ++ out = scanOutput p index)

section Run

variable (hstep : ∀ n s, ScanAt p index n s →
  ∃ state s', s.doWork p index = .ok (state, s') ∧ StepResult p index n state s')
include hstep

/-- **A run of `doWork`** from a call that ends the scan or deals with more entries returns, with
one unit of fuel for each entry left and one more, the rest of the scan's output. -/
theorem run_spec :
    ∀ (fuel n : ℕ) (s : IndexScan V R) (state : StageState V R) (s₁ : IndexScan V R),
      s.doWork p index = .ok (state, s₁) → StepResult p index n state s₁ →
      n ≤ (IndexScan.scanOrder p index).length →
      (IndexScan.scanOrder p index).length - n < fuel →
      ∃ out s₂, IndexScan.run p index fuel s = .ok (out, s₂) ∧ RunResult p index n out s₂
  | 0, _, _, _, _, _, _, _, hfuel => absurd hfuel (Nat.not_lt_zero _)
  | fuel + 1, n, s, state, s₁, hdo, hres, hn, hfuel => by
      rcases hres with ⟨rfl, hend, hnone⟩ | ⟨n', hnn', hn'len, hne, hat, hret⟩
      · refine ⟨[], s₁, by simp [IndexScan.run, hdo], hend, ?_, fun h0 => ?_⟩
        · rw [List.append_nil, ← returnedUpTo_length]
          exact returnedUpTo_prefix_of_le p index hn
        · rw [List.append_nil, ← returnedUpTo_length, returnedUpTo_eq_of_noneMatch hn (hnone h0)]
      · obtain ⟨state', s₂, hdo', hres'⟩ := hstep n' s₁ hat
        obtain ⟨out, s₃, hrun, hend, hpre, hmax⟩ :=
          run_spec fuel n' s₁ state' s₂ hdo' hres' hn'len (by omega)
        have hrun' : IndexScan.run p index (fuel + 1) s = .ok (state.entries ++ out, s₃) := by
          cases state with
          | advanced entry => simp [IndexScan.run, hdo, hrun, StageState.entries]
          | needTime => simp [IndexScan.run, hdo, hrun]
          | isEOF => exact absurd rfl hne
        rw [hret, List.append_assoc] at hpre hmax
        exact ⟨_, _, hrun', hend, hpre, hmax⟩

end Run

/-- **An index scan returns exactly the entries of the index in its bounds**, in the order of its
cursor, through the dedup and the filter, for every index sorted by its key pattern and every
bounds valid for the key pattern that are not a single interval; with `maxScan` it returns a
prefix of them.  It ends within one call of `doWork` per entry and one more. -/
theorem run_eq_scanOutput (hd : p.direction = 1 ∨ p.direction = -1)
    (hv : p.bounds.isValidFor p.keyPattern p.direction = true) (hne : p.keyPattern ≠ [])
    (hsingle : isSingleInterval p.bounds = none)
    (hkeys : ∀ e ∈ index, e.key.length = p.keyPattern.length)
    (hsorted : KeysSorted (expectedDirections (p.keyPattern.map Prod.snd) 1) index)
    {fuel : ℕ} (hfuel : index.length < fuel) :
    ∃ out s, IndexScan.run p index fuel (IndexScan.make p index) = .ok (out, s) ∧
      s.scanState = .hitEnd ∧ out <+: scanOutput p index ∧
      (p.maxScan = 0 → out = scanOutput p index) := by
  obtain ⟨state, s, hdo, hres⟩ := doWork_make_spec hd hv hne hsingle hkeys hsorted
  obtain ⟨out, s', hrun, hend, hpre, hmax⟩ :=
    run_spec (fun _ _ h => doWork_spec_of_isValidFor hd hv hne hkeys hsorted h) fuel 0 _ state s
      hdo hres (Nat.zero_le _) (by rw [length_scanOrder]; omega)
  rw [returnedUpTo_zero, List.nil_append] at hpre hmax
  exact ⟨out, s', hrun, hend, hpre, hmax⟩

/-- A backward scan of an index on `{a: 1, b: -1}` for `a` in `[3, 2]` or at `0`, and `b` in
`[1, 3)`; two keys of a multikey document lie in the bounds. -/
def backwardScan : IndexScanParams (Fin 4) :=
  ⟨⟨[⟨[⟨3, true, 2, true⟩, ⟨0, true, 0, true⟩], "a"⟩, ⟨[⟨1, true, 3, false⟩], "b"⟩]⟩,
    [("a", 1), ("b", -1)], -1, 0, false, true, none⟩

/-- The index on `{a: 1, b: -1}`: sorted by `a` upwards, then `b` downwards. -/
def backwardIndex : List (IndexKeyEntry (Fin 4) ℕ) :=
  [⟨[0, 2], 0⟩, ⟨[0, 0], 1⟩, ⟨[1, 2], 2⟩, ⟨[2, 3], 3⟩, ⟨[2, 1], 4⟩, ⟨[3, 2], 4⟩, ⟨[3, 0], 5⟩]

theorem run_eq_scanOutput_backward :
    (backwardScan.direction = 1 ∨ backwardScan.direction = -1) ∧
      backwardScan.bounds.isValidFor backwardScan.keyPattern backwardScan.direction = true ∧
      backwardScan.keyPattern ≠ [] ∧ isSingleInterval backwardScan.bounds = none ∧
      (∀ e ∈ backwardIndex, e.key.length = backwardScan.keyPattern.length) ∧
      KeysSorted (expectedDirections (backwardScan.keyPattern.map Prod.snd) 1) backwardIndex ∧
      backwardIndex.length < 8 ∧
      ∃ out s, IndexScan.run backwardScan backwardIndex 8 (IndexScan.make backwardScan backwardIndex) =
          .ok (out, s) ∧ s.scanState = .hitEnd ∧ out <+: scanOutput backwardScan backwardIndex ∧
        (backwardScan.maxScan = 0 → out = scanOutput backwardScan backwardIndex) := by
  have hd : backwardScan.direction = 1 ∨ backwardScan.direction = -1 := by decide
  have hv : backwardScan.bounds.isValidFor backwardScan.keyPattern backwardScan.direction = true := by
    decide
  have hne : backwardScan.keyPattern ≠ [] := by decide
  have hsingle : isSingleInterval backwardScan.bounds = none := by decide
  have hkeys : ∀ e ∈ backwardIndex, e.key.length = backwardScan.keyPattern.length := by decide
  have hsorted : KeysSorted (expectedDirections (backwardScan.keyPattern.map Prod.snd) 1)
      backwardIndex := by
    decide
  have hfuel : backwardIndex.length < 8 := by decide
  exact ⟨hd, hv, hne, hsingle, hkeys, hsorted, hfuel,
    run_eq_scanOutput hd hv hne hsingle hkeys hsorted hfuel⟩

-- the scan seeks past `[3, 0]`, `[2, 3]` and `[1, 2]`, and drops the second key of document `4`
example : ((IndexScan.run backwardScan backwardIndex 8
    (IndexScan.make backwardScan backwardIndex)).map Prod.fst).toOption =
      some [⟨[3, 2], 4⟩, ⟨[0, 2], 0⟩] := by
  decide +kernel

end Work

end Mongo

