import Mathlib

/-!
# Stable sorting, merging sorted runs, and the first places of a sort

For a total preorder given as a boolean `le` (transitive, and `le a b || le b a`), `mergeSort`
is a stable sort.  This file collects what an external sort needs of it.

**Runs.**  Cutting a list into consecutive segments, sorting each and merging the sorted runs
with ties going to the earlier run gives the stable sort of the whole list
(`mergeAll_map_mergeSort`).  The proof tags each element with its place (`zipIdx`), where the
order is total and the sorted permutation is unique.  A k-way merge that each time takes the
smallest head, earlier runs first among equals, produces `mergeAll`
(`mergeAll_eq_cons_of_min`).

**The first places.**  If every dropped element is preceded by at least `k` kept ones, then the
first `k` places of a sort of what is kept are, up to equivalence, those of a sort of
everything (`getElem_equiv_of_dominated`).  This is what a top-k sort that discards elements
early relies on.
-/

namespace StableSort

open List

variable {α : Type}

/-- `std::stable_sort` under a strict weak order `less`: an element is placed before another
unless it is strictly greater. -/
def stableSort (less : α → α → Bool) (l : List α) : List α :=
  l.mergeSort fun a b => !less b a

variable {le : α → α → Bool}

/-- Merge a list of runs, an earlier run winning ties:
`merge r₀ (merge r₁ (… (merge rₖ [])))`. -/
def mergeAll (le : α → α → Bool) (runs : List (List α)) : List α :=
  runs.foldr (fun run acc => merge run acc le) []

@[simp]
theorem mergeAll_nil : mergeAll le [] = [] := rfl

@[simp]
theorem mergeAll_cons (run : List α) (runs : List (List α)) :
    mergeAll le (run :: runs) = merge run (mergeAll le runs) le := rfl

theorem mergeAll_perm (runs : List (List α)) : mergeAll le runs ~ runs.flatten := by
  induction runs with
  | nil => rfl
  | cons run runs ih =>
      rw [mergeAll_cons, flatten_cons]
      exact (merge_perm_append le).trans (ih.append_left run)

/-- Two tagged elements of one `zipIdx` with the same place are the same. -/
theorem eq_of_mem_zipIdx {l : List α} {k : ℕ} {a b : α × ℕ} (ha : a ∈ l.zipIdx k)
    (hb : b ∈ l.zipIdx k) (h : a.2 = b.2) : a = b := by
  refine Prod.ext ?_ h
  rw [fst_eq_of_mem_zipIdx ha, fst_eq_of_mem_zipIdx hb]
  simp only [h]

/-- Both ways `zipIdxLE` holds only between elements at the same place. -/
theorem snd_eq_of_zipIdxLE {a b : α × ℕ} (hab : zipIdxLE le a b) (hba : zipIdxLE le b a) :
    a.2 = b.2 := by
  simp only [zipIdxLE] at hab hba
  split_ifs at hab hba
  simp only [decide_eq_true_eq] at hab hba
  omega

/-- `mergeSort_zipIdx` from any starting place: sorting the tagged list and forgetting the tags
is sorting the list. -/
theorem mergeSort_zipIdx_from (l : List α) (k : ℕ) :
    (mergeSort (l.zipIdx k) (zipIdxLE le)).map (·.1) = mergeSort l le := by
  have hshift : mergeSort (l.zipIdx k) (zipIdxLE le) =
      (mergeSort l.zipIdx (zipIdxLE le)).map (fun p => (p.1, k + p.2)) := by
    rw [zipIdx_eq_map_add, map_mergeSort]
    intro a _ b _
    simp only [zipIdxLE]
    split_ifs <;> simp
  rw [hshift, map_map]
  exact mergeSort_zipIdx

section Preorder

variable (trans : ∀ a b c, le a b → le b c → le a c) (total : ∀ a b, le a b || le b a)
include trans total

/-- Merging the stable sorts of two consecutive pieces, ties to the first, is the stable sort of
both. -/
theorem merge_mergeSort_mergeSort (xs ys : List α) :
    merge (mergeSort xs le) (mergeSort ys le) le = mergeSort (xs ++ ys) le := by
  set A := mergeSort (xs.zipIdx 0) (zipIdxLE le)
  set B := mergeSort (ys.zipIdx xs.length) (zipIdxLE le)
  have htrans := zipIdxLE_trans trans
  have htotal := zipIdxLE_total total
  have htagged : merge A B (zipIdxLE le) = mergeSort ((xs ++ ys).zipIdx) (zipIdxLE le) := by
    have hperm : merge A B (zipIdxLE le) ~ (xs ++ ys).zipIdx :=
      calc merge A B (zipIdxLE le) ~ A ++ B := merge_perm_append _
        _ ~ xs.zipIdx 0 ++ ys.zipIdx xs.length :=
          (mergeSort_perm _ _).append (mergeSort_perm _ _)
        _ = (xs ++ ys).zipIdx := by rw [zipIdx_append, Nat.zero_add]
    refine @Perm.eq_of_pairwise _ (fun a b => zipIdxLE le a b) _ _ ?_ ?_ ?_ ?_
    · intro a b ha hb hab hba
      exact eq_of_mem_zipIdx (hperm.subset ha) ((mergeSort_perm _ _).subset hb)
        (snd_eq_of_zipIdxLE hab hba)
    · exact pairwise_merge htrans htotal _ _ (pairwise_mergeSort htrans htotal _)
        (pairwise_mergeSort htrans htotal _)
    · exact pairwise_mergeSort htrans htotal _
    · exact hperm.trans (mergeSort_perm _ _).symm
  have hstable := @merge_stable _ le A B (by
    intro x y hx hy
    have hx' := snd_lt_add_of_mem_zipIdx ((mergeSort_perm _ _).subset hx)
    have hy' := le_snd_of_mem_zipIdx ((mergeSort_perm _ _).subset hy)
    omega)
  rw [mergeSort_zipIdx_from, mergeSort_zipIdx_from, htagged, mergeSort_zipIdx] at hstable
  exact hstable.symm

/-- Merging the stable sorts of consecutive segments, ties to the earlier, is the stable sort of
their concatenation. -/
theorem mergeAll_map_mergeSort (segments : List (List α)) :
    mergeAll le (segments.map (mergeSort · le)) = mergeSort segments.flatten le := by
  induction segments with
  | nil => simp
  | cons segment segments ih =>
      rw [map_cons, mergeAll_cons, ih, flatten_cons, merge_mergeSort_mergeSort trans total]

theorem pairwise_mergeAll (runs : List (List α)) (h : ∀ run ∈ runs, run.Pairwise fun a b => le a b) :
    (mergeAll le runs).Pairwise fun a b => le a b := by
  induction runs with
  | nil => exact Pairwise.nil
  | cons run runs ih =>
      rw [mergeAll_cons]
      exact pairwise_merge trans total _ _ (h run mem_cons_self)
        (ih fun r hr => h r (mem_cons_of_mem _ hr))

end Preorder

/-! ### A k-way merge -/

/-- The head of a merge of runs is the head of one of them. -/
theorem exists_of_mergeAll_eq_cons {runs : List (List α)} {a : α} {t : List α}
    (h : mergeAll le runs = a :: t) : ∃ (j : ℕ) (r : List α), runs[j]? = some (a :: r) := by
  induction runs generalizing t with
  | nil => simp at h
  | cons run runs ih =>
      rw [mergeAll_cons] at h
      match run, hm : mergeAll le runs with
      | [], _ =>
          rw [hm, nil_merge] at h
          obtain ⟨j, r, hj⟩ := ih (hm.trans h)
          exact ⟨j + 1, r, by simpa using hj⟩
      | b :: r, [] =>
          rw [hm, merge_right] at h
          obtain ⟨rfl, rfl⟩ := cons.inj h
          exact ⟨0, r, rfl⟩
      | b :: r, c :: u =>
          rw [hm, cons_merge_cons] at h
          split_ifs at h
          · exact ⟨0, r, by simp [(cons.inj h).1]⟩
          · obtain ⟨j, r', hj⟩ := ih (hm.trans (by rw [(cons.inj h).1]))
            exact ⟨j + 1, r', by simpa using hj⟩

/-- One step of a k-way merge: if the run at place `m` has a head that every other head follows,
and that no head of an earlier run equals, the merge starts with it and goes on with that run
advanced. -/
theorem mergeAll_eq_cons_of_min {runs : List (List α)} {m : ℕ} {a : α} {r : List α}
    (hm : runs[m]? = some (a :: r))
    (hmin : ∀ j b u, runs[j]? = some (b :: u) → j ≠ m → le a b ∧ (le b a → m < j)) :
    mergeAll le runs = a :: mergeAll le (runs.set m r) := by
  induction runs generalizing m with
  | nil => simp at hm
  | cons run runs ih =>
      cases m with
      | zero =>
          simp only [getElem?_cons_zero, Option.some.injEq] at hm
          subst hm
          rw [mergeAll_cons, set_cons_zero, mergeAll_cons]
          match hM : mergeAll le runs with
          | [] => simp
          | b :: t =>
              obtain ⟨j, u, hj⟩ := exists_of_mergeAll_eq_cons hM
              have hab := (hmin (j + 1) b u (by simpa using hj) (by omega)).1
              rw [cons_merge_cons, if_pos hab]
      | succ m =>
          have hrest := ih (m := m) (by simpa using hm) (fun j b u hj hjm =>
            by simpa using hmin (j + 1) b u (by simpa using hj) (by omega))
          rw [mergeAll_cons, set_cons_succ, mergeAll_cons, hrest]
          match run, hmin 0 with
          | [], _ => simp
          | b :: u, h0 =>
              have hba : ¬le b a := fun hba => by
                have := (h0 b u rfl (by omega)).2 hba
                omega
              rw [cons_merge_cons, if_neg hba]

theorem mergeAll_eq_nil {runs : List (List α)} (h : ∀ run ∈ runs, run = []) :
    mergeAll le runs = [] := by
  induction runs with
  | nil => rfl
  | cons run runs ih =>
      rw [mergeAll_cons, h run mem_cons_self, nil_merge]
      exact ih fun r hr => h r (mem_cons_of_mem _ hr)

/-! ### The first places of a sort -/

section Rank

variable (trans : ∀ a b c, le a b → le b c → le a c) (total : ∀ a b, le a b || le b a)
include trans total

omit trans in
theorem le_refl' (a : α) : le a a := by
  simpa using total a a

omit trans in
/-- In a sorted list, fewer than `i + 1` elements come strictly before the one at place `i`. -/
theorem countP_lt_getElem_le {u : List α} (hu : u.Pairwise fun a b => le a b) (i : ℕ) (hi : i < u.length) :
    u.countP (fun y => !le u[i] y) ≤ i := by
  have hdrop : (u.drop i).countP (fun y => !le u[i] y) = 0 := by
    rw [countP_eq_zero]
    intro y hy
    obtain ⟨j, hj, rfl⟩ := getElem_of_mem hy
    rw [getElem_drop]
    rcases Nat.eq_zero_or_pos j with rfl | hj0
    · simpa using le_refl' total u[i]
    · simpa using pairwise_iff_getElem.mp hu i (i + j) hi (by simp at hj; omega) (by omega)
  calc u.countP (fun y => !le u[i] y)
      = (u.take i).countP (fun y => !le u[i] y) + (u.drop i).countP (fun y => !le u[i] y) := by
        rw [← countP_append, take_append_drop]
    _ ≤ i := by
        rw [hdrop, Nat.add_zero]
        exact (countP_le_length).trans (length_take_le _ _)

omit trans in
/-- In a sorted list, at least `i + 1` elements come before or at the one at place `i`. -/
theorem le_countP_le_getElem {u : List α} (hu : u.Pairwise fun a b => le a b) (i : ℕ) (hi : i < u.length) :
    i + 1 ≤ u.countP (fun y => le y u[i]) := by
  have htake : (u.take (i + 1)).countP (fun y => le y u[i]) = i + 1 := by
    rw [countP_eq_length.mpr, length_take, min_eq_left (by omega)]
    intro y hy
    obtain ⟨j, hj, rfl⟩ := getElem_of_mem hy
    rw [getElem_take]
    simp only [length_take] at hj
    rcases Nat.lt_or_eq_of_le (Nat.le_of_lt_succ (lt_of_lt_of_le hj (min_le_left _ _))) with
      hji | rfl
    · exact pairwise_iff_getElem.mp hu j i (by omega) hi hji
    · exact le_refl' total _
  calc i + 1 = (u.take (i + 1)).countP (fun y => le y u[i]) := htake.symm
    _ ≤ u.countP (fun y => le y u[i]) := (take_sublist _ _).countP_le

omit trans in
/-- In a sorted list nothing comes after the last element. -/
theorem le_getLast {u : List α} (hu : u.Pairwise fun a b => le a b) (hne : u ≠ []) :
    ∀ e ∈ u, le e (u.getLast hne) := by
  induction u with
  | nil => exact absurd rfl hne
  | cons a u ih =>
      intro e he
      cases u with
      | nil =>
          rw [mem_singleton.mp he]
          exact le_refl' total a
      | cons b u =>
          rw [getLast_cons (cons_ne_nil b u)]
          rcases mem_cons.mp he with rfl | he
          · exact rel_of_pairwise_cons hu (getLast_mem _)
          · exact ih hu.of_cons (cons_ne_nil b u) e he

/-- The first `k` places of a sort survive dropping elements that `k` kept ones precede: at every
place `i < k` of a sort `t` of everything, a sort `s` of what is kept has an element equivalent
to `t[i]`. -/
theorem getElem_equiv_of_dominated {k : ℕ} {xs kept dropped s t : List α}
    (hxs : xs ~ kept ++ dropped)
    (hdom : ∀ x ∈ dropped, k ≤ kept.countP (fun y => le y x))
    (hs : s ~ kept) (hs' : s.Pairwise fun a b => le a b) (ht : t ~ xs)
    (ht' : t.Pairwise fun a b => le a b)
    {i : ℕ} (hik : i < k) (hit : i < t.length) :
    ∃ his : i < s.length, le s[i] t[i] ∧ le t[i] s[i] := by
  have hcount : ∀ p : α → Bool, t.countP p = kept.countP p + dropped.countP p := fun p => by
    rw [(ht.trans hxs).countP_eq, countP_append]
  have hskept : ∀ p : α → Bool, s.countP p = kept.countP p := fun p => hs.countP_eq p
  have hsi : i < s.length := by
    by_contra hsi
    obtain ⟨x, hx⟩ : ∃ x, x ∈ dropped := by
      have hlen : t.length = kept.length + dropped.length := by
        rw [(ht.trans hxs).length_eq, length_append]
      rcases dropped with _ | ⟨x, _⟩
      · rw [hs.length_eq] at hsi
        simp only [length_nil, Nat.add_zero] at hlen
        omega
      · exact ⟨x, mem_cons_self⟩
    have hx' := (hdom x hx).trans countP_le_length
    rw [← hs.length_eq] at hx'
    omega
  refine ⟨hsi, ?_, ?_⟩
  · by_contra hst
    have hkept : kept.countP (fun y => le y t[i]) ≤ i := by
      rw [← hskept]
      refine (countP_mono_left fun y _ hy => ?_).trans (countP_lt_getElem_le total hs' i hsi)
      simpa using fun hsy => hst (trans _ _ _ hsy hy)
    obtain ⟨x, hx, hxt⟩ : ∃ x ∈ dropped, le x t[i] := by
      have h := le_countP_le_getElem total ht' i hit
      rw [hcount] at h
      have hpos : 0 < dropped.countP (fun y => le y t[i]) := by omega
      simpa using countP_pos_iff.mp hpos
    have hx' := (hdom x hx).trans (countP_mono_left fun y _ hy => trans _ _ _ hy hxt)
    omega
  · by_contra hts
    have hs1 : i + 1 ≤ s.countP (fun y => !le t[i] y) :=
      (le_countP_le_getElem total hs' i hsi).trans
        (countP_mono_left fun y _ hy => by simpa using fun hty => hts (trans _ _ _ hty hy))
    have ht1 := countP_lt_getElem_le total ht' i hit
    rw [hcount, ← hskept] at ht1
    omega

end Rank

end StableSort
