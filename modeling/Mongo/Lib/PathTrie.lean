import Mathlib

/-!
# Placing paths in a trie

A trie is given by the node at each path from its root: `Trie α N = List α → Option N`.  A path
to place is a list of steps, each a name and the node that goes at the path of the names up to
it.  The last step's node is a leaf and no other is (`Placed`).  A path fits a trie when no step
finds a node at its path, except a step before the last that finds the very node it places
(`Fits`).  Placing it adds its nodes where the trie has none (`union`).

Two paths conflict when both place a node at one path and the nodes differ, or one of them is a
leaf (`Conflict`).  Into a union of paths that agree where they meet, a path fits exactly when
it conflicts with none of them (`fits_unionAll_iff`).  That union depends only on which paths
there are, not on their order (`unionAll_congr`).
-/

namespace PathTrie

variable {α N : Type}

/-- A trie, by the node at each path from its root. -/
abbrev Trie (α N : Type) := List α → Option N

/-- The trie with no nodes. -/
def empty : Trie α N :=
  fun _ => none

/-- The path of the names of the first `i + 1` steps. -/
def pathAt (steps : List (α × N)) (i : ℕ) : List α :=
  (steps.take (i + 1)).map Prod.fst

/-- `T`, with the nodes of `U` where `T` has none. -/
def union (T U : Trie α N) : Trie α N :=
  fun c => (T c).or (U c)

/-- A path to place: some steps, whose node is a leaf at the last step and at no other. -/
def Placed (isLeaf : N → Bool) (steps : List (α × N)) : Prop :=
  steps ≠ [] ∧ ∀ (i : ℕ) (h : i < steps.length), isLeaf steps[i].2 = true ↔ i + 1 = steps.length

/-- Each step of the path finds no node at its path, or, before the last step, the node it
places. -/
def Fits (T : Trie α N) (steps : List (α × N)) : Prop :=
  ∀ (i : ℕ) (h : i < steps.length),
    T (pathAt steps i) = none ∨ (i + 1 < steps.length ∧ T (pathAt steps i) = some steps[i].2)

/-! ## Paths -/

@[simp] theorem pathAt_cons_zero (a : α) (n : N) (rest : List (α × N)) :
    pathAt ((a, n) :: rest) 0 = [a] := by
  simp [pathAt]

@[simp] theorem pathAt_cons_succ (a : α) (n : N) (rest : List (α × N)) (i : ℕ) :
    pathAt ((a, n) :: rest) (i + 1) = a :: pathAt rest i := by
  simp [pathAt]

theorem length_pathAt {steps : List (α × N)} {i : ℕ} (h : i < steps.length) :
    (pathAt steps i).length = i + 1 := by
  simp only [pathAt, List.length_map, List.length_take]
  omega

theorem pathAt_take {steps : List (α × N)} {k i : ℕ} (h : i < k) :
    pathAt (steps.take k) i = pathAt steps i := by
  simp only [pathAt, List.take_take]
  rw [Nat.min_eq_left (by omega)]

@[simp] theorem union_apply (T U : Trie α N) (c : List α) : union T U c = (T c).or (U c) := rfl

theorem union_of_none {T U : Trie α N} {c : List α} (h : U c = none) : union T U c = T c := by
  simp [h]

variable [DecidableEq α]

/-- The nodes a path places: the node of each step, at the path of the names up to it. -/
def footprint : List (α × N) → Trie α N
  | [] => fun _ => none
  | (a, n) :: rest => fun
    | [] => none
    | b :: c => if a = b then (if c = [] then some n else footprint rest c) else none

/-- The paths placed one after another into `T`. -/
def unionFrom (T : Trie α N) (paths : List (List (α × N))) : Trie α N :=
  paths.foldl (fun T steps => union T (footprint steps)) T

/-- The paths placed one after another into the empty trie. -/
def unionAll (paths : List (List (α × N))) : Trie α N :=
  unionFrom empty paths

/-- Each path fits the trie that the paths before it have made from `T`. -/
def FitsSeq : Trie α N → List (List (α × N)) → Prop
  | _, [] => True
  | T, s :: paths => Fits T s ∧ FitsSeq (union T (footprint s)) paths

/-- Where a list of paths meet, they place the same node. -/
def Agree (paths : List (List (α × N))) : Prop :=
  ∀ s ∈ paths, ∀ t ∈ paths, ∀ c m n, footprint s c = some m → footprint t c = some n → m = n

/-- Both paths place a node at one path, and the nodes differ or one is a leaf. -/
def Conflict (isLeaf : N → Bool) (s t : List (α × N)) : Prop :=
  ∃ c m n, footprint s c = some m ∧ footprint t c = some n ∧
    (m ≠ n ∨ isLeaf m = true ∨ isLeaf n = true)

/-! ## Footprints -/

/-- **The footprint of a path** holds the node of each step at the path up to it, and nothing
else. -/
theorem footprint_eq_some_iff :
    ∀ {steps : List (α × N)} {c : List α} {n : N},
      footprint steps c = some n ↔
        ∃ (i : ℕ) (h : i < steps.length), pathAt steps i = c ∧ steps[i].2 = n
  | [], c, n => by simp [footprint]
  | (a, n') :: rest, [], n => by
      refine ⟨nofun, fun ⟨i, hi, hc, _⟩ => ?_⟩
      have := length_pathAt hi
      rw [hc] at this
      cases this
  | (a, n') :: rest, b :: c, n => by
      simp only [footprint]
      by_cases hab : a = b
      · subst hab
        by_cases hc : c = []
        · subst hc
          refine ⟨fun h => ⟨0, by simp, by simp, by simpa using h⟩, fun ⟨i, hi, hpath, hn⟩ => ?_⟩
          cases i with
          | zero => simpa using hn
          | succ i =>
              have := length_pathAt hi
              rw [hpath] at this
              simp at this
        · rw [if_pos rfl, if_neg hc, footprint_eq_some_iff]
          constructor
          · rintro ⟨i, hi, hpath, hn⟩
            exact ⟨i + 1, by simp [hi], by simp [hpath], by simpa using hn⟩
          · rintro ⟨i, hi, hpath, hn⟩
            cases i with
            | zero =>
                simp only [pathAt_cons_zero, List.cons.injEq, true_and] at hpath
                exact absurd hpath.symm hc
            | succ i =>
                simp only [pathAt_cons_succ, List.cons.injEq, true_and] at hpath
                exact ⟨i, by simpa using hi, hpath, by simpa using hn⟩
      · rw [if_neg hab]
        refine ⟨nofun, fun ⟨i, hi, hpath, _⟩ => ?_⟩
        cases i with
        | zero => simp_all
        | succ i => simp_all

theorem footprint_eq_none_iff {steps : List (α × N)} {c : List α} :
    footprint steps c = none ↔ ∀ i < steps.length, pathAt steps i ≠ c := by
  rw [Option.eq_none_iff_forall_ne_some]
  constructor
  · intro h i hi hpath
    exact h _ (footprint_eq_some_iff.mpr ⟨i, hi, hpath, rfl⟩)
  · intro h n hn
    obtain ⟨i, hi, hpath, _⟩ := footprint_eq_some_iff.mp hn
    exact h i hi hpath

theorem footprint_pathAt {steps : List (α × N)} {i : ℕ} (h : i < steps.length) :
    footprint steps (pathAt steps i) = some steps[i].2 :=
  footprint_eq_some_iff.mpr ⟨i, h, rfl, rfl⟩

/-- The first `i` steps place nothing at the path of step `i`, which is one name longer. -/
theorem footprint_take_pathAt {steps : List (α × N)} {i : ℕ} (h : i < steps.length) :
    footprint (steps.take i) (pathAt steps i) = none := by
  rw [footprint_eq_none_iff]
  intro j hj hpath
  have hji : j < i := by
    simp only [List.length_take] at hj
    omega
  have hlen := congrArg List.length hpath
  rw [length_pathAt hj, length_pathAt h] at hlen
  omega

/-- One step more places its node at its path. -/
theorem footprint_take_succ {steps : List (α × N)} {i : ℕ} (h : i < steps.length) :
    footprint (steps.take (i + 1)) =
      Function.update (footprint (steps.take i)) (pathAt steps i) (some steps[i].2) := by
  funext c
  by_cases hc : c = pathAt steps i
  · subst hc
    rw [Function.update_self, ← pathAt_take (Nat.lt_succ_self i)]
    rw [footprint_pathAt (by simp only [List.length_take]; omega)]
    simp
  · rw [Function.update_of_ne hc]
    apply Option.ext
    intro n
    simp only [footprint_eq_some_iff, List.length_take, List.getElem_take]
    constructor
    · rintro ⟨j, hj, hpath, hn⟩
      have hji : j ≠ i := by
        rintro rfl
        exact hc (by rw [← hpath, pathAt_take (Nat.lt_succ_self j)])
      refine ⟨j, by omega, ?_, hn⟩
      rw [pathAt_take (by omega), ← pathAt_take (k := i + 1) (by omega)]
      exact hpath
    · rintro ⟨j, hj, hpath, hn⟩
      refine ⟨j, by omega, ?_, hn⟩
      rw [pathAt_take (by omega), ← pathAt_take (k := i) (by omega)]
      exact hpath

theorem footprint_take_length (steps : List (α × N)) :
    footprint (steps.take steps.length) = footprint steps := by
  rw [List.take_length]

/-! ## Unions -/

/-- Adding one node where the trie has none. -/
theorem union_update_of_none {T U : Trie α N} {c : List α} (n : N) (h : T c = none) :
    union T (Function.update U c (some n)) = Function.update (union T U) c (some n) := by
  funext c'
  by_cases hc : c' = c
  · subst hc
    simp [h]
  · simp [Function.update_of_ne hc]

/-- Adding one node where the trie already has it. -/
theorem union_update_of_some {T U : Trie α N} {c : List α} {n : N} (h : T c = some n) :
    union T (Function.update U c (some n)) = union T U := by
  funext c'
  by_cases hc : c' = c
  · subst hc
    simp [h]
  · simp [Function.update_of_ne hc]

@[simp] theorem unionAll_nil : unionAll ([] : List (List (α × N))) = empty := rfl

theorem unionAll_append_singleton (paths : List (List (α × N))) (s : List (α × N)) :
    unionAll (paths ++ [s]) = union (unionAll paths) (footprint s) := by
  simp [unionAll, unionFrom, List.foldl_append]

theorem unionFrom_unionAll (pre paths : List (List (α × N))) :
    unionFrom (unionAll pre) paths = unionAll (pre ++ paths) := by
  simp [unionAll, unionFrom, List.foldl_append]

@[simp] theorem unionFrom_nil (T : Trie α N) : unionFrom T [] = T := rfl

@[simp] theorem unionFrom_cons (T : Trie α N) (s : List (α × N)) (paths : List (List (α × N))) :
    unionFrom T (s :: paths) = unionFrom (union T (footprint s)) paths := rfl

theorem unionFrom_append (T : Trie α N) (paths paths' : List (List (α × N))) :
    unionFrom T (paths ++ paths') = unionFrom (unionFrom T paths) paths' := by
  simp [unionFrom, List.foldl_append]

@[simp] theorem fitsSeq_nil (T : Trie α N) : FitsSeq T [] ↔ True := Iff.rfl

@[simp] theorem fitsSeq_cons (T : Trie α N) (s : List (α × N)) (paths : List (List (α × N))) :
    FitsSeq T (s :: paths) ↔ Fits T s ∧ FitsSeq (union T (footprint s)) paths := Iff.rfl

/-- Paths placed one list after another fit iff the first list fits, and the second fits what
the first has made. -/
theorem fitsSeq_append {paths' : List (List (α × N))} :
    ∀ (paths : List (List (α × N))) (T : Trie α N),
      FitsSeq T (paths ++ paths') ↔ FitsSeq T paths ∧ FitsSeq (unionFrom T paths) paths'
  | [], T => by simp
  | s :: paths, T => by
      rw [List.cons_append, fitsSeq_cons, fitsSeq_cons, fitsSeq_append paths, unionFrom_cons,
        and_assoc]

/-- The node of a union of paths comes from the trie it started from or from one of them. -/
theorem unionFrom_eq_some {c : List α} {n : N} :
    ∀ (paths : List (List (α × N))) (T : Trie α N),
      unionFrom T paths c = some n →
        T c = some n ∨ ∃ s ∈ paths, footprint s c = some n
  | [], _, h => Or.inl h
  | s :: paths, T, h => by
      rcases unionFrom_eq_some paths _ h with h | ⟨t, ht, hfoot⟩
      · change union T (footprint s) c = some n at h
        cases hT : T c with
        | none =>
            rw [union_apply, hT, Option.none_or] at h
            exact Or.inr ⟨s, List.mem_cons_self, h⟩
        | some m =>
            rw [union_apply, hT, Option.some_or] at h
            exact Or.inl h
      · exact Or.inr ⟨t, List.mem_cons_of_mem s ht, hfoot⟩

/-- A union has a node wherever the trie it started from or one of its paths has one. -/
theorem unionFrom_ne_none {c : List α} :
    ∀ (paths : List (List (α × N))) (T : Trie α N),
      (T c ≠ none ∨ ∃ s ∈ paths, footprint s c ≠ none) → unionFrom T paths c ≠ none
  | [], _, h => h.resolve_right (by simp)
  | s :: paths, T, h => by
      apply unionFrom_ne_none paths
      rcases h with hT | ⟨t, ht, hfoot⟩
      · left
        cases hc : T c with
        | none => exact absurd hc hT
        | some m => simp [hc]
      · rcases List.mem_cons.mp ht with rfl | ht
        · left
          cases hc : T c with
          | none => simpa [hc] using hfoot
          | some m => simp [hc]
        · exact Or.inr ⟨t, ht, hfoot⟩

theorem unionAll_eq_some {paths : List (List (α × N))} {c : List α} {n : N}
    (h : unionAll paths c = some n) : ∃ s ∈ paths, footprint s c = some n :=
  (unionFrom_eq_some paths empty h).resolve_left nofun

theorem unionAll_ne_none {paths : List (List (α × N))} {s : List (α × N)} {c : List α}
    (hs : s ∈ paths) (h : footprint s c ≠ none) : unionAll paths c ≠ none :=
  unionFrom_ne_none paths empty (Or.inr ⟨s, hs, h⟩)

/-- **A union of paths that agree has exactly their nodes.** -/
theorem unionAll_eq_some_iff {paths : List (List (α × N))} (hagree : Agree paths) {c : List α}
    {n : N} : unionAll paths c = some n ↔ ∃ s ∈ paths, footprint s c = some n := by
  refine ⟨unionAll_eq_some, fun ⟨s, hs, hfoot⟩ => ?_⟩
  obtain ⟨m, hm⟩ := Option.ne_none_iff_exists'.mp
    (unionAll_ne_none hs (by rw [hfoot]; exact Option.some_ne_none n))
  obtain ⟨t, ht, htfoot⟩ := unionAll_eq_some hm
  rw [hm, hagree t ht s hs c m n htfoot hfoot]

/-- **The union of paths that agree does not depend on their order**, only on which paths
there are. -/
theorem unionAll_congr {paths paths' : List (List (α × N))} (hagree : Agree paths)
    (hagree' : Agree paths') (hmem : ∀ s, s ∈ paths ↔ s ∈ paths') :
    unionAll paths = unionAll paths' := by
  funext c
  cases h : unionAll paths c with
  | some n =>
      obtain ⟨s, hs, hfoot⟩ := (unionAll_eq_some_iff hagree).mp h
      exact ((unionAll_eq_some_iff hagree').mpr ⟨s, (hmem s).mp hs, hfoot⟩).symm
  | none =>
      cases h' : unionAll paths' c with
      | none => rfl
      | some n =>
          obtain ⟨s, hs, hfoot⟩ := (unionAll_eq_some_iff hagree').mp h'
          rw [(unionAll_eq_some_iff hagree).mpr ⟨s, (hmem s).mpr hs, hfoot⟩] at h
          cases h

/-! ## Conflicts -/

section Leaf

variable {isLeaf : N → Bool}

theorem conflict_comm {s t : List (α × N)} : Conflict isLeaf s t ↔ Conflict isLeaf t s := by
  constructor <;>
  · rintro ⟨c, m, n, hs, ht, hmn⟩
    exact ⟨c, n, m, ht, hs, hmn.imp Ne.symm Or.symm⟩

/-- Paths that pairwise do not conflict agree. -/
theorem agree_of_pairwise {paths : List (List (α × N))}
    (h : paths.Pairwise fun s t => ¬ Conflict isLeaf s t) : Agree paths := by
  intro s hs t ht c m n hsc htc
  by_cases hst : s = t
  · subst hst
    rw [hsc] at htc
    exact Option.some.inj htc
  · have hsymm : Std.Symm fun s t : List (α × N) => ¬ Conflict isLeaf s t :=
      ⟨fun _ _ h' h'' => h' (conflict_comm.mp h'')⟩
    have hnot := h.forall hs ht hst
    by_contra hmn
    exact hnot ⟨c, m, n, hsc, htc, Or.inl hmn⟩

/-- **Into a union of paths that agree, a path fits iff it conflicts with none of them.** -/
theorem fits_unionAll_iff {paths : List (List (α × N))} {s : List (α × N)}
    (hs : Placed isLeaf s) (hagree : Agree paths) :
    Fits (unionAll paths) s ↔ ∀ t ∈ paths, ¬ Conflict isLeaf s t := by
  constructor
  · rintro hfits t ht ⟨c, m, n, hsc, htc, hmn⟩
    obtain ⟨i, hi, rfl, rfl⟩ := footprint_eq_some_iff.mp hsc
    have hunion := (unionAll_eq_some_iff hagree).mpr ⟨t, ht, htc⟩
    rcases hfits i hi with hnone | ⟨hlast, hsome⟩
    · rw [hunion] at hnone
      cases hnone
    · rw [hunion] at hsome
      cases Option.some.inj hsome
      have hleaf : isLeaf s[i].2 = false := by
        rw [Bool.eq_false_iff, Ne, hs.2 i hi]
        omega
      simp [hleaf] at hmn
  · intro hno i hi
    cases hu : unionAll paths (pathAt s i) with
    | none => exact Or.inl rfl
    | some n =>
        obtain ⟨t, ht, htc⟩ := (unionAll_eq_some_iff hagree).mp hu
        have hnot := hno t ht
        simp only [Conflict, not_exists, not_and, not_or, Bool.not_eq_true] at hnot
        obtain ⟨hmn, hleaf, _⟩ := hnot _ _ _ (footprint_pathAt hi) htc
        refine Or.inr ⟨?_, by rw [not_not] at hmn; rw [hmn]⟩
        have := (hs.2 i hi).not.mp (by rw [hleaf]; exact Bool.false_ne_true)
        omega

/-- A path that fits a union of paths that do not conflict extends them. -/
theorem pairwise_append_of_fits {paths : List (List (α × N))} {s : List (α × N)}
    (hs : Placed isLeaf s) (hpaths : paths.Pairwise fun s t => ¬ Conflict isLeaf s t)
    (hfits : Fits (unionAll paths) s) :
    (paths ++ [s]).Pairwise fun s t => ¬ Conflict isLeaf s t := by
  have hno := (fits_unionAll_iff hs (agree_of_pairwise hpaths)).mp hfits
  refine List.pairwise_append.mpr ⟨hpaths, List.pairwise_singleton _ _, ?_⟩
  intro t ht s' hs'
  rw [List.mem_singleton] at hs'
  subst hs'
  exact fun h => hno t ht (conflict_comm.mp h)

/-- **Paths fit one after another** after paths that do not conflict iff none of them
conflict. -/
theorem fitsSeq_unionAll_iff {pre : List (List (α × N))} :
    ∀ {paths : List (List (α × N))}, (∀ s ∈ paths, Placed isLeaf s) →
      pre.Pairwise (fun s t => ¬ Conflict isLeaf s t) →
      (FitsSeq (unionAll pre) paths ↔ (pre ++ paths).Pairwise fun s t => ¬ Conflict isLeaf s t)
  | [], _, hpre => by simp [FitsSeq, hpre]
  | s :: paths, hplaced, hpre => by
      have hs := hplaced s List.mem_cons_self
      have hrest : ∀ t ∈ paths, Placed isLeaf t := fun t ht => hplaced t (List.mem_cons_of_mem s ht)
      rw [FitsSeq, ← unionAll_append_singleton, show pre ++ s :: paths = (pre ++ [s]) ++ paths by simp]
      constructor
      · rintro ⟨hfits, hseq⟩
        exact (fitsSeq_unionAll_iff hrest (pairwise_append_of_fits hs hpre hfits)).mp hseq
      · intro h
        have hpre' : (pre ++ [s]).Pairwise fun s t => ¬ Conflict isLeaf s t :=
          List.Pairwise.sublist (List.sublist_append_left _ _) h
        have hfits : Fits (unionAll pre) s := by
          refine (fits_unionAll_iff hs (agree_of_pairwise hpre)).mpr fun t ht hconf => ?_
          exact (List.pairwise_append.mp hpre').2.2 t ht s (List.mem_singleton_self s)
            (conflict_comm.mp hconf)
        exact ⟨hfits, (fitsSeq_unionAll_iff hrest hpre').mpr h⟩

end Leaf

end PathTrie
