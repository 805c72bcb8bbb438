import Mongo.Pipeline.SkipLimit
import Mongo.Lib.CheckedArith

/-!
# What the `$skip`/`$limit` optimizer keeps, and where it does not

`getNext` of a `$skip` is `List.drop` and of a `$limit` is `List.take`, each by the argument
read as a count (`skipGetNext_eq`, `limitGetNext_eq`).  The optimizer's rewrites are then the
list identities `drop a ∘ take (a + b) = take b ∘ drop a`, `drop b ∘ drop a = drop (a + b)`
and `take b ∘ take a = take (min a b)`, provided the 64-bit sums are the exact ones.

`BoundedFrom` is the invariant that makes them exact: every argument is what the parser
accepts, and each `$limit` plus the `$skip`s before it stays within `INT64_MAX`.  Each rewrite
keeps it and keeps what the pipeline returns, so `optimizePipeline_run` holds for every pipeline
whose `$skip`s add up, with any one `$limit`, to at most `INT64_MAX` (`boundedFrom_of_total`).

Past that bound the swap wraps: `optimizePipeline_skip_limit_wraps` runs
`[{$skip: 1}, {$limit: INT64_MAX}]`, whose `$limit` becomes `INT64_MIN` and ends the stream at
once.
-/

namespace Mongo

namespace Pipeline

open CheckedArith

variable {α : Type}

/-! ## `getNext` as `drop` and `take` -/

theorem skipGetNext_eq (nToSkip : ℤ) (nSkippedSoFar : ℕ) (docs : List α) :
    skipGetNext nToSkip nSkippedSoFar docs = docs.drop (nToSkip - nSkippedSoFar).toNat := by
  induction docs generalizing nSkippedSoFar with
  | nil => simp [skipGetNext]
  | cons doc docs ih =>
      rw [skipGetNext]
      split_ifs with h
      · have hsucc : (nToSkip - nSkippedSoFar).toNat = (nToSkip - ↑(nSkippedSoFar + 1)).toNat + 1 := by
          push_cast
          omega
        rw [ih, hsucc, List.drop_succ_cons]
      · have hzero : (nToSkip - nSkippedSoFar).toNat = 0 := by omega
        rw [hzero, List.drop_zero]

theorem limitGetNext_eq (limit : ℤ) (nReturned : ℕ) (docs : List α) :
    limitGetNext limit nReturned docs = docs.take (limit - nReturned).toNat := by
  induction docs generalizing nReturned with
  | nil => simp [limitGetNext]
  | cons doc docs ih =>
      rw [limitGetNext]
      split_ifs with h
      · have hzero : (limit - nReturned).toNat = 0 := by omega
        rw [hzero, List.take_zero]
      · have hsucc : (limit - nReturned).toNat = (limit - ↑(nReturned + 1)).toNat + 1 := by
          push_cast
          omega
        rw [ih, hsucc, List.take_succ_cons]

@[simp] theorem getNext_skip (nToSkip : Int64) (docs : List α) :
    (Stage.skip nToSkip).getNext docs = docs.drop nToSkip.toInt.toNat := by
  simp [Stage.getNext, skipGetNext_eq]

@[simp] theorem getNext_limit (n : Int64) (docs : List α) :
    (Stage.limit n).getNext docs = docs.take n.toInt.toNat := by
  simp [Stage.getNext, limitGetNext_eq]

@[simp] theorem run_nil (input : List α) : run [] input = input := rfl

@[simp] theorem run_cons (stage : Stage) (stages : List Stage) (input : List α) :
    run (stage :: stages) input = run stages (stage.getNext input) := rfl

theorem run_append (l m : List Stage) (input : List α) :
    run (l ++ m) input = run m (run l input) :=
  List.foldl_append

/-- Replacing a piece of a pipeline by one that returns the same keeps what the whole returns. -/
theorem run_congr_middle (pre post : List Stage) {l m : List Stage}
    (h : ∀ input : List α, run l input = run m input) (input : List α) :
    run (pre ++ l ++ post) input = run (pre ++ m ++ post) input := by
  rw [run_append, run_append pre, h, ← run_append pre, ← run_append]

/-! ## The rewrites, where the sums are exact -/

theorem toInt_min (a b : Int64) : (min a b).toInt = min a.toInt b.toInt := by
  show (if a ≤ b then a else b).toInt = _
  split_ifs with h
  · rw [min_eq_left (Int64.le_iff_toInt_le.mp h)]
  · rw [min_eq_right (le_of_lt (Int64.lt_iff_toInt_lt.mp (Int64.not_le.mp h)))]

/-- `$skip a; $limit b` returns what `$limit (b + a); $skip a` returns. -/
theorem run_swap {a b : Int64} (ha : 0 ≤ a.toInt) (hb : 0 ≤ b.toInt)
    (hfit : Fits 64 (b.toInt + a.toInt)) (input : List α) :
    run [.skip a, .limit b] input = run [.limit (b + a), .skip a] input := by
  simp only [run_cons, run_nil, getNext_skip, getNext_limit, toInt_add_of_fits hfit,
    List.drop_take]
  congr 2
  omega

/-- `$skip a; $skip b` returns what `$skip (a + b)` returns. -/
theorem run_merge_skip {a b : Int64} (ha : 0 ≤ a.toInt) (hb : 0 ≤ b.toInt)
    (hfit : Fits 64 (a.toInt + b.toInt)) (input : List α) :
    run [.skip a, .skip b] input = run [.skip (a + b)] input := by
  simp only [run_cons, run_nil, getNext_skip, toInt_add_of_fits hfit, List.drop_drop]
  congr 1
  omega

/-- `$limit a; $limit b` returns what `$limit (min a b)` returns. -/
theorem run_merge_limit (a b : Int64) (input : List α) :
    run [.limit a, .limit b] input = run [.limit (min a b)] input := by
  simp only [run_cons, run_nil, getNext_limit, toInt_min, List.take_take]
  congr 1
  omega

/-- Dropping `$skip 0` does not change what a pipeline returns. -/
theorem run_filterMap_optimize (stages : List Stage) (input : List α) :
    run (stages.filterMap Stage.optimize) input = run stages input := by
  induction stages generalizing input with
  | nil => rfl
  | cons stage stages ih =>
      cases stage with
      | skip n =>
          by_cases h : n = 0
          · simp [Stage.optimize, h, ih]
          · simp [Stage.optimize, h, ih]
      | limit n => simp [Stage.optimize, ih]

/-! ## The invariant of the loop -/

/-- The arguments are what the parser accepts (`$skip` at least 0, `$limit` positive), and each
`$limit` plus `acc` and the `$skip`s before it stays within `INT64_MAX`, as does the total of the
`$skip`s. -/
def BoundedFrom (acc : ℤ) : List Stage → Prop
  | [] => True
  | .skip a :: stages => 0 ≤ a.toInt ∧ acc + a.toInt < 2 ^ 63 ∧ BoundedFrom (acc + a.toInt) stages
  | .limit b :: stages => 0 < b.toInt ∧ acc + b.toInt < 2 ^ 63 ∧ BoundedFrom acc stages

/-- The `$skip`s of a list, added up. -/
def skipTotal : List Stage → ℤ
  | [] => 0
  | .skip a :: stages => a.toInt + skipTotal stages
  | .limit _ :: stages => skipTotal stages

theorem boundedFrom_append {acc : ℤ} {l m : List Stage} :
    BoundedFrom acc (l ++ m) ↔ BoundedFrom acc l ∧ BoundedFrom (acc + skipTotal l) m := by
  induction l generalizing acc with
  | nil => simp [BoundedFrom, skipTotal]
  | cons s l ih =>
      cases s with
      | skip a => simp only [List.cons_append, BoundedFrom, skipTotal, ih, add_assoc, and_assoc]
      | limit b => simp only [List.cons_append, BoundedFrom, skipTotal, ih, and_assoc]

/-- A larger start makes the invariant harder to meet. -/
theorem BoundedFrom.mono {acc acc' : ℤ} (hle : acc' ≤ acc) :
    ∀ {l : List Stage}, BoundedFrom acc l → BoundedFrom acc' l
  | [], _ => trivial
  | .skip a :: _, ⟨h0, hlt, hrest⟩ => ⟨h0, by omega, BoundedFrom.mono (by omega) hrest⟩
  | .limit b :: _, ⟨h0, hlt, hrest⟩ => ⟨h0, by omega, BoundedFrom.mono hle hrest⟩

/-- The `$skip`s of a bounded list add up to a non-negative amount. -/
theorem skipTotal_nonneg : ∀ {acc : ℤ} {l : List Stage}, BoundedFrom acc l → 0 ≤ skipTotal l
  | _, [], _ => le_refl 0
  | _, .skip a :: _, ⟨h0, _, hrest⟩ => by
      have := skipTotal_nonneg hrest
      simp only [skipTotal]
      omega
  | _, .limit _ :: _, ⟨_, _, hrest⟩ => by
      simp only [skipTotal]
      exact skipTotal_nonneg hrest

/-- The swap keeps the invariant, and the new `$limit`'s sum is exact. -/
theorem boundedFrom_swap {acc : ℤ} {a b : Int64} {tail : List Stage} (hacc : 0 ≤ acc)
    (h : BoundedFrom acc (.skip a :: .limit b :: tail)) :
    Fits 64 (b.toInt + a.toInt) ∧ BoundedFrom acc (.limit (b + a) :: .skip a :: tail) := by
  obtain ⟨ha, hacca, hb, haccb, hrest⟩ := h
  have hfit : Fits 64 (b.toInt + a.toInt) := by unfold Fits; norm_num; omega
  refine ⟨hfit, ?_, ?_, ha, hacca, hrest⟩ <;> rw [toInt_add_of_fits hfit] <;> omega

/-- Merging two `$skip`s keeps the invariant, and the sum is exact. -/
theorem boundedFrom_merge_skip {acc : ℤ} {a b : Int64} {tail : List Stage} (hacc : 0 ≤ acc)
    (h : BoundedFrom acc (.skip a :: .skip b :: tail)) :
    Fits 64 (a.toInt + b.toInt) ∧ BoundedFrom acc (.skip (a + b) :: tail) := by
  obtain ⟨ha, hacca, hb, haccb, hrest⟩ := h
  have hfit : Fits 64 (a.toInt + b.toInt) := by unfold Fits; norm_num; omega
  refine ⟨hfit, ?_⟩
  simp only [BoundedFrom, toInt_add_of_fits hfit, ← add_assoc]
  exact ⟨by omega, haccb, hrest⟩

/-- Merging two `$limit`s keeps the invariant. -/
theorem boundedFrom_merge_limit {acc : ℤ} {a b : Int64} {tail : List Stage}
    (h : BoundedFrom acc (.limit a :: .limit b :: tail)) :
    BoundedFrom acc (.limit (min a b) :: tail) := by
  obtain ⟨ha, hacca, hb, haccb, hrest⟩ := h
  refine ⟨?_, ?_, hrest⟩ <;> rw [toInt_min] <;> omega

/-- A rewrite of `old` into `new` that keeps the invariant from any non-negative start, and
what the stages return, does so anywhere in a pipeline. -/
theorem rewrite_middle (pre : List Stage) {old new post : List Stage}
    (hrw : ∀ acc, 0 ≤ acc → BoundedFrom acc (old ++ post) →
      BoundedFrom acc (new ++ post) ∧ ∀ input : List α, run old input = run new input)
    (h : BoundedFrom 0 (pre ++ old ++ post)) :
    BoundedFrom 0 (pre ++ new ++ post) ∧
      ∀ input : List α, run (pre ++ old ++ post) input = run (pre ++ new ++ post) input := by
  rw [List.append_assoc, boundedFrom_append] at h
  obtain ⟨hpre, hold⟩ := h
  have hacc : 0 ≤ 0 + skipTotal pre := by
    have := skipTotal_nonneg hpre
    omega
  obtain ⟨hnew, hrun⟩ := hrw _ hacc hold
  refine ⟨?_, run_congr_middle pre post hrun⟩
  rw [List.append_assoc, boundedFrom_append]
  exact ⟨hpre, hnew⟩

/-- The swap as a rewrite. -/
theorem rewrite_swap (a b : Int64) (post : List Stage) (acc : ℤ) (hacc : 0 ≤ acc)
    (h : BoundedFrom acc ([.skip a, .limit b] ++ post)) :
    BoundedFrom acc ([.limit (b + a), .skip a] ++ post) ∧
      ∀ input : List α, run [.skip a, .limit b] input = run [.limit (b + a), .skip a] input := by
  obtain ⟨hfit, hnew⟩ := boundedFrom_swap hacc h
  obtain ⟨ha, -, hb, -⟩ := h
  exact ⟨hnew, run_swap ha hb.le hfit⟩

/-- Merging `$skip`s as a rewrite. -/
theorem rewrite_merge_skip (a b : Int64) (post : List Stage) (acc : ℤ) (hacc : 0 ≤ acc)
    (h : BoundedFrom acc ([.skip a, .skip b] ++ post)) :
    BoundedFrom acc ([.skip (a + b)] ++ post) ∧
      ∀ input : List α, run [.skip a, .skip b] input = run [.skip (a + b)] input := by
  obtain ⟨hfit, hnew⟩ := boundedFrom_merge_skip hacc h
  obtain ⟨ha, -, hb, -⟩ := h
  exact ⟨hnew, run_merge_skip ha hb hfit⟩

/-- Merging `$limit`s as a rewrite. -/
theorem rewrite_merge_limit (a b : Int64) (post : List Stage) (acc : ℤ)
    (h : BoundedFrom acc ([.limit a, .limit b] ++ post)) :
    BoundedFrom acc ([.limit (min a b)] ++ post) ∧
      ∀ input : List α, run [.limit a, .limit b] input = run [.limit (min a b)] input :=
  ⟨boundedFrom_merge_limit h, run_merge_limit a b⟩

/-- **The loop keeps what the pipeline returns.**  Each step of `optimizeLoop` rewrites the
stages at the cursor by one of the three identities, on a list that keeps `BoundedFrom 0`; the
induction follows the recursion of the loop. -/
theorem optimizeLoop_run (front rest : List Stage) (h : BoundedFrom 0 (front.reverse ++ rest))
    (input : List α) : run (optimizeLoop front rest) input = run (front.reverse ++ rest) input := by
  induction front, rest using optimizeLoop.induct with
  | case1 front => rw [optimizeLoop.eq_1]
  | case2 front s => rw [optimizeLoop.eq_2]
  | case3 a b tail ih =>
      obtain ⟨hnew, hrun⟩ := rewrite_middle [] (rewrite_swap a b tail) (by simpa using h)
      rw [optimizeLoop.eq_3, ih (by simpa using hnew)]
      simpa using (hrun input).symm
  | case4 a b tail prev front' ih =>
      obtain ⟨hnew, hrun⟩ := rewrite_middle (front'.reverse ++ [prev])
        (rewrite_swap a b tail) (by simpa using h)
      rw [optimizeLoop.eq_4, ih (by simpa using hnew)]
      simpa using (hrun input).symm
  | case5 front a b tail ih =>
      obtain ⟨hnew, hrun⟩ := rewrite_middle front.reverse
        (rewrite_merge_skip a b tail) (by simpa using h)
      rw [optimizeLoop.eq_5, ih (by simpa using hnew)]
      simpa using (hrun input).symm
  | case6 front a b tail ih =>
      obtain ⟨hnew, hrun⟩ := rewrite_middle front.reverse
        (fun acc _ => rewrite_merge_limit a b tail acc) (by simpa using h)
      rw [optimizeLoop.eq_6, ih (by simpa using hnew)]
      simpa using (hrun input).symm
  | case7 front stage next tail h1 h2 h3 ih =>
      rw [optimizeLoop.eq_7 front stage next tail h1 h2 h3, ih (by simpa using h)]
      simp

/-- The argument is one the parser accepts: `createFromBson` refuses a negative `$skip`, and
`DocumentSourceLimit::create` a `$limit` that is not positive. -/
def Stage.Accepted : Stage → Prop
  | .skip a => 0 ≤ a.toInt
  | .limit b => 0 < b.toInt

/-- The argument of a `$limit`, and 0 for a `$skip`. -/
def Stage.limitArg : Stage → ℤ
  | .skip _ => 0
  | .limit b => b.toInt

/-- Every argument is accepted, and the `$skip`s add up, with any one `$limit`, to at most
`INT64_MAX`. -/
def WithinRange (stages : List Stage) : Prop :=
  ∀ s ∈ stages, s.Accepted ∧ skipTotal stages + s.limitArg < 2 ^ 63

theorem skipTotal_nonneg_of_accepted :
    ∀ {stages : List Stage}, (∀ s ∈ stages, s.Accepted) → 0 ≤ skipTotal stages
  | [], _ => le_refl 0
  | .skip a :: _, h => by
      have ha : 0 ≤ a.toInt := h _ List.mem_cons_self
      have := skipTotal_nonneg_of_accepted (fun s hs => h s (List.mem_cons_of_mem _ hs))
      simp only [skipTotal]
      omega
  | .limit _ :: _, h => by
      simp only [skipTotal]
      exact skipTotal_nonneg_of_accepted (fun s hs => h s (List.mem_cons_of_mem _ hs))

/-- Arguments that stay below `INT64_MAX` with a total `T` of the `$skip`s give the loop
invariant: a `$limit` sees at most the whole total before it. -/
theorem boundedFrom_of_total {T : ℤ} :
    ∀ {acc : ℤ} {stages : List Stage}, (∀ s ∈ stages, s.Accepted ∧ T + s.limitArg < 2 ^ 63) →
      acc + skipTotal stages ≤ T → BoundedFrom acc stages
  | _, [], _, _ => trivial
  | acc, .skip a :: stages, hargs, hle => by
      obtain ⟨ha, hT⟩ := hargs _ List.mem_cons_self
      have hrest : ∀ s ∈ stages, s.Accepted ∧ T + s.limitArg < 2 ^ 63 :=
        fun s hs => hargs s (List.mem_cons_of_mem _ hs)
      have h0 := skipTotal_nonneg_of_accepted (fun s hs => (hrest s hs).1)
      simp only [skipTotal] at hle
      simp only [Stage.limitArg] at hT
      exact ⟨ha, by omega, boundedFrom_of_total hrest (by omega)⟩
  | acc, .limit b :: stages, hargs, hle => by
      obtain ⟨hb, hT⟩ := hargs _ List.mem_cons_self
      have hrest : ∀ s ∈ stages, s.Accepted ∧ T + s.limitArg < 2 ^ 63 :=
        fun s hs => hargs s (List.mem_cons_of_mem _ hs)
      have h0 := skipTotal_nonneg_of_accepted (fun s hs => (hrest s hs).1)
      simp only [skipTotal] at hle
      simp only [Stage.limitArg] at hT
      exact ⟨hb, by omega, boundedFrom_of_total hrest hle⟩

/-- **The optimizer keeps what a pipeline returns, while the sums fit.**  For every pipeline of
`$skip n` (`n ≥ 0`) and `$limit n` (`n > 0`) stages whose `$skip`s add up, with any one `$limit`,
to at most `INT64_MAX`, `optimizePipeline` returns stages that return what the original
returns, on every input. -/
theorem optimizePipeline_run {stages : List Stage} (h : WithinRange stages) (input : List α) :
    run (optimizePipeline stages) input = run stages input := by
  have hbounded : BoundedFrom 0 stages := boundedFrom_of_total h (by omega)
  rw [optimizePipeline, run_filterMap_optimize, optimizeLoop_run [] stages (by simpa using hbounded)]
  simp

/-- **Past `INT64_MAX` the swap wraps.**  `[{$skip: 1}, {$limit: INT64_MAX}]` returns the second
of two documents.  The optimizer turns it into `[{$limit: INT64_MIN}, {$skip: 1}]`, and a
negative `$limit` ends the stream at once. -/
theorem optimizePipeline_skip_limit_wraps :
    optimizePipeline [.skip 1, .limit Int64.maxValue] = [.limit Int64.minValue, .skip 1] ∧
      run [.skip 1, .limit Int64.maxValue] [0, 1] = [1] ∧
      run (optimizePipeline [.skip 1, .limit Int64.maxValue]) [0, 1] = ([] : List ℕ) := by
  have hloop : optimizeLoop [] [.skip 1, .limit Int64.maxValue] =
      [.limit (Int64.maxValue + 1), .skip 1] := by
    rw [optimizeLoop.eq_3, optimizeLoop.eq_7 _ _ _ _ (by simp) (by simp) (by simp),
      optimizeLoop.eq_2]
    rfl
  have hopt : optimizePipeline [.skip 1, .limit Int64.maxValue] =
      [.limit Int64.minValue, .skip 1] := by
    rw [optimizePipeline, hloop]
    decide
  refine ⟨hopt, by decide, ?_⟩
  rw [hopt]
  decide

end Pipeline

end Mongo
