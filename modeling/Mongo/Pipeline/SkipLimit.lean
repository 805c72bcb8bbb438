import Mathlib

/-!
# `$skip` and `$limit` stages and the pipeline optimizer

A pipeline of `$skip` and `$limit` stages (`db/pipeline/document_source_skip.cpp`,
`document_source_limit.cpp`) streams documents: `$skip n` drops the first `n`, `$limit n` keeps
the first `n`.  `Pipeline::optimizePipeline` (`pipeline.cpp`) walks the stage list with a
cursor and lets the stage under the cursor rewrite its neighbourhood (`doOptimizeAt`):

* `$skip a; $limit b` becomes `$limit (b + a); $skip a`, and the cursor steps back one stage so
  that the stage before may look at the moved `$limit`;
* `$skip a; $skip b` becomes `$skip (a + b)`, and `$limit a; $limit b` becomes
  `$limit (min a b)`;
* anything else moves the cursor on.

Then each stage is optimized alone, which drops `$skip 0`.  The arguments are `long long`;
their sums are computed in 64 bits and wrap around, which is what signed overflow does in the
compiled code.

The container and its iterator are a zipper: `front` holds the stages before the cursor,
nearest first, and `rest` starts with the stage under it.  The loop terminates: a swap removes
one `$skip` that stands before a `$limit` (`inversions`), a merge removes a stage, and a move
shortens what is left to visit.
-/

namespace Mongo

namespace Pipeline

/-- A stage of a pipeline of `$skip` and `$limit` stages, with its `long long` argument. -/
inductive Stage
  | skip (nToSkip : Int64)
  | limit (limit : Int64)
  deriving DecidableEq, Repr

/-! ## Streaming: `getNext` -/

/-- `DocumentSourceSkip::getNext` over the whole input: while fewer than `nToSkip` documents have
been skipped, pull and drop one; then pass the rest through. -/
def skipGetNext (nToSkip : ℤ) : ℕ → List α → List α
  | _, [] => []
  | nSkippedSoFar, doc :: docs =>
      if (nSkippedSoFar : ℤ) < nToSkip then skipGetNext nToSkip (nSkippedSoFar + 1) docs
      else doc :: docs

/-- `DocumentSourceLimit::getNext` over the whole input: end the stream once `limit` documents
have been returned. -/
def limitGetNext (limit : ℤ) : ℕ → List α → List α
  | _, [] => []
  | nReturned, doc :: docs =>
      if (nReturned : ℤ) ≥ limit then [] else doc :: limitGetNext limit (nReturned + 1) docs

/-- What a stage returns from the documents its source returns. -/
def Stage.getNext : Stage → List α → List α
  | .skip nToSkip, docs => skipGetNext nToSkip.toInt 0 docs
  | .limit n, docs => limitGetNext n.toInt 0 docs

/-- What a pipeline returns: each stage reads what the stage before it returns. -/
def run (stages : List Stage) (input : List α) : List α :=
  stages.foldl (fun docs stage => stage.getNext docs) input

/-! ## The optimizer -/

/-- A `$skip` standing before a `$limit`: the pairs the swap of `DocumentSourceSkip::doOptimizeAt`
puts in order. -/
def Stage.isLimit : Stage → Bool
  | .limit _ => true
  | .skip _ => false

/-- The number of `$skip`s that stand before a `$limit`, counted over pairs. -/
def inversions : List Stage → ℕ
  | [] => 0
  | .skip _ :: stages => stages.countP Stage.isLimit + inversions stages
  | .limit _ :: stages => inversions stages

theorem inversions_append (l m : List Stage) :
    inversions (l ++ m) = inversions l + (l.countP (! ·.isLimit)) * m.countP Stage.isLimit +
      inversions m := by
  induction l with
  | nil => simp [inversions]
  | cons s l ih =>
      cases s with
      | skip a =>
          simp only [List.cons_append, inversions, List.countP_append, ih, List.countP_cons,
            Stage.isLimit, Bool.not_false, if_true]
          ring
      | limit b => simp [inversions, ih, Stage.isLimit]

/-- The swap removes exactly one `$skip`-before-`$limit` pair. -/
theorem inversions_swap (front : List Stage) (a b c : Int64) (tail : List Stage) :
    inversions (front ++ Stage.limit c :: Stage.skip a :: tail) + 1 =
      inversions (front ++ Stage.skip a :: Stage.limit b :: tail) := by
  simp only [inversions_append, List.countP_cons, Stage.isLimit, inversions]
  simp
  ring

/-- One step of the loop of `Pipeline::optimizePipeline`: `optimizeAt` at the cursor, which for
these stages is `doOptimizeAt` unless the cursor is on the last stage. -/
def optimizeLoop (front rest : List Stage) : List Stage :=
  match rest with
  -- the cursor is at the end, or on the last stage, which `optimizeAt` leaves alone
  | [] | [_] => front.reverse ++ rest
  | .skip a :: .limit b :: tail =>
      -- "Swap the $limit before this stage", and step back one stage unless at the front
      match front with
      | [] => optimizeLoop [] (.limit (b + a) :: .skip a :: tail)
      | prev :: front' => optimizeLoop front' (prev :: .limit (b + a) :: .skip a :: tail)
  | .skip a :: .skip b :: tail => optimizeLoop front (.skip (a + b) :: tail)
  | .limit a :: .limit b :: tail => optimizeLoop front (.limit (min a b) :: tail)
  | stage :: next :: tail => optimizeLoop (stage :: front) (next :: tail)
termination_by (front.length + rest.length, inversions (front.reverse ++ rest), rest.length)
decreasing_by
  all_goals simp only [Prod.lex_def, List.length_cons, List.reverse_cons, List.append_assoc,
    List.singleton_append, List.reverse_nil, List.nil_append, true_and]
  · -- the swap at the front of the pipeline
    have := inversions_swap [] a b (b + a) tail
    simp only [List.nil_append] at this
    omega
  · -- the swap, with the cursor stepping back onto `prev`
    have := inversions_swap (front'.reverse ++ [prev]) a b (b + a) tail
    simp only [List.append_assoc, List.singleton_append] at this
    omega
  all_goals omega

/-- `DocumentSourceSkip::optimize` drops `$skip 0`; a `$limit` stays. -/
def Stage.optimize : Stage → Option Stage
  | .skip nToSkip => if nToSkip = 0 then none else some (.skip nToSkip)
  | .limit n => some (.limit n)

/-- `Pipeline::optimizePipeline`: run the cursor over the stages, then optimize each stage. -/
def optimizePipeline (stages : List Stage) : List Stage :=
  (optimizeLoop [] stages).filterMap Stage.optimize

end Pipeline

end Mongo
