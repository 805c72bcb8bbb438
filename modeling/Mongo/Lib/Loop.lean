import Mathlib

/-!
# Loops with a variant

A `while` loop whose body may fail, modelled with a fuel bound: `run done body outOfFuel fuel s`
iterates `body` from `s` until `done` holds, for at most `fuel` iterations, and fails with
`outOfFuel` when they run out.

A loop is shown to stop by a *variant*: an invariant `I` that every successful iteration keeps,
and a measure `μ` that it decreases.  With one, the fuel is irrelevant once it exceeds the
measure (`run_eq_result`), so the loop has a result (`result`) that obeys the equations of the
loop body, one iteration at a time:

* `result_of_done`, `result_of_ok`, `result_of_error` — the unfolding equations;
* `result_error` — **every failure is a failure of one iteration** from a state satisfying
  the invariant; in particular the loop never runs out of fuel.

A loop that computes a state, `runState`, ends in a state where the invariant holds and `done`
does, whenever each iteration succeeds, keeps the invariant and decreases the measure
(`runState_of_progress`).
-/

namespace Loop

variable {σ ε : Type} (done : σ → Prop) [DecidablePred done] (body : σ → Except ε σ)
  (outOfFuel : ε)

/-- `while (!done(s)) s = body(s);`, for at most `fuel` iterations. -/
def run : ℕ → σ → Except ε Unit
  | 0, _ => .error outOfFuel
  | fuel + 1, s => if done s then .ok () else (body s).bind (run fuel)

/-- `while (!done(s)) s = body(s);` for at most `fuel` iterations, and the state it ends in. -/
def runState : ℕ → σ → Except ε σ
  | 0, _ => .error outOfFuel
  | fuel + 1, s => if done s then .ok s else (body s).bind (runState fuel)

/-- A variant of the loop: every successful iteration from a state that is not done keeps `I`
and decreases `μ`. -/
def Variant (I : σ → Prop) (μ : σ → ℕ) : Prop :=
  ∀ s s', I s → ¬ done s → body s = .ok s' → I s' ∧ μ s' < μ s

/-- The result of the loop, with fuel enough for a variant `μ`. -/
def result (μ : σ → ℕ) (s : σ) : Except ε Unit :=
  run done body outOfFuel (μ s + 1) s

variable {done body outOfFuel} {I : σ → Prop} {μ : σ → ℕ}

/-- **Fuel beyond the measure does not change the outcome.** -/
theorem run_fuel_irrel (hV : Variant done body I μ) :
    ∀ (f₁ f₂ : ℕ) (s : σ), I s → μ s < f₁ → μ s < f₂ →
      run done body outOfFuel f₁ s = run done body outOfFuel f₂ s := by
  intro f₁
  induction f₁ with
  | zero => intro _ _ _ h; omega
  | succ k ih =>
      intro f₂ s hs h₁ h₂
      obtain ⟨j, rfl⟩ : ∃ j, f₂ = j + 1 := ⟨f₂ - 1, by omega⟩
      simp only [run]
      split_ifs with hd
      · rfl
      · cases hbody : body s with
        | error e => rfl
        | ok s' =>
            obtain ⟨hs', hlt⟩ := hV s s' hs hd hbody
            exact ih j s' hs' (by omega) (by omega)

theorem run_eq_result (hV : Variant done body I μ) {s : σ} {fuel : ℕ} (hs : I s)
    (hf : μ s < fuel) : run done body outOfFuel fuel s = result done body outOfFuel μ s :=
  run_fuel_irrel hV fuel (μ s + 1) s hs hf (Nat.lt_succ_self _)

theorem result_of_done {s : σ} (h : done s) : result done body outOfFuel μ s = .ok () := by
  simp only [result, run, if_pos h]

theorem result_of_error {s : σ} {e : ε} (hd : ¬ done s) (h : body s = .error e) :
    result done body outOfFuel μ s = .error e := by
  simp only [result, run, if_neg hd, h]
  rfl

/-- One successful iteration does not change the result. -/
theorem result_of_ok (hV : Variant done body I μ) {s s' : σ} (hs : I s) (hd : ¬ done s)
    (h : body s = .ok s') : result done body outOfFuel μ s = result done body outOfFuel μ s' := by
  obtain ⟨hs', hlt⟩ := hV s s' hs hd h
  have hrun : result done body outOfFuel μ s = run done body outOfFuel (μ s) s' := by
    simp only [result, run, if_neg hd, h]
    rfl
  rw [hrun, run_eq_result hV hs' hlt]

/-- **Every failure of the loop is the failure of one iteration** from a state that satisfies
the invariant and is not done. -/
theorem result_error (hV : Variant done body I μ) {s : σ} {e : ε} (hs : I s)
    (h : result done body outOfFuel μ s = .error e) :
    ∃ s', I s' ∧ ¬ done s' ∧ body s' = .error e := by
  induction hμ : μ s using Nat.strongRecOn generalizing s with
  | _ m ih =>
      have hd : ¬ done s := by
        intro hd
        rw [result_of_done hd] at h
        cases h
      cases hbody : body s with
      | error e' =>
          rw [result_of_error hd hbody] at h
          cases h
          exact ⟨s, hs, hd, hbody⟩
      | ok s' =>
          obtain ⟨hs', hlt⟩ := hV s s' hs hd hbody
          rw [result_of_ok hV hs hd hbody] at h
          exact ih (μ s') (hμ ▸ hlt) hs' h rfl

/-- **A loop that makes progress ends**: if every iteration from a state satisfying `I` that is
not done succeeds, keeps `I` and decreases `μ`, then the loop ends in one state, where `I` holds
and `done` does, with any fuel beyond the measure. -/
theorem runState_of_progress
    (hP : ∀ s, I s → ¬ done s → ∃ s', body s = .ok s' ∧ I s' ∧ μ s' < μ s) (s : σ) (hs : I s) :
    ∃ s', I s' ∧ done s' ∧
      ∀ fuel, μ s < fuel → runState done body outOfFuel fuel s = .ok s' := by
  induction hμ : μ s using Nat.strongRecOn generalizing s with
  | _ m ih =>
      by_cases hd : done s
      · refine ⟨s, hs, hd, fun fuel hfuel => ?_⟩
        obtain ⟨f, rfl⟩ : ∃ f, fuel = f + 1 := ⟨fuel - 1, by omega⟩
        simp only [runState, if_pos hd]
      · obtain ⟨s₁, hbody, hs₁, hlt⟩ := hP s hs hd
        obtain ⟨t, ht, htd, hrun⟩ := ih (μ s₁) (hμ ▸ hlt) s₁ hs₁ rfl
        refine ⟨t, ht, htd, fun fuel hfuel => ?_⟩
        obtain ⟨f, rfl⟩ : ∃ f, fuel = f + 1 := ⟨fuel - 1, by omega⟩
        simp only [runState, if_neg hd, hbody]
        exact hrun f (by omega)

/-! ## Counted loops -/

section Counted

variable {σ ε δ : Type} (body : ℕ → σ → Except δ (Except ε σ))

/-- `for (i = start; i < start + count; i++) s = body(i, s);`.  An iteration may fail (`.error`
of the outer `Except`), which stops everything, or return early (`.error` of the inner one),
which ends the loop with that value. -/
def forRange : ℕ → ℕ → σ → Except δ (Except ε σ)
  | _, 0, s => .ok (.ok s)
  | i, count + 1, s =>
      match body i s with
      | .error d => .error d
      | .ok (.error e) => .ok (.error e)
      | .ok (.ok s) => forRange (i + 1) count s

variable {body}

/-- **The induction rule of a counted loop.**  If every iteration `i` from a state with `P i`
fails only with a `Q`, and when it goes on reaches a state with `P (i + 1)`, then the loop fails
only with a `Q`, and a run through all iterations ends with `P (start + count)`. -/
theorem forRange_induction (P : ℕ → σ → Prop) (Q : δ → Prop) :
    ∀ (count start : ℕ) (s : σ),
      (∀ i s, start ≤ i → i < start + count → P i s →
        (∀ d, body i s = .error d → Q d) ∧ (∀ s', body i s = .ok (.ok s') → P (i + 1) s')) →
      P start s →
      (∀ d, forRange body start count s = .error d → Q d) ∧
        (∀ s', forRange body start count s = .ok (.ok s') → P (start + count) s')
  | 0, start, s, _, hs => by
      refine ⟨fun d h => ?_, fun s' h => ?_⟩
      · cases h
      · cases h
        exact hs
  | count + 1, start, s, hbody, hs => by
      have hfirst := hbody start s (Nat.le_refl start) (by omega) hs
      rw [forRange]
      cases h : body start s with
      | error d =>
          refine ⟨fun d' hd => ?_, fun s' hs' => by cases hs'⟩
          cases hd
          exact hfirst.1 d h
      | ok r =>
          cases r with
          | error e =>
              refine ⟨fun d hd => ?_, fun s' hs' => ?_⟩
              · cases hd
              · cases hs'
          | ok s₁ =>
              have hrest := forRange_induction P Q count (start + 1) s₁
                (fun i s hi hi' => hbody i s (by omega) (by omega)) (hfirst.2 s₁ h)
              refine ⟨hrest.1, fun s' hs' => ?_⟩
              rw [show start + (count + 1) = start + 1 + count by omega]
              exact hrest.2 s' hs'

/-- **The invariant rule of a counted loop that always goes on.**  If every iteration `i` from a
state with `P i` goes on to a state with `P (i + 1)`, the loop runs through and ends with
`P (start + count)`. -/
theorem forRange_invariant (P : ℕ → σ → Prop) :
    ∀ (count start : ℕ) (s : σ),
      (∀ i s, start ≤ i → i < start + count → P i s →
        ∃ s', body i s = .ok (.ok s') ∧ P (i + 1) s') →
      P start s → ∃ s', forRange body start count s = .ok (.ok s') ∧ P (start + count) s'
  | 0, _, s, _, hs => ⟨s, rfl, hs⟩
  | count + 1, start, s, hbody, hs => by
      obtain ⟨s₁, h₁, hs₁⟩ := hbody start s (Nat.le_refl start) (by omega) hs
      obtain ⟨s', h', hs'⟩ := forRange_invariant P count (start + 1) s₁
        (fun i s hi hi' => hbody i s (by omega) (by omega)) hs₁
      refine ⟨s', ?_, ?_⟩
      · rw [forRange, h₁]
        exact h'
      · rw [show start + (count + 1) = start + 1 + count by omega]
        exact hs'

end Counted

end Loop
