import Mathlib

/-!
# Computations in `Except`

The model writes every fallible routine of the source in the `Except` monad: a `uassert` or an
`invariant` that fails is an `error`, everything else goes on.  These are the rules the proofs
run such code with: a successful step feeds the next (`ok_bind`), a failed one ends the run
(`error_bind`), and a successful run is taken apart one step at a time (`bind_eq_ok`).  A fold
whose every step succeeds from the states an invariant allows succeeds, and its result satisfies
the invariant for all the inputs (`foldlM_invariant`).  A fold fails only as its step does
(`foldlM_error`).  A fold of a step that succeeds exactly under a guard succeeds exactly when the
guards hold along the way (`foldlM_eq_ok_iff`).
-/

namespace Except

variable {ε α β : Type}

@[simp] theorem pure_eq_ok (a : α) : (pure a : Except ε α) = .ok a := rfl

@[simp] theorem throw_eq_error (e : ε) : (throw e : Except ε α) = .error e := rfl

@[simp] theorem ok_bind (a : α) (f : α → Except ε β) : (Except.ok a >>= f) = f a := rfl

@[simp] theorem error_bind (e : ε) (f : α → Except ε β) : (Except.error e >>= f) = .error e := rfl

@[simp] theorem throw_bind (e : ε) (f : α → Except ε β) : (throw e >>= f : Except ε β) = .error e := rfl

theorem isOk_iff {x : Except ε α} : x.isOk = true ↔ ∃ a, x = .ok a := by
  cases x <;> simp [Except.isOk, Except.toBool]

theorem toOption_eq_none_iff {x : Except ε α} : x.toOption = none ↔ x.isOk = false := by
  cases x <;> simp [Except.toOption, Except.isOk, Except.toBool]

@[simp] theorem toOption_ok (a : α) : (Except.ok a : Except ε α).toOption = some a := rfl

/-- **A run that succeeds succeeded at its first step.** -/
theorem bind_eq_ok {x : Except ε α} {f : α → Except ε β} {b : β} :
    (x >>= f) = .ok b ↔ ∃ a, x = .ok a ∧ f a = .ok b := by
  cases x with
  | error e => simp
  | ok a => simp

/-- **A traversal whose every step succeeds succeeds**, relating each input to its output as the
steps do. -/
theorem mapM_eq_ok_of_forall {f : α → Except ε β} {R : α → β → Prop} :
    ∀ {xs : List α}, (∀ x ∈ xs, ∃ y, f x = .ok y ∧ R x y) →
      ∃ ys, xs.mapM f = .ok ys ∧ List.Forall₂ R xs ys
  | [], _ => ⟨[], rfl, .nil⟩
  | x :: xs, h => by
      obtain ⟨y, hy, hxy⟩ := h x List.mem_cons_self
      obtain ⟨ys, hys, hrest⟩ := mapM_eq_ok_of_forall fun x' hx' => h x' (List.mem_cons_of_mem x hx')
      refine ⟨y :: ys, ?_, .cons hxy hrest⟩
      rw [List.mapM_cons, hy, ok_bind, hys]
      rfl

/-- **A capped accumulation.**  A step that appends `f x` while the length stays within `N`, and
fails with `e` at the first step that would pass it, appends everything or fails according to
the total length alone.  The step need only behave so from accumulators within the cap. -/
theorem foldlM_append_capped {γ : Type} (N : ℕ) (e : ε) (f : γ → List β)
    (step : List β → γ → Except ε (List β))
    (hstep : ∀ acc x, acc.length ≤ N →
      step acc x = if acc.length + (f x).length ≤ N then .ok (acc ++ f x) else .error e) :
    ∀ (xs : List γ) (acc : List β), acc.length ≤ N →
      xs.foldlM step acc =
        if acc.length + (xs.flatMap f).length ≤ N then .ok (acc ++ xs.flatMap f) else .error e
  | [], acc, h => by simp [h]
  | x :: xs, acc, h => by
      rw [List.foldlM_cons, hstep acc x h, List.flatMap_cons, List.length_append]
      by_cases hx : acc.length + (f x).length ≤ N
      · have hrest := foldlM_append_capped N e f step hstep xs (acc ++ f x) (by simpa using hx)
        rw [if_pos hx, ok_bind, hrest]
        simp only [List.length_append, Nat.add_assoc, List.append_assoc]
      · rw [if_neg hx, if_neg (by omega)]
        rfl

/-- **The invariant rule of a fold in `Except`.**  If from every state satisfying `inv` for the
inputs so far a step succeeds and satisfies `inv` for one input more, a fold from such a state
succeeds and its result satisfies `inv` for all of them. -/
theorem foldlM_invariant {γ σ : Type} (step : σ → γ → Except ε σ) (inv : List γ → σ → Prop)
    (hstep : ∀ seen s x, inv seen s → ∃ s', step s x = .ok s' ∧ inv (seen ++ [x]) s') :
    ∀ (xs seen : List γ) (s : σ), inv seen s →
      ∃ s', xs.foldlM step s = .ok s' ∧ inv (seen ++ xs) s'
  | [], seen, s, h => ⟨s, rfl, by simpa using h⟩
  | x :: xs, seen, s, h => by
      obtain ⟨s₁, h₁, hinv₁⟩ := hstep seen s x h
      obtain ⟨s₂, h₂, hinv₂⟩ := foldlM_invariant step inv hstep xs (seen ++ [x]) s₁ hinv₁
      refine ⟨s₂, ?_, by simpa using hinv₂⟩
      rw [List.foldlM_cons, h₁, ok_bind, h₂]

/-- **The errors of a fold.**  If a step fails only with errors satisfying `P`, so does a fold
of it. -/
theorem foldlM_error {γ σ : Type} (step : σ → γ → Except ε σ) (P : ε → Prop)
    (hstep : ∀ s x e, step s x = .error e → P e) :
    ∀ (xs : List γ) (s : σ) (e : ε), xs.foldlM step s = .error e → P e
  | [], s, e, h => by cases h
  | x :: xs, s, e, h => by
      rw [List.foldlM_cons] at h
      cases hx : step s x with
      | error e' =>
          rw [hx, error_bind] at h
          cases h
          exact hstep s x e hx
      | ok s' =>
          rw [hx, ok_bind] at h
          exact foldlM_error step P hstep xs s' e h

/-- The guards of the steps of a fold hold, each from the state that `next` has reached by the
inputs before it. -/
def StepsOK {γ σ : Type} (guard : σ → γ → Prop) (next : σ → γ → σ) : σ → List γ → Prop
  | _, [] => True
  | s, x :: xs => guard s x ∧ StepsOK guard next (next s x) xs

/-- **A fold of a guarded step.**  If a step succeeds exactly when its guard holds, and then with
`next`, a fold succeeds exactly when the guards hold along the fold of `next`, and then with that
fold. -/
theorem foldlM_eq_ok_iff {γ σ : Type} {step : σ → γ → Except ε σ} {guard : σ → γ → Prop}
    {next : σ → γ → σ} (hstep : ∀ s x s', step s x = .ok s' ↔ guard s x ∧ s' = next s x) :
    ∀ (xs : List γ) (s s' : σ),
      xs.foldlM step s = .ok s' ↔ StepsOK guard next s xs ∧ s' = xs.foldl next s
  | [], s, s' => by
      simp only [List.foldlM_nil, pure_eq_ok, ok.injEq, StepsOK, List.foldl_nil, true_and]
      exact eq_comm
  | x :: xs, s, s' => by
      rw [List.foldlM_cons, bind_eq_ok, StepsOK, List.foldl_cons]
      constructor
      · rintro ⟨s₁, h₁, hrest⟩
        obtain ⟨hguard, rfl⟩ := (hstep s x s₁).mp h₁
        obtain ⟨hok, rfl⟩ := (foldlM_eq_ok_iff hstep xs _ s').mp hrest
        exact ⟨⟨hguard, hok⟩, rfl⟩
      · rintro ⟨⟨hguard, hok⟩, rfl⟩
        exact ⟨next s x, (hstep s x _).mpr ⟨hguard, rfl⟩,
          (foldlM_eq_ok_iff hstep xs _ _).mpr ⟨hok, rfl⟩⟩

end Except
