import Mathlib

/-!
# Runs of a system that logs what it does

A system given by a step function `step : σ → ε → σ × List ω` takes an event and returns its
next state and what the step emitted (a message sent, a vote granted, a range deleted).  `run`
feeds it a list of events, one after the other in any order the environment chooses, and
collects the emissions in order.

Safety facts about such a system are invariants of the state and the log so far.  The induction
rule is `run_invariant`: an invariant that every step keeps is kept by every run.  Where only
some steps keep it, `Guarded` says that each step of a run is one of those, and `run_invariant`
takes the guard as a hypothesis, so that the one kind of step that breaks a property is named by
the guard.
-/

namespace Trace

variable {σ ε ω : Type} (step : σ → ε → σ × List ω)

/-- Feed the events to `step` in turn from the state and log `p`, appending what each step
emits to the log. -/
def run (p : σ × List ω) (events : List ε) : σ × List ω :=
  events.foldl (fun p e => ((step p.1 e).1, p.2 ++ (step p.1 e).2)) p

@[simp]
theorem run_nil (p : σ × List ω) : run step p [] = p := rfl

@[simp]
theorem run_cons (p : σ × List ω) (e : ε) (events : List ε) :
    run step p (e :: events) = run step ((step p.1 e).1, p.2 ++ (step p.1 e).2) events := rfl

theorem run_append (p : σ × List ω) (events events' : List ε) :
    run step p (events ++ events') = run step (run step p events) events' :=
  List.foldl_append

/-- Every step of the run of `events` from `s` is one that `guard` allows. -/
def Guarded (guard : σ → ε → Prop) : σ → List ε → Prop
  | _, [] => True
  | s, e :: events => guard s e ∧ Guarded guard (step s e).1 events

/-- The induction rule for runs: an invariant of the state and the log that every step allowed
by `guard` keeps holds at the end of every run whose steps are all allowed. -/
theorem run_invariant (guard : σ → ε → Prop) (inv : σ → List ω → Prop)
    (hstep : ∀ s log e, inv s log → guard s e → inv (step s e).1 (log ++ (step s e).2)) :
    ∀ (events : List ε) (s : σ) (log : List ω), inv s log → Guarded step guard s events →
      inv (run step (s, log) events).1 (run step (s, log) events).2
  | [], _, _, hinv, _ => hinv
  | e :: events, s, log, hinv, ⟨he, hrest⟩ => by
      rw [run_cons]
      exact run_invariant guard inv hstep events _ _ (hstep s log e hinv he) hrest

/-- Every run is allowed by the guard that allows every step. -/
theorem guarded_true : ∀ (events : List ε) (s : σ), Guarded step (fun _ _ => True) s events
  | [], _ => trivial
  | _ :: events, _ => ⟨trivial, guarded_true events _⟩

/-- The induction rule for a system whose every step keeps the invariant. -/
theorem run_invariant_all (inv : σ → List ω → Prop)
    (hstep : ∀ s log e, inv s log → inv (step s e).1 (log ++ (step s e).2))
    (events : List ε) (s : σ) (log : List ω) (hinv : inv s log) :
    inv (run step (s, log) events).1 (run step (s, log) events).2 :=
  run_invariant step (fun _ _ => True) inv (fun s log e h _ => hstep s log e h) events s log hinv
    (guarded_true step events s)

end Trace
