/-
# Runs of a guarded transition system

A system is a partial function `next : σ → ε → Option σ`: the state after an event, if the event
can happen.  `Run next C s es s'` is a run through the events `es` all of whose steps meet the
condition `C`, which may look at the state before the step.

* `Run.invariant`: what every step meeting `C` preserves holds at the end of every run.
* `Run.of_replay`: a run can be computed, when `C` can.
* `replies_eq_of_simulation`: a total machine that replies to its requests, and one that simulates
  it, cannot be told apart.

The condition is of the step and not of the run: one that looks at the past has to be put into the
state first.  Most theorems about runs have the form *in every run whose steps all meet the
condition*, and are one application of `Run.invariant` to what a step preserves.
-/
import Mathlib

namespace Runs

variable {σ ε : Type*} {next : σ → ε → Option σ} {C : σ → ε → Prop}

/-- A run whose steps all meet `C`. -/
inductive Run (next : σ → ε → Option σ) (C : σ → ε → Prop) : σ → List ε → σ → Prop
  | nil (s : σ) : Run next C s [] s
  | cons {s s' s'' : σ} {e : ε} {es : List ε} (guard : C s e) (step : next s e = some s')
      (rest : Run next C s' es s'') : Run next C s (e :: es) s''

namespace Run

/-- **An invariant of the steps is an invariant of the runs.**

The condition comes as a premise of the step, so that an invariant which holds under some steps
only can be stated as it is, without a run in it. -/
theorem invariant {I : σ → Prop} (hstep : ∀ s e s', I s → C s e → next s e = some s' → I s')
    {s s' : σ} {es : List ε} (hrun : Run next C s es s') (h : I s) : I s' := by
  induction hrun with
  | nil s => exact h
  | cons guard step _ ih => exact ih (hstep _ _ _ h guard step)

/-- A run may be weakened to any condition that its own implies. -/
theorem mono {D : σ → ε → Prop} (hCD : ∀ s e, C s e → D s e) {s s' : σ} {es : List ε}
    (hrun : Run next C s es s') : Run next D s es s' := by
  induction hrun with
  | nil s => exact nil s
  | cons guard step _ ih => exact cons (hCD _ _ guard) step ih

theorem append {s s' s'' : σ} {es fs : List ε} (h : Run next C s es s')
    (h' : Run next C s' fs s'') : Run next C s (es ++ fs) s'' := by
  induction h with
  | nil s => exact h'
  | cons guard step _ ih => exact cons guard step (ih h')

end Run

/-- Replay events, checking a condition on the way. -/
def replay (next : σ → ε → Option σ) (check : σ → ε → Bool) : σ → List ε → Option σ
  | s, [] => some s
  | s, e :: es => if check s e then (next s e).bind fun s' => replay next check s' es else none

/-- **A replay is a run.**  A concrete run is given by its events alone: the states in between are
computed, and the checks are evaluated on them. -/
theorem Run.of_replay {check : σ → ε → Bool} (hcheck : ∀ s e, check s e = true → C s e) :
    ∀ {es : List ε} {s s' : σ}, replay next check s es = some s' → Run next C s es s'
  | [], s, s', h => by
    simp only [replay, Option.some.injEq] at h
    subst h
    exact Run.nil s
  | e :: es, s, s', h => by
    simp only [replay] at h
    split at h
    · rename_i hc
      obtain ⟨s₁, hs₁, h⟩ := Option.bind_eq_some_iff.mp h
      exact Run.cons (hcheck s e hc) hs₁ (Run.of_replay hcheck h)
    · exact absurd h (by simp)

/-- The end of a replay that goes through is reached by a run. -/
theorem Run.of_isSome [∀ s e, Decidable (C s e)] {s : σ} {es : List ε}
    (h : (replay next (fun s e => decide (C s e)) s es).isSome = true) :
    Run next C s es ((replay next (fun s e => decide (C s e)) s es).get h) :=
  Run.of_replay (fun _ _ hc => of_decide_eq_true hc) (Option.some_get h).symm

/-- A replay that ends with a property is a run that does. -/
theorem Run.of_any {check : σ → ε → Bool} (hcheck : ∀ s e, check s e = true → C s e) {s : σ}
    {es : List ε} {p : σ → Bool} (h : (replay next check s es).any p = true) :
    ∃ s', Run next C s es s' ∧ p s' = true := by
  obtain ⟨s', hs', hp⟩ := (Option.any_eq_true p _).mp h
  exact ⟨s', Run.of_replay hcheck hs', hp⟩

/-! ## Machines with replies

A machine takes requests and replies to each.  Two machines look the same from outside when one
simulates the other on every request that is let through. -/

section Machines

variable {σ τ ρ β : Type*} {step : σ → ρ → σ × β} {step' : τ → ρ → τ × β} {C : σ → ρ → Prop}

/-- The state after some requests. -/
def stateAfter (step : σ → ρ → σ × β) : σ → List ρ → σ
  | s, [] => s
  | s, r :: rs => stateAfter step (step s r).1 rs

/-- The replies to them. -/
def replies (step : σ → ρ → σ × β) : σ → List ρ → List β
  | _, [] => []
  | s, r :: rs => (step s r).2 :: replies step (step s r).1 rs

/-- Every request meets the condition when it comes. -/
def Along (C : σ → ρ → Prop) (step : σ → ρ → σ × β) : σ → List ρ → Prop
  | _, [] => True
  | s, r :: rs => C s r ∧ Along C step (step s r).1 rs

instance decidableAlong [h : ∀ s r, Decidable (C s r)] : ∀ s rs, Decidable (Along C step s rs)
  | _, [] => isTrue trivial
  | s, r :: rs =>
    have := h s r
    have : Decidable (Along C step (step s r).1 rs) := decidableAlong (step s r).1 rs
    inferInstanceAs (Decidable (C s r ∧ Along C step (step s r).1 rs))

/-- **A simulation makes the replies the same**, and relates the final states.

The relation has to be preserved and the replies have to agree, both for single requests.  The
induction over the requests is here, once and for all.  Nothing is said about how the two go on
after a request that is not let through. -/
theorem replies_eq_of_simulation {R : σ → τ → Prop}
    (hstep : ∀ s t r, R s t → C s r → (step s r).2 = (step' t r).2 ∧
      R (step s r).1 (step' t r).1) :
    ∀ {rs : List ρ} {s : σ} {t : τ}, R s t → Along C step s rs →
      replies step s rs = replies step' t rs ∧ R (stateAfter step s rs) (stateAfter step' t rs)
  | [], _, _, hR, _ => ⟨rfl, hR⟩
  | r :: rs, s, t, hR, ⟨hC, hrest⟩ => by
    obtain ⟨hreply, hR'⟩ := hstep s t r hR hC
    obtain ⟨hreplies, hfinal⟩ := replies_eq_of_simulation hstep hR' hrest
    exact ⟨by rw [replies, replies, hreply, hreplies], hfinal⟩

end Machines

end Runs
