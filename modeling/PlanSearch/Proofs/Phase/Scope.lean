import PlanSearch.Phase.Basic
import PlanSearch.Proofs.Workspace.Lawful

/-!
# Actions on parts of a state

What an action on a part of the state does, it does to that part; the rest stays as it is. To update
the best plan is to ask for the score and perhaps to announce it, but no boundary of a step.
-/

namespace PlanSearch

variable {σ τ α P W S : Type} {sh : Shape}

theorem Action.onPart_eq_ok {get : σ → τ} {set : τ → σ → σ} {x : Action τ α} {a : α} {s s' : σ}
    (e : onPart get set x s = .ok a s') : ∃ t, x (get s) = .ok a t ∧ s' = set t s := by
  unfold onPart at e
  split at e
  · next a t h =>
    cases e
    exact ⟨t, h, rfl⟩
  · cases e

theorem Run.onWorkspace_eq_ok {x : Action W α} {a : α} {r r' : Run W S sh}
    (e : onWorkspace x r = .ok a r') :
    ∃ w, x r.workspace = .ok a w ∧ r' = { r with workspace := w } := by
  unfold onWorkspace at e
  split at e
  · next a w h =>
    cases e
    exact ⟨w, h, rfl⟩
  · cases e

/-- An action on the run of a phase. -/
theorem onRun_eq_ok {x : Action (Run W S sh) α} {a : α} {s s' : P × Scope W S sh}
    (e : onScope (Scope.onRun x) s = .ok a s') :
    ∃ r, x s.2.run = .ok a r ∧ s' = (s.1, { s.2 with run := r }) := by
  obtain ⟨sc, hsc, rfl⟩ := Action.onPart_eq_ok e
  obtain ⟨r, hr, rfl⟩ := Action.onPart_eq_ok hsc
  exact ⟨r, hr, rfl⟩

theorem mapScope_bind (f : Scope W S sh → Scope W S sh)
    (g : PUnit → Action (P × Scope W S sh) α) (s : P × Scope W S sh) :
    (mapScope f >>= g) s = g ⟨⟩ (s.1, f s.2) := rfl

theorem mapPhase_bind (f : P → P) (g : PUnit → Action (P × Scope W S sh) α)
    (s : P × Scope W S sh) : (mapPhase f >>= g) s = g ⟨⟩ (f s.1, s.2) := rfl

theorem inSpan_eq_ok {span : Span sh} {x : Action (P × Scope W S sh) α} {a : α} {p p' : P}
    {run run' : Run W S sh} (e : inSpan span x (p, run) = .ok a (p', run')) :
    ∃ sc, x (p, ⟨span, run⟩) = .ok a (p', sc) ∧ run' = sc.run := by
  unfold inSpan at e
  dsimp only at e
  split at e
  · next h =>
    cases e
    exact ⟨_, h, rfl⟩
  · cases e

theorem ofExcept_eq_ok {x : Except Failure α} {a : α} {s s' : σ}
    (e : (ofExcept x : Action σ α) s = .ok a s') : x = .ok a ∧ s' = s := by
  cases x with
  | error f => cases e
  | ok b =>
    cases e
    exact ⟨rfl, rfl⟩

/-! ## The best plan -/

/-- The boundaries of steps among the notices, newest first. -/
def stepEvents (trace : List (Notice S sh)) : List (Event × Context S sh) :=
  trace.filterMap fun
    | .event .stepStarted context => some (.stepStarted, context)
    | .event .stepEnded context => some (.stepEnded, context)
    | _ => none

variable [Plan S sh] [Workspace W S sh]

theorem Run.updateBest_eq_ok {improved : Bool} {r r' : Run W S sh}
    (e : updateBest r = .ok improved r') :
    (∃ a, Workspace.score r.workspace = .ok a r'.workspace) ∧
      stepEvents r'.trace = stepEvents r.trace := by
  obtain ⟨a, r₁, hscore, e⟩ := Step.bind_eq_ok e
  obtain ⟨w, hw, rfl⟩ := onWorkspace_eq_ok hscore
  have hw := Workspace.scoreNow_eq_ok hw
  rw [Step.get_bind] at e
  dsimp only at e
  split at e
  · rw [Step.set_bind] at e
    cases e
    exact ⟨⟨a, hw⟩, rfl⟩
  · cases e
    exact ⟨⟨a, hw⟩, rfl⟩

theorem Scope.updateBest_eq_ok {improved : Bool} {sc sc' : Scope W S sh}
    (e : updateBest sc = .ok improved sc') :
    (∃ a, Workspace.score sc.run.workspace = .ok a sc'.run.workspace) ∧
      stepEvents sc'.run.trace = stepEvents sc.run.trace := by
  obtain ⟨_, sc₁, honRun, e⟩ := Step.bind_eq_ok e
  obtain ⟨r, hbest, rfl⟩ := Action.onPart_eq_ok honRun
  have h := Run.updateBest_eq_ok hbest
  dsimp only at e
  split at e
  · rw [Step.modify_bind] at e
    cases e
    exact h
  · cases e
    exact h

theorem Scope.completeStep_eq_ok {improved : Bool} {sc sc' : Scope W S sh}
    (e : completeStep sc = .ok improved sc') :
    (∃ a, Workspace.score sc.run.workspace = .ok a sc'.run.workspace) ∧
      stepEvents sc'.run.trace = stepEvents sc.run.trace := by
  unfold completeStep at e
  rw [Step.modify_bind] at e
  have h := Scope.updateBest_eq_ok e
  exact h

end PlanSearch
