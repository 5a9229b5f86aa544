import PlanSearch.Phase.Basic
import PlanSearch.Proofs.Run.Ledger

/-!
# What a run has reached

The conditions of a run and of its phases look at steps and improvements. These are counted as the
run goes on, in two places each: in the run and in the span of the phase at work. What was reached
can be told as well from the notices to listeners alone, and at each boundary the two agree. So the
steps without improvement, which are a difference of counters, are counted right.

    r.Tallied idle → r.progress = reached .solvingStarted idle r.trace        (Run.Tallied.progress)
    sc.Tallied idle → sc.progress = reached .phaseStarted idle sc.run.trace (Scope.Tallied.progress)
-/

namespace PlanSearch

variable {S W : Type} {sh : Shape}

/-! ## Notices -/

/-- The notices after the last event `e`. -/
def since (e : Event) (trace : List (Notice S sh)) : List (Notice S sh) :=
  trace.takeWhile fun n => !n.isEvent e

/-- The notices after the last improvement. -/
def sinceImproved (trace : List (Notice S sh)) : List (Notice S sh) :=
  trace.takeWhile fun n => !n.isImprovement

/-- The notices up to the last boundary. A phase may publish its plan right before it tells of its
start or its end. -/
def unpublished (trace : List (Notice S sh)) : List (Notice S sh) :=
  trace.dropWhile Notice.isImprovement

/-- The steps that were completed by a boundary between steps. Every step that began was, except
that the last step of a phase that ended for want of an accepted move does not count; `idle` says
which phases ended so. -/
def completed (idle : Nat → Bool) : List (Notice S sh) → Nat
  | [] => 0
  | .event .stepStarted _ :: rest => completed idle rest + 1
  | .event .phaseEnded c :: rest =>
    if idle c.phaseIndex then completed idle rest - 1 else completed idle rest
  | _ :: rest => completed idle rest

/-- What was reached since the last event `e`, by what listeners were told. The best score is that
of the whole run. -/
def reached (e : Event) (idle : Nat → Bool) (trace : List (Notice S sh)) : Progress sh where
  steps := completed idle (since e trace)
  unimproved := completed idle (sinceImproved (since e trace))
  bestScore := (published trace).head?.map Prod.snd

/-! ## Tallies -/

/-- The counters `n` of steps and `k` of steps up to the last improvement agree with the notices
since the last event `e`. -/
structure Tally (idle : Nat → Bool) (e : Event) (trace : List (Notice S sh)) (n k : Nat) : Prop where
  steps : completed idle (since e trace) = n
  unimproved : k + completed idle (sinceImproved (since e trace)) = n

namespace Tally

variable {idle : Nat → Bool} {e e' : Event} {c : Context S sh} {trace : List (Notice S sh)}
  {n k : Nat}

/-- The steps up to the last improvement are no more than the steps. -/
theorem le (h : Tally idle e trace n k) : k ≤ n := Nat.le.intro h.unimproved

theorem sub_eq (h : Tally idle e trace n k) :
    n - k = completed idle (sinceImproved (since e trace)) := by
  rw [← h.unimproved, Nat.add_sub_cancel_left]

/-- Counting starts anew. -/
theorem begin (idle : Nat → Bool) (e : Event) (c : Context S sh) (trace : List (Notice S sh)) :
    Tally idle e (.event e c :: trace) 0 0 := by
  have hsince : since e (.event e c :: trace) = [] :=
    List.takeWhile_cons_of_neg (by simp [Notice.isEvent])
  refine ⟨?_, ?_⟩
  · rw [hsince]
    rfl
  · rw [hsince]
    rfl

theorem since_event (he : e' ≠ e) (c : Context S sh) (trace : List (Notice S sh)) :
    since e (.event e' c :: trace) = .event e' c :: since e trace :=
  List.takeWhile_cons_of_pos (by simp [Notice.isEvent, he])

/-- The plan improves. -/
theorem improve (h : Tally idle e trace n k) (plan : S) (a : Score sh) :
    Tally idle e (.improved plan a :: trace) n n :=
  ⟨h.steps, rfl⟩

/-- A step begins. -/
theorem step (h : Tally idle e trace n k) (he : .stepStarted ≠ e) (c : Context S sh) :
    Tally idle e (.event .stepStarted c :: trace) (n + 1) k := by
  refine ⟨?_, ?_⟩
  · rw [since_event he]
    exact congrArg (· + 1) h.steps
  · rw [since_event he]
    exact congrArg (· + 1) h.unimproved

/-- Nothing is counted at most events. -/
theorem pass (h : Tally idle e trace n k) (he : e' ≠ e)
    (hcompleted : ∀ rest, completed idle (.event e' c :: rest) = completed idle rest) :
    Tally idle e (.event e' c :: trace) n k := by
  refine ⟨?_, ?_⟩
  · rw [since_event he, hcompleted]
    exact h.steps
  · rw [since_event he]
    exact (congrArg (k + ·) (hcompleted _)).trans h.unimproved

/-- A phase ends for want of an accepted move. -/
theorem giveUp (h : Tally idle e trace (n + 1) k) (he : .phaseEnded ≠ e) (hk : k ≤ n)
    (hidle : idle c.phaseIndex) : Tally idle e (.event .phaseEnded c :: trace) n k := by
  have hcompleted : ∀ rest, completed idle (.event .phaseEnded c :: rest) =
      completed idle rest - 1 := fun rest => if_pos hidle
  refine ⟨?_, ?_⟩
  · rw [since_event he, hcompleted, h.steps]
    rfl
  · rw [since_event he]
    show k + completed idle (.event .phaseEnded c :: sinceImproved (since e trace)) = n
    rw [hcompleted]
    have := h.unimproved
    omega

end Tally

/-! ## Runs -/

namespace Run

/-- The counters of the run agree with what listeners were told, and no time has passed. -/
structure Tallied (idle : Nat → Bool) (r : Run W S sh) : Prop where
  tally : Tally idle .solvingStarted r.trace r.steps r.lastImprovement
  best : r.bestScore = (published r.trace).head?.map Prod.snd
  elapsed : r.elapsed = 0

variable {idle : Nat → Bool} {r r' : Run W S sh}

theorem Tallied.progress (h : r.Tallied idle) :
    r.progress = reached .solvingStarted idle r.trace := by
  unfold Run.progress reached
  rw [h.elapsed, h.best, h.tally.sub_eq, h.tally.steps]

variable [Workspace W S sh] [Plan S sh]

/-- The best plan stays, or the plan at hand takes its place and is published. -/
theorem updateBest_cases {improved : Bool} (e : updateBest r = .ok improved r') :
    ∃ workspace, improved = false ∧ r' = { r with workspace } ∨
      ∃ plan rank stats, improved = true ∧
        r' = { announce (.improved plan rank.score) r with
          workspace, stats
          best := some ⟨plan, rank⟩
          lastImprovement := r.steps } := by
  obtain ⟨a, _, hscore, e⟩ := Step.bind_eq_ok e
  obtain ⟨w, -, rfl⟩ := onWorkspace_eq_ok hscore
  rw [Step.get_bind] at e
  dsimp only at e
  split at e
  · rw [Step.set_bind] at e
    cases e
    exact ⟨w, .inr ⟨_, ⟨_, a⟩, _, rfl, rfl⟩⟩
  · cases e
    exact ⟨w, .inl ⟨rfl, rfl⟩⟩

end Run

/-! ## Scopes -/

namespace Scope

/-- The counters of the run and of the phase agree with what listeners were told. -/
structure Tallied (idle : Nat → Bool) (sc : Scope W S sh) : Prop where
  run : sc.run.Tallied idle
  span : Tally idle .phaseStarted sc.run.trace sc.span.steps sc.span.lastImprovement

variable {idle : Nat → Bool} {sc sc' : Scope W S sh}

theorem Tallied.progress (h : sc.Tallied idle) :
    sc.progress = reached .phaseStarted idle sc.run.trace := by
  unfold Scope.progress reached
  rw [h.run.elapsed, h.run.best, h.span.sub_eq, h.span.steps]

variable [Workspace W S sh] [Plan S sh]

/-- The span notes the improvements of the run. -/
theorem updateBest_cases {improved : Bool} (e : updateBest sc = .ok improved sc') :
    ∃ run, Run.updateBest sc.run = .ok improved run ∧
      sc' = ⟨if improved then { sc.span with lastImprovement := sc.span.steps } else sc.span, run⟩ := by
  obtain ⟨_, sc₁, honRun, e⟩ := Step.bind_eq_ok e
  obtain ⟨r, hbest, rfl⟩ := Action.onPart_eq_ok honRun
  split at e
  · next himproved =>
    cases e
    exact ⟨r, hbest, by rw [if_pos himproved]⟩
  · next himproved =>
    cases e
    exact ⟨r, hbest, by rw [if_neg himproved]⟩

end Scope

end PlanSearch
