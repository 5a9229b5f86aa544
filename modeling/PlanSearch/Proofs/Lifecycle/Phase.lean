import PlanSearch.Proofs.Lifecycle.Quiet
import PlanSearch.Proofs.Phase.Construction
import PlanSearch.Proofs.Search.LocalSearch
import PlanSearch.Solver

/-!
# The events of a phase

A phase that comes to its end has told of its start, of the start and the end of each step, and of
its own end. An error that it reports leaves it in the middle of a step, the end of which nobody is
told of.

    s ends with outcome o → heard t = (heard s).later (phase (o.rounds n)) n          (work_heard)
    s ends with an error → heard t = (heard s).later (cut k) n                        (work_heard)
-/

namespace PlanSearch

variable {S V W P : Type} {sh : Shape}

/-- The steps that were begun in a phase that counted `n` of them: a step in which no move was
accepted is not counted if it ends the phase. -/
def Outcome.rounds (n : Nat) (o : Outcome) : Nat := if o = .noAcceptedMove then n + 1 else n

namespace Heard

/-- What is known after the events `es`, when `n` more steps were counted. -/
def later (es : List Event) (n : Nat) (x : Heard) : Heard where
  leaves := x.leaves.map (·.recordAll es)
  index := x.index
  told :=
    { x.told with
      boundaries := (es.map (·, x.index)).reverse ++ x.told.boundaries
      steps := x.told.steps + n }

theorem later_nil (x : Heard) : x.later [] 0 = x := by
  unfold later
  rw [show x.leaves.map (·.recordAll []) = x.leaves from List.map_id _]
  rfl

theorem later_later (x : Heard) (es es' : List Event) (n n' : Nat) :
    (x.later es n).later es' n' = x.later (es ++ es') (n + n') := by
  unfold later
  dsimp only
  rw [List.map_map, List.map_append, List.reverse_append, List.append_assoc, Nat.add_assoc]
  congr 1
  exact List.map_congr_left fun t _ => (t.recordAll_append es es').symm

/-- The steps which ended with `o` were told of from their start to their end. -/
def Stepped (o : Outcome) (x y : Heard) : Prop := ∃ n, y = x.later (Event.steps (o.rounds n)) n

/-- If the failure is an error that is reported, the last of the steps has not ended. -/
def Stuck (f : Failure) (x y : Heard) : Prop :=
  ∀ e, f = .error e → ∃ k n, y = x.later (Event.steps k ++ [.stepStarted]) n

/-- A phase which ended with `o` was told of from its start to its end. -/
def Ended (o : Outcome) (x y : Heard) : Prop := ∃ n, y = x.later (Event.phase (o.rounds n)) n

/-- If the failure is an error that is reported, neither the phase nor its last step has ended. -/
def Broken (f : Failure) (x y : Heard) : Prop :=
  ∀ e, f = .error e → ∃ k n, y = x.later (Event.cut k) n

variable {o : Outcome} {f : Failure} {x y z : Heard}

theorem Stepped.nil (h : o ≠ .noAcceptedMove) : Stepped o x x := by
  refine ⟨0, ?_⟩
  rw [Outcome.rounds, if_neg h]
  exact x.later_nil.symm

/-- A step that was counted goes before the others. -/
theorem Stepped.cons (hxy : y = x.later (Event.steps 1) 1) (h : Stepped o y z) : Stepped o x z := by
  obtain ⟨n, rfl⟩ := h
  refine ⟨1 + n, ?_⟩
  have hrounds : o.rounds (1 + n) = 1 + o.rounds n := by
    unfold Outcome.rounds
    split <;> omega
  rw [hxy, later_later, hrounds, Event.steps_add]

theorem Stuck.cons (hxy : y = x.later (Event.steps 1) 1) (h : Stuck f y z) : Stuck f x z := by
  intro e he
  obtain ⟨k, n, rfl⟩ := h e he
  refine ⟨1 + k, 1 + n, ?_⟩
  rw [hxy, later_later, Event.steps_add, List.append_assoc]

theorem Stepped.ended (hxy : y = x.later [.phaseStarted] 0) (h : Stepped o y z) :
    Ended o x (z.later [.phaseEnded] 0) := by
  obtain ⟨n, rfl⟩ := h
  refine ⟨n, ?_⟩
  rw [hxy, later_later, later_later, Nat.zero_add]
  rfl

theorem Stuck.broken (hxy : y = x.later [.phaseStarted] 0) (h : Stuck f y z) : Broken f x z := by
  intro e he
  obtain ⟨k, n, rfl⟩ := h e he
  refine ⟨k, n, ?_⟩
  rw [hxy, later_later, Nat.zero_add]
  rfl

end Heard

variable {leaves : P → List Tracker}

/-- Telling the phase and the listeners of an event. -/
theorem heard_event {s t : P × Scope W S sh} {e : Event} {c : Context S sh}
    (hleaves : leaves t.1 = (leaves s.1).map (·.record e))
    (hscope : t.2 = s.2.mapRun (Run.announce (.event e c))) (hc : c.phaseIndex = s.2.span.index) :
    heard leaves t = (heard leaves s).later [e] 0 := by
  unfold heard
  rw [hleaves, hscope]
  show Heard.mk _ _ ⟨(e, c.phaseIndex) :: boundaries s.2.run.trace, _, _⟩ = _
  rw [hc]
  rfl

theorem heard_countStep (leaves : P → List Tracker) (s : P × Scope W S sh) :
    heard leaves (s.1, s.2.countStep) = (heard leaves s).later [] 1 := by
  unfold heard Heard.later
  rw [show (leaves s.1).map (·.recordAll []) = leaves s.1 from List.map_id _]
  rfl

variable [Workspace W S sh]

theorem scoreNow_heard (s : P × Scope W S sh) :
    Finishes (fun _ t => heard leaves t = heard leaves s) (fun f _ => ∀ e, f ≠ .error e)
      (onScope (Scope.onRun Run.scoreNow) s) := by
  have hscope := Finishes.onPart (·.2) (fun (sc : Scope W S sh) s => (s.1, sc)) (s := s)
    (Finishes.onPart Scope.run (fun run sc => { sc with run }) (s := s.2)
      (Run.scoreNow_told s.2.run))
  refine hscope.mono (fun _ t h => ?_) fun _ t h => ?_
  · obtain ⟨sc, ⟨r, hr, rfl⟩, rfl⟩ := h
    exact heard_congr rfl rfl hr
  · obtain ⟨sc, ⟨r, ⟨-, hf⟩, rfl⟩, rfl⟩ := h
    exact hf

variable [Plan S sh]

/-- A step that was told to start is counted as it completes, even if the score of the plan cannot
be calculated. -/
theorem completeStep_heard {x : Heard} {s : P × Scope W S sh}
    (hs : heard leaves s = x.later [.stepStarted] 0) :
    Finishes (fun _ t => heard leaves t = x.later [.stepStarted] 1)
      (fun _ t => ∃ n, heard leaves t = x.later [.stepStarted] n)
      (onScope Scope.completeStep s) := by
  have hcount : heard leaves (s.1, s.2.countStep) = x.later [.stepStarted] 1 := by
    rw [heard_countStep, hs, Heard.later_later]
    rfl
  have hscope := Finishes.onPart (·.2) (fun (sc : Scope W S sh) s => (s.1, sc)) (s := s)
    (x := Scope.completeStep) (Scope.updateBest_told s.2.countStep)
  refine hscope.mono (fun _ t h => ?_) fun _ t h => ?_
  · obtain ⟨sc, ⟨hindex, htold⟩, rfl⟩ := h
    exact (heard_congr (s := (s.1, s.2.countStep)) (t := (s.1, sc)) rfl hindex htold).trans hcount
  · obtain ⟨sc, ⟨⟨hindex, htold⟩, -⟩, rfl⟩ := h
    exact ⟨1, (heard_congr (s := (s.1, s.2.countStep)) (t := (s.1, sc)) rfl hindex htold).trans
      hcount⟩

theorem updateBest_heard (s : P × Scope W S sh) :
    Finishes (fun _ t => heard leaves t = heard leaves s) (fun f _ => ∀ e, f ≠ .error e)
      (onScope Scope.updateBest s) := by
  have hscope := Finishes.onPart (·.2) (fun (sc : Scope W S sh) s => (s.1, sc)) (s := s)
    (Scope.updateBest_told s.2)
  refine hscope.mono (fun _ t h => ?_) fun _ t h => ?_
  · obtain ⟨sc, ⟨hindex, htold⟩, rfl⟩ := h
    exact heard_congr rfl hindex htold
  · obtain ⟨sc, ⟨-, hf⟩, rfl⟩ := h
    exact hf

/-! ## Local searches -/

namespace LocalSearch

omit [Plan S sh] in
theorem heard_fired (e : Event) (a : Score sh) (s : Searching W S V sh) :
    heard (fired e a s) = (heard s).later [e] 0 :=
  heard_event (s.1.neighbourhood.trackers_hear s.2.run.plan e) rfl rfl

variable [DecidableEq V] [ToString V]

/-- A step tells of its start and its end, and is counted if a move was accepted; a failure leaves
it open. -/
theorem step_heard (fuel : Nat) (last : Score sh) (s : Searching W S V sh) :
    Finishes (fun answer t => heard t = (heard s).later (Event.steps 1) answer.toList.length)
      (fun _ t => ∃ n, heard t = (heard s).later [.stepStarted] n) (step fuel last s) := by
  unfold step
  rw [fire_bind, mapPhase_bind]
  have hstart : heard (begun last s) = (heard s).later [.stepStarted] 0 :=
    heard_fired .stepStarted last s
  refine Finishes.bind (Q := fun _ t => heard t = (heard s).later [.stepStarted] 0)
    ((overlooks_heard.forage_keeps fuel last (begun last s)).mono (fun _ _ h => h.trans hstart)
      fun _ _ h => ⟨0, h.trans hstart⟩) fun m? t ht => ?_
  have hend : ∀ {u : Searching W S V sh} {n : Nat} (a : Score sh),
      heard u = (heard s).later [.stepStarted] n →
        heard (fired .stepEnded a u) = (heard s).later (Event.steps 1) n := by
    intro u n a hu
    rw [heard_fired, hu, Heard.later_later]
    rfl
  cases m? with
  | none =>
    dsimp only
    rw [fire_bind]
    exact .ok (hend last ht)
  | some m =>
    dsimp only
    rw [Step.get_bind]
    refine Finishes.bind (Q := fun _ u => heard u = (heard s).later [.stepStarted] 0)
      ((overlooks_heard.commit_keeps m _ t).mono (fun _ _ h => h.trans ht)
        fun _ _ h => ⟨0, h.trans ht⟩) fun a u hu => ?_
    refine (completeStep_heard hu).bind fun _ v hv => ?_
    rw [fire_bind]
    exact .ok (hend a hv)

/-- The steps are told of; each is counted unless it ends the phase. -/
theorem steps_heard (fuel rounds : Nat) (last : Score sh) (s : Searching W S V sh) :
    Finishes (fun x t => Heard.Stepped x.1 (heard s) (heard t))
      (fun f t => Heard.Stuck f (heard s) (heard t)) (steps fuel rounds last s) := by
  induction rounds generalizing last s with
  | zero => exact .error fun e he => absurd he (Failure.outOfFuel_ne_error e)
  | succ rounds ih =>
    rw [steps, Step.get_bind]
    dsimp only
    split
    · exact .ok (.nil fun h => by cases h)
    refine Finishes.bind ((step_heard fuel last s).mono (fun _ _ h => h) fun f t h e he => ?_)
      fun answer t ht => ?_
    · obtain ⟨n, ht⟩ := h
      exact ⟨0, n, ht⟩
    · cases answer with
      | some a => exact (ih a t).mono (fun _ _ h => h.cons ht) fun _ _ h => h.cons ht
      | none =>
        dsimp only
        cases s.1.noAcceptedMove with
        | terminate => exact .ok ⟨0, ht⟩
        | proceed =>
          dsimp only
          rw [mapScope_bind]
          have hcount : heard (t.1, t.2.countStep) = (heard s).later (Event.steps 1) 1 := by
            refine (heard_countStep _ t).trans ?_
            show (heard t).later [] 1 = _
            rw [ht, Heard.later_later]
            rfl
          exact (ih last _).mono (fun _ _ h => h.cons hcount) fun _ _ h => h.cons hcount

theorem work_heard (fuel : Nat) (s : Searching W S V sh) :
    Finishes (fun o t => Heard.Ended o (heard s) (heard t))
      (fun f t => Heard.Broken f (heard s) (heard t)) (work fuel s) := by
  unfold work
  rw [mapScope_bind]
  refine Finishes.bind (Q := fun _ t => heard t = heard s)
    ((scoreNow_heard _).mono (fun _ _ h => h) fun f _ h e he => absurd he (h e)) fun start t ht => ?_
  rw [mapScope_bind]
  refine Finishes.bind (Q := fun _ t => heard t = heard s)
    ((updateBest_heard _).mono (fun _ _ h => h.trans ht) fun f _ h e he => absurd he (h e))
    fun _ u hu => ?_
  rw [fire_bind]
  have hstart : heard (fired .phaseStarted start u) = (heard s).later [.phaseStarted] 0 := by
    rw [heard_fired, hu]
  refine Finishes.bind ((steps_heard fuel fuel start _).mono (fun _ _ h => h)
    fun _ _ h => h.broken hstart) fun x v hv => ?_
  obtain ⟨outcome, last⟩ := x
  dsimp only at hv ⊢
  rw [fire_bind]
  refine .ok ?_
  rw [heard_fired]
  exact hv.ended hstart

end LocalSearch

/-! ## Constructions -/

namespace Construction

omit [Plan S sh] in
theorem heard_fired (e : Event) (a : Score sh) (s : Construction S V sh × Scope W S sh) :
    heard (fired e a s) = (heard s).later [e] 0 :=
  heard_event (s.1.trackers_hear e) rfl rfl

variable [DecidableEq V] [ToString V]

/-- A step tells of its start and its end, and is counted; a failure leaves it open. -/
theorem step_heard (place : Placement) (last : Score sh)
    (s : Construction S V sh × Scope W S sh) :
    Finishes (fun _ t => heard t = (heard s).later (Event.steps 1) 1)
      (fun _ t => ∃ n, heard t = (heard s).later [.stepStarted] n) (step place last s) := by
  unfold step
  rw [fire_bind]
  have hstart := heard_fired .stepStarted last s
  refine Finishes.bind (Q := fun _ t => heard t = (heard s).later [.stepStarted] 0)
    ((choose_keeps place last _).mono (fun _ _ h => h.trans hstart)
      fun _ _ h => ⟨0, h.trans hstart⟩) fun m? t ht => ?_
  rw [Step.get_bind]
  refine Finishes.bind (Q := fun _ u => heard u = (heard s).later [.stepStarted] 0)
    ((onRun_keeps (commit_keeps m? _) t).mono (fun _ _ h => h.trans ht)
      fun _ _ h => ⟨0, h.trans ht⟩) fun a u hu => ?_
  refine (completeStep_heard hu).bind fun _ v hv => ?_
  rw [fire_bind]
  refine .ok ?_
  change heard v = _ at hv
  rw [heard_fired, hv, Heard.later_later]
  rfl

/-- The steps are told of, and each is counted. -/
theorem steps_heard (places : List Placement) (last : Score sh)
    (s : Construction S V sh × Scope W S sh) :
    Finishes (fun x t => Heard.Stepped x.1 (heard s) (heard t))
      (fun f t => Heard.Stuck f (heard s) (heard t)) (steps places last s) := by
  induction places generalizing last s with
  | nil => exact .ok (.nil fun h => by cases h)
  | cons place rest ih =>
    rw [steps, Step.get_bind]
    dsimp only
    split
    · exact .ok (.nil fun h => by cases h)
    refine Finishes.bind ((step_heard place last s).mono (fun _ _ h => h) fun f t h e he => ?_)
      fun a t ht => ?_
    · obtain ⟨n, ht⟩ := h
      exact ⟨0, n, ht⟩
    · exact (ih a t).mono (fun _ _ h => h.cons ht) fun _ _ h => h.cons ht

theorem work_heard (s : Construction S V sh × Scope W S sh) :
    Finishes (fun o t => Heard.Ended o (heard s) (heard t))
      (fun f t => Heard.Broken f (heard s) (heard t)) (work s) := by
  unfold work
  rw [mapScope_bind]
  refine Finishes.bind (Q := fun _ t => heard t = heard s)
    ((scoreNow_heard _).mono (fun _ _ h => h) fun f _ h e he => absurd he (h e)) fun start t ht => ?_
  rw [mapScope_bind, fire_bind, Step.get_bind]
  have hstart : heard (fired .phaseStarted start
      (t.1, { t.2 with span := { t.2.span with startingScore := some start } })) =
        (heard s).later [.phaseStarted] 0 := by
    rw [heard_fired, ← ht]
    rfl
  refine Finishes.bind ((steps_heard _ start _).mono (fun _ _ h => h)
    fun _ _ h => h.broken hstart) fun x v hv => ?_
  obtain ⟨outcome, last⟩ := x
  dsimp only at hv ⊢
  refine Finishes.bind (Q := fun _ u => heard u = heard v)
    ((updateBest_heard v).mono (fun _ _ h => h) fun f _ h e he => absurd he (h e)) fun _ u hu => ?_
  rw [fire_bind]
  refine .ok ?_
  rw [heard_fired, hu]
  exact hv.ended hstart

end Construction

end PlanSearch
