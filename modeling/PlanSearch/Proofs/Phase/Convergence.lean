import PlanSearch.Proofs.Lifecycle.Phase
import PlanSearch.Proofs.Search.Convergence

/-!
# Phases that come to an end

A construction makes finitely many steps, each of which tries finitely many values. A local search
ends if the condition of the run includes a limit of steps: each of its rounds either is the last or
counts a step of the run, and every step ends.

    Frugal limitOf work                                                   (Construction.frugal_work)
    c.CapsSteps limit → Converges fun n => work n s                       (LocalSearch.work_converges)
-/

namespace PlanSearch

variable {P S V W α : Type} {sh : Shape}

/-! ## Runs and scopes -/

theorem Run.frugal_onWorkspace {x : Action W α} (h : Frugal (fun _ => ()) x) :
    Frugal (termination : Run W S sh → _) (onWorkspace x) := fun r => by
  have hx := h r.workspace
  unfold onWorkspace
  generalize x r.workspace = y at hx ⊢
  cases hx with
  | ok _ => exact .ok rfl
  | error hf => exact .error hf

/-- The condition of the run in which a phase is at work. -/
def limitOf (s : P × Scope W S sh) : Option (Termination sh) := s.2.run.termination

theorem frugal_onScope {x : Action (Scope W S sh) α} (h : Frugal (fun sc => sc.run.termination) x) :
    Frugal (limitOf (P := P)) (onScope x) :=
  h.onPart _ fun _ _ ht => ht

theorem frugal_onRun {x : Action (Run W S sh) α} (h : Frugal Run.termination x) :
    Frugal (limitOf (P := P)) (onScope (Scope.onRun x)) :=
  frugal_onScope (h.onPart _ fun _ _ ht => ht)

/-- What a phase leaves of the run, once its span is over. -/
theorem inSpan_finishes {x : Action (P × Scope W S sh) α} (h : Frugal limitOf x) (span : Span sh)
    (p : P) (r : Run W S sh) :
    Finishes (fun _ t => t.2.termination = r.termination) (fun f _ => f ≠ .outOfFuel)
      (inSpan span x (p, r)) := by
  have hx := h (p, ⟨span, r⟩)
  unfold inSpan
  dsimp only
  generalize x (p, (⟨span, r⟩ : Scope W S sh)) = y at hx ⊢
  cases hx with
  | ok h => exact .ok h
  | error hf => exact .error hf

variable [Plan S sh] [Workspace W S sh]

omit [Plan S sh] in
theorem Run.frugal_scoreNow : Frugal (termination : Run W S sh → _) scoreNow :=
  frugal_onWorkspace Workspace.frugal_scoreNow

theorem Run.frugal_updateBest : Frugal (termination : Run W S sh → _) updateBest := fun r => by
  unfold updateBest
  refine (frugal_scoreNow r).bind fun a r' h => ?_
  rw [Step.get_bind]
  dsimp only
  split
  · rw [Step.set_bind]
    exact .ok h
  · exact .ok h

theorem Scope.frugal_updateBest :
    Frugal (fun sc : Scope W S sh => sc.run.termination) updateBest := by
  unfold updateBest
  have hrun : Frugal (fun sc : Scope W S sh => sc.run.termination) (onRun Run.updateBest) :=
    Run.frugal_updateBest.onPart _ fun _ _ h => h
  refine hrun.bind fun improved => ?_
  split
  · exact .bind (.modify fun _ => rfl) fun _ => .ok _
  · exact .ok _

theorem Scope.frugal_completeStep :
    Frugal (fun sc : Scope W S sh => sc.run.termination) completeStep :=
  .bind (.modify fun _ => rfl) fun _ => frugal_updateBest

/-! ## Constructions -/

namespace Construction

variable [DecidableEq V] [ToString V]

omit [Plan S sh] [DecidableEq V] [ToString V] in
theorem frugal_fire (e : Event) (a : Score sh) :
    Frugal (limitOf (P := Construction S V sh)) (fire (W := W) e a) := fun _ => .ok rfl

theorem frugal_tryValues (pickEarly : PickEarly) (cell : Variable S V) (entity : Nat)
    (last : Score sh) (best : Option (Candidate S V sh)) (vs : List (Option V)) :
    Frugal (Run.termination : Run W S sh → _) (tryValues pickEarly cell entity last best vs) := by
  induction vs generalizing best with
  | nil => exact .ok _
  | cons v vs ih =>
    intro r
    rw [tryValues, Step.get_bind]
    dsimp only
    split
    · rw [Step.set_bind]
      exact ih best (r.record Stats.recordIllegal)
    · refine (Run.frugal_onWorkspace (frugal_scoreCandidate _ _) r).bind fun a r' h => ?_
      rw [Step.modify_bind]
      split
      · exact .ok h
      · exact (ih _ _).mono (fun _ _ h' => h'.trans h) fun _ _ hf => hf

theorem frugal_choose (place : Placement) (last : Score sh) :
    Frugal (limitOf (P := Construction S V sh)) (choose (W := W) place last) := fun s => by
  unfold choose
  rw [Step.get_bind]
  dsimp only
  cases s.1.placers[place.placer]? with
  | none => exact .error nofun
  | some placer =>
    dsimp only
    rw [Step.set_bind]
    refine (frugal_onRun ?_ _).mono (fun _ _ h => h) fun _ _ hf => hf
    exact frugal_tryValues _ _ _ _ _ _

omit [Plan S sh] [DecidableEq V] [ToString V] in
theorem frugal_commit (m? : Option (Move S V)) (stepIndex : Nat) :
    Frugal (Run.termination : Run W S sh → _) (commit m? stepIndex) := by
  have hscore : ∀ mode : Mode, Frugal (fun _ : W => ())
      (if mode.isAsserted then Workspace.checkedScore s!"after construction step {stepIndex}"
        else Workspace.scoreNow) := by
    intro mode
    split
    · exact Workspace.frugal_checkedScore _
    · exact Workspace.frugal_scoreNow
  refine Frugal.get.bind fun r => Run.frugal_onWorkspace ?_
  cases m? with
  | none => exact hscore r.mode
  | some m => exact .bind (.modify fun _ => rfl) fun _ => hscore r.mode

theorem frugal_step (place : Placement) (last : Score sh) :
    Frugal (limitOf (P := Construction S V sh)) (step (W := W) place last) := by
  unfold step
  refine (frugal_fire _ _).bind fun _ => (frugal_choose place last).bind fun m? => ?_
  refine Frugal.get.bind fun s => (frugal_onRun (frugal_commit m? _)).bind fun a => ?_
  refine (frugal_onScope Scope.frugal_completeStep).bind fun _ => ?_
  exact (frugal_fire _ _).bind fun _ => .ok _

theorem frugal_steps (places : List Placement) (last : Score sh) :
    Frugal (limitOf (P := Construction S V sh)) (steps (W := W) places last) := by
  induction places generalizing last with
  | nil => exact .ok _
  | cons place rest ih =>
    rw [steps]
    refine Frugal.get.bind fun s => ?_
    dsimp only
    split
    · exact .ok _
    · exact (frugal_step place last).bind fun a => ih a

theorem frugal_work : Frugal (limitOf (P := Construction S V sh)) (work (W := W)) := by
  unfold work mapScope
  refine .bind (.modify fun _ => rfl) fun _ => ?_
  refine (frugal_onRun Run.frugal_scoreNow).bind fun start => ?_
  refine .bind (.modify fun _ => rfl) fun _ => (frugal_fire _ _).bind fun _ => ?_
  refine Frugal.get.bind fun s => (frugal_steps _ start).bind fun x => ?_
  refine (frugal_onScope Scope.frugal_updateBest).bind fun _ => ?_
  exact (frugal_fire _ _).bind fun _ => .ok _

end Construction

/-! ## Local searches -/

namespace LocalSearch

variable [DecidableEq V] [ToString V] {s t : Searching W S V sh} {last : Score sh} {fuel : Nat}

omit [Plan S sh] [DecidableEq V] [ToString V] in
theorem frugal_fire (e : Event) (a : Score sh) :
    Frugal (limitOf (P := LocalSearch S V sh)) (fire (W := W) e a) := fun _ => .ok rfl

omit [Plan S sh] [DecidableEq V] in
theorem frugal_commit (m : Move S V) (stepIndex : Nat) :
    Frugal (Run.termination : Run W S sh → _) (commit m stepIndex) := by
  refine Frugal.get.bind fun r => Run.frugal_onWorkspace (.bind (.modify fun _ => rfl) fun _ => ?_)
  split
  · exact Workspace.frugal_checkedScore _
  · exact Workspace.frugal_scoreNow

omit [DecidableEq V] [ToString V] in
theorem frugal_opening : Frugal (limitOf (P := LocalSearch S V sh)) (opening (W := W)) := by
  unfold opening mapScope
  refine .bind (.modify fun _ => rfl) fun _ => ?_
  refine (frugal_onRun Run.frugal_scoreNow).bind fun start => ?_
  refine .bind (.modify fun _ => rfl) fun _ => ?_
  refine (frugal_onScope Scope.frugal_updateBest).bind fun _ => ?_
  exact (frugal_fire _ _).bind fun _ => .ok _

/-- Each step ends. -/
theorem step_converges (last : Score sh) (s : Searching W S V sh) (hends : s.1.setup.Ends)
    (hthreads : s.1.threads ≠ some 0) : Converges fun n => step n last s := by
  have hbegun : (begun last s).1.setup = s.1.setup :=
    setup_hear .stepStarted s.2.run.plan (some last) s.1
  have hgather : Converges fun n => gather n last (begun last s) :=
    gather_converges last _ (hbegun ▸ hends) (by
      rwa [show (begun last s).1.threads = s.1.threads from congrArg Setup.threads hbegun])
  have hforage : Converges fun n => forage n last (begun last s) := by
    simp only [forage_eq]
    exact hgather.bind fun _ t _ _ => .ok _ _
  unfold step
  simp only [fire_bind, mapPhase_bind]
  refine hforage.bind fun m? t n _ => ?_
  cases m? with
  | none => exact .ok _ _
  | some m =>
    have hmove : Frugal (limitOf (P := LocalSearch S V sh)) (do
        let stepIndex := (← get (m := Action (Searching W S V sh))).2.span.steps
        let score ← onScope (Scope.onRun (commit m stepIndex))
        let _ ← onScope Scope.completeStep
        fire .stepEnded score
        return some score) := by
      refine Frugal.get.bind fun s => (frugal_onRun (frugal_commit m _)).bind fun a => ?_
      refine (frugal_onScope Scope.frugal_completeStep).bind fun _ => ?_
      exact (frugal_fire _ _).bind fun _ => .ok _
    exact .of_finishes (hmove t)

theorem step_frame {answer : Option (Score sh)} (e : step fuel last s = .ok answer t) :
    t.1.setup = s.1.setup ∧ limitOf t = limitOf s ∧
      t.2.run.steps = s.2.run.steps + answer.toList.length := by
  have hsteps : t.2.run.steps = s.2.run.steps + answer.toList.length := by
    have hheard := step_heard fuel last s
    rw [e] at hheard
    cases hheard with
    | ok h => exact congrArg (·.told.steps) h
  obtain ⟨m?, u, hforage, hstep⟩ := step_of_forage e
  have ht : Tried (begun last s) u := forage_tried hforage
  have hsetup : u.1.setup = s.1.setup :=
    ht.setup.trans (setup_hear .stepStarted s.2.run.plan (some last) s.1)
  have hlimit : u.2.run.termination = s.2.run.termination := by
    rw [ht.tries.eq]
    rfl
  rcases hstep with ⟨-, rfl, rfl⟩ | ⟨m, a, w, improved, sc', -, -, hcomplete, rfl, rfl⟩
  · exact ⟨(setup_hear _ _ _ _).trans hsetup, hlimit, hsteps⟩
  · have hkept := Scope.frugal_completeStep (u.2.mapRun fun r => { r with workspace := w })
    rw [hcomplete] at hkept
    cases hkept with
    | ok h => exact ⟨(setup_hear _ _ _ _).trans hsetup, h.trans hlimit, hsteps⟩

/-- A limit of steps ends a search, since each round but the last counts a step. -/
theorem steps_converges {c : Termination sh} {limit : Nat} (hc : c.CapsSteps limit)
    {f : Nat → Nat} (hf : ∀ n, n ≤ f n) (last : Score sh) (s : Searching W S V sh)
    (hlimit : limitOf s = some c) (hends : s.1.setup.Ends) (hthreads : s.1.threads ≠ some 0) :
    Converges fun n => steps (f n) n last s := by
  induction hleft : limit - s.2.run.steps generalizing f last s with
  | zero =>
    have hover : s.2.isTerminated s.1.termination := by
      have hholds : c.holds s.2.run.progress := hc.holds (Nat.le_of_sub_eq_zero hleft)
      unfold Scope.isTerminated Run.isTerminated
      rw [show s.2.run.termination = some c from hlimit,
        show (some c).any (·.holds s.2.run.progress) = true from hholds, Bool.or_true, Bool.true_or]
    refine .succ ?_
    simp only [steps, Step.get_bind, hover]
    exact .ok _ _
  | succ k ih =>
    refine .succ ?_
    simp only [steps, Step.get_bind]
    cases s.2.isTerminated s.1.termination with
    | true => exact .ok _ _
    | false =>
      have hf' : ∀ n, n ≤ f (n + 1) := fun n => Nat.le_of_succ_le (hf (n + 1))
      have hstep : Converges fun n => step (f (n + 1)) last s :=
        (step_converges last s hends hthreads).comp hf'
      refine hstep.bind fun answer t n e => ?_
      obtain ⟨hsetup, hkept, hsteps⟩ := step_frame e
      have hends' : t.1.setup.Ends := hsetup ▸ hends
      have hthreads' : t.1.threads ≠ some 0 := by
        rwa [show t.1.threads = s.1.threads from congrArg Setup.threads hsetup]
      cases answer with
      | some a =>
        refine ih hf' a t (hkept.trans hlimit) hends' hthreads' ?_
        rw [hsteps]
        exact (Nat.sub_succ _ _).trans (congrArg Nat.pred hleft)
      | none =>
        dsimp only
        cases s.1.noAcceptedMove with
        | terminate => exact .ok _ _
        | proceed =>
          refine ih hf' last (t.1, t.2.countStep) (hkept.trans hlimit) hends' hthreads' ?_
          show limit - (t.2.run.steps + 1) = k
          rw [hsteps]
          exact (Nat.sub_succ _ _).trans (congrArg Nat.pred hleft)

theorem steps_limitOf {rounds : Nat} {x : Outcome × Score sh}
    (e : steps fuel rounds last s = .ok x t) : limitOf t = limitOf s := by
  induction rounds generalizing last s with
  | zero => cases e
  | succ rounds ih =>
    rw [steps, Step.get_bind] at e
    dsimp only at e
    split at e
    · cases e
      rfl
    obtain ⟨answer, s₁, hstep, e⟩ := Step.bind_eq_ok e
    have hkept := (step_frame hstep).2.1
    cases answer with
    | some a => exact (ih e).trans hkept
    | none =>
      dsimp only at e
      cases hpolicy : s.1.noAcceptedMove with
      | terminate =>
        rw [hpolicy] at e
        cases e
        exact hkept
      | proceed =>
        rw [hpolicy] at e
        exact (ih (s := (s₁.1, s₁.2.countStep)) e).trans hkept

omit [DecidableEq V] [ToString V] in
theorem opening_frame {start : Score sh} (e : opening s = .ok start t) :
    t.1.setup = s.1.setup ∧ limitOf t = limitOf s := by
  have hkept := frugal_opening s
  rw [e] at hkept
  refine ⟨?_, by cases hkept with | ok h => exact h⟩
  unfold opening at e
  rw [mapScope_bind] at e
  obtain ⟨a, _, hstart, e⟩ := Step.bind_eq_ok e
  obtain ⟨_, -, rfl⟩ := onRun_eq_ok hstart
  rw [mapScope_bind] at e
  obtain ⟨improved, _, honScope, hrest⟩ := Step.bind_eq_ok e
  obtain ⟨sc', -, rfl⟩ := Action.onPart_eq_ok honScope
  rw [fire_bind] at hrest
  cases hrest
  exact setup_hear _ _ _ _

theorem work_converges {c : Termination sh} {limit : Nat} (hc : c.CapsSteps limit)
    (s : Searching W S V sh) (hlimit : limitOf s = some c) (hends : s.1.setup.Ends)
    (hthreads : s.1.threads ≠ some 0) : Converges fun n => work n s := by
  simp only [work_eq]
  refine Converges.bind_finishes (frugal_opening s) fun start t e hkept => ?_
  have hsetup := (opening_frame e).1
  have hthreads' : t.1.threads ≠ some 0 := by
    rwa [show t.1.threads = s.1.threads from congrArg Setup.threads hsetup]
  refine Converges.bind (steps_converges hc Nat.le_refl start t (hkept.trans hlimit)
    (hsetup ▸ hends) hthreads') fun x u _ _ => ?_
  simp only [fire_bind]
  exact .ok _ _

theorem work_limitOf {o : Outcome} (e : work fuel s = .ok o t) : limitOf t = limitOf s := by
  rw [work_eq] at e
  obtain ⟨start, s₁, hopening, e⟩ := Step.bind_eq_ok e
  obtain ⟨x, s₂, hsteps, e⟩ := Step.bind_eq_ok e
  rw [fire_bind] at e
  cases e
  exact (steps_limitOf hsteps).trans (opening_frame hopening).2

end LocalSearch

end PlanSearch
