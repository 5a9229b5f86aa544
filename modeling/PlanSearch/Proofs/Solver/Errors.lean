import PlanSearch.Proofs.Lifecycle.Solve
import PlanSearch.Proofs.Phase.Errors
import PlanSearch.Proofs.Solver.Limits

/-!
# Errors of a solve

A solve checks its phases twice: all of them before it starts, and each again when it is about to
work. What the checks ask for does not change in between, so that the second check never fails. A
solve that is refused leaves everything as it was; one that has started reports no error but a broken
promise of the scores.

    p.Ready r.termination → errors of solve fuel (p, r) are corruptions      (SearchPhase.solve_corrupts)
    ¬solver.Admissible → the solve is refused, and nothing has changed               (solve_refused)
    solver.Admissible → the solve starts, and its errors are corruptions            (solve_corrupts)
-/

namespace PlanSearch

variable {P S V W α : Type} {sh : Shape}

theorem inSpan_corrupts {I : P → Prop} {x : Action (P × Scope W S sh) α}
    (h : Steadfast (InPhase I) x) (span : Span sh) {p : P} (hp : I p) (r : Run W S sh) :
    Finishes (fun _ _ => True) (fun f _ => f.Corrupts) (inSpan span x (p, r)) := by
  have hx := h (p, ⟨span, r⟩) hp
  unfold inSpan
  dsimp only
  generalize x (p, (⟨span, r⟩ : Scope W S sh)) = y at hx ⊢
  cases hx with
  | ok _ => exact .ok trivial
  | error hf => exact .error hf

/-! ## Phases -/

namespace SearchPhase

/-- The phase can work as it is set up, and it stops on its own unless there is a condition that ends
the run. -/
structure Ready (condition : Option (Termination sh)) (p : SearchPhase S V sh) : Prop where
  valid : p.validate = .ok ()
  stops : condition = none → p.needsTermination = false

variable [Plan S sh]

/-- Whether a phase is ready does not depend on what it has heard. -/
theorem ready_hear {condition : Option (Termination sh)} {p : SearchPhase S V sh} (e : Event)
    (plan : S) (a : Option (Score sh)) :
    (p.hear e plan a).Ready condition ↔ p.Ready condition := by
  have hvalid : (p.hear e plan a).validate = p.validate := by
    cases p with
    | construction p =>
      show Construction.validate (p.hear e) = p.validate
      unfold Construction.validate Construction.hear
      rw [List.isEmpty_map]
    | localSearch p =>
      exact LocalSearch.validate_congr rfl rfl (p.forager.canStopEarly_hear e)
  have hneeds : (p.hear e plan a).needsTermination = p.needsTermination := by
    cases p <;> rfl
  constructor
  · rintro ⟨h, h'⟩
    exact ⟨hvalid ▸ h, hneeds ▸ h'⟩
  · rintro ⟨h, h'⟩
    exact ⟨hvalid.trans h, fun hnone => hneeds.trans (h' hnone)⟩

omit [Plan S sh] in
theorem wrap_corrupts {f : P → SearchPhase S V sh} {y : EStateM.Result Failure (P × Run W S sh) α}
    (h : Finishes (fun _ _ => True) (fun f _ => f.Corrupts) y) :
    Finishes (fun _ _ => True) (fun f _ => f.Corrupts) (wrap f y) := by
  cases h with
  | ok _ => exact .ok trivial
  | error hf => exact .error hf

variable [Workspace W S sh] [DecidableEq V] [ToString V]

/-- A phase that is ready passes its own check, and then reports nothing but broken promises. -/
theorem solve_corrupts (fuel : Nat) {p : SearchPhase S V sh} {r : Run W S sh}
    (h : p.Ready r.termination) :
    Finishes (fun _ t => t.2.termination = r.termination) (fun f _ => f.Corrupts)
      (solve fuel (p, r)) := by
  have hsolve : Finishes (fun _ _ => True) (fun f _ => f.Corrupts) (solve fuel (p, r)) := by
    cases p with
    | construction p =>
      refine wrap_corrupts (f := construction) ?_
      unfold Construction.solve
      dsimp only
      rw [show p.validate = .ok () from h.valid]
      exact inSpan_corrupts Construction.steadfast_work _ rfl _
    | localSearch p =>
      refine wrap_corrupts (f := localSearch) ?_
      unfold LocalSearch.solve
      dsimp only
      rw [show p.validate = .ok () from h.valid]
      dsimp only
      split
      · next hneeds =>
        rw [Bool.and_eq_true, Option.isNone_iff_eq_none] at hneeds
        have hstops : p.needsTermination = false := h.stops hneeds.2
        rw [hneeds.1] at hstops
        cases hstops
      · exact inSpan_corrupts (I := AnyState) (LocalSearch.steadfast_work fuel) _ trivial _
  exact (hsolve.and fun o t e => solve_termination e).mono (fun _ _ ht => ht.2) fun _ _ hf => hf

end SearchPhase

namespace Solver

variable [Plan S sh] [Workspace W S sh] [DecidableEq V] [ToString V]
  {solver : Solver (SearchPhase S V sh) S sh} {w : W} {fuel : Nat}
  {p : SearchPhase S V sh} {ps : List (SearchPhase S V sh)} {r : Run W S sh}

theorem solvePhase_corrupts (fuel : Nat) (h : p.Ready r.termination) :
    Finishes (fun _ t => t.2.termination = r.termination) (fun f _ => f.Corrupts)
      (solvePhase fuel (p, r)) := by
  cases hterm : r.isTerminated with
  | true =>
    rw [solvePhase_of_terminated hterm]
    exact .ok rfl
  | false =>
    rw [solvePhase_of_not_terminated hterm]
    exact (SearchPhase.solve_corrupts fuel h).bind fun _ _ ht => .ok ht

/-- One phase after another finds the condition of the run as it was. -/
theorem solvePhases_corrupts (fuel : Nat) {r : Run W S sh}
    (h : ∀ p ∈ ps, p.Ready r.termination) :
    Finishes (fun _ t => t.2.termination = r.termination) (fun f _ => f.Corrupts)
      (forEachPhase (solvePhase fuel) (ps, r)) :=
  Finishes.forEachPhase (I := fun r' => r'.termination = r.termination)
    (fun p hp _ hr' => (solvePhase_corrupts fuel (hr' ▸ h p hp)).mono
      (fun _ _ ht => ht.trans hr') fun _ _ hf => hf) rfl

/-! ## The check before the start -/

/-- The action reports an error of the configuration and changes nothing. -/
def Refuses {σ α : Type} (x : Action σ α) (s : σ) : Prop :=
  ∃ message, x s = .error (.error (.configuration message)) s

theorem checkPhase_of_ready (h : p.Ready r.termination) : checkPhase (p, r) = .ok () (p, r) := by
  unfold checkPhase
  rw [Step.bind_ok (p.validate_ok h.valid r), Step.get_bind]
  dsimp only
  split
  · next hnone =>
    have hstops := h.stops (Option.isNone_iff_eq_none.1 hnone)
    show EStateM.bind SolvingPhase.needsTermination _ (p, r) = _
    simp only [EStateM.bind, SolvingPhase.needsTermination, hstops]
    rfl
  · rfl

theorem checkPhase_of_not_ready (h : ¬p.Ready r.termination) : Refuses checkPhase (p, r) := by
  unfold Refuses checkPhase
  cases hvalid : p.validate with
  | error e =>
    obtain ⟨message, rfl⟩ := SearchPhase.validate_configuration hvalid
    refine ⟨message, ?_⟩
    show EStateM.bind SolvingPhase.validate _ (p, r) = _
    unfold EStateM.bind
    rw [p.validate_failed hvalid]
  | ok =>
    rw [Step.bind_ok (p.validate_ok hvalid r), Step.get_bind]
    dsimp only
    have hneeds : r.termination = none ∧ p.needsTermination = true := by
      by_contra hcon
      refine h ⟨hvalid, fun hnone => ?_⟩
      cases hp : p.needsTermination with
      | false => rfl
      | true => exact absurd ⟨hnone, hp⟩ hcon
    rw [if_pos (Option.isNone_iff_eq_none.2 hneeds.1)]
    refine ⟨s!"{p.name} phase never stops on its own and the solver has no termination", ?_⟩
    show EStateM.bind SolvingPhase.needsTermination _ (p, r) = _
    simp only [EStateM.bind, SolvingPhase.needsTermination, hneeds.2]
    rfl

theorem checkPhases_of_ready (h : ∀ p ∈ ps, p.Ready r.termination) :
    forEachPhase checkPhase (ps, r) = .ok () (ps, r) := by
  induction ps with
  | nil => rw [forEachPhase]
  | cons p ps ih =>
    obtain ⟨hp, hrest⟩ := List.forall_mem_cons.1 h
    rw [forEachPhase_cons, checkPhase_of_ready hp]
    dsimp only [walkOn]
    rw [ih hrest]
    rfl

theorem checkPhases_of_not_ready (h : ∃ p ∈ ps, ¬p.Ready r.termination) :
    Refuses (forEachPhase checkPhase) (ps, r) := by
  induction ps with
  | nil =>
    obtain ⟨p, hp, -⟩ := h
    cases hp
  | cons p ps ih =>
    unfold Refuses
    rw [forEachPhase_cons]
    by_cases hp : p.Ready r.termination
    · obtain ⟨q, hq, hnot⟩ := h
      have hrest : ∃ q ∈ ps, ¬q.Ready r.termination := by
        rcases List.mem_cons.1 hq with rfl | hq
        · exact absurd hp hnot
        · exact ⟨q, hq, hnot⟩
      obtain ⟨message, hmessage⟩ := ih hrest
      refine ⟨message, ?_⟩
      rw [checkPhase_of_ready hp]
      dsimp only [walkOn]
      rw [hmessage]
      rfl
    · obtain ⟨message, hmessage⟩ := checkPhase_of_not_ready hp
      exact ⟨message, by rw [hmessage]; rfl⟩

/-! ## Solving -/

/-- The solver has phases, and all of them are ready for a run with the condition of the solver. -/
structure Admissible (solver : Solver (SearchPhase S V sh) S sh) : Prop where
  phases : solver.phases ≠ []
  ready : ∀ p ∈ solver.phases, p.Ready solver.termination

theorem opening_of_not_admissible (h : ¬solver.Admissible) (w : W) :
    Refuses opening (solver.phases, solver.newRun w) := by
  unfold Refuses opening
  rw [Step.get_bind]
  dsimp only
  split
  · exact ⟨_, rfl⟩
  · next hphases =>
    have hnot : ∃ p ∈ solver.phases, ¬p.Ready solver.termination := by
      by_contra hall
      push Not at hall
      exact h ⟨fun hnil => hphases (List.isEmpty_iff.2 hnil), hall⟩
    obtain ⟨message, hmessage⟩ := checkPhases_of_not_ready (r := solver.newRun w) hnot
    refine ⟨message, ?_⟩
    show EStateM.bind (forEachPhase checkPhase) _ _ = _
    unfold EStateM.bind
    rw [hmessage]

/-- Before the first phase works, the phases and the listeners were told of the start. -/
theorem opening_of_admissible (h : solver.Admissible) (w : W) :
    opening (solver.phases, solver.newRun w) = .ok ()
      (solver.phases.map (SearchPhase.hear .solvingStarted (Workspace.plan w) none),
        (solver.newRun w).start.announce
          (.event .solvingStarted ((solver.newRun w).start.context 0 0 none))) := by
  have hstarted : Finishes (fun _ _ => True) (fun _ _ => False)
      (opening (solver.phases, solver.newRun w)) := by
    unfold opening announce
    rw [Step.get_bind]
    dsimp only
    rw [if_neg fun hnil => h.phases (List.isEmpty_iff.1 hnil),
      Step.bind_ok (checkPhases_of_ready (r := solver.newRun w) h.ready), Step.modify_bind,
      Step.modify_bind]
    exact Finishes.forEachPhase (I := fun _ => True) (E := fun _ => False)
      (f := SolvingPhase.solvingStarted) (fun p _ r _ => .ok trivial) trivial
  cases e : opening (solver.phases, solver.newRun w) with
  | ok u t =>
    obtain ⟨ps, r⟩ := t
    obtain ⟨rfl, rfl⟩ := opening_eq_ok e
    rfl
  | error f t =>
    rw [e] at hstarted
    cases hstarted with
    | error hfalse => exact hfalse.elim

theorem closing_corrupts {failure : Option SolverError} (h : ∀ e ∈ failure, e.isCorruption)
    (s : List (SearchPhase S V sh) × Run W S sh) :
    Finishes (fun _ _ => True) (fun f _ => f.Corrupts) (closing failure s) :=
  (closing_told failure s.1 s.2).mono (fun _ _ _ => trivial) fun _ _ hf e he => h e (hf e he).1

theorem attempt_corrupts {σ : Type} {x : Action σ Unit} {s : σ} {Q : Unit → σ → Prop}
    (h : Finishes Q (fun f _ => f.Corrupts) (x s)) :
    Finishes (fun failure _ => ∀ e ∈ failure, e.isCorruption) (fun f _ => f.Corrupts)
      (attempt x s) := by
  unfold attempt
  generalize x s = y at h ⊢
  cases h with
  | ok _ => exact .ok nofun
  | @error f _ hf =>
    cases f with
    | error e =>
      refine .ok fun e' he' => ?_
      cases he'
      exact hf e rfl
    | fault f => exact .error hf
    | outOfFuel => exact .error hf

/-- **Errors of a solve.**  A solve that is not admissible is refused with an error of the
configuration; the phases, the workspace and the run are left as they were, so that nobody was told
of anything. An admissible one starts, which is the first thing that listeners are told of; then
neither its phases nor the solve as a whole report anything but broken promises of the scores. -/
theorem solve_reports (fuel : Nat) (solver : Solver (SearchPhase S V sh) S sh) (w : W) :
    (¬solver.Admissible → ∃ message, solver.solve fuel w =
        .error (.error (.configuration message)) (solver.phases, solver.newRun w)) ∧
      (solver.Admissible → ∃ ps r c,
        opening (solver.phases, solver.newRun w) = .ok () (ps, r) ∧
          r.trace = [.event .solvingStarted c] ∧ r.workspace = w ∧
          (∀ e t, forEachPhase (solvePhase fuel) (ps, r) = .error (.error e) t → e.isCorruption) ∧
          ∀ e t, solver.solve fuel w = .error (.error e) t → e.isCorruption) := by
  constructor
  · intro h
    obtain ⟨message, hmessage⟩ := opening_of_not_admissible h w
    refine ⟨message, ?_⟩
    unfold solve
    rw [work_eq]
    show EStateM.bind opening _ _ = _
    unfold EStateM.bind
    rw [hmessage]
  · intro h
    have hready : ∀ p ∈ solver.phases.map (SearchPhase.hear .solvingStarted (Workspace.plan w) none),
        p.Ready solver.termination :=
      List.forall_mem_map.2 fun p hp => (SearchPhase.ready_hear _ _ _).2 (h.ready p hp)
    have hphases := solvePhases_corrupts fuel (r := (solver.newRun w).start.announce
      (.event .solvingStarted ((solver.newRun w).start.context 0 0 none))) hready
    have hsolve : Finishes (fun _ _ => True) (fun f _ => f.Corrupts) (solver.solve fuel w) := by
      unfold solve
      rw [work_eq, Step.bind_ok (opening_of_admissible h w)]
      exact (attempt_corrupts hphases).bind fun _ t hfailure => closing_corrupts hfailure t
    refine ⟨_, _, _, opening_of_admissible h w, rfl, rfl, fun e t he => ?_, fun e t he => ?_⟩
    · rw [he] at hphases
      cases hphases with
      | error hf => exact hf e rfl
    · rw [he] at hsolve
      cases hsolve with
      | error hf => exact hf e rfl

end Solver

/-! ## A row -/

namespace Row

/-- A search that goes on where no move is accepted, in a run that nothing ends. -/
def boundless : Solver (SearchPhase Row Nat .simple) Row .simple where
  phases := [.localSearch { search with noAcceptedMove := .proceed }]

/-- A search without an end is refused; a score that does not keep its promise is the only thing
that `wary` complains about. -/
theorem solve_reports_wary :
    (∃ message, boundless.solve 5 swaying =
      .error (.error (.configuration message)) (boundless.phases, boundless.newRun swaying)) ∧
    ∃ error t, wary.solve 5 swaying = .error (.error error) t ∧ error.isCorruption := by
  constructor
  · refine (Solver.solve_reports 5 boundless swaying).1 fun h => ?_
    cases (h.ready _ List.mem_cons_self).stops rfl
  · have hadmissible : wary.Admissible :=
      ⟨List.cons_ne_nil _ _, List.forall_mem_singleton.2 ⟨rfl, fun _ => rfl⟩⟩
    obtain ⟨error, ps, r, e, -⟩ := wary_eq
    obtain ⟨_, _, _, -, -, -, -, hreports⟩ :=
      (Solver.solve_reports 5 wary swaying).2 hadmissible
    exact ⟨error, _, e, hreports _ _ e⟩

end Row

end PlanSearch
