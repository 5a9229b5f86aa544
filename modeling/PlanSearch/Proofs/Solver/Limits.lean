import PlanSearch.Proofs.Phase.Convergence
import PlanSearch.Proofs.Solver.Heeding

/-!
# Limits of steps

A limit of steps, alone or among the conditions any of which ends a solve, bounds the steps that are
counted over all phases. It also makes the solve end: each phase does, for it either is a
construction or heeds the limit.

    c.CapsSteps limit → Converges fun n => SearchPhase.solve n (p, r)      (SearchPhase.solve_converges)
    c.CapsSteps limit → Converges fun n => solver.solve n w                (solve_converges)
    the conditions are heeded, and a limit of steps ends the solve         (solve_heeds_conditions)
-/

namespace PlanSearch

variable {P R S V W α γ : Type} {sh : Shape}

/-! ## Walking through phases -/

theorem Frugal.forEachPhase {view : R → γ} {f : Action (P × R) Unit}
    (h : Frugal (fun s => view s.2) f) : Frugal (fun s => view s.2) (forEachPhase f) := fun s =>
  Solver.Finishes.forEachPhase (I := fun r => view r = view s.2)
    (fun p _ r hr => (h (p, r)).mono (fun _ _ ht => ht.trans hr) fun _ _ hf => hf) rfl

/-- The answer of a walk through the phases after `p`, put behind `p`. -/
def behind (p : P) :
    EStateM.Result Failure (List P × R) Unit → EStateM.Result Failure (List P × R) Unit
  | .error e (ps, r) => .error e (p :: ps, r)
  | .ok () (ps, r) => .ok () (p :: ps, r)

/-- The walk through `ps` goes on from the answer of the phase before them. -/
def walkOn (f : Action (P × R) Unit) (ps : List P) :
    EStateM.Result Failure (P × R) Unit → EStateM.Result Failure (List P × R) Unit
  | .error e (p, r) => .error e (p :: ps, r)
  | .ok () (p, r) => behind p (forEachPhase f (ps, r))

theorem forEachPhase_cons (f : Action (P × R) Unit) (p : P) (ps : List P) (r : R) :
    forEachPhase f (p :: ps, r) = walkOn f ps (f (p, r)) := by
  rw [forEachPhase]
  cases f (p, r) with
  | error e s => rfl
  | ok a s =>
    show _ = behind s.1 (forEachPhase f (ps, s.2))
    dsimp only
    cases forEachPhase f (ps, s.2) <;> rfl

/-- A walk through phases converges if each phase does, whatever the phases before it made of the
run. -/
theorem Converges.forEachPhase {f : Nat → Action (P × R) Unit} {I : P → Prop} {J : R → Prop}
    (hf : ∀ p r, I p → J r → Converges fun n => f n (p, r))
    (hJ : ∀ {n p r p' r'}, J r → f n (p, r) = .ok () (p', r') → J r') {ps : List P}
    (hps : ∀ p ∈ ps, I p) {r : R} (hr : J r) : Converges fun n => forEachPhase (f n) (ps, r) := by
  induction ps generalizing r with
  | nil =>
    simp only [PlanSearch.forEachPhase]
    exact .ok _ _
  | cons p ps ih =>
    obtain ⟨hp, hrest⟩ := List.forall_mem_cons.1 hps
    simp only [forEachPhase_cons]
    refine (hf p r hp hr).andThen (f := fun n => walkOn (f n) ps) (fun n _ s e => ?_)
      fun e s he => .error he _
    exact (ih hrest (hJ hr e)).andThen (f := fun _ => behind s.1) (fun _ _ t _ => .ok _ _)
      fun e t he => .error he _

/-! ## Phases -/

theorem inSpan_converges {span : Span sh} {x : Nat → Action (P × Scope W S sh) α} {p : P}
    {r : Run W S sh} (h : Converges fun n => x n (p, ⟨span, r⟩)) :
    Converges fun n => inSpan span (x n) (p, r) :=
  h.andThen (f := fun _ y => inSpan span (fun _ => y) (p, r)) (fun _ _ _ _ => .ok _ _)
    fun _ _ he => .error he _

namespace SearchPhase

variable [Plan S sh] [Workspace W S sh] [DecidableEq V] [ToString V] {c : Termination sh}
  {limit fuel : Nat} {p p' : SearchPhase S V sh} {r r' : Run W S sh}

/-- Candidates that are scored by workers have a worker. -/
def Staffed : SearchPhase S V sh → Prop
  | construction _ => True
  | localSearch p => p.threads ≠ some 0

theorem solve_termination {o : Outcome} (e : solve fuel (p, r) = .ok o (p', r')) :
    r'.termination = r.termination := by
  cases p with
  | construction p =>
    obtain ⟨q, hsolve⟩ := wrap_eq_ok (f := construction) e
    obtain ⟨sc, hwork, rfl⟩ := Construction.solve_eq_ok hsolve
    have hkept := Construction.frugal_work (p, ⟨{ index := r.beginPhase.1 }, r.beginPhase.2⟩)
    rw [hwork] at hkept
    cases hkept with
    | ok h => exact h
  | localSearch p =>
    obtain ⟨q, hsolve⟩ := wrap_eq_ok (f := localSearch) e
    obtain ⟨sc, hwork, rfl⟩ := LocalSearch.solve_eq_ok hsolve
    exact LocalSearch.work_limitOf hwork

omit [Plan S sh] [Workspace W S sh] [DecidableEq V] [ToString V] in
theorem wrap_converges {f : P → SearchPhase S V sh}
    {x : Nat → EStateM.Result Failure (P × Run W S sh) α} (h : Converges x) :
    Converges fun n => wrap f (x n) :=
  h.andThen (f := fun _ => wrap f) (fun _ _ _ _ => .ok _ _) fun _ _ he => .error he _

/-- A phase that checks itself before it works ends if a limit of steps ends the run. -/
theorem solve_converges (hc : c.CapsSteps limit) (hlimit : r.termination = some c)
    (hp : p.Staffed) : Converges fun n => solve n (p, r) := by
  cases p with
  | construction p =>
    refine wrap_converges (f := construction) (x := fun _ => Construction.solve (p, r)) ?_
    unfold Construction.solve
    dsimp only
    split
    · exact .error (Failure.error_ne_outOfFuel _) _
    · exact .of_finishes (inSpan_finishes Construction.frugal_work _ _ _)
  | localSearch p =>
    refine wrap_converges (f := localSearch) (x := fun n => LocalSearch.solve n (p, r)) ?_
    unfold LocalSearch.solve
    dsimp only
    cases hvalid : p.validate with
    | error e => exact .error (Failure.error_ne_outOfFuel _) _
    | ok =>
      dsimp only
      split
      · exact .error (Failure.error_ne_outOfFuel _) _
      · exact inSpan_converges (LocalSearch.work_converges hc _ hlimit
          (LocalSearch.ends_of_validate hvalid) hp)

omit [Workspace W S sh] [DecidableEq V] [ToString V] in
theorem staffed_hear (e : Event) (plan : S) (a : Option (Score sh)) :
    (p.hear e plan a).Staffed ↔ p.Staffed := by
  cases p <;> rfl

end SearchPhase

/-! ## Solving -/

namespace Solver

variable [Plan S sh] [Workspace W S sh] [DecidableEq V] [ToString V] {c : Termination sh}
  {limit fuel : Nat} {solver : Solver (SearchPhase S V sh) S sh} {w : W}
  {p p' : SearchPhase S V sh} {ps ps' : List (SearchPhase S V sh)} {r r' : Run W S sh}

theorem frugal_checkPhase :
    Frugal (fun s => s.2.termination) (checkPhase : Action (SearchPhase S V sh × Run W S sh) Unit) := by
  unfold checkPhase
  have hvalidate : Frugal (fun s => s.2.termination)
      (SolvingPhase.validate : Action (SearchPhase S V sh × Run W S sh) Unit) := fun ⟨p, r⟩ => by
    cases hvalid : p.validate with
    | ok =>
      rw [p.validate_ok hvalid]
      exact .ok rfl
    | error e =>
      rw [p.validate_failed hvalid]
      exact .error (Failure.error_ne_outOfFuel e)
  have hneeds : Frugal (fun s => s.2.termination)
      (SolvingPhase.needsTermination : Action (SearchPhase S V sh × Run W S sh) Bool) :=
    fun _ => .ok rfl
  refine hvalidate.bind fun _ => Frugal.get.bind fun s => ?_
  dsimp only
  split
  · refine hneeds.bind fun needs => ?_
    split
    · exact .error _
    · exact .ok _
  · exact .ok _

theorem frugal_opening : Frugal (fun s => s.2.termination)
    (opening : Action (List (SearchPhase S V sh) × Run W S sh) Unit) := by
  have hstarted : Frugal (fun s => s.2.termination)
      (SolvingPhase.solvingStarted : Action (SearchPhase S V sh × Run W S sh) Unit) :=
    fun _ => .ok rfl
  unfold opening announce
  refine Frugal.get.bind fun s => ?_
  dsimp only
  split
  · exact .error _
  refine frugal_checkPhase.forEachPhase.bind fun _ => ?_
  refine .bind (.modify fun _ => rfl) fun _ => ?_
  exact .bind (.modify fun _ => rfl) fun _ => hstarted.forEachPhase

omit [DecidableEq V] [ToString V] in
theorem frugal_conclude :
    Frugal (Run.termination : Run W S sh → _) (conclude : Action _ (Solved S sh)) := fun r => by
  have hanswering : Frugal (Run.termination : Run W S sh → _)
      (answering : Action _ (Solved S sh)) := by
    unfold answering
    refine Frugal.get.bind fun r => ?_
    have hrest : ∀ a, Frugal (Run.termination : Run W S sh → _) (answeringWith a) :=
      fun a => Frugal.get.bind fun _ => .ok _
    cases r.bestScore with
    | some a => exact hrest a
    | none => exact Run.frugal_scoreNow.bind hrest
  rw [conclude_eq]
  split
  · exact (Run.frugal_updateBest.bind fun _ => hanswering) r
  · exact hanswering r

theorem frugal_closing (failure : Option SolverError) : Frugal (fun s => s.2.termination)
    (closing failure : Action (List (SearchPhase S V sh) × Run W S sh) (Solved S sh)) := by
  have hended : Frugal (fun s => s.2.termination) (forEachPhaseBackward SolvingPhase.solvingEnded :
      Action (List (SearchPhase S V sh) × Run W S sh) Unit) := fun s =>
    (solvingEnded_told s.1 s.2).mono (fun _ _ h => congrArg Run.termination h.2) fun _ _ h => h.elim
  unfold closing announce
  refine hended.bind fun _ => .bind (.modify fun _ => rfl) fun _ => ?_
  cases failure with
  | some e => exact .error e
  | none => exact frugal_conclude.onPart _ fun _ _ h => h

omit [Plan S sh] [Workspace W S sh] [DecidableEq V] [ToString V] in
theorem attempt_converges {σ : Type} {x : Nat → Action σ Unit} {s : σ}
    (h : Converges fun n => x n s) : Converges fun n => attempt (x n) s := by
  refine h.andThen (f := fun _ y => attempt (fun _ => y) s) (fun _ _ _ _ => .ok _ _) fun f t hf => ?_
  cases f with
  | error e => exact .ok _ _
  | fault f => exact .error hf t
  | outOfFuel => exact .error hf t

theorem solvePhase_converges (hc : c.CapsSteps limit) (hp : p.Staffed)
    (hlimit : r.termination = some c) : Converges fun n => solvePhase n (p, r) := by
  cases hterm : r.isTerminated with
  | true =>
    simp only [solvePhase_of_terminated hterm]
    exact .ok _ _
  | false =>
    simp only [solvePhase_of_not_terminated hterm]
    exact (SearchPhase.solve_converges hc hlimit hp).bind fun _ _ _ _ => .ok _ _

theorem solvePhase_termination (e : solvePhase fuel (p, r) = .ok () (p', r')) :
    r'.termination = r.termination := by
  rcases solvePhase_eq_ok e with ⟨-, rfl⟩ | ⟨o, hsolve⟩
  · rfl
  · exact SearchPhase.solve_termination hsolve

/-- If a limit of steps ends the run, a solve of phases that have their workers ends. -/
theorem solve_converges (hc : c.CapsSteps limit) (hlimit : solver.termination = some c)
    (hphases : ∀ p ∈ solver.phases, p.Staffed) (w : W) : Converges fun n => solver.solve n w := by
  unfold solve
  simp only [work_eq]
  refine .bind_finishes (frugal_opening _) fun _ t hopening hkept => ?_
  obtain ⟨ps, r⟩ := t
  obtain ⟨rfl, -⟩ := opening_eq_ok hopening
  refine .bind (attempt_converges ?_) fun failure u _ _ => .of_finishes (frugal_closing failure u)
  refine .forEachPhase (I := SearchPhase.Staffed) (J := fun r => r.termination = some c)
    (fun p r hp hr => solvePhase_converges hc hp hr)
    (fun hr e => (solvePhase_termination e).trans hr) ?_ (hkept.trans hlimit)
  exact List.forall_mem_map.2 fun p hp => (SearchPhase.staffed_hear _ _ _).2 (hphases p hp)

/-- A limit of steps is one for all phases together. -/
theorem solve_steps_le (hc : c.CapsSteps limit) (hlimit : solver.termination = some c)
    {x : Solved S sh} (e : solver.solve fuel w = .ok x (ps, r)) : r.steps ≤ limit := by
  obtain ⟨h, -, -⟩ := solve_heeding e
  rw [← h.tallied.tally.steps]
  exact Regime.completed_le (g := solver.regime fuel w) hlimit hc h.heeded

/-- A solve heeds the conditions of the solver and of its phases. If that of the solver is a limit
of steps, or has one among those of which any suffices, no more than these are counted over all
phases, and the solve ends with enough fuel. (`LocalSearch.withThreads` turns down a search without
workers.) -/
theorem solve_heeds_conditions (solver : Solver (SearchPhase S V sh) S sh) (w : W) :
    (∀ fuel x ps r, solver.solve fuel w = .ok x (ps, r) → solver.Paced fuel w r) ∧
      ∀ limit c, solver.termination = some c → c.CapsSteps limit →
        (∀ fuel x ps r, solver.solve fuel w = .ok x (ps, r) → r.steps ≤ limit) ∧
          ((∀ p ∈ solver.phases, p.Staffed) → Converges fun fuel => solver.solve fuel w) :=
  ⟨fun _ _ _ _ e => solve_paced e, fun _ _ hlimit hc =>
    ⟨fun _ _ _ _ e => solve_steps_le hc hlimit e, fun hphases => solve_converges hc hlimit hphases w⟩⟩

end Solver

/-! ## A row -/

namespace Row

/-- Places sevens from the left, and then makes steps in which nothing is accepted, until there were
five steps. -/
def enduring : Solver (SearchPhase Row Nat .simple) Row .simple where
  phases :=
    [.construction (.firstFit [{ entityClass := "Row", cell := cell, range := .listed [7] }]),
      .localSearch { search with noAcceptedMove := .proceed }]
  termination := some (.any [.unimproved 9, .steps 5])

/-- Two of the five steps are those of the construction. -/
theorem solve_heeds_enduring : ∃ (x : Solved Row .simple) (ps : List (SearchPhase Row Nat .simple))
    (r : Run (RecomputingWorkspace Row .simple) Row .simple),
    enduring.solve 9 (workspace [none, none, some 7]) = .ok x (ps, r) ∧
      enduring.stints 9 (workspace [none, none, some 7]) =
        [some ⟨2, .completed⟩, some ⟨3, .terminated⟩] ∧
      enduring.Paced 9 (workspace [none, none, some 7]) r ∧ r.steps ≤ 5 ∧
      Converges fun fuel => enduring.solve fuel (workspace [none, none, some 7]) := by
  have hok : (match enduring.solve 9 (workspace [none, none, some 7]) with
      | .ok _ _ => true
      | .error _ _ => false) = true := by decide +kernel
  have hstints : enduring.stints 9 (workspace [none, none, some 7]) =
      [some ⟨2, .completed⟩, some ⟨3, .terminated⟩] := by decide +kernel
  have hcaps : (Termination.any [.unimproved 9, .steps 5] : Termination .simple).CapsSteps 5 :=
    List.mem_cons_of_mem _ List.mem_cons_self
  have hstaffed : ∀ p ∈ enduring.phases, p.Staffed :=
    List.forall_mem_cons.2 ⟨trivial, List.forall_mem_singleton.2 nofun⟩
  obtain ⟨hpaced, hlimits⟩ :=
    Solver.solve_heeds_conditions enduring (workspace [none, none, some 7])
  obtain ⟨hsteps, hends⟩ := hlimits 5 _ rfl hcaps
  cases e : enduring.solve 9 (workspace [none, none, some 7]) with
  | error f s =>
    rw [e] at hok
    cases hok
  | ok x s =>
    obtain ⟨ps, r⟩ := s
    exact ⟨x, ps, r, rfl, hstints, hpaced _ _ _ _ e, hsteps _ _ _ _ e, hends hstaffed⟩

end Row

end PlanSearch
