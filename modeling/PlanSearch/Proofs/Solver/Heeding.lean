import PlanSearch.Proofs.Lifecycle.Record
import PlanSearch.Proofs.Phase.Heeding

/-!
# A solve that heeds its conditions

The conditions of a solver and of its phases may be asked from anywhere in a solve; what they are
asked about is what was reached by then.

    solver.solve fuel w = .ok x (ps, r) → solver.Paced fuel w r                        (solve_paced)
-/

namespace PlanSearch

variable {S V W : Type} {sh : Shape}

/-! ## Phases -/

namespace SearchPhase

/-- The condition of the phase. -/
def termination : SearchPhase S V sh → Option (Termination sh)
  | construction p => p.termination
  | localSearch p => p.termination

theorem termination_hear [Plan S sh] (e : Event) (plan : S) (a : Option (Score sh))
    (p : SearchPhase S V sh) : (p.hear e plan a).termination = p.termination := by
  cases p <;> rfl

variable [Plan S sh] [Workspace W S sh] [DecidableEq V] [ToString V] {g : Regime S sh}
  {fuel : Nat} {p p' : SearchPhase S V sh} {r r' : Run W S sh}

/-- The scopes in which the phase asks the conditions, at work on the run. -/
def polls (fuel : Nat) (r : Run W S sh) : SearchPhase S V sh → List (Scope W S sh)
  | construction p => p.phasePolls r
  | localSearch p => p.phasePolls fuel r

omit [Plan S sh] [Workspace W S sh] in
theorem entering (h : r.Heeding g) (hready : ¬g.isOver (unpublished r.trace)) :
    Scope.Entering g r.phases ⟨{ index := r.beginPhase.1 }, r.beginPhase.2⟩ where
  run := ⟨h.limit, h.listeners, h.asked, ⟨h.tallied.tally, h.tallied.best, h.tallied.elapsed⟩,
    h.heeded⟩
  index := rfl
  steps := rfl
  lastImprovement := rfl
  ready := hready

theorem solve_phases {o : Outcome} (e : solve fuel (p, r) = .ok o (p', r')) :
    r'.phases = r.phases + 1 := by
  have hpasses := solve_passes fuel p r
  rw [e] at hpasses
  obtain ⟨n, hpasses⟩ := hpasses
  exact congrArg Told.phases hpasses.told

omit [Plan S sh] [Workspace W S sh] [DecidableEq V] [ToString V] in
theorem wrap_eq_ok {P α : Type} {f : P → SearchPhase S V sh} {a : α}
    {y : EStateM.Result Failure (P × Run W S sh) α} (e : wrap f y = .ok a (p', r')) :
    ∃ q, y = .ok a (q, r') := by
  cases y with
  | error _ _ => cases e
  | ok a s =>
    cases e
    exact ⟨s.1, rfl⟩

/-- A phase at work heeds the conditions, if it ends as foreseen. -/
theorem solve_heeding (h : r.Heeding g) (hready : ¬g.isOver (unpublished r.trace))
    (hown : g.own[r.phases]? = some p.termination) {o : Outcome}
    (ho : g.outcome r.phases = some o) (e : solve fuel (p, r) = .ok o (p', r')) :
    r'.Heeding g ∧ unpublished r'.trace = r'.trace := by
  have hentering := entering h hready
  cases p with
  | construction p =>
    obtain ⟨q, hsolve⟩ := wrap_eq_ok (f := construction) e
    obtain ⟨sc, hwork, rfl⟩ := Construction.solve_eq_ok hsolve
    exact Construction.work_heeding hentering hown ho hwork
  | localSearch p =>
    obtain ⟨q, hsolve⟩ := wrap_eq_ok (f := localSearch) e
    obtain ⟨sc, hwork, rfl⟩ := LocalSearch.solve_eq_ok hsolve
    exact LocalSearch.work_heeding hentering hown ho hwork

theorem polls_tallied (h : r.Heeding g) (hready : ¬g.isOver (unpublished r.trace))
    (hown : g.own[r.phases]? = some p.termination) :
    ∀ sc ∈ p.polls fuel r, sc.Tallied g.idle := by
  have hentering := entering h hready
  cases p with
  | construction p =>
    show ∀ sc ∈ p.phasePolls r, _
    unfold Construction.phasePolls
    split
    · next start s hopening =>
      obtain ⟨h₁, htermination, -⟩ := Construction.opening_heeding hentering hopening
      exact Construction.polls_tallied h₁ (htermination ▸ hown)
    · exact nofun
  | localSearch p =>
    show ∀ sc ∈ p.phasePolls fuel r, _
    unfold LocalSearch.phasePolls
    split
    · next start s hopening =>
      obtain ⟨h₁, hsetup, -⟩ := LocalSearch.opening_heeding hentering hopening
      exact LocalSearch.polls_tallied h₁ (LocalSearch.own_of_setup hsetup hown)
    · exact nofun

end SearchPhase

/-! ## Walking through the phases -/

namespace Solver

variable [Plan S sh] [Workspace W S sh] [DecidableEq V] [ToString V] {g : Regime S sh}
  {fuel : Nat} {solver : Solver (SearchPhase S V sh) S sh} {w : W} {x : Solved S sh}
  {p : SearchPhase S V sh} {ps ps' : List (SearchPhase S V sh)} {r r' : Run W S sh}

/-- The scopes in which a phase asks the conditions at its turn. -/
def turnPolls (fuel : Nat) (p : SearchPhase S V sh) (r : Run W S sh) : List (Scope W S sh) :=
  if r.isTerminated then [] else p.polls fuel r

/-- The phases at their turns are those that `g` foresees, from the next one on. -/
structure Foreseen (g : Regime S sh) (fuel : Nat) (ps : List (SearchPhase S V sh))
    (r : Run W S sh) : Prop where
  own : ∀ j p, ps[j]? = some p → g.own[r.phases + j]? = some p.termination
  outcome : ∀ j, j < ps.length → g.outcome (r.phases + j) =
    ((atEach (solvePhase fuel) (stint fuel) ps r)[j]?.join).map Stint.outcome

theorem solvePhase_of_terminated (h : r.isTerminated) (p : SearchPhase S V sh) :
    solvePhase fuel (p, r) = .ok () (p, r) := by
  unfold solvePhase
  rw [Step.get_bind]
  dsimp only
  rw [h]
  rfl

theorem solvePhase_of_not_terminated (h : r.isTerminated = false) (p : SearchPhase S V sh) :
    solvePhase fuel (p, r) = (SearchPhase.solve fuel >>= fun _ => pure ()) (p, r) := by
  unfold solvePhase
  rw [Step.get_bind]
  dsimp only
  rw [h]
  rfl

/-- Once the run is over, nothing changes from turn to turn. -/
theorem atEach_of_terminated {α : Type} (h : r.isTerminated) (l : SearchPhase S V sh → Run W S sh → α)
    (ps : List (SearchPhase S V sh)) :
    atEach (solvePhase fuel) l ps r = ps.map fun p => l p r := by
  induction ps with
  | nil => rfl
  | cons p ps ih =>
    rw [atEach, solvePhase_of_terminated h p]
    exact congrArg (l p r :: ·) ih

/-- A phase that works is followed by the others. -/
theorem Foreseen.tail {o : Outcome} {p' : SearchPhase S V sh} (hg : Foreseen g fuel (p :: ps) r)
    (hterm : r.isTerminated = false) (e : SearchPhase.solve fuel (p, r) = .ok o (p', r')) :
    g.outcome r.phases = some o ∧ Foreseen g fuel ps r' := by
  have hphases := SearchPhase.solve_phases e
  have hsolve : solvePhase fuel (p, r) = .ok () (p', r') := by
    rw [solvePhase_of_not_terminated hterm]
    show EStateM.bind (SearchPhase.solve fuel) _ (p, r) = _
    unfold EStateM.bind
    rw [e]
    rfl
  have hstint : stint fuel p r = some ⟨r'.steps - r.steps, o⟩ := by
    unfold stint
    rw [hterm, e]
    rfl
  have hstints : atEach (solvePhase fuel) (stint fuel) (p :: ps) r =
      some ⟨r'.steps - r.steps, o⟩ :: atEach (solvePhase fuel) (stint fuel) ps r' := by
    rw [atEach, hsolve, hstint]
  refine ⟨?_, fun j q hj => ?_, fun j hj => ?_⟩
  · rw [← Nat.add_zero r.phases, hg.outcome 0 (Nat.succ_pos _), hstints]
    rfl
  · rw [hphases, Nat.add_assoc, Nat.add_comm 1 j]
    exact hg.own (j + 1) q hj
  · rw [hphases, Nat.add_assoc, Nat.add_comm 1 j, hg.outcome (j + 1) (Nat.succ_lt_succ hj), hstints]
    rfl

/-- What is known of the run at each turn, and of each scope in which the conditions are asked. -/
structure TurnsTallied (g : Regime S sh) (fuel : Nat) (ps : List (SearchPhase S V sh))
    (r : Run W S sh) : Prop where
  turns : ∀ run ∈ atEach (solvePhase fuel) (fun _ run => run) ps r, run.Tallied g.idle
  polls : ∀ scs ∈ atEach (solvePhase fuel) (turnPolls fuel) ps r, ∀ sc ∈ scs, sc.Tallied g.idle

theorem turnsTallied_of_terminated (h : r.Heeding g) (hterm : r.isTerminated)
    (ps : List (SearchPhase S V sh)) : TurnsTallied g fuel ps r := by
  refine ⟨fun run hrun => ?_, fun scs hscs => ?_⟩
  · rw [atEach_of_terminated hterm] at hrun
    obtain ⟨_, -, rfl⟩ := List.mem_map.1 hrun
    exact h.tallied
  · rw [atEach_of_terminated hterm] at hscs
    obtain ⟨p, -, rfl⟩ := List.mem_map.1 hscs
    unfold turnPolls
    rw [if_pos hterm]
    exact nofun

theorem solvePhases_heeding (hg : Foreseen g fuel ps r) (h : r.Heeding g)
    (hboundary : unpublished r.trace = r.trace)
    (e : forEachPhase (solvePhase fuel) (ps, r) = .ok () (ps', r')) :
    r'.Heeding g ∧ TurnsTallied g fuel ps r := by
  induction ps generalizing r ps' with
  | nil =>
    rw [forEachPhase] at e
    cases e
    exact ⟨h, List.forall_mem_nil _, List.forall_mem_nil _⟩
  | cons p ps ih =>
    cases hterm : r.isTerminated with
    | true =>
      obtain rfl := solvePhases_terminated hterm e
      exact ⟨h, turnsTallied_of_terminated h hterm _⟩
    | false =>
      obtain ⟨p', r₁, ps'', hsolve, hrest, rfl⟩ := forEachPhase_cons_eq_ok e
      have hturn := hsolve
      rw [solvePhase_of_not_terminated hterm] at hturn
      obtain ⟨o, _, hphase, hpure⟩ := Step.bind_eq_ok hturn
      cases hpure
      have hready : ¬g.isOver (unpublished r.trace) := by
        rw [h.isTerminated, Bool.or_eq_false_iff] at hterm
        rw [hboundary, hterm.2]
        exact Bool.false_ne_true
      have hown : g.own[r.phases]? = some p.termination := hg.own 0 p rfl
      obtain ⟨ho, hrestForeseen⟩ := hg.tail hterm hphase
      obtain ⟨h₁, hboundary₁⟩ := SearchPhase.solve_heeding h hready hown ho hphase
      obtain ⟨h', hturns⟩ := ih hrestForeseen h₁ hboundary₁ hrest
      refine ⟨h', ?_, ?_⟩
      · rw [atEach, hsolve]
        exact List.forall_mem_cons.2 ⟨h.tallied, hturns.turns⟩
      · rw [atEach, hsolve]
        refine List.forall_mem_cons.2 ⟨?_, hturns.polls⟩
        unfold turnPolls
        rw [hterm]
        exact SearchPhase.polls_tallied h hready hown

/-! ## Solving -/

/-- The conditions of a solve, and how its phases ended. -/
def regime (fuel : Nat) (solver : Solver (SearchPhase S V sh) S sh) (w : W) : Regime S sh where
  limit := solver.termination
  own := solver.phases.map SearchPhase.termination
  outcome i := ((solver.stints fuel w)[i]?.join).map Stint.outcome
  listeners := solver.listeners
  stopRequested := solver.stopRequested

/-- The runs in which the condition of the solver is asked before phases. -/
def turns (fuel : Nat) (solver : Solver (SearchPhase S V sh) S sh) (w : W) : List (Run W S sh) :=
  match opening (solver.phases, solver.newRun w) with
  | .ok _ s => atEach (solvePhase fuel) (fun _ run => run) s.1 s.2
  | .error _ _ => []

/-- The scopes in which both conditions are asked before steps. -/
def polls (fuel : Nat) (solver : Solver (SearchPhase S V sh) S sh) (w : W) :
    List (Scope W S sh) :=
  match opening (solver.phases, solver.newRun w) with
  | .ok _ s => (atEach (solvePhase fuel) (turnPolls fuel) s.1 s.2).flatten
  | .error _ _ => []

theorem opening_heeding (g : Regime S sh) (hlimit : g.limit = solver.termination)
    (hlisteners : g.listeners = solver.listeners) (hstop : g.stopRequested = solver.stopRequested)
    (e : opening (solver.phases, solver.newRun w) = .ok () (ps, r)) :
    r.Heeding g ∧ unpublished r.trace = r.trace ∧
      List.Forall₂ (fun p p' => p'.termination = p.termination) solver.phases ps := by
  obtain ⟨rfl, rfl⟩ := opening_eq_ok e
  have hstart : (solver.newRun w).start.Heeding g :=
    ⟨hlimit.symm, hlisteners.symm, hstop.symm, ⟨⟨rfl, rfl⟩, rfl, rfl⟩, .nil _⟩
  refine ⟨hstart.announce trivial (.begin _ _ _ _), rfl, ?_⟩
  rw [List.forall₂_map_right_iff]
  exact List.forall₂_same.2 fun p _ => p.termination_hear _ _ _

omit [DecidableEq V] [ToString V] in
theorem conclude_heeding (h : r.Heeding g) (e : conclude r = .ok x r') : r'.Heeding g := by
  have hanswering : ∀ {r₁ : Run W S sh}, r₁.Heeding g → answering r₁ = .ok x r' → r'.Heeding g := by
    intro r₁ h₁ e
    unfold answering at e
    rw [Step.get_bind] at e
    cases hbest : r₁.bestScore with
    | some a =>
      rw [hbest] at e
      cases e
      exact h₁
    | none =>
      rw [hbest] at e
      obtain ⟨a, r₂, hscore, e⟩ := Step.bind_eq_ok e
      cases e
      obtain ⟨w, -, rfl⟩ := Run.onWorkspace_eq_ok hscore
      exact h₁.tries ⟨rfl, rfl⟩
  rw [conclude_eq] at e
  split at e
  · obtain ⟨improved, r₁, hbest, e⟩ := Step.bind_eq_ok e
    exact hanswering (h.updateBest hbest) e
  · exact hanswering h e

theorem closing_heeding (h : r.Heeding g) (e : closing none (ps, r) = .ok x (ps', r')) :
    r'.Heeding g := by
  unfold closing at e
  obtain ⟨_, ⟨ps₁, r₁⟩, hended, e⟩ := Step.bind_eq_ok e
  obtain ⟨_, ⟨ps₂, r₂⟩, hannounce, e⟩ := Step.bind_eq_ok e
  obtain ⟨-, rfl⟩ := forEachPhaseBackward_run solvingEnded_eq_ok hended
  cases hannounce
  obtain ⟨r₃, hconclude, hr₃⟩ := Action.onPart_eq_ok e
  obtain ⟨-, rfl⟩ := Prod.mk.inj hr₃
  have htold : (r₁.announce (.event .solvingEnded (r₁.context 0 0 r₁.bestScore))).Heeding g :=
    h.announce trivial (h.tallied.tally.pass nofun fun _ => rfl)
  exact conclude_heeding htold hconclude

/-- A solve that succeeds heeded its conditions and counted right wherever it asked them. -/
theorem solve_heeding (e : solver.solve fuel w = .ok x (ps, r)) :
    r.Heeding (solver.regime fuel w) ∧
      (∀ run ∈ solver.turns fuel w, run.Tallied (solver.regime fuel w).idle) ∧
      ∀ sc ∈ solver.polls fuel w, sc.Tallied (solver.regime fuel w).idle := by
  unfold solve at e
  rw [work_eq] at e
  obtain ⟨_, ⟨ps₁, r₁⟩, hopening, e⟩ := Step.bind_eq_ok e
  obtain ⟨failure, ⟨ps₂, r₂⟩, hattempt, e⟩ := Step.bind_eq_ok e
  obtain ⟨h₁, hboundary, hterminations⟩ :=
    opening_heeding (solver.regime fuel w) rfl rfl rfl hopening
  have hphases : r₁.phases = 0 := (opening_told hopening).2.2
  have hforeseen : Foreseen (solver.regime fuel w) fuel ps₁ r₁ := by
    refine ⟨fun j p hj => ?_, fun j _ => ?_⟩
    · obtain ⟨hlt, rfl⟩ := List.getElem?_eq_some_iff.1 hj
      have hlt' : j < solver.phases.length := hterminations.length_eq ▸ hlt
      have hsame := (List.forall₂_iff_get.1 hterminations).2 j hlt' hlt
      rw [hphases, Nat.zero_add]
      show (solver.phases.map SearchPhase.termination)[j]? = _
      rw [List.getElem?_map, List.getElem?_eq_getElem hlt']
      exact congrArg some hsame.symm
    · rw [hphases, Nat.zero_add]
      show ((solver.stints fuel w)[j]?.join).map Stint.outcome = _
      unfold stints
      rw [hopening]
  cases failure with
  | some error =>
    have hclosing := closing_told (some error) ps₂ r₂
    rw [e] at hclosing
    cases hclosing with
    | ok h => cases h.1
  | none =>
    obtain ⟨h₂, hturns⟩ :=
      solvePhases_heeding hforeseen h₁ hboundary (attempt_eq_ok_none hattempt)
    refine ⟨closing_heeding h₂ e, ?_, ?_⟩
    · unfold turns
      rw [hopening]
      exact hturns.turns
    · unfold polls
      rw [hopening]
      intro sc hsc
      obtain ⟨scs, hscs, hmem⟩ := List.mem_flatten.1 hsc
      exact hturns.polls scs hscs sc hmem

/-- The phases of a solve that ended for want of an accepted move; their last step does not count. -/
def idle (fuel : Nat) (solver : Solver (SearchPhase S V sh) S sh) (w : W) (i : Nat) : Bool :=
  ((solver.stints fuel w)[i]?.join).map Stint.outcome = some .noAcceptedMove

/-- The conditions of the solver and of its phases, asked about the steps completed since solving
or the phase started, about those completed since the best plan last improved and about its score,
decide what starts and what ends. All of this is worked out from what listeners were told. -/
structure Paced (fuel : Nat) (solver : Solver (SearchPhase S V sh) S sh) (w : W)
    (r : Run W S sh) : Prop where
  /-- When a step starts, neither the condition of the solver nor that of the phase holds. -/
  step : ∀ c earlier, .event .stepStarted c :: earlier <:+ r.trace →
    ∃ p, solver.phases[c.phaseIndex]? = some p ∧
      ¬solver.termination.any (·.holds (reached .solvingStarted (solver.idle fuel w) earlier)) ∧
      ¬p.termination.any (·.holds (reached .phaseStarted (solver.idle fuel w) earlier))
  /-- When a phase starts, the condition of the solver does not hold. -/
  phase : ∀ c earlier, .event .phaseStarted c :: earlier <:+ r.trace →
    ¬solver.termination.any
      (·.holds (reached .solvingStarted (solver.idle fuel w) (unpublished earlier)))
  /-- When a phase that was terminated ends and nobody asked the run to stop, one of the two
  holds. -/
  ended : r.stopRequested = false →
    ∀ c earlier, .event .phaseEnded c :: earlier <:+ r.trace →
    ∀ stint, (solver.stints fuel w)[c.phaseIndex]? = some (some stint) →
    stint.outcome = .terminated →
      solver.termination.any
        (·.holds (reached .solvingStarted (solver.idle fuel w) (unpublished earlier))) ∨
      ∃ p, solver.phases[c.phaseIndex]? = some p ∧ p.termination.any
        (·.holds (reached .phaseStarted (solver.idle fuel w) (unpublished earlier)))
  /-- Before a phase, steps without improvement are a difference of counters that is no less than
  zero. -/
  turns : ∀ run ∈ solver.turns fuel w, run.lastImprovement ≤ run.steps
  /-- So they are before a step, in the run and in the phase. -/
  polls : ∀ sc ∈ solver.polls fuel w,
    sc.run.lastImprovement ≤ sc.run.steps ∧ sc.span.lastImprovement ≤ sc.span.steps

theorem solve_paced (e : solver.solve fuel w = .ok x (ps, r)) : solver.Paced fuel w r := by
  obtain ⟨h, hturns, hpolls⟩ := solve_heeding e
  have hown : ∀ i, (solver.regime fuel w).own[i]? = solver.phases[i]?.map SearchPhase.termination :=
    fun i => List.getElem?_map
  refine ⟨fun c earlier hsuffix => ?_, fun c earlier hsuffix => ?_,
    fun hstop c earlier hsuffix stint hstint hterminated => ?_, fun run hrun => ?_,
    fun sc hsc => ?_⟩
  · obtain ⟨hlt, hover, hphase⟩ := h.heeded _ _ hsuffix
    have hlt : c.phaseIndex < solver.phases.length := by
      rwa [← List.length_map SearchPhase.termination]
    refine ⟨_, List.getElem?_eq_getElem hlt, hover, ?_⟩
    unfold Regime.isPhaseOver at hphase
    rw [hown, List.getElem?_eq_getElem hlt] at hphase
    exact hphase
  · exact h.heeded _ _ hsuffix
  · have houtcome : (solver.regime fuel w).outcome c.phaseIndex = some .terminated := by
      show ((solver.stints fuel w)[c.phaseIndex]?.join).map Stint.outcome = _
      rw [hstint]
      exact congrArg some hterminated
    have hearlier : unpublished earlier <:+ r.trace :=
      ((List.dropWhile_suffix _).trans (List.suffix_cons _ _)).trans hsuffix
    rcases h.heeded _ _ hsuffix houtcome with hasked | hover | hphase
    · rw [Regime.not_asked_of_suffix hearlier (h.asked ▸ hstop)] at hasked
      cases hasked
    · exact .inl hover
    · unfold Regime.isPhaseOver at hphase
      rw [hown] at hphase
      cases hp : solver.phases[c.phaseIndex]? with
      | none =>
        rw [hp] at hphase
        cases hphase
      | some p =>
        rw [hp] at hphase
        exact .inr ⟨p, rfl, hphase⟩
  · exact (hturns run hrun).tally.le
  · exact ⟨(hpolls sc hsc).run.tally.le, (hpolls sc hsc).span.le⟩

end Solver

end PlanSearch
