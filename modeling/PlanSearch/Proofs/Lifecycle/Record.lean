import PlanSearch.Proofs.Lifecycle.Phase
import PlanSearch.Proofs.Mirror.Solver

/-!
# What a solve tells of

Each phase has its part in the events of a solve: it is skipped, it goes through some steps, or it
breaks off in one of them. What listeners were told of is the parts of all phases, within the start
and the end of solving; what the leaves of a phase heard is its own part, within the same.

    solve (p, r) ends → p and r were told of the whole phase, or of it up to a step    (solve_passes)
    solve fuel w ends → phases and listeners were told of the parts of all phases  (solve_chronicled)
-/

namespace PlanSearch

variable {S V W : Type} {sh : Shape}

/-! ## Phases -/

/-- What a run told of after a phase with the events `es`, which counted `n` steps. -/
def Told.after (es : List Event) (n : Nat) (x : Told) : Told where
  boundaries := (es.map (·, x.phases)).reverse ++ x.boundaries
  steps := x.steps + n
  phases := x.phases + 1

/-- The leaves of a phase and the listeners of its run are told of the events `es` from `s` to `t`,
while the run begins a phase and counts `n` steps. -/
structure Passes {P : Type} (leaves : P → List Tracker) (es : List Event) (n : Nat)
    (s t : P × Run W S sh) : Prop where
  leaves_eq : leaves t.1 = (leaves s.1).map (·.recordAll es)
  told : t.2.told = s.2.told.after es n

theorem inSpan_passes {P : Type} {leaves : P → List Tracker} {x : Action (P × Scope W S sh) Outcome}
    {p : P} {r : Run W S sh}
    (h : ∀ s, Finishes (fun o t => Heard.Ended o (heard leaves s) (heard leaves t))
      (fun f t => Heard.Broken f (heard leaves s) (heard leaves t)) (x s)) :
    Finishes (fun o t => ∃ n, Passes leaves (Event.phase (o.rounds n)) n (p, r) t)
      (fun f t => ∀ e, f = .error e → ∃ k n, Passes leaves (Event.cut k) n (p, r) t)
      (inSpan { index := r.beginPhase.1 } x (p, r.beginPhase.2)) := by
  have hpasses : ∀ {t : P × Scope W S sh} {es : List Event} {n : Nat}, heard leaves t =
      (heard leaves (p, ⟨{ index := r.beginPhase.1 }, r.beginPhase.2⟩)).later es n →
        Passes leaves es n (p, r) (t.1, t.2.run) :=
    fun ht => ⟨congrArg Heard.leaves ht, congrArg Heard.told ht⟩
  have hx := h (p, ⟨{ index := r.beginPhase.1 }, r.beginPhase.2⟩)
  unfold inSpan
  dsimp only
  generalize x (p, (⟨{ index := r.beginPhase.1 }, r.beginPhase.2⟩ : Scope W S sh)) = y at hx ⊢
  cases hx with
  | ok h =>
    obtain ⟨n, ht⟩ := h
    exact .ok ⟨n, hpasses ht⟩
  | error h =>
    refine .error fun e he => ?_
    obtain ⟨k, n, ht⟩ := h e he
    exact ⟨k, n, hpasses ht⟩

namespace SearchPhase

/-- The trackers of whatever hears events in a phase: the leaves of its neighbourhood, or the values
of its placers. -/
def leaves : SearchPhase S V sh → List Tracker
  | construction p => p.trackers
  | localSearch p => p.neighbourhood.trackers

variable [Plan S sh]

theorem leaves_hear (p : SearchPhase S V sh) (e : Event) (plan : S) (a : Option (Score sh)) :
    (p.hear e plan a).leaves = p.leaves.map (·.record e) := by
  cases p with
  | construction p => exact p.trackers_hear e
  | localSearch p => exact p.neighbourhood.trackers_hear plan e

variable [Workspace W S sh] [DecidableEq V] [ToString V]

omit [Plan S sh] [Workspace W S sh] [DecidableEq V] [ToString V] in
/-- What is known of a span is known once its phase is put back into the sum. -/
theorem wrap_passes {P : Type} {f : P → SearchPhase S V sh} {ls : P → List Tracker}
    (hf : ∀ p, leaves (f p) = ls p) {p : P} {r : Run W S sh}
    {y : EStateM.Result Failure (P × Run W S sh) Outcome}
    (h : Finishes (fun o t => ∃ n, Passes ls (Event.phase (o.rounds n)) n (p, r) t)
      (fun failure t => ∀ e, failure = .error e → ∃ k n, Passes ls (Event.cut k) n (p, r) t) y) :
    Finishes (fun o t => ∃ n, Passes leaves (Event.phase (o.rounds n)) n (f p, r) t)
      (fun failure t => ∀ e, failure = .error e → e.isCorruption →
        ∃ k n, Passes leaves (Event.cut k) n (f p, r) t) (wrap f y) := by
  have hpasses : ∀ {es : List Event} {n : Nat} {t : P × Run W S sh}, Passes ls es n (p, r) t →
      Passes leaves es n (f p, r) (f t.1, t.2) :=
    fun h => ⟨(hf _).trans (h.leaves_eq.trans (by rw [hf])), h.told⟩
  cases h with
  | ok h =>
    obtain ⟨n, h⟩ := h
    exact .ok ⟨n, hpasses h⟩
  | error h =>
    refine .error fun e he _ => ?_
    obtain ⟨k, n, h⟩ := h e he
    exact ⟨k, n, hpasses h⟩

/-- A phase tells of all of its scopes, unless the scores break their promise in one of its
steps. -/
theorem solve_passes (fuel : Nat) (p : SearchPhase S V sh) (r : Run W S sh) :
    Finishes (fun o t => ∃ n, Passes leaves (Event.phase (o.rounds n)) n (p, r) t)
      (fun f t => ∀ e, f = .error e → e.isCorruption →
        ∃ k n, Passes leaves (Event.cut k) n (p, r) t) (solve fuel (p, r)) := by
  cases p with
  | construction p =>
    show Finishes _ _ (wrap construction (Construction.solve (p, r)))
    unfold Construction.solve
    dsimp only
    cases hvalid : p.validate with
    | error e =>
      refine .error fun e' he' hcorrupt => ?_
      cases he'
      rw [Construction.validate_error hvalid] at hcorrupt
      cases hcorrupt
    | ok => exact wrap_passes (fun _ => rfl) (inSpan_passes Construction.work_heard)
  | localSearch p =>
    show Finishes _ _ (wrap localSearch (LocalSearch.solve fuel (p, r)))
    unfold LocalSearch.solve
    dsimp only
    cases hvalid : p.validate with
    | error e =>
      refine .error fun e' he' hcorrupt => ?_
      cases he'
      rw [LocalSearch.validate_error hvalid] at hcorrupt
      cases hcorrupt
    | ok =>
      dsimp only
      split
      · refine .error fun e he hcorrupt => ?_
        cases he
        cases hcorrupt
      exact wrap_passes (fun _ => rfl) (inSpan_passes (LocalSearch.work_heard fuel))

end SearchPhase

/-! ## Walking through the phases -/

/-- The part of a phase in the events of a solve. -/
inductive Part where
  /-- The run was over before the phase had its turn. -/
  | skipped
  /-- The phase went through so many steps. -/
  | whole (rounds : Nat)
  /-- The phase broke off in the step after these. -/
  | cut (rounds : Nat)
  deriving DecidableEq, Repr

namespace Part

/-- The events of the phase. -/
def events : Part → List Event
  | skipped => []
  | whole n => Event.phase n
  | cut n => Event.cut n

def ran : Part → Bool
  | skipped => false
  | _ => true

/-- The events of all phases, with the index that each phase got when it ran, from `i` on. -/
def chronicle : Nat → List Part → List (Event × Nat)
  | _, [] => []
  | i, x :: rest => x.events.map (·, i) ++ chronicle (if x.ran then i + 1 else i) rest

end Part

/-- What a phase did at its turn. -/
structure Stint where
  /-- The steps that were counted. -/
  counted : Nat
  outcome : Outcome
  deriving DecidableEq, Repr

namespace Stint

/-- The steps that were begun. -/
def rounds (x : Stint) : Nat := x.outcome.rounds x.counted

/-- The part of a phase that did `x`, if it ran. -/
def part (x : Option Stint) : Part := x.elim .skipped fun x => .whole x.rounds

end Stint

/-- The phases and the run `t` come from `s` when the phases have had these parts. -/
structure Recorded (parts : List Part) (s t : List (SearchPhase S V sh) × Run W S sh) : Prop where
  boundaries : boundaries t.2.trace =
    (Part.chronicle s.2.phases parts).reverse ++ boundaries s.2.trace
  length : parts.length = s.1.length
  leaves : List.Forall₂
    (fun q p => SearchPhase.leaves p = (SearchPhase.leaves q.1).map (·.recordAll (Part.events q.2)))
    (s.1.zip parts) t.1

namespace Recorded

variable {ps ps' : List (SearchPhase S V sh)} {r r' : Run W S sh} {parts : List Part}

theorem skipAll (ps : List (SearchPhase S V sh)) (r : Run W S sh) :
    Recorded (List.replicate ps.length .skipped) (ps, r) (ps, r) := by
  have hchronicle : ∀ i n, Part.chronicle i (List.replicate n .skipped) = [] := by
    intro i n
    induction n with
    | zero => rfl
    | succ n ih => exact ih
  refine ⟨by rw [hchronicle]; rfl, List.length_replicate, ?_⟩
  induction ps with
  | nil => exact .nil
  | cons p ps ih => exact .cons (List.map_id _).symm ih

variable {p p' : SearchPhase S V sh} {r₁ : Run W S sh}

theorem skip (h : Recorded parts (ps, r) (ps', r')) :
    Recorded (.skipped :: parts) (p :: ps, r) (p :: ps', r') where
  boundaries := h.boundaries
  length := congrArg (· + 1) h.length
  leaves := .cons (List.map_id _).symm h.leaves

theorem cons {x : Part} (hran : x.ran) {n : Nat}
    (hfirst : Passes SearchPhase.leaves x.events n (p, r) (p', r₁))
    (h : Recorded parts (ps, r₁) (ps', r')) :
    Recorded (x :: parts) (p :: ps, r) (p' :: ps', r') where
  boundaries := by
    have hboundaries : PlanSearch.boundaries r₁.trace =
        (x.events.map (·, r.phases)).reverse ++ PlanSearch.boundaries r.trace :=
      congrArg Told.boundaries hfirst.told
    have hphases : r₁.phases = r.phases + 1 := congrArg Told.phases hfirst.told
    rw [h.boundaries, Part.chronicle, if_pos hran, List.reverse_append, List.append_assoc]
    dsimp only
    rw [hboundaries, hphases]
  length := congrArg (· + 1) h.length
  leaves := .cons hfirst.leaves_eq h.leaves

end Recorded

namespace Solver

variable [Plan S sh] [Workspace W S sh] [DecidableEq V] [ToString V]

/-- What a phase does at its turn, if the run is not over. -/
def stint (fuel : Nat) (p : SearchPhase S V sh) (r : Run W S sh) : Option Stint :=
  if r.isTerminated then none
  else
    match SearchPhase.solve fuel (p, r) with
    | .ok outcome s => some ⟨s.2.steps - r.steps, outcome⟩
    | .error _ _ => none

/-- What the phases of a solve do at their turns. -/
def stints (fuel : Nat) (solver : Solver (SearchPhase S V sh) S sh) (w : W) :
    List (Option Stint) :=
  match opening (solver.phases, solver.newRun w) with
  | .ok _ s => atEach (solvePhase fuel) (stint fuel) s.1 s.2
  | .error _ _ => []

/-- A phase that was broken off, after some that were not and before others that had no turn. -/
def BrokenOff (parts : List Part) : Prop :=
  ∃ done k m, parts = done ++ .cut k :: List.replicate m .skipped ∧ ∀ x ∈ done, ∀ n, x ≠ .cut n

/-- The turn of one phase. -/
theorem solvePhase_passes (fuel : Nat) (p : SearchPhase S V sh) (r : Run W S sh) :
    Finishes (fun _ t => stint fuel p r = none ∧ t = (p, r) ∨
        ∃ x n, stint fuel p r = some x ∧ Passes SearchPhase.leaves (Event.phase x.rounds) n (p, r) t)
      (fun f t => ∀ e, f = .error e → e.isCorruption →
        ∃ k n, Passes SearchPhase.leaves (Event.cut k) n (p, r) t) (solvePhase fuel (p, r)) := by
  unfold solvePhase stint
  rw [Step.get_bind]
  dsimp only
  cases r.isTerminated with
  | true => exact .ok (.inl ⟨rfl, rfl⟩)
  | false =>
    have hsolve := SearchPhase.solve_passes fuel p r
    show Finishes _ _ (EStateM.bind (SearchPhase.solve fuel) _ (p, r))
    unfold EStateM.bind
    generalize SearchPhase.solve fuel (p, r) = y at hsolve ⊢
    cases hsolve with
    | error h => exact .error h
    | @ok o t h =>
      obtain ⟨n, h⟩ := h
      have hsteps : t.2.steps - r.steps = n := by
        rw [show t.2.steps = r.steps + n from congrArg Told.steps h.told]
        exact Nat.add_sub_cancel_left r.steps n
      refine .ok (.inr ⟨_, n, rfl, ?_⟩)
      show Passes _ (Event.phase (o.rounds (t.2.steps - r.steps))) n (p, r) t
      rw [hsteps]
      exact h

theorem solvePhases_recorded (fuel : Nat) (ps : List (SearchPhase S V sh)) (r : Run W S sh) :
    Finishes (fun _ t => Recorded ((atEach (solvePhase fuel) (stint fuel) ps r).map Stint.part)
        (ps, r) t)
      (fun f t => ∀ e, f = .error e → e.isCorruption →
        ∃ parts, BrokenOff parts ∧ Recorded parts (ps, r) t)
      (forEachPhase (solvePhase fuel) (ps, r)) := by
  induction ps generalizing r with
  | nil =>
    have hnil : Recorded [] (([] : List (SearchPhase S V sh)), r) ([], r) := .skipAll [] r
    rw [forEachPhase]
    exact .ok hnil
  | cons p ps ih =>
    have hfirst := solvePhase_passes fuel p r
    rw [forEachPhase, atEach]
    generalize solvePhase fuel (p, r) = y at hfirst ⊢
    cases hfirst with
    | error h =>
      refine .error fun e he hcorrupt => ?_
      obtain ⟨k, n, h⟩ := h e he hcorrupt
      exact ⟨_, ⟨[], k, ps.length, rfl, List.forall_mem_nil _⟩, .cons rfl h (.skipAll ps _)⟩
    | @ok _ t h =>
      obtain ⟨p', r₁⟩ := t
      have hrest := ih r₁
      -- What is known of the first phase is put before what is known of the others.
      have hcons : ∀ {parts : List Part} {ps' : List (SearchPhase S V sh)} {r' : Run W S sh},
          Recorded parts (ps, r₁) (ps', r') →
            Recorded (Stint.part (stint fuel p r) :: parts) (p :: ps, r) (p' :: ps', r') := by
        intro parts ps' r' hrec
        rcases h with ⟨hstint, ht⟩ | ⟨x, n, hstint, hpasses⟩
        · obtain ⟨rfl, rfl⟩ := Prod.mk.inj ht
          rw [hstint]
          exact hrec.skip
        · rw [hstint]
          exact hrec.cons rfl hpasses
      have hwhole : ∀ n, Stint.part (stint fuel p r) ≠ .cut n := by
        intro n
        cases stint fuel p r with
        | none =>
          intro hcut
          cases hcut
        | some x =>
          intro hcut
          cases hcut
      dsimp only
      generalize forEachPhase (solvePhase fuel) (ps, r₁) = z at hrest ⊢
      cases hrest with
      | ok hrec => exact .ok (hcons hrec)
      | error hbroken =>
        refine .error fun e he hcorrupt => ?_
        obtain ⟨parts, ⟨done, k, m, rfl, hdone⟩, hrec⟩ := hbroken e he hcorrupt
        exact ⟨_, ⟨_ :: done, k, m, rfl, List.forall_mem_cons.2 ⟨hwhole, hdone⟩⟩, hcons hrec⟩

/-! ## Opening and closing -/

/-- The action breaks no promise of the scores. -/
def Sound {σ α : Type} (x : Action σ α) : Prop :=
  ∀ s, Finishes (fun _ _ => True) (fun f _ => ∀ e, f = .error e → e.isCorruption = false) (x s)

/-- How each phase ends a walk through the phases ends, if `I` of the run is kept. -/
theorem Finishes.forEachPhase {P R : Type} {I : R → Prop} {E : Failure → Prop}
    {f : Action (P × R) Unit} {ps : List P}
    (h : ∀ p ∈ ps, ∀ r, I r → Finishes (fun _ t => I t.2) (fun e _ => E e) (f (p, r))) {r : R}
    (hr : I r) : Finishes (fun _ t => I t.2) (fun e _ => E e) (forEachPhase f (ps, r)) := by
  induction ps generalizing r with
  | nil =>
    rw [PlanSearch.forEachPhase]
    exact .ok hr
  | cons p ps ih =>
    have hfirst := h p List.mem_cons_self r hr
    rw [PlanSearch.forEachPhase]
    generalize f (p, r) = y at hfirst ⊢
    cases hfirst with
    | error he => exact .error he
    | @ok _ t ht =>
      have hrest := ih (fun q hq => h q (List.mem_cons_of_mem _ hq)) ht
      dsimp only
      generalize PlanSearch.forEachPhase f (ps, t.2) = z at hrest ⊢
      cases hrest with
      | ok ht' => exact .ok ht'
      | error he => exact .error he

theorem Sound.forEachPhase {P R : Type} {f : Action (P × R) Unit} (h : Sound f) :
    Sound (forEachPhase f) := fun _ =>
  Finishes.forEachPhase (I := fun _ => True) (fun p _ r _ => h (p, r)) trivial

variable {fuel : Nat} {solver : Solver (SearchPhase S V sh) S sh} {w : W} {x : Solved S sh}
  {ps ps' : List (SearchPhase S V sh)} {r r' : Run W S sh}

/-- All phases hear of an event, in whatever order. -/
def AllHear (e : Event) (ps ps' : List (SearchPhase S V sh)) : Prop :=
  List.Forall₂ (fun p p' => p'.leaves = p.leaves.map (·.record e)) ps ps'

theorem checkPhase_sound : Sound (checkPhase : Action (SearchPhase S V sh × Run W S sh) Unit) := by
  rintro ⟨p, r⟩
  unfold checkPhase
  have hvalidate : Finishes (fun _ _ => True) (fun f _ => ∀ e, f = .error e → e.isCorruption = false)
      (SolvingPhase.validate (p, r)) := by
    cases hvalid : p.validate with
    | ok =>
      rw [p.validate_ok hvalid]
      exact .ok trivial
    | error e =>
      rw [p.validate_failed hvalid]
      refine .error fun e' he' => ?_
      cases he'
      exact p.validate_error hvalid
  refine hvalidate.bind fun _ t _ => ?_
  rw [Step.get_bind]
  dsimp only
  split
  · refine Finishes.bind (Q := fun _ _ => True) (.ok trivial) fun needs t _ => ?_
    split
    · refine .error fun e he => ?_
      cases he
      rfl
    · exact .ok trivial
  · exact .ok trivial

theorem opening_sound : Sound (opening : Action (List (SearchPhase S V sh) × Run W S sh) Unit) := by
  intro s
  unfold opening
  rw [Step.get_bind]
  dsimp only
  split
  · refine .error fun e he => ?_
    cases he
    rfl
  refine (checkPhase_sound.forEachPhase s).bind fun _ t _ => ?_
  rw [Step.modify_bind]
  unfold announce
  rw [Step.modify_bind]
  have hstarted : Sound (SolvingPhase.solvingStarted :
      Action (SearchPhase S V sh × Run W S sh) Unit) := fun _ => .ok trivial
  exact hstarted.forEachPhase _

/-- Before the first phase works, the phases were told of the start, and so were the listeners. -/
theorem opening_eq_ok (e : opening (ps, r) = .ok () (ps', r')) :
    ps' = ps.map (SearchPhase.hear .solvingStarted r.plan none) ∧
      r' = r.start.announce (.event .solvingStarted (r.start.context 0 0 r.bestScore)) := by
  unfold opening at e
  rw [Step.get_bind] at e
  dsimp only at e
  split at e
  · cases e
  obtain ⟨_, ⟨ps₁, r₁⟩, hcheck, e⟩ := Step.bind_eq_ok e
  obtain ⟨hps₁, hr₁⟩ := forEachPhase_run checkPhase_eq_ok hcheck
  rw [List.forall₂_eq_eq_eq] at hps₁
  subst hr₁ hps₁
  rw [Step.modify_bind] at e
  obtain ⟨_, s, hannounce, hstarted⟩ := Step.bind_eq_ok e
  cases hannounce
  obtain ⟨hps, rfl⟩ := forEachPhase_run
    (Q := fun p p' : SearchPhase S V sh => p.hear .solvingStarted r₁.plan none = p')
    (fun {p p' r'} e => by
      cases e
      exact ⟨rfl, rfl⟩) hstarted
  rw [← List.forall₂_map_left_iff, List.forall₂_eq_eq_eq] at hps
  exact ⟨hps.symm, rfl⟩

theorem opening_told (e : opening (ps, r) = .ok () (ps', r')) :
    AllHear .solvingStarted ps ps' ∧ boundaries r'.trace = (.solvingStarted, 0) :: boundaries r.trace ∧
      r'.phases = 0 := by
  obtain ⟨rfl, rfl⟩ := opening_eq_ok e
  refine ⟨?_, rfl, rfl⟩
  unfold AllHear
  rw [List.forall₂_map_right_iff]
  exact List.forall₂_same.2 fun p _ => p.leaves_hear _ _ _

theorem solvingEnded_told (ps : List (SearchPhase S V sh)) (r : Run W S sh) :
    Finishes (fun _ t => AllHear .solvingEnded ps t.1 ∧ t.2 = r) (fun _ _ => False)
      (forEachPhaseBackward SolvingPhase.solvingEnded (ps, r)) := by
  induction ps with
  | nil =>
    rw [forEachPhaseBackward]
    exact .ok ⟨.nil, rfl⟩
  | cons p ps ih =>
    rw [forEachPhaseBackward]
    generalize forEachPhaseBackward SolvingPhase.solvingEnded (ps, r) = y at ih ⊢
    cases ih with
    | error h => exact h.elim
    | @ok _ t h =>
      obtain ⟨ps', r'⟩ := t
      obtain ⟨hps, rfl⟩ := h
      exact .ok ⟨.cons (p.leaves_hear _ _ _) hps, rfl⟩

omit [DecidableEq V] [ToString V] in
theorem conclude_told (r : Run W S sh) :
    Finishes (fun _ r' => r'.told = r.told) (fun f _ => ∀ e, f ≠ .error e) (conclude r) := by
  have hanswering : ∀ r : Run W S sh,
      Finishes (fun _ r' => r'.told = r.told) (fun f _ => ∀ e, f ≠ .error e) (answering r) := by
    intro r
    unfold answering
    rw [Step.get_bind]
    cases r.bestScore with
    | some a => exact .ok rfl
    | none =>
      exact Finishes.bind (Q := fun _ r' => r'.told = r.told)
        ((Run.scoreNow_told r).mono (fun _ _ h => h) fun _ _ h => h.2) fun a r' h => .ok h
  rw [conclude_eq]
  split
  · refine Finishes.bind (Q := fun _ r' => r'.told = r.told)
      ((Run.updateBest_told r).mono (fun _ _ h => h) fun _ _ h => h.2) fun _ r' h => ?_
    exact (hanswering r').mono (fun _ _ h' => h'.trans h) fun _ _ h' => h'
  · exact hanswering r

/-- Whether or not a phase failed, all phases and listeners are told of the end. -/
theorem closing_told (failure : Option SolverError) (ps : List (SearchPhase S V sh))
    (r : Run W S sh) :
    Finishes
      (fun _ t => failure = none ∧ AllHear .solvingEnded ps t.1 ∧
        boundaries t.2.trace = (.solvingEnded, 0) :: boundaries r.trace)
      (fun f t => ∀ e, f = .error e → failure = some e ∧ AllHear .solvingEnded ps t.1 ∧
        boundaries t.2.trace = (.solvingEnded, 0) :: boundaries r.trace)
      (closing failure (ps, r)) := by
  unfold closing
  refine Finishes.bind ((solvingEnded_told ps r).mono (fun _ _ h => h) fun _ _ h => h.elim)
    fun _ t ⟨hps, hr⟩ => ?_
  obtain ⟨ps', r'⟩ := t
  obtain rfl : r' = r := hr
  unfold announce
  rw [Step.modify_bind]
  cases failure with
  | some e =>
    refine .error fun e' he' => ?_
    cases he'
    exact ⟨rfl, hps, rfl⟩
  | none =>
    have hconclude := Finishes.onPart Prod.snd
      (fun (r : Run W S sh) (s : List (SearchPhase S V sh) × Run W S sh) => (s.1, r))
      (s := (ps', r'.announce (.event .solvingEnded (r'.context 0 0 r'.bestScore))))
      (conclude_told _)
    refine hconclude.mono (fun _ t h => ?_) fun _ t h e he => ?_
    · obtain ⟨r₁, hr₁, rfl⟩ := h
      exact ⟨rfl, hps, congrArg Told.boundaries hr₁⟩
    · obtain ⟨r₁, hr₁, rfl⟩ := h
      exact absurd he (hr₁ e)

/-! ## Solving -/

/-- The phases and the listeners of a solve were told of everything that these parts say. -/
structure Chronicled (solver : Solver (SearchPhase S V sh) S sh) (parts : List Part)
    (t : List (SearchPhase S V sh) × Run W S sh) : Prop where
  boundaries : (boundaries t.2.trace).reverse =
    (.solvingStarted, 0) :: (Part.chronicle 0 parts ++ [(.solvingEnded, 0)])
  length : parts.length = solver.phases.length
  leaves : List.Forall₂
    (fun q p => p.leaves = q.1.leaves.map (·.recordAll (Event.solve (Part.events q.2))))
    (solver.phases.zip parts) t.1

omit [Plan S sh] [Workspace W S sh] [DecidableEq V] [ToString V] in
/-- What the phases hear as they work is framed by the start and the end of solving. -/
theorem leaves_solve {parts : List Part} {ps ps₁ ps₂ ps₃ : List (SearchPhase S V sh)}
    (hstart : AllHear .solvingStarted ps ps₁)
    (hwork : List.Forall₂ (fun q p => SearchPhase.leaves p =
      (SearchPhase.leaves q.1).map (·.recordAll (Part.events q.2))) (ps₁.zip parts) ps₂)
    (hend : AllHear .solvingEnded ps₂ ps₃) :
    List.Forall₂ (fun q p => SearchPhase.leaves p =
      (SearchPhase.leaves q.1).map (·.recordAll (Event.solve (Part.events q.2))))
      (ps.zip parts) ps₃ := by
  induction hstart generalizing parts ps₂ ps₃ with
  | nil =>
    cases hwork
    cases hend
    exact .nil
  | @cons p p₁ ps ps₁ hp _ ih =>
    cases parts with
    | nil =>
      cases hwork
      cases hend
      exact .nil
    | cons x parts =>
      obtain _ | ⟨hx, hwork⟩ := hwork
      obtain _ | ⟨hlast, hend⟩ := hend
      refine .cons ?_ (ih hwork hend)
      rw [hlast, hx, hp, List.map_map, List.map_map]
      refine List.map_congr_left fun t _ => ?_
      show ((t.record .solvingStarted).recordAll x.events).record .solvingEnded = _
      unfold Event.solve Tracker.recordAll
      rw [List.foldl_cons, List.foldl_append]
      rfl

/-- Whatever the phases recorded is framed by the start and the end of solving. -/
theorem Chronicled.of_recorded {solver : Solver (SearchPhase S V sh) S sh} {w : W}
    {parts : List Part} {u : Unit} {ps₁ ps₂ ps₃ : List (SearchPhase S V sh)} {r₁ r₂ r₃ : Run W S sh}
    (hopening : opening (solver.phases, solver.newRun w) = .ok u (ps₁, r₁))
    (hrec : Recorded parts (ps₁, r₁) (ps₂, r₂)) (hend : AllHear .solvingEnded ps₂ ps₃)
    (hlast : PlanSearch.boundaries r₃.trace = (.solvingEnded, 0) :: PlanSearch.boundaries r₂.trace) :
    solver.Chronicled parts (ps₃, r₃) := by
  obtain ⟨hstart, hboundaries, hphases⟩ := opening_told hopening
  refine ⟨?_, hrec.length.trans hstart.length_eq.symm, leaves_solve hstart hrec.leaves hend⟩
  show (PlanSearch.boundaries r₃.trace).reverse = _
  rw [hlast, hrec.boundaries, hboundaries]
  dsimp only
  rw [hphases, List.reverse_cons, List.reverse_append, List.reverse_reverse]
  rfl

theorem solve_chronicled (fuel : Nat) (solver : Solver (SearchPhase S V sh) S sh) (w : W) :
    Finishes (fun _ t => solver.Chronicled ((solver.stints fuel w).map Stint.part) t)
      (fun f t => ∀ e, f = .error e → e.isCorruption →
        ∃ parts, BrokenOff parts ∧ solver.Chronicled parts t) (solver.solve fuel w) := by
  have hopening := opening_sound (solver.phases, solver.newRun w)
  unfold solve stints
  rw [work_eq]
  show Finishes _ _ (EStateM.bind opening _ (solver.phases, solver.newRun w))
  unfold EStateM.bind
  cases hopens : opening (solver.phases, solver.newRun w) with
  | error f t =>
    rw [hopens] at hopening
    cases hopening with
    | error h =>
      refine .error fun e he hcorrupt => ?_
      rw [h e he] at hcorrupt
      cases hcorrupt
  | ok u t =>
    obtain ⟨ps₁, r₁⟩ := t
    have hphasesSolved := solvePhases_recorded fuel ps₁ r₁
    dsimp only
    show Finishes _ _ (EStateM.bind (attempt (forEachPhase (solvePhase fuel))) closing (ps₁, r₁))
    unfold EStateM.bind attempt
    generalize forEachPhase (solvePhase fuel) (ps₁, r₁) = y at hphasesSolved ⊢
    cases hphasesSolved with
    | @ok _ t hrec =>
      obtain ⟨ps₂, r₂⟩ := t
      dsimp only
      refine (closing_told none ps₂ r₂).mono (fun _ t ⟨_, hend, hlast⟩ => .of_recorded hopens hrec hend hlast)
        fun f t h e he => ?_
      cases (h e he).1
    | @error f t hbroken =>
      obtain ⟨ps₂, r₂⟩ := t
      cases f with
      | error e =>
        dsimp only
        refine (closing_told (some e) ps₂ r₂).mono (fun _ t ⟨hnone, _⟩ => ?_)
          fun f t h e' he' hcorrupt => ?_
        · cases hnone
        · obtain ⟨hsome, hend, hlast⟩ := h e' he'
          obtain ⟨parts, hparts, hrec⟩ := hbroken e rfl (Option.some.inj hsome ▸ hcorrupt)
          exact ⟨parts, hparts, .of_recorded hopens hrec hend hlast⟩
      | fault f => exact .error nofun
      | outOfFuel => exact .error nofun

end Solver

end PlanSearch
