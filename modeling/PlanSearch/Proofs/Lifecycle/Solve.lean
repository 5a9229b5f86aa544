import PlanSearch.Proofs.Lifecycle.Record

/-!
# The scopes of a solve

A solve that succeeds closes every scope which it opened: its own, in it that of each phase that
ran, and in these the steps. Every leaf of every phase heard of just these scopes. A solve in which
the scores break their promise ends in the middle of a step. Nobody is told of the end of that step
and of its phase, and to the leaves of the phase the end of solving is out of place.

    solve fuel w = .ok x (ps, r) → the scopes that were opened are closed          (solve_lifecycle)
    solve fuel w = .error … → one step and its phase are not                      (solve_breaks_off)
-/

namespace PlanSearch

variable {S V W : Type} {sh : Shape}

/-! ## Trackers of the leaves -/

namespace Tracker

/-- The trackers of a leaf before and after a solve that closed every scope which it opened. The
phase of the leaf went through so many steps, or it was skipped. -/
structure Follows (rounds : Option Nat) (t t' : Tracker) : Prop where
  heard : t'.heard.reverse = t.heard.reverse ++ Event.solve (rounds.elim [] Event.phase)
  count : ∀ e, t'.count e = t.count e + Event.times rounds e
  balanced : t.isBalanced → t'.isBalanced

/-- The trackers of a leaf before and after a solve that left the step after `k` others open, and
its phase with it: the end of solving is out of place. -/
structure Torn (k : Nat) (t t' : Tracker) : Prop where
  heard : t'.heard.reverse = t.heard.reverse ++ Event.solve (Event.cut k)
  violations : t.isBalanced → t'.violations = 1
  unbalanced : t.isBalanced → ¬t'.isBalanced

/-- The trackers of a leaf before and after a solve in which its phase had the part. -/
def Hears : Part → Tracker → Tracker → Prop
  | .skipped => Follows none
  | .whole n => Follows (some n)
  | .cut k => Torn k

variable {t : Tracker}

theorem heard_solve (t : Tracker) (es : List Event) :
    (t.recordAll (Event.solve es)).heard.reverse = t.heard.reverse ++ Event.solve es := by
  rw [heard_recordAll, List.reverse_append, List.reverse_reverse]

theorem follows_recordAll (rounds : Option Nat) (t : Tracker) :
    Follows rounds t (t.recordAll (Event.solve (rounds.elim [] Event.phase))) where
  heard := t.heard_solve _
  count e := by rw [count_recordAll, Event.count_solve]
  balanced := isBalanced_recordAll (Nests.elim_phase rounds).solve

theorem torn_recordAll (k : Nat) (t : Tracker) :
    Torn k t (t.recordAll (Event.solve (Event.cut k))) := by
  have hviolations : t.isBalanced →
      (t.recordAll (Event.solve (Event.cut k))).violations = 1 := by
    intro ht
    obtain ⟨hnone, hdepth⟩ := isBalanced_iff.1 ht
    rw [violations_cut k hdepth, hnone]
  refine ⟨t.heard_solve _, hviolations, fun ht hbalanced => ?_⟩
  cases (hviolations ht).symm.trans (isBalanced_iff.1 hbalanced).1

theorem hears_recordAll (x : Part) (t : Tracker) :
    Hears x t (t.recordAll (Event.solve x.events)) := by
  cases x with
  | skipped => exact follows_recordAll none t
  | whole n => exact follows_recordAll (some n) t
  | cut k => exact torn_recordAll k t

end Tracker

namespace Solver

variable [Plan S sh] [Workspace W S sh] [DecidableEq V] [ToString V] {fuel : Nat}
  {solver : Solver (SearchPhase S V sh) S sh} {w : W} {x : Solved S sh}
  {ps : List (SearchPhase S V sh)} {r : Run W S sh}

omit [Plan S sh] [Workspace W S sh] [DecidableEq V] [ToString V] in
theorem Chronicled.hears {parts : List Part} (h : solver.Chronicled parts (ps, r)) :
    List.Forall₂ (fun q p => List.Forall₂ (Tracker.Hears q.2) q.1.leaves p.leaves)
      (solver.phases.zip parts) ps := by
  refine h.leaves.imp fun q p hp => ?_
  rw [hp, List.forall₂_map_right_iff]
  exact List.forall₂_same.2 fun t _ => Tracker.hears_recordAll q.2 t

/-- A solve that succeeds tells listeners of its start, then of each phase that ran and of all of
its steps, and then of its end. So it tells each leaf, of its own phase only. -/
theorem solve_lifecycle (e : solver.solve fuel w = .ok x (ps, r)) :
    (boundaries r.trace).reverse = (.solvingStarted, 0) ::
      (Part.chronicle 0 ((solver.stints fuel w).map Stint.part) ++ [(.solvingEnded, 0)]) ∧
    (solver.stints fuel w).length = solver.phases.length ∧
    List.Forall₂
      (fun q p => List.Forall₂ (Tracker.Follows (q.2.map Stint.rounds)) q.1.leaves p.leaves)
      (solver.phases.zip (solver.stints fuel w)) ps := by
  have hsolve := solve_chronicled fuel solver w
  rw [e] at hsolve
  obtain ⟨h⟩ := hsolve
  refine ⟨h.boundaries, (List.length_map Stint.part).symm.trans h.length, ?_⟩
  have hears := h.hears
  rw [List.zip_map_right, List.forall₂_map_left_iff] at hears
  refine hears.imp fun q p hp => ?_
  obtain ⟨p₀, x?⟩ := q
  cases x? <;> exact hp

/-- A solve in which the scores break their promise leaves a step open, and the phase of the step.
Listeners and leaves hear of the end of solving, but not of theirs; the phases before it were closed,
and those behind it were not opened. -/
theorem solve_breaks_off {error : SolverError} (hcorrupt : error.isCorruption)
    (e : solver.solve fuel w = .error (.error error) (ps, r)) :
    ∃ parts, BrokenOff parts ∧
      (boundaries r.trace).reverse = (.solvingStarted, 0) ::
        (Part.chronicle 0 parts ++ [(.solvingEnded, 0)]) ∧
      parts.length = solver.phases.length ∧
      List.Forall₂ (fun q p => List.Forall₂ (Tracker.Hears q.2) q.1.leaves p.leaves)
        (solver.phases.zip parts) ps := by
  have hsolve := solve_chronicled fuel solver w
  rw [e] at hsolve
  obtain ⟨⟩ | ⟨h⟩ := hsolve
  obtain ⟨parts, hparts, h⟩ := h error rfl hcorrupt
  exact ⟨parts, hparts, h.boundaries, h.length, h.hears⟩

end Solver

/-! ## A row -/

namespace Row

/-- Two cells are filled in two steps. A search then finds no candidate in its only step, which is
not counted. -/
theorem solve_lifecycle_solver : ∃ (x : Solved Row .simple) (ps : List (SearchPhase Row Nat .simple))
    (r : Run (RecomputingWorkspace Row .simple) Row .simple),
    solver.solve 5 (workspace [none, none, some 7]) = .ok x (ps, r) ∧
      solver.stints 5 (workspace [none, none, some 7]) =
        [some ⟨2, .completed⟩, some ⟨0, .noAcceptedMove⟩] ∧
      (boundaries r.trace).reverse = (.solvingStarted, 0) ::
        (Part.chronicle 0 [.whole 2, .whole 1] ++ [(.solvingEnded, 0)]) ∧
      List.Forall₂ (fun q p => List.Forall₂ (Tracker.Follows (some q.2)) q.1.leaves p.leaves)
        (solver.phases.zip [2, 1]) ps := by
  have hok : (match solver.solve 5 (workspace [none, none, some 7]) with
      | .ok _ _ => true
      | .error _ _ => false) = true := by decide +kernel
  have hstints : solver.stints 5 (workspace [none, none, some 7]) =
      [some ⟨2, .completed⟩, some ⟨0, .noAcceptedMove⟩] := by decide +kernel
  cases e : solver.solve 5 (workspace [none, none, some 7]) with
  | error f s =>
    rw [e] at hok
    cases hok
  | ok x s =>
    obtain ⟨ps, r⟩ := s
    obtain ⟨htold, -, hleaves⟩ := Solver.solve_lifecycle e
    rw [hstints] at htold hleaves
    refine ⟨x, ps, r, rfl, hstints, htold, ?_⟩
    cases hleaves with
    | cons hfirst hrest =>
      cases hrest with
      | cons hsecond hnil =>
        cases hnil
        exact .cons hfirst (.cons hsecond .nil)

/-- The score of a row is one more than the score that is stored in it. -/
def restless (row : Row) : Checked (Score .simple) :=
  match row.score with
  | none => .ok (.single 0 1)
  | some a => a.add (.single 0 1)

/-- A search that checks the score of each step. -/
def wary : Solver (SearchPhase Row Nat .simple) Row .simple where
  phases := [.localSearch search]
  mode := .fastAssert

def swaying : RecomputingWorkspace Row .simple where
  plan := ⟨[none, some 7], none⟩
  calculate := restless

/-- A solve that broke its promise of scores in the first step of its only search. -/
def leftOpen : EStateM.Result Failure
    (List (SearchPhase Row Nat .simple) × Run (RecomputingWorkspace Row .simple) Row .simple)
    (Solved Row .simple) → Bool
  | .error (.error error) (ps, r) => error.isCorruption &&
    decide ((boundaries r.trace).reverse.map Prod.fst =
      [.solvingStarted, .phaseStarted, .stepStarted, .solvingEnded]) &&
    decide (ps.map SearchPhase.leaves = [List.replicate 2
      (Tracker.recordAll {} [.solvingStarted, .phaseStarted, .stepStarted, .solvingEnded])])
  | _ => false

theorem wary_eq : ∃ (error : SolverError) (ps : List (SearchPhase Row Nat .simple))
    (r : Run (RecomputingWorkspace Row .simple) Row .simple),
    wary.solve 5 swaying = .error (.error error) (ps, r) ∧ error.isCorruption ∧
      (boundaries r.trace).reverse.map Prod.fst =
        [.solvingStarted, .phaseStarted, .stepStarted, .solvingEnded] ∧
      ps.map SearchPhase.leaves = [List.replicate 2
        (Tracker.recordAll {} [.solvingStarted, .phaseStarted, .stepStarted, .solvingEnded])] := by
  have hopen : leftOpen (wary.solve 5 swaying) := by decide +kernel
  cases e : wary.solve 5 swaying with
  | ok x s =>
    rw [e] at hopen
    cases hopen
  | error f s =>
    obtain ⟨ps, r⟩ := s
    rw [e] at hopen
    cases f with
    | error error =>
      rw [leftOpen, Bool.and_eq_true, Bool.and_eq_true, decide_eq_true_iff, decide_eq_true_iff]
        at hopen
      exact ⟨error, ps, r, rfl, hopen.1.1, hopen.1.2, hopen.2⟩
    | fault f => cases hopen
    | outOfFuel => cases hopen

/-- The solve of `wary` is broken off. -/
theorem solve_breaks_off_wary : ∃ (error : SolverError) (ps : List (SearchPhase Row Nat .simple))
    (r : Run (RecomputingWorkspace Row .simple) Row .simple) (parts : List Part),
    wary.solve 5 swaying = .error (.error error) (ps, r) ∧ error.isCorruption ∧
      Solver.BrokenOff parts ∧ (boundaries r.trace).reverse = (.solvingStarted, 0) ::
        (Part.chronicle 0 parts ++ [(.solvingEnded, 0)]) := by
  obtain ⟨error, ps, r, e, hcorrupt, -⟩ := wary_eq
  obtain ⟨parts, hparts, htold, -⟩ := Solver.solve_breaks_off hcorrupt e
  exact ⟨error, ps, r, parts, e, hcorrupt, hparts, htold⟩

/-- Not every scope that a solve opened is closed when the scores break their promise. -/
theorem scopes_left_open : ∃ (error : SolverError) (ps : List (SearchPhase Row Nat .simple))
    (r : Run (RecomputingWorkspace Row .simple) Row .simple),
    wary.solve 5 swaying = .error (.error error) (ps, r) ∧ error.isCorruption ∧
      ¬Nests 0 ((boundaries r.trace).reverse.map Prod.fst) 0 ∧
      ∃ p ∈ ps, ∃ t ∈ p.leaves, ¬t.isBalanced := by
  obtain ⟨error, ps, r, e, hcorrupt, htold, hleaves⟩ := wary_eq
  have htorn : ¬(Tracker.recordAll {}
      [.solvingStarted, .phaseStarted, .stepStarted, .solvingEnded]).isBalanced := by decide
  refine ⟨error, ps, r, e, hcorrupt, fun hnests => ?_, ?_⟩
  · rw [htold] at hnests
    exact htorn (Tracker.isBalanced_recordAll hnests rfl)
  · obtain ⟨p, hp, hleaf⟩ := List.mem_map.1 (hleaves ▸ List.mem_singleton_self _)
    exact ⟨p, hp, _, hleaf ▸ List.mem_cons_self, htorn⟩

end Row

end PlanSearch
