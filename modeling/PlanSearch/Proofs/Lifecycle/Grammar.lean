import Mathlib.Computability.Language
import Mathlib.Order.CompletePartialOrder
import PlanSearch.Proofs.Lifecycle.Tracker

/-!
# The grammar of scopes

Complete solves are words over the events: a solve encloses any number of phases, and a phase any
number of steps. A tracker does not know this grammar. It keeps one number, the depth that the last
event leads to, and it counts the events that were not due. That is enough to tell which words are
complete solves, and which ones can still become so.

    t is balanced after es ↔ es ∈ solve∗                                 (recordAll_recognises)
    no violations after es ↔ es can be extended to a word in solve∗
-/

namespace PlanSearch

open scoped Computability

/-! ## Words -/

namespace Grammar

/-- A step from its start to its end. -/
def step : Language Event := {[.stepStarted]} * {[.stepEnded]}

/-- A phase with any number of steps. -/
def phase : Language Event := {[.phaseStarted]} * step∗ * {[.phaseEnded]}

/-- A solve with any number of phases. -/
def solve : Language Event := {[.solvingStarted]} * phase∗ * {[.solvingEnded]}

/-- What follows within a solve, outside of its phases. -/
def inSolve : Language Event := phase∗ * ({[.solvingEnded]} * solve∗)

/-- What follows within a phase, outside of its steps. -/
def inPhase : Language Event := step∗ * ({[.phaseEnded]} * inSolve)

/-- What follows up to the end of several solves when so many scopes are open. -/
def remainder : Nat → Language Event
  | 0 => solve∗
  | 1 => inSolve
  | 2 => inPhase
  | 3 => {[.stepEnded]} * inPhase
  | _ => 0

/-- The ends of so many open scopes, the innermost one first. -/
def ends : Nat → List Event
  | 0 => []
  | 1 => [.solvingEnded]
  | 2 => [.phaseEnded, .solvingEnded]
  | _ => [.stepEnded, .phaseEnded, .solvingEnded]

/-- An event that is due leaves a remainder behind. -/
theorem singleton_mul_remainder_le (e : Event) :
    {[e]} * remainder e.depthAfter ≤ remainder e.depthBefore := by
  have skip (a b : Language Event) : b ≤ a∗ * b := by
    calc b = 1 * b := (one_mul b).symm
      _ ≤ a∗ * b := mul_le_mul_left one_le_kstar b
  have again (a b : Language Event) : a * (a∗ * b) ≤ a∗ * b := by
    calc a * (a∗ * b) = a * a∗ * b := (mul_assoc ..).symm
      _ ≤ a∗ * b := mul_le_mul_left mul_kstar_le_kstar b
  -- A start begins one more word of a star, and an end leaves the star of the scope within.
  cases e with
  | solvingStarted =>
    calc {[.solvingStarted]} * inSolve = solve * solve∗ := by simp only [inSolve, solve, mul_assoc]
      _ ≤ solve∗ := mul_kstar_le_kstar
  | phaseStarted =>
    calc {[.phaseStarted]} * inPhase = phase * inSolve := by simp only [inPhase, phase, mul_assoc]
      _ ≤ inSolve := again phase _
  | stepStarted =>
    calc {[.stepStarted]} * ({[.stepEnded]} * inPhase) = step * inPhase := (mul_assoc ..).symm
      _ ≤ inPhase := again step _
  | stepEnded => exact le_rfl
  | phaseEnded => exact skip step _
  | solvingEnded => exact skip phase _

end Grammar

/-! ## Nesting -/

namespace Nests

variable {d d' d'' : Nat} {es es' : List Event} {l l' : Language Event}

theorem singleton (e : Event) :
    ∀ es ∈ ({[e]} : Language Event), Nests e.depthBefore es e.depthAfter := by
  rintro _ rfl
  exact .cons e (.nil _)

theorem mul (h : ∀ es ∈ l, Nests d es d') (h' : ∀ es ∈ l', Nests d' es d'') :
    ∀ es ∈ l * l', Nests d es d'' := by
  intro es hes
  obtain ⟨xs, hxs, ys, hys, rfl⟩ := Language.mem_mul.1 hes
  exact (h xs hxs).append (h' ys hys)

theorem kstar (h : ∀ es ∈ l, Nests d es d) : ∀ es ∈ l∗, Nests d es d := by
  intro es hes
  obtain ⟨parts, rfl, hparts⟩ := Language.mem_kstar.1 hes
  clear hes
  induction parts with
  | nil => exact .nil d
  | cons part parts ih =>
    obtain ⟨hpart, hrest⟩ := List.forall_mem_cons.1 hparts
    exact (h part hpart).append (ih hrest)

theorem depth_le (h : Nests d es d') (hd : d ≤ 3) : d' ≤ 3 := by
  induction h with
  | nil d => exact hd
  | cons e _ ih => exact ih (by cases e <;> decide)

theorem left_of_append (h : Nests d (es ++ es') d') : ∃ d'', Nests d es d'' := by
  induction es generalizing d with
  | nil => exact ⟨d, .nil d⟩
  | cons e es ih =>
    cases h with
    | cons _ rest =>
      obtain ⟨d'', h''⟩ := ih rest
      exact ⟨d'', .cons e h''⟩

end Nests

namespace Grammar

variable {d : Nat} {es : List Event}

/-- Complete solves begin and end where no scope is open. -/
theorem nests_of_mem_solves : ∀ es ∈ solve∗, Nests 0 es 0 :=
  have hstep : ∀ es ∈ step, Nests 2 es 2 :=
    Nests.mul (Nests.singleton .stepStarted) (Nests.singleton .stepEnded)
  have hphase : ∀ es ∈ phase, Nests 1 es 1 :=
    Nests.mul (Nests.mul (Nests.singleton .phaseStarted) (Nests.kstar hstep))
      (Nests.singleton .phaseEnded)
  Nests.kstar (Nests.mul (Nests.mul (Nests.singleton .solvingStarted) (Nests.kstar hphase))
    (Nests.singleton .solvingEnded))

/-- Events that are due, and after which no scope is open, are a remainder. -/
theorem mem_remainder (h : Nests d es 0) : es ∈ remainder d := by
  -- The last depth stays zero in the induction, while the first one moves with the events.
  generalize hd : 0 = d' at h
  induction h with
  | nil d =>
    subst hd
    exact Language.nil_mem_kstar solve
  | cons e _ ih =>
    have hword : [e] ∈ ({[e]} : Language Event) := rfl
    exact singleton_mul_remainder_le e (Language.append_mem_mul hword (ih hd))

theorem mem_solves_iff : es ∈ solve∗ ↔ Nests 0 es 0 := ⟨nests_of_mem_solves es, mem_remainder⟩

theorem nests_ends (hd : d ≤ 3) : Nests d (ends d) 0 := by
  have one : Nests 1 (ends 1) 0 := .cons .solvingEnded (.nil 0)
  have two : Nests 2 (ends 2) 0 := .cons .phaseEnded one
  match d, hd with
  | 0, _ => exact .nil 0
  | 1, _ => exact one
  | 2, _ => exact two
  | 3, _ => exact .cons .stepEnded two

/-- What begins like complete solves is what nests so far: the open scopes can always be closed. -/
theorem exists_solves_iff : (∃ whole ∈ solve∗, es <+: whole) ↔ ∃ d, Nests 0 es d := by
  constructor
  · rintro ⟨_, hwhole, rest, rfl⟩
    exact (mem_solves_iff.1 hwhole).left_of_append
  · rintro ⟨d, h⟩
    have hclosed : Nests 0 (es ++ ends d) 0 := h.append (nests_ends (h.depth_le (Nat.zero_le 3)))
    exact ⟨es ++ ends d, mem_solves_iff.2 hclosed, List.prefix_append ..⟩

end Grammar

/-! ## Trackers -/

namespace Tracker

variable {t : Tracker} {es : List Event}

/-- An event that was out of place is never forgotten. -/
theorem violations_le_recordAll (t : Tracker) (es : List Event) :
    t.violations ≤ (t.recordAll es).violations := by
  induction es generalizing t with
  | nil => exact le_rfl
  | cons e es ih =>
    have hrecord : t.violations ≤ (t.record e).violations := by
      unfold record
      dsimp only
      split <;> omega
    exact hrecord.trans (ih (t.record e))

/-- Only events that are due leave the count of violations alone. -/
theorem violations_recordAll_eq_iff :
    (t.recordAll es).violations = t.violations ↔ ∃ d, Nests t.depth es d := by
  constructor
  · intro h
    induction es generalizing t with
    | nil => exact ⟨t.depth, .nil _⟩
    | cons e es ih =>
      have hrest : (t.record e).violations ≤ (t.recordAll (e :: es)).violations :=
        violations_le_recordAll (t.record e) es
      -- One violation now could not be made up for later.
      have hdue : t.depth = e.depthBefore := by
        by_contra hne
        have : (t.record e).violations = t.violations + 1 := if_neg hne
        omega
      have hsame : (t.record e).violations = t.violations := if_pos hdue
      obtain ⟨d, hd⟩ := ih (t := t.record e) (h.trans hsame.symm)
      exact ⟨d, hdue ▸ .cons e hd⟩
  · rintro ⟨d, h⟩
    exact (recordAll_of_nests h rfl).2

/-- A new tracker is balanced after complete solves and after nothing else, and it has no violations
after what complete solves begin with and after nothing else. -/
theorem recordAll_recognises (es : List Event) :
    ((recordAll {} es).isBalanced ↔ es ∈ Grammar.solve∗) ∧
      ((recordAll {} es).violations = 0 ↔ ∃ whole ∈ Grammar.solve∗, es <+: whole) := by
  have hviolations : (recordAll {} es).violations = 0 ↔ ∃ d, Nests 0 es d :=
    violations_recordAll_eq_iff (t := {})
  refine ⟨?_, hviolations.trans Grammar.exists_solves_iff.symm⟩
  rw [isBalanced_iff, hviolations, Grammar.mem_solves_iff]
  constructor
  · rintro ⟨⟨d, h⟩, hdepth⟩
    rwa [← (recordAll_of_nests (t := {}) h rfl).1, hdepth] at h
  · intro h
    exact ⟨⟨0, h⟩, (recordAll_of_nests (t := {}) h rfl).1⟩

/-- The depth may return to zero after an event that was out of place. -/
example : (recordAll {} [.solvingStarted, .stepEnded, .phaseEnded, .solvingEnded]).depth = 0 ∧
    ¬(recordAll {} [.solvingStarted, .stepEnded, .phaseEnded, .solvingEnded]).isBalanced := by
  decide

end Tracker

end PlanSearch
