import Mathlib.Data.List.Basic
import PlanSearch.Lifecycle

/-!
# Trackers of nested scopes

A solve tells of its start and of its end, and in between of a phase and its steps. Events that are
due one after another leave no violation in a tracker, and take it to the depth that they lead to.

    Nests d es d' → t.depth = d → (t.recordAll es).depth = d'            (Nests.depth_recordAll)
    (t.recordAll (Event.solve (Event.phase n))) is balanced if t is       (isBalanced_recordAll)
-/

namespace PlanSearch

/-! ## Sequences of events -/

namespace Event

/-- The boundaries of `n` steps. -/
def steps : Nat → List Event
  | 0 => []
  | n + 1 => stepStarted :: stepEnded :: steps n

/-- The boundaries of a phase with `n` steps. -/
def phase (n : Nat) : List Event := phaseStarted :: (steps n ++ [phaseEnded])

/-- The boundaries up to the middle of a step, the one after the first `n`. -/
def cut (n : Nat) : List Event := phaseStarted :: (steps n ++ [stepStarted])

/-- The boundaries of a solve, as a phase hears them that has the boundaries `es` itself. -/
def solve (es : List Event) : List Event := solvingStarted :: (es ++ [solvingEnded])

/-- How often the event occurs in a solve, for a phase with so many steps or one that does not
run. -/
def times (rounds : Option Nat) : Event → Nat
  | solvingStarted | solvingEnded => 1
  | phaseStarted | phaseEnded => if rounds.isSome then 1 else 0
  | stepStarted | stepEnded => rounds.getD 0

theorem steps_add (m n : Nat) : steps (m + n) = steps m ++ steps n := by
  induction m with
  | zero => rw [Nat.zero_add, steps, List.nil_append]
  | succ m ih => rw [Nat.succ_add, steps, steps, ih, List.cons_append, List.cons_append]

theorem count_steps (n : Nat) (e : Event) :
    (steps n).count e = if e = stepStarted ∨ e = stepEnded then n else 0 := by
  induction n with
  | zero => cases e <;> rfl
  | succ n ih => cases e <;> simp_all [steps]

theorem count_solve (rounds : Option Nat) (e : Event) :
    (solve (rounds.elim [] phase)).count e = times rounds e := by
  cases rounds with
  | none => cases e <;> rfl
  | some n => cases e <;> simp [solve, phase, times, count_steps]

end Event

/-! ## Nesting -/

/-- Each of the events is due when it happens, from depth `d` on, and they lead to depth `d'`. -/
inductive Nests : Nat → List Event → Nat → Prop
  | nil (d : Nat) : Nests d [] d
  | cons (e : Event) {es : List Event} {d' : Nat} (rest : Nests e.depthAfter es d') :
    Nests e.depthBefore (e :: es) d'

namespace Nests

variable {d d' d'' : Nat} {es es' : List Event}

theorem append (h : Nests d es d') (h' : Nests d' es' d'') : Nests d (es ++ es') d'' := by
  induction h with
  | nil d => exact h'
  | cons e _ ih => exact .cons e (ih h')

theorem steps (n : Nat) : Nests 2 (Event.steps n) 2 := by
  induction n with
  | zero => exact .nil 2
  | succ n ih => exact .cons .stepStarted (.cons .stepEnded ih)

theorem phase (n : Nat) : Nests 1 (Event.phase n) 1 :=
  .cons .phaseStarted ((steps n).append (.cons .phaseEnded (.nil 1)))

theorem cut (n : Nat) : Nests 1 (Event.cut n) 3 :=
  .cons .phaseStarted ((steps n).append (.cons .stepStarted (.nil 3)))

theorem solve (h : Nests 1 es 1) : Nests 0 (Event.solve es) 0 :=
  .cons .solvingStarted (h.append (.cons .solvingEnded (.nil 0)))

theorem elim_phase (rounds : Option Nat) : Nests 1 (rounds.elim [] Event.phase) 1 := by
  cases rounds with
  | none => exact .nil 1
  | some n => exact phase n

end Nests

/-! ## Trackers -/

namespace Tracker

variable {t : Tracker} {d d' : Nat} {es : List Event}

/-- Hears of events in the order in which they happen. -/
def recordAll (t : Tracker) (es : List Event) : Tracker := es.foldl record t

theorem recordAll_append (t : Tracker) (es es' : List Event) :
    t.recordAll (es ++ es') = (t.recordAll es).recordAll es' := List.foldl_append

theorem heard_recordAll (t : Tracker) (es : List Event) :
    (t.recordAll es).heard = es.reverse ++ t.heard := by
  induction es generalizing t with
  | nil => rfl
  | cons e es ih =>
    rw [List.reverse_cons, List.append_assoc]
    exact ih (t.record e)

theorem count_recordAll (t : Tracker) (es : List Event) (e : Event) :
    (t.recordAll es).count e = t.count e + es.count e := by
  unfold count
  rw [heard_recordAll, List.count_append, List.count_reverse, Nat.add_comm]

/-- Nothing is out of place where every event is due. -/
theorem recordAll_of_nests (h : Nests d es d') (ht : t.depth = d) :
    (t.recordAll es).depth = d' ∧ (t.recordAll es).violations = t.violations := by
  induction h generalizing t with
  | nil d => exact ⟨ht, rfl⟩
  | cons e _ ih =>
    obtain ⟨hdepth, hviolations⟩ := ih (t := t.record e) rfl
    exact ⟨hdepth, hviolations.trans (if_pos ht)⟩

theorem isBalanced_iff : t.isBalanced ↔ t.violations = 0 ∧ t.depth = 0 := by
  unfold isBalanced
  rw [Bool.and_eq_true, beq_iff_eq, beq_iff_eq]

theorem isBalanced_recordAll (h : Nests 0 es 0) (ht : t.isBalanced) :
    (t.recordAll es).isBalanced := by
  obtain ⟨hviolations, hdepth⟩ := isBalanced_iff.1 ht
  obtain ⟨hdepth', hviolations'⟩ := recordAll_of_nests h hdepth
  exact isBalanced_iff.2 ⟨hviolations'.trans hviolations, hdepth'⟩

/-- The end of solving is out of place in the middle of a step. -/
theorem violations_cut (n : Nat) (ht : t.depth = 0) :
    (t.recordAll (Event.solve (Event.cut n))).violations = t.violations + 1 := by
  have hcut : Nests 0 (.solvingStarted :: Event.cut n) 3 := .cons .solvingStarted (Nests.cut n)
  obtain ⟨hdepth, hviolations⟩ := recordAll_of_nests hcut ht
  show ((t.recordAll ((.solvingStarted :: Event.cut n) ++ [.solvingEnded]))).violations = _
  rw [recordAll_append, ← hviolations]
  show (if _ = 1 then _ else _) = _
  rw [hdepth]
  rfl

end Tracker

end PlanSearch
