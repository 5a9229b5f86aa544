import PlanSearch.Proofs.Mirror.Peers
import PlanSearch.Proofs.Mirror.Solver

/-!
# Solves in different modes

A solver whose scores are checked and one whose scores are not make the same steps and end alike, if
the workspace is exact: to ask for a score once more, to compute it from scratch and to take a
candidate back change nothing that the search looks at.

    μ.Seeded μ' → the solves in the modes μ and μ' end alike             (Solver.solve_modes)
-/

namespace PlanSearch

variable {W S V : Type} {sh : Shape} [Plan S sh] {X : Variable S V → Prop} {same : S → S → Prop}

/-! ## Phases -/

/-- The values and the order of entities do not tell plans that are alike from each other. -/
structure Placer.Respects (like : S → S → Prop) (placer : Placer S V) : Prop where
  range : placer.definition.range.Respects like
  difficulty : ∀ compare, placer.difficulty = some compare → ∀ p q, like p q → compare p = compare q

/-- What the phase asks of a plan does not tell plans that are alike from each other. -/
def SearchPhase.Respects (like : S → S → Prop) : SearchPhase S V sh → Prop
  | construction p => ∀ placer ∈ p.placers, placer.Respects like
  | localSearch p => p.neighbourhood.tree.Respects like

theorem Placer.Respects.blind {placer : Placer S V} (h : placer.Respects same)
    (hl : Lenses X same) (hP : Plan.Respects same) (hX : X placer.definition.cell) :
    placer.Blind same where
  choices _ _ hpq := Definition.choices_congr h.range hpq
  placements p q hpq := by
    have hunassigned : ((Plan.movable q placer.definition.cell.family).filter fun e =>
        (placer.definition.cell.get p e).isNone) =
        (Plan.movable q placer.definition.cell.family).filter fun e =>
          (placer.definition.cell.get q e).isNone := by
      refine List.filter_congr fun e he => ?_
      have hget : placer.definition.cell.get p e = placer.definition.cell.get q e :=
        (hl.agree hpq).get _ (hl.of_movable hpq _ hX e he)
      rw [hget]
    unfold Placer.placements
    rw [hP.sharesEntities.movable hpq, hunassigned]
    cases hd : placer.difficulty with
    | none => rfl
    | some compare =>
      dsimp only
      rw [h.difficulty compare hd p q hpq]

theorem SearchPhase.Respects.fit {p : SearchPhase S V sh} (h : p.Respects same)
    (hl : Lenses X same) (hP : Plan.Respects same) (hX : p.Over X) : p.Fit X same := by
  refine ⟨hX, ?_⟩
  cases p with
  | construction p =>
    exact fun placer hplacer => (h placer hplacer).blind hl hP (hX placer hplacer)
  | localSearch p => exact Tree.Respects.blind hP h

/-! ## Modes -/

namespace Solver

variable [Workspace W S sh] [DecidableEq V] [ToString V] {good : W → Prop} {fuel : Nat} {w : W}
  {solver solver' : Solver (SearchPhase S V sh) S sh}

variable [Workspace.Lawful W]

end Solver

/-! ## A row -/

namespace Row

end Row

end PlanSearch
