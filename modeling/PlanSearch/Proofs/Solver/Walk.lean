import PlanSearch.Proofs.Checked
import PlanSearch.Solver

/-!
# Walking through phases

What every phase keeps of the run, a walk through the phases keeps; what it makes of each phase, the
walk makes of all.

    forEachPhase f (ps, r) = .ok () (ps', r') → Forall₂ Q ps ps' ∧ r' = r        (forEachPhase_run)
-/

namespace PlanSearch

variable {P R : Type} {f : Action (P × R) Unit} {Q : P → P → Prop} {ps ps' : List P} {r r' : R}

theorem forEachPhase_cons_eq_ok {p : P} (e : forEachPhase f (p :: ps, r) = .ok () (ps', r')) :
    ∃ p' r₁ ps'', f (p, r) = .ok () (p', r₁) ∧ forEachPhase f (ps, r₁) = .ok () (ps'', r') ∧
      ps' = p' :: ps'' := by
  rw [forEachPhase] at e
  split at e
  · cases e
  · next p' r₁ hf =>
    split at e
    · cases e
    · next ps'' r₂ hrest =>
      cases e
      exact ⟨p', r₁, ps'', hf, hrest, rfl⟩

theorem forEachPhaseBackward_cons_eq_ok {p : P}
    (e : forEachPhaseBackward f (p :: ps, r) = .ok () (ps', r')) :
    ∃ p' r₁ ps'', forEachPhaseBackward f (ps, r) = .ok () (ps'', r₁) ∧
      f (p, r₁) = .ok () (p', r') ∧ ps' = p' :: ps'' := by
  rw [forEachPhaseBackward] at e
  split at e
  · cases e
  · next ps'' r₁ hrest =>
    split at e
    · cases e
    · next p' r₂ hf =>
      cases e
      exact ⟨p', r₁, ps'', hrest, hf, rfl⟩

/-- A walk of phases that leave the run alone. -/
theorem forEachPhase_run
    (hf : ∀ {p p' : P} {r' : R}, f (p, r) = .ok () (p', r') → Q p p' ∧ r' = r)
    (e : forEachPhase f (ps, r) = .ok () (ps', r')) : List.Forall₂ Q ps ps' ∧ r' = r := by
  induction ps generalizing ps' with
  | nil =>
    rw [forEachPhase] at e
    cases e
    exact ⟨.nil, rfl⟩
  | cons p ps ih =>
    obtain ⟨p', r₁, ps'', hp, hrest, rfl⟩ := forEachPhase_cons_eq_ok e
    obtain ⟨hQ, rfl⟩ := hf hp
    obtain ⟨hall, rfl⟩ := ih hrest
    exact ⟨.cons hQ hall, rfl⟩

theorem forEachPhaseBackward_run
    (hf : ∀ {p p' : P} {r' : R}, f (p, r) = .ok () (p', r') → Q p p' ∧ r' = r)
    (e : forEachPhaseBackward f (ps, r) = .ok () (ps', r')) : List.Forall₂ Q ps ps' ∧ r' = r := by
  induction ps generalizing r' ps' with
  | nil =>
    rw [forEachPhaseBackward] at e
    cases e
    exact ⟨.nil, rfl⟩
  | cons p ps ih =>
    obtain ⟨p', r₁, ps'', hrest, hp, rfl⟩ := forEachPhaseBackward_cons_eq_ok e
    obtain ⟨hall, rfl⟩ := ih hrest
    obtain ⟨hQ, rfl⟩ := hf hp
    exact ⟨.cons hQ hall, rfl⟩

namespace Solver

theorem attempt_eq_ok_none {σ : Type} {x : Action σ Unit} {s t : σ}
    (e : attempt x s = .ok none t) : x s = .ok () t := by
  unfold attempt at e
  split at e
  · next h =>
    cases e
    exact h
  · cases e
  · cases e

end Solver

namespace SearchPhase

variable {S V W : Type} {sh : Shape}

theorem validate_configuration {p : SearchPhase S V sh} {e : SolverError}
    (h : p.validate = .error e) : ∃ message, e = .configuration message := by
  cases p with
  | construction p =>
    change p.validate = .error e at h
    unfold Construction.validate at h
    split at h
    · cases h
      exact ⟨_, rfl⟩
    · cases h
  | localSearch p =>
    change p.validate = .error e at h
    unfold LocalSearch.validate at h
    split at h
    · cases h
      exact ⟨_, rfl⟩
    · cases h

/-- Whether the phase is a local search. -/
def isSearch : SearchPhase S V sh → Bool
  | construction _ => false
  | localSearch _ => true

theorem isSearch_hear [Plan S sh] (e : Event) (plan : S) (a : Option (Score sh))
    (p : SearchPhase S V sh) : (p.hear e plan a).isSearch = p.isSearch := by
  cases p <;> rfl

end SearchPhase

end PlanSearch
