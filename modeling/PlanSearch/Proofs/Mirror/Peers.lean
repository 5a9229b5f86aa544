import PlanSearch.Proofs.Mirror.Gather
import PlanSearch.Proofs.Neighbourhood.Respect
import PlanSearch.Proofs.Search.Evaluation

/-!
# Workspaces on the same plan

Two exact workspaces on plans that count as the same answer the same scores, however often either was
asked before and however closely its answers are checked. Whatever is done to both, they stay on
plans that count as the same.

    Peers … w v → m.Within … → Peers … (m.apply w) (m.apply v)           (Peers.apply)
    Peers … w v → scoreCandidate μ m w and scoreCandidate μ' m v end alike
                                                                         (Peers.judgesAlike)
-/

namespace PlanSearch

variable {W S V : Type} {sh : Shape} {ex : Excuse} {M : Mode → Mode → Prop}

/-! ## Failing scores -/

/-- What a score of a good workspace fails with is excused on both sides. -/
def Excuse.Covers [Workspace W S sh] (ex : Excuse) (good : W → Prop) : Prop :=
  ∀ e, Workspace.Fails good e → ex.left e ∧ ex.right e

section

variable [Workspace W S sh] {good : W → Prop}

theorem Workspace.Total.covered (h : Total good) (ex : Excuse) : ex.Covers good :=
  fun _ he => absurd he h.not_fails

end

/-! ## Asking for the score -/

namespace Workspace

variable [Workspace W S sh] {good : W → Prop} {X : Variable S V → Prop} {same : S → S → Prop}

/-- The action answers the score and fails as scores of good workspaces do. -/
structure Asks (good : W → Prop) (x : Action W (Score sh)) : Prop where
  ok : ∀ {w w' a}, x w = .ok a w' → score w = .ok a w'
  error : ∀ {w w' e}, good w → x w = .error e w' → Fails good e

variable [Plan S sh] [Lawful W]

end Workspace

/-! ## Peers -/

variable [Plan S sh] [Workspace W S sh] {X : Variable S V → Prop} {same : S → S → Prop}
  {good : W → Prop} {p₀ : S}

/-- Good workspaces on plans that count as the same, with the slots of `p₀`. -/
structure Workspace.Peers (X : Variable S V → Prop) (same : S → S → Prop) (good : W → Prop) (p₀ : S)
    (w v : W) : Prop where
  left : good w
  right : good v
  same : same (plan w) (plan v)
  of_iff : ∀ a : Slot S V, a.Of X (plan v) ↔ a.Of X p₀

namespace Workspace.Peers

variable {w v w' v' : W} {m : Move S V}

theorem refl (hl : Lenses X same) (hw : good w) : Peers X same good (plan w) w w :=
  ⟨hw, hw, hl.equivalence.refl _, fun _ => Iff.rfl⟩

theorem holds (h : Peers X same good p₀ w v) (hl : Lenses X same) :
    Holds same good (plan v) w ∧ Holds same good (plan v) v :=
  ⟨⟨h.left, hl.equivalence.symm h.same⟩, h.right, hl.equivalence.refl _⟩

theorem of_within (h : Peers X same good p₀ w v) (hm : m.Within (Slot.Of X p₀)) :
    m.Of X (plan v) := fun a ha => (h.of_iff a).2 (hm a ha)

/-- Other workspaces on the same plan are peers as well. -/
theorem of_holds (h : Peers X same good p₀ w v) (hl : Lenses X same)
    (hw : Holds same good (plan v) w') (hv : Holds same good (plan v) v') :
    Peers X same good p₀ w' v' := by
  refine ⟨hw.good, hv.good, hl.equivalence.trans (hl.equivalence.symm hw.same) hv.same, fun a => ?_⟩
  rw [← hl.of_iff hv.same]
  exact h.of_iff a

/-- Peers agree on which moves can be applied. -/
theorem isDoable_eq [DecidableEq V] (h : Peers X same good p₀ w v) (hl : Lenses X same)
    (hP : Plan.Respects same) (hm : m.Within (Slot.Of X p₀)) :
    m.isDoable (plan w) = m.isDoable (plan v) := by
  refine Move.isDoable_congr hP.sharesEntities h.same fun a ha => ?_
  exact ((hl.agree (hl.equivalence.symm h.same)).get a (h.of_within hm a ha)).symm

variable [Workspace.Lawful W]

theorem apply (h : Peers X same good p₀ w v) (hl : Lenses X same) (hg : Exact X same good)
    (hm : m.Within (Slot.Of X p₀)) : Peers X same good p₀ (m.apply w) (m.apply v) := by
  have hv := h.of_within hm
  have hw : m.Of X (plan w) := hv.congr hl (hl.equivalence.symm h.same)
  refine ⟨hg.apply hl hw h.left, hg.apply hl hv h.right, ?_, fun a => ?_⟩
  · rw [Move.plan_apply, Move.plan_apply]
    exact Move.on_congr hl hw h.same
  · rw [Move.plan_apply, Move.of_on hl hv]
    exact h.of_iff a

/-- Both answer the score of the plan. -/
theorem score (h : Peers X same good p₀ w v) (hl : Lenses X same) (hg : Exact X same good)
    {a c : Score sh} (ew : Workspace.score w = .ok a w') (ev : Workspace.score v = .ok c v') :
    a = c ∧ Peers X same good p₀ w' v' := by
  obtain ⟨hw, hv⟩ := h.holds hl
  have hfull := hg.fullScore_congr h.left h.right h.same
  rw [hg.fullScore_eq h.left ew, hg.fullScore_eq h.right ev] at hfull
  exact ⟨Except.ok.inj hfull, h.of_holds hl (hw.score hg hl ew) (hv.score hg hl ev)⟩

/-- Both answer alike, in whatever way they are asked. -/
theorem alike (h : Peers X same good p₀ w v) (hl : Lenses X same) (hg : Exact X same good)
    (hex : ex.Covers good) {x y : Action W (Score sh)} (hx : Asks good x) (hy : Asks good y) :
    Alike ex (Peers X same good p₀) (x w) (y v) := by
  cases ew : x w with
  | error f w' => exact .left (hex f (hx.error h.left ew)).1 _
  | ok a w' =>
    cases ev : y v with
    | error f v' => exact .right (hex f (hy.error h.right ev)).2 _
    | ok c v' => exact .ok (h.score hl hg (hx.ok ew) (hy.ok ev))

end Workspace.Peers

namespace Workspace.Peers

variable [Workspace.Lawful W]

end Workspace.Peers

/-! ## Trees -/

/-- Walks through a tree do not tell plans from each other that are alike in all the tree asks. -/
theorem Tree.AsksAlike.blind (hP : Plan.SharesEntities same) {t : Tree S V} (h : t.AsksAlike same) :
    t.Blind same := fun _ _ hpq =>
  ⟨fun x s => congrFun (congrFun (t.next_congr hP hpq h) x) s,
    fun e x => congrFun (t.hear_congr hpq e h) x⟩

theorem Tree.Respects.blind (hP : Plan.Respects same) {t : Tree S V} (h : t.Respects same) :
    t.Blind same :=
  (Tree.Respects.asksAlike t h).blind hP.sharesEntities

/-! ## A row -/

namespace Row

theorem respects : Plan.Respects (Agree (· = cell)) (S := Row) where
  entityCount h := funext h.entityCount
  isPinned _ := rfl
  unassignedCount _ := rfl

theorem total : Workspace.Total (RecomputingWorkspace.Keeps rate) := fun w hw => by
  change ∃ a w', RecomputingWorkspace.score w = .ok a w'
  unfold RecomputingWorkspace.score
  split
  · exact ⟨_, _, rfl⟩
  · rw [hw.1]
    exact ⟨_, _, rfl⟩

end Row

end PlanSearch
