import PlanSearch.Evaluation
import PlanSearch.Proofs.Neighbourhood.Slots
import PlanSearch.Proofs.Workspace.Lawful
import PlanSearch.Proofs.Move.Undo

/-!
# Honest workspaces

A workspace is honest if the scores that it answers are the scores of its plans from scratch, after
any moves of given slots, restarts and scores. Nothing is asked of the variables: what a move writes
may be anything, and taking it back may leave another plan behind.

    good w → m.Within ok → good (m.apply w)                              (Honest.apply)
    scoreCandidate mode m w = .ok a w' → good w'                         (Honest.scoreCandidate)
-/

namespace PlanSearch.Workspace

variable {W S V : Type} {sh : Shape} [Plan S sh] [Workspace W S sh]

/-- On the workspaces `good`, which changes of the slots `ok` do not leave, the score is the score
`full` of the plan from scratch, in which the stored score does not count. -/
structure Honest (X : Variable S V → Prop) (ok : Slot S V → Prop) (good : W → Prop)
    (full : S → Checked (Score sh)) : Prop where
  movable : ∀ {w : W}, good w → ∀ y, X y → ∀ e ∈ Plan.movable (plan w) y.family, ok ⟨y, e⟩
  assign : ∀ {w : W} {a : Slot S V} (v : Option V), good w → ok a →
    good (a.cell.assign a.entity v w)
  score : ∀ {w w' : W} {a : Score sh}, good w → Workspace.score w = .ok a w' → good w'
  restart : ∀ {w : W}, good w → good (restart w)
  fullScore_eq : ∀ {w : W}, good w → fullScore w = full (plan w)
  score_eq : ∀ {w w' : W} {a : Score sh}, good w → Workspace.score w = .ok a w' →
    fullScore w' = .ok a
  full_setScore : ∀ (a : Option (Score sh)) (p : S), full (Plan.setScore a p) = full p

namespace Honest

variable {X : Variable S V → Prop} {ok : Slot S V → Prop} {good : W → Prop}
  {full : S → Checked (Score sh)} {w w' : W} {a : Score sh} {m : Move S V}

theorem full_eq (h : Honest X ok good full) (hw : good w) (e : Workspace.score w = .ok a w') :
    full (plan w') = .ok a := by
  rw [← h.fullScore_eq (h.score hw e)]
  exact h.score_eq hw e

theorem applyLeaf (h : Honest X ok good full) {m : Leaf S V} (hm : ∀ a ∈ m.slots, ok a)
    (hw : good w) : good (m.apply w) := by
  cases m with
  | change x entity value =>
    exact h.assign (a := ⟨x, entity⟩) value hw (hm _ List.mem_cons_self)
  | swap x left right =>
    have hleft := h.assign (a := ⟨x, left⟩) (x.get (plan w) right) hw (hm _ List.mem_cons_self)
    exact h.assign (a := ⟨x, right⟩) (x.get (plan w) left) hleft
      (hm _ (List.mem_cons_of_mem _ List.mem_cons_self))

theorem apply (h : Honest X ok good full) (hm : m.Within ok) (hw : good w) : good (m.apply w) := by
  have hleaves : ∀ leaf ∈ m.leaves, ∀ a ∈ leaf.slots, ok a :=
    fun leaf hleaf a ha => hm a (Move.mem_slots.2 ⟨leaf, hleaf, ha⟩)
  unfold Move.apply
  generalize m.leaves = leaves at hleaves ⊢
  induction leaves generalizing w with
  | nil => exact hw
  | cons leaf leaves ih =>
    obtain ⟨hleaf, hrest⟩ := List.forall_mem_cons.1 hleaves
    exact ih (h.applyLeaf hleaf hw) hrest

theorem undo (h : Honest X ok good full) (hm : m.Within ok) (hw : good w) (p : S) :
    good ((m.undo p).apply w) :=
  h.apply (fun a ha => hm a (Move.mem_slots_of_undo ha)) hw

theorem checkedScore (h : Honest X ok good full) (hw : good w) {context : String}
    (e : Workspace.checkedScore context w = .ok a w') : good w' :=
  h.score hw (checkedScore_eq_ok e)

theorem scoreNow (h : Honest X ok good full) (hw : good w)
    (e : Workspace.scoreNow w = .ok a w') : good w' :=
  h.score hw (scoreNow_eq_ok e)

theorem scoreCandidate [ToString V] (h : Honest X ok good full) {mode : Mode} (hm : m.Within ok)
    (hw : good w) (e : PlanSearch.scoreCandidate mode m w = .ok a w') : good w' := by
  unfold PlanSearch.scoreCandidate at e
  split at e
  · obtain ⟨before, w₀, hbefore, e⟩ := Step.bind_eq_ok e
    have hw₀ := h.scoreNow hw hbefore
    rw [Step.get_bind, Step.modify_bind] at e
    obtain ⟨b, w₁, hscore, e⟩ := Step.bind_eq_ok e
    have hw₁ := h.checkedScore (h.apply hm hw₀) hscore
    rw [Step.modify_bind] at e
    obtain ⟨after, w₂, hafter, e⟩ := Step.bind_eq_ok e
    have hw₂ := h.scoreNow (h.undo hm hw₁ _) hafter
    split at e
    · obtain ⟨c, w₃, hcheck, e⟩ := Step.bind_eq_ok e
      cases e
      exact h.checkedScore hw₂ hcheck
    · cases e
  · rw [Step.get_bind, Step.modify_bind] at e
    obtain ⟨b, w₁, hscore, e⟩ := Step.bind_eq_ok e
    have hw₁ := h.scoreNow (h.apply hm hw) hscore
    rw [Step.modify_bind] at e
    cases e
    exact h.undo hm hw₁ _

end Honest

end PlanSearch.Workspace

namespace PlanSearch.RecomputingWorkspace

variable {S V : Type} {sh : Shape} [Plan S sh]

/-- A workspace that computes its score anew is honest, whatever the variables are. -/
theorem honest (X : Variable S V → Prop) {calculate : S → Checked (Score sh)}
    (hc : ∀ a p, calculate (Plan.setScore a p) = calculate p) :
    Workspace.Honest X (fun a => X a.cell) (Keeps calculate) calculate where
  movable _ _ hy _ _ := hy
  assign _ h _ := ⟨h.1, nofun⟩
  score h e := h.score hc e
  restart h := ⟨h.1, nofun⟩
  fullScore_eq {w} h := by
    show w.calculate w.plan = _
    rw [h.1]
    rfl
  score_eq {w w' a} h e := by
    have hcalc := h.calculate_eq e
    show w'.calculate w'.plan = .ok a
    rw [(h.score hc e).1]
    rcases score_eq_ok e with ⟨-, rfl⟩ | ⟨-, -, rfl⟩
    · exact hcalc
    · exact (hc _ _).trans hcalc
  full_setScore := hc

end PlanSearch.RecomputingWorkspace
