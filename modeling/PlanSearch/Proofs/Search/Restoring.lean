import PlanSearch.Proofs.Lifecycle.Quiet
import PlanSearch.Proofs.Search.Evaluation
import PlanSearch.Proofs.Workspace.Lawful

/-!
# What a candidate leaves behind

Whatever a workspace answers for scores, right or wrong, a candidate is taken back before its score
is answered, and so it is when taking it back does not bring the score back. In full assertion mode
the score of the plan with the candidate is checked before the candidate is taken back; when that
check fails, the candidate stays.

    scoreCandidate mode m w = .ok a w' → same (plan w') (plan w)
    scoreCandidate mode m w = .error e w' → m.Abandoned same w e w'     (scoreCandidate_leaves)
-/

namespace PlanSearch

variable {W S V : Type} {sh : Shape} [Plan S sh] [Workspace W S sh] {same : S → S → Prop}
  {X : Variable S V → Prop} {w w' v : W}

namespace Workspace

/-! ## Asking for scores -/

/-- The score was asked for. -/
def Asked (w w' : W) : Prop := (∃ a, score w = .ok a w') ∨ ∃ f, score w = .error f w'

/-- The score that was answered is not the score from scratch. -/
structure Contradicted (context : String) (w w' : W) (a full : Score sh) (f : Failure) : Prop where
  score : Workspace.score w = .ok a w'
  fullScore : Workspace.fullScore w' = .ok full
  ne : a ≠ full
  eq : f = .error (.scoreCorruption context a.toText full.toText)

theorem same_of_asked [Workspace.Lawful W] (he : Equivalence same) (hs : ScoreFree same)
    (h : Asked w w') : same (plan w') (plan w) := by
  rcases h with ⟨a, h⟩ | ⟨f, h⟩
  · exact same_score he hs h
  · rw [Lawful.plan_score_error h]
    exact he.refl _

omit [Plan S sh] in
theorem scoreNow_asked (w : W) :
    Finishes (fun a w' => score w = .ok a w') (fun f w' => (∃ c, f = .fault c) ∧ Asked w w')
      (scoreNow w) := by
  cases e : scoreNow w with
  | ok a w' => exact .ok (scoreNow_eq_ok e)
  | error f w' =>
    obtain ⟨c, rfl, hscore⟩ := scoreNow_error e
    exact .error ⟨⟨c, rfl⟩, .inr ⟨c, hscore⟩⟩

omit [Plan S sh] in
theorem checkedScore_asked (context : String) (w : W) :
    Finishes (fun a w' => score w = .ok a w')
      (fun f w' => ((∃ c, f = .fault c) ∨ ∃ a full, Contradicted context w w' a full f) ∧ Asked w w')
      (checkedScore context w) := by
  unfold checkedScore
  refine ((scoreNow_asked w).mono (fun _ _ h => h) fun _ _ h => ⟨.inl h.1, h.2⟩).bind
    fun a w' ha => ?_
  rw [Step.get_bind]
  cases hfull : fullScore w' with
  | error c => exact .error ⟨.inl ⟨c, rfl⟩, .inl ⟨a, ha⟩⟩
  | ok full =>
    show Finishes _ _ ((if a = full then pure a else throw _ : Action W (Score sh)) w')
    split
    · exact .ok ha
    · next hne => exact .error ⟨.inr ⟨a, full, ha, hfull, hne, rfl⟩, .inl ⟨a, ha⟩⟩

omit [Plan S sh] in
theorem scoreNow_of_score {a : Score sh} (h : score w = .ok a w') : scoreNow w = .ok a w' := by
  unfold scoreNow
  rw [h]

omit [Plan S sh] in
theorem checkedScore_of_ne (context : String) {a full : Score sh} (ha : score w = .ok a w')
    (hfull : fullScore w' = .ok full) (hne : a ≠ full) : checkedScore context w =
      .error (.error (.scoreCorruption context a.toText full.toText)) w' := by
  unfold checkedScore
  rw [Step.bind_ok (scoreNow_of_score ha), Step.get_bind, hfull]
  show (if a = full then pure a else throw _ : Action W (Score sh)) w' = _
  rw [if_neg hne]
  rfl

end Workspace

open Workspace

/-! ## Candidates -/

variable {m : Move S V} [ToString V]

/-- How scoring `m` on `w` fails, and on what plan. -/
inductive Move.Abandoned (same : S → S → Prop) (m : Move S V) (w : W) : Failure → W → Prop
  /-- There is no score; `m` is still to be applied, stays applied or was taken back. -/
  | fault {c : Fault} {w' : W} (hplan : same (plan w') (plan w) ∨ same (plan w') (m.on (plan w))) :
      Abandoned same m w (.fault c) w'
  /-- The score that `m` leads to is not the score from scratch; `m` stays applied. -/
  | applied {a full : Score sh} {v w' : W} (hv : same (plan v) (plan w))
      (hscore : score (m.apply v) = .ok a w') (hfull : fullScore w' = .ok full) (hne : a ≠ full)
      (hplan : same (plan w') (m.on (plan w))) :
      Abandoned same m w
        (.error (.scoreCorruption s!"after candidate {m.describe}" a.toText full.toText)) w'
  /-- The score is not what it was. -/
  | unequal {a b : Score sh} {w' : W} (hne : b ≠ a) (hplan : same (plan w') (plan w)) :
      Abandoned same m w (.error (.undoCorruption m.describe a.toText b.toText)) w'
  /-- The score is what it was, but is not the score from scratch. -/
  | undone {a full : Score sh} {w' : W} (hfull : fullScore w' = .ok full) (hne : a ≠ full)
      (hplan : same (plan w') (plan w)) :
      Abandoned same m w
        (.error (.scoreCorruption s!"after undo of {m.describe}" a.toText full.toText)) w'

namespace Move

variable [Workspace.Lawful W]

omit [ToString V] in
/-- What was asked for the score since `m` was applied differs in the stored score at most. -/
theorem same_on (h : Lenses X same) (hs : ScoreFree same) (hm : m.Of X (plan w))
    (hv : same (plan v) (plan w)) (hasked : Asked (m.apply v) w') :
    same (plan w') (m.on (plan w)) := by
  have hscored := same_of_asked h.equivalence hs hasked
  rw [plan_apply] at hscored
  exact h.equivalence.trans hscored
    (on_congr h (hm.congr h (h.equivalence.symm hv)) hv)

omit [ToString V] in
/-- Then `m` is taken back. -/
theorem same_back (h : Lenses X same) (hs : ScoreFree same) (hm : m.Of X (plan w))
    (hv : same (plan v) (plan w)) (hasked : Asked (m.apply v) w') :
    same (plan ((m.undo (plan v)).apply w')) (plan w) := by
  have hmv := hm.congr h (h.equivalence.symm hv)
  have hback := undo_on_same h hmv
    (h.equivalence.symm (same_on h hs hmv (h.equivalence.refl _) hasked))
  rw [plan_apply]
  exact h.equivalence.trans hback hv

end Move

variable [Workspace.Lawful W]

theorem scoreCandidate_abandoned (h : Lenses X same) (hs : ScoreFree same) (hm : m.Of X (plan w))
    (mode : Mode) :
    Finishes (fun _ w' => same (plan w') (plan w)) (m.Abandoned same w)
      (scoreCandidate mode m w) := by
  have trans {p q r : S} : same p q → same q r → same p r := h.equivalence.trans
  unfold scoreCandidate
  split
  · refine ((scoreNow_asked w).mono (fun _ _ hw₀ => hw₀) ?_).bind fun before w₀ hw₀ => ?_
    · rintro _ w₀ ⟨⟨c, rfl⟩, hasked⟩
      exact .fault (.inl (same_of_asked h.equivalence hs hasked))
    have hplan₀ := same_score h.equivalence hs hw₀
    rw [Step.get_bind, Step.modify_bind]
    refine ((checkedScore_asked _ _).mono (fun _ _ hw₁ => hw₁) ?_).bind fun score w₁ hw₁ => ?_
    · rintro _ w₁ ⟨⟨c, rfl⟩ | ⟨a, full, hscore, hfull, hne, rfl⟩, hasked⟩
      · exact .fault (.inr (Move.same_on h hs hm hplan₀ hasked))
      · exact .applied hplan₀ hscore hfull hne (Move.same_on h hs hm hplan₀ hasked)
    have hback := Move.same_back h hs hm hplan₀ (.inl ⟨score, hw₁⟩)
    rw [Step.modify_bind]
    refine ((scoreNow_asked _).mono (fun _ _ hw₂ => hw₂) ?_).bind fun after w₂ hw₂ => ?_
    · rintro _ w₂ ⟨⟨c, rfl⟩, hasked⟩
      exact .fault (.inl (trans (same_of_asked h.equivalence hs hasked) hback))
    have hplan₂ := trans (same_score h.equivalence hs hw₂) hback
    split
    · refine ((checkedScore_asked _ w₂).mono (fun _ _ hw₃ => hw₃) ?_).bind fun a w₃ hw₃ => ?_
      · rintro _ w₃ ⟨⟨c, rfl⟩ | ⟨a, full, -, hfull, hne, rfl⟩, hasked⟩
        · exact .fault (.inl (trans (same_of_asked h.equivalence hs hasked) hplan₂))
        · exact .undone hfull hne (trans (same_of_asked h.equivalence hs hasked) hplan₂)
      · exact .ok (trans (same_score h.equivalence hs hw₃) hplan₂)
    · next hne => exact .error (.unequal hne hplan₂)
  · rw [Step.get_bind, Step.modify_bind]
    refine ((scoreNow_asked _).mono (fun _ _ hw₁ => hw₁) ?_).bind fun score w₁ hw₁ => ?_
    · rintro _ w₁ ⟨⟨c, rfl⟩, hasked⟩
      exact .fault (.inr (Move.same_on h hs hm (h.equivalence.refl _) hasked))
    · exact .ok (Move.same_back h hs hm (h.equivalence.refl _) (.inl ⟨score, hw₁⟩))

/-- Whatever the score is, a candidate that has one was taken back. -/
theorem scoreCandidate_same {mode : Mode} (h : Lenses X same) (hs : ScoreFree same)
    (hm : m.Of X (plan w)) {a : Score sh} (e : scoreCandidate mode m w = .ok a w') :
    same (plan w') (plan w) := by
  have hends := scoreCandidate_abandoned h hs hm mode
  rw [e] at hends
  cases hends with
  | ok hplan => exact hplan

/-- Whatever the scores are, a candidate is taken back, unless there is no score or the score with
the candidate is found to be wrong. In that case, which full assertion looks for, the plan with the
candidate is left behind. -/
theorem scoreCandidate_leaves (hX : PlanSearch.Lawful X) (hs : ScoreFree (Agree X))
    (hm : m.Of X (plan w)) (mode : Mode) :
    Finishes (fun _ w' => Agree X (plan w') (plan w)) (m.Abandoned (Agree X) w)
        (scoreCandidate mode m w) ∧
      (mode.isFullyAsserted = false → ∀ e w', scoreCandidate mode m w ≠ .error (.error e) w') ∧
      (mode.isFullyAsserted → ∀ (b a full : Score sh) (w₀ w₁ : W), score w = .ok b w₀ →
        score (m.apply w₀) = .ok a w₁ → fullScore w₁ = .ok full → a ≠ full →
          Agree X (plan w₁) (m.on (plan w)) ∧ scoreCandidate mode m w =
            .error (.error (.scoreCorruption s!"after candidate {m.describe}" a.toText full.toText))
              w₁) := by
  refine ⟨scoreCandidate_abandoned hX.lenses hs hm mode, fun hmode e w' he => ?_,
    fun hmode b a full w₀ w₁ hb ha hfull hne => ⟨?_, ?_⟩⟩
  · unfold scoreCandidate at he
    rw [if_neg (by simp [hmode]), Step.get_bind, Step.modify_bind] at he
    rcases Step.bind_eq_error he with he | ⟨a, w₁, -, he⟩
    · obtain ⟨c, hc, -⟩ := scoreNow_error he
      cases hc
    · rw [Step.modify_bind] at he
      cases he
  · exact Move.same_on hX.lenses hs hm (same_score hX.lenses.equivalence hs hb) (.inl ⟨a, ha⟩)
  · unfold scoreCandidate
    rw [if_pos hmode, Step.bind_ok (scoreNow_of_score hb), Step.get_bind, Step.modify_bind]
    exact Step.bind_error (checkedScore_of_ne _ ha hfull hne)

/-! ## A row whose score is never worked out again -/

namespace Row

/-- A workspace that answers the same score all the time. -/
structure Stubborn where
  row : Row
  known : Score .simple

namespace Stubborn

instance : Workspace Stubborn Row .simple where
  plan := row
  modify f w := { w with row := f w.row }
  reset row w := { w with row }
  score w := .ok w.known { w with row := Plan.setScore (some w.known) w.row }
  fullScore w := rate w.row
  beforeChange _ w := w
  afterChange _ w := w
  afterAdded _ w := w
  beforeRemoved _ w := w
  calculations _ := 0
  isIncremental _ := true

instance : Workspace.Lawful Stubborn where
  plan_modify _ _ := rfl
  plan_reset _ _ := rfl
  plan_beforeChange _ _ := rfl
  plan_afterChange _ _ := rfl
  plan_score e := by
    cases e
    exact .inr rfl
  plan_score_error e := by cases e

/-- The only cell has a value, which costs nothing. -/
def filled : Stubborn := ⟨⟨[some 7], none⟩, .zero⟩

end Stubborn

/-- The cell is emptied. -/
def emptying : Move Row Nat := .leaf (.change cell 0 none)

theorem emptying_of : emptying.Of (· = cell) (Workspace.plan Stubborn.filled) := fun a ha => by
  rw [List.mem_singleton.1 (show a ∈ [(⟨cell, 0⟩ : Slot Row Nat)] from ha)]
  exact of_iff.2 ⟨rfl, Nat.one_pos⟩

theorem emptying_stays : scoreCandidate .fullAssert emptying Stubborn.filled =
    .error (.error (.scoreCorruption "after candidate cell[0] -> None" "0" "-1"))
      ⟨⟨[none], some .zero⟩, .zero⟩ := by
  rfl

/-- A reported error does not mean that the candidate was taken back. -/
theorem candidate_stays : ¬ ∀ (mode : Mode) (m : Move Row Nat) (w : Stubborn),
    m.Of (· = cell) (plan w) → Finishes (fun _ w' => Agree (· = cell) (plan w') (plan w))
      (fun f w' => (∃ e, f = .error e) → Agree (· = cell) (plan w') (plan w))
      (scoreCandidate mode m w) := by
  intro h
  have hends := h .fullAssert emptying Stubborn.filled emptying_of
  rw [emptying_stays] at hends
  cases hends with
  | error hagree =>
    have hcell := (hagree ⟨_, rfl⟩).get ⟨cell, 0⟩ (of_iff.2 ⟨rfl, Nat.one_pos⟩)
    cases hcell

end Row

/-- Emptying the cell is scored without a check, and fails with one. -/
theorem scoreCandidate_leaves_emptying :
    Row.emptying.Of (· = Row.cell) (plan Row.Stubborn.filled) ∧
    (∃ a w', scoreCandidate .reproducible Row.emptying Row.Stubborn.filled = .ok a w' ∧
      Agree (· = Row.cell) (plan w') (plan Row.Stubborn.filled)) ∧
    ∃ f w', scoreCandidate .fullAssert Row.emptying Row.Stubborn.filled = .error f w' ∧
      Row.emptying.Abandoned (Agree (· = Row.cell)) Row.Stubborn.filled f w' := by
  refine ⟨Row.emptying_of, ?_, ?_⟩
  · obtain ⟨hends, -, -⟩ := scoreCandidate_leaves Row.lawful Row.agree_setScore Row.emptying_of
      .reproducible
    refine ⟨_, _, rfl, ?_⟩
    cases hends with
    | ok hplan => exact hplan
  · obtain ⟨hends, -, -⟩ := scoreCandidate_leaves Row.lawful Row.agree_setScore Row.emptying_of
      .fullAssert
    rw [Row.emptying_stays] at hends ⊢
    cases hends with
    | error hleft => exact ⟨_, _, rfl, hleft⟩

end PlanSearch
