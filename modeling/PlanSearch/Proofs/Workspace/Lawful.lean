import PlanSearch.Proofs.Checked
import PlanSearch.Proofs.Move.Slot
import PlanSearch.Workspace.Recomputing
import PlanSearch.Workspace.Incremental

/-!
# Lawful workspaces

A workspace holds a plan and does to it what it is told to: announcements leave it alone, and asking
for the score at most stores the score in it. A workspace is exact if its score is the score from
scratch as long as all changes are announced, and if that score depends on nothing but what counts
in a plan.
-/

namespace PlanSearch

namespace Workspace

variable {W S V : Type} {sh : Shape} [Workspace W S sh]

theorem scoreNow_eq_ok {w w' : W} {a : Score sh} (e : scoreNow w = .ok a w') :
    score w = .ok a w' := by
  unfold scoreNow at e
  split at e
  · next h =>
    cases e
    exact h
  · cases e

theorem scoreNow_error {w w' : W} {e : Failure} (h : scoreNow w = .error e w') :
    ∃ f, e = .fault f ∧ score w = .error f w' := by
  unfold scoreNow at h
  split at h
  · cases h
  · next hscore =>
    cases h
    exact ⟨_, rfl, hscore⟩

/-- The failure is that of a score of a good workspace. -/
def Fails (good : W → Prop) (e : Failure) : Prop :=
  ∃ (w w' : W) (f : Fault), good w ∧ score w = .error f w' ∧ e = .fault f

theorem fails_of_scoreNow {good : W → Prop} {w w' : W} (hw : good w) {e : Failure}
    (he : scoreNow w = .error e w') : Fails good e := by
  obtain ⟨f, hf, hscore⟩ := scoreNow_error he
  exact ⟨w, w', f, hw, hscore, hf⟩

/-- Good workspaces always have a score. -/
def Total (good : W → Prop) : Prop := ∀ w, good w → ∃ a w', score w = .ok a w'

theorem Total.not_fails {good : W → Prop} (h : Total good) {e : Failure} : ¬Fails good e := by
  rintro ⟨w, w', f, hw, hscore, -⟩
  obtain ⟨a, w'', hok⟩ := h w hw
  rw [hok] at hscore
  cases hscore

theorem checkedScore_eq_ok {w w' : W} {a : Score sh} {context : String}
    (h : checkedScore context w = .ok a w') :
    score w = .ok a w' := by
  obtain ⟨b, w₁, hb, h⟩ := Step.bind_eq_ok h
  rw [Step.get_bind] at h
  obtain ⟨c, w₄, hc, h⟩ := Step.bind_eq_ok h
  unfold Action.ofChecked at hc
  split at hc
  · cases hc
    split at h
    · cases h
      exact scoreNow_eq_ok hb
    · cases h
  · cases hc

variable [Plan S sh]

/-- The plan is changed by those who change it, and the score is stored in it. -/
class Lawful (W : Type) {S : Type} {sh : Shape} [Plan S sh] [Workspace W S sh] : Prop where
  plan_modify : ∀ (f : S → S) (w : W), plan (modify f w) = f (plan w)
  plan_reset : ∀ (s : S) (w : W), plan (reset s w) = s
  plan_beforeChange : ∀ (f : Fact) (w : W), plan (beforeChange f w) = plan w
  plan_afterChange : ∀ (f : Fact) (w : W), plan (afterChange f w) = plan w
  plan_score : ∀ {w w' : W} {a : Score sh}, score w = .ok a w' →
    plan w' = plan w ∨ plan w' = Plan.setScore (some a) (plan w)
  plan_score_error : ∀ {w w' : W} {f : Fault}, score w = .error f w' → plan w' = plan w

/-- The stored score does not count in a plan. -/
def ScoreFree (same : S → S → Prop) : Prop :=
  ∀ (a : Option (Score sh)) (p : S), same (Plan.setScore a p) p

/-- On the workspaces `good`, which announced changes of the variables `X` do not leave, the score
is the score from scratch, and it is the same on plans that count as the same. -/
structure Exact (X : Variable S V → Prop) (same : S → S → Prop) (good : W → Prop) : Prop where
  scoreFree : ScoreFree same
  assign : ∀ {w : W} {a : Slot S V} (v : Option V), good w → a.Of X (plan w) →
    good (a.cell.assign a.entity v w)
  score : ∀ {w w' : W} {a : Score sh}, good w → score w = .ok a w' → good w'
  restart : ∀ {w : W}, good w → good (restart w)
  fullScore_eq : ∀ {w w' : W} {a : Score sh}, good w → Workspace.score w = .ok a w' →
    fullScore w = .ok a
  fullScore_congr : ∀ {w w' : W}, good w → good w' → same (plan w) (plan w') →
    fullScore w = fullScore w'

theorem plan_assign [Lawful W] (x : Variable S V) (entity : Nat) (v : Option V) (w : W) :
    plan (x.assign entity v w) = x.set (plan w) entity v := by
  unfold Variable.assign
  rw [Lawful.plan_afterChange, Lawful.plan_modify, Lawful.plan_beforeChange]

theorem same_score [Lawful W] {same : S → S → Prop} (he : Equivalence same) (hs : ScoreFree same)
    {w w' : W} {a : Score sh} (e : score w = .ok a w') : same (plan w') (plan w) := by
  rcases Lawful.plan_score e with h | h
  · rw [h]
    exact he.refl _
  · rw [h]
    exact hs _ _

end Workspace

/-! ## Instances -/

namespace IncrementalWorkspace

variable {S : Type} {sh : Shape} [Plan S sh] {w : IncrementalWorkspace S sh}

theorem score_eq_ok {a : Score sh} {w' : IncrementalWorkspace S sh}
    (e : Workspace.score w = .ok a w') : ∃ count s', Session.settle w.plan w.session = .ok count s' ∧
      a = s'.score ∧ w' = ⟨Plan.setScore (some a) w.plan, s', w.calculations + 1⟩ := by
  obtain ⟨plan, session, calculations⟩ := w
  change IncrementalWorkspace.score _ = _ at e
  unfold IncrementalWorkspace.score at e
  dsimp only at e
  split at e
  · cases e
  · next a s' hs =>
    obtain ⟨count, s'', hsettle, hget⟩ := Step.bind_eq_ok hs
    cases hget
    cases e
    exact ⟨count, _, hsettle, rfl, rfl⟩

theorem score_eq_error {f : Fault} {w' : IncrementalWorkspace S sh}
    (e : Workspace.score w = .error f w') : ∃ s', Session.settle w.plan w.session = .error f s' ∧
      w' = { w with session := s' } := by
  obtain ⟨plan, session, calculations⟩ := w
  change IncrementalWorkspace.score _ = _ at e
  unfold IncrementalWorkspace.score at e
  dsimp only at e
  split at e
  · next f' s' hs =>
    cases e
    rcases Step.bind_eq_error hs with hsettle | ⟨count, s'', -, hget⟩
    · exact ⟨s', hsettle, rfl⟩
    · cases hget
  · cases e

instance : Workspace.Lawful (IncrementalWorkspace S sh) where
  plan_modify _ _ := rfl
  plan_reset _ _ := rfl
  plan_beforeChange _ _ := rfl
  plan_afterChange _ _ := rfl
  plan_score e := by
    obtain ⟨count, s', -, -, rfl⟩ := score_eq_ok e
    exact .inr rfl
  plan_score_error e := by
    obtain ⟨s', -, rfl⟩ := score_eq_error e
    rfl

end IncrementalWorkspace

namespace RecomputingWorkspace

variable {S V : Type} {sh : Shape} [Plan S sh] {w w' : RecomputingWorkspace S sh}

theorem score_eq_ok {a : Score sh} (e : Workspace.score w = .ok a w') :
    w.cached = some a ∧ w' = w ∨ w.cached = none ∧ w.calculate w.plan = .ok a ∧
      w' = { w with
        plan := Plan.setScore (some a) w.plan
        cached := some a
        calculations := w.calculations + 1 } := by
  change RecomputingWorkspace.score w = _ at e
  unfold RecomputingWorkspace.score at e
  split at e
  · next h =>
    cases e
    exact .inl ⟨h, rfl⟩
  · next h =>
    split at e
    · cases e
    · next hc =>
      cases e
      exact .inr ⟨h, hc, rfl⟩

theorem score_eq_error {f : Fault} (e : Workspace.score w = .error f w') : w' = w := by
  change RecomputingWorkspace.score w = _ at e
  unfold RecomputingWorkspace.score at e
  split at e
  · cases e
  · split at e
    · cases e
      rfl
    · cases e

instance : Workspace.Lawful (RecomputingWorkspace S sh) where
  plan_modify _ _ := rfl
  plan_reset _ _ := rfl
  plan_beforeChange _ _ := rfl
  plan_afterChange _ _ := rfl
  plan_score e := by
    rcases score_eq_ok e with ⟨-, rfl⟩ | ⟨-, -, rfl⟩
    · exact .inl rfl
    · exact .inr rfl
  plan_score_error e := by rw [score_eq_error e]

/-- The score that is kept is the score of the plan, by the given function. -/
def Keeps (calculate : S → Checked (Score sh)) (w : RecomputingWorkspace S sh) : Prop :=
  w.calculate = calculate ∧ ∀ a, w.cached = some a → calculate w.plan = .ok a

section

variable {calculate : S → Checked (Score sh)} {a : Score sh}

/-- The score that the workspace answers is the score of its plan. -/
theorem Keeps.calculate_eq (h : Keeps calculate w) (e : Workspace.score w = .ok a w') :
    calculate w.plan = .ok a := by
  rcases score_eq_ok e with ⟨hcached, -⟩ | ⟨-, hcalc, -⟩
  · exact h.2 a hcached
  · rw [← h.1]
    exact hcalc

/-- The score that was written to the plan is the score of the plan that it was written to. -/
theorem Keeps.score (hc : ∀ a p, calculate (Plan.setScore a p) = calculate p) (h : Keeps calculate w)
    (e : Workspace.score w = .ok a w') : Keeps calculate w' := by
  have hcalc := h.calculate_eq e
  rcases score_eq_ok e with ⟨-, rfl⟩ | ⟨-, -, rfl⟩
  · exact h
  · refine ⟨h.1, fun b hb => ?_⟩
    obtain rfl := Option.some.inj hb
    exact (hc _ _).trans hcalc

end

/-- A workspace that computes its score anew is exact, whatever it computes. -/
theorem exact {X : Variable S V → Prop} {same : S → S → Prop} {calculate : S → Checked (Score sh)}
    (hs : Workspace.ScoreFree same) (hc : ∀ p q, same p q → calculate p = calculate q) :
    Workspace.Exact X same (Keeps calculate) where
  scoreFree := hs
  assign _ h _ := ⟨h.1, nofun⟩
  score h e := h.score (fun _ _ => hc _ _ (hs _ _)) e
  restart h := ⟨h.1, nofun⟩
  fullScore_eq {w w' a} h e := by
    show w.calculate w.plan = .ok a
    rw [h.1]
    exact h.calculate_eq e
  fullScore_congr {w w'} h h' hsame := by
    show w.calculate w.plan = w'.calculate w'.plan
    rw [h.1, h'.1]
    exact hc _ _ hsame

end RecomputingWorkspace

namespace Row

/-- A row loses a point for every cell without a value. -/
def rate (row : Row) : Checked (Score .simple) :=
  .ok (Score.single 0 (-(Int64.ofNat (row.cells.count none))))

def workspace (cells : List (Option Nat)) : RecomputingWorkspace Row .simple where
  plan := ⟨cells, none⟩
  calculate := rate

theorem exact :
    Workspace.Exact (· = cell) (Agree (· = cell)) (RecomputingWorkspace.Keeps rate) :=
  RecomputingWorkspace.exact agree_setScore fun p q h => by
    unfold rate
    rw [cells_eq_of_agree h]

end Row

end PlanSearch
