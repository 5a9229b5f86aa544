import Mathlib.Data.List.Forall2
import PlanSearch.Evaluation
import PlanSearch.Proofs.Move.Undo

/-!
# Scoring candidates

On an exact workspace a candidate is scored with the full score of the plan that it leads to, and
the workspace holds the same plan afterwards. Hence it does not matter which candidates were scored
before, and several workers answer what one would answer.

    scoreCandidate mode m w = .ok a w' → Holds p w' ∧ m.LeadsTo p a      (scoreCandidate_eq_ok)
    scoreBatch mode threads batch w = .ok answers → …                    (scoreBatch_eq_ok)
-/

namespace PlanSearch

variable {W S V : Type} {sh : Shape} [Plan S sh] [Workspace W S sh] {X : Variable S V → Prop}
  {same : S → S → Prop} {good : W → Prop} {p : S} {w w' : W} {m : Move S V} {a : Score sh}

namespace Workspace

/-- A good workspace on the plan `p`, or on one that counts as the same. -/
structure Holds (same : S → S → Prop) (good : W → Prop) (p : S) (w : W) : Prop where
  good : good w
  same : same p (plan w)

variable [Workspace.Lawful W]

/-- The check never fails on an exact workspace that has a score. -/
theorem Exact.checkedScore_error (hg : Exact X same good) (h : Lenses X same) (hw : good w)
    {context : String} {e : Failure} (he : checkedScore context w = .error e w') :
    Fails good e := by
  rcases Step.bind_eq_error he with he | ⟨b, w₁, hb, he⟩
  · exact fails_of_scoreNow hw he
  · have hb := scoreNow_eq_ok hb
    rw [Step.get_bind] at he
    have hfull : fullScore w₁ = .ok b := by
      rw [hg.fullScore_congr (hg.score hw hb) hw (same_score h.equivalence hg.scoreFree hb)]
      exact hg.fullScore_eq hw hb
    rw [hfull] at he
    rcases Step.bind_eq_error he with hc | ⟨c, w₂, hc, he⟩
    · cases hc
    · cases hc
      rw [if_pos rfl] at he
      cases he

end Workspace

open Workspace

/-- The full score of the plan that `m` leads to from `p`. -/
def Move.LeadsTo (same : S → S → Prop) (good : W → Prop) (p : S) (m : Move S V) (a : Score sh) :
    Prop :=
  ∀ w : W, Holds same good p w → fullScore (m.apply w) = .ok a

/-- The answer is the score that the candidate leads to. -/
def Answered (same : S → S → Prop) (good : W → Prop) (p : S) (m : Move S V)
    (answer : Except SolverError (Score sh)) : Prop :=
  ∃ a, answer = .ok a ∧ m.LeadsTo same good p a

variable [Workspace.Lawful W]

namespace Workspace.Holds

theorem score (hw : Holds same good p w) (hg : Exact X same good) (h : Lenses X same)
    (e : Workspace.score w = .ok a w') : Holds same good p w' :=
  ⟨hg.score hw.good e,
    h.equivalence.trans hw.same (h.equivalence.symm (same_score h.equivalence hg.scoreFree e))⟩

theorem apply (hw : Holds same good p w) (hg : Exact X same good) (h : Lenses X same)
    (hm : m.Of X p) : Holds same good (m.on p) (m.apply w) := by
  refine ⟨hg.apply h (hm.congr h hw.same) hw.good, ?_⟩
  rw [Move.plan_apply]
  exact Move.on_congr h hm hw.same

theorem leadsTo (hw : Holds same good p w) (hg : Exact X same good) (h : Lenses X same)
    (hm : m.Of X p) (e : Workspace.score (m.apply w) = .ok a w') : m.LeadsTo same good p a := by
  intro v hv
  have hmw := hw.apply hg h hm
  have hmv := hv.apply hg h hm
  rw [hg.fullScore_congr hmv.good hmw.good
    (h.equivalence.trans (h.equivalence.symm hmv.same) hmw.same)]
  exact hg.fullScore_eq hmw.good e

/-- Once `m` is undone, the workspace holds what it held before. -/
theorem undo (hw : Holds same good p w) (hg : Exact X same good) (h : Lenses X same)
    (hm : m.Of X p) (hw' : Holds same good (m.on p) w') :
    Holds same good p ((m.undo (plan w)).apply w') := by
  have hmw := hm.congr h hw.same
  have hsame : same (m.on (plan w)) (plan w') :=
    h.equivalence.trans (h.equivalence.symm (Move.on_congr h hm hw.same)) hw'.same
  obtain ⟨hgood, hplan, -⟩ := hg.undo h hmw hw.good hw'.good hsame
  exact ⟨hgood, h.equivalence.trans hw.same (h.equivalence.symm hplan)⟩

end Workspace.Holds

/-- It does not matter on which workspace `m` is applied. -/
theorem Move.LeadsTo.fullScore_eq (hleads : m.LeadsTo same good p a) (h : Lenses X same)
    (hg : Exact X same good) (hm : m.Of X p) (hw : Holds same good p w)
    (hw' : Holds same good (m.on p) w') : fullScore w' = .ok a := by
  have hmw := hw.apply hg h hm
  rw [hg.fullScore_congr hw'.good hmw.good
    (h.equivalence.trans (h.equivalence.symm hw'.same) hmw.same)]
  exact hleads w hw

variable [ToString V]

theorem scoreCandidate_eq_ok {mode : Mode} (hg : Exact X same good) (h : Lenses X same)
    (hm : m.Of X p) (hw : Holds same good p w) (e : scoreCandidate mode m w = .ok a w') :
    Holds same good p w' ∧ m.LeadsTo same good p a := by
  unfold scoreCandidate at e
  split at e
  · obtain ⟨before, w₀, hbefore, e⟩ := Step.bind_eq_ok e
    have hw₀ := hw.score hg h (scoreNow_eq_ok hbefore)
    rw [Step.get_bind, Step.modify_bind] at e
    obtain ⟨b, w₁, hscore, e⟩ := Step.bind_eq_ok e
    have hscore := checkedScore_eq_ok hscore
    have hundone := hw₀.undo hg h hm ((hw₀.apply hg h hm).score hg h hscore)
    rw [Step.modify_bind] at e
    obtain ⟨after, w₂, hafter, e⟩ := Step.bind_eq_ok e
    have hw₂ := hundone.score hg h (scoreNow_eq_ok hafter)
    split at e
    · obtain ⟨c, w₃, hcheck, e⟩ := Step.bind_eq_ok e
      cases e
      exact ⟨hw₂.score hg h (checkedScore_eq_ok hcheck), hw₀.leadsTo hg h hm hscore⟩
    · cases e
  · rw [Step.get_bind, Step.modify_bind] at e
    obtain ⟨b, w₁, hscore, e⟩ := Step.bind_eq_ok e
    have hscore := scoreNow_eq_ok hscore
    rw [Step.modify_bind] at e
    cases e
    exact ⟨hw.undo hg h hm ((hw.apply hg h hm).score hg h hscore), hw.leadsTo hg h hm hscore⟩

/-- On an exact workspace nothing but a failing score keeps a candidate from being scored. -/
theorem scoreCandidate_error {mode : Mode} (hg : Exact X same good) (h : Lenses X same)
    (hm : m.Of X p) (hw : Holds same good p w) {failure : Failure}
    (e : scoreCandidate mode m w = .error failure w') : Fails good failure := by
  unfold scoreCandidate at e
  split at e
  · rcases Step.bind_eq_error e with e | ⟨before, w₀, hbefore, e⟩
    · exact fails_of_scoreNow hw.good e
    have hbefore := scoreNow_eq_ok hbefore
    have hw₀ := hw.score hg h hbefore
    rw [Step.get_bind, Step.modify_bind] at e
    have hmw := hw₀.apply hg h hm
    rcases Step.bind_eq_error e with e | ⟨b, w₁, hscore, e⟩
    · exact hg.checkedScore_error h hmw.good e
    have hundone := hw₀.undo hg h hm (hmw.score hg h (checkedScore_eq_ok hscore))
    rw [Step.modify_bind] at e
    rcases Step.bind_eq_error e with e | ⟨after, w₂, hafter, e⟩
    · exact fails_of_scoreNow hundone.good e
    have hafter := scoreNow_eq_ok hafter
    -- The score is back, since the plan is.
    have hback : after = before := by
      have hfull := hg.fullScore_congr hundone.good hw.good
        (h.equivalence.trans (h.equivalence.symm hundone.same) hw.same)
      rw [hg.fullScore_eq hundone.good hafter, hg.fullScore_eq hw.good hbefore] at hfull
      exact Except.ok.inj hfull
    rw [if_pos hback] at e
    rcases Step.bind_eq_error e with e | ⟨c, w₃, hcheck, e⟩
    · exact hg.checkedScore_error h (hundone.score hg h hafter).good e
    · cases e
  · rw [Step.get_bind, Step.modify_bind] at e
    rcases Step.bind_eq_error e with e | ⟨b, w₁, hscore, e⟩
    · exact fails_of_scoreNow (hw.apply hg h hm).good e
    rw [Step.modify_bind] at e
    cases e

/-! ## Batches -/

theorem scoreEach_eq_ok {mode : Mode} {ms : List (Move S V)}
    {answers : List (Except SolverError (Score sh))} (hg : Exact X same good) (h : Lenses X same)
    (hm : ∀ m ∈ ms, m.Of X p) (hw : Holds same good p w)
    (e : scoreEach mode ms w = .ok answers) :
    List.Forall₂ (Answered same good p) ms answers := by
  induction ms generalizing w answers with
  | nil =>
    cases e
    exact .nil
  | cons m ms ih =>
    have hof := hm m List.mem_cons_self
    have hrest := fun m' hm' => hm m' (List.mem_cons_of_mem _ hm')
    unfold scoreEach at e
    split at e
    · next a w' hscore =>
      obtain ⟨hw', hleads⟩ := scoreCandidate_eq_ok hg h hof hw hscore
      obtain ⟨rest, hrest', rfl⟩ := Checked.map_eq_ok e
      exact .cons ⟨a, rfl, hleads⟩ (ih hrest hw' hrest')
    · next hscore =>
      obtain ⟨_, _, f, _, _, hf⟩ := scoreCandidate_error hg h hof hw hscore
      cases hf
    · cases e

theorem flatten_runsOf {α : Type} {k : Nat} (hk : k ≠ 0) (xs : List α) :
    (runsOf k xs).flatten = xs := by
  induction hn : xs.length using Nat.strongRecOn generalizing xs with
  | ind n ih =>
    unfold runsOf
    split
    · next hxs => exact (hxs.resolve_left hk).symm
    · next hxs =>
      have hpos : 0 < xs.length := List.length_pos_iff.2 fun e => hxs (.inr e)
      rw [List.flatten_cons, ih (xs.drop k).length (by rw [List.length_drop]; omega) _ rfl,
        List.take_append_drop]

theorem runsOf_zero {α : Type} (xs : List α) : runsOf 0 xs = [] := by
  unfold runsOf
  simp

theorem mem_of_mem_runsOf {α : Type} {k : Nat} {xs ys : List α} {a : α} (hys : ys ∈ runsOf k xs)
    (ha : a ∈ ys) : a ∈ xs := by
  by_cases hk : k = 0
  · rw [hk, runsOf_zero] at hys
    cases hys
  · rw [← flatten_runsOf hk xs]
    exact List.mem_flatten.2 ⟨ys, hys, ha⟩

omit [Plan S sh] [Workspace.Lawful W] in
theorem length_scoreEach {mode : Mode} {ms : List (Move S V)} {w : W}
    {answers : List (Except SolverError (Score sh))} (e : scoreEach mode ms w = .ok answers) :
    answers.length = ms.length := by
  induction ms generalizing w answers with
  | nil =>
    cases e
    rfl
  | cons m ms ih =>
    unfold scoreEach at e
    split at e
    · obtain ⟨rest, hrest, rfl⟩ := Checked.map_eq_ok e
      exact congrArg (· + 1) (ih hrest)
    · obtain ⟨rest, hrest, rfl⟩ := Checked.map_eq_ok e
      exact congrArg (· + 1) (ih hrest)
    · cases e

omit [Plan S sh] [Workspace.Lawful W] in
/-- Workers leave no candidate out. -/
theorem length_scoreBatch {mode : Mode} {threads : Nat} {batch : List (Move S V)} {w : W}
    {answers : List (Except SolverError (Score sh))} (hthreads : threads ≠ 0)
    (e : scoreBatch mode threads batch w = .ok answers) : answers.length = batch.length := by
  obtain ⟨runs, hruns, e⟩ := Checked.bind_eq_ok e
  cases e
  have hlengths : List.Forall₂ (fun run answers => answers.length = run.length)
      (runsOf ((batch.length + threads - 1) / threads) batch) runs :=
    (Checked.mapM_eq_ok hruns).imp fun _ _ => length_scoreEach
  have hflat : ∀ {xs : List (List (Move S V))} {ys : List (List (Except SolverError (Score sh)))},
      List.Forall₂ (fun run answers => answers.length = run.length) xs ys →
        ys.flatten.length = xs.flatten.length := by
    intro xs ys h
    induction h with
    | nil => rfl
    | cons h _ ih => rw [List.flatten_cons, List.flatten_cons, List.length_append,
        List.length_append, h, ih]
  rw [hflat hlengths]
  cases batch with
  | nil =>
    unfold runsOf
    simp
  | cons m ms =>
    rw [flatten_runsOf]
    refine Nat.ne_of_gt (Nat.div_pos ?_ (Nat.pos_of_ne_zero hthreads))
    rw [List.length_cons]
    omega

omit [Plan S sh] [Workspace.Lawful W] in
theorem answers_of_no_workers {mode : Mode} {batch : List (Move S V)} {w : W}
    {answers : List (Except SolverError (Score sh))} (e : scoreBatch mode 0 batch w = .ok answers) :
    answers = [] := by
  obtain ⟨runs, hruns, e⟩ := Checked.bind_eq_ok e
  cases e
  rw [Nat.div_zero, runsOf_zero] at hruns
  cases hruns
  rfl

/-- Several workers answer what one would answer, if each has something to do. -/
theorem scoreBatch_answered {mode : Mode} {threads : Nat} {batch : List (Move S V)}
    {answers : List (Except SolverError (Score sh))} (hg : Exact X same good) (h : Lenses X same)
    (hk : (batch.length + threads - 1) / threads ≠ 0) (hm : ∀ m ∈ batch, m.Of X p)
    (hw : Holds same good p w) (e : scoreBatch mode threads batch w = .ok answers) :
    List.Forall₂ (Answered same good p) batch answers := by
  obtain ⟨runs, hruns, e⟩ := Checked.bind_eq_ok e
  cases e
  generalize (batch.length + threads - 1) / threads = k at hk hruns
  obtain ⟨hlength, hall⟩ := List.forall₂_iff_zip.1 (Checked.mapM_eq_ok hruns)
  have heach : List.Forall₂ (List.Forall₂ (Answered same good p)) (runsOf k batch) runs := by
    refine List.forall₂_iff_zip.2 ⟨hlength, fun {run answers} hmem => ?_⟩
    refine scoreEach_eq_ok hg h (fun m hm' => hm m ?_) hw (hall hmem)
    rw [← flatten_runsOf hk batch]
    exact List.mem_flatten.2 ⟨run, (List.of_mem_zip hmem).1, hm'⟩
  have hflat := List.rel_flatten heach
  rwa [flatten_runsOf hk] at hflat

/-- Several workers answer what one would answer, as far as they answer. -/
theorem scoreBatch_eq_ok {mode : Mode} {threads : Nat} {batch : List (Move S V)}
    {answers : List (Except SolverError (Score sh))} (hg : Exact X same good) (h : Lenses X same)
    (hm : ∀ m ∈ batch, m.Of X p) (hw : Holds same good p w)
    (e : scoreBatch mode threads batch w = .ok answers) :
    ∀ q ∈ batch.zip answers, Answered same good p q.1 q.2 := by
  intro q hq
  by_cases hk : (batch.length + threads - 1) / threads = 0
  · obtain ⟨runs, hruns, e⟩ := Checked.bind_eq_ok e
    cases e
    rw [hk, runsOf_zero] at hruns
    cases hruns
    change q ∈ batch.zip [] at hq
    rw [List.zip_nil_right] at hq
    cases hq
  · exact (List.forall₂_iff_zip.1 (scoreBatch_answered hg h hk hm hw e)).2 hq

/-! ## Scores that never fail -/

end PlanSearch
