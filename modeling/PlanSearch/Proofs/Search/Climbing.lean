import PlanSearch.Proofs.Lifecycle.Quiet
import PlanSearch.Proofs.Mirror.Search
import PlanSearch.Proofs.Score.Order

/-!
# Hill climbing never goes down

Hill climbing takes no candidate whose score is below that of the last step. The score with which a
candidate was considered is that of the step which applies it, and a step without an accepted
candidate keeps plan and score. So the scores that listeners are told of never fall, be the phase cut
short or not, and the plan at its end has the last of them.

    Climber … told last s → a step from s is told of with a score not below last     (Climber.step)
    solve fuel (p, run) tells of scores that rise to that of its plan                (solve_ascends)
-/

namespace PlanSearch

variable {W S V α : Type} {sh : Shape}

/-! ## Scores of workspaces -/

section

variable [Plan S sh] [Workspace W S sh] [Workspace.Lawful W] {X : Variable S V → Prop}
  {same : S → S → Prop} {good : W → Prop} {w w' : W} {a : Score sh}

/-- Storing the score in the plan does not change it. -/
theorem Workspace.Exact.fullScore_score (hg : Exact X same good) (hl : Lenses X same) (hw : good w)
    (e : Workspace.score w = .ok a w') : fullScore w' = .ok a := by
  rw [hg.fullScore_congr (hg.score hw e) hw (same_score hl.equivalence hg.scoreFree e)]
  exact hg.fullScore_eq hw e

theorem Workspace.Exact.fullScore_restart (hg : Exact X same good) (hl : Lenses X same)
    (hw : good w) : fullScore (Workspace.restart w) = fullScore w := by
  refine hg.fullScore_congr (hg.restart hw) hw ?_
  unfold Workspace.restart
  rw [Lawful.plan_reset]
  exact hl.equivalence.refl _

end

/-! ## Scores that listeners are told of -/

/-- The score that a phase starts with or that a step ends with. -/
def Notice.stepScore? : Notice S sh → Option (Option (Score sh))
  | .event .phaseStarted context => some context.stepScore
  | .event .stepEnded context => some context.stepScore
  | _ => none

/-- The scores of the starts of phases and of the ends of steps, oldest first. -/
def stepScores (trace : List (Notice S sh)) : List (Option (Score sh)) :=
  trace.reverse.filterMap Notice.stepScore?

theorem stepScores_cons (n : Notice S sh) (trace : List (Notice S sh)) :
    stepScores (n :: trace) = stepScores trace ++ n.stepScore?.toList := by
  unfold stepScores
  rw [List.reverse_cons, List.filterMap_append]
  cases h : n.stepScore? <;> simp [h]

theorem Run.onWorkspace_trace (x : Action W α) :
    Keeps (fun r : Run W S sh => r.trace) (onWorkspace x) := by
  intro r
  unfold onWorkspace
  split
  · exact .ok rfl
  · exact .error rfl

section

variable [Workspace W S sh] [Plan S sh]

/-- A new best plan is published apart from steps. -/
theorem Run.updateBest_stepScores :
    Keeps (fun r : Run W S sh => stepScores r.trace) updateBest := by
  intro r
  unfold updateBest
  refine Finishes.bind (Q := fun _ r' => stepScores r'.trace = stepScores r.trace)
    ((onWorkspace_trace _ r).mono (fun _ _ h => congrArg _ h) fun _ _ h => congrArg _ h)
    fun a r' h => ?_
  rw [Step.get_bind]
  dsimp only
  split
  · rw [Step.set_bind]
    refine .ok ((stepScores_cons _ r'.trace).trans ?_)
    rw [h]
    exact List.append_nil _
  · exact .ok h

theorem Scope.updateBest_stepScores :
    Keeps (fun sc : Scope W S sh => stepScores sc.run.trace) updateBest := by
  refine .bind (.onPart _ Run.updateBest_stepScores fun _ _ h => h) fun improved => ?_
  dsimp only
  split
  · exact .bind (.modify fun _ => rfl) fun _ => .pure _
  · exact .pure _

end

/-- On the way from `r` to `r'` listeners were told of the scores `as`. The first is that of the plan
in `r`, and none is below one before it. -/
structure Run.Ascends [Workspace W S sh] (r r' : Run W S sh) (as : List (Score sh)) : Prop where
  told : stepScores r'.trace = stepScores r.trace ++ as.map some
  start : ∀ a ∈ as.head?, Workspace.fullScore r.workspace = .ok a
  rising : as.Pairwise (· ≤ ·)

theorem Run.Ascends.nil [Workspace W S sh] {r r' : Run W S sh}
    (h : stepScores r'.trace = stepScores r.trace) : r.Ascends r' [] :=
  ⟨h.trans (List.append_nil _).symm, nofun, .nil⟩

namespace LocalSearch

/-- The acceptance rule of a search, and the scores that listeners were told of. -/
def outlook (s : Searching W S V sh) : Acceptance sh × List (Option (Score sh)) :=
  (s.1.acceptance, stepScores s.2.run.trace)

/-- Listeners were told of the scores `told` and then of `as`, which rise from `last`. -/
structure Climbed (told : List (Option (Score sh))) (last : Score sh) (as : List (Score sh))
    (s : Searching W S V sh) : Prop where
  outlook : outlook s = (.hillClimbing, told ++ as.map some)
  rising : (last :: as).Pairwise (· ≤ ·)

variable {told : List (Option (Score sh))} {last a : Score sh} {as : List (Score sh)} {fuel : Nat}
  {s t : Searching W S V sh}

namespace Climbed

theorem nil (h : LocalSearch.outlook s = (.hillClimbing, told)) : Climbed told last [] s :=
  ⟨h.trans (congrArg _ (List.append_nil told).symm), List.pairwise_singleton _ _⟩

theorem cons (hle : last ≤ a) (h : Climbed (told ++ [some a]) a as s) :
    Climbed told last (a :: as) s := by
  constructor
  · rw [h.outlook, List.append_assoc]
    rfl
  · have hrising := List.pairwise_cons.1 h.rising
    refine List.pairwise_cons.2 ⟨?_, h.rising⟩
    intro b hb
    rcases List.mem_cons.1 hb with rfl | hb
    · exact hle
    · exact Score.le_trans hle (hrising.1 b hb)

end Climbed

theorem onScope_outlook {x : Action (Scope W S sh) α}
    (h : Keeps (fun sc : Scope W S sh => stepScores sc.run.trace) x) :
    Keeps (outlook : Searching W S V sh → _) (onScope x) :=
  .onPart _ h fun _ s hs => congrArg (s.1.acceptance, ·) hs

variable [Workspace W S sh]

theorem outlook_fired (h : outlook s = (.hillClimbing, told)) (e : Event) (a : Score sh) :
    outlook (fired e a s) = (.hillClimbing,
      told ++ (Notice.event e (s.2.context (some a))).stepScore?.toList) := by
  obtain ⟨hacceptance, htold⟩ := Prod.mk.inj h
  refine Prod.ext ?_ ?_
  · show s.1.acceptance.hear e (some a) = .hillClimbing
    rw [hacceptance]
    rfl
  · show stepScores (_ :: s.2.run.trace) = _
    rw [stepScores_cons, htold]

namespace Climbed

/-- The end of a phase is not the end of a step. -/
theorem phaseEnded (h : Climbed told last as s) (a : Score sh) :
    Climbed told last as (fired .phaseEnded a s) :=
  ⟨(outlook_fired h.outlook .phaseEnded a).trans (congrArg _ (List.append_nil _)), h.rising⟩

theorem ascends {r : Run W S sh} (h : Climbed (stepScores r.trace ++ [some a]) a as s)
    (hstart : Workspace.fullScore r.workspace = .ok a) : r.Ascends s.2.run (a :: as) where
  told := (congrArg Prod.snd h.outlook).trans (List.append_assoc ..)
  start _ hb := Option.some.inj hb ▸ hstart
  rising := h.rising

end Climbed

/-- Between steps, a search that climbs hills stands on a plan with the score of its last step;
listeners were told of the scores `told`. -/
structure Climber (X : Variable S V → Prop) (good : W → Prop) (told : List (Option (Score sh)))
    (last : Score sh) (s : Searching W S V sh) : Prop extends Ready X good s where
  full : Workspace.fullScore s.2.run.workspace = .ok last
  outlook : outlook s = (.hillClimbing, told)

variable {X : Variable S V → Prop} {same : S → S → Prop} {good : W → Prop}

/-- A climber at the start of its phase. -/
theorem Ready.climber (h : Ready X good s)
    (hfull : Workspace.fullScore s.2.run.workspace = .ok a)
    (ho : LocalSearch.outlook s = (.hillClimbing, told)) :
    Climber X good (told ++ [some a]) a (fired .phaseStarted a s) where
  good := h.good
  treeOver := h.treeOver
  full := hfull
  outlook := outlook_fired ho .phaseStarted a

variable [Plan S sh]

theorem overlooks_outlook : Overlooks (outlook : Searching W S V sh → _) where
  drawn _ := rfl
  record _ _ := rfl
  workspace _ _ := rfl
  forager _ _ _ _ := rfl
  source _ _ := rfl

variable [DecidableEq V] [ToString V]

/-! ## Steps -/

/-- A step that is completed is told of with its score, any other is not. -/
theorem step_outlook (fuel : Nat) (last : Score sh) (h : outlook s = (.hillClimbing, told)) :
    Finishes
      (fun answer t => outlook t = (.hillClimbing, told ++ [some (answer.getD last)]))
      (fun _ t => outlook t = (.hillClimbing, told)) (step fuel last s) := by
  unfold step
  rw [fire_bind, mapPhase_bind]
  have hbegun : outlook (begun last s) = (.hillClimbing, told) :=
    (outlook_fired h .stepStarted last).trans (congrArg _ (List.append_nil told))
  refine Finishes.bind ((overlooks_outlook.forage_keeps fuel last (begun last s)).mono
    (fun _ _ h => h.trans hbegun) fun _ _ h => h.trans hbegun) fun m? t ht => ?_
  cases m? with
  | none =>
    dsimp only
    rw [fire_bind]
    exact .ok (outlook_fired ht .stepEnded last)
  | some m =>
    dsimp only
    rw [Step.get_bind]
    refine Finishes.bind ((overlooks_outlook.commit_keeps m _ t).mono
      (fun _ _ h => h.trans ht) fun _ _ h => h.trans ht) fun a u hu => ?_
    have hcomplete : Keeps (outlook : Searching W S V sh → _) (onScope Scope.completeStep) :=
      onScope_outlook (.bind (.modify fun _ => rfl) fun _ => Scope.updateBest_stepScores)
    refine Finishes.bind ((hcomplete u).mono
      (fun _ _ h => h.trans hu) fun _ _ h => h.trans hu) fun _ v hv => ?_
    rw [fire_bind]
    exact .ok (outlook_fired hv .stepEnded a)

variable [Workspace.Lawful W]

namespace Climber

/-- The score of the plan stays, or it becomes that of an accepted candidate. -/
theorem made (hl : Lenses X same) (hg : Workspace.Exact X same good)
    (h : Climber X good told last s) {answer : Option (Score sh)}
    (e : LocalSearch.step fuel last s = .ok answer t) :
    last ≤ answer.getD last ∧ Ready X good t ∧
      Workspace.fullScore t.2.run.workspace = .ok (answer.getD last) := by
  let x : StepMade W S V sh fuel := ⟨last, s, answer, t, e⟩
  obtain ⟨hatomic, hready, -⟩ := x.atomic hl hg h.toReady
  cases hatomic with
  | unchanged seen g gathered collected refused hanswer hplan =>
    obtain rfl : answer = none := hanswer
    refine ⟨Score.le_refl last, hready, ?_⟩
    rw [← hg.fullScore_congr h.good hready.good hplan]
    exact h.full
  | applied seen g p m gathered collected winner stored haccepted scored hplan hanswer noted hfull =>
    obtain rfl : answer = some p.score := hanswer
    have hle : s.1.acceptance.accepts last p.score := (List.mem_filter.1 haccepted).2
    rw [show s.1.acceptance = .hillClimbing from congrArg Prod.fst h.outlook] at hle
    exact ⟨of_decide_eq_true hle, hready, hfull⟩

theorem step (hl : Lenses X same) (hg : Workspace.Exact X same good) (fuel : Nat)
    (h : Climber X good told last s) :
    Finishes
      (fun answer t => last ≤ answer.getD last ∧
        Climber X good (told ++ [some (answer.getD last)]) (answer.getD last) t)
      (fun _ t => LocalSearch.outlook t = (.hillClimbing, told))
      (LocalSearch.step fuel last s) := by
  have hstep := (step_outlook fuel last h.outlook).and fun _ _ e => h.made hl hg e
  refine hstep.mono (fun answer t ht => ?_) fun _ _ ht => ht
  obtain ⟨houtlook, hle, hready, hfull⟩ := ht
  exact ⟨hle, hready, hfull, houtlook⟩

/-- Step by step the score rises, or stays as it is. -/
theorem steps (hl : Lenses X same) (hg : Workspace.Exact X same good) (rounds : Nat)
    (h : Climber X good told last s) :
    Finishes
      (fun x t => ∃ as, Climbed told last as t ∧ as.getLastD last = x.2 ∧
        Workspace.fullScore t.2.run.workspace = .ok x.2)
      (fun _ t => ∃ as, Climbed told last as t) (LocalSearch.steps fuel rounds last s) := by
  induction rounds generalizing told last s with
  | zero => exact .error ⟨[], .nil h.outlook⟩
  | succ rounds ih =>
    rw [LocalSearch.steps, Step.get_bind]
    dsimp only
    split
    · exact .ok ⟨[], .nil h.outlook, rfl, h.full⟩
    refine Finishes.bind ((h.step hl hg fuel).mono (fun _ _ h => h) fun _ t ht => ⟨[], .nil ht⟩) ?_
    rintro answer t ⟨hle, ht⟩
    cases answer with
    | some a =>
      refine (ih ht).mono ?_ ?_
      · rintro x u ⟨as, has, hlast, hfull⟩
        exact ⟨a :: as, has.cons hle, List.getLastD_cons.trans hlast, hfull⟩
      · rintro f u ⟨as, has⟩
        exact ⟨a :: as, has.cons hle⟩
    | none =>
      dsimp only
      cases s.1.noAcceptedMove with
      | terminate => exact .ok ⟨[last], .cons hle (.nil ht.outlook), rfl, ht.full⟩
      | proceed =>
        dsimp only
        rw [mapScope_bind]
        have hcounted : Climber X good (told ++ [some last]) last (t.1, t.2.countStep) :=
          ⟨⟨ht.good, ht.treeOver⟩, ht.full, ht.outlook⟩
        refine (ih hcounted).mono ?_ ?_
        · rintro x u ⟨as, has, hlast, hfull⟩
          exact ⟨last :: as, has.cons hle, List.getLastD_cons.trans hlast, hfull⟩
        · rintro f u ⟨as, has⟩
          exact ⟨last :: as, has.cons hle⟩

end Climber

/-! ## Whole phases -/

omit [DecidableEq V] [ToString V] in
/-- A phase starts with the score of its plan. -/
theorem opening_climbs (hl : Lenses X same) (hg : Workspace.Exact X same good) (h : Ready X good s)
    (ho : outlook s = (.hillClimbing, told)) :
    Finishes
      (fun start t => Workspace.fullScore s.2.run.workspace = .ok start ∧
        Climber X good (told ++ [some start]) start t)
      (fun _ t => outlook t = (.hillClimbing, told)) (opening s) := by
  unfold opening
  rw [mapScope_bind]
  have hscore : Finishes
      (fun start t => outlook t = (.hillClimbing, told) ∧ Ready X good t ∧
        Workspace.fullScore s.2.run.workspace = .ok start ∧
        Workspace.fullScore t.2.run.workspace = .ok start)
      (fun _ t => outlook t = (.hillClimbing, told))
      (onScope (Scope.onRun Run.scoreNow) (s.1, s.2.mapRun Run.restartWorkspace)) := by
    have hkeeps := overlooks_outlook.onWorkspace_keeps Workspace.scoreNow
      (s.1, s.2.mapRun Run.restartWorkspace)
    refine (hkeeps.mono (fun _ _ h => h.trans ho) fun _ _ h => h.trans ho).and fun start t e => ?_
    obtain ⟨r, hr, rfl⟩ := onRun_eq_ok e
    obtain ⟨w, hw, rfl⟩ := Run.onWorkspace_eq_ok hr
    have hw := Workspace.scoreNow_eq_ok hw
    have hrestart := hg.restart h.good
    have hbefore := hg.fullScore_eq hrestart hw
    rw [hg.fullScore_restart hl h.good] at hbefore
    exact ⟨⟨hg.score hrestart hw, h.treeOver⟩, hbefore, hg.fullScore_score hl hrestart hw⟩
  refine hscore.bind ?_
  rintro start t ⟨ht, hready, hstart, hfull⟩
  rw [mapScope_bind]
  have hbest : Finishes
      (fun _ u => outlook u = (.hillClimbing, told) ∧ Ready X good u ∧
        Workspace.fullScore u.2.run.workspace = .ok start)
      (fun _ u => outlook u = (.hillClimbing, told))
      (onScope Scope.updateBest
        (t.1, { t.2 with span := { t.2.span with startingScore := some start } })) := by
    have hkeeps := onScope_outlook Scope.updateBest_stepScores
      (t.1, { t.2 with span := { t.2.span with startingScore := some start } })
    refine (hkeeps.mono (fun _ _ h => h.trans ht) fun _ _ h => h.trans ht).and fun _ u e => ?_
    obtain ⟨sc, hsc, rfl⟩ := Action.onPart_eq_ok e
    obtain ⟨⟨b, hb⟩, -⟩ := Scope.updateBest_eq_ok hsc
    have hgood := hg.score hready.good hb
    refine ⟨⟨hgood, hready.treeOver⟩, ?_⟩
    rw [hg.fullScore_congr hgood hready.good
      (Workspace.same_score hl.equivalence hg.scoreFree hb)]
    exact hfull
  refine hbest.bind ?_
  rintro _ u ⟨hu, hready, hfull⟩
  rw [fire_bind]
  exact .ok ⟨hstart, hready.climber hfull hu⟩

theorem work_ascends (hl : Lenses X same) (hg : Workspace.Exact X same good) (fuel : Nat)
    (h : Ready X good s) (ha : s.1.acceptance = .hillClimbing) :
    Finishes
      (fun _ t => ∃ start as, s.2.run.Ascends t.2.run (start :: as) ∧
        Workspace.fullScore t.2.run.workspace = .ok (as.getLastD start))
      (fun _ t => ∃ as, s.2.run.Ascends t.2.run as) (work fuel s) := by
  rw [work_eq]
  have hopening := opening_climbs hl hg h (Prod.ext ha rfl)
  refine Finishes.bind (hopening.mono (fun _ _ h => h) fun _ t ht => ?_) ?_
  · exact ⟨[], .nil (congrArg Prod.snd ht)⟩
  rintro start t ⟨hstart, hclimber⟩
  refine Finishes.bind ((hclimber.steps hl hg fuel).mono (fun _ _ h => h) ?_) ?_
  · rintro f u ⟨as, has⟩
    exact ⟨start :: as, has.ascends hstart⟩
  · rintro ⟨outcome, last⟩ u ⟨as, has, hlast, hfull⟩
    dsimp only at hlast hfull ⊢
    rw [fire_bind]
    refine .ok ⟨start, as, (has.phaseEnded last).ascends hstart, ?_⟩
    rw [hlast]
    exact hfull

/-- However a phase of hill climbing ends, the scores of its steps never fall, from the score that it
starts with on. If it is not cut short, its plan has the score of the last step. -/
theorem solve_ascends (hl : Lenses X same) (hg : Workspace.Exact X same good) (fuel : Nat)
    {p : LocalSearch S V sh} {run : Run W S sh} (hp : p.neighbourhood.tree.Over X)
    (hw : good run.workspace) (ha : p.acceptance = .hillClimbing) :
    Finishes
      (fun _ t => ∃ start as, run.Ascends t.2 (start :: as) ∧
        Workspace.fullScore t.2.workspace = .ok (as.getLastD start))
      (fun _ t => ∃ as, run.Ascends t.2 as) (solve fuel (p, run)) := by
  unfold solve
  dsimp only
  split
  · exact .error ⟨[], .nil rfl⟩
  split
  · exact .error ⟨[], .nil rfl⟩
  have hwork := work_ascends hl hg fuel (s := (p, ⟨{ index := run.beginPhase.1 }, run.beginPhase.2⟩))
    ⟨hw, hp⟩ ha
  unfold inSpan
  dsimp only
  generalize work fuel
    (p, (⟨{ index := run.beginPhase.1 }, run.beginPhase.2⟩ : Scope W S sh)) = x at hwork ⊢
  cases hwork with
  | @ok outcome t h =>
    obtain ⟨start, as, hascends, hfull⟩ := h
    obtain ⟨p', sc⟩ := t
    refine .ok ?_
    exact ⟨start, as, ⟨hascends.told, hascends.start, hascends.rising⟩, hfull⟩
  | @error f t h =>
    obtain ⟨as, hascends⟩ := h
    obtain ⟨p', sc⟩ := t
    refine .error ?_
    exact ⟨as, hascends.told, hascends.start, hascends.rising⟩

end LocalSearch

namespace Row

/-- Filling the empty cell with a seven raises the score, and the step after it keeps it. -/
theorem solve_ascends_search : ∃ (outcome : Outcome) (p' : LocalSearch Row Nat .simple)
    (run' : Run (RecomputingWorkspace Row .simple) Row .simple) (start : Score .simple)
    (as : List (Score .simple)),
    LocalSearch.solve 5 (search, run) = .ok outcome (p', run') ∧
      run.Ascends run' (start :: as) ∧ as.length = 2 ∧
      Workspace.fullScore run'.workspace = .ok (as.getLastD start) := by
  have hover : search.neighbourhood.tree.Over (· = cell) := rfl
  have hgood : RecomputingWorkspace.Keeps rate run.workspace := ⟨rfl, nofun⟩
  have hascends := LocalSearch.solve_ascends lawful.lenses exact 5 hover hgood rfl
  have hok : (match LocalSearch.solve 5 (search, run) with
      | .ok _ (_, run') => decide ((stepScores run'.trace).length = 3)
      | .error _ _ => false) = true := by decide +kernel
  cases e : LocalSearch.solve 5 (search, run) with
  | error f s =>
    rw [e] at hok
    cases hok
  | ok outcome s =>
    rw [e] at hok hascends
    obtain ⟨p', run'⟩ := s
    obtain @⟨_, _, start, as, hascent, hfull⟩ := hascends
    refine ⟨outcome, p', run', start, as, rfl, hascent, ?_, hfull⟩
    have hlength := congrArg List.length hascent.told
    rw [of_decide_eq_true hok] at hlength
    simpa [stepScores, run] using hlength.symm

end Row

end PlanSearch
