import PlanSearch.Proofs.Search.Loop

/-!
# Steps of a local search

Every step of a local search is atomic. Either no candidate was accepted and the plan stays, or one
accepted candidate is applied to it: the one that the arena holds at the index which the forager
picked. The score of such a step is the score with which the candidate was considered, and it is the
full score of the plan after the step.

    step fuel last s = .ok answer t → Ready X good s → Atomic …, Ready X good t   (StepMade.atomic)
    solve fuel (p, run) = .ok outcome (p', run') → all of its steps are atomic     (solve_atomic)
-/

namespace PlanSearch

theorem Acceptance.hear_stepStarted {sh : Shape} (a : Acceptance sh) (score : Option (Score sh)) :
    a.hear .stepStarted score = a := by
  cases a <;> rfl

namespace LocalSearch

variable {W S V : Type} {sh : Shape} [Workspace W S sh]

/-! ## Events -/

/-- The state after everyone was told of an event. -/
def fired (e : Event) (a : Score sh) (s : Searching W S V sh) : Searching W S V sh :=
  (s.1.hear e s.2.run.plan (some a), s.2.mapRun (Run.announce (.event e (s.2.context (some a)))))

theorem fire_bind {α : Type} (e : Event) (a : Score sh) (g : Unit → Action (Searching W S V sh) α)
    (s : Searching W S V sh) : (fire e a >>= g) s = g () (fired e a s) := rfl

/-- The state in which a step begins to collect candidates. -/
def begun (last : Score sh) (s : Searching W S V sh) : Searching W S V sh :=
  ({ (fired .stepStarted last s).1 with arena := .empty }, (fired .stepStarted last s).2)

theorem accepted_begun (last : Score sh) (s : Searching W S V sh)
    (seen : List (Move S V × Score sh)) :
    (begun last s).1.accepted last seen = s.1.accepted last seen := by
  unfold accepted
  rw [← s.1.acceptance.hear_stepStarted (some last)]
  rfl

/-! ## What a step does -/

theorem commit_eq_ok [ToString V] {m : Move S V} {stepIndex : Nat} {a : Score sh}
    {r r' : Run W S sh} (e : commit m stepIndex r = .ok a r') :
    ∃ w, Workspace.score (m.apply r.workspace) = .ok a w ∧ r' = { r with workspace := w } := by
  unfold commit at e
  rw [Step.get_bind] at e
  obtain ⟨w, hcommit, rfl⟩ := Run.onWorkspace_eq_ok e
  rw [Step.modify_bind] at hcommit
  refine ⟨w, ?_, rfl⟩
  split at hcommit
  · exact Workspace.checkedScore_eq_ok hcommit
  · exact Workspace.scoreNow_eq_ok hcommit

variable [Plan S sh] {X : Variable S V → Prop} {same : S → S → Prop} {good : W → Prop}
  {last a : Score sh} {s t : Searching W S V sh} {m : Move S V}

/-- The candidate that the arena holds for the winner. -/
def chosen (g : Searching W S V sh) : Option (Move S V) :=
  (winner g).bind fun p => g.1.arena.get? p.index

section

variable [DecidableEq V] [ToString V] {fuel : Nat}

/-- What a step does with the answer of the forager: it ends with the plan as it is, or applies the
move, counts the step and ends. -/
theorem step_of_forage {answer : Option (Score sh)} (e : step fuel last s = .ok answer t) :
    ∃ m? u, forage fuel last (begun last s) = .ok m? u ∧
      (m? = none ∧ answer = none ∧ t = fired .stepEnded last u ∨
        ∃ m a w improved sc', m? = some m ∧
          Workspace.score (m.apply u.2.run.workspace) = .ok a w ∧
          Scope.completeStep (u.2.mapRun fun r => { r with workspace := w }) = .ok improved sc' ∧
          answer = some a ∧ t = fired .stepEnded a (u.1, sc')) := by
  unfold step at e
  rw [fire_bind, mapPhase_bind] at e
  obtain ⟨m?, u, hforage, e⟩ := Step.bind_eq_ok e
  refine ⟨m?, u, hforage, ?_⟩
  cases m? with
  | none =>
    dsimp only at e
    rw [fire_bind] at e
    cases e
    exact .inl ⟨rfl, rfl, rfl⟩
  | some m =>
    dsimp only at e
    rw [Step.get_bind] at e
    obtain ⟨a, _, honRun, hrest⟩ := Step.bind_eq_ok e
    obtain ⟨r, hcommit, rfl⟩ := onRun_eq_ok honRun
    obtain ⟨w, hscore, rfl⟩ := commit_eq_ok hcommit
    obtain ⟨improved, _, honScope, hend⟩ := Step.bind_eq_ok hrest
    obtain ⟨sc', hcomplete, rfl⟩ := Action.onPart_eq_ok honScope
    rw [fire_bind] at hend
    cases hend
    exact .inr ⟨m, a, w, improved, sc', rfl, hscore, hcomplete, rfl, rfl⟩

theorem step_eq_ok {answer : Option (Score sh)} (e : step fuel last s = .ok answer t) :
    ∃ g forager arena source, gather fuel last (begun last s) = .ok () g ∧
      let p := { g.1 with forager, arena }
      let sc := g.2.mapRun fun r => { r with source }
      (chosen g = none ∧ answer = none ∧ t = fired .stepEnded last (p, sc) ∨
        ∃ m a w improved sc', chosen g = some m ∧
          Workspace.score (m.apply g.2.run.workspace) = .ok a w ∧
          Scope.completeStep (sc.mapRun fun r => { r with workspace := w }) = .ok improved sc' ∧
          answer = some a ∧ t = fired .stepEnded a (p, sc')) := by
  obtain ⟨m?, u, hforage, hstep⟩ := step_of_forage e
  rw [forage_eq] at hforage
  obtain ⟨_, g, hgather, htake⟩ := Step.bind_eq_ok hforage
  obtain ⟨rfl, forager, arena, source, rfl⟩ := takeWinner_eq_ok htake
  exact ⟨g, forager, arena, source, hgather, hstep⟩

end

/-! ## Invariants -/

/-- What holds between steps. -/
structure Ready (X : Variable S V → Prop) (good : W → Prop) (s : Searching W S V sh) : Prop where
  good : good s.2.run.workspace
  treeOver : s.1.neighbourhood.tree.Over X

theorem Ready.begun [DecidableEq V] (h : Ready X good s) (hl : Lenses X same) (last : Score sh) :
    Collecting X same good (begun last s) last [] (begun last s) where
  holds := ⟨h.good, hl.equivalence.refl _⟩
  reaches := .refl
  within := Neighbourhood.within_hear _ _ _ rfl
  acceptance := rfl
  trace := rfl
  scored := nofun
  kept := rfl

/-- The forager and the arena hold the candidates that were accepted in the step. -/
theorem Collecting.held [DecidableEq V] {seen : List (Move S V × Score sh)}
    (h : Collecting X same good (LocalSearch.begun last s) last seen t) :
    Held (s.1.accepted last seen) (t.1.forager, t.1.arena) := by
  rw [h.kept, accepted_begun]
  exact Held.keepAll s.1.forager _

/-- A committed candidate has the score that it was considered with. -/
theorem commit_score [Workspace.Lawful W] (hl : Lenses X same) (hg : Workspace.Exact X same good)
    {p : S} {w w' : W} {b : Score sh} (hm : m.Of X p) (hw : Workspace.Holds same good p w)
    (hleads : m.LeadsTo same good p b) (e : Workspace.score (m.apply w) = .ok a w') :
    a = b ∧ Workspace.Holds same good (m.on p) w' := by
  have hmw := hw.apply hg hl hm
  have hfull := hg.fullScore_eq hmw.good e
  rw [hleads w hw] at hfull
  exact ⟨(Except.ok.inj hfull).symm, hmw.score hg hl e⟩

/-! ## Steps -/

variable [DecidableEq V] [ToString V] {fuel : Nat}

/-- A step that a search made. -/
structure StepMade (W S V : Type) (sh : Shape) [Plan S sh] [Workspace W S sh] [DecidableEq V]
    [ToString V] (fuel : Nat) where
  last : Score sh
  before : Searching W S V sh
  answer : Option (Score sh)
  after : Searching W S V sh
  made : step fuel last before = .ok answer after

namespace StepMade

/-- What listeners were told at the start of the step. -/
def started (x : StepMade W S V sh fuel) : Context S sh := x.before.2.context (some x.last)

/-- The score that counts after the step. -/
def score (x : StepMade W S V sh fuel) : Score sh := x.answer.getD x.last

/-- What listeners were told at the end of the step. -/
def ended (x : StepMade W S V sh fuel) : Context S sh := x.after.2.context (some x.score)

/-- The boundaries of the step, newest first. -/
def events (x : StepMade W S V sh fuel) : List (Event × Context S sh) :=
  [(.stepEnded, x.ended), (.stepStarted, x.started)]

/-- The state in which the next step is made. -/
def next (x : StepMade W S V sh fuel) : Searching W S V sh :=
  match x.answer with
  | some _ => x.after
  | none => (x.after.1, x.after.2.countStep)

/-- The step changes nothing or applies one of the candidates that it considered. -/
inductive Atomic (X : Variable S V → Prop) (same : S → S → Prop) (good : W → Prop)
    (x : StepMade W S V sh fuel) : Prop
  /-- No candidate was accepted. -/
  | unchanged (seen : List (Move S V × Score sh)) (g : Searching W S V sh)
    (gathered : gather fuel x.last (begun x.last x.before) = .ok () g)
    (collected : Collecting X same good (begun x.last x.before) x.last seen g)
    (refused : x.before.1.accepted x.last seen = [])
    (answer : x.answer = none)
    (plan : same x.started.plan x.ended.plan)
  /-- The candidate `m`, accepted with the score of the pick `p`, was applied. -/
  | applied (seen : List (Move S V × Score sh)) (g : Searching W S V sh) (p : Pick sh) (m : Move S V)
    (gathered : gather fuel x.last (begun x.last x.before) = .ok () g)
    (collected : Collecting X same good (begun x.last x.before) x.last seen g)
    (winner : winner g = some p)
    (stored : g.1.arena.get? p.index = some m)
    (accepted : (m, p.score) ∈ x.before.1.accepted x.last seen)
    (scored : Scored X same good (begun x.last x.before).1.neighbourhood x.started.plan m p.score)
    (plan : same (m.on x.started.plan) x.ended.plan)
    (answer : x.answer = some p.score)
    (noted : x.ended.stepScore = some p.score)
    (full : Workspace.fullScore x.after.2.run.workspace = .ok p.score)

variable [Workspace.Lawful W]

theorem atomic (hl : Lenses X same) (hg : Workspace.Exact X same good)
    (x : StepMade W S V sh fuel) (h : Ready X good x.before) :
    x.Atomic X same good ∧ Ready X good x.after ∧
      stepEvents x.after.2.run.trace = x.events ++ stepEvents x.before.2.run.trace := by
  obtain ⟨last, s, answer, t, made⟩ := x
  obtain ⟨g, forager, arena, source, hgather, hstep⟩ := step_eq_ok made
  have hover : (begun last s).1.neighbourhood.tree.Over X := h.treeOver
  obtain ⟨seen, hc⟩ := (h.begun hl last).gather hl hg hover hgather
  have hovers : g.1.neighbourhood.tree.Over X := hc.reaches.tree_eq ▸ hover
  have hheld := hc.held
  have htrace : stepEvents g.2.run.trace =
      (.stepStarted, s.2.context (some last)) :: stepEvents s.2.run.trace := by
    rw [hc.trace]
    rfl
  cases hw : winner g with
  | none =>
    have hchosen : chosen g = none := by
      unfold chosen
      rw [hw]
      rfl
    rcases hstep with ⟨-, rfl, rfl⟩ | ⟨m, a, w, improved, sc', hm, -⟩
    · refine ⟨.unchanged seen g hgather hc (hheld.eq_nil_of_pick hw) rfl hc.holds.same,
        ⟨hc.holds.good, hovers⟩, ?_⟩
      show (Event.stepEnded, _) :: stepEvents g.2.run.trace = _
      rw [htrace]
      rfl
    · rw [hchosen] at hm
      cases hm
  | some p =>
    obtain ⟨m, hstored, hmem⟩ := hheld.pick hw
    have hchosen : chosen g = some m := by
      unfold chosen
      rw [hw]
      exact hstored
    rcases hstep with ⟨hm, -⟩ | ⟨m', a, w, improved, sc', hm, hscore, hcomplete, rfl, rfl⟩
    · rw [hchosen] at hm
      cases hm
    · obtain rfl : m = m' := Option.some.inj (hchosen.symm.trans hm)
      have hscored := hc.scored _ (List.mem_filter.1 hmem).1
      obtain ⟨rfl, hcommit⟩ := commit_score hl hg hscored.of hc.holds hscored.leadsTo hscore
      obtain ⟨⟨b, hbest⟩, hevents⟩ := Scope.completeStep_eq_ok hcomplete
      have hafter := hcommit.score hg hl hbest
      have hfull := hscored.leadsTo.fullScore_eq hl hg hscored.of hc.holds hafter
      refine ⟨.applied seen g p m hgather hc hw hstored hmem hscored hafter.same rfl rfl hfull,
        ⟨hafter.good, hovers⟩, ?_⟩
      show (Event.stepEnded, _) :: stepEvents sc'.run.trace = _
      rw [hevents]
      show (Event.stepEnded, _) :: stepEvents g.2.run.trace = _
      rw [htrace]
      rfl

end StepMade

/-! ## Runs -/

/-- The steps that lead a search from one state to another. The score in front is that of the last
step. -/
inductive Course (fuel : Nat) : Score sh → Searching W S V sh → List (StepMade W S V sh fuel) →
    Searching W S V sh → Prop
  | stop (last : Score sh) (s : Searching W S V sh) : Course fuel last s [] s
  /-- The last step accepted no candidate. -/
  | halt (x : StepMade W S V sh fuel) (answer : x.answer = none) :
    Course fuel x.last x.before [x] x.after
  | step (x : StepMade W S V sh fuel) {xs : List (StepMade W S V sh fuel)}
    {t : Searching W S V sh} (rest : Course fuel x.score x.next xs t) :
    Course fuel x.last x.before (x :: xs) t

theorem steps_course {rounds : Nat} {outcome : Outcome × Score sh}
    (e : steps fuel rounds last s = .ok outcome t) : ∃ xs, Course fuel last s xs t := by
  induction rounds generalizing last s with
  | zero => cases e
  | succ rounds ih =>
    rw [steps] at e
    rw [Step.get_bind] at e
    dsimp only at e
    split at e
    · cases e
      exact ⟨[], .stop last t⟩
    obtain ⟨answer, s₁, hstep, e⟩ := Step.bind_eq_ok e
    let x : StepMade W S V sh fuel := ⟨last, s, answer, s₁, hstep⟩
    cases answer with
    | some a =>
      obtain ⟨xs, hxs⟩ := ih e
      exact ⟨x :: xs, .step x hxs⟩
    | none =>
      dsimp only at e
      cases hpolicy : s.1.noAcceptedMove with
      | terminate =>
        rw [hpolicy] at e
        cases e
        exact ⟨[x], .halt x rfl⟩
      | proceed =>
        rw [hpolicy] at e
        dsimp only at e
        rw [mapScope_bind] at e
        obtain ⟨xs, hxs⟩ := ih e
        exact ⟨x :: xs, .step x hxs⟩

/-- A phase tells of its start, makes steps and tells of its end. -/
theorem work_eq_ok {p : LocalSearch S V sh} {outcome : Outcome} {sc : Scope W S sh}
    (hg : Workspace.Exact X same good) (hw : good sc.run.workspace)
    (e : work fuel (p, sc) = .ok outcome t) :
    ∃ (start last : Score sh) (sc' : Scope W S sh) (s : Searching W S V sh)
      (xs : List (StepMade W S V sh fuel)),
      Course fuel start (fired .phaseStarted start (p, sc')) xs s ∧ t = fired .phaseEnded last s ∧
      good sc'.run.workspace ∧ stepEvents sc'.run.trace = stepEvents sc.run.trace := by
  unfold work at e
  rw [mapScope_bind] at e
  obtain ⟨start, _, hstart, e⟩ := Step.bind_eq_ok e
  obtain ⟨_, hscore, rfl⟩ := onRun_eq_ok hstart
  obtain ⟨w, hw₀, rfl⟩ := Run.onWorkspace_eq_ok hscore
  rw [mapScope_bind] at e
  obtain ⟨_, _, honScope, hrest⟩ := Step.bind_eq_ok e
  obtain ⟨sc', hbest, rfl⟩ := Action.onPart_eq_ok honScope
  obtain ⟨⟨b, hb⟩, hevents⟩ := Scope.updateBest_eq_ok hbest
  rw [fire_bind] at hrest
  obtain ⟨⟨_, last⟩, s, hsteps, hend⟩ := Step.bind_eq_ok hrest
  dsimp only at hend
  rw [fire_bind] at hend
  cases hend
  obtain ⟨xs, hcourse⟩ := steps_course hsteps
  have hgood := hg.score (hg.score (hg.restart hw) (Workspace.scoreNow_eq_ok hw₀)) hb
  exact ⟨start, last, sc', s, xs, hcourse, rfl, hgood, hevents⟩

/-- A local search that is valid, and that need not be stopped or can be, works in a scope of its
own. -/
theorem solve_eq_ok {p p' : LocalSearch S V sh} {run run' : Run W S sh} {outcome : Outcome}
    (e : solve fuel (p, run) = .ok outcome (p', run')) :
    ∃ sc, work fuel (p, ⟨{ index := run.beginPhase.1 }, run.beginPhase.2⟩) = .ok outcome (p', sc) ∧
      run' = sc.run := by
  unfold solve at e
  dsimp only at e
  split at e
  · cases e
  split at e
  · cases e
  · exact inSpan_eq_ok e

theorem StepMade.ready_next {x : StepMade W S V sh fuel} (h : Ready X good x.after) :
    Ready X good x.next := by
  unfold next
  split
  · exact h
  · exact ⟨h.good, h.treeOver⟩

theorem StepMade.trace_next (x : StepMade W S V sh fuel) :
    x.next.2.run.trace = x.after.2.run.trace := by
  unfold next
  split <;> rfl

variable [Workspace.Lawful W]

theorem Course.atomic (hl : Lenses X same) (hg : Workspace.Exact X same good)
    {xs : List (StepMade W S V sh fuel)} (h : Course fuel last s xs t) (hs : Ready X good s) :
    (∀ x ∈ xs, x.Atomic X same good) ∧ stepEvents t.2.run.trace =
      xs.reverse.flatMap StepMade.events ++ stepEvents s.2.run.trace := by
  induction h with
  | stop last s => exact ⟨List.forall_mem_nil _, rfl⟩
  | halt x answer =>
    obtain ⟨hatomic, -, htrace⟩ := x.atomic hl hg hs
    refine ⟨List.forall_mem_singleton.2 hatomic, ?_⟩
    rw [htrace, List.reverse_singleton, List.flatMap_singleton]
  | step x rest ih =>
    obtain ⟨hatomic, hready, htrace⟩ := x.atomic hl hg hs
    obtain ⟨hall, hevents⟩ := ih (StepMade.ready_next hready)
    refine ⟨List.forall_mem_cons.2 ⟨hatomic, hall⟩, ?_⟩
    rw [hevents, x.trace_next, htrace, List.reverse_cons, List.flatMap_append,
      List.flatMap_singleton, List.append_assoc]

/-- The steps of a phase are all the steps that listeners were told of, and each of them leaves the
plan as it was or applies one accepted candidate, with one and the same score throughout. -/
theorem solve_atomic {p p' : LocalSearch S V sh} {run run' : Run W S sh} {outcome : Outcome}
    (hl : Lenses X same) (hg : Workspace.Exact X same good) (hp : p.neighbourhood.tree.Over X)
    (hw : good run.workspace) (e : solve fuel (p, run) = .ok outcome (p', run')) :
    ∃ (start last : Score sh) (sc sc' : Scope W S sh) (s : Searching W S V sh)
      (xs : List (StepMade W S V sh fuel)),
      Course fuel start (fired .phaseStarted start (p, sc)) xs s ∧
      fired .phaseEnded last s = (p', sc') ∧ sc'.run = run' ∧
      stepEvents run'.trace = xs.reverse.flatMap StepMade.events ++ stepEvents run.trace ∧
      ∀ x ∈ xs, x.Atomic X same good := by
  obtain ⟨sc', hwork, rfl⟩ := solve_eq_ok e
  obtain ⟨start, last, sc, s, xs, hcourse, ht, hgood, hevents⟩ := work_eq_ok hg hw hwork
  obtain ⟨hatomic, htrace⟩ := hcourse.atomic hl hg ⟨hgood, hp⟩
  have htrace' : stepEvents sc'.run.trace = stepEvents s.2.run.trace := by
    obtain ⟨-, rfl⟩ := Prod.mk.inj ht
    rfl
  refine ⟨start, last, sc, sc', s, xs, hcourse, ht.symm, rfl, ?_, hatomic⟩
  rw [htrace', htrace]
  show _ ++ stepEvents sc.run.trace = _
  rw [hevents]
  rfl

end LocalSearch

/-! ## A search on a row -/

namespace Row

/-- Fills the cells with sevens. -/
def search : LocalSearch Row Nat .simple where
  neighbourhood := .ofTree (.change
    { entityClass := "Row", cell := cell, range := .listed [7] } .original)

def run : Run (RecomputingWorkspace Row .simple) Row .simple where
  workspace := workspace [none, some 7]
  source := .ofSeed 0

/-- A cell is filled in one step, and another step finds no candidate. -/
theorem solve_atomic_search : ∃ (outcome : Outcome) (p' : LocalSearch Row Nat .simple)
    (run' : Run (RecomputingWorkspace Row .simple) Row .simple)
    (xs : List (LocalSearch.StepMade (RecomputingWorkspace Row .simple) Row Nat .simple 5)),
    LocalSearch.solve 5 (search, run) = .ok outcome (p', run') ∧
      (stepEvents run'.trace).length = 4 ∧
      stepEvents run'.trace = xs.reverse.flatMap LocalSearch.StepMade.events ∧
      ∀ x ∈ xs, x.Atomic (· = cell) (Agree (· = cell)) (RecomputingWorkspace.Keeps rate) := by
  have hover : search.neighbourhood.tree.Over (· = cell) := rfl
  have hgood : RecomputingWorkspace.Keeps rate run.workspace := ⟨rfl, nofun⟩
  have hok : (match LocalSearch.solve 5 (search, run) with
      | .ok _ (_, run') => decide ((stepEvents run'.trace).length = 4)
      | .error _ _ => false) = true := by decide +kernel
  cases e : LocalSearch.solve 5 (search, run) with
  | error f s =>
    rw [e] at hok
    cases hok
  | ok outcome s =>
    rw [e] at hok
    obtain ⟨p', run'⟩ := s
    obtain ⟨_, _, _, _, _, xs, -, -, -, htrace, hatomic⟩ :=
      LocalSearch.solve_atomic lawful.lenses exact hover hgood e
    exact ⟨outcome, p', run', xs, rfl, of_decide_eq_true hok,
      htrace.trans (List.append_nil _), hatomic⟩

end Row

end PlanSearch
