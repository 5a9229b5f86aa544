import PlanSearch.Proofs.Mirror.Construction
import PlanSearch.Proofs.Mirror.Search
import PlanSearch.Proofs.Run.Heeding
import PlanSearch.Proofs.Search.Loop

/-!
# Phases that heed the conditions

Both kinds of phases ask the conditions before each step, and count each step that is completed. A
local search that goes on after a step without an accepted move counts it when listeners have
already heard of its end; one that gives up does not count it at all. Either way the counters are
right whenever they are asked for.

    sc.Entering g i → work fuel (p, sc) = .ok o t → t.2.run.Heeding g     (LocalSearch.work_heeding)
    sc.Entering g i → work (p, sc) = .ok o t → t.2.run.Heeding g         (Construction.work_heeding)
-/

namespace PlanSearch

variable {S V W : Type} {sh : Shape}

/-! ## Local searches -/

namespace LocalSearch

/-- What does not change in a search as it works. -/
structure Setup (S V : Type) (sh : Shape) where
  tree : Tree S V
  canStopEarly : Bool
  termination : Option (Termination sh)
  noAcceptedMove : NoAcceptedMove
  candidateLimit : Option Nat
  threads : Option Nat

def setup (p : LocalSearch S V sh) : Setup S V sh where
  tree := p.neighbourhood.tree
  canStopEarly := p.forager.canStopEarly
  termination := p.termination
  noAcceptedMove := p.noAcceptedMove
  candidateLimit := p.candidateLimit
  threads := p.threads

/-- Foragers may come and go, if they stop alike. -/
theorem setup_congr {p p' : LocalSearch S V sh} {forager : Forager sh}
    (hforager : forager.canStopEarly = p.forager.canStopEarly) (arena : Arena (Move S V))
    (h : p' = { p with forager, arena }) : p'.setup = p.setup := by
  subst h
  unfold setup
  dsimp only
  rw [hforager]

theorem setup_hear [Plan S sh] (e : Event) (plan : S) (a : Option (Score sh)) (p : LocalSearch S V sh) :
    (p.hear e plan a).setup = p.setup := by
  unfold setup hear
  dsimp only
  rw [Forager.canStopEarly_hear]
  rfl

variable {g : Regime S sh} {i fuel : Nat} {last : Score sh} {b s t : Searching W S V sh}

/-- From `b` on candidates were tried, and nothing else was done. -/
structure Tried (b s : Searching W S V sh) : Prop where
  setup : s.1.setup = b.1.setup
  span : s.2.span = b.2.span
  tries : b.2.run.Tries s.2.run

theorem takeWinner_tried {m? : Option (Move S V)} (e : takeWinner s = .ok m? t) : Tried s t := by
  obtain ⟨arena, h⟩ := takeWinner_eq s
  rw [h] at e
  cases e
  exact ⟨setup_congr (s.1.forager.canStopEarly_pick s.2.run.source) arena rfl, rfl, rfl, rfl⟩

variable [Plan S sh] [Workspace W S sh] [DecidableEq V] [ToString V]

theorem Tried.loop (b : Searching W S V sh) (last : Score sh) :
    Loop last (Tried b) (fun _ => True) (fun _ _ => True) where
  draw h e := by
    rw [draw_eq] at e
    cases e
    exact ⟨⟨h.setup, h.span, h.tries.trans ⟨rfl, rfl⟩⟩, fun _ _ _ => trivial⟩
  illegal h := ⟨h.setup, h.span, h.tries.trans ⟨rfl, rfl⟩⟩
  score h _ _ := ⟨⟨h.setup, h.span, h.tries.trans ⟨rfl, rfl⟩⟩, trivial⟩
  scoreBatch _ _ _ _ _ _ _ := trivial
  consider {s t m a d d'} h _ e := by
    rw [consider_eq] at e
    cases e
    unfold considered
    dsimp only
    split
    · exact ⟨(setup_congr (Forager.canStopEarly_add _ _) _ rfl).trans h.setup, h.span,
        h.tries.trans ⟨rfl, rfl⟩⟩
    · exact ⟨h.setup, h.span, h.tries.trans ⟨rfl, rfl⟩⟩

theorem forage_tried {m? : Option (Move S V)} (e : forage fuel last s = .ok m? t) : Tried s t := by
  rw [forage_eq] at e
  obtain ⟨_, u, hgather, htake⟩ := Step.bind_eq_ok e
  have hu := (Tried.loop s last).gather ⟨rfl, rfl, .refl _⟩ hgather
  have ht := takeWinner_tried htake
  exact ⟨ht.setup.trans hu.setup, ht.span.trans hu.span, hu.tries.trans ht.tries⟩

/-- The state after a step, with what is counted or due: the last step of a search that gives up
does not count. -/
structure Stepped (g : Regime S sh) (i : Nat) (answer : Option (Score sh))
    (s t : Searching W S V sh) : Prop where
  setup : t.1.setup = s.1.setup
  heeding : (if answer.isSome then t.2 else t.2.countStep).Heeding g i
  le : t.2.run.lastImprovement ≤ t.2.run.steps
  boundary : unpublished t.2.run.trace = t.2.run.trace

omit [Plan S sh] [Workspace W S sh] [DecidableEq V] [ToString V] in
theorem own_of_setup (h : t.1.setup = s.1.setup) (hown : g.own[i]? = some s.1.termination) :
    g.own[i]? = some t.1.termination := by
  rw [show t.1.termination = s.1.termination from congrArg Setup.termination h]
  exact hown

theorem step_heeding (h : s.2.Heeding g i) (hown : g.own[i]? = some s.1.termination)
    (hpoll : ¬s.2.isTerminated s.1.termination) {answer : Option (Score sh)}
    (e : step fuel last s = .ok answer t) : Stepped g i answer s t := by
  obtain ⟨m?, u, hforage, hstep⟩ := step_of_forage e
  have ht : Tried (begun last s) u := forage_tried hforage
  have hsetup : u.1.setup = s.1.setup :=
    ht.setup.trans (setup_hear .stepStarted s.2.run.plan (some last) s.1)
  have hspan : u.2.span = s.2.span := ht.span
  rcases hstep with ⟨-, rfl, rfl⟩ | ⟨m, a, w, improved, sc', -, -, hcomplete, rfl, rfl⟩
  · have hbegun := h.step hown hpoll last ht.tries
    rw [← hspan] at hbegun
    refine ⟨(setup_hear _ _ _ _).trans hsetup, hbegun.stepEnded _, ?_, rfl⟩
    show u.2.run.lastImprovement ≤ u.2.run.steps
    rw [ht.tries.eq]
    exact h.run.tallied.tally.le
  · have hbegun := h.step hown hpoll last (r := { u.2.run with workspace := w })
      (ht.tries.trans ⟨rfl, rfl⟩)
    rw [← hspan] at hbegun
    have hended := hbegun.updateBest hcomplete
    exact ⟨(setup_hear _ _ _ _).trans hsetup, hended.stepEnded _, hended.run.tallied.tally.le, rfl⟩

/-- The steps end with the outcome that halts the phase. -/
theorem steps_heeding {rounds : Nat} (h : s.2.Heeding g i) (hown : g.own[i]? = some s.1.termination)
    (hboundary : unpublished s.2.run.trace = s.2.run.trace) {x : Outcome × Score sh}
    (e : steps fuel rounds last s = .ok x t) : Scope.Halted g i t.2 x.1 := by
  induction rounds generalizing last s with
  | zero => cases e
  | succ rounds ih =>
    rw [steps, Step.get_bind] at e
    dsimp only at e
    split at e
    · next hterm =>
      cases e
      exact h.halted hown hboundary hterm
    next hpoll =>
    obtain ⟨answer, s₁, hstep, e⟩ := Step.bind_eq_ok e
    have h₁ := step_heeding h hown hpoll hstep
    have hown₁ := own_of_setup h₁.setup hown
    cases answer with
    | some a => exact ih h₁.heeding hown₁ h₁.boundary e
    | none =>
      dsimp only at e
      cases hpolicy : s.1.noAcceptedMove with
      | terminate =>
        rw [hpolicy] at e
        cases e
        exact .gaveUp h₁.heeding h₁.le
      | proceed =>
        rw [hpolicy] at e
        exact ih (s := (s₁.1, s₁.2.countStep)) h₁.heeding hown₁ h₁.boundary e

/-- The scopes in which the conditions are asked before steps. -/
def polls (fuel : Nat) : Nat → Score sh → Searching W S V sh → List (Scope W S sh)
  | 0, _, _ => []
  | rounds + 1, last, s =>
    s.2 ::
      if s.2.isTerminated s.1.termination then []
      else
        match step fuel last s, s.1.noAcceptedMove with
        | .ok (some a) t, _ => polls fuel rounds a t
        | .ok none t, .proceed => polls fuel rounds last (t.1, t.2.countStep)
        | _, _ => []

theorem polls_tallied {rounds : Nat} (h : s.2.Heeding g i)
    (hown : g.own[i]? = some s.1.termination) :
    ∀ sc ∈ polls fuel rounds last s, sc.Tallied g.idle := by
  induction rounds generalizing last s with
  | zero => exact nofun
  | succ rounds ih =>
    rw [polls]
    refine List.forall_mem_cons.2 ⟨h.tallied, ?_⟩
    split
    · exact nofun
    next hpoll =>
    split
    · next a t hstep =>
      have h₁ := step_heeding h hown hpoll hstep
      exact ih h₁.heeding (own_of_setup h₁.setup hown)
    · next t hstep _ =>
      have h₁ := step_heeding h hown hpoll hstep
      exact ih (s := (t.1, t.2.countStep)) h₁.heeding (own_of_setup h₁.setup hown)
    · exact nofun

/-! ### Phases -/

omit [DecidableEq V] [ToString V] in
theorem opening_heeding {start : Score sh} (h : s.2.Entering g i)
    (e : opening s = .ok start t) : t.2.Heeding g i ∧ t.1.setup = s.1.setup ∧
      unpublished t.2.run.trace = t.2.run.trace := by
  unfold opening at e
  rw [mapScope_bind] at e
  obtain ⟨a, _, hstart, e⟩ := Step.bind_eq_ok e
  obtain ⟨_, hscore, rfl⟩ := onRun_eq_ok hstart
  obtain ⟨w, -, rfl⟩ := Run.onWorkspace_eq_ok hscore
  rw [mapScope_bind] at e
  obtain ⟨improved, _, honScope, hrest⟩ := Step.bind_eq_ok e
  obtain ⟨sc', hbest, rfl⟩ := Action.onPart_eq_ok honScope
  have h₁ := (h.tries (r := { s.2.run with workspace := w }) ⟨rfl, rfl⟩ (some a)).updateBest hbest
  rw [fire_bind] at hrest
  cases hrest
  exact ⟨h₁.started _, setup_hear _ _ _ _, rfl⟩

/-- A phase leaves a run that heeded all conditions, if it ends as foreseen. -/
theorem work_heeding (h : s.2.Entering g i) (hown : g.own[i]? = some s.1.termination)
    {o : Outcome} (ho : g.outcome i = some o) (e : work fuel s = .ok o t) :
    t.2.run.Heeding g ∧ unpublished t.2.run.trace = t.2.run.trace := by
  rw [work_eq] at e
  obtain ⟨start, s₁, hopening, e⟩ := Step.bind_eq_ok e
  obtain ⟨h₁, hsetup, hboundary⟩ := opening_heeding h hopening
  have hown₁ := own_of_setup hsetup hown
  obtain ⟨⟨outcome, last⟩, s₂, hsteps, e⟩ := Step.bind_eq_ok e
  rw [fire_bind] at e
  cases e
  have hhalted := steps_heeding h₁ hown₁ hboundary hsteps
  exact ⟨hhalted.ended ho hhalted.index, rfl⟩

/-- The scopes in which a phase on the run asks the conditions. -/
def phasePolls (fuel : Nat) (p : LocalSearch S V sh) (r : Run W S sh) : List (Scope W S sh) :=
  match opening (p, ⟨{ index := r.beginPhase.1 }, r.beginPhase.2⟩) with
  | .ok start s => polls fuel fuel start s
  | .error _ _ => []

end LocalSearch

/-! ## Constructions -/

namespace Construction

variable [Plan S sh] [Workspace W S sh] [DecidableEq V] [ToString V] {g : Regime S sh} {i : Nat}
  {last a : Score sh} {place : Placement} {s t : Construction S V sh × Scope W S sh}

theorem step_heeding (h : s.2.Heeding g i) (hown : g.own[i]? = some s.1.termination)
    (hpoll : ¬s.2.isTerminated s.1.termination) (e : step place last s = .ok a t) :
    t.2.Heeding g i ∧ t.1.termination = s.1.termination ∧
      unpublished t.2.run.trace = t.2.run.trace := by
  obtain ⟨m?, s₁, w, improved, sc', hchoose, -, hcomplete, rfl⟩ := step_eq_ok e
  obtain ⟨placer, values, source, r, -, -, htry, rfl⟩ := choose_eq_ok hchoose
  have hsource : (fired .stepStarted last s).2.run.Tries
      { (fired .stepStarted last s).2.run with source } := ⟨rfl, rfl⟩
  have htries := hsource.trans (tryValues_tried htry)
  have hbegun := h.step hown hpoll last (r := { r with workspace := w })
    (htries.trans ⟨rfl, rfl⟩)
  exact ⟨(hbegun.updateBest hcomplete).stepEnded _, rfl, rfl⟩

/-- All placements are made, or a condition ends the phase before. -/
theorem steps_heeding {places : List Placement} (h : s.2.Heeding g i)
    (hown : g.own[i]? = some s.1.termination)
    (hboundary : unpublished s.2.run.trace = s.2.run.trace) {x : Outcome × Score sh}
    (e : steps places last s = .ok x t) :
    Scope.Halted g i t.2 x.1 ∧ x.1 ≠ .noAcceptedMove := by
  induction places generalizing last s with
  | nil =>
    cases e
    exact ⟨.whole h, Outcome.noConfusion⟩
  | cons place rest ih =>
    rw [steps, Step.get_bind] at e
    dsimp only at e
    split at e
    · next hterm =>
      cases e
      exact ⟨h.halted hown hboundary hterm, Outcome.noConfusion⟩
    next hpoll =>
    obtain ⟨a, s₁, hstep, e⟩ := Step.bind_eq_ok e
    obtain ⟨h₁, htermination, hboundary₁⟩ := step_heeding h hown hpoll hstep
    exact ih h₁ (htermination ▸ hown) hboundary₁ e

/-- The scopes in which the conditions are asked before steps. -/
def polls : List Placement → Score sh → Construction S V sh × Scope W S sh → List (Scope W S sh)
  | [], _, _ => []
  | place :: rest, last, s =>
    s.2 ::
      if s.2.isTerminated s.1.termination then []
      else
        match step place last s with
        | .ok a t => polls rest a t
        | .error _ _ => []

theorem polls_tallied {places : List Placement} (h : s.2.Heeding g i)
    (hown : g.own[i]? = some s.1.termination) :
    ∀ sc ∈ polls places last s, sc.Tallied g.idle := by
  induction places generalizing last s with
  | nil => exact nofun
  | cons place rest ih =>
    rw [polls]
    refine List.forall_mem_cons.2 ⟨h.tallied, ?_⟩
    split
    · exact nofun
    next hpoll =>
    split
    · next a t hstep =>
      obtain ⟨h₁, htermination, -⟩ := step_heeding h hown hpoll hstep
      exact ih h₁ (htermination ▸ hown)
    · exact nofun

/-! ### Phases -/

omit [Plan S sh] [DecidableEq V] [ToString V] in
theorem opening_heeding {start : Score sh} (h : s.2.Entering g i) (e : opening s = .ok start t) :
    t.2.Heeding g i ∧ t.1.termination = s.1.termination ∧
      unpublished t.2.run.trace = t.2.run.trace := by
  obtain ⟨w, -, rfl⟩ := opening_eq_ok e
  have h₁ := h.tries (r := { s.2.run with workspace := w }) ⟨rfl, rfl⟩ (some start)
  exact ⟨h₁.started _, rfl, rfl⟩

/-- A phase leaves a run that heeded all conditions, if it ends as foreseen. -/
theorem work_heeding (h : s.2.Entering g i) (hown : g.own[i]? = some s.1.termination)
    {o : Outcome} (ho : g.outcome i = some o) (e : work s = .ok o t) :
    t.2.run.Heeding g ∧ unpublished t.2.run.trace = t.2.run.trace := by
  rw [work_eq] at e
  obtain ⟨start, s₁, hopening, e⟩ := Step.bind_eq_ok e
  obtain ⟨h₁, htermination, hboundary⟩ := opening_heeding h hopening
  rw [Step.get_bind] at e
  obtain ⟨⟨outcome, last⟩, s₂, hsteps, e⟩ := Step.bind_eq_ok e
  obtain ⟨hhalted, hmove⟩ := steps_heeding h₁ (htermination ▸ hown) hboundary hsteps
  obtain ⟨improved, _, honScope, hend⟩ := Step.bind_eq_ok e
  obtain ⟨sc', hbest, rfl⟩ := Action.onPart_eq_ok honScope
  rw [fire_bind] at hend
  cases hend
  have hended := hhalted.updateBest hmove hbest
  exact ⟨hended.ended ho hended.index, rfl⟩

/-- The scopes in which a phase on the run asks the conditions. -/
def phasePolls (p : Construction S V sh) (r : Run W S sh) : List (Scope W S sh) :=
  match opening (p, ⟨{ index := r.beginPhase.1 }, r.beginPhase.2⟩) with
  | .ok start s => polls (s.1.placements s.2.run.plan) start s
  | .error _ _ => []

end Construction

end PlanSearch
