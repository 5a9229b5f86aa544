import Mathlib.Data.Option.Defs
import PlanSearch.Evaluation
import PlanSearch.Proofs.Mirror.Ends
import PlanSearch.Proofs.Neighbourhood.Slots
import PlanSearch.Proofs.Phase.Scope

/-!
# Runs that mirror each other

Two runs on workspaces of different kinds mirror each other if they differ in their workspaces only,
which answer the same scores, and in plans that are alike. Whatever one of them does, the other does
too: they have the same best scores, tell listeners the same and end at the same time.

    r.Mirror M like R r' → Alike … (updateBest r) (updateBest r')          (Run.Mirror.updateBest)
-/

namespace PlanSearch

variable {S V W W' : Type} {sh : Shape}

/-- The score of a step that was made, checked if the mode asks for it. -/
def Workspace.committedScore [Workspace W S sh] (mode : Mode) (context : String) :
    Action W (Score sh) :=
  if mode.isAsserted then checkedScore context else scoreNow

/-- Related workspaces answer the same, in modes that are related, and stay related whatever is done
to both. -/
structure Workspace.Mirrors [Plan S sh] [Workspace W S sh] [Workspace W' S sh]
    (M : Mode → Mode → Prop) (ex : Excuse) (like : S → S → Prop) (X : Variable S V → Prop)
    (ok : Slot S V → Prop) (R : W → W' → Prop) : Prop where
  alike : ∀ {w v}, R w v → like (plan w) (plan v)
  unassigned : ∀ {p q}, like p q → Plan.unassignedCount p = Plan.unassignedCount q
  setScore : ∀ {p q} (a : Option (Score sh)), like p q →
    like (Plan.setScore a p) (Plan.setScore a q)
  movable : ∀ {w v}, R w v → ∀ y, X y → ∀ e ∈ Plan.movable (plan w) y.family, ok ⟨y, e⟩
  restart : ∀ {w v}, R w v → R (restart w) (restart v)
  apply : ∀ {w v} {m : Move S V}, R w v → m.Within ok → R (m.apply w) (m.apply v)
  score : ∀ {w v}, R w v → Alike ex R (scoreNow w) (scoreNow v)
  committed : ∀ {w v μ μ'}, M μ μ' → R w v → ∀ context,
    Alike ex R (committedScore μ context w) (committedScore μ' context v)

/-! ## Notices -/

variable {M : Mode → Mode → Prop} {like : S → S → Prop} {R : W → W' → Prop} {ex : Excuse}

/-- Listeners are told the same, of plans that are alike. -/
inductive Notice.Like (like : S → S → Prop) : Notice S sh → Notice S sh → Prop
  | improved {p q : S} (h : like p q) (a : Score sh) : Like like (.improved p a) (.improved q a)
  | event (e : Event) {c d : Context S sh} (h : like c.plan d.plan)
    (rest : c = { d with plan := c.plan }) : Like like (.event e c) (.event e d)

/-- The listener does not tell plans that are alike from each other. -/
def Listener.Blind (like : S → S → Prop) (l : Listener S sh) : Prop :=
  ∀ trace trace', List.Forall₂ (Notice.Like like) trace trace' → l.stops trace = l.stops trace'

theorem Notice.Like.eq {n n' : Notice S sh} (h : n.Like (fun p q => p = q) n') : n = n' := by
  cases h with
  | improved h a => rw [h]
  | event e h rest =>
    rw [rest, h]

theorem Notice.eq_of_forall₂ {trace trace' : List (Notice S sh)}
    (h : List.Forall₂ (Notice.Like fun p q => p = q) trace trace') : trace = trace' := by
  induction h with
  | nil => rfl
  | cons hn _ ih => rw [hn.eq, ih]

theorem Listener.blind_eq (l : Listener S sh) : l.Blind fun p q => p = q := fun trace trace' h => by
  rw [Notice.eq_of_forall₂ h]

theorem Notice.Like.refl (hlike : ∀ p, like p p) (n : Notice S sh) : n.Like like n := by
  cases n with
  | improved p a => exact .improved (hlike p) a
  | event e c => exact .event e (hlike c.plan) rfl

/-! ## Runs -/

/-- The runs differ in their workspaces, in plans that are alike and in modes within `M`. -/
structure Run.Mirror (M : Mode → Mode → Prop) (like : S → S → Prop) (R : W → W' → Prop)
    (r : Run W S sh) (r' : Run W' S sh) : Prop where
  rest : r = { r' with
    workspace := r.workspace
    mode := r.mode
    best := r.best
    trace := r.trace }
  mode : M r.mode r'.mode
  workspace : R r.workspace r'.workspace
  best : Option.Rel (fun b b' => like b.plan b'.plan ∧ b.rank = b'.rank) r.best r'.best
  trace : List.Forall₂ (Notice.Like like) r.trace r'.trace
  blind : ∀ l ∈ r'.listeners, l.Blind like

namespace Run.Mirror

variable {r : Run W S sh} {r' : Run W' S sh}

theorem refl {R : W → W → Prop} {r : Run W S sh} (hmode : M r.mode r.mode)
    (hlike : ∀ p, like p p) (hR : R r.workspace r.workspace)
    (hblind : ∀ l ∈ r.listeners, l.Blind like) : r.Mirror M like R r where
  rest := rfl
  mode := hmode
  workspace := hR
  best := by
    cases r.best with
    | none => exact .none
    | some b => exact .some ⟨hlike b.plan, rfl⟩
  trace := List.forall₂_same.2 fun n _ => .refl hlike n
  blind := hblind

theorem bestScore (h : r.Mirror M like R r') : r.bestScore = r'.bestScore := by
  unfold Run.bestScore
  have hbest := h.best
  generalize r.best = b at hbest
  generalize r'.best = b' at hbest
  cases hbest with
  | none => rfl
  | some hb => exact congrArg (fun k => some k.score) hb.2

theorem progress (h : r.Mirror M like R r') : r.progress = r'.progress := by
  unfold Run.progress
  rw [h.bestScore, congrArg Run.elapsed h.rest, congrArg Run.steps h.rest,
    congrArg Run.lastImprovement h.rest]

theorem isTerminated (h : r.Mirror M like R r') : r.isTerminated = r'.isTerminated := by
  unfold Run.isTerminated
  rw [h.progress, congrArg Run.stopRequested h.rest, congrArg Run.termination h.rest]

theorem source (h : r.Mirror M like R r') : r.source = r'.source := congrArg Run.source h.rest

theorem stats (h : r.Mirror M like R r') : r.stats = r'.stats := congrArg Run.stats h.rest

theorem announce (h : r.Mirror M like R r') {n n' : Notice S sh} (hn : n.Like like n') :
    (r.announce n).Mirror M like R (r'.announce n') where
  rest := by
    have htrace : List.Forall₂ (Notice.Like like) (n :: r.trace) (n' :: r'.trace) :=
      .cons hn h.trace
    have hstops : (r.listeners.any fun l => l.stops (n :: r.trace)) =
        r'.listeners.any fun l => l.stops (n' :: r'.trace) := by
      rw [show r.listeners = r'.listeners from congrArg Run.listeners h.rest, List.any_eq,
        List.any_eq]
      refine decide_eq_decide.2 (exists_congr fun l => and_congr_right fun hl => ?_)
      rw [h.blind l hl _ _ htrace]
    unfold Run.announce
    dsimp only
    rw [hstops]
    exact congrArg (fun r₀ : Run W S sh =>
      { r₀ with
        trace := n :: r.trace
        stopRequested := r₀.stopRequested || r'.listeners.any fun l => l.stops (n' :: r'.trace) })
      h.rest
  mode := h.mode
  workspace := h.workspace
  best := h.best
  trace := .cons hn h.trace
  blind := h.blind

theorem onWorkspace {α : Type} (h : r.Mirror M like R r') {x : Action W α} {y : Action W' α}
    (hx : Alike ex R (x r.workspace) (y r'.workspace)) :
    Alike ex (Run.Mirror M like R) (Run.onWorkspace x r) (Run.onWorkspace y r') := by
  have hset : ∀ {w : W} {v : W'}, R w v →
      Run.Mirror M like R { r with workspace := w } { r' with workspace := v } := fun {w _} hR =>
    { h with
      rest := congrArg (fun r₀ : Run W S sh => { r₀ with workspace := w }) h.rest
      workspace := hR }
  unfold Run.onWorkspace
  generalize x r.workspace = u at hx
  generalize y r'.workspace = v at hx
  cases hx with
  | ok h => exact .ok ⟨h.1, hset h.2⟩
  | error h => exact .error fun e he => ⟨(h e he).1, hset (h e he).2⟩
  | left h => exact .left h _
  | right h => exact .right h _

theorem record (h : r.Mirror M like R r') (f : Stats → Stats) :
    (r.record f).Mirror M like R (r'.record f) :=
  { h with rest := congrArg (Run.record f) h.rest }

theorem countStep (h : r.Mirror M like R r') : r.countStep.Mirror M like R r'.countStep :=
  { h with rest := congrArg Run.countStep h.rest }

theorem start (h : r.Mirror M like R r') : r.start.Mirror M like R r'.start :=
  { h with rest := congrArg Run.start h.rest }

theorem beginPhase (h : r.Mirror M like R r') :
    r.beginPhase.1 = r'.beginPhase.1 ∧ r.beginPhase.2.Mirror M like R r'.beginPhase.2 :=
  ⟨congrArg Run.phases h.rest,
    { h with rest := congrArg (fun r₀ : Run W S sh => r₀.beginPhase.2) h.rest }⟩

theorem setSource (h : r.Mirror M like R r') (source : Source) :
    Run.Mirror M like R { r with source } { r' with source } :=
  { h with rest := congrArg (fun r₀ : Run W S sh => { r₀ with source }) h.rest }

variable [Plan S sh] [Workspace W S sh] [Workspace W' S sh] {X : Variable S V → Prop}
  {ok : Slot S V → Prop}

theorem plan (h : r.Mirror M like R r') (hM : Workspace.Mirrors M ex like X ok R) :
    like r.plan r'.plan :=
  hM.alike h.workspace

theorem event (h : r.Mirror M like R r') (hM : Workspace.Mirrors M ex like X ok R) (e : Event)
    (i j : Nat) (a : Option (Score sh)) :
    Notice.Like like (.event e (r.context i j a)) (.event e (r'.context i j a)) := by
  refine .event e (h.plan hM) ?_
  unfold Run.context
  rw [h.bestScore]

theorem restartWorkspace (h : r.Mirror M like R r') (hM : Workspace.Mirrors M ex like X ok R) :
    r.restartWorkspace.Mirror M like R r'.restartWorkspace :=
  { h with
    rest := congrArg (fun r₀ : Run W S sh => { r₀ with workspace := Workspace.restart r.workspace })
      h.rest
    workspace := hM.restart h.workspace }

theorem scoreNow (h : r.Mirror M like R r') (hM : Workspace.Mirrors M ex like X ok R) :
    Alike ex (Run.Mirror M like R) (Run.scoreNow r) (Run.scoreNow r') :=
  h.onWorkspace (hM.score h.workspace)

theorem improve (h : r.Mirror M like R r') (hM : Workspace.Mirrors M ex like X ok R) (k : Rank sh) :
    Run.Mirror M like R
      { r.announce (.improved r.plan k.score) with
        best := some ⟨r.plan, k⟩
        lastImprovement := r.steps
        stats := r.stats.recordImprovement }
      { r'.announce (.improved r'.plan k.score) with
        best := some ⟨r'.plan, k⟩
        lastImprovement := r'.steps
        stats := r'.stats.recordImprovement } :=
  have hplan := h.plan hM
  have ha := h.announce (.improved hplan k.score)
  { ha with
    rest := congrArg (fun r₀ : Run W S sh =>
      { r₀ with
        best := some ⟨r.plan, k⟩
        lastImprovement := r₀.steps
        stats := r₀.stats.recordImprovement }) ha.rest
    best := .some ⟨hplan, rfl⟩ }

theorem updateBest (h : r.Mirror M like R r') (hM : Workspace.Mirrors M ex like X ok R) :
    Alike ex (Run.Mirror M like R) (Run.updateBest r) (Run.updateBest r') := by
  unfold Run.updateBest
  refine (h.scoreNow hM).bind fun a r r' h => ?_
  rw [Step.get_bind, Step.get_bind]
  dsimp only
  rw [hM.unassigned (h.plan hM)]
  have hbest : (r.best.all fun b => Rank.beats ⟨Plan.unassignedCount r'.plan, a⟩ b.rank) =
      r'.best.all fun b => Rank.beats ⟨Plan.unassignedCount r'.plan, a⟩ b.rank := by
    have hrel := h.best
    generalize r.best = b at hrel
    generalize r'.best = b' at hrel
    cases hrel with
    | none => rfl
    | some hb =>
      show Rank.beats _ _ = Rank.beats _ _
      rw [hb.2]
  rw [hbest]
  split
  · exact Alike.pure true (h.improve hM ⟨Plan.unassignedCount r'.plan, a⟩)
  · exact Alike.pure false h

end Run.Mirror

/-! ## Scopes -/

/-- The scopes have the same span, of runs that mirror each other. -/
structure Scope.Mirror (M : Mode → Mode → Prop) (like : S → S → Prop) (R : W → W' → Prop)
    (sc : Scope W S sh) (sc' : Scope W' S sh) : Prop where
  span : sc.span = sc'.span
  run : sc.run.Mirror M like R sc'.run

namespace Scope.Mirror

variable {sc : Scope W S sh} {sc' : Scope W' S sh}

theorem isTerminated (h : sc.Mirror M like R sc') (own : Option (Termination sh)) :
    sc.isTerminated own = sc'.isTerminated own := by
  unfold Scope.isTerminated Scope.progress
  rw [h.run.isTerminated, h.run.bestScore, h.span, congrArg Run.elapsed h.run.rest]

theorem countStep (h : sc.Mirror M like R sc') : sc.countStep.Mirror M like R sc'.countStep :=
  ⟨congrArg (fun span : Span sh => { span with steps := span.steps + 1 }) h.span, h.run.countStep⟩

theorem mapRun (h : sc.Mirror M like R sc') {f : Run W S sh → Run W S sh}
    {g : Run W' S sh → Run W' S sh} (hf : (f sc.run).Mirror M like R (g sc'.run)) :
    (sc.mapRun f).Mirror M like R (sc'.mapRun g) :=
  ⟨h.span, hf⟩

theorem onRun {α : Type} (h : sc.Mirror M like R sc') {x : Action (Run W S sh) α}
    {y : Action (Run W' S sh) α}
    (hx : Alike ex (Run.Mirror M like R) (x sc.run) (y sc'.run)) :
    Alike ex (Scope.Mirror M like R) (Scope.onRun x sc) (Scope.onRun y sc') :=
  Ends.onPart hx (fun _ _ hr => ⟨h.span, hr⟩) fun _ _ _ _ ⟨ha, hr⟩ => ⟨ha, h.span, hr⟩

variable [Plan S sh] [Workspace W S sh] [Workspace W' S sh] {X : Variable S V → Prop}
  {ok : Slot S V → Prop}

/-- Both tell listeners of the same event. -/
theorem announce (h : sc.Mirror M like R sc') (hM : Workspace.Mirrors M ex like X ok R) (e : Event)
    (a : Score sh) :
    (sc.mapRun (Run.announce (.event e (sc.context (some a))))).Mirror M like R
      (sc'.mapRun (Run.announce (.event e (sc'.context (some a))))) := by
  refine h.mapRun (h.run.announce ?_)
  unfold Scope.context
  rw [h.span]
  exact h.run.event hM e _ _ _

theorem updateBest (h : sc.Mirror M like R sc') (hM : Workspace.Mirrors M ex like X ok R) :
    Alike ex (Scope.Mirror M like R) (Scope.updateBest sc) (Scope.updateBest sc') := by
  unfold Scope.updateBest
  refine (h.onRun (h.run.updateBest hM)).bind fun improved sc sc' h => ?_
  dsimp only
  split
  · rw [Step.modify_bind, Step.modify_bind]
    refine Alike.pure improved ⟨?_, h.run⟩
    exact congrArg (fun span : Span sh => { span with lastImprovement := span.steps }) h.span
  · exact Alike.pure improved h

theorem completeStep (h : sc.Mirror M like R sc') (hM : Workspace.Mirrors M ex like X ok R) :
    Alike ex (Scope.Mirror M like R) (Scope.completeStep sc) (Scope.completeStep sc') :=
  h.countStep.updateBest hM

end Scope.Mirror

/-! ## Phases -/

/-- Phases within `P` in scopes that mirror each other. -/
structure Phase.Mirror {α β : Type} (P : α → β → Prop) (M : Mode → Mode → Prop)
    (like : S → S → Prop) (R : W → W' → Prop) (s : α × Scope W S sh) (t : β × Scope W' S sh) :
    Prop where
  phase : P s.1 t.1
  scope : s.2.Mirror M like R t.2

namespace Phase.Mirror

variable {α β γ : Type} {P : α → β → Prop} {s : α × Scope W S sh} {t : β × Scope W' S sh}

theorem onScope (h : Mirror P M like R s t) {x : Action (Scope W S sh) γ}
    {y : Action (Scope W' S sh) γ} (hx : Alike ex (Scope.Mirror M like R) (x s.2) (y t.2)) :
    Alike ex (Mirror P M like R) (PlanSearch.onScope x s) (PlanSearch.onScope y t) :=
  Ends.onPart hx (fun _ _ hsc => ⟨h.phase, hsc⟩) fun _ _ _ _ ⟨ha, hsc⟩ => ⟨ha, h.phase, hsc⟩

theorem onRun (h : Mirror P M like R s t) {x : Action (Run W S sh) γ} {y : Action (Run W' S sh) γ}
    (hx : Alike ex (Run.Mirror M like R) (x s.2.run) (y t.2.run)) :
    Alike ex (Mirror P M like R) (PlanSearch.onScope (Scope.onRun x) s)
      (PlanSearch.onScope (Scope.onRun y) t) :=
  h.onScope (h.scope.onRun hx)

/-- An action on the run with an answer within `Q`. -/
theorem onRun_and (h : Mirror P M like R s t) {Q : γ → Prop} {x : Action (Run W S sh) γ}
    {y : Action (Run W' S sh) γ}
    (hx : Ends ex (Run.Mirror M like R) (fun a r b r' => (a = b ∧ r.Mirror M like R r') ∧ Q a)
      (x s.2.run) (y t.2.run)) :
    Ends ex (Mirror P M like R) (fun a s b t => (a = b ∧ Mirror P M like R s t) ∧ Q a)
      (PlanSearch.onScope (Scope.onRun x) s) (PlanSearch.onScope (Scope.onRun y) t) :=
  have hscope : Ends ex (Scope.Mirror M like R)
      (fun a sc b sc' => (a = b ∧ sc.Mirror M like R sc') ∧ Q a) (Scope.onRun x s.2)
      (Scope.onRun y t.2) :=
    Ends.onPart hx (fun _ _ hr => ⟨h.scope.span, hr⟩) fun _ _ _ _ ⟨⟨ha, hr⟩, hQ⟩ =>
      ⟨⟨ha, h.scope.span, hr⟩, hQ⟩
  Ends.onPart hscope (fun _ _ hsc => ⟨h.phase, hsc⟩) fun _ _ _ _ ⟨⟨ha, hsc⟩, hQ⟩ =>
    ⟨⟨ha, h.phase, hsc⟩, hQ⟩

end Phase.Mirror

end PlanSearch
