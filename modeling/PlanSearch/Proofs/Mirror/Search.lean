import PlanSearch.Proofs.Mirror.Run
import PlanSearch.Proofs.Search.LocalSearch

/-!
# Searches that mirror each other

Two local searches that differ in the number of their workers make the same steps on runs that
mirror each other, as long as they gather the same candidates in every step.

    GathersAlike … → s mirrors t → step … s and step … t end alike       (Mirror.step)
    GathersAlike … → s mirrors t → solve … s and solve … t end alike, and their steps are alike
                                                                         (Mirror.solve)
-/

namespace PlanSearch

variable {S V W W' : Type} {sh : Shape} {M : Mode → Mode → Prop}

/-! ## Neighbourhoods -/

/-- Walks through the tree do not tell plans that are alike from each other. -/
def Tree.Blind [Plan S sh] (like : S → S → Prop) (t : Tree S V) : Prop :=
  ∀ p q, like p q → (∀ x s, t.next p x s = t.next q x s) ∧ ∀ e x, t.hear p e x = t.hear q e x

theorem Tree.blind_eq [Plan S sh] (t : Tree S V) : t.Blind fun p q : S => p = q :=
  fun p q hpq => by
    rw [hpq]
    exact ⟨fun _ _ => rfl, fun _ _ => rfl⟩

namespace Neighbourhood

variable [Plan S sh] {like : S → S → Prop} {n : Neighbourhood S V} {p q : S}

theorem next_congr (h : n.tree.Blind like) (hpq : like p q) (s : Source) :
    n.next p s = n.next q s := by
  unfold next
  rw [(h p q hpq).1]

theorem hear_congr (h : n.tree.Blind like) (hpq : like p q) (e : Event) :
    n.hear p e = n.hear q e := by
  unfold hear
  rw [(h p q hpq).2]

end Neighbourhood

namespace LocalSearch

/-- The search `p` on its own threads and the search `p'` on others. -/
structure Twins [Plan S sh] (threads threads' : Option Nat) (X : Variable S V → Prop)
    (like : S → S → Prop) (p p' : LocalSearch S V sh) : Prop where
  rest : p = { p' with threads }
  threads : p'.threads = threads'
  valid : p'.validate = .ok ()
  assigns : p'.neighbourhood.tree.Over X
  blind : p'.neighbourhood.tree.Blind like

/-- A search is valid as long as it has its tree, its limit and a forager of the same kind. -/
theorem validate_congr {p p' : LocalSearch S V sh} (htree : p.neighbourhood.tree = p'.neighbourhood.tree)
    (hlimit : p.candidateLimit = p'.candidateLimit)
    (hforager : p.forager.canStopEarly = p'.forager.canStopEarly) : p.validate = p'.validate := by
  unfold validate
  rw [htree, hlimit, hforager]

namespace Twins

variable [Plan S sh] {threads threads' : Option Nat} {X : Variable S V → Prop}
  {like : S → S → Prop} {p p' : LocalSearch S V sh}

theorem forager (h : Twins threads threads' X like p p') : p.forager = p'.forager := by
  rw [h.rest]

theorem arena (h : Twins threads threads' X like p p') : p.arena = p'.arena := by rw [h.rest]

theorem termination (h : Twins threads threads' X like p p') : p.termination = p'.termination := by
  rw [h.rest]

theorem noAcceptedMove (h : Twins threads threads' X like p p') :
    p.noAcceptedMove = p'.noAcceptedMove := by
  rw [h.rest]

theorem hear (h : Twins threads threads' X like p p') {plan plan' : S} (hplan : like plan plan')
    (e : Event) (a : Option (Score sh)) :
    Twins threads threads' X like (p.hear e plan a) (p'.hear e plan' a) where
  rest := by
    have hn := Neighbourhood.hear_congr h.blind hplan e
    rw [h.rest]
    unfold LocalSearch.hear
    dsimp only
    rw [hn]
  threads := h.threads
  valid := by
    rw [← h.valid]
    exact validate_congr rfl rfl (p'.forager.canStopEarly_hear e)
  assigns := h.assigns
  blind := h.blind

theorem setArena (h : Twins threads threads' X like p p') (arena : Arena (Move S V)) :
    Twins threads threads' X like { p with arena } { p' with arena } :=
  { h with rest := congrArg (fun q : LocalSearch S V sh => { q with arena }) h.rest }

theorem setNeighbourhood (h : Twins threads threads' X like p p') {n : Neighbourhood S V}
    (hn : n.tree = p'.neighbourhood.tree) :
    Twins threads threads' X like { p with neighbourhood := n }
      { p' with neighbourhood := n } where
  rest := congrArg (fun q : LocalSearch S V sh => { q with neighbourhood := n }) h.rest
  threads := h.threads
  valid := by
    rw [← h.valid]
    exact validate_congr hn rfl rfl
  assigns := by
    show n.tree.Over X
    rw [hn]
    exact h.assigns
  blind := by
    show n.tree.Blind like
    rw [hn]
    exact h.blind

/-- Both keep a candidate. -/
theorem keep (h : Twins threads threads' X like p p') (m : Move S V) (a : Score sh) :
    Twins threads threads' X like
      { p with
        forager := (PlanSearch.keep m a (p.forager, p.arena)).1
        arena := (PlanSearch.keep m a (p.forager, p.arena)).2 }
      { p' with
        forager := (PlanSearch.keep m a (p'.forager, p'.arena)).1
        arena := (PlanSearch.keep m a (p'.forager, p'.arena)).2 } :=
  { h with
    rest := congrArg (fun q : LocalSearch S V sh =>
      { q with
        forager := (PlanSearch.keep m a (q.forager, q.arena)).1
        arena := (PlanSearch.keep m a (q.forager, q.arena)).2 }) h.rest
    valid := by
      rw [← h.valid]
      exact validate_congr rfl rfl (p'.forager.canStopEarly_add _) }

/-- What a step leaves behind when it has its winner. -/
theorem pick (h : Twins threads threads' X like p p') (source : Source)
    (arena : Arena (Move S V)) :
    Twins threads threads' X like { p with forager := (p.forager.pick source).2.1, arena }
      { p' with forager := (p'.forager.pick source).2.1, arena } :=
  { h with
    rest := congrArg (fun q : LocalSearch S V sh =>
      { q with forager := (q.forager.pick source).2.1, arena }) h.rest
    valid := by
      rw [← h.valid]
      exact validate_congr rfl rfl (p'.forager.canStopEarly_pick source) }

end Twins

/-! ## Searching alike -/

/-- The searches differ in their threads, on runs that mirror each other. -/
structure Beside [Plan S sh] (M : Mode → Mode → Prop) (threads threads' : Option Nat)
    (X : Variable S V → Prop) (like : S → S → Prop) (R : W → W' → Prop)
    (s : LocalSearch S V sh × Run W S sh) (t : LocalSearch S V sh × Run W' S sh) : Prop where
  rest : s.1 = { t.1 with threads }
  threads : t.1.threads = threads'
  assigns : t.1.neighbourhood.tree.Over X
  blind : t.1.neighbourhood.tree.Blind like
  run : s.2.Mirror M like R t.2

theorem Beside.phase_eq [Plan S sh] {threads : Option Nat} {X : Variable S V → Prop}
    {like : S → S → Prop} {R : W → W' → Prop} {s : LocalSearch S V sh × Run W S sh}
    {t : LocalSearch S V sh × Run W' S sh} (h : Beside M threads threads X like R s t) :
    s.1 = t.1 := by
  rw [h.rest, ← h.threads]

/-- The searches `s` and `t` are twins, on runs that mirror each other. -/
abbrev Mirrored [Plan S sh] (M : Mode → Mode → Prop) (threads threads' : Option Nat)
    (X : Variable S V → Prop) (like : S → S → Prop) (R : W → W' → Prop) :
    Searching W S V sh → Searching W' S V sh → Prop :=
  Phase.Mirror (Twins threads threads' X like) M like R

theorem within_begun [Workspace W S sh] (ok : Slot S V → Prop) (last : Score sh)
    (s : Searching W S V sh) : (begun last s).1.neighbourhood.Within ok :=
  Neighbourhood.within_hear _ _ _ rfl

/-- What a phase does before its first step; answers the score of the plan. -/
def opening [Plan S sh] [Workspace W S sh] : Action (Searching W S V sh) (Score sh) := do
  mapScope fun sc => sc.mapRun Run.restartWorkspace
  let start ← onScope (Scope.onRun Run.scoreNow)
  mapScope fun sc => { sc with span := { sc.span with startingScore := some start } }
  let _ ← onScope Scope.updateBest
  fire .phaseStarted start
  return start

namespace Mirrored

variable [Plan S sh] {threads threads' : Option Nat} {X : Variable S V → Prop}
  {like : S → S → Prop} {R : W → W' → Prop} {s : Searching W S V sh} {t : Searching W' S V sh}

theorem beside (h : Mirrored M threads threads' X like R s t) :
    Beside M threads threads' X like R (s.1, s.2.run) (t.1, t.2.run) :=
  ⟨h.phase.rest, h.phase.threads, h.phase.assigns, h.phase.blind, h.scope.run⟩

theorem chosen (h : Mirrored M threads threads' X like R s t) : chosen s = chosen t := by
  unfold LocalSearch.chosen winner
  rw [h.phase.forager, h.phase.arena, h.scope.run.source]

theorem takeWinner (h : Mirrored M threads threads' X like R s t) {ex : Excuse} :
    Alike ex (Mirrored M threads threads' X like R) (takeWinner s) (takeWinner t) := by
  have hphase := fun arena => h.phase.pick t.2.run.source arena
  have hscope : ∀ source, Scope.Mirror M like R (s.2.mapRun fun r => { r with source })
      (t.2.mapRun fun r => { r with source }) := fun source =>
    h.scope.mapRun (h.scope.run.setSource source)
  unfold LocalSearch.takeWinner
  rw [h.phase.forager] at hphase
  rw [h.scope.run.source, h.phase.forager, h.phase.arena]
  generalize t.1.forager.pick t.2.run.source = q at hphase ⊢
  obtain ⟨winner, forager, source⟩ := q
  cases winner with
  | none => exact .ok ⟨rfl, hphase _, hscope source⟩
  | some winner => exact .ok ⟨rfl, hphase _, hscope source⟩

theorem onScope {α : Type} {ex : Excuse} (h : Mirrored M threads threads' X like R s t)
    {x : Action (Scope W S sh) α} {y : Action (Scope W' S sh) α}
    (hx : Alike ex (Scope.Mirror M like R) (x s.2) (y t.2)) :
    Alike ex (Mirrored M threads threads' X like R) (PlanSearch.onScope x s)
      (PlanSearch.onScope y t) :=
  Phase.Mirror.onScope h hx

variable [Workspace W S sh] [Workspace W' S sh] {ex : Excuse} {ok : Slot S V → Prop}

theorem fired (h : Mirrored M threads threads' X like R s t)
    (hM : Workspace.Mirrors M ex like X ok R) (e : Event) (a : Score sh) :
    Mirrored M threads threads' X like R (fired e a s) (fired e a t) where
  phase := h.phase.hear (h.scope.run.plan hM) e (some a)
  scope := h.scope.announce hM e a

theorem begun (h : Mirrored M threads threads' X like R s t)
    (hM : Workspace.Mirrors M ex like X ok R) (last : Score sh) :
    Mirrored M threads threads' X like R (begun last s) (begun last t) :=
  have hf := h.fired hM .stepStarted last
  ⟨hf.phase.setArena .empty, hf.scope⟩

theorem opening (hM : Workspace.Mirrors M ex like X ok R)
    (h : Mirrored M threads threads' X like R s t) :
    Alike ex (Mirrored M threads threads' X like R) (opening s) (opening t) := by
  unfold LocalSearch.opening
  rw [mapScope_bind, mapScope_bind]
  have h₀ : Mirrored M threads threads' X like R (s.1, s.2.mapRun Run.restartWorkspace)
      (t.1, t.2.mapRun Run.restartWorkspace) :=
    ⟨h.phase, h.scope.mapRun (h.scope.run.restartWorkspace hM)⟩
  refine Alike.bind (h₀.onRun (h₀.scope.run.scoreNow hM)) fun start s₁ t₁ h₁ => ?_
  rw [mapScope_bind, mapScope_bind]
  have hspan : s₁.2.span = t₁.2.span := h₁.scope.span
  have h₂ : Mirrored M threads threads' X like R
      (s₁.1, { s₁.2 with span := { s₁.2.span with startingScore := some start } })
      (t₁.1, { t₁.2 with span := { t₁.2.span with startingScore := some start } }) :=
    ⟨h₁.phase, by rw [hspan], h₁.scope.run⟩
  refine Alike.bind (h₂.onScope (h₂.scope.updateBest hM)) fun _ s₃ t₃ h₃ => ?_
  rw [fire_bind, fire_bind]
  exact Alike.pure start (h₃.fired hM _ _)

end Mirrored

section

variable [Plan S sh] [Workspace W S sh] [Workspace W' S sh] [ToString V]
  {X : Variable S V → Prop} {like : S → S → Prop} {R : W → W' → Prop} {ex : Excuse}
  {ok : Slot S V → Prop}

theorem commit_mirror (hM : Workspace.Mirrors M ex like X ok R) {r : Run W S sh} {r' : Run W' S sh}
    (h : r.Mirror M like R r') {m : Move S V} (hm : m.Within ok) (stepIndex : Nat) :
    Alike ex (Run.Mirror M like R) (commit m stepIndex r) (commit m stepIndex r') := by
  unfold commit
  rw [Step.get_bind, Step.get_bind]
  refine h.onWorkspace ?_
  rw [Step.modify_bind, Step.modify_bind]
  exact hM.committed h.mode (hM.apply h.workspace hm) _

end

/-! ## Steps made -/

variable [Plan S sh] [Workspace W S sh] [Workspace W' S sh] [DecidableEq V] [ToString V]

/-- The move that the step applied, if it accepted one. -/
def StepMade.winner {fuel : Nat} (x : StepMade W S V sh fuel) : Option (Move S V) :=
  match gather fuel x.last (begun x.last x.before) with
  | .ok _ g => chosen g
  | .error _ _ => none

/-- The steps that a search makes, from the first to the last. -/
def made (fuel : Nat) : Nat → Score sh → Searching W S V sh → List (StepMade W S V sh fuel)
  | 0, _, _ => []
  | rounds + 1, last, s =>
    if s.2.isTerminated s.1.termination then []
    else
      match h : step fuel last s with
      | .error _ _ => []
      | .ok answer t =>
        let x : StepMade W S V sh fuel := ⟨last, s, answer, t, h⟩
        if answer.isNone && s.1.noAcceptedMove == .terminate then [x]
        else x :: made fuel rounds x.score x.next

section

variable {fuel rounds : Nat} {last : Score sh} {s t : Searching W S V sh}
  {answer : Option (Score sh)}

theorem made_of_terminated (h : s.2.isTerminated s.1.termination) :
    made fuel (rounds + 1) last s = [] := by
  rw [made, if_pos h]

theorem made_of_step (h : ¬s.2.isTerminated s.1.termination)
    (e : step fuel last s = .ok answer t) :
    made fuel (rounds + 1) last s =
      let x : StepMade W S V sh fuel := ⟨last, s, answer, t, e⟩
      if answer.isNone && s.1.noAcceptedMove == .terminate then [x]
      else x :: made fuel rounds x.score x.next := by
  rw [made, if_neg h]
  split
  · next h => cases h.symm.trans e
  · next h =>
    cases h.symm.trans e
    rfl

end

/-- A phase opens, makes its steps and tells of its end. -/
theorem work_eq (fuel : Nat) (s : Searching W S V sh) :
    work fuel s = (opening >>= fun start => steps fuel fuel start >>= fun x =>
      fire .phaseEnded x.2 >>= fun _ => pure x.1) s := by
  unfold work opening
  simp only [bind_assoc, pure_bind]

/-- The steps that a phase makes on the run. -/
def phaseSteps (fuel : Nat) (p : LocalSearch S V sh) (r : Run W S sh) :
    List (StepMade W S V sh fuel) :=
  match opening (p, ⟨{ index := r.beginPhase.1 }, r.beginPhase.2⟩) with
  | .ok start s => made fuel fuel start s
  | .error _ _ => []

/-! ## Steps that mirror each other -/

/-- A relation of two searches before and after they gathered candidates for a step from a plan with
the given score. -/
abbrev Gathering (W W' S V : Type) (sh : Shape) : Type :=
  Score sh → Searching W S V sh → Searching W S V sh → Searching W' S V sh → Searching W' S V sh → Prop

/-- Searches within `I` gather the same candidates, as far as `D` says so, when steps begin. -/
def GathersAlike (ex : Excuse) (I : Searching W S V sh → Searching W' S V sh → Prop)
    (ok : Slot S V → Prop) (D : Gathering W W' S V sh) (fuel fuel' : Nat) : Prop :=
  ∀ last s t, I s t → t.1.neighbourhood.Within ok → t.1.arena = .empty →
    Ends ex I (fun _ g _ g' => I g g' ∧ (∀ i m, g'.1.arena.get? i = some m → m.Within ok) ∧
      D last s g t g') (gather fuel last s) (gather fuel' last t)

/-- The steps start and end in searches that mirror each other, with the same winner. -/
structure StepMade.Alike (I : Searching W S V sh → Searching W' S V sh → Prop)
    (D : Gathering W W' S V sh) {fuel fuel' : Nat} (x : StepMade W S V sh fuel)
    (y : StepMade W' S V sh fuel') : Prop where
  last : x.last = y.last
  before : I x.before y.before
  answer : x.answer = y.answer
  after : I x.after y.after
  winner : x.winner = y.winner
  gathered : ∃ g g', gather fuel x.last (begun x.last x.before) = .ok () g ∧
    gather fuel' y.last (begun y.last y.before) = .ok () g' ∧
    D x.last (begun x.last x.before) g (begun y.last y.before) g'

namespace Mirrored

variable {threads threads' : Option Nat} {X : Variable S V → Prop} {like : S → S → Prop}
  {ex : Excuse} {ok : Slot S V → Prop} {R : W → W' → Prop} {D : Gathering W W' S V sh}
  {fuel fuel' : Nat} {last : Score sh} {s : Searching W S V sh} {t : Searching W' S V sh}

theorem forage (hG : GathersAlike ex (Mirrored M threads threads' X like R) ok D fuel fuel')
    (h : Mirrored M threads threads' X like R s t) (hwithin : t.1.neighbourhood.Within ok)
    (harena : t.1.arena = .empty) :
    Ends ex (Mirrored M threads threads' X like R)
      (fun m s₁ m' t₁ => m = m' ∧ Mirrored M threads threads' X like R s₁ t₁ ∧
        (∀ x, m = some x → x.Within ok) ∧ ∃ g g', gather fuel last s = .ok () g ∧
          gather fuel' last t = .ok () g' ∧ LocalSearch.chosen g = LocalSearch.chosen g' ∧
          D last s g t g')
      (forage fuel last s) (forage fuel' last t) := by
  rw [forage_eq, forage_eq]
  refine (hG last s t h hwithin harena).with_results.bind fun _ g _ g' ⟨⟨hg, hg'⟩, hI, hok, hD⟩ => ?_
  refine hI.takeWinner.with_results.mono fun m s₁ m' t₁ ⟨⟨_, htake⟩, hm, hI'⟩ =>
    ⟨hm, hI', fun x hx => ?_, g, g', hg, hg', hI.chosen, hD⟩
  rw [hm, (takeWinner_eq_ok htake).1] at hx
  obtain ⟨p, -, hp⟩ := Option.bind_eq_some_iff.1 hx
  exact hok p.index x hp

theorem step (hM : Workspace.Mirrors M ex like X ok R)
    (hG : GathersAlike ex (Mirrored M threads threads' X like R) ok D fuel fuel')
    (h : Mirrored M threads threads' X like R s t) :
    Ends ex (Mirrored M threads threads' X like R)
      (fun a s₁ a' t₁ => a = a' ∧ Mirrored M threads threads' X like R s₁ t₁ ∧
        ∃ g g', gather fuel last (LocalSearch.begun last s) = .ok () g ∧
          gather fuel' last (LocalSearch.begun last t) = .ok () g' ∧
          LocalSearch.chosen g = LocalSearch.chosen g' ∧
          D last (LocalSearch.begun last s) g (LocalSearch.begun last t) g')
      (step fuel last s) (step fuel' last t) := by
  unfold LocalSearch.step
  rw [fire_bind, mapPhase_bind, fire_bind, mapPhase_bind]
  refine (forage hG (h.begun hM last) (within_begun ok last t) rfl).bind
    fun m s₁ m' t₁ ⟨hm, h₁, hok, hgathered⟩ => ?_
  subst hm
  cases m with
  | none =>
    dsimp only
    rw [fire_bind, fire_bind]
    exact .ok ⟨rfl, h₁.fired hM _ _, hgathered⟩
  | some m =>
    dsimp only
    rw [Step.get_bind, Step.get_bind, h₁.scope.span]
    refine Alike.bind (h₁.onScope (h₁.scope.onRun (commit_mirror hM h₁.scope.run (hok m rfl) _)))
      fun a s₂ t₂ h₂ => ?_
    refine Alike.bind (h₂.onScope (h₂.scope.completeStep hM)) fun _ s₃ t₃ h₃ => ?_
    rw [fire_bind, fire_bind]
    exact .ok ⟨rfl, h₃.fired hM _ _, hgathered⟩

theorem steps {rounds rounds' : Nat} (hM : Workspace.Mirrors M ex like X ok R)
    (hG : GathersAlike ex (Mirrored M threads threads' X like R) ok D fuel fuel')
    (hrounds : ex.Fuels rounds rounds') (h : Mirrored M threads threads' X like R s t) :
    Ends ex (Mirrored M threads threads' X like R)
      (fun x s₁ y t₁ => x = y ∧ Mirrored M threads threads' X like R s₁ t₁ ∧
        List.Forall₂ (StepMade.Alike (Mirrored M threads threads' X like R) D)
          (made fuel rounds last s) (made fuel' rounds' last t))
      (steps fuel rounds last s) (steps fuel' rounds' last t) := by
  induction rounds generalizing rounds' last s t with
  | zero =>
    rcases hrounds.zero with rfl | hleft
    · exact .outOfFuel s t
    · exact .left hleft _
  | succ rounds ih =>
    rcases hrounds.succ with ⟨rfl, hright⟩ | ⟨rounds', rfl, hrest⟩
    · exact .right hright _
    rw [LocalSearch.steps, LocalSearch.steps, Step.get_bind, Step.get_bind]
    dsimp only
    have hterm := h.scope.isTerminated s.1.termination
    rw [h.phase.termination] at hterm
    rw [h.phase.termination, hterm]
    split
    · next hover =>
      rw [made_of_terminated (by rw [h.phase.termination, hterm, hover]),
        made_of_terminated hover]
      exact .ok ⟨rfl, h, .nil⟩
    next hover =>
    have hover' : ¬s.2.isTerminated s.1.termination := by rwa [h.phase.termination, hterm]
    refine (step hM hG h).with_results.bind fun a s₁ a' t₁ hmade => ?_
    obtain ⟨⟨hstep, hstep'⟩, ha, h₁, g, g', hg, hg', hchosen, hD⟩ := hmade
    subst ha
    have hwinner : StepMade.winner ⟨last, s, a, s₁, hstep⟩ =
        StepMade.winner ⟨last, t, a, t₁, hstep'⟩ := by
      unfold StepMade.winner
      rw [hg, hg']
      exact hchosen
    have halike : StepMade.Alike (Mirrored M threads threads' X like R) D
        ⟨last, s, a, s₁, hstep⟩ ⟨last, t, a, t₁, hstep'⟩ :=
      ⟨rfl, h, rfl, h₁, hwinner, g, g', hg, hg', hD⟩
    rw [made_of_step hover' hstep, made_of_step hover hstep', h.phase.noAcceptedMove]
    cases a with
    | some a =>
      refine (ih hrest h₁).mono fun _ _ _ _ hlater => ?_
      obtain ⟨hx, hend, hall⟩ := hlater
      exact ⟨hx, hend, .cons halike hall⟩
    | none =>
      cases hpolicy : t.1.noAcceptedMove with
      | terminate => exact .ok ⟨rfl, h₁, .cons halike .nil⟩
      | proceed =>
        dsimp only
        rw [mapScope_bind, mapScope_bind]
        have h₂ : Mirrored M threads threads' X like R (s₁.1, s₁.2.countStep) (t₁.1, t₁.2.countStep) :=
          ⟨h₁.phase, h₁.scope.countStep⟩
        refine (ih hrest h₂).mono fun _ _ _ _ hlater => ?_
        obtain ⟨hx, hend, hall⟩ := hlater
        exact ⟨hx, hend, .cons halike hall⟩

/-- The phases end alike, and so do their steps. -/
theorem work (hM : Workspace.Mirrors M ex like X ok R)
    (hG : GathersAlike ex (Mirrored M threads threads' X like R) ok D fuel fuel')
    (hrounds : ex.Fuels fuel fuel') (h : Mirrored M threads threads' X like R s t) :
    Ends ex (Mirrored M threads threads' X like R)
      (fun x s₁ y t₁ => x = y ∧ Mirrored M threads threads' X like R s₁ t₁ ∧
        ∃ start s₀ t₀, LocalSearch.opening s = .ok start s₀ ∧ LocalSearch.opening t = .ok start t₀ ∧
          List.Forall₂ (StepMade.Alike (Mirrored M threads threads' X like R) D)
            (made fuel fuel start s₀) (made fuel' fuel' start t₀))
      (work fuel s) (work fuel' t) := by
  rw [work_eq, work_eq]
  refine (h.opening hM).with_results.bind fun start s₀ _ t₀ ⟨⟨hs, ht⟩, hstart, h₀⟩ => ?_
  subst hstart
  refine (steps hM hG hrounds h₀).bind fun x s₁ y t₁ ⟨hx, h₁, hall⟩ => ?_
  subst hx
  rw [fire_bind, fire_bind]
  exact .ok ⟨rfl, h₁.fired hM _ _, start, s₀, t₀, hs, ht, hall⟩

end Mirrored

omit [Plan S sh] [DecidableEq V] [ToString V] in
theorem validate_error {p : LocalSearch S V sh} {e : SolverError} (h : p.validate = .error e) :
    e.isCorruption = false := by
  unfold validate at h
  split at h
  · cases h
    rfl
  · cases h

section

variable {threads threads' : Option Nat} {X : Variable S V → Prop} {like : S → S → Prop}
  {ex : Excuse} {ok : Slot S V → Prop} {R : W → W' → Prop} {D : Gathering W W' S V sh}
  {fuel fuel' : Nat} {p p' : LocalSearch S V sh} {r : Run W S sh} {r' : Run W' S sh}

/-- The phases end alike, and so do their steps. -/
theorem solve_mirror (hM : Workspace.Mirrors M ex like X ok R)
    (hG : GathersAlike ex (Mirrored M threads threads' X like R) ok D fuel fuel')
    (hrounds : ex.Fuels fuel fuel') (hp : p = { p' with threads }) (hthreads : p'.threads = threads')
    (hover : p'.neighbourhood.tree.Over X) (hblind : p'.neighbourhood.tree.Blind like)
    (h : r.Mirror M like R r') :
    Ends ex (Beside M threads threads' X like R)
      (fun x s₁ y t₁ => x = y ∧ Beside M threads threads' X like R s₁ t₁ ∧
        List.Forall₂ (StepMade.Alike (Mirrored M threads threads' X like R) D)
          (phaseSteps fuel p r) (phaseSteps fuel' p' r'))
      (solve fuel (p, r)) (solve fuel' (p', r')) := by
  have hvalidate : p.validate = p'.validate := by
    rw [hp]
    rfl
  have hneeds : p.needsTermination = p'.needsTermination := by
    rw [hp]
    rfl
  have hbeside : Beside M threads threads' X like R (p, r) (p', r') :=
    ⟨hp, hthreads, hover, hblind, h⟩
  unfold solve
  dsimp only
  rw [hvalidate, hneeds, show r.termination = r'.termination from congrArg Run.termination h.rest]
  cases hvalid : p'.validate with
  | error e => exact .reported (validate_error hvalid) hbeside
  | ok =>
    dsimp only
    split
    · exact .reported rfl hbeside
    obtain ⟨hindex, hbegun⟩ := h.beginPhase
    have hI : Mirrored M threads threads' X like R
        (p, ⟨{ index := r.beginPhase.1 }, r.beginPhase.2⟩)
        (p', ⟨{ index := r'.beginPhase.1 }, r'.beginPhase.2⟩) :=
      ⟨⟨hp, hthreads, hvalid, hover, hblind⟩, by rw [hindex], hbegun⟩
    unfold inSpan phaseSteps
    dsimp only
    generalize (p, (⟨{ index := r.beginPhase.1 }, r.beginPhase.2⟩ : Scope W S sh)) = s at hI ⊢
    generalize (p', (⟨{ index := r'.beginPhase.1 }, r'.beginPhase.2⟩ : Scope W' S sh)) = t at hI ⊢
    have hwork := hI.work hM hG hrounds
    generalize work fuel s = u at hwork ⊢
    generalize work fuel' t = v at hwork ⊢
    cases hwork with
    | ok h =>
      obtain ⟨hx, hI', start, s₀, t₀, hs, ht, hall⟩ := h
      refine .ok ⟨hx, hI'.beside, ?_⟩
      rw [hs, ht]
      exact hall
    | error h => exact .error fun e he => ⟨(h e he).1, (h e he).2.beside⟩
    | left h => exact .left h _
    | right h => exact .right h _

end

end LocalSearch

end PlanSearch
