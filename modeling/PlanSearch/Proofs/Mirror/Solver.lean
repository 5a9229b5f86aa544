import PlanSearch.Proofs.Mirror.Construction
import PlanSearch.Proofs.Solver.Best

/-!
# Solvers that mirror each other

Two solvers that differ in their modes at most tell listeners the same, make the same steps and
answer plans that are alike, if they work on workspaces that answer the same scores and hold plans
that are alike.

    R w v → solver.solve fuel w and solver'.solve fuel v end alike, with the same winners
                                                                         (solve_like)
-/

namespace PlanSearch

variable {S V W W' P α : Type} {sh : Shape} {M : Mode → Mode → Prop} {like : S → S → Prop}
  {ex : Excuse}

/-! ## Walks -/

section

variable {A B : Type} {I : P → Prop} {K : A → B → Prop} {a : A} {b : B}

/-- The same phases, which are within `I`, on runs within `K`. -/
structure Alongside (I : P → Prop) (K : A → B → Prop) (s : P × A) (t : P × B) : Prop where
  eq : s.1 = t.1
  within : I s.1
  run : K s.2 t.2

/-- The same phases, all of which are within `I`, on runs within `K`. -/
abbrev AllAlongside (I : P → Prop) (K : A → B → Prop) : List P × A → List P × B → Prop :=
  Alongside (fun ps => ∀ p ∈ ps, I p) K

/-- One more phase, which is within `I`. -/
theorem Alongside.cons {p : P} {s : List P × A} {t : List P × B} (hp : I p)
    (h : AllAlongside I K s t) : AllAlongside I K (p :: s.1, s.2) (p :: t.1, t.2) :=
  ⟨congrArg (p :: ·) h.eq, List.forall_mem_cons.2 ⟨hp, h.within⟩, h.run⟩

/-- A phase, before others that are within `I`. -/
theorem Alongside.ahead {s : P × A} {t : P × B} {ps : List P} (h : Alongside I K s t)
    (hps : ∀ p ∈ ps, I p) : AllAlongside I K (s.1 :: ps, s.2) (t.1 :: ps, t.2) :=
  ⟨congrArg (· :: ps) h.eq, List.forall_mem_cons.2 ⟨h.within, hps⟩, h.run⟩

variable {f : Action (P × A) Unit} {g : Action (P × B) Unit} {ps : List P}

/-- What `l` says of each phase when its turn comes in a walk. -/
def atEach (f : Action (P × A) Unit) (l : P → A → α) : List P → A → List α
  | [], _ => []
  | p :: ps, a =>
    l p a ::
      match f (p, a) with
      | .ok _ s => atEach f l ps s.2
      | .error _ _ => []

theorem forEachPhase_mirror {l : P → A → α} {r : P → B → α}
    (hf : ∀ p a b, I p → K a b → Ends ex (Alongside I K)
      (fun _ s _ t => Alongside I K s t ∧ l p a = r p b) (f (p, a)) (g (p, b)))
    (hI : ∀ p ∈ ps, I p) (h : K a b) :
    Ends ex (AllAlongside I K)
      (fun _ s _ t => AllAlongside I K s t ∧ atEach f l ps a = atEach g r ps b)
      (forEachPhase f (ps, a)) (forEachPhase g (ps, b)) := by
  induction ps generalizing a b with
  | nil =>
    rw [forEachPhase, forEachPhase]
    exact .ok ⟨⟨rfl, hI, h⟩, rfl⟩
  | cons p ps ih =>
    obtain ⟨hp, hps⟩ := List.forall_mem_cons.1 hI
    have hfirst := hf p a b hp h
    rw [forEachPhase, forEachPhase, atEach, atEach]
    generalize f (p, a) = u at hfirst ⊢
    generalize g (p, b) = v at hfirst ⊢
    cases hfirst with
    | left h => exact .left h _
    | right h => exact .right h _
    | error h => exact .error fun e he => ⟨(h e he).1, (h e he).2.ahead hps⟩
    | @ok _ s _ t h =>
      obtain ⟨⟨hphase, hp, hK⟩, hl⟩ := h
      obtain ⟨p', a'⟩ := s
      obtain ⟨p'', b'⟩ := t
      obtain rfl : p' = p'' := hphase
      have hrest := ih hps hK
      dsimp only
      generalize forEachPhase f (ps, a') = u at hrest ⊢
      generalize forEachPhase g (ps, b') = v at hrest ⊢
      cases hrest with
      | left h => exact .left h _
      | right h => exact .right h _
      | error h => exact .error fun e he => ⟨(h e he).1, (h e he).2.cons hp⟩
      | ok h =>
        refine .ok ⟨h.1.cons hp, ?_⟩
        rw [hl, h.2]

theorem forEachPhase_alike
    (hf : ∀ p a b, I p → K a b → Alike ex (Alongside I K) (f (p, a)) (g (p, b)))
    (hI : ∀ p ∈ ps, I p) (h : K a b) :
    Alike ex (AllAlongside I K) (forEachPhase f (ps, a)) (forEachPhase g (ps, b)) :=
  have hwalk := forEachPhase_mirror (l := fun _ _ => ()) (r := fun _ _ => ())
    (fun p a b hp hK => (hf p a b hp hK).mono fun _ _ _ _ hst => ⟨hst.2, rfl⟩) hI h
  hwalk.mono fun _ _ _ _ hst => ⟨rfl, hst.1⟩

theorem forEachPhaseBackward_alike
    (hf : ∀ p a b, I p → K a b → Alike ex (Alongside I K) (f (p, a)) (g (p, b)))
    (hI : ∀ p ∈ ps, I p) (h : K a b) :
    Alike ex (AllAlongside I K) (forEachPhaseBackward f (ps, a))
      (forEachPhaseBackward g (ps, b)) := by
  induction ps generalizing a b with
  | nil =>
    rw [forEachPhaseBackward, forEachPhaseBackward]
    exact .ok ⟨rfl, rfl, hI, h⟩
  | cons p ps ih =>
    obtain ⟨hp, hps⟩ := List.forall_mem_cons.1 hI
    have hrest := ih hps h
    rw [forEachPhaseBackward, forEachPhaseBackward]
    generalize forEachPhaseBackward f (ps, a) = u at hrest ⊢
    generalize forEachPhaseBackward g (ps, b) = v at hrest ⊢
    cases hrest with
    | left h => exact .left h _
    | right h => exact .right h _
    | error h => exact .error fun e he => ⟨(h e he).1, (h e he).2.cons hp⟩
    | @ok _ s _ t h =>
      obtain ⟨-, hphases, hps', hK⟩ := h
      obtain ⟨ps', a'⟩ := s
      obtain ⟨ps'', b'⟩ := t
      obtain rfl : ps' = ps'' := hphases
      have hfirst := hf p a' b' hp hK
      dsimp only
      generalize f (p, a') = u at hfirst ⊢
      generalize g (p, b') = v at hfirst ⊢
      cases hfirst with
      | left h => exact .left h _
      | right h => exact .right h _
      | error h => exact .error fun e he => ⟨(h e he).1, (h e he).2.ahead hps'⟩
      | ok h => exact .ok ⟨rfl, h.2.ahead hps'⟩

/-- What is reported becomes the answer. -/
theorem Solver.attempt_mirror {I Q : A → B → Prop} {x : Action A Unit} {y : Action B Unit}
    (h : Ends ex I (fun _ s _ t => Q s t) (x a) (y b)) (hQ : ∀ s t, Q s t → I s t) :
    Ends ex I (fun u s v t => (u = v ∧ I s t) ∧ (∀ e, u = some e → e.isCorruption = false) ∧
      (u = none → Q s t)) (attempt x a) (attempt y b) := by
  unfold attempt
  generalize x a = u at h ⊢
  generalize y b = v at h ⊢
  cases h with
  | ok h => exact .ok ⟨⟨rfl, hQ _ _ h⟩, nofun, fun _ => h⟩
  | @error e s t h =>
    cases e with
    | error e =>
      obtain ⟨hsound, hI⟩ := h e rfl
      refine .ok ⟨⟨rfl, hI⟩, fun e' he' => ?_, nofun⟩
      cases he'
      exact hsound
    | fault f => exact .unreported (Failure.fault_ne_error f) _ _
    | outOfFuel => exact .unreported Failure.outOfFuel_ne_error _ _
  | @left e s h =>
    cases e with
    | error e => exact absurd h (ex.left_error e)
    | fault f => exact .left h _
    | outOfFuel => exact .left h _
  | @right e t h =>
    cases e with
    | error e => exact absurd h (ex.right_error e)
    | fault f => exact .right h _
    | outOfFuel => exact .right h _

end

/-! ## Runs -/

/-- The same answer, but for the number of times that a score was calculated. -/
structure Solved.Alike (x y : Solved S sh) : Prop where
  plan : x.plan = y.plan
  score : x.score = y.score
  stats : x.stats = { y.stats with calculations := x.stats.calculations }

/-- The same answer, on plans that are alike, but for the number of times that a score was
calculated. -/
structure Solved.Like (like : S → S → Prop) (x y : Solved S sh) : Prop where
  plan : like x.plan y.plan
  score : x.score = y.score
  stats : x.stats = { y.stats with calculations := x.stats.calculations }

theorem SearchPhase.validate_error {p : SearchPhase S V sh} {e : SolverError}
    (h : p.validate = .error e) : e.isCorruption = false := by
  cases p with
  | construction p => exact Construction.validate_error h
  | localSearch p => exact LocalSearch.validate_error h

variable [Plan S sh] [Workspace W S sh] [Workspace W' S sh]
  {X : Variable S V → Prop} {ok : Slot S V → Prop} {R : W → W' → Prop} {fuel : Nat}
  {r : Run W S sh} {r' : Run W' S sh}

namespace Solver

theorem announce_mirror (h : r.Mirror M like R r')
    (hM : Workspace.Mirrors M ex like X ok R) (e : Event) :
    (r.announce (.event e (r.context 0 0 r.bestScore))).Mirror M like R
      (r'.announce (.event e (r'.context 0 0 r'.bestScore))) := by
  rw [h.bestScore]
  exact h.announce (h.event hM e 0 0 _)

theorem result_mirror (h : r.Mirror M like R r')
    (hM : Workspace.Mirrors M ex like X ok R) (a : Score sh) :
    Solved.Like like ⟨Plan.setScore (some a) r.result.1, a, r.result.2⟩
      ⟨Plan.setScore (some a) r'.result.1, a, r'.result.2⟩ := by
  refine ⟨hM.setScore (some a) ?_, rfl, ?_⟩
  · have hbest := h.best
    have hplan := h.plan hM
    unfold Run.result
    generalize r.best = b at hbest
    generalize r'.best = b' at hbest
    cases hbest with
    | none => exact hplan
    | some hb => exact hb.1
  · unfold Run.result
    rw [show r.stats = r'.stats from congrArg Run.stats h.rest]

/-- The answer of a run whose best plan is settled. -/
def answering : Action (Run W S sh) (Solved S sh) := do
  let r ← get
  let score ← match r.bestScore with
    | some score => pure score
    | none => Run.scoreNow
  let (plan, stats) := (← get).result
  return { plan := Plan.setScore (some score) plan, score, stats }

/-- The answer of a run whose best plan has the score `a`. -/
def answeringWith (a : Score sh) : Action (Run W S sh) (Solved S sh) := do
  let (plan, stats) := (← get).result
  return { plan := Plan.setScore (some a) plan, score := a, stats }

theorem conclude_eq (r : Run W S sh) :
    conclude r =
      (if r.best.isNone then Run.updateBest >>= fun _ => answering else answering) r := by
  unfold conclude
  rw [Step.get_bind]
  split <;> rfl

theorem answering_mirror (hM : Workspace.Mirrors M ex like X ok R)
    (h : r.Mirror M like R r') :
    Ends ex (Run.Mirror M like R)
      (fun x r y r' => x.Like like y ∧ r.Mirror M like R r') (answering r)
      (answering r') := by
  unfold answering
  rw [Step.get_bind, Step.get_bind, h.bestScore]
  cases r'.bestScore with
  | some a => exact .ok ⟨result_mirror h hM a, h⟩
  | none =>
    refine Alike.bind (h.scoreNow hM) fun a r₁ r₁' h₁ => ?_
    exact .ok ⟨result_mirror h₁ hM a, h₁⟩

theorem conclude_mirror (hM : Workspace.Mirrors M ex like X ok R)
    (h : r.Mirror M like R r') :
    Ends ex (Run.Mirror M like R)
      (fun x r y r' => x.Like like y ∧ r.Mirror M like R r') (conclude r) (conclude r') := by
  have hnone : r.best.isNone = r'.best.isNone := by
    have hbest := h.best
    generalize r.best = b at hbest
    generalize r'.best = b' at hbest
    cases hbest <;> rfl
  rw [conclude_eq, conclude_eq, hnone]
  split
  · exact Alike.bind (h.updateBest hM) fun _ _ _ h₁ => answering_mirror hM h₁
  · exact answering_mirror hM h

end Solver

/-! ## Phases -/

namespace SearchPhase

omit [Workspace W S sh] [Workspace W' S sh]

/-- The phase does not tell plans that are alike from each other. -/
def Blind (like : S → S → Prop) : SearchPhase S V sh → Prop
  | construction p => p.Blind like
  | localSearch p => p.neighbourhood.tree.Blind like

theorem blind_eq (p : SearchPhase S V sh) : p.Blind fun p q => p = q := by
  cases p with
  | construction p => exact p.blind_eq
  | localSearch p => exact p.neighbourhood.tree.blind_eq

/-- The phase assigns to no variables but `X`, and does not tell plans that are alike from each
other. -/
structure Fit (X : Variable S V → Prop) (like : S → S → Prop) (p : SearchPhase S V sh) : Prop where
  assigns : p.Over X
  blind : p.Blind like

/-- One fitting phase on runs that mirror each other. -/
abbrev Beside (M : Mode → Mode → Prop) (X : Variable S V → Prop) (like : S → S → Prop)
    (R : W → W' → Prop) : SearchPhase S V sh × Run W S sh → SearchPhase S V sh × Run W' S sh → Prop :=
  Alongside (Fit X like) (Run.Mirror M like R)

/-- Both hear of an event. -/
theorem hear_mirror {p : SearchPhase S V sh} {a b : S} (hp : p.Fit X like) (hab : like a b)
    (h : r.Mirror M like R r') (e : Event) (score : Option (Score sh)) :
    Beside M X like R (p.hear e a score, r) (p.hear e b score, r') := by
  refine ⟨?_, ⟨hp.assigns.hear e a score, ?_⟩, h⟩
  · cases p with
    | construction p => rfl
    | localSearch p =>
      have hn := Neighbourhood.hear_congr hp.blind hab e
      show localSearch (p.hear e a score) = localSearch (p.hear e b score)
      unfold LocalSearch.hear
      rw [hn]
  · cases p with
    | construction p => exact Construction.Blind.hear hp.blind e
    | localSearch p => exact hp.blind

/-- What is known of a kind of phases is known of them as phases. -/
theorem wrap_mirror {A : Type} {f : A → SearchPhase S V sh}
    {J : A × Run W S sh → A × Run W' S sh → Prop}
    {Q : α → A × Run W S sh → α → A × Run W' S sh → Prop}
    {P : α → SearchPhase S V sh × Run W S sh → α → SearchPhase S V sh × Run W' S sh → Prop}
    {x : EStateM.Result Failure (A × Run W S sh) α} {y : EStateM.Result Failure (A × Run W' S sh) α}
    (h : Ends ex J Q x y) (hJ : ∀ s t, J s t → Beside M X like R (f s.1, s.2) (f t.1, t.2))
    (hQ : ∀ a s b t, Q a s b t → P a (f s.1, s.2) b (f t.1, t.2)) :
    Ends ex (Beside M X like R) P (wrap f x) (wrap f y) := by
  cases h with
  | ok h => exact .ok (hQ _ _ _ _ h)
  | error h => exact .error fun e he => ⟨(h e he).1, hJ _ _ (h e he).2⟩
  | left h => exact .left h _
  | right h => exact .right h _

end SearchPhase

variable [DecidableEq V] [ToString V]

namespace SearchPhase

/-- The moves that the phase makes on the run, from the first to the last. -/
def winners (fuel : Nat) (p : SearchPhase S V sh) (r : Run W S sh) : List (Option (Move S V)) :=
  match p with
  | construction p => p.phaseWinners r
  | localSearch p => (p.phaseSteps fuel r).map LocalSearch.StepMade.winner

theorem solve_mirror {p : SearchPhase S V sh} (hJ : Workspace.JudgesAlike M ex ok R)
    (hM : Workspace.Mirrors M ex like X ok R) (hp : p.Fit X like) (h : r.Mirror M like R r') :
    Ends ex (Beside M X like R)
      (fun x s y t => (x = y ∧ Beside M X like R s t) ∧ p.winners fuel r = p.winners fuel r')
      (solve fuel (p, r)) (solve fuel (p, r')) := by
  cases p with
  | construction p =>
    have hbeside : ∀ s t, Construction.Beside M X like R s t →
        Beside M X like R (construction s.1, s.2) (construction t.1, t.2) := fun _ _ h =>
      ⟨congrArg construction h.eq, ⟨h.assigns, h.blind⟩, h.run⟩
    exact wrap_mirror (Construction.solve_mirror hJ hM hp.assigns hp.blind h) hbeside
      fun _ _ _ _ h => ⟨⟨h.1.1, hbeside _ _ h.1.2⟩, h.2⟩
  | localSearch p =>
    have hbeside : ∀ s t, LocalSearch.Beside M p.threads p.threads X like R s t →
        Beside M X like R (localSearch s.1, s.2) (localSearch t.1, t.2) := fun _ _ h =>
      ⟨congrArg localSearch h.phase_eq, ⟨h.phase_eq ▸ h.assigns, h.phase_eq ▸ h.blind⟩, h.run⟩
    have hsolve := LocalSearch.solve_mirror hM (LocalSearch.gathersAlike hM hJ p.threads fuel)
      (.inl rfl) rfl rfl hp.assigns hp.blind h
    refine wrap_mirror hsolve hbeside fun x s y t ⟨hx, hst, hsteps⟩ => ⟨⟨hx, hbeside _ _ hst⟩, ?_⟩
    have hwinners : List.Forall₂ (fun x y => LocalSearch.StepMade.winner x = y.winner)
        (p.phaseSteps fuel r) (p.phaseSteps fuel r') := hsteps.imp fun _ _ h => h.winner
    exact List.forall₂_eq_eq_eq ▸ List.forall₂_map_left_iff.2 (List.forall₂_map_right_iff.2 hwinners)

end SearchPhase

/-! ## Solvers -/

namespace Solver

section

variable [SolvingPhase P (Run W S sh)]

/-- What a solve does before its first phase works. -/
def opening : Action (List P × Run W S sh) Unit := do
  if (← get).1.isEmpty then throw (.error (.configuration "solver has no phases"))
  forEachPhase checkPhase
  modify fun (ps, r) => (ps, r.start)
  announce .solvingStarted
  forEachPhase SolvingPhase.solvingStarted

/-- What a solve does after its phases, the failure of one of which is at hand. -/
def closing (failure : Option SolverError) : Action (List P × Run W S sh) (Solved S sh) := do
  forEachPhaseBackward SolvingPhase.solvingEnded
  announce .solvingEnded
  match failure with
  | some e => throw (.error e)
  | none => Action.onPart (·.2) (fun r s => (s.1, r)) conclude

theorem work_eq (fuel : Nat) (s : List P × Run W S sh) :
    work fuel s =
      (opening >>= fun _ => attempt (forEachPhase (solvePhase fuel)) >>= closing) s := by
  unfold work opening closing
  simp only [bind_assoc]
  rw [Step.get_bind, Step.get_bind]
  split
  · rfl
  · refine Eq.trans ?_ (congrFun (bind_assoc (forEachPhase checkPhase) _ _).symm s)
    rfl

end

/-- The moves that a phase makes when its turn comes. -/
def turn (fuel : Nat) (p : SearchPhase S V sh) (r : Run W S sh) : List (Option (Move S V)) :=
  if r.isTerminated then [] else p.winners fuel r

/-- The moves that the steps of each phase make, from the first to the last. -/
def winners (fuel : Nat) (solver : Solver (SearchPhase S V sh) S sh) (w : W) :
    List (List (Option (Move S V))) :=
  match opening (solver.phases, solver.newRun w) with
  | .ok _ s => atEach (solvePhase fuel) (turn fuel) s.1 s.2
  | .error _ _ => []

variable {solver solver' : Solver (SearchPhase S V sh) S sh} {ps : List (SearchPhase S V sh)}

/-- The same fitting phases on runs that mirror each other. -/
abbrev Beside (M : Mode → Mode → Prop) (X : Variable S V → Prop) (like : S → S → Prop)
    (R : W → W' → Prop) :
    List (SearchPhase S V sh) × Run W S sh → List (SearchPhase S V sh) × Run W' S sh → Prop :=
  AllAlongside (SearchPhase.Fit X like) (Run.Mirror M like R)

theorem solvePhase_mirror {p : SearchPhase S V sh} (hJ : Workspace.JudgesAlike M ex ok R)
    (hM : Workspace.Mirrors M ex like X ok R) (hp : p.Fit X like) (h : r.Mirror M like R r') :
    Ends ex (SearchPhase.Beside M X like R)
      (fun _ s _ t => SearchPhase.Beside M X like R s t ∧ turn fuel p r = turn fuel p r')
      (solvePhase fuel (p, r)) (solvePhase fuel (p, r')) := by
  unfold solvePhase turn
  rw [Step.get_bind, Step.get_bind]
  dsimp only
  rw [h.isTerminated]
  cases r'.isTerminated with
  | true => exact .ok ⟨⟨rfl, hp, h⟩, rfl⟩
  | false =>
    refine (SearchPhase.solve_mirror hJ hM hp h).bind fun _ s _ t ⟨⟨_, h₁⟩, hwinners⟩ => ?_
    exact .ok ⟨h₁, hwinners⟩

theorem validate_mirror {p : SearchPhase S V sh} (hp : p.Fit X like) (h : r.Mirror M like R r') :
    Alike ex (SearchPhase.Beside M X like R) (SolvingPhase.validate (p, r))
      (SolvingPhase.validate (p, r')) := by
  cases hvalid : p.validate with
  | ok =>
    rw [p.validate_ok hvalid, p.validate_ok hvalid]
    exact .ok ⟨rfl, rfl, hp, h⟩
  | error e =>
    rw [p.validate_failed hvalid, p.validate_failed hvalid]
    exact .reported (p.validate_error hvalid) ⟨rfl, hp, h⟩

theorem checkPhase_mirror {p : SearchPhase S V sh} (hp : p.Fit X like) (h : r.Mirror M like R r') :
    Alike ex (SearchPhase.Beside M X like R) (checkPhase (p, r)) (checkPhase (p, r')) := by
  unfold checkPhase
  refine Alike.bind (validate_mirror hp h) fun _ s t hst => ?_
  obtain ⟨p, r⟩ := s
  obtain ⟨p', r'⟩ := t
  obtain ⟨rfl, hp, h⟩ : SearchPhase.Beside M X like R (p, r) (p', r') := hst
  rw [Step.get_bind, Step.get_bind]
  dsimp only
  rw [show r.termination = r'.termination from congrArg Run.termination h.rest]
  split
  · refine Ends.bind (Q := fun b s b' t => (b = b' ∧ s = (p, r)) ∧ t = (p, r')) (.ok ⟨⟨rfl, rfl⟩, rfl⟩)
      fun b s b' t ⟨⟨hb, hs⟩, ht⟩ => ?_
    subst hb hs ht
    split
    · exact .reported rfl ⟨rfl, hp, h⟩
    · exact .ok ⟨rfl, rfl, hp, h⟩
  · exact .ok ⟨rfl, rfl, hp, h⟩

theorem opening_mirror (hM : Workspace.Mirrors M ex like X ok R) (hps : ∀ p ∈ ps, p.Fit X like)
    (h : r.Mirror M like R r') :
    Alike ex (Beside M X like R) (opening (ps, r)) (opening (ps, r')) := by
  unfold opening
  rw [Step.get_bind, Step.get_bind]
  dsimp only
  split
  · exact .reported rfl ⟨rfl, hps, h⟩
  refine Alike.bind (forEachPhase_alike (fun _ _ _ => checkPhase_mirror) hps h) fun _ s t hst => ?_
  obtain ⟨ps, r⟩ := s
  obtain ⟨ps', r'⟩ := t
  obtain ⟨rfl, hps, h⟩ : Beside M X like R (ps, r) (ps', r') := hst
  rw [Step.modify_bind, Step.modify_bind]
  unfold announce
  rw [Step.modify_bind, Step.modify_bind]
  refine forEachPhase_alike (fun p r r' hp h => ?_) hps (announce_mirror h.start hM .solvingStarted)
  exact .ok ⟨rfl, SearchPhase.hear_mirror hp (h.plan hM) h _ _⟩

theorem solvePhases_mirror (hJ : Workspace.JudgesAlike M ex ok R)
    (hM : Workspace.Mirrors M ex like X ok R) (hps : ∀ p ∈ ps, p.Fit X like)
    (h : r.Mirror M like R r') :
    Ends ex (Beside M X like R)
      (fun _ s _ t => Beside M X like R s t ∧
        atEach (solvePhase fuel) (turn fuel) ps r = atEach (solvePhase fuel) (turn fuel) ps r')
      (forEachPhase (solvePhase fuel) (ps, r)) (forEachPhase (solvePhase fuel) (ps, r')) :=
  forEachPhase_mirror (fun _ _ _ => solvePhase_mirror hJ hM) hps h

theorem closing_mirror (hM : Workspace.Mirrors M ex like X ok R) (hps : ∀ p ∈ ps, p.Fit X like)
    (h : r.Mirror M like R r') {failure : Option SolverError}
    (hfailure : ∀ e, failure = some e → e.isCorruption = false) :
    Ends ex (Beside M X like R)
      (fun x s y t => failure = none ∧ x.Like like y ∧ Beside M X like R s t)
      (closing failure (ps, r)) (closing failure (ps, r')) := by
  unfold closing
  refine Alike.bind (forEachPhaseBackward_alike (fun p r r' hp h => ?_) hps h) fun _ s t hst => ?_
  · refine .ok ⟨rfl, ?_⟩
    dsimp only
    rw [h.bestScore]
    exact SearchPhase.hear_mirror hp (h.plan hM) h _ _
  obtain ⟨ps, r⟩ := s
  obtain ⟨ps', r'⟩ := t
  obtain ⟨rfl, hps, h⟩ : Beside M X like R (ps, r) (ps', r') := hst
  unfold announce
  rw [Step.modify_bind, Step.modify_bind]
  have h₁ := announce_mirror h hM .solvingEnded
  cases failure with
  | some e => exact .reported (hfailure e rfl) ⟨rfl, hps, h₁⟩
  | none =>
    exact Ends.onPart (conclude_mirror hM h₁) (fun _ _ h => ⟨rfl, hps, h⟩) fun _ _ _ _ ⟨hx, h⟩ =>
      ⟨rfl, hx, rfl, hps, h⟩

/-- The solves end alike, with answers that are alike, and so do the steps of all phases. -/
theorem solve_like (hJ : Workspace.JudgesAlike M ex ok R)
    (hM : Workspace.Mirrors M ex like X ok R) (hsolver : solver = { solver' with mode := solver.mode })
    (hmode : M solver.mode solver'.mode) (hps : ∀ p ∈ solver'.phases, p.Fit X like)
    (hblind : ∀ l ∈ solver'.listeners, l.Blind like) {w : W} {v : W'} (h : R w v) :
    Ends ex (Beside M X like R)
      (fun x s y t => (x.Like like y ∧ Beside M X like R s t) ∧
        solver.winners fuel w = solver'.winners fuel v)
      (solver.solve fuel w) (solver'.solve fuel v) := by
  have hphases : solver.phases = solver'.phases := by rw [hsolver]
  have hrun : (solver.newRun w).Mirror M like R (solver'.newRun v) :=
    ⟨congrArg (fun s : Solver (SearchPhase S V sh) S sh => s.newRun w) hsolver, hmode, h, .none, .nil,
      hblind⟩
  unfold solve winners
  rw [work_eq, work_eq, hphases]
  refine (opening_mirror hM hps hrun).with_results.bind fun _ s _ t ⟨⟨hs, ht⟩, _, hst⟩ => ?_
  rw [hs, ht]
  obtain ⟨ps, r⟩ := s
  obtain ⟨ps', r'⟩ := t
  obtain ⟨rfl, hps, h⟩ : Beside M X like R (ps, r) (ps', r') := hst
  refine (attempt_mirror (solvePhases_mirror hJ hM hps h) fun _ _ hst => hst.1).bind
    fun failure s _ t ⟨⟨hf, hst⟩, hsound, hwinners⟩ => ?_
  subst hf
  obtain ⟨ps₁, r₁⟩ := s
  obtain ⟨ps₁', r₁'⟩ := t
  obtain ⟨rfl, hps₁, h₁⟩ : Beside M X like R (ps₁, r₁) (ps₁', r₁') := hst
  exact (closing_mirror hM hps₁ h₁ hsound).mono fun _ _ _ _ ⟨hnone, hx⟩ => ⟨hx, (hwinners hnone).2⟩

/-- One solver ends alike on workspaces that hold the same plans. -/
theorem solve_mirror (hJ : Workspace.JudgesAlike (· = ·) ex ok R)
    (hM : Workspace.Mirrors (· = ·) ex (fun p q => p = q) X ok R)
    (hX : ∀ p ∈ solver.phases, p.Over X) {w : W} {v : W'} (h : R w v) :
    Ends ex (fun s t => s.1 = t.1 ∧ s.2.Mirror (· = ·) (fun p q => p = q) R t.2)
      (fun x s y t => (x.Alike y ∧ s.1 = t.1 ∧
        s.2.Mirror (· = ·) (fun p q => p = q) R t.2) ∧
        solver.winners fuel w = solver.winners fuel v)
      (solver.solve fuel w) (solver.solve fuel v) :=
  (solve_like hJ hM rfl rfl (fun p hp => ⟨hX p hp, p.blind_eq⟩) (fun l _ => l.blind_eq) h).imp
    (fun _ _ h => ⟨h.eq, h.run⟩)
    fun _ _ _ _ h => ⟨⟨⟨h.1.1.plan, h.1.1.score, h.1.1.stats⟩, h.1.2.eq, h.1.2.run⟩, h.2⟩

end Solver

end PlanSearch
