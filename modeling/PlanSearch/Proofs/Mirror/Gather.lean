import PlanSearch.Proofs.Mirror.Search

/-!
# Gathering alike

Searches that mirror each other draw the same candidates. If their workspaces agree on which of them
can be applied and on what they lead to, the searches gather the same ones, be it one by one or in
batches, as long as both go about it in the same way.

    JudgesAlike … → s mirrors t → gather … s and gather … t end alike    (gathersAlike)
-/

namespace PlanSearch

variable {S V W W' α β : Type} {sh : Shape} {M : Mode → Mode → Prop}

/-! ## Computations without a state -/

/-- Two computations have the same answer, within `P`, or the same failure, which is not a reported
error, unless one of them is excused. -/
inductive Excuse.Same (ex : Excuse) (P : α → Prop) : Except Failure α → Except Failure α → Prop
  | ok {a : α} (h : P a) : Same ex P (.ok a) (.ok a)
  | error {f : Failure} (h : ∀ e, f ≠ .error e) : Same ex P (.error f) (.error f)
  | left {f : Failure} (h : ex.left f) (y : Except Failure α) : Same ex P (.error f) y
  | right {f : Failure} (h : ex.right f) (x : Except Failure α) : Same ex P x (.error f)

namespace Excuse.Same

variable {ex : Excuse} {P : α → Prop} {Q : β → Prop} {x y : Except Failure α}

theorem bind {f g : α → Except Failure β} (h : ex.Same P x y)
    (hf : ∀ a, P a → ex.Same Q (f a) (g a)) : ex.Same Q (x >>= f) (y >>= g) := by
  cases h with
  | ok h => exact hf _ h
  | error h => exact .error h
  | left h => exact .left h _
  | right h => exact .right h _

theorem map (h : ex.Same P x y) {f : α → β} (hf : ∀ a, P a → Q (f a)) :
    ex.Same Q (f <$> x) (f <$> y) := by
  cases h with
  | ok h => exact .ok (hf _ h)
  | error h => exact .error h
  | left h => exact .left h _
  | right h => exact .right h _

theorem mapM {f g : β → Except Failure α} {l : List β} (h : ∀ b ∈ l, ex.Same P (f b) (g b)) :
    ex.Same (fun as => ∀ a ∈ as, P a) (l.mapM f) (l.mapM g) := by
  induction l with
  | nil => exact .ok (List.forall_mem_nil _)
  | cons b l ih =>
    obtain ⟨hb, hl⟩ := List.forall_mem_cons.1 h
    rw [List.mapM_cons, List.mapM_cons]
    refine hb.bind fun a ha => (ih hl).bind fun as has => ?_
    exact .ok (List.forall_mem_cons.2 ⟨ha, has⟩)

/-- The answer within a computation on states. -/
theorem ofExcept {σ τ : Type} {I J : σ → τ → Prop} {s : σ} {t : τ} (h : ex.Same P x y)
    (hI : I s t) :
    Ends ex J (fun a s b t => (a = b ∧ I s t) ∧ P a) ((ofExcept x : Action σ α) s)
      ((ofExcept y : Action τ α) t) := by
  cases h with
  | ok h => exact .ok ⟨⟨rfl, hI⟩, h⟩
  | error h => exact .unreported h s t
  | left h => exact .left h _
  | right h => exact .right h _

end Excuse.Same

/-- None of the answers is a broken promise of the scores. -/
def Sound (answers : List (Except SolverError (Score sh))) : Prop :=
  ∀ e, .error e ∈ answers → e.isCorruption = false

/-! ## Draws -/

section

variable {X : Variable S V → Prop} {like : S → S → Prop} {ex : Excuse} {ok : Slot S V → Prop}
  {R : W → W' → Prop} {threads threads' : Option Nat}

namespace LocalSearch

namespace Mirrored

variable [Plan S sh] {s : Searching W S V sh} {t : Searching W' S V sh}

theorem mayDraw (h : Mirrored M threads threads' X like R s t) (d : Draws) :
    s.1.mayDraw d = t.1.mayDraw d := by
  rw [h.phase.rest]
  rfl

theorem record (h : Mirrored M threads threads' X like R s t) (f : Stats → Stats) :
    Mirrored M threads threads' X like R (s.1, s.2.mapRun (Run.record f))
      (t.1, t.2.mapRun (Run.record f)) :=
  ⟨h.phase, h.scope.mapRun (h.scope.run.record f)⟩

theorem considered (h : Mirrored M threads threads' X like R s t) (last : Score sh) (m : Move S V)
    (a : Score sh) :
    Mirrored M threads threads' X like R (considered last m a s) (considered last m a t) := by
  have hacc : s.1.acceptance.accepts last a = t.1.acceptance.accepts last a := by
    rw [h.phase.rest]
  unfold LocalSearch.considered
  dsimp only
  rw [hacc]
  refine ⟨?_, (h.record _).scope⟩
  split
  · exact h.phase.keep m a
  · exact h.phase

variable [Workspace W S sh] [Workspace W' S sh]

theorem next_eq (h : Mirrored M threads threads' X like R s t)
    (hM : Workspace.Mirrors M ex like X ok R) :
    s.1.neighbourhood.next s.2.run.plan s.2.run.source =
      t.1.neighbourhood.next t.2.run.plan t.2.run.source := by
  have hn : s.1.neighbourhood = t.1.neighbourhood := by rw [h.phase.rest]
  rw [hn, h.scope.run.source]
  exact Neighbourhood.next_congr h.phase.blind (h.scope.run.plan hM) _

theorem drawn (h : Mirrored M threads threads' X like R s t)
    (hM : Workspace.Mirrors M ex like X ok R) :
    Mirrored M threads threads' X like R (drawn s) (drawn t) := by
  unfold LocalSearch.drawn
  rw [h.next_eq hM]
  exact ⟨h.phase.setNeighbourhood rfl, h.scope.span, h.scope.run.setSource _⟩

end Mirrored

/-- The searches are in the middle of collecting the same candidates. -/
structure Abreast [Plan S sh] (M : Mode → Mode → Prop) (threads threads' : Option Nat)
    (X : Variable S V → Prop) (like : S → S → Prop) (ok : Slot S V → Prop) (R : W → W' → Prop)
    (s : Searching W S V sh) (t : Searching W' S V sh) : Prop where
  mirrored : Mirrored M threads threads' X like R s t
  within : t.1.neighbourhood.Within ok
  stored : ∀ i m, t.1.arena.get? i = some m → m.Within ok

/-- Twins that are collecting end alike, and are still abreast if they have an answer. -/
abbrev Collects [Plan S sh] (M : Mode → Mode → Prop) (ex : Excuse) (threads threads' : Option Nat)
    (X : Variable S V → Prop) (like : S → S → Prop) (ok : Slot S V → Prop) (R : W → W' → Prop)
    (P : α → Prop) :
    EStateM.Result Failure (Searching W S V sh) α →
      EStateM.Result Failure (Searching W' S V sh) α → Prop :=
  Ends ex (Mirrored M threads threads' X like R) fun a s b t =>
    (a = b ∧ Abreast M threads threads' X like ok R s t) ∧ P a

namespace Abreast

variable [Plan S sh] {s : Searching W S V sh} {t : Searching W' S V sh}

theorem record (h : Abreast M threads threads' X like ok R s t) (f : Stats → Stats) :
    Abreast M threads threads' X like ok R (s.1, s.2.mapRun (Run.record f))
      (t.1, t.2.mapRun (Run.record f)) :=
  ⟨h.mirrored.record f, h.within, h.stored⟩

theorem considered (h : Abreast M threads threads' X like ok R s t) {m : Move S V} (hm : m.Within ok)
    (last a : Score sh) :
    Abreast M threads threads' X like ok R (considered last m a s) (considered last m a t) := by
  refine ⟨h.mirrored.considered last m a, ?_, ?_⟩
  · unfold LocalSearch.considered
    dsimp only
    split <;> exact h.within
  · unfold LocalSearch.considered
    dsimp only
    split
    · intro i m' hi
      rcases Arena.get?_push hi with rfl | hi
      · exact hm
      · exact h.stored i m' hi
    · exact h.stored

theorem consider (h : Abreast M threads threads' X like ok R s t) {m : Move S V} (hm : m.Within ok)
    (last a : Score sh) (d : Draws) :
    Collects M ex threads threads' X like ok R (fun _ => True) (consider last m a d s)
      (consider last m a d t) := by
  have hacc : s.1.acceptance.accepts last a = t.1.acceptance.accepts last a := by
    rw [h.mirrored.phase.rest]
  rw [consider_eq, consider_eq]
  unfold judged
  rw [hacc]
  exact .ok ⟨⟨rfl, h.considered hm last a⟩, trivial⟩

theorem isDone (h : Abreast M threads threads' X like ok R s t) :
    s.1.forager.isDone = t.1.forager.isDone := by
  rw [h.mirrored.phase.forager]

theorem considerEach (h : Abreast M threads threads' X like ok R s t)
    {qs : List (Move S V × Except SolverError (Score sh))} (hqs : ∀ q ∈ qs, q.1.Within ok)
    (hsound : Sound (qs.map Prod.snd)) :
    Collects M ex threads threads' X like ok R (fun _ => True) (considerEach last qs d s)
      (considerEach last qs d t) := by
  induction qs generalizing d s t with
  | nil => exact .ok ⟨⟨rfl, h⟩, trivial⟩
  | cons q qs ih =>
    obtain ⟨hq, hrest⟩ := List.forall_mem_cons.1 hqs
    obtain ⟨m, e | a⟩ := q
    · exact .reported (hsound e List.mem_cons_self) h.mirrored
    · rw [LocalSearch.considerEach, LocalSearch.considerEach]
      refine Ends.bind (h.consider hq last a _) fun d s₁ d' t₁ hends => ?_
      obtain ⟨⟨hd, h₁⟩, -⟩ := hends
      subst hd
      rw [Step.get_bind, Step.get_bind, h₁.isDone]
      split
      · exact .ok ⟨⟨rfl, h₁⟩, trivial⟩
      · exact ih h₁ hrest fun e he => hsound e (List.mem_cons_of_mem _ he)

variable [Workspace W S sh] [Workspace W' S sh]

theorem nextMove_eq (h : Abreast M threads threads' X like ok R s t)
    (hM : Workspace.Mirrors M ex like X ok R) : nextMove s = nextMove t :=
  congrArg Prod.fst (h.mirrored.next_eq hM)

theorem drawn (h : Abreast M threads threads' X like ok R s t)
    (hM : Workspace.Mirrors M ex like X ok R) :
    Abreast M threads threads' X like ok R (drawn s) (drawn t) ∧
      ∀ m, nextMove s = some m → m.Within ok := by
  obtain ⟨hwithin, hm⟩ := h.within.next h.mirrored.phase.assigns
    (hM.movable h.mirrored.scope.run.workspace) t.2.run.source
  have hnext := Neighbourhood.next_congr h.mirrored.phase.blind (h.mirrored.scope.run.plan hM)
    t.2.run.source
  change t.1.neighbourhood.next (Workspace.plan s.2.run.workspace) t.2.run.source = _ at hnext
  rw [hnext] at hwithin hm
  rw [← h.mirrored.next_eq hM] at hm
  exact ⟨⟨h.mirrored.drawn hM, hwithin, h.stored⟩, hm⟩

theorem draw (h : Abreast M threads threads' X like ok R s t)
    (hM : Workspace.Mirrors M ex like X ok R) :
    Collects M ex threads threads' X like ok R (fun m => ∀ x, m = some x → x.Within ok) (draw s)
      (draw t) :=
  have hdrawn := h.drawn hM
  .ok ⟨⟨h.nextMove_eq hM, hdrawn.1⟩, hdrawn.2⟩

end Abreast

end LocalSearch

end

/-! ## Candidates -/

variable [Plan S sh] [Workspace W S sh] [Workspace W' S sh] [DecidableEq V] [ToString V]

/-- Related workspaces agree on candidates, in modes that are related. -/
structure Workspace.JudgesAlike (M : Mode → Mode → Prop) (ex : Excuse) (ok : Slot S V → Prop)
    (R : W → W' → Prop) : Prop where
  doable : ∀ {w v} {m : Move S V}, R w v → m.Within ok → m.isDoable (plan w) = m.isDoable (plan v)
  score : ∀ {w v} {m : Move S V} {μ μ' : Mode}, M μ μ' → R w v → m.Within ok →
    Alike ex R (scoreCandidate μ m w) (scoreCandidate μ' m v)

variable {X : Variable S V → Prop} {like : S → S → Prop} {ex : Excuse} {ok : Slot S V → Prop}
  {R : W → W' → Prop}

theorem scoreEach_same (hJ : Workspace.JudgesAlike M ex ok R) {w : W} {v : W'} (h : R w v)
    {μ μ' : Mode} (hmode : M μ μ') {ms : List (Move S V)} (hms : ∀ m ∈ ms, m.Within ok) :
    ex.Same Sound (scoreEach μ ms w) (scoreEach μ' ms v) := by
  induction ms generalizing w v with
  | nil => exact .ok fun _ he => absurd he List.not_mem_nil
  | cons m ms ih =>
    obtain ⟨hm, hrest⟩ := List.forall_mem_cons.1 hms
    have hscore := hJ.score hmode h hm
    unfold scoreEach
    generalize scoreCandidate μ m w = x at hscore ⊢
    generalize scoreCandidate μ' m v = y at hscore ⊢
    cases hscore with
    | ok h =>
      obtain ⟨rfl, hR⟩ := h
      refine (ih hR hrest).map fun as has e he => has e ?_
      rcases List.mem_cons.1 he with he | he
      · cases he
      · exact he
    | @error f w' v' h =>
      cases f with
      | error e =>
        obtain ⟨he, hR⟩ := h e rfl
        refine (ih hR hrest).map fun as has e' he' => ?_
        rcases List.mem_cons.1 he' with he' | he'
        · cases he'
          exact he
        · exact has e' he'
      | fault f => exact .error fun _ he => absurd he (Failure.fault_ne_error f _)
      | outOfFuel => exact .error fun _ he => absurd he (Failure.outOfFuel_ne_error _)
    | @left f w' h =>
      cases f with
      | error e => exact absurd h (ex.left_error e)
      | fault f => exact .left h _
      | outOfFuel => exact .left h _
    | @right f v' h =>
      cases f with
      | error e => exact absurd h (ex.right_error e)
      | fault f => exact .right h _
      | outOfFuel => exact .right h _

theorem scoreBatch_same (hJ : Workspace.JudgesAlike M ex ok R) {w : W} {v : W'} (h : R w v)
    {μ μ' : Mode} (hmode : M μ μ') (threads : Nat) {ms : List (Move S V)}
    (hms : ∀ m ∈ ms, m.Within ok) :
    ex.Same Sound (scoreBatch μ threads ms w) (scoreBatch μ' threads ms v) := by
  unfold scoreBatch
  refine Excuse.Same.bind (Excuse.Same.mapM fun run hrun =>
    scoreEach_same hJ h hmode fun m hm => hms m (mem_of_mem_runsOf hrun hm)) fun answers hall => ?_
  refine .ok fun e he => ?_
  obtain ⟨run, hrun, he⟩ := List.mem_flatten.1 he
  exact hall run hrun e he

/-! ## Collecting -/

namespace LocalSearch

variable {threads threads' : Option Nat} {last : Score sh} {s : Searching W S V sh}
  {t : Searching W' S V sh} {d : Draws}

namespace Abreast

theorem isDoable (h : Abreast M threads threads' X like ok R s t)
    (hJ : Workspace.JudgesAlike M ex ok R) {m : Move S V} (hm : m.Within ok) :
    Collects M ex threads threads' X like ok R (fun _ => True) (isDoable m s) (isDoable m t) :=
  .ok ⟨⟨hJ.doable h.mirrored.scope.run.workspace hm, h⟩, trivial⟩

theorem scoreCandidate (h : Abreast M threads threads' X like ok R s t)
    (hJ : Workspace.JudgesAlike M ex ok R) {m : Move S V} (hm : m.Within ok) {μ μ' : Mode}
    (hmode : M μ μ') :
    Collects M ex threads threads' X like ok R (fun _ => True)
      (onScope (Scope.onRun (Run.onWorkspace (scoreCandidate μ m))) s)
      (onScope (Scope.onRun (Run.onWorkspace (scoreCandidate μ' m))) t) := by
  have hscore := h.mirrored.onRun (h.mirrored.scope.run.onWorkspace
    (hJ.score hmode h.mirrored.scope.run.workspace hm))
  refine hscore.with_results.mono fun a s₁ b t₁ ⟨⟨_, ht⟩, hab, hI⟩ => ⟨⟨hab, ?_⟩, trivial⟩
  obtain ⟨r, -, rfl⟩ := onRun_eq_ok ht
  exact ⟨hI, h.within, h.stored⟩

/-- Scoring candidates one by one. -/
theorem collect {fuel : Nat} (h : Abreast M threads threads' X like ok R s t)
    (hM : Workspace.Mirrors M ex like X ok R) (hJ : Workspace.JudgesAlike M ex ok R) :
    Collects M ex threads threads' X like ok R (fun _ => True) (collect last fuel d s)
      (collect last fuel d t) := by
  induction fuel generalizing d s t with
  | zero => exact .outOfFuel s t
  | succ fuel ih =>
    rw [LocalSearch.collect, LocalSearch.collect, Step.get_bind, Step.get_bind, h.mirrored.mayDraw d]
    split
    · exact .ok ⟨⟨rfl, h⟩, trivial⟩
    refine Ends.bind (h.draw hM) fun m s₁ m' t₁ hdraw => ?_
    obtain ⟨⟨hmm, h₁⟩, hm⟩ := hdraw
    subst hmm
    cases m with
    | none => exact .ok ⟨⟨rfl, h₁⟩, trivial⟩
    | some m =>
      have hm := hm m rfl
      dsimp only
      refine Ends.bind (h₁.isDoable hJ hm) fun b s₂ b' t₂ hdoable => ?_
      obtain ⟨⟨hb, h₂⟩, -⟩ := hdoable
      subst hb
      split
      · rw [record_bind, record_bind]
        exact ih (h₂.record _)
      · rw [Step.get_bind, Step.get_bind]
        refine Ends.bind (h₂.scoreCandidate hJ hm h₂.mirrored.scope.run.mode)
          fun a s₃ a' t₃ hscore => ?_
        obtain ⟨⟨ha, h₃⟩, -⟩ := hscore
        subst ha
        refine Ends.bind (h₃.consider hm last a _) fun d s₄ d' t₄ hends => ?_
        obtain ⟨⟨hd, h₄⟩, -⟩ := hends
        subst hd
        rw [Step.get_bind, Step.get_bind, h₄.isDone]
        split
        · exact .ok ⟨⟨rfl, h₄⟩, trivial⟩
        · exact ih h₄

/-! ## Collecting in batches -/

/-- The candidates of a batch, and what a batch says of them. -/
theorem drawBatch {fuel k : Nat} (h : Abreast M threads threads' X like ok R s t)
    (hM : Workspace.Mirrors M ex like X ok R) (hJ : Workspace.JudgesAlike M ex ok R) :
    Collects M ex threads threads' X like ok R (fun x => ∀ m ∈ x.1, m.Within ok)
      (drawBatch fuel k d s) (drawBatch fuel k d t) := by
  induction fuel generalizing k d s t with
  | zero => exact .outOfFuel s t
  | succ fuel ih =>
    cases k with
    | zero => exact .ok ⟨⟨rfl, h⟩, List.forall_mem_nil _⟩
    | succ k =>
      rw [LocalSearch.drawBatch, LocalSearch.drawBatch, Step.get_bind, Step.get_bind,
        h.mirrored.mayDraw d]
      split
      · exact .ok ⟨⟨rfl, h⟩, List.forall_mem_nil _⟩
      refine Ends.bind (h.draw hM) fun m s₁ m' t₁ hdraw => ?_
      obtain ⟨⟨hmm, h₁⟩, hm⟩ := hdraw
      subst hmm
      cases m with
      | none => exact .ok ⟨⟨rfl, h₁⟩, List.forall_mem_nil _⟩
      | some m =>
        have hm := hm m rfl
        dsimp only
        refine Ends.bind (h₁.isDoable hJ hm) fun b s₂ b' t₂ hdoable => ?_
        obtain ⟨⟨hb, h₂⟩, -⟩ := hdoable
        subst hb
        split
        · refine Ends.bind (ih h₂) fun x s₃ x' t₃ hbatch => ?_
          obtain ⟨⟨hx, h₃⟩, hall⟩ := hbatch
          subst hx
          exact .ok ⟨⟨rfl, h₃⟩, List.forall_mem_cons.2 ⟨hm, hall⟩⟩
        · rw [record_bind, record_bind]
          exact ih (h₂.record _)

theorem collectBatches {workers size fuel : Nat} (h : Abreast M threads threads' X like ok R s t)
    (hM : Workspace.Mirrors M ex like X ok R) (hJ : Workspace.JudgesAlike M ex ok R) :
    Collects M ex threads threads' X like ok R (fun _ => True)
      (collectBatches workers size last fuel d s) (collectBatches workers size last fuel d t) := by
  induction fuel generalizing d s t with
  | zero => exact .outOfFuel s t
  | succ fuel ih =>
    rw [LocalSearch.collectBatches, LocalSearch.collectBatches, Step.get_bind, Step.get_bind,
      h.mirrored.mayDraw d]
    split
    · exact .ok ⟨⟨rfl, h⟩, trivial⟩
    refine Ends.bind (h.drawBatch hM hJ) fun x s₁ x' t₁ hbatch => ?_
    obtain ⟨⟨hx, h₁⟩, hms⟩ := hbatch
    subst hx
    obtain ⟨ms, d₁, dry⟩ := x
    dsimp only
    rw [Step.get_bind, Step.get_bind]
    have hscores := scoreBatch_same hJ h₁.mirrored.scope.run.workspace h₁.mirrored.scope.run.mode
      workers hms
    refine Ends.bind (hscores.ofExcept h₁) fun answers s₂ answers' t₂ hanswers => ?_
    obtain ⟨⟨hans, h₂⟩, hsound⟩ := hanswers
    subst hans
    have hzip : Sound ((ms.zip answers).map Prod.snd) := fun e he => by
      obtain ⟨q, hq, hqe⟩ := List.mem_map.1 he
      exact hsound e (hqe ▸ (List.of_mem_zip hq).2)
    refine Ends.bind (h₂.considerEach (fun q hq => hms q.1 (List.of_mem_zip hq).1) hzip)
      fun x s₃ x' t₃ hends => ?_
    obtain ⟨⟨hx, h₃⟩, -⟩ := hends
    subst hx
    split
    · exact .ok ⟨⟨rfl, h₃⟩, trivial⟩
    · exact ih h₃

end Abreast

/-- Twins with as many workers gather the same candidates. -/
theorem gathersAlike (hM : Workspace.Mirrors M ex like X ok R) (hJ : Workspace.JudgesAlike M ex ok R)
    (threads : Option Nat) (fuel : Nat) :
    GathersAlike ex (Mirrored M threads threads X like R) ok (fun _ _ _ _ _ => True) fuel fuel := by
  intro last s t h hwithin harena
  have habreast : Abreast M threads threads X like ok R s t := by
    refine ⟨h, hwithin, fun i m hm => ?_⟩
    rw [harena, Arena.get?_empty] at hm
    cases hm
  have hthreads : s.1.threads = threads := by rw [h.phase.rest]
  unfold gather
  rw [hthreads, h.phase.threads, h.phase.forager]
  cases threads with
  | none =>
    exact (habreast.collect hM hJ).mono fun _ g _ g' hg => ⟨hg.1.2.mirrored, hg.1.2.stored, trivial⟩
  | some n =>
    exact (habreast.collectBatches hM hJ).mono fun _ g _ g' hg =>
      ⟨hg.1.2.mirrored, hg.1.2.stored, trivial⟩

end LocalSearch

end PlanSearch
