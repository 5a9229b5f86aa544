import PlanSearch.Proofs.Lifecycle.Phase

/-!
# Errors of phases at work

Once a phase is at work, the only errors that it can report are broken promises of the scores: that
the incremental score is not the score from scratch, or that taking a move back does not bring the
score back. All else that may end it early is a fault of the arithmetic or of the problem's own
functions, or a bound on its rounds.

    Steadfast I x → (∀ a, Steadfast I (f a)) → Steadfast I (x >>= f)            (Steadfast.bind)
    Steadfast AnyState (work fuel)                              (LocalSearch.steadfast_work)
    Steadfast (InPhase (Has n)) work                           (Construction.steadfast_work)
-/

namespace PlanSearch

variable {σ τ α β P S V W : Type} {sh : Shape}

/-- If the failure is a reported error, that is a broken promise of the scores. -/
def Failure.Corrupts (f : Failure) : Prop := ∀ e, f = .error e → e.isCorruption

/-- From the states within `I` the action leads to states within `I`, and the only errors that it
reports are broken promises of the scores. -/
def Steadfast (I : σ → Prop) (x : Action σ α) : Prop :=
  ∀ s, I s → Finishes (fun _ t => I t) (fun f _ => f.Corrupts) (x s)

namespace Steadfast

variable {I : σ → Prop} {x : Action σ α}

theorem pure (a : α) : Steadfast I (pure a : Action σ α) := fun _ hs => .ok hs

theorem throw {f : Failure} (h : f.Corrupts) : Steadfast I (throw f : Action σ α) := fun _ _ =>
  .error h

theorem outOfFuel : Steadfast I (MonadExcept.throw .outOfFuel : Action σ α) := throw nofun

theorem get : Steadfast I (get : Action σ σ) := fun _ hs => .ok hs

theorem modify {f : σ → σ} (h : ∀ s, I s → I (f s)) : Steadfast I (modify f : Action σ PUnit) :=
  fun s hs => .ok (h s hs)

theorem bind {g : α → Action σ β} (hx : Steadfast I x) (hg : ∀ a, Steadfast I (g a)) :
    Steadfast I (x >>= g) := fun s hs => (hx s hs).bind fun a t ht => hg a t ht

theorem ite {c : Prop} [Decidable c] {y : Action σ α} (hx : Steadfast I x) (hy : Steadfast I y) :
    Steadfast I (if c then x else y) := by
  split
  · exact hx
  · exact hy

theorem onPart {J : τ → Prop} {get : σ → τ} {set : τ → σ → σ} {x : Action τ α}
    (hx : Steadfast J x) (hget : ∀ s, I s → J (get s)) (hset : ∀ s t, I s → J t → I (set t s)) :
    Steadfast I (Action.onPart get set x) := fun s hs => by
  refine (Finishes.onPart get set (hx _ (hget s hs))).mono (fun a t ht => ?_) fun f t ht => ?_
  · obtain ⟨u, hu, rfl⟩ := ht
    exact hset s u hs hu
  · obtain ⟨u, hu, -⟩ := ht
    exact hu

theorem ofExcept_bind {y : Except Failure α} {g : α → Action σ β}
    (hok : ∀ a, y = .ok a → Steadfast I (g a)) (herror : ∀ f, y = .error f → f.Corrupts) :
    Steadfast I (ofExcept y >>= g) := by
  cases y with
  | ok a => exact hok a rfl
  | error f => exact fun _ _ => .error (herror f rfl)

end Steadfast

/-- Nothing is asked of the state. -/
abbrev AnyState (_ : σ) : Prop := True

/-! ## Workspaces -/

namespace Workspace

variable [Workspace W S sh]

theorem steadfast_scoreNow : Steadfast AnyState (scoreNow : Action W (Score sh)) := fun w _ => by
  cases h : scoreNow w with
  | ok a w' => exact .ok trivial
  | error f w' =>
    obtain ⟨fault, rfl, -⟩ := scoreNow_error h
    exact .error nofun

theorem steadfast_checkedScore (context : String) :
    Steadfast AnyState (checkedScore context : Action W (Score sh)) := by
  have hfull : ∀ x : Checked (Score sh), Steadfast AnyState (Action.ofChecked x : Action W _) := by
    rintro (f | a) w -
    · exact .error nofun
    · exact .ok trivial
  refine steadfast_scoreNow.bind fun incremental => .bind .get fun w => ?_
  refine (hfull _).bind fun full => .ite (.pure _) (.throw fun e he => ?_)
  cases he
  rfl

end Workspace

section

variable [Workspace W S sh] [ToString V]

theorem steadfast_scoreCandidate (mode : Mode) (m : Move S V) :
    Steadfast AnyState (scoreCandidate mode m : Action W (Score sh)) := by
  have hmodify (f : W → W) : Steadfast AnyState (modify f : Action W PUnit) :=
    .modify fun _ _ => trivial
  unfold scoreCandidate
  refine .ite ?_ ?_
  · refine Workspace.steadfast_scoreNow.bind fun before => .bind .get fun w => ?_
    refine (hmodify _).bind fun _ => (Workspace.steadfast_checkedScore _).bind fun a => ?_
    refine (hmodify _).bind fun _ => Workspace.steadfast_scoreNow.bind fun after => .ite ?_ ?_
    · exact (Workspace.steadfast_checkedScore _).bind fun _ => .pure _
    · refine .throw fun e he => ?_
      cases he
      rfl
  · refine .bind .get fun w => (hmodify _).bind fun _ => ?_
    exact Workspace.steadfast_scoreNow.bind fun a => (hmodify _).bind fun _ => .pure _

/-- The errors among the answers for a batch are broken promises of the scores, and so is the error
that the batch itself may fail with. -/
structure CorruptAtWorst (x : Except Failure (List (Except SolverError (Score sh)))) : Prop where
  answers : ∀ answers, x = .ok answers → ∀ e, .error e ∈ answers → e.isCorruption
  failure : ∀ f, x = .error f → f.Corrupts

theorem CorruptAtWorst.error {f : Failure} (h : f.Corrupts) :
    CorruptAtWorst (.error f : Except Failure (List (Except SolverError (Score sh)))) where
  answers _ he := by cases he
  failure _ he := by
    cases he
    exact h

theorem CorruptAtWorst.cons {x : Except Failure (List (Except SolverError (Score sh)))}
    (hx : CorruptAtWorst x) {a : Except SolverError (Score sh)}
    (ha : ∀ e, a = .error e → e.isCorruption) : CorruptAtWorst ((a :: ·) <$> x) where
  answers answers h e he := by
    obtain ⟨rest, hrest, rfl⟩ := Checked.map_eq_ok h
    rcases List.mem_cons.1 he with he | he
    · exact ha e he.symm
    · exact hx.answers rest hrest e he
  failure f h := hx.failure f (Checked.map_eq_error h)

theorem scoreEach_corruptAtWorst (mode : Mode) (ms : List (Move S V)) (w : W) :
    CorruptAtWorst (scoreEach mode ms w) := by
  induction ms generalizing w with
  | nil =>
    refine ⟨fun answers h e he => ?_, fun f h => by cases h⟩
    cases h
    cases he
  | cons m ms ih =>
    have hfirst : Finishes (fun _ _ => True) (fun f _ => f.Corrupts)
        (scoreCandidate mode m w : EStateM.Result Failure W (Score sh)) :=
      steadfast_scoreCandidate mode m w trivial
    rw [scoreEach]
    cases hscore : scoreCandidate mode m w with
    | ok a w' => exact (ih w').cons fun e he => by cases he
    | error f w' =>
      rw [hscore] at hfirst
      cases hfirst with
      | error hf =>
        cases f with
        | error e =>
          refine (ih w').cons fun e' he' => ?_
          cases he'
          exact hf e rfl
        | fault f => exact .error hf
        | outOfFuel => exact .error hf

theorem scoreBatch_corruptAtWorst (mode : Mode) (threads : Nat) (batch : List (Move S V)) (w : W) :
    CorruptAtWorst (scoreBatch mode threads batch w) where
  answers answers h e he := by
    obtain ⟨each, heach, h⟩ := Checked.bind_eq_ok h
    cases h
    obtain ⟨run, hrun, he⟩ := List.mem_flatten.1 he
    obtain ⟨ms, -, hms⟩ := Checked.exists_of_mem_mapM heach hrun
    exact (scoreEach_corruptAtWorst mode ms w).answers run hms e he
  failure f h := by
    rcases Checked.bind_eq_error h with h | ⟨each, -, h⟩
    · obtain ⟨ms, -, hms⟩ := Checked.mapM_eq_error h
      exact (scoreEach_corruptAtWorst mode ms w).failure f hms
    · cases h

end

/-! ## Runs and scopes -/

theorem Run.steadfast_onWorkspace {x : Action W α} (h : Steadfast AnyState x) :
    Steadfast AnyState (onWorkspace x : Action (Run W S sh) α) := fun r _ => by
  have hx := h r.workspace trivial
  unfold onWorkspace
  generalize x r.workspace = y at hx ⊢
  cases hx with
  | ok _ => exact .ok trivial
  | error hf => exact .error hf

/-- The phase that is at work is within `I`. -/
abbrev InPhase (I : P → Prop) (s : P × Scope W S sh) : Prop := I s.1

/-- Whatever is done to the run of a phase leaves the phase alone. -/
theorem steadfast_onScope {I : P → Prop} {x : Action (Scope W S sh) α} (h : Steadfast AnyState x) :
    Steadfast (InPhase I) (onScope x) :=
  h.onPart (fun _ _ => trivial) fun _ _ hs _ => hs

theorem steadfast_onRun {I : P → Prop} {x : Action (Run W S sh) α} (h : Steadfast AnyState x) :
    Steadfast (InPhase I) (onScope (Scope.onRun x)) :=
  steadfast_onScope (h.onPart (fun _ _ => trivial) fun _ _ _ _ => trivial)

section

variable [Workspace W S sh]

theorem Run.steadfast_scoreNow : Steadfast AnyState (scoreNow : Action (Run W S sh) (Score sh)) :=
  steadfast_onWorkspace Workspace.steadfast_scoreNow

variable [Plan S sh]

theorem Run.steadfast_updateBest : Steadfast AnyState (updateBest : Action (Run W S sh) Bool) := by
  unfold updateBest
  refine steadfast_scoreNow.bind fun a => .bind .get fun r => .ite ?_ (.pure _)
  exact fun _ _ => .ok trivial

theorem Scope.steadfast_updateBest :
    Steadfast AnyState (updateBest : Action (Scope W S sh) Bool) := by
  have hrun : Steadfast AnyState (onRun Run.updateBest : Action (Scope W S sh) Bool) :=
    Run.steadfast_updateBest.onPart (fun _ _ => trivial) fun _ _ _ _ => trivial
  refine hrun.bind fun improved => ?_
  split
  · exact .bind (.modify fun _ _ => trivial) fun _ => .pure _
  · exact .pure _

theorem Scope.steadfast_completeStep :
    Steadfast AnyState (completeStep : Action (Scope W S sh) Bool) :=
  .bind (.modify fun _ _ => trivial) fun _ => steadfast_updateBest

end

/-! ## Local searches -/

namespace LocalSearch

theorem steadfast_record (f : Stats → Stats) :
    Steadfast AnyState (record f : Action (Searching W S V sh) Unit) := fun _ _ => .ok trivial

theorem steadfast_consider (last : Score sh) (m : Move S V) (a : Score sh) (d : Draws) :
    Steadfast AnyState (consider last m a d : Action (Searching W S V sh) Draws) := fun s _ => by
  rw [consider_eq]
  exact .ok trivial

theorem steadfast_considerEach (last : Score sh)
    {qs : List (Move S V × Except SolverError (Score sh))}
    (h : ∀ m e, (m, .error e) ∈ qs → e.isCorruption) (d : Draws) :
    Steadfast AnyState (considerEach last qs d : Action (Searching W S V sh) (Draws × Bool)) := by
  induction qs generalizing d with
  | nil => exact .pure _
  | cons q qs ih =>
    obtain ⟨m, e | a⟩ := q
    · refine .throw fun e' he' => ?_
      cases he'
      exact h m e List.mem_cons_self
    · rw [considerEach]
      refine (steadfast_consider last m a d).bind fun d' => .bind .get fun s => ?_
      exact .ite (.pure _) (ih (fun m e he => h m e (List.mem_cons_of_mem _ he)) _)

variable [Workspace W S sh]

theorem steadfast_fire (e : Event) (a : Score sh) :
    Steadfast AnyState (fire e a : Action (Searching W S V sh) Unit) := fun _ _ => .ok trivial

variable [ToString V]

theorem steadfast_commit (m : Move S V) (stepIndex : Nat) :
    Steadfast AnyState (commit m stepIndex : Action (Run W S sh) (Score sh)) := by
  refine .bind .get fun r => Run.steadfast_onWorkspace (.bind (.modify fun _ _ => trivial) fun _ => ?_)
  exact .ite (Workspace.steadfast_checkedScore _) Workspace.steadfast_scoreNow

variable [Plan S sh]

omit [ToString V] in
theorem steadfast_draw : Steadfast AnyState (draw : Action (Searching W S V sh) _) :=
  fun _ _ => .ok trivial

variable [DecidableEq V]

omit [ToString V] in
theorem steadfast_isDoable (m : Move S V) :
    Steadfast AnyState (isDoable m : Action (Searching W S V sh) Bool) := .bind .get fun _ => .pure _

omit [ToString V] in
theorem steadfast_drawBatch (fuel k : Nat) (d : Draws) :
    Steadfast AnyState (drawBatch fuel k d : Action (Searching W S V sh) _) := by
  induction fuel generalizing k d with
  | zero => exact .outOfFuel
  | succ fuel ih =>
    cases k with
    | zero => exact .pure _
    | succ k =>
      rw [drawBatch]
      refine .bind .get fun s => .ite (.pure _) (steadfast_draw.bind fun m? => ?_)
      cases m? with
      | none => exact .pure _
      | some m =>
        refine (steadfast_isDoable m).bind fun doable => .ite ?_ ?_
        · exact (ih k _).bind fun _ => .pure _
        · exact (steadfast_record _).bind fun _ => ih _ _

theorem steadfast_collect (last : Score sh) (fuel : Nat) (d : Draws) :
    Steadfast AnyState (collect last fuel d : Action (Searching W S V sh) Unit) := by
  induction fuel generalizing d with
  | zero => exact .outOfFuel
  | succ fuel ih =>
    rw [collect]
    refine .bind .get fun s => .ite (.pure _) (steadfast_draw.bind fun m? => ?_)
    cases m? with
    | none => exact .pure _
    | some m =>
      refine (steadfast_isDoable m).bind fun doable => .ite ?_ ?_
      · exact (steadfast_record _).bind fun _ => ih _
      · refine .bind .get fun s => .bind (steadfast_onRun (I := AnyState) ?_) fun a => ?_
        · exact Run.steadfast_onWorkspace (steadfast_scoreCandidate _ m)
        · refine (steadfast_consider last m a _).bind fun d' => .bind .get fun s => ?_
          exact .ite (.pure _) (ih _)

theorem steadfast_collectBatches (threads size : Nat) (last : Score sh) (fuel : Nat) (d : Draws) :
    Steadfast AnyState
      (collectBatches threads size last fuel d : Action (Searching W S V sh) Unit) := by
  induction fuel generalizing d with
  | zero => exact .outOfFuel
  | succ fuel ih =>
    rw [collectBatches]
    refine .bind .get fun s => .ite (.pure _) ((steadfast_drawBatch _ _ _).bind fun q => ?_)
    refine .bind .get fun s => ?_
    have hbatch := scoreBatch_corruptAtWorst s.2.run.mode threads q.1 s.2.run.workspace
    refine .ofExcept_bind (fun scores hscores => ?_) hbatch.failure
    refine (steadfast_considerEach last (fun m e he => ?_) _).bind fun x => .ite (.pure _) (ih _)
    exact hbatch.answers scores hscores e (List.of_mem_zip he).2

theorem steadfast_gather (fuel : Nat) (last : Score sh) :
    Steadfast AnyState (gather fuel last : Action (Searching W S V sh) Unit) := fun s hs => by
  unfold gather
  split
  · exact steadfast_collect last fuel {} s hs
  · exact steadfast_collectBatches _ _ last fuel {} s hs

theorem steadfast_forage (fuel : Nat) (last : Score sh) :
    Steadfast AnyState (forage fuel last : Action (Searching W S V sh) (Option (Move S V))) :=
  fun s hs => by
    rw [forage_eq]
    exact (steadfast_gather fuel last s hs).bind fun _ t _ => .ok trivial

theorem steadfast_step (fuel : Nat) (last : Score sh) :
    Steadfast AnyState (step fuel last : Action (Searching W S V sh) (Option (Score sh))) := by
  unfold step
  refine (steadfast_fire _ _).bind fun _ => .bind (.modify fun _ _ => trivial) fun _ => ?_
  refine (steadfast_forage fuel last).bind fun m? => ?_
  cases m? with
  | none => exact (steadfast_fire _ _).bind fun _ => .pure _
  | some m =>
    refine .bind .get fun s => (steadfast_onRun (I := AnyState) (steadfast_commit m _)).bind fun a => ?_
    refine (steadfast_onScope (I := AnyState) Scope.steadfast_completeStep).bind fun _ => ?_
    exact (steadfast_fire _ _).bind fun _ => .pure _

theorem steadfast_steps (fuel rounds : Nat) (last : Score sh) :
    Steadfast AnyState (steps fuel rounds last : Action (Searching W S V sh) _) := by
  induction rounds generalizing last with
  | zero => exact .outOfFuel
  | succ rounds ih =>
    rw [steps]
    refine .bind .get fun s => ?_
    dsimp only
    refine .ite (.pure _) ((steadfast_step fuel last).bind fun answer => ?_)
    cases answer with
    | some a => exact ih a
    | none =>
      cases s.1.noAcceptedMove with
      | terminate => exact .pure _
      | proceed => exact .bind (.modify fun _ _ => trivial) fun _ => ih last

theorem steadfast_work (fuel : Nat) :
    Steadfast AnyState (work fuel : Action (Searching W S V sh) Outcome) := by
  unfold work mapScope
  refine .bind (.modify fun _ _ => trivial) fun _ => ?_
  refine (steadfast_onRun (I := AnyState) Run.steadfast_scoreNow).bind fun start => ?_
  refine .bind (.modify fun _ _ => trivial) fun _ => ?_
  refine (steadfast_onScope (I := AnyState) Scope.steadfast_updateBest).bind fun _ => ?_
  refine (steadfast_fire _ _).bind fun _ => (steadfast_steps fuel fuel start).bind fun x => ?_
  exact (steadfast_fire _ _).bind fun _ => .pure _

end LocalSearch

/-! ## Constructions -/

namespace Construction

/-- The phase has so many placers; what it does at work neither adds nor removes any. -/
def Has (n : Nat) (p : Construction S V sh) : Prop := p.placers.length = n

variable {n : Nat} [Workspace W S sh]

theorem steadfast_fire (e : Event) (a : Score sh) :
    Steadfast (InPhase (Has n)) (fire e a : Action (Construction S V sh × Scope W S sh) Unit) := fun _ hs =>
  .ok ((List.length_map _).trans hs)

theorem steadfast_commit (m? : Option (Move S V)) (stepIndex : Nat) :
    Steadfast AnyState (commit m? stepIndex : Action (Run W S sh) (Score sh)) := by
  refine .bind .get fun r => Run.steadfast_onWorkspace ?_
  have hscore : Steadfast AnyState
      (if r.mode.isAsserted then Workspace.checkedScore s!"after construction step {stepIndex}"
        else Workspace.scoreNow : Action W (Score sh)) :=
    .ite (Workspace.steadfast_checkedScore _) Workspace.steadfast_scoreNow
  cases m? with
  | none => exact hscore
  | some m => exact .bind (.modify fun _ _ => trivial) fun _ => hscore

variable [Plan S sh] [DecidableEq V] [ToString V]

theorem steadfast_tryValues (pickEarly : PickEarly) (cell : Variable S V) (entity : Nat)
    (last : Score sh) (best : Option (Candidate S V sh)) (vs : List (Option V)) :
    Steadfast AnyState (tryValues pickEarly cell entity last best vs : Action (Run W S sh) _) := by
  induction vs generalizing best with
  | nil => exact .pure _
  | cons v vs ih =>
    refine .bind .get fun r => .ite ?_ ?_
    · exact .bind (fun _ _ => .ok trivial) fun _ => ih best
    · refine (Run.steadfast_onWorkspace (steadfast_scoreCandidate _ _)).bind fun a => ?_
      exact .bind (.modify fun _ _ => trivial) fun _ => .ite (.pure _) (ih _)

/-- A placement of a placer that is there leads to a move or to none. -/
theorem steadfast_choose {place : Placement} (hplace : place.placer < n) (last : Score sh) :
    Steadfast (InPhase (Has n)) (choose place last : Action (Construction S V sh × Scope W S sh) _) := by
  intro s hs
  unfold choose
  rw [Step.get_bind]
  dsimp only
  rw [List.getElem?_eq_getElem (hs.symm ▸ hplace)]
  dsimp only
  rw [Step.set_bind]
  refine steadfast_onRun (I := Has n) (steadfast_tryValues _ _ _ _ _ _) _ ?_
  exact List.length_set.trans hs

theorem steadfast_step {place : Placement} (hplace : place.placer < n) (last : Score sh) :
    Steadfast (InPhase (Has n)) (step place last : Action (Construction S V sh × Scope W S sh) _) := by
  unfold step
  refine (steadfast_fire _ _).bind fun _ => (steadfast_choose hplace last).bind fun m? => ?_
  refine .bind .get fun s => ?_
  refine (steadfast_onRun (I := Has n) (steadfast_commit m? _)).bind fun a => ?_
  refine (steadfast_onScope (I := Has n) Scope.steadfast_completeStep).bind fun _ => ?_
  exact (steadfast_fire _ _).bind fun _ => .pure _

theorem steadfast_steps {places : List Placement} (h : ∀ place ∈ places, place.placer < n)
    (last : Score sh) :
    Steadfast (InPhase (Has n)) (steps places last : Action (Construction S V sh × Scope W S sh) _) := by
  induction places generalizing last with
  | nil => exact .pure _
  | cons place rest ih =>
    obtain ⟨hplace, hrest⟩ := List.forall_mem_cons.1 h
    rw [steps]
    refine .bind .get fun s => ?_
    exact .ite (.pure _) ((steadfast_step hplace last).bind fun a => ih hrest a)

/-- The placements are those of the phase as it is when it starts, so each has a placer. -/
theorem steadfast_work :
    Steadfast (InPhase (Has n)) (work : Action (Construction S V sh × Scope W S sh) Outcome) := by
  unfold work mapScope
  refine .bind (.modify fun _ hs => hs) fun _ => ?_
  refine (steadfast_onRun (I := Has n) Run.steadfast_scoreNow).bind fun start => ?_
  refine .bind (.modify fun _ hs => hs) fun _ => (steadfast_fire _ _).bind fun _ s hs => ?_
  rw [Step.get_bind]
  have hplaces : ∀ place ∈ s.1.placements s.2.run.plan, place.placer < n := fun place hplace =>
    hs ▸ placer_lt hplace
  refine (steadfast_steps hplaces start).bind (fun x => ?_) s hs
  refine (steadfast_onScope (I := Has n) Scope.steadfast_updateBest).bind fun _ => ?_
  exact (steadfast_fire _ _).bind fun _ => .pure _

end Construction

end PlanSearch
