import PlanSearch.Proofs.Mirror.Solver
import PlanSearch.Proofs.Run.Upkeep

/-!
# Solving with good plans

A step of a local search starts its walks over. What they then list was listed on good plans, hence
the candidates that are drawn, those in the arena and the winner have leaves that are `fine`. A
construction tries values that were listed on good plans, for entities that were movable on a good
plan. Therefore solves on linked workspaces that begin with a good plan go the same way; they have
only good plans at hand, tell of no others and answer a good plan, whatever their phases do and
however they end.

    p.Suits fine good → steps of a local search maintain good plans    (LocalSearch.steps_upkept)
    p.Suits fine good → steps of a construction maintain good plans   (Construction.steps_upkept)
    solver.phases suit → R w v → solve fuel w and solve fuel v go the same way      (solve_linked)
    solver.phases suit → solve fuel w is sound, whether it answers or fails          (solve_sound)
-/

namespace PlanSearch

variable {W W' S V P α σ τ : Type} {sh : Shape} [Plan S sh] [Workspace W S sh] [Workspace W' S sh]
  {fine : Leaf S V → Prop} {good : S → Prop} {R : W → W' → Prop}

/-! ## Local searches -/

namespace LocalSearch

/-- The leaves that the search proposes on good plans are `fine`. -/
def Suits (fine : Leaf S V → Prop) (good : S → Prop) (p : LocalSearch S V sh) : Prop :=
  p.neighbourhood.tree.Suits fine good

/-- What the search remembers in the middle of a step was listed on good plans, and the candidates in
the arena have leaves that are `fine`. -/
structure Stocked (fine : Leaf S V → Prop) (good : S → Prop) (p : LocalSearch S V sh) : Prop where
  suits : p.Suits fine good
  listed : p.neighbourhood.tree.Listed fine good p.neighbourhood.walk
  arena : ∀ i m, p.arena.get? i = some m → m.All fine

/-- A search in the middle of a step, on runs that go the same way. -/
abbrev Stepping (fine : Leaf S V → Prop) (good : S → Prop) (R : W → W' → Prop) :
    Searching W S V sh → Searching W' S V sh → Prop :=
  Phase.Upkept (Stocked fine good) R good

/-- A search between steps, on runs that go the same way. -/
abbrev Resting (fine : Leaf S V → Prop) (good : S → Prop) (R : W → W' → Prop) :
    Searching W S V sh → Searching W' S V sh → Prop :=
  Phase.Upkept (Suits fine good) R good

variable {s : Searching W S V sh} {t : Searching W' S V sh}

theorem Resting.fired (hs : Resting fine good R s t) (h : Linked fine good R) (e : Event)
    (a : Score sh) : Resting fine good R (fired e a s) (fired e a t) := by
  obtain ⟨hp, hr⟩ := hs
  unfold LocalSearch.fired
  dsimp only
  rw [hr.plan h]
  exact .intro hp (hr.event h _ _ _ _)

theorem Resting.begun (hs : Resting fine good R s t) (h : Linked fine good R) (last : Score sh) :
    Stepping fine good R (begun last s) (begun last t) := by
  obtain ⟨hp, hr⟩ := hs
  unfold LocalSearch.begun LocalSearch.fired
  dsimp only
  rw [hr.plan h]
  refine .intro ⟨hp, Tree.listed_hear _ rfl _ _, fun i m hi => ?_⟩ (hr.event h _ _ _ _)
  change Arena.empty.get? i = some m at hi
  rw [Arena.get?_empty] at hi
  cases hi

omit [Workspace W S sh] [Workspace W' S sh] in
theorem Stepping.resting (hs : Stepping fine good R s t) : Resting fine good R s t :=
  hs.imp fun _ hp => hp.suits

/-! ### Collecting candidates -/

theorem draw_upkept (h : Linked fine good R) :
    Maintains (Stepping fine good R) (fun m? => ∀ m, m? = some m → m.All fine)
      (draw : Action (Searching W S V sh) (Option (Move S V))) draw := by
  rintro _ _ ⟨hp, hr⟩
  rw [draw_eq, draw_eq]
  unfold nextMove drawn
  dsimp only
  rw [hr.plan h, hr.source]
  obtain ⟨hlisted, hm⟩ := Tree.Listed.next (hr.goodPlan h) _ _ hp.suits hp.listed _
  exact .ok hm (.intro { hp with listed := hlisted } (hr.setSource _))

omit [Workspace W S sh] [Workspace W' S sh] in
theorem record_upkept (f : Stats → Stats) :
    Maintains (Stepping fine good R) (fun _ => True)
      (record f : Action (Searching W S V sh) Unit) (record f) :=
  mapRun_upkept fun _ _ hr => hr.record f

omit [Workspace W S sh] [Workspace W' S sh] in
theorem consider_upkept (last : Score sh) {m : Move S V} (hm : m.All fine) (a : Score sh)
    (d : Draws) :
    Maintains (Stepping fine good R) (fun _ => True)
      (consider last m a d : Action (Searching W S V sh) Draws) (consider last m a d) := by
  rintro _ _ ⟨hp, hr⟩
  rw [consider_eq, consider_eq]
  refine .ok trivial (.intro ?_ (hr.record _))
  dsimp only
  split
  · refine { hp with arena := fun i m' hi => ?_ }
    rcases Arena.get?_push hi with rfl | hi
    · exact hm
    · exact hp.arena i m' hi
  · exact hp

omit [Workspace W S sh] [Workspace W' S sh] in
theorem considerEach_upkept (last : Score sh)
    {qs : List (Move S V × Except SolverError (Score sh))} (hqs : ∀ q ∈ qs, q.1.All fine)
    (d : Draws) :
    Maintains (Stepping fine good R) (fun _ => True)
      (considerEach last qs d : Action (Searching W S V sh) (Draws × Bool))
      (considerEach last qs d) := by
  induction qs generalizing d with
  | nil => exact .pure trivial
  | cons q qs ih =>
    obtain ⟨hq, hrest⟩ := List.forall_mem_cons.1 hqs
    obtain ⟨m, e | a⟩ := q
    · exact .throw _
    · rw [considerEach, considerEach]
      refine .bind (consider_upkept last hq a d) fun d' _ => .get_bind fun s t hst => ?_
      rw [hst.phase_eq]
      exact .ite (.pure trivial) (ih hrest _)

variable [DecidableEq V]

theorem isDoable_upkept (h : Linked fine good R) (m : Move S V) :
    Maintains (Stepping fine good R) (fun _ => True)
      (isDoable m : Action (Searching W S V sh) Bool) (isDoable m) := by
  rintro _ _ ⟨hp, hr⟩
  rw [isDoable_eq, isDoable_eq]
  dsimp only
  rw [hr.plan h]
  exact .ok trivial (.intro hp hr)

theorem drawBatch_upkept (h : Linked fine good R) (fuel k : Nat) (d : Draws) :
    Maintains (Stepping fine good R) (fun q => ∀ m ∈ q.1, Move.All fine m)
      (drawBatch fuel k d : Action (Searching W S V sh) _) (drawBatch fuel k d) := by
  induction fuel generalizing k d with
  | zero => exact .throw _
  | succ fuel ih =>
    cases k with
    | zero => exact .pure (List.forall_mem_nil _)
    | succ k =>
      rw [drawBatch, drawBatch]
      refine .get_bind fun s t hst => ?_
      rw [hst.phase_eq]
      refine .ite (.pure (List.forall_mem_nil _)) (.bind (draw_upkept h) fun m? hm => ?_)
      cases m? with
      | none => exact .pure (List.forall_mem_nil _)
      | some m =>
        refine .bind (isDoable_upkept h m) fun doable _ => .ite ?_ ?_
        · exact .bind (ih k _) fun q hq => .pure (List.forall_mem_cons.2 ⟨hm m rfl, hq⟩)
        · exact .bind (record_upkept _) fun _ _ => ih _ _

variable [ToString V]

theorem collect_upkept (h : Linked fine good R) (last : Score sh) (fuel : Nat) (d : Draws) :
    Maintains (Stepping fine good R) (fun _ => True)
      (collect last fuel d : Action (Searching W S V sh) Unit) (collect last fuel d) := by
  induction fuel generalizing d with
  | zero => exact .throw _
  | succ fuel ih =>
    rw [collect, collect]
    refine .get_bind fun s t hst => ?_
    rw [hst.phase_eq]
    refine .ite (.pure trivial) (.bind (draw_upkept h) fun m? hm => ?_)
    cases m? with
    | none => exact .pure trivial
    | some m =>
      refine .bind (isDoable_upkept h m) fun doable _ => .ite ?_ ?_
      · exact .bind (record_upkept _) fun _ _ => ih _
      · refine .get_bind fun s t hst => ?_
        rw [hst.run.mode]
        have hscore := h.scoreCandidate (hm m rfl) s.2.run.mode
        refine .bind (onRun_upkept (Run.onWorkspace_upkept hscore)) fun a _ => ?_
        refine .bind (consider_upkept last (hm m rfl) a _) fun d' _ => .get_bind fun s t hst => ?_
        rw [hst.phase_eq]
        exact .ite (.pure trivial) (ih _)

theorem collectBatches_upkept (h : Linked fine good R) (threads size : Nat) (last : Score sh)
    (fuel : Nat) (d : Draws) :
    Maintains (Stepping fine good R) (fun _ => True)
      (collectBatches threads size last fuel d : Action (Searching W S V sh) Unit)
      (collectBatches threads size last fuel d) := by
  induction fuel generalizing d with
  | zero => exact .throw _
  | succ fuel ih =>
    rw [collectBatches, collectBatches]
    refine .get_bind fun s t hst => ?_
    rw [hst.phase_eq]
    refine .ite (.pure trivial) (.bind (drawBatch_upkept h _ _ _) fun q hq => ?_)
    refine .get_bind fun s t hst => ?_
    dsimp only
    rw [hst.run.mode, h.scoreBatch_eq _ _ hq hst.run.workspace]
    refine .bind (.ofExcept _) fun scores _ => ?_
    refine .bind (considerEach_upkept last (fun q' hq' => hq _ (List.of_mem_zip hq').1) _)
      fun _ _ => ?_
    exact .ite (.pure trivial) (ih _)

theorem gather_upkept (h : Linked fine good R) (fuel : Nat) (last : Score sh) :
    Maintains (Stepping fine good R) (fun _ => True)
      (gather fuel last : Action (Searching W S V sh) Unit) (gather fuel last) := by
  intro s t hst
  unfold gather
  rw [hst.phase_eq]
  split
  · exact collect_upkept h last fuel {} s t hst
  · exact collectBatches_upkept h _ _ last fuel {} s t hst

/-! ### Steps -/

omit [Workspace W S sh] [Workspace W' S sh] [DecidableEq V] [ToString V] in
theorem takeWinner_upkept {s : Searching W S V sh} {t : Searching W' S V sh}
    (hst : Stepping fine good R s t) :
    InStep (Resting fine good R) (fun m? => ∀ m, m? = some m → m.All fine) (takeWinner s)
      (takeWinner t) := by
  obtain ⟨hp, hr⟩ := hst
  unfold takeWinner
  dsimp only
  rw [hr.source]
  refine .ok (fun m hm => ?_) (.intro hp.suits (hr.setSource _))
  split at hm
  · cases hm
  · exact hp.arena _ m hm

omit [DecidableEq V] in
theorem commit_upkept (h : Linked fine good R) {m : Move S V} (hm : m.All fine) (stepIndex : Nat) :
    Maintains (Run.Upkept R good) (fun _ => True)
      (commit m stepIndex : Action (Run W S sh) (Score sh)) (commit m stepIndex) := by
  refine .get_bind fun r r' hr => ?_
  rw [hr.mode]
  refine Run.onWorkspace_upkept (.bind (.modify fun _ _ => h.apply hm) fun _ _ => ?_)
  exact .ite (h.checkedScore _) h.scoreNow

theorem forage_upkept (h : Linked fine good R) (fuel : Nat) (last : Score sh)
    {s : Searching W S V sh} {t : Searching W' S V sh} (hst : Stepping fine good R s t) :
    InStep (Resting fine good R) (fun m? => ∀ m, m? = some m → m.All fine) (forage fuel last s)
      (forage fuel last t) := by
  rw [forage_eq, forage_eq]
  exact (gather_upkept h fuel last s t hst).bind (fun _ _ _ _ hst => takeWinner_upkept hst)
    fun _ _ => Stepping.resting

theorem step_upkept (h : Linked fine good R) (fuel : Nat) (last : Score sh) :
    Maintains (Resting fine good R) (fun _ => True)
      (step fuel last : Action (Searching W S V sh) _) (step fuel last) := fun s t hst => by
  have hforage := forage_upkept h fuel last (hst.begun h last)
  unfold step
  rw [fire_bind, fire_bind, mapPhase_bind, mapPhase_bind]
  refine InStep.bind hforage (fun m? s t hm hst => ?_) fun _ _ => id
  cases m? with
  | none =>
    dsimp only
    rw [fire_bind, fire_bind]
    exact .ok trivial (hst.fired h _ _)
  | some m =>
    refine Maintains.get_bind (fun s t hst => ?_) s t hst
    rw [hst.span_eq]
    refine .bind (onRun_upkept (commit_upkept h (hm m rfl) _)) fun a _ => ?_
    refine .bind (onScope_upkept (Scope.completeStep_upkept h)) fun _ _ u v huv => ?_
    rw [fire_bind, fire_bind]
    exact .ok trivial (Resting.fired huv h _ _)

theorem steps_upkept (h : Linked fine good R) (fuel rounds : Nat) (last : Score sh) :
    Maintains (Resting fine good R) (fun _ => True)
      (steps fuel rounds last : Action (Searching W S V sh) _) (steps fuel rounds last) := by
  induction rounds generalizing last with
  | zero => exact .throw _
  | succ rounds ih =>
    rw [steps, steps]
    refine .get_bind fun s t hst => ?_
    dsimp only
    rw [hst.isTerminated, hst.phase_eq]
    refine .ite (.pure trivial) (.bind (step_upkept h fuel last) fun a _ => ?_)
    cases a with
    | some a => exact ih a
    | none =>
      dsimp only
      cases s.1.noAcceptedMove with
      | terminate => exact .pure trivial
      | proceed => exact .bind (mapScope_upkept fun _ _ h => h.countStep) fun _ _ => ih last

theorem work_upkept (h : Linked fine good R) (fuel : Nat) :
    Maintains (Resting fine good R) (fun _ => True)
      (work fuel : Action (Searching W S V sh) Outcome) (work fuel) := by
  have hfire : ∀ (e : Event) (a : Score sh), Maintains (Resting fine good R) (fun _ => True)
      (fire e a : Action (Searching W S V sh) Unit) (fire e a) := fun e a _ _ hst =>
    .ok trivial (hst.fired h e a)
  refine .bind (mapRun_upkept fun _ _ hr => hr.restartWorkspace h) fun _ _ => ?_
  refine .bind (onRun_upkept (Run.scoreNow_upkept h)) fun start _ => ?_
  refine .bind (mapScope_upkept fun _ _ ⟨hr⟩ => .intro hr) fun _ _ => ?_
  refine .bind (onScope_upkept (Scope.updateBest_upkept h)) fun _ _ => .bind (hfire _ _) fun _ _ => ?_
  exact .bind (steps_upkept h fuel fuel start) fun _ _ => .bind (hfire _ _) fun _ _ => .pure trivial

end LocalSearch

/-! ## Constructions -/

namespace Construction

/-- The leaves that the construction proposes on good plans are `fine`. -/
def Suits (fine : Leaf S V → Prop) (good : S → Prop) (p : Construction S V sh) : Prop :=
  ∀ d ∈ p.definitions, d.Suits fine good

/-- The values at hand were listed on good plans, and the construction places the variables `ds`. -/
structure Stocked (fine : Leaf S V → Prop) (good : S → Prop) (ds : List (Definition S V))
    (p : Construction S V sh) : Prop where
  definitions : p.definitions = ds
  suits : p.Suits fine good
  listed : ∀ placer ∈ p.placers, placer.values.Listed good placer.definition

/-- A construction after the start of its phase, on runs that go the same way. -/
abbrev Stepping (fine : Leaf S V → Prop) (good : S → Prop) (R : W → W' → Prop)
    (ds : List (Definition S V)) :
    Construction S V sh × Scope W S sh → Construction S V sh × Scope W' S sh → Prop :=
  Phase.Upkept (Stocked fine good ds) R good

variable {ds : List (Definition S V)} {p : Construction S V sh}

theorem Suits.hear (h : p.Suits fine good) (e : Event) : (p.hear e).Suits fine good := by
  unfold Suits
  rw [p.definitions_hear]
  exact h

theorem stocked_hear (hs : p.Suits fine good) {e : Event} (he : e.restarts) :
    (p.hear e).Stocked fine good p.definitions where
  definitions := p.definitions_hear e
  suits := hs.hear e
  listed placer hplacer := by
    obtain ⟨placer', -, rfl⟩ := List.mem_map.1 hplacer
    exact ValueWalk.listed_hear good _ _ he

theorem Stocked.hear (h : p.Stocked fine good ds) (e : Event) :
    (p.hear e).Stocked fine good ds where
  definitions := (p.definitions_hear e).trans h.definitions
  suits := h.suits.hear e
  listed placer hplacer := by
    obtain ⟨placer', hplacer', rfl⟩ := List.mem_map.1 hplacer
    show (placer'.values.hear e).Listed good placer'.definition
    unfold ValueWalk.hear
    dsimp only
    split
    · exact ValueWalk.listed_restart good _ _
    · intro hstale
      obtain ⟨entity, ht⟩ := h.listed placer' hplacer' hstale
      exact ⟨entity, ht.stale, ht.source⟩

/-- Both hear of an event, as do the listeners. -/
theorem fired_upkept (h : Linked fine good R) {C C' : Construction S V sh → Prop} {e : Event}
    (hC : ∀ p, C p → C' (p.hear e)) (a : Score sh) {s : Construction S V sh × Scope W S sh}
    {t : Construction S V sh × Scope W' S sh} (hst : Phase.Upkept C R good s t) :
    Phase.Upkept C' R good (fired e a s) (fired e a t) := by
  obtain ⟨hp, hr⟩ := hst
  exact .intro (hC _ hp) (hr.event h _ _ _ _)

variable [DecidableEq V] [ToString V]

theorem tryValues_upkept (h : Linked fine good R) (pickEarly : PickEarly) {cell : Variable S V}
    {entity : Nat} (last : Score sh) {vs : List (Option V)}
    (hvs : ∀ v ∈ vs, fine (.change cell entity v)) (best : Option (Candidate S V sh))
    (hbest : ∀ b, best = some b → b.1.All fine) :
    Maintains (Run.Upkept R good) (fun m? => ∀ m, m? = some m → m.All fine)
      (tryValues pickEarly cell entity last best vs : Action (Run W S sh) _)
      (tryValues pickEarly cell entity last best vs) := by
  induction vs generalizing best with
  | nil =>
    refine .pure fun m hm => ?_
    obtain ⟨b, hb, rfl⟩ := Option.map_eq_some_iff.1 hm
    exact hbest b hb
  | cons v vs ih =>
    obtain ⟨hv, hrest⟩ := List.forall_mem_cons.1 hvs
    have hm : (Move.leaf (.change cell entity v)).All fine := Move.all_leaf hv
    rw [tryValues, tryValues]
    refine .get_bind fun r r' hr => ?_
    rw [hr.plan h, hr.mode]
    refine .ite ?_ ?_
    · exact .bind (fun _ _ _ => .ok (Q := fun _ => True) trivial (hr.record _)) fun _ _ =>
        ih hrest _ hbest
    · refine .bind (Run.onWorkspace_upkept (h.scoreCandidate hm r.mode)) fun a _ => ?_
      refine .bind (.modify fun _ _ hr => hr.record _) fun _ _ => .ite (.pure fun m h => ?_) ?_
      · cases h
        exact hm
      · refine ih hrest _ fun b hb => ?_
        split at hb
        · cases hb
          exact hm
        · exact hbest b hb

theorem choose_upkept (h : Linked fine good R) {place : Placement}
    (hplace : Places (Slot.Known good) ds place) (last : Score sh) :
    Maintains (Stepping fine good R ds) (fun m? => ∀ m, m? = some m → m.All fine)
      (choose place last : Action (Construction S V sh × Scope W S sh) _) (choose place last) := by
  rintro _ _ ⟨hp, hr⟩
  rename_i p span r r'
  unfold choose
  rw [Step.get_bind, Step.get_bind]
  dsimp only
  rw [hr.plan h, hr.source]
  cases hplacer : p.placers[place.placer]? with
  | none => exact .error (.intro hp hr)
  | some placer =>
    have hmem : placer ∈ p.placers := List.mem_of_getElem? hplacer
    have hdefinition : p.definitions[place.placer]? = some placer.definition := by
      unfold definitions
      rw [List.getElem?_map, hplacer]
      rfl
    have hstart := (hp.listed placer hmem).start (hr.goodPlan h) .original place.entity
      r.source
    have hset : ∀ values, definitions { p with
        placers := p.placers.set place.placer { placer with values } } = p.definitions :=
      definitions_set hplacer
    dsimp only
    unfold Placer.start
    generalize placer.values.start r.plan placer.definition .original place.entity r.source = q
      at hstart ⊢
    obtain ⟨values, source⟩ := q
    dsimp only at hstart ⊢
    rw [Step.set_bind, Step.set_bind]
    obtain ⟨q, e, hq, hper, -, -, hupcoming⟩ := hstart.source
    have hknown := hplace placer.definition (hp.definitions ▸ hdefinition)
    have hsuits := hp.suits placer.definition (List.mem_of_getElem? hdefinition)
    have hvalues : ∀ v ∈ values.upcoming,
        fine (.change placer.definition.cell place.entity v) := fun v hv =>
      hsuits place.entity v hknown ⟨q, e, hq, hper, hupcoming v hv⟩
    have htry := tryValues_upkept h p.pickEarly last hvalues none nofun
    refine onRun_upkept (C := Stocked fine good ds) htry _ _ (.intro ?_ (hr.setSource source))
    refine ⟨(hset values).trans hp.definitions, ?_, fun placer' hplacer' => ?_⟩
    · show ∀ d ∈ _, _
      rw [hset values]
      exact hp.suits
    · rcases List.mem_or_eq_of_mem_set hplacer' with hplacer' | rfl
      · exact hp.listed placer' hplacer'
      · exact hstart.toListed

omit [DecidableEq V] [ToString V] in
theorem commit_upkept (h : Linked fine good R) {m? : Option (Move S V)}
    (hm : ∀ m, m? = some m → m.All fine) (stepIndex : Nat) :
    Maintains (Run.Upkept R good) (fun _ => True)
      (commit m? stepIndex : Action (Run W S sh) (Score sh)) (commit m? stepIndex) := by
  refine .get_bind fun r r' hr => ?_
  rw [hr.mode]
  refine Run.onWorkspace_upkept ?_
  have hscore : Maintains R (fun _ => True)
      (if r.mode.isAsserted then Workspace.checkedScore s!"after construction step {stepIndex}"
        else Workspace.scoreNow)
      (if r.mode.isAsserted then Workspace.checkedScore s!"after construction step {stepIndex}"
        else Workspace.scoreNow) := .ite (h.checkedScore _) h.scoreNow
  cases m? with
  | none => exact hscore
  | some m => exact .bind (.modify fun _ _ => h.apply (hm m rfl)) fun _ _ => hscore

theorem step_upkept (h : Linked fine good R) {place : Placement}
    (hplace : Places (Slot.Known good) ds place) (last : Score sh) :
    Maintains (Stepping fine good R ds) (fun _ => True)
      (step place last : Action (Construction S V sh × Scope W S sh) _) (step place last) := by
  have hfire : ∀ (e : Event) (a : Score sh), Maintains (Stepping fine good R ds) (fun _ => True)
      (fire e a : Action (Construction S V sh × Scope W S sh) Unit) (fire e a) := fun e a _ _ hst =>
    .ok trivial (fired_upkept h (fun _ hp => hp.hear e) a hst)
  refine .bind (hfire _ _) fun _ _ => .bind (choose_upkept h hplace last) fun m? hm => ?_
  refine .get_bind fun s t hst => ?_
  rw [hst.span_eq]
  refine .bind (onRun_upkept (commit_upkept h hm _)) fun a _ => ?_
  refine .bind (onScope_upkept (Scope.completeStep_upkept h)) fun _ _ => ?_
  exact .bind (hfire _ _) fun _ _ => .pure trivial

theorem steps_upkept (h : Linked fine good R) {places : List Placement}
    (hplaces : ∀ place ∈ places, Places (Slot.Known good) ds place) (last : Score sh) :
    Maintains (Stepping fine good R ds) (fun _ => True)
      (steps places last : Action (Construction S V sh × Scope W S sh) _) (steps places last) := by
  induction places generalizing last with
  | nil => exact .pure trivial
  | cons place rest ih =>
    obtain ⟨hplace, hrest⟩ := List.forall_mem_cons.1 hplaces
    rw [steps, steps]
    refine .get_bind fun s t hst => ?_
    dsimp only
    rw [hst.isTerminated, hst.phase_eq]
    refine .ite (.pure trivial) ?_
    exact .bind (step_upkept h hplace last) fun a _ => ih hrest a

theorem work_upkept (h : Linked fine good R) :
    Maintains (Phase.Upkept (Suits fine good) R good) (fun _ => True)
      (work : Action (Construction S V sh × Scope W S sh) Outcome) work := by
  refine .bind (mapRun_upkept fun _ _ hr => hr.restartWorkspace h) fun _ _ => ?_
  refine .bind (onRun_upkept (Run.scoreNow_upkept h)) fun start _ => ?_
  refine .bind (mapScope_upkept fun _ _ ⟨hr⟩ => .intro hr) fun _ _ s t hst => ?_
  -- From here on the values at hand were listed on good plans.
  have hstepping : Stepping fine good R s.1.definitions (fired .phaseStarted start s)
      (fired .phaseStarted start t) := by
    obtain ⟨hp, hr⟩ := hst
    exact .intro (stocked_hear hp rfl) (hr.event h _ _ _ _)
  have hplaces : ∀ place ∈ (fired .phaseStarted start s).1.placements
      (fired .phaseStarted start s).2.run.plan, Places (Slot.Known good) s.1.definitions place := by
    have hover : (fired .phaseStarted start s).1.Over fun _ : Variable S V => True :=
      fun _ _ => trivial
    intro place hplace
    rw [← hstepping.phase.definitions]
    exact places hover (fun _ _ e he => ⟨_, hstepping.run.goodPlan h, he⟩) place hplace
  rw [fire_bind, fire_bind, Step.get_bind, Step.get_bind]
  have hsuits : ∀ u v, Stepping fine good R s.1.definitions u v →
      Phase.Upkept (Suits fine good) R good u v := fun _ _ huv => huv.imp fun _ hp => hp.suits
  have hsteps := steps_upkept h hplaces start _ _ hstepping
  dsimp only
  rw [hstepping.phase_eq, hstepping.run.plan h]
  refine hsteps.bind (fun x u v _ huv => ?_) hsuits
  refine (onScope_upkept (Scope.updateBest_upkept h) u v huv).bind (fun _ u v _ huv => ?_) hsuits
  rw [fire_bind, fire_bind]
  exact .ok trivial (fired_upkept h (fun _ hp => hp.suits.hear _) _ huv)

end Construction

/-! ## Phases -/

/-- The phases are the same and within `C`, and the runs differ in their workspaces only. -/
inductive SearchPhase.Upkept (C : P → Prop) (R : W → W' → Prop) (good : S → Prop) :
    P × Run W S sh → P × Run W' S sh → Prop
  | intro {p : P} {r : Run W S sh} {r' : Run W' S sh} (phase : C p) (run : r.Upkept R good r') :
    Upkept C R good (p, r) (p, r')

omit [Plan S sh] [Workspace W S sh] [Workspace W' S sh] in
/-- What is kept within a span is kept of the phase and the run. -/
theorem inSpan_upkept {C : P → Prop} {Q : α → Prop} {x : Action (P × Scope W S sh) α}
    {y : Action (P × Scope W' S sh) α} (hxy : Maintains (Phase.Upkept C R good) Q x y)
    (span : Span sh) :
    Maintains (SearchPhase.Upkept C R good) Q (inSpan span x) (inSpan span y) := by
  rintro _ _ ⟨hp, hr⟩
  have hstep := hxy (_, ⟨span, _⟩) (_, ⟨span, _⟩) (.intro hp hr)
  unfold inSpan
  dsimp only
  generalize x _ = u at hstep
  generalize y _ = v at hstep
  cases hstep with
  | ok ha h =>
    obtain ⟨hp, hr⟩ := h
    exact .ok ha (.intro hp hr)
  | error h =>
    obtain ⟨hp, hr⟩ := h
    exact .error (.intro hp hr)

namespace SearchPhase

/-- The leaves that the phase proposes on good plans are `fine`. -/
def Suits (fine : Leaf S V → Prop) (good : S → Prop) : SearchPhase S V sh → Prop
  | construction p => p.Suits fine good
  | localSearch p => p.Suits fine good

omit [Workspace W S sh] [Workspace W' S sh] in
theorem Suits.hear {p : SearchPhase S V sh} (h : p.Suits fine good) (e : Event) (plan : S)
    (a : Option (Score sh)) : (p.hear e plan a).Suits fine good := by
  cases p with
  | construction p => exact Construction.Suits.hear h e
  | localSearch p => exact h

omit [Plan S sh] [Workspace W S sh] [Workspace W' S sh] in
/-- What phases of one kind maintain, they maintain as phases. -/
theorem wrap_upkept {A : Type} {C : A → Prop} {C' : SearchPhase S V sh → Prop} {Q : α → Prop}
    {f : A → SearchPhase S V sh} {x : EStateM.Result Failure (A × Run W S sh) α}
    {y : EStateM.Result Failure (A × Run W' S sh) α} (hf : ∀ p, C p → C' (f p))
    (hxy : InStep (Upkept C R good) Q x y) :
    InStep (Upkept C' R good) Q (wrap f x) (wrap f y) := by
  cases hxy with
  | ok ha h =>
    obtain ⟨hp, hr⟩ := h
    exact .ok ha (.intro (hf _ hp) hr)
  | error h =>
    obtain ⟨hp, hr⟩ := h
    exact .error (.intro (hf _ hp) hr)

variable [DecidableEq V] [ToString V]

theorem solve_upkept (h : Linked fine good R) (fuel : Nat) :
    Maintains (Upkept (Suits fine good) R good) (fun _ => True)
      (solve fuel : Action (SearchPhase S V sh × Run W S sh) Outcome) (solve fuel) := by
  rintro _ _ ⟨hp, hr⟩
  rename_i p r r'
  have hindex : r'.beginPhase.1 = r.beginPhase.1 := hr.phases
  have hbegin := hr.beginPhase
  cases p with
  | construction p =>
    refine wrap_upkept (C := Construction.Suits fine good) (fun _ => id) ?_
    unfold Construction.solve
    dsimp only
    rw [hindex]
    split
    · exact .error (.intro hp hr)
    · exact inSpan_upkept (Construction.work_upkept h) _ _ _ (.intro hp hbegin)
  | localSearch p =>
    refine wrap_upkept (C := LocalSearch.Suits fine good) (fun _ => id) ?_
    unfold LocalSearch.solve
    dsimp only
    rw [hindex, hr.termination]
    split
    · exact .error (.intro hp hr)
    · split
      · exact .error (.intro hp hr)
      · exact inSpan_upkept (LocalSearch.work_upkept h fuel) _ _ _ (.intro hp hbegin)

end SearchPhase

section

variable {C : P → Prop} {f : Action (P × Run W S sh) Unit} {g : Action (P × Run W' S sh) Unit}

omit [Plan S sh] [Workspace W S sh] [Workspace W' S sh] in
theorem forEachPhase_upkept
    (hfg : Maintains (SearchPhase.Upkept C R good) (fun _ => True) f g) :
    Maintains (SearchPhase.Upkept (fun ps => ∀ p ∈ ps, C p) R good) (fun _ => True)
      (forEachPhase f) (forEachPhase g) := by
  rintro _ _ ⟨hps, hr⟩
  rename_i ps r r'
  induction ps generalizing r r' with
  | nil =>
    rw [forEachPhase, forEachPhase]
    exact .ok trivial (.intro hps hr)
  | cons p ps ih =>
    obtain ⟨hp, hrest⟩ := List.forall_mem_cons.1 hps
    have hfirst := hfg _ _ (.intro hp hr)
    rw [forEachPhase, forEachPhase]
    generalize f (p, r) = x at hfirst ⊢
    generalize g (p, r') = y at hfirst ⊢
    cases hfirst with
    | error h =>
      obtain ⟨hp, hr⟩ := h
      exact .error (.intro (List.forall_mem_cons.2 ⟨hp, hrest⟩) hr)
    | ok _ h =>
      obtain ⟨hp, hr⟩ := h
      rename_i p₁ r₁ r₁'
      have hlater := ih hrest hr
      dsimp only
      generalize forEachPhase f (ps, r₁) = x at hlater ⊢
      generalize forEachPhase g (ps, r₁') = y at hlater ⊢
      cases hlater with
      | error h =>
        obtain ⟨hps, hr⟩ := h
        exact .error (.intro (List.forall_mem_cons.2 ⟨hp, hps⟩) hr)
      | ok _ h =>
        obtain ⟨hps, hr⟩ := h
        exact .ok trivial (.intro (List.forall_mem_cons.2 ⟨hp, hps⟩) hr)

omit [Plan S sh] [Workspace W S sh] [Workspace W' S sh] in
theorem forEachPhaseBackward_upkept
    (hfg : Maintains (SearchPhase.Upkept C R good) (fun _ => True) f g) :
    Maintains (SearchPhase.Upkept (fun ps => ∀ p ∈ ps, C p) R good) (fun _ => True)
      (forEachPhaseBackward f) (forEachPhaseBackward g) := by
  rintro _ _ ⟨hps, hr⟩
  rename_i ps r r'
  induction ps generalizing r r' with
  | nil =>
    rw [forEachPhaseBackward, forEachPhaseBackward]
    exact .ok trivial (.intro hps hr)
  | cons p ps ih =>
    obtain ⟨hp, hrest⟩ := List.forall_mem_cons.1 hps
    have hlater := ih hrest hr
    rw [forEachPhaseBackward, forEachPhaseBackward]
    generalize forEachPhaseBackward f (ps, r) = x at hlater ⊢
    generalize forEachPhaseBackward g (ps, r') = y at hlater ⊢
    cases hlater with
    | error h =>
      obtain ⟨hps, hr⟩ := h
      exact .error (.intro (List.forall_mem_cons.2 ⟨hp, hps⟩) hr)
    | ok _ h =>
      obtain ⟨hps, hr⟩ := h
      rename_i ps₁ r₁ r₁'
      have hfirst := hfg _ _ (.intro hp hr)
      dsimp only
      generalize f (p, r₁) = x at hfirst ⊢
      generalize g (p, r₁') = y at hfirst ⊢
      cases hfirst with
      | error h =>
        obtain ⟨hp, hr⟩ := h
        exact .error (.intro (List.forall_mem_cons.2 ⟨hp, hps⟩) hr)
      | ok _ h =>
        obtain ⟨hp, hr⟩ := h
        exact .ok trivial (.intro (List.forall_mem_cons.2 ⟨hp, hps⟩) hr)

end

/-! ## Solvers -/

namespace Solver

theorem conclude_upkept (h : Linked fine good R) :
    Maintains (Run.Upkept R good) (fun x => good x.plan)
      (conclude : Action (Run W S sh) (Solved S sh)) conclude := by
  have hanswer : Maintains (Run.Upkept R good) (fun x => good x.plan)
      (answering : Action (Run W S sh) (Solved S sh)) answering := by
    have hrest : ∀ a : Score sh, Maintains (Run.Upkept R good) (fun x => good x.plan)
        (answeringWith a : Action (Run W S sh) (Solved S sh)) (answeringWith a) := fun a =>
      .get_bind fun r r' hr => by
        rw [hr.result h]
        exact .pure (h.setScore _ (hr.goodResult h))
    refine .get_bind fun r r' hr => ?_
    dsimp only
    rw [hr.bestScore]
    split
    · exact .bind (Q := fun _ => True) (.pure trivial) fun a _ => hrest a
    · exact .bind (Run.scoreNow_upkept h) fun a _ => hrest a
  intro r r' hr
  rw [conclude_eq, conclude_eq, hr.best_eq]
  split
  · exact Maintains.bind (Run.updateBest_upkept h) (fun _ _ => hanswer) r r' hr
  · exact hanswer r r' hr

/-- The same phases, whose leaves are `fine`, and runs that differ in their workspaces only. -/
abbrev Upkept (fine : Leaf S V → Prop) (good : S → Prop) (R : W → W' → Prop) :
    List (SearchPhase S V sh) × Run W S sh → List (SearchPhase S V sh) × Run W' S sh → Prop :=
  SearchPhase.Upkept (fun ps => ∀ p ∈ ps, p.Suits fine good) R good

theorem announce_upkept (h : Linked fine good R) (e : Event) :
    Maintains (Upkept fine good R) (fun _ => True)
      (announce e : Action (List (SearchPhase S V sh) × Run W S sh) Unit) (announce e) := by
  refine .modify ?_
  rintro _ _ ⟨hps, hr⟩
  dsimp only
  rw [hr.bestScore]
  exact .intro hps (hr.event h _ _ _ _)

variable [DecidableEq V] [ToString V]

theorem checkPhase_upkept :
    Maintains (SearchPhase.Upkept (SearchPhase.Suits fine good) R good) (fun _ => True)
      (checkPhase : Action (SearchPhase S V sh × Run W S sh) Unit) checkPhase := by
  refine .bind (Q := fun _ => True) ?_ fun _ _ => .get_bind ?_
  · rintro _ _ ⟨hp, hr⟩
    rename_i p r r'
    cases hvalid : p.validate with
    | ok =>
      rw [p.validate_ok hvalid, p.validate_ok hvalid]
      exact .ok trivial (.intro hp hr)
    | error e =>
      rw [p.validate_failed hvalid, p.validate_failed hvalid]
      exact .error (.intro hp hr)
  · rintro _ _ ⟨hp, hr⟩
    rename_i p r r'
    dsimp only
    rw [hr.termination]
    split
    · refine .bind (Q := fun _ => True) ?_ fun _ _ => ?_
      · rintro _ _ ⟨hp, hr⟩
        exact .ok trivial (.intro hp hr)
      · exact .ite (.throw _) (.pure trivial)
    · exact .pure trivial

theorem solvePhase_upkept (h : Linked fine good R) (fuel : Nat) :
    Maintains (SearchPhase.Upkept (SearchPhase.Suits fine good) R good) (fun _ => True)
      (solvePhase fuel : Action (SearchPhase S V sh × Run W S sh) Unit) (solvePhase fuel) := by
  refine .get_bind ?_
  rintro _ _ ⟨-, hr⟩
  dsimp only
  rw [hr.isTerminated]
  exact .ite (.bind (SearchPhase.solve_upkept h fuel) fun _ _ => .pure trivial) (.pure trivial)

omit [DecidableEq V] [ToString V] in
/-- Each phase hears of the start or the end of solving. -/
theorem hear_upkept (h : Linked fine good R) (e : Event) {f : Run W S sh → Option (Score sh)}
    {g : Run W' S sh → Option (Score sh)} (hfg : ∀ r r', r.Upkept R good r' → g r' = f r) :
    Maintains (SearchPhase.Upkept (SearchPhase.Suits fine good) R good) (fun _ => True)
      (modify fun (p, r) => (p.hear e r.plan (f r), r) :
        Action (SearchPhase S V sh × Run W S sh) Unit)
      (modify fun (p, r) => (p.hear e r.plan (g r), r)) := by
  refine .modify ?_
  rintro _ _ ⟨hp, hr⟩
  dsimp only
  rw [hr.plan h, hfg _ _ hr]
  exact .intro (hp.hear _ _ _) hr

theorem attempt_upkept {I : σ → τ → Prop} {x : Action σ Unit} {y : Action τ Unit}
    (hxy : Maintains I (fun _ => True) x y) :
    Maintains I (fun _ => True) (attempt x) (attempt y) := fun s t hst => by
  have hstep := hxy s t hst
  unfold attempt
  generalize x s = u at hstep
  generalize y t = v at hstep
  cases hstep with
  | ok _ h => exact .ok trivial h
  | @error f _ _ h =>
    cases f with
    | error e => exact .ok trivial h
    | fault f => exact .error h
    | outOfFuel => exact .error h

theorem work_upkept (h : Linked fine good R) (fuel : Nat) :
    Maintains (Upkept fine good R) (fun x => good x.plan)
      (work fuel : Action (List (SearchPhase S V sh) × Run W S sh) (Solved S sh)) (work fuel) := by
  refine .get_bind ?_
  rintro _ _ ⟨hps, hr⟩
  dsimp only
  split
  · exact .bind (Q := fun _ => False) (.throw _) fun _ h => h.elim
  refine .bind (forEachPhase_upkept checkPhase_upkept) fun _ _ => .bind (.modify ?_) fun _ _ => ?_
  · rintro _ _ ⟨hps, hr⟩
    exact .intro hps hr.start
  refine .bind (announce_upkept h _) fun _ _ => ?_
  refine .bind (forEachPhase_upkept (hear_upkept h .solvingStarted fun _ _ _ => rfl)) fun _ _ => ?_
  refine .bind (attempt_upkept (forEachPhase_upkept (solvePhase_upkept h fuel))) fun failure _ => ?_
  refine .bind (forEachPhaseBackward_upkept
    (hear_upkept h .solvingEnded fun _ _ hr => hr.bestScore)) fun _ _ => ?_
  refine .bind (announce_upkept h _) fun _ _ => ?_
  cases failure with
  | some e => exact .throw _
  | none =>
    refine (conclude_upkept h).onPart ?_ ?_
    · rintro _ _ ⟨-, hr⟩
      exact hr
    · rintro _ _ _ _ ⟨hps, -⟩ hr
      exact .intro hps hr

variable {solver : Solver (SearchPhase S V sh) S sh}

/-- Solves on linked workspaces go the same way, and answer a good plan if they answer one. -/
theorem solve_linked (h : Linked fine good R) (fuel : Nat)
    (hsolver : ∀ p ∈ solver.phases, p.Suits fine good) {w : W} {v : W'} (hwv : R w v) :
    InStep (Upkept fine good R) (fun x => good x.plan) (solver.solve fuel w)
      (solver.solve fuel v) :=
  work_upkept h fuel _ _ (.intro hsolver (.intro (r := solver.newRun w) hwv nofun nofun))

omit [Workspace W' S sh] in
/-- A solve that begins with a good plan tells of good plans only and answers one. -/
theorem solve_sound [Workspace.Lawful W] (hu : Upkeep sh fine good) (fuel : Nat)
    (hsolver : ∀ p ∈ solver.phases, p.Suits fine good) {w : W} (hw : good (Workspace.plan w)) :
    Finishes (fun x t => good x.plan ∧ t.2.Sound good) (fun _ t => t.2.Sound good)
      (solver.solve fuel w) := by
  have hsound : ∀ {s t : List (SearchPhase S V sh) × Run W S sh},
      Upkept fine good (Workspace.Good good) s t → s.2.Sound good := by
    rintro _ _ ⟨-, hr⟩
    exact hr.sound hu.linked
  have hstep := solve_linked (w := w) (v := w) hu.linked fuel hsolver ⟨rfl, hw⟩
  generalize solver.solve fuel w = x at hstep
  cases hstep with
  | ok hx h => exact .ok ⟨hx, hsound h⟩
  | error h => exact .error (hsound h)

end Solver

end PlanSearch
