import PlanSearch.Phase.Construction
import PlanSearch.Proofs.Lifecycle.Leaves
import PlanSearch.Proofs.Mirror.Ends
import PlanSearch.Proofs.Search.Gather

/-!
# What tells nobody of events

Between the boundaries of its scopes a phase draws, scores and considers candidates, makes moves and
updates the best plan. None of that reaches the leaves of the phase or tells listeners of an event,
no matter whether it succeeds or fails in the middle.

    Overlooks view → Keeps view (forage fuel last)              (LocalSearch.Overlooks.forage_keeps)
    Keeps heard (choose place last)                                      (Construction.choose_keeps)
-/

namespace PlanSearch

variable {σ τ α β γ δ P : Type}

/-! ## How computations end -/

/-- A computation ends with an answer and a state within `Q`, or with a failure and a state within
`E`. -/
inductive Finishes (Q : α → σ → Prop) (E : Failure → σ → Prop) : EStateM.Result Failure σ α → Prop
  | ok {a : α} {s : σ} (h : Q a s) : Finishes Q E (.ok a s)
  | error {f : Failure} {s : σ} (h : E f s) : Finishes Q E (.error f s)

namespace Finishes

variable {Q Q' : α → σ → Prop} {E E' : Failure → σ → Prop} {R : β → σ → Prop}

theorem mono {x : EStateM.Result Failure σ α} (h : Finishes Q E x) (hQ : ∀ a s, Q a s → Q' a s)
    (hE : ∀ f s, E f s → E' f s) : Finishes Q' E' x := by
  cases h with
  | ok h => exact .ok (hQ _ _ h)
  | error h => exact .error (hE _ _ h)

/-- What is known otherwise of an answer may be added. -/
theorem and {x : EStateM.Result Failure σ α} (h : Finishes Q E x)
    (h' : ∀ a s, x = .ok a s → Q' a s) : Finishes (fun a s => Q a s ∧ Q' a s) E x := by
  cases h with
  | ok h => exact .ok ⟨h, h' _ _ rfl⟩
  | error h => exact .error h

theorem bind {x : Action σ α} {g : α → Action σ β} {s : σ} (h : Finishes Q E (x s))
    (hg : ∀ a t, Q a t → Finishes R E (g a t)) : Finishes R E ((x >>= g) s) := by
  show Finishes R E (EStateM.bind x g s)
  unfold EStateM.bind
  generalize x s = r at h
  cases h with
  | ok h => exact hg _ _ h
  | error h => exact .error h

/-- An action on a part of the state. -/
theorem onPart {Q : α → τ → Prop} {E : Failure → τ → Prop} (get : σ → τ) (set : τ → σ → σ)
    {x : Action τ α} {s : σ} (h : Finishes Q E (x (get s))) :
    Finishes (fun a t => ∃ u, Q a u ∧ t = set u s) (fun f t => ∃ u, E f u ∧ t = set u s)
      (Action.onPart get set x s) := by
  unfold Action.onPart
  generalize x (get s) = r at h
  cases h with
  | ok h => exact .ok ⟨_, h, rfl⟩
  | error h => exact .error ⟨_, h, rfl⟩

end Finishes

/-- However the action ends, it leaves what `view` sees of the state as it was. -/
def Keeps (view : σ → γ) (x : Action σ α) : Prop :=
  ∀ s, Finishes (fun _ t => view t = view s) (fun _ t => view t = view s) (x s)

namespace Keeps

variable {view : σ → γ} {x : Action σ α}

theorem pure (a : α) : Keeps view (pure a : Action σ α) := fun _ => .ok rfl

theorem throw (f : Failure) : Keeps view (throw f : Action σ α) := fun _ => .error rfl

theorem get : Keeps view (get : Action σ σ) := fun _ => .ok rfl

theorem modify {f : σ → σ} (h : ∀ s, view (f s) = view s) :
    Keeps view (modify f : Action σ PUnit) := fun s => .ok (h s)

theorem bind {g : α → Action σ β} (hx : Keeps view x) (hg : ∀ a, Keeps view (g a)) :
    Keeps view (x >>= g) := fun s =>
  (hx s).bind fun a t ht =>
    (hg a t).mono (fun _ _ hu => hu.trans ht) fun _ _ hu => hu.trans ht

theorem ite {c : Prop} [Decidable c] {y : Action σ α} (hx : Keeps view x) (hy : Keeps view y) :
    Keeps view (if c then x else y) := by
  split
  · exact hx
  · exact hy

theorem onPart (part : τ → δ) {get : σ → τ} {set : τ → σ → σ} {x : Action τ α}
    (hx : Keeps part x) (h : ∀ t s, part t = part (get s) → view (set t s) = view s) :
    Keeps view (Action.onPart get set x) := fun s => by
  refine (Finishes.onPart get set (hx (get s))).mono (fun a t ht => ?_) fun f t ht => ?_
  · obtain ⟨u, hu, rfl⟩ := ht
    exact h u s hu
  · obtain ⟨u, hu, rfl⟩ := ht
    exact h u s hu

theorem ofExcept (y : Except Failure α) : Keeps view (ofExcept y : Action σ α) := by
  cases y with
  | error f => exact throw f
  | ok a => exact pure a

end Keeps

/-! ## Runs and scopes -/

variable {S V W : Type} {sh : Shape}

/-- The events that listeners were told of, newest first, with the phase that was named. -/
def boundaries (trace : List (Notice S sh)) : List (Event × Nat) :=
  trace.filterMap fun
    | .event e c => some (e, c.phaseIndex)
    | .improved _ _ => none

/-- What a run told of events and counted. -/
structure Told where
  boundaries : List (Event × Nat)
  steps : Nat
  phases : Nat

/-- What is known of events within a phase. -/
structure Heard where
  leaves : List Tracker
  /-- The index of the phase. -/
  index : Nat
  told : Told

def Run.told (r : Run W S sh) : Told := ⟨boundaries r.trace, r.steps, r.phases⟩

/-- What is known of events in a phase whose leaves have the trackers `leaves`. -/
def heard (leaves : P → List Tracker) (s : P × Scope W S sh) : Heard :=
  ⟨leaves s.1, s.2.span.index, s.2.run.told⟩

variable {leaves : P → List Tracker}

theorem heard_congr {s t : P × Scope W S sh} (hleaves : leaves t.1 = leaves s.1)
    (hindex : t.2.span.index = s.2.span.index) (htold : t.2.run.told = s.2.run.told) :
    heard leaves t = heard leaves s := by
  unfold heard
  rw [hleaves, hindex, htold]

theorem Run.onWorkspace_keeps (x : Action W α) :
    Keeps (told : Run W S sh → Told) (onWorkspace x) := fun r => by
  unfold onWorkspace
  split
  · exact .ok rfl
  · exact .error rfl

theorem onRun_keeps {x : Action (Run W S sh) α} (h : Keeps Run.told x) :
    Keeps (heard leaves) (onScope (Scope.onRun x)) :=
  Keeps.onPart (fun sc : Scope W S sh => (sc.span.index, sc.run.told))
    (Keeps.onPart Run.told h fun _ sc hr => congrArg (sc.span.index, ·) hr) fun _ _ hsc =>
      heard_congr rfl (congrArg Prod.fst hsc) (congrArg Prod.snd hsc)

section

variable [Workspace W S sh]

/-- What may go wrong when the score of a plan is asked for is no broken promise. -/
theorem Run.scoreNow_told (r : Run W S sh) :
    Finishes (fun _ r' => r'.told = r.told)
      (fun f r' => r'.told = r.told ∧ ∀ e, f ≠ .error e) (scoreNow r) := by
  unfold scoreNow onWorkspace Workspace.scoreNow
  cases Workspace.score r.workspace with
  | ok a w => exact .ok rfl
  | error f w => exact .error ⟨rfl, nofun⟩

variable [Plan S sh]

theorem Run.updateBest_told (r : Run W S sh) :
    Finishes (fun _ r' => r'.told = r.told)
      (fun f r' => r'.told = r.told ∧ ∀ e, f ≠ .error e) (updateBest r) := by
  unfold updateBest
  refine (scoreNow_told r).bind fun a r' h => ?_
  rw [Step.get_bind]
  dsimp only
  split
  · rw [Step.set_bind]
    exact .ok h
  · exact .ok h

theorem Scope.updateBest_told (sc : Scope W S sh) :
    Finishes (fun _ sc' => sc'.span.index = sc.span.index ∧ sc'.run.told = sc.run.told)
      (fun f sc' => (sc'.span.index = sc.span.index ∧ sc'.run.told = sc.run.told) ∧
        ∀ e, f ≠ .error e) (updateBest sc) := by
  unfold updateBest
  have hrun := Finishes.onPart Scope.run (fun run sc => { sc with run }) (s := sc)
    (Run.updateBest_told sc.run)
  refine (hrun.mono (fun _ _ h => h) fun f sc' h => ?_).bind fun improved sc' h => ?_
  · obtain ⟨r, ⟨hr, hf⟩, rfl⟩ := h
    exact ⟨⟨rfl, hr⟩, hf⟩
  · obtain ⟨r, hr, rfl⟩ := h
    dsimp only
    split
    · rw [Step.modify_bind]
      exact .ok ⟨rfl, hr⟩
    · exact .ok ⟨rfl, hr⟩

end

/-! ## Local searches -/

namespace LocalSearch

/-- What is known of events in a search. -/
abbrev heard : Searching W S V sh → Heard :=
  PlanSearch.heard fun p => p.neighbourhood.trackers

/-- What `view` sees of a search is no matter of the candidates that are drawn, scored and
considered; foragers may hold what they like. -/
structure Overlooks [Plan S sh] [Workspace W S sh] (view : Searching W S V sh → γ) : Prop where
  drawn : ∀ s, view (drawn s) = view s
  record : ∀ s f, view (s.1, s.2.mapRun (Run.record f)) = view s
  workspace : ∀ s w, view (s.1, { s.2 with run := { s.2.run with workspace := w } }) = view s
  forager : ∀ s forager arena, forager.clear = s.1.forager.clear →
    view ({ s.1 with forager, arena }, s.2) = view s
  source : ∀ s source, view (s.1, s.2.mapRun fun r => { r with source }) = view s

section

variable [Workspace W S sh]

variable [Plan S sh]

theorem overlooks_heard : Overlooks (heard : Searching W S V sh → _) where
  drawn s := heard_congr (s.1.neighbourhood.trackers_next s.2.run.plan s.2.run.source) rfl rfl
  record _ _ := rfl
  workspace _ _ := rfl
  forager _ _ _ _ := rfl
  source _ _ := rfl

namespace Overlooks

variable {view : Searching W S V sh → γ} (h : Overlooks view)

include h

theorem draw_keeps : Keeps view draw := fun s => by
  rw [draw_eq]
  exact .ok (h.drawn s)

theorem record_keeps (f : Stats → Stats) : Keeps view (LocalSearch.record f) :=
  .modify fun s => h.record s f

theorem onWorkspace_keeps (x : Action W α) :
    Keeps view (onScope (Scope.onRun (Run.onWorkspace x))) := fun s => by
  unfold onScope Scope.onRun Action.onPart Run.onWorkspace
  cases x s.2.run.workspace with
  | ok a w => exact .ok (h.workspace s w)
  | error f w => exact .error (h.workspace s w)

theorem commit_keeps [ToString V] (m : Move S V) (stepIndex : Nat) :
    Keeps view (onScope (Scope.onRun (commit m stepIndex))) := fun s =>
  h.onWorkspace_keeps _ s

theorem consider_keeps (last : Score sh) (m : Move S V) (a : Score sh) (d : Draws) :
    Keeps view (consider last m a d) := fun s => by
  rw [consider_eq]
  refine .ok ?_
  unfold considered
  dsimp only
  split
  · exact (h.record ({ s.1 with forager := _, arena := _ }, s.2) _).trans
      (h.forager s _ _ (s.1.forager.clear_add _))
  · exact h.record s _

theorem considerEach_keeps (last : Score sh) (qs : List (Move S V × Except SolverError (Score sh)))
    (d : Draws) : Keeps view (considerEach last qs d) := by
  induction qs generalizing d with
  | nil => exact .pure _
  | cons q qs ih =>
    obtain ⟨m, e | a⟩ := q
    · exact .throw _
    · rw [considerEach]
      refine .bind (h.consider_keeps last m a d) fun d' => .bind .get fun s => ?_
      exact .ite (.pure _) (ih _)

theorem takeWinner_keeps : Keeps view takeWinner := fun s => by
  unfold takeWinner
  exact .ok ((h.source ({ s.1 with forager := _, arena := _ }, s.2) _).trans
    (h.forager s _ _ (s.1.forager.clear_pick s.2.run.source)))

variable [DecidableEq V]

omit h in
theorem isDoable_keeps (m : Move S V) : Keeps view (isDoable m) :=
  .bind .get fun _ => .pure _

theorem drawBatch_keeps (fuel k : Nat) (d : Draws) : Keeps view (drawBatch fuel k d) := by
  induction fuel generalizing k d with
  | zero => exact .throw _
  | succ fuel ih =>
    cases k with
    | zero => exact .pure _
    | succ k =>
      rw [drawBatch]
      refine .bind .get fun s => .ite (.pure _) (.bind h.draw_keeps fun m? => ?_)
      cases m? with
      | none => exact .pure _
      | some m =>
        refine .bind (isDoable_keeps m) fun doable => .ite ?_ ?_
        · exact .bind (ih k _) fun _ => .pure _
        · exact .bind (h.record_keeps _) fun _ => ih _ _

variable [ToString V]

theorem collect_keeps (last : Score sh) (fuel : Nat) (d : Draws) :
    Keeps view (collect last fuel d) := by
  induction fuel generalizing d with
  | zero => exact .throw _
  | succ fuel ih =>
    rw [collect]
    refine .bind .get fun s => .ite (.pure _) (.bind h.draw_keeps fun m? => ?_)
    cases m? with
    | none => exact .pure _
    | some m =>
      refine .bind (isDoable_keeps m) fun doable => .ite ?_ ?_
      · exact .bind (h.record_keeps _) fun _ => ih _
      · refine .bind .get fun s => .bind (h.onWorkspace_keeps _) fun a => ?_
        refine .bind (h.consider_keeps last m a _) fun d' => .bind .get fun s => ?_
        exact .ite (.pure _) (ih _)

theorem collectBatches_keeps (threads size : Nat) (last : Score sh) (fuel : Nat) (d : Draws) :
    Keeps view (collectBatches threads size last fuel d) := by
  induction fuel generalizing d with
  | zero => exact .throw _
  | succ fuel ih =>
    rw [collectBatches]
    refine .bind .get fun s => .ite (.pure _) (.bind (h.drawBatch_keeps _ _ _) fun q => ?_)
    refine .bind .get fun s => .bind (.ofExcept _) fun scores => ?_
    refine .bind (h.considerEach_keeps last _ _) fun q => ?_
    exact .ite (.pure _) (ih _)

theorem gather_keeps (fuel : Nat) (last : Score sh) : Keeps view (gather fuel last) := fun s => by
  unfold gather
  split
  · exact h.collect_keeps last fuel {} s
  · exact h.collectBatches_keeps _ _ last fuel {} s

theorem forage_keeps (fuel : Nat) (last : Score sh) : Keeps view (forage fuel last) := fun s => by
  rw [forage_eq]
  exact Keeps.bind (h.gather_keeps fuel last) (fun _ => h.takeWinner_keeps) s

end Overlooks

end

end LocalSearch

/-! ## Constructions -/

namespace Construction

/-- The trackers of the values of each placer. -/
def trackers (p : Construction S V sh) : List Tracker := p.placers.map fun q => q.values.tracker

/-- What is known of events in a construction. -/
abbrev heard : Construction S V sh × Scope W S sh → Heard :=
  PlanSearch.heard trackers

theorem trackers_hear (p : Construction S V sh) (e : Event) :
    (p.hear e).trackers = p.trackers.map (·.record e) := by
  unfold trackers hear Placer.hear
  rw [List.map_map, List.map_map]
  exact List.map_congr_left fun q _ => q.values.tracker_hear e

/-- A placer that starts anew keeps its tracker. -/
theorem trackers_set {p : Construction S V sh} {i : Nat} {placer : Placer S V}
    (h : p.placers[i]? = some placer) {values : ValueWalk V}
    (hvalues : values.tracker = placer.values.tracker) :
    trackers { p with placers := p.placers.set i { placer with values } } = p.trackers := by
  show (p.placers.set i _).map _ = p.placers.map _
  obtain ⟨hi, rfl⟩ := List.getElem?_eq_some_iff.1 h
  have hset : (p.placers.map fun q => q.values.tracker).set i values.tracker =
      p.placers.map fun q => q.values.tracker := by
    rw [hvalues, ← List.getElem_map (fun q : Placer S V => q.values.tracker)
      (h := by rwa [List.length_map])]
    exact List.set_getElem_self _
  rw [List.map_set]
  exact hset

variable [Workspace W S sh]

theorem commit_keeps (m? : Option (Move S V)) (stepIndex : Nat) :
    Keeps (Run.told : Run W S sh → _) (commit m? stepIndex) :=
  .bind .get fun _ => Run.onWorkspace_keeps _

variable [Plan S sh] [DecidableEq V] [ToString V]

theorem tryValues_keeps (pickEarly : PickEarly) (cell : Variable S V) (entity : Nat)
    (last : Score sh) (vs : List (Option V)) (best : Option (Candidate S V sh)) :
    Keeps (Run.told : Run W S sh → _) (tryValues pickEarly cell entity last best vs) := by
  induction vs generalizing best with
  | nil => exact .pure _
  | cons v vs ih =>
    intro r
    rw [tryValues, Step.get_bind]
    dsimp only
    split
    · rw [Step.set_bind]
      exact ih best (r.record Stats.recordIllegal)
    · refine Keeps.bind (Run.onWorkspace_keeps _) (fun a => ?_) r
      refine .bind (.modify fun _ => rfl) fun _ => ?_
      exact .ite (.pure _) (ih _)

theorem choose_keeps (place : Placement) (last : Score sh) :
    Keeps (heard : Construction S V sh × Scope W S sh → _) (choose place last) := fun s => by
  obtain ⟨p, sc⟩ := s
  unfold choose
  rw [Step.get_bind]
  dsimp only
  cases hplacer : p.placers[place.placer]? with
  | none => exact .error rfl
  | some placer =>
    dsimp only
    have hvalues := placer.values.tracker_start sc.run.plan placer.definition .original place.entity
      sc.run.source
    unfold Placer.start
    generalize placer.values.start sc.run.plan placer.definition .original place.entity
      sc.run.source = q at hvalues ⊢
    obtain ⟨values, source⟩ := q
    dsimp only
    rw [Step.set_bind]
    have hset : heard (_, sc.mapRun fun r => { r with source }) = heard (p, sc) :=
      heard_congr (trackers_set hplacer hvalues) rfl rfl
    exact (onRun_keeps (tryValues_keeps _ _ _ last _ none) _).mono (fun _ _ h => h.trans hset)
      fun _ _ h => h.trans hset

end Construction

end PlanSearch
