import PlanSearch.Proofs.Mirror.Gather
import PlanSearch.Proofs.Neighbourhood.Respect
import PlanSearch.Proofs.Phase.Construction

/-!
# Constructions that mirror each other

One construction on two runs that mirror each other and hold the same plans makes the same steps on
both.

    s mirrors t → step place last s and step place last t end alike      (step_mirror)
    r mirrors r' → solve (p, r) and solve (p, r') end alike, with the same winners
                                                                         (solve_mirror)
-/

namespace PlanSearch

variable {S V W W' : Type} {sh : Shape} {M : Mode → Mode → Prop} {like : S → S → Prop}

/-! ## Placers -/

/-- What is placed, and the values for it, do not tell plans that are alike from each other. -/
structure Placer.Blind [Plan S sh] (like : S → S → Prop) (placer : Placer S V) : Prop where
  placements : ∀ p q, like p q → placer.placements p = placer.placements q
  choices : ∀ p q, like p q → placer.definition.choices p = placer.definition.choices q

theorem Placer.Blind.start_congr [Plan S sh] {placer : Placer S V} (h : placer.Blind like) {p q : S}
    (hpq : like p q) (entity : Nat) (s : Source) :
    placer.start p entity s = placer.start q entity s := by
  unfold Placer.start
  rw [ValueWalk.start_congr (h.choices p q hpq)]

namespace Construction

section

variable [Plan S sh] {p : Construction S V sh} {a b : S}

/-- The placers do not tell plans that are alike from each other. -/
def Blind (like : S → S → Prop) (p : Construction S V sh) : Prop :=
  ∀ placer ∈ p.placers, placer.Blind like

theorem blind_eq (p : Construction S V sh) : p.Blind fun p q => p = q := fun placer _ =>
  ⟨fun _ _ h => congrArg placer.placements h, fun _ _ h => congrArg placer.definition.choices h⟩

theorem Blind.hear (h : p.Blind like) (e : Event) : (p.hear e).Blind like := fun placer hplacer => by
  obtain ⟨placer', hplacer', rfl⟩ := List.mem_map.1 hplacer
  exact ⟨(h placer' hplacer').placements, (h placer' hplacer').choices⟩

/-- A placer that starts anew is still blind. -/
theorem Blind.set (h : p.Blind like) {i : Nat} {placer : Placer S V}
    (hplacer : p.placers[i]? = some placer) (values : ValueWalk V) :
    Blind like { p with placers := p.placers.set i { placer with values } } := fun placer' hmem => by
  have hblind := h placer (List.mem_of_getElem? hplacer)
  rcases List.mem_or_eq_of_mem_set hmem with hmem | rfl
  · exact h placer' hmem
  · exact ⟨hblind.placements, hblind.choices⟩

theorem Blind.placements_congr (h : p.Blind like) (hab : like a b) :
    p.placements a = p.placements b := by
  unfold placements
  refine congrArg List.flatten (List.map_congr_left fun x hx => ?_)
  obtain ⟨placer, i⟩ := x
  have hplacer := List.mem_of_getElem? (List.mem_zipIdx_iff_getElem?.1 hx)
  exact congrArg _ ((h placer hplacer).placements a b hab)

/-- One construction, which places the variables `ds` and does not tell plans that are alike from
each other. -/
structure Twins (ds : List (Definition S V)) (like : S → S → Prop) (p p' : Construction S V sh) :
    Prop where
  eq : p = p'
  definitions : p.definitions = ds
  blind : p.Blind like

end

/-- One construction of the variables `X` on runs that mirror each other. -/
structure Beside [Plan S sh] (M : Mode → Mode → Prop) (X : Variable S V → Prop)
    (like : S → S → Prop) (R : W → W' → Prop) (s : Construction S V sh × Run W S sh)
    (t : Construction S V sh × Run W' S sh) : Prop where
  eq : s.1 = t.1
  assigns : s.1.Over X
  blind : s.1.Blind like
  run : s.2.Mirror M like R t.2

/-- One construction that places the variables `ds`, on runs that mirror each other. -/
abbrev Mirrored [Plan S sh] (M : Mode → Mode → Prop) (like : S → S → Prop)
    (ds : List (Definition S V)) (R : W → W' → Prop) :
    Construction S V sh × Scope W S sh → Construction S V sh × Scope W' S sh → Prop :=
  Phase.Mirror (Twins ds like) M like R

variable [Plan S sh] {X : Variable S V → Prop} {ex : Excuse} {ok : Slot S V → Prop}
  {R : W → W' → Prop} {r : Run W S sh} {r' : Run W' S sh}
  {s : Construction S V sh × Scope W S sh} {t : Construction S V sh × Scope W' S sh}
  {last : Score sh} {place : Placement} {ds : List (Definition S V)}

theorem Mirrored.beside {p : Construction S V sh} (h : Mirrored M like p.definitions R s t)
    (hp : p.Over X) : Beside M X like R (s.1, s.2.run) (t.1, t.2.run) :=
  ⟨h.phase.eq, over_iff.2 (h.phase.definitions ▸ over_iff.1 hp), h.phase.blind, h.scope.run⟩

variable [Workspace W S sh] [Workspace W' S sh]

theorem Mirrored.fired (h : Mirrored M like ds R s t)
    (hM : Workspace.Mirrors M ex like X ok R) (e : Event) (a : Score sh) :
    Mirrored M like ds R (fired e a s) (fired e a t) where
  phase := ⟨congrArg (fun p => hear p e) h.phase.eq,
    (definitions_hear s.1 e).trans h.phase.definitions, h.phase.blind.hear e⟩
  scope := h.scope.announce hM e a

theorem opening_mirror (hM : Workspace.Mirrors M ex like X ok R)
    (h : Mirrored M like ds R s t) : Alike ex (Mirrored M like ds R) (opening s) (opening t) := by
  unfold opening
  rw [mapScope_bind, mapScope_bind]
  have h₀ : Mirrored M like ds R (s.1, s.2.mapRun Run.restartWorkspace)
      (t.1, t.2.mapRun Run.restartWorkspace) :=
    ⟨h.phase, h.scope.mapRun (h.scope.run.restartWorkspace hM)⟩
  refine Alike.bind (h₀.onRun (h₀.scope.run.scoreNow hM)) fun start s₁ t₁ h₁ => ?_
  rw [mapScope_bind, mapScope_bind]
  have hspan : s₁.2.span = t₁.2.span := h₁.scope.span
  have h₂ : Mirrored M like ds R
      (s₁.1, { s₁.2 with span := { s₁.2.span with startingScore := some start } })
      (t₁.1, { t₁.2 with span := { t₁.2.span with startingScore := some start } }) :=
    ⟨h₁.phase, by rw [hspan], h₁.scope.run⟩
  rw [fire_bind, fire_bind]
  exact Alike.pure start (h₂.fired hM _ _)

theorem commit_mirror (hM : Workspace.Mirrors M ex like X ok R)
    (h : r.Mirror M like R r') {m? : Option (Move S V)}
    (hm : ∀ m, m? = some m → m.Within ok) (stepIndex : Nat) :
    Alike ex (Run.Mirror M like R) (commit m? stepIndex r) (commit m? stepIndex r') := by
  unfold commit
  rw [Step.get_bind, Step.get_bind]
  refine h.onWorkspace ?_
  cases m? with
  | none => exact hM.committed h.mode h.workspace _
  | some m =>
    dsimp only
    rw [Step.modify_bind, Step.modify_bind]
    exact hM.committed h.mode (hM.apply h.workspace (hm m rfl)) _

variable [DecidableEq V] [ToString V]

theorem tryValues_mirror (hJ : Workspace.JudgesAlike M ex ok R) {pickEarly : PickEarly}
    {cell : Variable S V} {entity : Nat} (hok : ok ⟨cell, entity⟩) {vs : List (Option V)}
    {best : Option (Candidate S V sh)} (hbest : ∀ b, best = some b → b.1.Within ok)
    (h : r.Mirror M like R r') :
    Ends ex (Run.Mirror M like R)
      (fun m r₁ m' r₁' => (m = m' ∧ r₁.Mirror M like R r₁') ∧
        ∀ x, m = some x → x.Within ok)
      (tryValues pickEarly cell entity last best vs r)
      (tryValues pickEarly cell entity last best vs r') := by
  induction vs generalizing best r r' with
  | nil =>
    refine .ok ⟨⟨rfl, h⟩, fun m hm => ?_⟩
    obtain ⟨b, hb, rfl⟩ := Option.map_eq_some_iff.1 hm
    exact hbest b hb
  | cons v vs ih =>
    have hchange : (Move.leaf (.change cell entity v)).Within ok :=
      fun a ha => List.mem_singleton.1 ha ▸ hok
    have hdoable : (Move.leaf (.change cell entity v)).isDoable r.plan =
        (Move.leaf (.change cell entity v)).isDoable r'.plan := hJ.doable h.workspace hchange
    rw [tryValues, tryValues, Step.get_bind, Step.get_bind]
    dsimp only
    rw [hdoable]
    split
    · rw [Step.set_bind, Step.set_bind]
      exact ih hbest (h.record _)
    · refine Alike.bind (h.onWorkspace (hJ.score h.mode h.workspace hchange)) fun a r₁ r₁' h₁ => ?_
      rw [Step.modify_bind, Step.modify_bind]
      split
      · exact .ok ⟨⟨rfl, h₁.record _⟩, fun x hx => by cases hx; exact hchange⟩
      · refine ih (fun b hb => ?_) (h₁.record _)
        split at hb
        · cases hb
          exact hchange
        · exact hbest b hb

/-! ## Steps -/

/-- The move that a step makes, if there is one. -/
def chosen (place : Placement) (last : Score sh) (s : Construction S V sh × Scope W S sh) :
    Option (Move S V) :=
  match choose place last (fired .stepStarted last s) with
  | .ok m _ => m
  | .error _ _ => none

theorem choose_mirror (hJ : Workspace.JudgesAlike M ex ok R)
    (hM : Workspace.Mirrors M ex like X ok R) (h : Mirrored M like ds R s t)
    (hplace : Places ok ds place) :
    Ends ex (Mirrored M like ds R)
      (fun m s₁ m' t₁ => (m = m' ∧ Mirrored M like ds R s₁ t₁) ∧ ∀ x, m = some x → x.Within ok)
      (choose place last s) (choose place last t) := by
  obtain ⟨p, sc⟩ := s
  obtain ⟨p', sc'⟩ := t
  obtain ⟨rfl, hds, hblind⟩ : Twins ds like p p' := h.phase
  unfold choose
  rw [Step.get_bind, Step.get_bind]
  dsimp only
  cases hplacer : p.placers[place.placer]? with
  | none => exact .reported rfl h
  | some placer =>
    have hdefinition : ds[place.placer]? = some placer.definition := by
      rw [← hds]
      unfold definitions
      rw [List.getElem?_map, hplacer]
      rfl
    have hnone : ∀ b : Candidate S V sh, none = some b → b.1.Within ok := nofun
    have hplan : like sc.run.plan sc'.run.plan := h.scope.run.plan hM
    dsimp only
    rw [h.scope.run.source, (hblind placer (List.mem_of_getElem? hplacer)).start_congr hplan]
    unfold Placer.start
    generalize placer.values.start sc'.run.plan placer.definition .original place.entity
      sc'.run.source = q
    obtain ⟨values, source⟩ := q
    dsimp only
    rw [Step.set_bind, Step.set_bind]
    have h₁ : Mirrored M like ds R
        ({ p with placers := p.placers.set place.placer { placer with values } },
          sc.mapRun fun r => { r with source })
        ({ p with placers := p.placers.set place.placer { placer with values } },
          sc'.mapRun fun r => { r with source }) :=
      ⟨⟨rfl, (definitions_set hplacer values).trans hds, hblind.set hplacer values⟩, h.scope.span,
        h.scope.run.setSource source⟩
    exact h₁.onRun_and (tryValues_mirror hJ (hplace _ hdefinition) hnone h₁.scope.run)

theorem step_mirror (hJ : Workspace.JudgesAlike M ex ok R)
    (hM : Workspace.Mirrors M ex like X ok R) (h : Mirrored M like ds R s t)
    (hplace : Places ok ds place) :
    Ends ex (Mirrored M like ds R)
      (fun a s₁ a' t₁ => (a = a' ∧ Mirrored M like ds R s₁ t₁) ∧
        chosen place last s = chosen place last t)
      (step place last s) (step place last t) := by
  unfold step
  rw [fire_bind, fire_bind]
  refine (choose_mirror hJ hM (h.fired hM .stepStarted last) hplace).with_results.bind
    fun m s₁ m' t₁ ⟨⟨hs, ht⟩, ⟨hm, h₁⟩, hwithin⟩ => ?_
  subst hm
  have hchosen : chosen place last s = chosen place last t := by
    unfold chosen
    rw [hs, ht]
  rw [Step.get_bind, Step.get_bind, h₁.scope.span]
  refine Alike.bind (h₁.onRun (commit_mirror hM h₁.scope.run hwithin _)) fun a s₂ t₂ h₂ => ?_
  refine Alike.bind (h₂.onScope (h₂.scope.completeStep hM)) fun _ s₃ t₃ h₃ => ?_
  rw [fire_bind, fire_bind]
  exact .ok ⟨⟨rfl, h₃.fired hM _ _⟩, hchosen⟩

/-- The moves that the steps make, from the first to the last. -/
def winners : List Placement → Score sh → Construction S V sh × Scope W S sh →
    List (Option (Move S V))
  | [], _, _ => []
  | place :: rest, last, s =>
    if s.2.isTerminated s.1.termination then []
    else
      match step place last s with
      | .error _ _ => []
      | .ok a t => chosen place last s :: winners rest a t

theorem steps_mirror (hJ : Workspace.JudgesAlike M ex ok R)
    (hM : Workspace.Mirrors M ex like X ok R) {places : List Placement}
    (hplaces : ∀ place ∈ places, Places ok ds place) (h : Mirrored M like ds R s t) :
    Ends ex (Mirrored M like ds R)
      (fun x s₁ y t₁ => (x = y ∧ Mirrored M like ds R s₁ t₁) ∧
        winners places last s = winners places last t)
      (steps places last s) (steps places last t) := by
  induction places generalizing last s t with
  | nil => exact .ok ⟨⟨rfl, h⟩, rfl⟩
  | cons place rest ih =>
    obtain ⟨hplace, hrest⟩ := List.forall_mem_cons.1 hplaces
    have hterm := h.scope.isTerminated t.1.termination
    rw [steps, steps, Step.get_bind, Step.get_bind, winners, winners]
    dsimp only
    rw [h.phase.eq, hterm]
    split
    · exact .ok ⟨⟨rfl, h⟩, rfl⟩
    · refine (step_mirror hJ hM h hplace).with_results.bind fun a s₁ a' t₁ hmade => ?_
      obtain ⟨⟨hs, ht⟩, ⟨ha, h₁⟩, hchosen⟩ := hmade
      subst ha
      refine (ih hrest h₁).mono fun _ _ _ _ hlater => ⟨hlater.1, ?_⟩
      rw [hs, ht, hchosen]
      exact congrArg (_ :: ·) hlater.2

/-! ## Phases -/

/-- The moves that a phase makes on the run. -/
def phaseWinners (p : Construction S V sh) (r : Run W S sh) : List (Option (Move S V)) :=
  match opening (p, ⟨{ index := r.beginPhase.1 }, r.beginPhase.2⟩) with
  | .ok start s => winners (s.1.placements s.2.run.plan) start s
  | .error _ _ => []

theorem work_mirror (hJ : Workspace.JudgesAlike M ex ok R)
    (hM : Workspace.Mirrors M ex like X ok R) (hX : ∀ d ∈ ds, X d.cell)
    (h : Mirrored M like ds R s t) :
    Ends ex (Mirrored M like ds R)
      (fun x s₁ y t₁ => (x = y ∧ Mirrored M like ds R s₁ t₁) ∧
        ∃ start s₀ t₀, opening s = .ok start s₀ ∧ opening t = .ok start t₀ ∧
          winners (s₀.1.placements s₀.2.run.plan) start s₀ =
            winners (t₀.1.placements t₀.2.run.plan) start t₀)
      (work s) (work t) := by
  rw [work_eq, work_eq]
  refine (opening_mirror hM h).with_results.bind fun start s₀ _ t₀ ⟨⟨hs, ht⟩, hstart, h₀⟩ => ?_
  subst hstart
  have hplan : s₀.1.placements s₀.2.run.plan = t₀.1.placements t₀.2.run.plan := by
    rw [h₀.phase.blind.placements_congr (h₀.scope.run.plan hM), h₀.phase.eq]
  have hplaces : ∀ place ∈ t₀.1.placements t₀.2.run.plan, Places ok ds place := by
    rw [← hplan, ← h₀.phase.definitions]
    refine places (X := X) (over_iff.2 ?_) (hM.movable h₀.scope.run.workspace)
    rw [h₀.phase.definitions]
    exact hX
  rw [Step.get_bind, Step.get_bind, hplan]
  refine (steps_mirror hJ hM hplaces h₀).bind fun x s₁ y t₁ ⟨⟨hx, h₁⟩, hwinners⟩ => ?_
  subst hx
  refine Alike.bind (h₁.onScope (h₁.scope.updateBest hM)) fun _ s₂ t₂ h₂ => ?_
  rw [fire_bind, fire_bind]
  refine .ok ⟨⟨rfl, h₂.fired hM _ _⟩, start, s₀, t₀, hs, ht, ?_⟩
  rw [hplan]
  exact hwinners

omit [Plan S sh] [DecidableEq V] [ToString V] in
theorem validate_error {p : Construction S V sh} {e : SolverError} (h : p.validate = .error e) :
    e.isCorruption = false := by
  unfold validate at h
  split at h
  · cases h
    rfl
  · cases h

/-- The phases end alike, and so do their steps. -/
theorem solve_mirror {p : Construction S V sh} (hJ : Workspace.JudgesAlike M ex ok R)
    (hM : Workspace.Mirrors M ex like X ok R) (hp : p.Over X) (hblind : p.Blind like)
    (h : r.Mirror M like R r') :
    Ends ex (Beside M X like R)
      (fun x s₁ y t₁ => (x = y ∧ Beside M X like R s₁ t₁) ∧ phaseWinners p r = phaseWinners p r')
      (solve (p, r)) (solve (p, r')) := by
  unfold solve
  dsimp only
  cases hvalid : p.validate with
  | error e => exact .reported (validate_error hvalid) ⟨rfl, hp, hblind, h⟩
  | ok =>
    obtain ⟨hindex, hbegun⟩ := h.beginPhase
    have hI : Mirrored M like p.definitions R (p, ⟨{ index := r.beginPhase.1 }, r.beginPhase.2⟩)
        (p, ⟨{ index := r'.beginPhase.1 }, r'.beginPhase.2⟩) :=
      ⟨⟨rfl, rfl, hblind⟩, by rw [hindex], hbegun⟩
    unfold inSpan phaseWinners
    dsimp only
    generalize (p, (⟨{ index := r.beginPhase.1 }, r.beginPhase.2⟩ : Scope W S sh)) = s at hI ⊢
    generalize (p, (⟨{ index := r'.beginPhase.1 }, r'.beginPhase.2⟩ : Scope W' S sh)) = t at hI ⊢
    have hwork := work_mirror hJ hM (over_iff.1 hp) hI
    generalize work s = u at hwork ⊢
    generalize work t = v at hwork ⊢
    cases hwork with
    | ok h =>
      obtain ⟨⟨hx, hI'⟩, start, s₀, t₀, hs, ht, hwinners⟩ := h
      refine .ok ⟨⟨hx, hI'.beside hp⟩, ?_⟩
      rw [hs, ht]
      exact hwinners
    | error h => exact .error fun e he => ⟨(h e he).1, (h e he).2.beside hp⟩
    | left h => exact .left h _
    | right h => exact .right h _

end Construction

end PlanSearch
