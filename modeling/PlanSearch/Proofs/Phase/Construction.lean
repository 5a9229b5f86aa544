import PlanSearch.Phase.Construction
import PlanSearch.Proofs.Run.Ledger

/-!
# The plans that a construction visits

A construction writes slots of the variables that it places. Values are tried and taken back, so
that the plans visited are the one after each placement and the one that the phase ends with; the
books of the run are kept on these.

    p.Over X → the slots of all placements are ok                        (places)
    Books … → solve (p, r) = .ok outcome (p', r') → Books …              (solve_books)
-/

namespace PlanSearch

variable {S V W : Type} {sh : Shape}

namespace Construction

/-! ## Placements -/

/-- The phase places no variables but `X`. -/
def Over (X : Variable S V → Prop) (p : Construction S V sh) : Prop :=
  ∀ placer ∈ p.placers, X placer.definition.cell

/-- The definitions of the variables that are placed. -/
def definitions (p : Construction S V sh) : List (Definition S V) :=
  p.placers.map Placer.definition

/-- The slot that a placement fills is `ok`. -/
def Places (ok : Slot S V → Prop) (ds : List (Definition S V)) (place : Placement) : Prop :=
  ∀ d, ds[place.placer]? = some d → ok ⟨d.cell, place.entity⟩

variable {X : Variable S V → Prop} {ok : Slot S V → Prop}

theorem over_iff {p : Construction S V sh} :
    p.Over X ↔ ∀ d ∈ p.definitions, X d.cell := by
  unfold Over definitions
  rw [List.forall_mem_map]

theorem definitions_hear (p : Construction S V sh) (e : Event) :
    (p.hear e).definitions = p.definitions := by
  show (p.placers.map fun placer => placer.hear e).map _ = _
  rw [List.map_map]
  rfl

theorem definition_of_placer {p : Construction S V sh} {placer : Placer S V} {i : Nat}
    (h : p.placers[i]? = some placer) : p.definitions[i]? = some placer.definition := by
  unfold definitions
  rw [List.getElem?_map, h]
  rfl

/-- A placer that starts anew places the same variable. -/
theorem definitions_set {p : Construction S V sh} {i : Nat} {placer : Placer S V}
    (h : p.placers[i]? = some placer) (values : ValueWalk V) :
    definitions { p with placers := p.placers.set i { placer with values } } = p.definitions := by
  show (p.placers.set i _).map _ = _
  obtain ⟨hi, rfl⟩ := List.getElem?_eq_some_iff.1 h
  rw [List.map_set, ← List.getElem_map Placer.definition (h := by rwa [List.length_map])]
  exact List.set_getElem_self _

/-- The state after everyone was told of an event. -/
def fired [Workspace W S sh] (e : Event) (a : Score sh) (s : Construction S V sh × Scope W S sh) :
    Construction S V sh × Scope W S sh :=
  (s.1.hear e, s.2.mapRun (Run.announce (.event e (s.2.context (some a)))))

theorem fire_bind [Workspace W S sh] {α : Type} (e : Event) (a : Score sh)
    (g : Unit → Action (Construction S V sh × Scope W S sh) α)
    (s : Construction S V sh × Scope W S sh) : (fire e a >>= g) s = g () (fired e a s) := rfl

variable [Plan S sh]

theorem mem_movable_of_placements {placer : Placer S V} {plan : S} {e : Nat}
    (h : e ∈ placer.placements plan) : e ∈ Plan.movable plan placer.definition.cell.family := by
  unfold Placer.placements at h
  dsimp only at h
  split at h
  · exact (List.mem_filter.1 h).1
  · exact (List.mem_filter.1 (List.mem_mergeSort.1 h)).1

theorem placer_lt {p : Construction S V sh} {plan : S} {place : Placement}
    (h : place ∈ p.placements plan) : place.placer < p.placers.length := by
  obtain ⟨places, hplaces, hmem⟩ := List.mem_flatten.1 h
  obtain ⟨⟨placer, i⟩, hi, rfl⟩ := List.mem_map.1 hplaces
  obtain ⟨e, -, rfl⟩ := List.mem_map.1 hmem
  exact (List.mem_zipIdx' hi).1

theorem places {p : Construction S V sh} {plan : S} (hp : p.Over X)
    (hm : ∀ y, X y → ∀ e ∈ Plan.movable plan y.family, ok ⟨y, e⟩) :
    ∀ place ∈ p.placements plan, Places ok p.definitions place := by
  intro place hplace d hd
  obtain ⟨_, hlist, hplace⟩ := List.mem_flatten.1 hplace
  obtain ⟨⟨placer, i⟩, hplacer, rfl⟩ := List.mem_map.1 hlist
  obtain ⟨e, he, rfl⟩ := List.mem_map.1 hplace
  rw [List.mem_zipIdx_iff_getElem?] at hplacer
  change (p.placers.map Placer.definition)[i]? = some d at hd
  rw [List.getElem?_map, hplacer] at hd
  cases hd
  exact hm _ (hp placer (List.mem_of_getElem? hplacer)) e (mem_movable_of_placements he)

/-! ## Trying and making moves -/

variable [Workspace W S sh] {good : W → Prop} {full : S → Checked (Score sh)}
  {r r' : Run W S sh} {last a : Score sh} {m? : Option (Move S V)}

omit [Plan S sh] in
theorem commit_eq_ok {stepIndex : Nat} (e : commit m? stepIndex r = .ok a r') :
    ∃ w, Workspace.score (m?.elim r.workspace fun m => m.apply r.workspace) = .ok a w ∧
      r' = { r with workspace := w } := by
  unfold commit at e
  rw [Step.get_bind] at e
  obtain ⟨w, hcommit, rfl⟩ := Run.onWorkspace_eq_ok e
  refine ⟨w, ?_, rfl⟩
  have hscore : ∀ {v : W}, (if r.mode.isAsserted
      then Workspace.checkedScore s!"after construction step {stepIndex}"
      else Workspace.scoreNow) v = .ok a w → Workspace.score v = .ok a w := by
    intro v hcommit
    split at hcommit
    · exact Workspace.checkedScore_eq_ok hcommit
    · exact Workspace.scoreNow_eq_ok hcommit
  cases m? with
  | none => exact hscore hcommit
  | some m => exact hscore hcommit

variable [DecidableEq V] [ToString V]

theorem tryValues_tried {pickEarly : PickEarly} {cell : Variable S V} {entity : Nat}
    {vs : List (Option V)} {best : Option (Candidate S V sh)}
    (e : tryValues pickEarly cell entity last best vs r = .ok m? r') : r.Tries r' := by
  induction vs generalizing best r with
  | nil =>
    cases e
    exact .refl _
  | cons v vs ih =>
    rw [tryValues, Step.get_bind] at e
    dsimp only at e
    split at e
    · rw [Step.set_bind] at e
      have hcount : r.Tries (r.record Stats.recordIllegal) := ⟨rfl, rfl⟩
      exact hcount.trans (ih e)
    · obtain ⟨a, _, hscore, e⟩ := Step.bind_eq_ok e
      obtain ⟨w, -, rfl⟩ := Run.onWorkspace_eq_ok hscore
      rw [Step.modify_bind] at e
      generalize hr₁ : Run.record _ _ = r₁ at e
      have hcount : r.Tries r₁ := by
        rw [← hr₁]
        exact ⟨rfl, rfl⟩
      split at e
      · cases e
        exact hcount
      · exact hcount.trans (ih e)

theorem tryValues_good (hg : Workspace.Honest X ok good full) {pickEarly : PickEarly}
    {cell : Variable S V} {entity : Nat} (hok : ok ⟨cell, entity⟩) {vs : List (Option V)}
    {best : Option (Candidate S V sh)} (hbest : ∀ b, best = some b → b.1.Within ok)
    (h : good r.workspace)
    (e : tryValues pickEarly cell entity last best vs r = .ok m? r') :
    good r'.workspace ∧ ∀ m, m? = some m → m.Within ok := by
  induction vs generalizing best r with
  | nil =>
    cases e
    refine ⟨h, fun m hm => ?_⟩
    obtain ⟨b, hb, rfl⟩ := Option.map_eq_some_iff.1 hm
    exact hbest b hb
  | cons v vs ih =>
    have hchange : (Move.leaf (.change cell entity v)).Within ok :=
      fun a ha => List.mem_singleton.1 ha ▸ hok
    rw [tryValues] at e
    rw [Step.get_bind] at e
    dsimp only at e
    split at e
    · rw [Step.set_bind] at e
      exact ih hbest (r := r.record Stats.recordIllegal) h e
    · obtain ⟨a, _, hscore, e⟩ := Step.bind_eq_ok e
      obtain ⟨w, hw, rfl⟩ := Run.onWorkspace_eq_ok hscore
      have hgood := hg.scoreCandidate hchange h hw
      rw [Step.modify_bind] at e
      generalize hr₁ : Run.record _ _ = r₁ at e
      have hgood₁ : good r₁.workspace := by
        rw [← hr₁]
        exact hgood
      split at e
      · cases e
        refine ⟨hgood₁, fun m hm => ?_⟩
        cases hm
        exact hchange
      · refine ih (fun b hb => ?_) hgood₁ e
        split at hb
        · cases hb
          exact hchange
        · exact hbest b hb

/-! ## Steps -/

variable {s t : Construction S V sh × Scope W S sh} {place : Placement}
  {isSearch : Nat → Bool} {i n k : Nat}

/-- The placer of the placement turns to the values of the entity, which are tried. -/
theorem choose_eq_ok (e : choose place last s = .ok m? t) :
    ∃ placer values source r, s.1.placers[place.placer]? = some placer ∧
      placer.values.start s.2.run.plan placer.definition .original place.entity s.2.run.source =
        (values, source) ∧
      tryValues s.1.pickEarly placer.definition.cell place.entity last none
        (ValueWalk.upcoming values) { s.2.run with source } = .ok m? r ∧
      t = ({ s.1 with placers := s.1.placers.set place.placer { placer with values } },
        { s.2 with run := r }) := by
  obtain ⟨p, sc⟩ := s
  unfold choose at e
  rw [Step.get_bind] at e
  dsimp only at e
  cases hplacer : p.placers[place.placer]? with
  | none =>
    rw [hplacer] at e
    cases e
  | some placer =>
    rw [hplacer] at e
    dsimp only at e
    rw [Step.set_bind] at e
    obtain ⟨r, htry, rfl⟩ := onRun_eq_ok e
    exact ⟨placer, _, _, r, rfl, rfl, htry, rfl⟩

theorem step_eq_ok (e : step place last s = .ok a t) :
    ∃ m? u w improved sc', choose place last (fired .stepStarted last s) = .ok m? u ∧
      Workspace.score (m?.elim u.2.run.workspace fun m => m.apply u.2.run.workspace) = .ok a w ∧
      Scope.completeStep { u.2 with run := { u.2.run with workspace := w } } = .ok improved sc' ∧
      t = fired .stepEnded a (u.1, sc') := by
  unfold step at e
  rw [fire_bind] at e
  obtain ⟨m?, u, hchoose, e⟩ := Step.bind_eq_ok e
  rw [Step.get_bind] at e
  obtain ⟨a, _, honRun, hrest⟩ := Step.bind_eq_ok e
  obtain ⟨_, hcommit, rfl⟩ := onRun_eq_ok honRun
  obtain ⟨w, hscore, rfl⟩ := commit_eq_ok hcommit
  obtain ⟨improved, _, honScope, hend⟩ := Step.bind_eq_ok hrest
  obtain ⟨sc', hcomplete, rfl⟩ := Action.onPart_eq_ok honScope
  rw [fire_bind] at hend
  cases hend
  exact ⟨m?, u, w, improved, sc', hchoose, hscore, hcomplete, rfl⟩

theorem choose_tried (e : choose place last s = .ok m? t) :
    t.1.definitions = s.1.definitions ∧ t.2.span = s.2.span ∧ s.2.run.Tries t.2.run := by
  obtain ⟨placer, values, source, r, hplacer, -, htry, rfl⟩ := choose_eq_ok e
  have hsource : s.2.run.Tries { s.2.run with source } := ⟨rfl, rfl⟩
  exact ⟨definitions_set hplacer values, rfl, hsource.trans (tryValues_tried htry)⟩

theorem choose_good (hg : Workspace.Honest X ok good full)
    (hplace : Places ok s.1.definitions place) (h : good s.2.run.workspace)
    (e : choose place last s = .ok m? t) :
    good t.2.run.workspace ∧ ∀ m, m? = some m → m.Within ok := by
  obtain ⟨placer, values, source, r, hplacer, -, htry, rfl⟩ := choose_eq_ok e
  have hnone : ∀ b : Candidate S V sh, none = some b → b.1.Within ok := nofun
  exact tryValues_good (r := { s.2.run with source }) hg (hplace _ (definition_of_placer hplacer))
    hnone h htry

theorem step_definitions (e : step place last s = .ok a t) :
    t.1.definitions = s.1.definitions := by
  obtain ⟨m?, u, w, improved, sc', hchoose, -, -, rfl⟩ := step_eq_ok e
  show (u.1.hear .stepEnded).definitions = s.1.definitions
  rw [definitions_hear, (choose_tried hchoose).1]
  exact definitions_hear s.1 .stepStarted

theorem step_onBooks (hg : Workspace.Honest X ok good full)
    (hplace : Places ok s.1.definitions place) (h : s.2.OnBooks good full isSearch i n k)
    (e : step place last s = .ok a t) : t.2.OnBooks good full isSearch i n k := by
  obtain ⟨m?, u, w, improved, sc', hchoose, hscore, hcomplete, rfl⟩ := step_eq_ok e
  have hplace' : Places ok (fired .stepStarted last s).1.definitions place := by
    show Places ok (s.1.hear .stepStarted).definitions place
    rw [definitions_hear]
    exact hplace
  obtain ⟨-, hspan, htries⟩ := choose_tried hchoose
  obtain ⟨hgood, hm⟩ := choose_good hg hplace' h.books.good hchoose
  have htrying : Scope.Trying last s.2 { u.2 with run := { u.2.run with workspace := w } } :=
    ⟨hspan, htries.trans ⟨rfl, rfl⟩⟩
  refine h.completeStep hg htrying (hg.score ?_ hscore) hcomplete a
  cases m? with
  | none => exact hgood
  | some m => exact hg.apply (hm m rfl) hgood

theorem steps_onBooks (hg : Workspace.Honest X ok good full) {places : List Placement}
    (hplaces : ∀ place ∈ places, Places ok s.1.definitions place)
    (h : s.2.OnBooks good full isSearch i n k) {x : Outcome × Score sh}
    (e : steps places last s = .ok x t) : t.2.OnBooks good full isSearch i n k := by
  induction places generalizing last s with
  | nil =>
    cases e
    exact h
  | cons place rest ih =>
    obtain ⟨hplace, hrest⟩ := List.forall_mem_cons.1 hplaces
    rw [steps] at e
    rw [Step.get_bind] at e
    dsimp only at e
    split at e
    · cases e
      exact h
    obtain ⟨a, s₁, hstep, e⟩ := Step.bind_eq_ok e
    exact ih (step_definitions hstep ▸ hrest) (step_onBooks hg hplace h hstep) e

/-! ## Phases -/

variable {p p' : Construction S V sh} {sc : Scope W S sh} {outcome : Outcome}

/-- The state in which a phase begins to make steps. -/
def begun (p : Construction S V sh) (sc : Scope W S sh) (start : Score sh) (w : W) :
    Construction S V sh × Scope W S sh :=
  fired .phaseStarted start (p,
    { span := { sc.span with startingScore := some start }, run := { sc.run with workspace := w } })

/-- What a phase does before its first step; answers the score of the plan. -/
def opening : Action (Construction S V sh × Scope W S sh) (Score sh) := do
  mapScope fun sc => sc.mapRun Run.restartWorkspace
  let start ← onScope (Scope.onRun Run.scoreNow)
  mapScope fun sc => { sc with span := { sc.span with startingScore := some start } }
  fire .phaseStarted start
  return start

/-- A phase opens, makes its steps and tells of its end. -/
theorem work_eq (s : Construction S V sh × Scope W S sh) :
    work s = (opening >>= fun start => get >>= fun s => steps (s.1.placements s.2.run.plan) start >>=
      fun x => onScope Scope.updateBest >>= fun _ => fire .phaseEnded x.2 >>= fun _ => pure x.1) s := by
  unfold work opening
  simp only [bind_assoc, pure_bind]

omit [Plan S sh] [DecidableEq V] [ToString V] in
theorem opening_eq_ok {start : Score sh} (e : opening (p, sc) = .ok start s) :
    ∃ w, Workspace.score (Workspace.restart sc.run.workspace) = .ok start w ∧
      s = begun p sc start w := by
  unfold opening at e
  rw [mapScope_bind] at e
  obtain ⟨a, _, hstart, e⟩ := Step.bind_eq_ok e
  obtain ⟨_, hscore, rfl⟩ := onRun_eq_ok hstart
  obtain ⟨w, hw, rfl⟩ := Run.onWorkspace_eq_ok hscore
  rw [mapScope_bind, fire_bind] at e
  cases e
  exact ⟨w, Workspace.scoreNow_eq_ok hw, rfl⟩

theorem work_eq_ok (e : work (p, sc) = .ok outcome t) :
    ∃ start w last u improved sc',
      Workspace.score (Workspace.restart sc.run.workspace) = .ok start w ∧
      steps ((p.hear .phaseStarted).placements (Workspace.plan w)) start (begun p sc start w) =
        .ok (outcome, last) u ∧
      Scope.updateBest u.2 = .ok improved sc' ∧ t = fired .phaseEnded last (u.1, sc') := by
  rw [work_eq] at e
  obtain ⟨start, s, hopening, e⟩ := Step.bind_eq_ok e
  obtain ⟨w, hscore, rfl⟩ := opening_eq_ok hopening
  rw [Step.get_bind] at e
  obtain ⟨⟨_, last⟩, u, hsteps, e⟩ := Step.bind_eq_ok e
  obtain ⟨improved, _, honScope, hend⟩ := Step.bind_eq_ok e
  obtain ⟨sc', hbest, rfl⟩ := Action.onPart_eq_ok honScope
  rw [fire_bind] at hend
  cases hend
  exact ⟨start, w, last, u, improved, sc', hscore, hsteps, hbest, rfl⟩

/-- The plan is visited when the phase ends. -/
theorem work_onBooks (hg : Workspace.Honest X ok good full) (hp : p.Over X)
    (hbuilds : ¬isSearch i = true) (h : sc.OnBooks good full isSearch i n k)
    (e : work (p, sc) = .ok outcome t) : t.2.OnBooks good full isSearch i n (k + 1) := by
  obtain ⟨start, w, last, u, improved, sc', hscore, hsteps, hbest, rfl⟩ := work_eq_ok e
  have hgood := hg.score (hg.restart h.books.good) hscore
  have h₁ := (h.scored start hgood).pass
    (fun c hc trace => visits_phaseStarted_of_not (by rwa [hc]) trace) start
  have hplaces : ∀ place ∈ (p.hear .phaseStarted).placements (Workspace.plan w),
      Places ok (p.hear .phaseStarted).definitions place := by
    refine places (X := X) (over_iff.2 ?_) (hg.movable hgood)
    rw [definitions_hear]
    exact over_iff.1 hp
  have h₂ := steps_onBooks hg hplaces h₁ hsteps
  exact h₂.visit hg (fun c hc trace => visits_phaseEnded_of_not (by rwa [hc]) trace) hbest last

/-- A construction that is valid works in a scope of its own. -/
theorem solve_eq_ok (e : solve (p, r) = .ok outcome (p', r')) :
    ∃ sc, work (p, ⟨{ index := r.beginPhase.1 }, r.beginPhase.2⟩) = .ok outcome (p', sc) ∧
      r' = sc.run := by
  unfold solve at e
  dsimp only at e
  split at e
  · cases e
  · exact inSpan_eq_ok e

theorem solve_books (hg : Workspace.Honest X ok good full) (hp : p.Over X)
    (hbuilds : ¬isSearch r.phases = true) (h : r.Books good full (visits isSearch r.trace))
    (e : solve (p, r) = .ok outcome (p', r')) :
    r'.Books good full (visits isSearch r'.trace) ∧ r'.phases = r.phases + 1 ∧
      visits isSearch r'.trace ≠ [] := by
  obtain ⟨sc', hwork, rfl⟩ := solve_eq_ok e
  have h' := work_onBooks hg hp hbuilds (Scope.OnBooks.begin h) hwork
  exact ⟨h'.books, h'.phases, List.length_pos_iff.1 h'.least⟩

end Construction

end PlanSearch
