import PlanSearch.Proofs.Lifecycle.Phase
import PlanSearch.Proofs.Search.Restoring
import PlanSearch.Proofs.Workspace.Guard

/-!
# The gaps that a construction fills

A gap is a slot of an entity that moves may change and that has no value. A construction lists the
gaps of its variables when it begins, and makes one step for each of them. A step gives its gap one
of the values in the range, where there is any, and leaves all other slots alone, so that a gap is
still one when its turn comes, and what a step wrote lasts. A construction that is stopped has done
this for the gaps at the head of its list.

    tryValues … = .ok m? r' → m? = none → there was no value to try                 (tryValues_eq_ok)
    x.slot is a gap → x.Fills X                                                     (StepMade.fills)
    Course last s xs t → the slots of xs are different gaps → each step fills one   (Course.fills)
    solve (p, run) = .ok outcome (p', run') → Filled … run.plan xs rest run'.plan   (solve_fills)
-/

namespace PlanSearch

variable {S V W : Type} {sh : Shape} [Plan S sh]

/-! ## Gaps -/

namespace Definition

/-- The entities that moves may change and that have no value. -/
def gaps (d : Definition S V) (plan : S) : List Nat :=
  (Plan.movable plan d.cell.family).filter fun e => (d.cell.get plan e).isNone

/-- What a slot may hold once it was filled: a value of the range, or none if there is no value. -/
def Supplies (d : Definition S V) (plan : S) (entity : Nat) : Option V → Prop
  | none => d.range.values plan entity = []
  | some v => v ∈ d.range.values plan entity

variable {X : Variable S V → Prop} {d : Definition S V} {p q : S} {e : Nat}

theorem mem_gaps : e ∈ d.gaps p ↔
    e ∈ Plan.movable p d.cell.family ∧ (⟨d.cell, e⟩ : Slot S V).get p = none := by
  unfold gaps
  rw [List.mem_filter, Option.isNone_iff_eq_none]
  rfl

theorem nodup_gaps (d : Definition S V) (p : S) : (d.gaps p).Nodup :=
  (List.nodup_range.filter _).filter _

theorem Supplies.eq_none_iff {v : Option V} (h : d.Supplies p e v) :
    v = none ↔ d.range.values p e = [] := by
  cases v with
  | none => exact iff_of_true rfl h
  | some v => exact iff_of_false nofun (List.ne_nil_of_mem h)

theorem some_mem_choices {v : V} : some v ∈ d.choices p e ↔ v ∈ d.range.values p e := by
  unfold choices
  split <;> simp

/-- A range without values has nothing to offer but to leave the variable as it is. -/
theorem values_eq_nil (h : ∀ v ∈ d.choices p e, v = none) : d.range.values p e = [] :=
  List.eq_nil_iff_forall_not_mem.2 fun v hv => by cases h (some v) (some_mem_choices.2 hv)

theorem gaps_congr (h : Coincides X p q) (hd : X d.cell) : d.gaps p = d.gaps q := by
  unfold gaps
  rw [← h.movable]
  refine List.filter_congr fun e he => ?_
  have hopen : (⟨d.cell, e⟩ : Slot S V).Open X p := ⟨hd, he⟩
  exact congrArg Option.isNone (h.get ⟨d.cell, e⟩ hopen.of)

end Definition

theorem Variable.sameAs_self (x : Variable S V) : x.sameAs x := by
  unfold sameAs
  rw [Bool.and_eq_true, beq_iff_eq, beq_iff_eq]
  exact ⟨rfl, rfl⟩

/-- The slots are the gaps of the variables, one variable after another. -/
inductive InOrder (plan : S) : List (Definition S V) → List (Slot S V) → Prop
  | nil : InOrder plan [] []
  | cons {d : Definition S V} {ds : List (Definition S V)} {es : List Nat}
    {behind : List (Slot S V)} (here : es.Perm (d.gaps plan)) (rest : InOrder plan ds behind) :
    InOrder plan (d :: ds) (es.map (⟨d.cell, ·⟩) ++ behind)

namespace InOrder

variable {X : Variable S V → Prop} {ds : List (Definition S V)} {slots : List (Slot S V)} {p q : S}

theorem mem (h : InOrder p ds slots) {a : Slot S V} (ha : a ∈ slots) :
    ∃ d ∈ ds, a.cell = d.cell ∧ a.entity ∈ d.gaps p := by
  induction h with
  | nil => cases ha
  | @cons d ds es behind here rest ih =>
    rcases List.mem_append.1 ha with ha | ha
    · obtain ⟨e, he, rfl⟩ := List.mem_map.1 ha
      exact ⟨d, List.mem_cons_self, rfl, here.mem_iff.1 he⟩
    · obtain ⟨d', hd', h⟩ := ih ha
      exact ⟨d', List.mem_cons_of_mem _ hd', h⟩

/-- A gap has an entity that moves may change, and no value. -/
theorem gap (h : InOrder p ds slots) (hds : ∀ d ∈ ds, X d.cell) {a : Slot S V} (ha : a ∈ slots) :
    a.Open X p ∧ a.get p = none := by
  obtain ⟨d, hd, hcell, he⟩ := h.mem ha
  obtain ⟨x, e⟩ := a
  obtain rfl : x = d.cell := hcell
  obtain ⟨hmovable, hget⟩ := Definition.mem_gaps.1 he
  exact ⟨⟨hds d hd, hmovable⟩, hget⟩

theorem nodup (h : InOrder p ds slots)
    (hds : ds.Pairwise fun d d' => ¬d.cell.sameAs d'.cell) : slots.Nodup := by
  induction h with
  | nil => exact List.nodup_nil
  | @cons d ds es behind here rest ih =>
    obtain ⟨hd, hds⟩ := List.pairwise_cons.1 hds
    refine List.nodup_append.2 ⟨?_, ih hds, fun a ha b hb hab => ?_⟩
    · have hes : es.Nodup := here.nodup_iff.2 (d.nodup_gaps p)
      exact List.pairwise_map.2 (hes.imp fun hne he => hne (Slot.mk.inj he).2)
    · obtain ⟨e, -, rfl⟩ := List.mem_map.1 ha
      obtain ⟨d', hd', hcell, -⟩ := rest.mem hb
      refine hd d' hd' ?_
      rw [← hcell, ← hab]
      exact d.cell.sameAs_self

theorem congr (h : InOrder p ds slots) (hpq : Coincides X p q) (hds : ∀ d ∈ ds, X d.cell) :
    InOrder q ds slots := by
  induction h with
  | nil => exact .nil
  | cons here rest ih =>
    obtain ⟨hd, hds⟩ := List.forall_mem_cons.1 hds
    exact .cons (Definition.gaps_congr hpq hd ▸ here) (ih hds)

end InOrder

namespace Construction

/-! ## Placements -/

/-- The slots that the placements fill. -/
def slotsOf (ds : List (Definition S V)) (places : List Placement) : List (Slot S V) :=
  places.filterMap fun place => ds[place.placer]?.map fun d => ⟨d.cell, place.entity⟩

theorem slotsOf_append (ds : List (Definition S V)) (places places' : List Placement) :
    slotsOf ds (places ++ places') = slotsOf ds places ++ slotsOf ds places' :=
  List.filterMap_append

theorem slotsOf_cons {ds : List (Definition S V)} {place : Placement} {d : Definition S V}
    (h : ds[place.placer]? = some d) (places : List Placement) :
    slotsOf ds (place :: places) = ⟨d.cell, place.entity⟩ :: slotsOf ds places :=
  List.filterMap_cons_some (by rw [h]; rfl)

theorem slotsOf_map {ds : List (Definition S V)} {i : Nat} {d : Definition S V}
    (h : ds[i]? = some d) (es : List Nat) :
    slotsOf ds (es.map (⟨i, ·⟩)) = es.map (⟨d.cell, ·⟩) := by
  induction es with
  | nil => rfl
  | cons e es ih =>
    have hplaced : ds[(⟨i, e⟩ : Placement).placer]? = some d := h
    rw [List.map_cons, slotsOf_cons hplaced, ih, List.map_cons]

theorem placements_perm (placer : Placer S V) (plan : S) :
    (placer.placements plan).Perm (placer.definition.gaps plan) := by
  unfold Placer.placements
  dsimp only
  split
  · exact .refl _
  · exact List.mergeSort_perm _ _

/-- The placers before the `i`th one are done with. -/
theorem inOrder_placements_from {ds : List (Definition S V)} {placers : List (Placer S V)} {i : Nat}
    (h : ds.drop i = placers.map Placer.definition) (plan : S) :
    InOrder plan (placers.map Placer.definition) (slotsOf ds
      ((placers.zipIdx i).map fun (placer, i) => (placer.placements plan).map (⟨i, ·⟩)).flatten) := by
  induction placers generalizing i with
  | nil => exact .nil
  | cons placer placers ih =>
    have hhere : ds[i]? = some placer.definition := by
      rw [← List.head?_drop, h]
      rfl
    have hbehind : ds.drop (i + 1) = placers.map Placer.definition := by
      rw [← List.tail_drop, h]
      rfl
    rw [List.zipIdx_cons, List.map_cons, List.map_cons, List.flatten_cons, slotsOf_append,
      slotsOf_map hhere]
    exact .cons (placements_perm placer plan) (ih hbehind)

theorem inOrder_placements (p : Construction S V sh) (plan : S) :
    InOrder plan p.definitions (slotsOf p.definitions (p.placements plan)) :=
  inOrder_placements_from rfl plan

/-! ## Trying values -/

/-- The move that gives the slot a value. -/
def change (b : Slot S V) (v : V) : Move S V := .leaf (.change b.cell b.entity (some v))

variable {X : Variable S V → Prop} {b : Slot S V} {p : S}

theorem change_of (h : b.Of X p) (v : V) : (change b v).Of X p := fun _ ha =>
  List.mem_singleton.1 ha ▸ h

/-- To leave a gap as it is is not a move that can be done; to write a value is. -/
theorem isDoable_gap [DecidableEq V] (hopen : b.Open X p) (hgap : b.get p = none) (v : Option V) :
    (Move.leaf (.change b.cell b.entity v)).isDoable p = v.isSome := by
  have hb : Leaf.isOpen b.cell p b.entity := hopen.isOpen
  show (Leaf.isOpen b.cell p b.entity && b.cell.get p b.entity != v || false) = v.isSome
  rw [show b.cell.get p b.entity = none from hgap, hb]
  cases v <;> rfl

theorem upcoming_start_of_stale {values : ValueWalk V} (h : values.stale) (d : Definition S V)
    (plan : S) (entity : Nat) (source : Source) :
    (values.start plan d .original entity source).1.upcoming = d.choices plan entity := by
  unfold ValueWalk.start ValueWalk.isOutdated
  rw [h]
  rfl

omit [Plan S sh] in
theorem stale_of_started {p : Construction S V sh} {placer : Placer S V} {i : Nat}
    (h : (p.hear .stepStarted).placers[i]? = some placer) : placer.values.stale := by
  obtain ⟨_, -, rfl⟩ := List.mem_map.1 (List.mem_of_getElem? h)
  rfl

variable [Workspace W S sh] [DecidableEq V] [ToString V] {r r' : Run W S sh}
  {last a : Score sh} {m? : Option (Move S V)}

/-- While values of a gap are tried it stays one, and a move is answered if there is a value. -/
theorem tryValues_eq_ok [Workspace.Lawful W] (hX : Anchored X) {ok : V → Prop} {pickEarly : PickEarly}
    {vs : List (Option V)} {best : Option (Candidate S V sh)} (hopen : b.Open X r.plan)
    (hgap : b.get r.plan = none) (hvs : ∀ v, some v ∈ vs → ok v)
    (hbest : ∀ c, best = some c → ∃ v, ok v ∧ c.1 = change b v)
    (e : tryValues pickEarly b.cell b.entity last best vs r = .ok m? r') :
    Coincides X r.plan r'.plan ∧ (m? = none → best = none ∧ ∀ v ∈ vs, v = none) ∧
      ∀ m, m? = some m → ∃ v, ok v ∧ m = change b v := by
  induction vs generalizing best r with
  | nil =>
    cases e
    refine ⟨hX.lenses.equivalence.refl _, fun h => ?_, fun m hm => ?_⟩
    · exact ⟨Option.map_eq_none_iff.1 h, List.forall_mem_nil _⟩
    · obtain ⟨c, hc, rfl⟩ := Option.map_eq_some_iff.1 hm
      exact hbest c hc
  | cons v vs ih =>
    have hrest : ∀ v, some v ∈ vs → ok v := fun v hv => hvs v (List.mem_cons_of_mem _ hv)
    have hdoable := isDoable_gap hopen hgap v
    rw [tryValues, Step.get_bind] at e
    dsimp only at e
    split at e
    · next hnot =>
      rw [hdoable, Bool.not_eq_true', Option.isSome_eq_false_iff, Option.isNone_iff_eq_none] at hnot
      rw [Step.set_bind] at e
      obtain ⟨hsame, hnone, hm⟩ := ih (r := r.record Stats.recordIllegal) hopen hgap hrest hbest e
      exact ⟨hsame, fun h => ⟨(hnone h).1, List.forall_mem_cons.2 ⟨hnot, (hnone h).2⟩⟩, hm⟩
    · next hdo =>
      rw [hdoable, Bool.not_eq_true', Bool.not_eq_false, Option.isSome_iff_exists] at hdo
      obtain ⟨v, rfl⟩ := hdo
      have hv : ok v := hvs v List.mem_cons_self
      obtain ⟨c, _, hscore, e⟩ := Step.bind_eq_ok e
      obtain ⟨w, hw, rfl⟩ := Run.onWorkspace_eq_ok hscore
      have hback : Coincides X r.plan (Workspace.plan w) := hX.lenses.equivalence.symm
        (scoreCandidate_same hX.lenses hX.scoreFree (change_of hopen.of v) hw)
      rw [Step.modify_bind] at e
      generalize hr₁ : Run.record _ _ = r₁ at e
      have hplan : r₁.plan = Workspace.plan w := by rw [← hr₁]; rfl
      rw [← hplan] at hback
      split at e
      · cases e
        refine ⟨hback, fun h => absurd h (Option.some_ne_none _), fun m hm => ?_⟩
        cases hm
        exact ⟨v, hv, rfl⟩
      · generalize hbest₁ : (if (best.all fun x => x.2 < c) then
          some (Move.leaf (.change b.cell b.entity (some v)), c) else best) = best₁ at e
        have hfound : best₁ ≠ none ∧ ∀ c', best₁ = some c' → ∃ v, ok v ∧ c'.1 = change b v := by
          rw [← hbest₁]
          split
          · refine ⟨Option.some_ne_none _, fun c' hc' => ?_⟩
            cases hc'
            exact ⟨v, hv, rfl⟩
          · next hworse =>
            refine ⟨fun hnone => hworse ?_, hbest⟩
            rw [hnone]
            rfl
        obtain ⟨hsame, hnone, hm⟩ := ih ((hback.open_iff b).1 hopen)
          ((hback.get b hopen.of).symm.trans hgap) hrest hfound.2 e
        exact ⟨hX.lenses.equivalence.trans hback hsame, fun h => absurd (hnone h).1 hfound.1, hm⟩

variable {s t : Construction S V sh × Scope W S sh} {place : Placement} {d : Definition S V}

/-- The values of the range as it is when the step starts are tried. -/
theorem choose_fired (last : Score sh) (hplaced : s.1.definitions[place.placer]? = some d) :
    ∃ (placers : List (Placer S V)) (source : Source),
      choose place last (fired .stepStarted last s) =
        onScope (Scope.onRun (tryValues s.1.pickEarly d.cell place.entity last none
            (d.choices s.2.run.plan place.entity)))
          ({ s.1 with placers }, (fired .stepStarted last s).2.mapRun fun r => { r with source }) := by
  have hhear : (fired .stepStarted last s).1.definitions[place.placer]? = some d := by
    show (s.1.hear .stepStarted).definitions[place.placer]? = some d
    rw [definitions_hear, hplaced]
  unfold definitions at hhear
  rw [List.getElem?_map, Option.map_eq_some_iff] at hhear
  obtain ⟨placer, hplacer, rfl⟩ := hhear
  unfold choose
  rw [Step.get_bind]
  dsimp only
  rw [hplacer]
  dsimp only
  rw [Step.set_bind]
  have hupcoming := upcoming_start_of_stale (stale_of_started hplacer) placer.definition
    s.2.run.plan place.entity (fired .stepStarted last s).2.run.source
  exact ⟨_, _, by rw [← hupcoming]; rfl⟩

/-- The values of the range are tried, as it is when the step begins. -/
theorem choose_started [Workspace.Lawful W] (hX : Anchored X)
    (hplaced : s.1.definitions[place.placer]? = some d)
    (hopen : (⟨d.cell, place.entity⟩ : Slot S V).Open X s.2.run.plan)
    (hgap : (⟨d.cell, place.entity⟩ : Slot S V).get s.2.run.plan = none)
    (e : choose place last (fired .stepStarted last s) = .ok m? t) :
    Coincides X s.2.run.plan t.2.run.plan ∧ ∃ v, d.Supplies s.2.run.plan place.entity v ∧
      m? = v.map (change ⟨d.cell, place.entity⟩) := by
  obtain ⟨placers, source, hchoose⟩ := choose_fired last hplaced
  rw [hchoose] at e
  obtain ⟨r, htry, rfl⟩ := onRun_eq_ok e
  let b : Slot S V := ⟨d.cell, place.entity⟩
  have hnothing : ∀ c : Candidate S V sh, none = some c → ∃ v,
      v ∈ d.range.values s.2.run.plan place.entity ∧ c.1 = change b v := nofun
  obtain ⟨hsame, hnone, hm⟩ := tryValues_eq_ok (b := b)
    (r := { (fired .stepStarted last s).2.run with source }) hX hopen hgap
    (fun v hv => Definition.some_mem_choices.1 hv) hnothing htry
  refine ⟨hsame, ?_⟩
  cases m? with
  | none => exact ⟨none, Definition.values_eq_nil (hnone rfl).2, rfl⟩
  | some m =>
    obtain ⟨v, hv, rfl⟩ := hm m rfl
    exact ⟨some v, hv, rfl⟩

/-! ## Steps -/

/-- A step that a construction made. -/
structure StepMade (W S V : Type) (sh : Shape) [Plan S sh] [Workspace W S sh] [DecidableEq V]
    [ToString V] where
  place : Placement
  definition : Definition S V
  last : Score sh
  before : Construction S V sh × Scope W S sh
  score : Score sh
  after : Construction S V sh × Scope W S sh
  placed : before.1.definitions[place.placer]? = some definition
  made : step place last before = .ok score after

namespace StepMade

/-- The slot whose turn it is. -/
def slot (x : StepMade W S V sh) : Slot S V := ⟨x.definition.cell, x.place.entity⟩

/-- What listeners were told at the start of the step. -/
def started (x : StepMade W S V sh) : Context S sh := x.before.2.context (some x.last)

/-- What listeners were told at the end of the step. -/
def ended (x : StepMade W S V sh) : Context S sh := x.after.2.context (some x.score)

/-- The boundaries of the step, newest first. -/
def events (x : StepMade W S V sh) : List (Event × Context S sh) :=
  [(.stepEnded, x.ended), (.stepStarted, x.started)]

/-- The values that the slot may take when the step begins. -/
def values (x : StepMade W S V sh) : List V :=
  x.definition.range.values x.started.plan x.place.entity

/-- The step finds a gap and fills it, if there is a value for it, and does nothing else. -/
structure Fills (X : Variable S V → Prop) (x : StepMade W S V sh) : Prop where
  isOpen : x.slot.Open X x.started.plan
  gap : x.slot.get x.started.plan = none
  supplied : x.definition.Supplies x.started.plan x.place.entity (x.slot.get x.ended.plan)
  others : ∀ a : Slot S V, a.Of X x.started.plan → a ≠ x.slot →
    a.get x.ended.plan = a.get x.started.plan
  entityCount : ∀ family, Plan.entityCount x.ended.plan family =
    Plan.entityCount x.started.plan family
  isPinned : ∀ f, Plan.isPinned x.ended.plan f = Plan.isPinned x.started.plan f

variable {x : StepMade W S V sh}

theorem Fills.of_iff (h : x.Fills X) (c : Slot S V) :
    c.Of X x.ended.plan ↔ c.Of X x.started.plan := by
  unfold Slot.Of Plan.Has
  rw [h.entityCount]

theorem Fills.open_iff (h : x.Fills X) (c : Slot S V) :
    c.Open X x.ended.plan ↔ c.Open X x.started.plan := by
  unfold Slot.Open
  rw [Plan.movable_congr (h.entityCount _) h.isPinned]

/-- The plan after the step is the one before it but for what the slot holds. -/
theorem written [Workspace.Lawful W] (hX : Anchored X) (hopen : x.slot.Open X x.started.plan)
    (hgap : x.slot.get x.started.plan = none) :
    ∃ v, x.definition.Supplies x.started.plan x.place.entity v ∧
      Coincides X (x.slot.set x.started.plan v) x.ended.plan := by
  obtain ⟨place, d, last, s, a, t, placed, made⟩ := x
  have hl := hX.lenses
  obtain ⟨m?, u, w, improved, sc', hchoose, hscore, hcomplete, rfl⟩ := step_eq_ok made
  obtain ⟨hsame, v, hv, rfl⟩ := choose_started hX placed hopen hgap hchoose
  obtain ⟨⟨_, hbest⟩, -⟩ := Scope.completeStep_eq_ok hcomplete
  have hkept : Coincides X (Workspace.plan w) sc'.run.plan :=
    hl.equivalence.symm (Workspace.same_score hl.equivalence hX.scoreFree hbest)
  have hscored := hl.equivalence.symm (Workspace.same_score hl.equivalence hX.scoreFree hscore)
  refine ⟨v, hv, hl.equivalence.trans (hl.equivalence.trans ?_ hscored) hkept⟩
  have hset := hl.set_congr v hsame hopen.of
  cases v with
  | none =>
    -- Nothing was written, and the gap held nothing.
    refine hl.equivalence.trans ?_ hsame
    have hback := hl.set_get hopen.of
    rwa [hgap] at hback
  | some v =>
    show Coincides X _ (Workspace.plan ((change _ v).apply u.2.run.workspace))
    rw [Move.plan_apply]
    exact hset

theorem fills [Workspace.Lawful W] (hX : Anchored X) (hopen : x.slot.Open X x.started.plan)
    (hgap : x.slot.get x.started.plan = none) : x.Fills X := by
  obtain ⟨v, hv, hplan⟩ := written hX hopen hgap
  have hof : ∀ {a : Slot S V}, a.Of X x.started.plan →
      a.get x.ended.plan = a.get (x.slot.set x.started.plan v) := fun ha =>
    (hplan.get _ ((hX.of_set v hopen.of _).2 ha)).symm
  refine ⟨hopen, hgap, ?_, fun a ha hne => ?_, fun family => ?_, fun f => ?_⟩
  · rwa [hof hopen.of, hX.get_set v hopen.of]
  · rw [hof ha]
    exact hX.get_set_of_ne v hopen.of ha fun h =>
      hne (hX.slot_eq_of_sameAs hopen.1 ha.1 h).symm
  · rw [← hplan.entityCount, hX.entityCount_set v hopen.of]
  · rw [← hplan.isPinned, hX.isPinned_set v hopen.of]

/-- Listeners are told of both boundaries of the step. -/
theorem stepEvents_after (x : StepMade W S V sh) :
    stepEvents x.after.2.run.trace = x.events ++ stepEvents x.before.2.run.trace := by
  obtain ⟨place, d, last, s, a, t, placed, made⟩ := x
  obtain ⟨m?, u, w, improved, sc', hchoose, -, hcomplete, rfl⟩ := step_eq_ok made
  obtain ⟨-, -, htries⟩ := choose_tried hchoose
  have htrace : u.2.run.trace = (fired .stepStarted last s).2.run.trace := by rw [htries.eq]
  show (Event.stepEnded, _) :: stepEvents sc'.run.trace = _
  rw [(Scope.completeStep_eq_ok hcomplete).2]
  show (Event.stepEnded, _) :: stepEvents u.2.run.trace = _
  rw [htrace]
  rfl

theorem steps_after (x : StepMade W S V sh) :
    x.after.2.run.steps = x.before.2.run.steps + 1 := by
  have h := step_heard x.place x.last x.before
  rw [x.made] at h
  cases h with
  | ok h => exact congrArg (·.told.steps) h

end StepMade

/-! ## Runs -/

/-- The steps that lead a construction from one state to another. The score in front is that of the
last step. -/
inductive Course : Score sh → Construction S V sh × Scope W S sh → List (StepMade W S V sh) →
    Construction S V sh × Scope W S sh → Prop
  | stop (last : Score sh) (s : Construction S V sh × Scope W S sh) : Course last s [] s
  | step (x : StepMade W S V sh) {xs : List (StepMade W S V sh)}
    {t : Construction S V sh × Scope W S sh} (rest : Course x.score x.after xs t) :
    Course x.last x.before (x :: xs) t

variable {xs : List (StepMade W S V sh)}

/-- The placements are worked off from the head, and all of them unless the phase is stopped. -/
theorem steps_course {places : List Placement} {o : Outcome × Score sh}
    (hplaces : ∀ place ∈ places, ∃ d, s.1.definitions[place.placer]? = some d)
    (e : steps places last s = .ok o t) :
    ∃ (xs : List (StepMade W S V sh)) (rest : List Placement), Course last s xs t ∧
      places = xs.map StepMade.place ++ rest ∧
      (o.1 = .completed ∧ rest = [] ∨ o.1 = .terminated ∧ rest ≠ []) := by
  induction places generalizing last s with
  | nil =>
    cases e
    exact ⟨[], [], .stop _ _, rfl, .inl ⟨rfl, rfl⟩⟩
  | cons place places ih =>
    obtain ⟨⟨d, hd⟩, hplaces⟩ := List.forall_mem_cons.1 hplaces
    rw [steps, Step.get_bind] at e
    dsimp only at e
    split at e
    · cases e
      exact ⟨[], place :: places, .stop _ _, rfl, .inr ⟨rfl, List.cons_ne_nil _ _⟩⟩
    obtain ⟨a, s₁, hstep, e⟩ := Step.bind_eq_ok e
    obtain ⟨xs, rest, hcourse, rfl, ho⟩ := ih (step_definitions hstep ▸ hplaces) e
    let x : StepMade W S V sh := ⟨place, d, last, s, a, s₁, hd, hstep⟩
    exact ⟨x :: xs, rest, .step x hcourse, rfl, ho⟩

namespace Course

theorem definition_mem (h : Course last s xs t) : ∀ x ∈ xs,
    s.1.definitions[x.place.placer]? = some x.definition := by
  induction h with
  | stop last s => exact List.forall_mem_nil _
  | step x rest ih =>
    refine List.forall_mem_cons.2 ⟨x.placed, fun y hy => ?_⟩
    rw [← step_definitions x.made]
    exact ih y hy

theorem slotsOf_eq (h : Course last s xs t) {ds : List (Definition S V)}
    (hs : s.1.definitions = ds) : slotsOf ds (xs.map StepMade.place) = xs.map StepMade.slot := by
  have hxs := hs ▸ h.definition_mem
  clear h
  induction xs with
  | nil => rfl
  | cons x xs ih =>
    obtain ⟨hx, hxs⟩ := List.forall_mem_cons.1 hxs
    rw [List.map_cons, slotsOf_cons hx, ih hxs]
    rfl

theorem stepEvents_eq (h : Course last s xs t) : stepEvents t.2.run.trace =
    xs.reverse.flatMap StepMade.events ++ stepEvents s.2.run.trace := by
  induction h with
  | stop last s => rfl
  | step x rest ih =>
    rw [ih, x.stepEvents_after, List.reverse_cons, List.flatMap_append, List.flatMap_singleton,
      List.append_assoc]

theorem steps_eq (h : Course last s xs t) : t.2.run.steps = s.2.run.steps + xs.length := by
  induction h with
  | stop last s => rfl
  | step x rest ih =>
    rw [ih, x.steps_after, List.length_cons]
    omega

theorem of_iff (h : Course last s xs t) (hfills : ∀ x ∈ xs, x.Fills X) (c : Slot S V) :
    c.Of X t.2.run.plan ↔ c.Of X s.2.run.plan := by
  induction h with
  | stop last s => exact Iff.rfl
  | step x rest ih =>
    obtain ⟨hx, hfills⟩ := List.forall_mem_cons.1 hfills
    exact (ih hfills).trans (hx.of_iff c)

/-- What is no slot of the steps stays as it is throughout. -/
theorem kept (h : Course last s xs t) (hfills : ∀ x ∈ xs, x.Fills X) {c : Slot S V}
    (hc : c.Of X s.2.run.plan) (hne : ∀ x ∈ xs, c ≠ x.slot) :
    c.get t.2.run.plan = c.get s.2.run.plan ∧ ∀ x ∈ xs,
      c.get x.started.plan = c.get s.2.run.plan ∧ c.get x.ended.plan = c.get s.2.run.plan := by
  induction h with
  | stop last s => exact ⟨rfl, List.forall_mem_nil _⟩
  | step x rest ih =>
    obtain ⟨hx, hfills⟩ := List.forall_mem_cons.1 hfills
    obtain ⟨hcx, hne⟩ := List.forall_mem_cons.1 hne
    have hstep : c.get x.ended.plan = c.get x.started.plan := hx.others c hc hcx
    obtain ⟨hend, hsteps⟩ := ih hfills ((hx.of_iff c).2 hc) hne
    refine ⟨hend.trans hstep, List.forall_mem_cons.2 ⟨⟨rfl, hstep⟩, fun y hy => ?_⟩⟩
    exact ⟨(hsteps y hy).1.trans hstep, (hsteps y hy).2.trans hstep⟩

/-- Different gaps are filled one after another: each is still a gap when its turn comes. -/
theorem fills [Workspace.Lawful W] (hX : Anchored X) (h : Course last s xs t)
    (hgaps : ∀ x ∈ xs, x.slot.Open X s.2.run.plan ∧ x.slot.get s.2.run.plan = none)
    (hnodup : (xs.map StepMade.slot).Nodup) : ∀ x ∈ xs, x.Fills X := by
  induction h with
  | stop last s => exact List.forall_mem_nil _
  | step x rest ih =>
    obtain ⟨⟨hopen, hgap⟩, hgaps⟩ := List.forall_mem_cons.1 hgaps
    obtain ⟨hx, hnodup⟩ := List.nodup_cons.1 hnodup
    have hfills : x.Fills X := StepMade.fills hX hopen hgap
    refine List.forall_mem_cons.2 ⟨hfills, ih (fun y hy => ?_) hnodup⟩
    obtain ⟨hyopen, hygap⟩ := hgaps y hy
    have hne : y.slot ≠ x.slot := fun e => hx (e ▸ List.mem_map_of_mem hy)
    exact ⟨(hfills.open_iff _).2 hyopen, (hfills.others _ hyopen.of hne).trans hygap⟩

/-- What a step wrote lasts. -/
theorem lasts (h : Course last s xs t) (hfills : ∀ x ∈ xs, x.Fills X)
    (hnodup : (xs.map StepMade.slot).Nodup) :
    ∀ x ∈ xs, x.slot.get t.2.run.plan = x.slot.get x.ended.plan := by
  induction h with
  | stop last s => exact List.forall_mem_nil _
  | step x rest ih =>
    obtain ⟨hx, hfills⟩ := List.forall_mem_cons.1 hfills
    obtain ⟨hnot, hnodup⟩ := List.nodup_cons.1 hnodup
    refine List.forall_mem_cons.2 ⟨?_, ih hfills hnodup⟩
    have hof : x.slot.Of X x.ended.plan := (hx.of_iff _).2 hx.isOpen.of
    exact (rest.kept hfills hof fun y hy e => hnot (e ▸ List.mem_map_of_mem hy)).1

end Course

/-! ## Phases -/

/-- What the steps `xs` of a construction of the variables `ds` have made of `plan` when it ends with
`plan'`, and the gaps `rest` are left. -/
structure Filled (X : Variable S V → Prop) (ds : List (Definition S V)) (plan : S)
    (xs : List (StepMade W S V sh)) (rest : List (Slot S V)) (plan' : S) : Prop where
  /-- Each gap is visited in one step or left, one variable after another. -/
  inOrder : InOrder plan ds (xs.map StepMade.slot ++ rest)
  nodup : (xs.map StepMade.slot ++ rest).Nodup
  definition_mem : ∀ x ∈ xs, x.definition ∈ ds
  fills : ∀ x ∈ xs, x.Fills X
  /-- What was visited has no value in the end only where there was none to choose. -/
  get_eq_none_iff : ∀ x ∈ xs, x.slot.get plan' = none ↔ x.values = []
  /-- What had a value or is pinned, and all else that was not visited, stays as it is. -/
  kept : ∀ c : Slot S V, c.Of X plan →
    c.get plan ≠ none ∨ Plan.isPinned plan c.fact ∨ c ∉ xs.map StepMade.slot →
      c.get plan' = c.get plan ∧ ∀ x ∈ xs,
        c.get x.started.plan = c.get plan ∧ c.get x.ended.plan = c.get plan

variable {ds : List (Definition S V)} {q p' : S} {slots : List (Slot S V)}

/-- A course through the gaps at the head of the list fills these. -/
theorem Course.filled [Workspace.Lawful W] (hX : Anchored X) (h : Course last s xs t)
    (hds : ∀ d ∈ ds, X d.cell) (hdistinct : ds.Pairwise fun d d' => ¬d.cell.sameAs d'.cell)
    (hs : s.1.definitions = ds) (hp : Coincides X p s.2.run.plan)
    (hp' : Coincides X t.2.run.plan p') (horder : InOrder p ds (xs.map StepMade.slot ++ slots)) :
    Filled X ds p xs slots p' := by
  have hnodup := horder.nodup hdistinct
  have hxs : (xs.map StepMade.slot).Nodup := (List.nodup_append.1 hnodup).1
  have hgap : ∀ x ∈ xs, x.slot.Open X p ∧ x.slot.get p = none := fun x hx =>
    horder.gap hds (List.mem_append_left _ (List.mem_map_of_mem hx))
  have hfills : ∀ x ∈ xs, x.Fills X := h.fills hX (fun x hx =>
    ⟨(hp.open_iff _).1 (hgap x hx).1, (hp.get _ (hgap x hx).1.of).symm.trans (hgap x hx).2⟩) hxs
  have hend : ∀ {c : Slot S V}, c.Of X p → c.get p' = c.get t.2.run.plan := fun hc =>
    (hp'.get _ ((h.of_iff hfills _).2 ((hp.of_iff _).1 hc))).symm
  refine ⟨horder, hnodup, fun x hx => ?_, hfills, fun x hx => ?_, fun c hc hcause => ?_⟩
  · rw [← hs]
    exact List.mem_of_getElem? (h.definition_mem x hx)
  · rw [hend (hgap x hx).1.of, h.lasts hfills hxs x hx]
    exact (hfills x hx).supplied.eq_none_iff
  · have hne : ∀ x ∈ xs, c ≠ x.slot := by
      rintro x hx rfl
      obtain ⟨hopen, hnone⟩ := hgap x hx
      rcases hcause with hvalue | hpinned | hnot
      · exact hvalue hnone
      · rw [hopen.isPinned] at hpinned
        cases hpinned
      · exact hnot (List.mem_map_of_mem hx)
    obtain ⟨hkept, hsteps⟩ := h.kept hfills ((hp.of_iff c).1 hc) hne
    rw [hend hc, hp.get c hc]
    exact ⟨hkept, hsteps⟩

variable {p' : Construction S V sh} {sc : Scope W S sh} {outcome : Outcome}

/-- What a phase that came to its end has done: it has worked off the placements from the head, and
all of them unless it was stopped. -/
theorem work_course {p : Construction S V sh} (e : work (p, sc) = .ok outcome t) :
    ∃ (start : Score sh) (w : W) (xs : List (StepMade W S V sh)) (rest : List Placement)
      (u : Construction S V sh × Scope W S sh),
      Workspace.score (Workspace.restart sc.run.workspace) = .ok start w ∧
      (p.hear .phaseStarted).placements (Workspace.plan w) = xs.map StepMade.place ++ rest ∧
      Course start (begun p sc start w) xs u ∧
      (outcome = .completed ∧ rest = [] ∨ outcome = .terminated ∧ rest ≠ []) ∧
      stepEvents t.2.run.trace = xs.reverse.flatMap StepMade.events ++ stepEvents sc.run.trace ∧
      t.2.run.steps = sc.run.steps + xs.length ∧
      ∃ last, Workspace.score u.2.run.workspace = .ok last t.2.run.workspace := by
  obtain ⟨start, w, last, u, improved, sc', hscore, hsteps, hbest, rfl⟩ := work_eq_ok e
  have hplaced : ∀ place ∈ (p.hear .phaseStarted).placements (Workspace.plan w),
      ∃ d, (begun p sc start w).1.definitions[place.placer]? = some d := fun place hplace =>
    ⟨_, definition_of_placer (List.getElem?_eq_getElem (placer_lt hplace))⟩
  obtain ⟨xs, rest, hcourse, hlisted, houtcome⟩ := steps_course hplaced hsteps
  obtain ⟨hlast, hevents⟩ := Scope.updateBest_eq_ok hbest
  refine ⟨start, w, xs, rest, u, hscore, hlisted, hcourse, houtcome,
    hevents.trans hcourse.stepEvents_eq, ?_, hlast⟩
  have htold := Scope.updateBest_told u.2
  rw [hbest] at htold
  cases htold with
  | ok h => exact (congrArg Told.steps h.2).trans hcourse.steps_eq

theorem work_fills [Workspace.Lawful W] (hX : Anchored X) {p : Construction S V sh} (hp : p.Over X)
    (hdistinct : p.definitions.Pairwise fun d d' => ¬d.cell.sameAs d'.cell)
    (e : work (p, sc) = .ok outcome t) :
    ∃ (xs : List (StepMade W S V sh)) (rest : List (Slot S V)),
      stepEvents t.2.run.trace = xs.reverse.flatMap StepMade.events ++ stepEvents sc.run.trace ∧
      t.2.run.steps = sc.run.steps + xs.length ∧
      (outcome = .completed ∧ rest = [] ∨ outcome = .terminated ∧ rest ≠ []) ∧
      Filled X p.definitions sc.run.plan xs rest t.2.run.plan := by
  have hl := hX.lenses
  have hover : ∀ d ∈ p.definitions, X d.cell := over_iff.1 hp
  obtain ⟨start, w, xs, rest, u, hscore, hlisted, hcourse, houtcome, hevents, hcount, _, hlast⟩ :=
    work_course e
  have hdefinitions : (begun p sc start w).1.definitions = p.definitions :=
    definitions_hear p .phaseStarted
  -- Nothing but the stored score has changed when the gaps are listed.
  have hbegun : Coincides X sc.run.plan (begun p sc start w).2.run.plan := by
    have hrestart : Workspace.plan (Workspace.restart sc.run.workspace) = sc.run.plan :=
      Workspace.Lawful.plan_reset _ _
    rw [← hrestart]
    exact hl.equivalence.symm (Workspace.same_score hl.equivalence hX.scoreFree hscore)
  have horder := inOrder_placements (p.hear .phaseStarted) (Workspace.plan w)
  rw [definitions_hear, hlisted, slotsOf_append, hcourse.slotsOf_eq hdefinitions] at horder
  refine ⟨xs, slotsOf p.definitions rest, hevents, hcount, ?_, ?_⟩
  · rcases houtcome with ⟨houtcome, rfl⟩ | ⟨houtcome, hrest⟩
    · exact .inl ⟨houtcome, rfl⟩
    · obtain ⟨place, rest, rfl⟩ := List.exists_cons_of_ne_nil hrest
      have hplace : place ∈ (p.hear .phaseStarted).placements (Workspace.plan w) :=
        hlisted ▸ List.mem_append_right _ List.mem_cons_self
      have hplacer := definition_of_placer (List.getElem?_eq_getElem (placer_lt hplace))
      rw [definitions_hear] at hplacer
      rw [slotsOf_cons hplacer]
      exact .inr ⟨houtcome, List.cons_ne_nil _ _⟩
  · refine hcourse.filled hX hover hdistinct hdefinitions hbegun ?_
      (horder.congr (hl.equivalence.symm hbegun) hover)
    exact hl.equivalence.symm (Workspace.same_score hl.equivalence hX.scoreFree hlast)

/-- A construction of different variables makes one step for each gap of them, in the order of the
variables, and leaves a gap as it is only if there is no value for it; all that had a value or is
pinned stays as it is. Unless it completes, it was stopped and has done this for the first gaps. -/
theorem solve_fills [Workspace.Lawful W] (hX : Anchored X) {p : Construction S V sh}
    {run run' : Run W S sh} (hp : p.Over X)
    (hdistinct : p.definitions.Pairwise fun d d' => ¬d.cell.sameAs d'.cell)
    (e : solve (p, run) = .ok outcome (p', run')) :
    ∃ (xs : List (StepMade W S V sh)) (rest : List (Slot S V)),
      stepEvents run'.trace = xs.reverse.flatMap StepMade.events ++ stepEvents run.trace ∧
      run'.steps = run.steps + xs.length ∧
      (outcome = .completed ∧ rest = [] ∨ outcome = .terminated ∧ rest ≠ []) ∧
      Filled X p.definitions run.plan xs rest run'.plan := by
  obtain ⟨sc, hwork, rfl⟩ := solve_eq_ok e
  exact work_fills hX hp hdistinct hwork

end Construction

/-! ## Filling a row with pins -/

namespace Board

/-- Places sevens or eights, except that there is no value for the last of four cells. -/
def filler : Construction Board Nat .simple :=
  .firstFit [{ entityClass := "Board", cell := cell
               range := .perEntity fun _ e => if e = 3 then [] else [7, 8] }]

/-- The third of four cells is pinned. -/
def run : Run (RecomputingWorkspace Board .simple) Board .simple where
  workspace := workspace [none, some 3, none, none] [2]
  source := .ofSeed 0

/-- The first and the last cell are gaps, and there is a value for the first of them. -/
theorem solve_fills_filler : ∃ (p' : Construction Board Nat .simple)
    (run' : Run (RecomputingWorkspace Board .simple) Board .simple)
    (xs : List (Construction.StepMade (RecomputingWorkspace Board .simple) Board Nat .simple)),
    Construction.solve (filler, run) = .ok .completed (p', run') ∧
      run'.plan.row.cells = [some 7, some 3, none, none] ∧ xs.length = 2 ∧
      Construction.Filled (· = cell) filler.definitions run.plan xs [] run'.plan := by
  have hover : filler.Over (· = cell) := fun placer hplacer => by
    rw [List.mem_singleton.1 hplacer]
    rfl
  have hok : (match Construction.solve (filler, run) with
      | .ok outcome (_, run') => decide (outcome = .completed ∧ run'.steps = 2 ∧
          run'.plan.row.cells = [some 7, some 3, none, none])
      | .error _ _ => false) = true := by decide +kernel
  cases e : Construction.solve (filler, run) with
  | error f s =>
    rw [e] at hok
    cases hok
  | ok outcome s =>
    rw [e] at hok
    obtain ⟨p', run'⟩ := s
    obtain ⟨rfl, hsteps, hcells⟩ := of_decide_eq_true hok
    obtain ⟨xs, rest, -, hcount, houtcome, hfilled⟩ :=
      Construction.solve_fills anchored hover (List.pairwise_singleton _ _) e
    rcases houtcome with ⟨-, rfl⟩ | ⟨h, -⟩
    · refine ⟨p', run', xs, rfl, hcells, ?_, hfilled⟩
      have hstart : run.steps = 0 := rfl
      omega
    · cases h

end Board

end PlanSearch
