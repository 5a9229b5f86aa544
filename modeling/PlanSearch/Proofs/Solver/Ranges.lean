import PlanSearch.Proofs.Workspace.Guard

/-!
# Values within their ranges

A plan is legal if every variable that has a value has one of the range of its own entity, and if no
variable lost the value that it had at the start unless it may stay without one. Changes assign what
is to choose from for their entity, and keep a plan legal. A swap asks neither range; it keeps a plan
legal if the two entities have the same range, and if both or neither had a value at the start.

    d.Uniform start → both entities of a swap permit the same      (Definition.Uniform.permits)
    FixedRanges D → swaps of uniform variables → plans told of are legal   (Solver.solve_legal)
    cells with ranges of their own exchange their values           (Row.solve_trades_values)
-/

namespace PlanSearch

variable {W S V : Type} {sh : Shape} [Plan S sh]

/-! ## Legal plans -/

/-- The cells of the definitions `D`. -/
def CellOf (D : Definition S V → Prop) (x : Variable S V) : Prop := ∃ d, D d ∧ d.cell = x

/-- Each cell has one definition. Which entities exist, which of them are pinned and what there is to
choose from depend neither on planning variables nor on the stored score. -/
structure FixedRanges (D : Definition S V → Prop) : Prop extends Anchored (CellOf D) where
  unique : ∀ {d d' : Definition S V}, D d → D d' → d.cell = d'.cell → d = d'
  values_set : ∀ {p : S} {a : Slot S V} (v : Option V), a.Of (CellOf D) p → ∀ d, D d → ∀ e,
    d.range.values (a.set p v) e = d.range.values p e
  values_setScore : ∀ (c : Option (Score sh)) (p : S) (d : Definition S V), D d → ∀ e,
    d.range.values (Plan.setScore c p) e = d.range.values p e

namespace Definition

/-- What the variable may hold: a value of the range of the entity, or none if it had none at the
start or may stay without one. -/
def Permits (start : S) (d : Definition S V) (e : Nat) : Option V → Prop
  | some v => v ∈ d.range.values start e
  | none => d.allowsUnassigned ∨ d.cell.get start e = none

/-- Movable entities have the same range, and all or none of them had a value at the start unless
they may stay without one. -/
def Uniform (start : S) (d : Definition S V) : Prop :=
  ∀ e ∈ Plan.movable start d.cell.family, ∀ e' ∈ Plan.movable start d.cell.family,
    (∀ v, v ∈ d.range.values start e → v ∈ d.range.values start e') ∧
      (d.allowsUnassigned ∨ (d.cell.get start e = none → d.cell.get start e' = none))

end Definition

/-- The plan has the entities and the ranges of the start, every value is one of the range of its
entity, and what was assigned at the start is assigned unless it may stay without a value. -/
structure Legal (D : Definition S V → Prop) (start p : S) : Prop where
  entityCount : ∀ family, Plan.entityCount p family = Plan.entityCount start family
  isPinned : ∀ f, Plan.isPinned p f = Plan.isPinned start f
  values : ∀ d, D d → ∀ e, d.range.values p e = d.range.values start e
  permits : ∀ d, D d → ∀ e, Plan.Has start ⟨d.cell.family, e⟩ → d.Permits start e (d.cell.get p e)

variable {D : Definition S V → Prop} {start p : S} {d : Definition S V} {a : Slot S V} {e : Nat}

namespace Legal

/-- Every value is one of the range of its own entity. -/
theorem mem_values (h : Legal D start p) (hd : D d) (he : Plan.Has p ⟨d.cell.family, e⟩) {v : V}
    (hv : d.cell.get p e = some v) : v ∈ d.range.values p e := by
  unfold Plan.Has at he
  rw [h.entityCount] at he
  have hpermits := h.permits d hd e he
  rw [hv] at hpermits
  rw [h.values d hd]
  exact hpermits

/-- What was assigned is assigned, unless it may stay without a value. -/
theorem isSome_of_isSome (h : Legal D start p) (hd : D d) (hall : d.allowsUnassigned = false)
    (he : Plan.Has start ⟨d.cell.family, e⟩) (hv : (d.cell.get start e).isSome) :
    (d.cell.get p e).isSome := by
  have hpermits := h.permits d hd e he
  cases hp : d.cell.get p e with
  | some v => rfl
  | none =>
    rw [hp] at hpermits
    rcases hpermits with hnone | hnone
    · rw [hall] at hnone
      cases hnone
    · rw [hnone] at hv
      cases hv

/-- A start is legal if every value is one of the range of its own entity. -/
theorem of_mem_values (h : ∀ d, D d → ∀ e, Plan.Has start ⟨d.cell.family, e⟩ → ∀ v,
    d.cell.get start e = some v → v ∈ d.range.values start e) : Legal D start start where
  entityCount _ := rfl
  isPinned _ := rfl
  values _ _ _ := rfl
  permits d hd e he := by
    cases hv : d.cell.get start e with
    | some v => exact h d hd e he v hv
    | none => exact .inr hv

theorem movable (h : Legal D start p) (family : Nat) :
    Plan.movable p family = Plan.movable start family :=
  Plan.movable_congr (h.entityCount family) h.isPinned

theorem setScore (h : Legal D start p) (hD : FixedRanges D) (c : Option (Score sh)) :
    Legal D start (Plan.setScore c p) where
  entityCount family := by rw [hD.entityCount_setScore, h.entityCount]
  isPinned f := by rw [hD.isPinned_setScore, h.isPinned]
  values d hd e := by rw [hD.values_setScore c p d hd, h.values d hd]
  permits d hd e he := by
    have hof : (⟨d.cell, e⟩ : Slot S V).Of (CellOf D) p := by
      refine ⟨⟨d, hd, rfl⟩, ?_⟩
      unfold Plan.Has
      rw [h.entityCount]
      exact he
    rw [show d.cell.get (Plan.setScore c p) e = d.cell.get p e from hD.get_setScore c hof]
    exact h.permits d hd e he

/-- A write keeps a plan legal if the value is permitted. -/
theorem set (h : Legal D start p) (hD : FixedRanges D) (ha : a.Open (CellOf D) start) {v : Option V}
    (hv : ∀ d, D d → d.cell = a.cell → d.Permits start a.entity v) : Legal D start (a.set p v) := by
  have hof : ∀ b : Slot S V, b.Of (CellOf D) start → b.Of (CellOf D) p := fun b hb => by
    refine ⟨hb.1, ?_⟩
    unfold Plan.Has
    rw [h.entityCount]
    exact hb.2
  refine ⟨fun family => ?_, fun f => ?_, fun d hd e => ?_, fun d hd e he => ?_⟩
  · rw [hD.entityCount_set v (hof a ha.of), h.entityCount]
  · rw [hD.isPinned_set v (hof a ha.of), h.isPinned]
  · rw [hD.values_set v (hof a ha.of) d hd, h.values d hd]
  · have hb : (⟨d.cell, e⟩ : Slot S V).Of (CellOf D) p := hof _ ⟨⟨d, hd, rfl⟩, he⟩
    have hget : d.cell.get (a.set p v) e =
        if a.sameAs ⟨d.cell, e⟩ then v else d.cell.get p e := hD.get_set_eq v (hof a ha.of) hb
    rw [hget]
    split
    · next hsame =>
      obtain rfl := hD.slot_eq_of_sameAs ha.1 hb.1 hsame
      exact hv d hd rfl
    · exact h.permits d hd e he

end Legal

/-! ## Leaves -/

/-- The leaf assigns what is permitted to an open slot, or exchanges what is permitted to both
entities. -/
def Leaf.Lawful (D : Definition S V → Prop) (start : S) : Leaf S V → Prop
  | change x e v => Slot.Open (CellOf D) start ⟨x, e⟩ ∧
      ∀ d, D d → d.cell = x → d.Permits start e v
  | swap x left right => Slot.Open (CellOf D) start ⟨x, left⟩ ∧
      Slot.Open (CellOf D) start ⟨x, right⟩ ∧
      ∀ d, D d → d.cell = x → ∀ v, d.Permits start left v ↔ d.Permits start right v

theorem FixedRanges.upkeep (hD : FixedRanges D) (start : S) :
    Upkeep sh (Leaf.Lawful D start) (Legal D start) where
  leaf {p m} hp hm := by
    cases m with
    | change x e v => exact hp.set hD hm.1 hm.2
    | swap x left right =>
      obtain ⟨hleft, hright, hboth⟩ := hm
      have hpermits : ∀ {e e' : Nat}, Slot.Open (CellOf D) start ⟨x, e⟩ →
          (∀ d, D d → d.cell = x → ∀ v, d.Permits start e v → d.Permits start e' v) →
          ∀ d, D d → d.cell = x → d.Permits start e' (x.get p e) := fun he hto d hd hx => by
        subst hx
        exact hto d hd rfl _ (hp.permits d hd _ he.of.2)
      have hfirst := hp.set hD hleft (v := x.get p right) (hpermits hright fun d hd hx v =>
        (hboth d hd hx v).2)
      exact hfirst.set hD hright (hpermits hleft fun d hd hx v => (hboth d hd hx v).1)
  restore {p m a} hp hm ha := by
    have hopen : a.Open (CellOf D) start := by
      cases m with
      | change x e v =>
        rw [List.mem_singleton.1 ha]
        exact hm.1
      | swap x left right =>
        rcases List.mem_cons.1 ha with rfl | ha
        · exact hm.1
        · rw [List.mem_singleton.1 ha]
          exact hm.2.1
    refine ⟨hopen, fun d hd hx => ?_⟩
    have hpermits := hp.permits d hd a.entity (hx ▸ hopen.of.2)
    rw [hx] at hpermits
    exact hpermits
  setScore c hp := hp.setScore hD c

/-! ## Walks and phases -/

mutual

/-- Changes are of variables defined by `D`, and swaps of variables that are uniform at the start. -/
def Tree.Respectful (D : Definition S V → Prop) (start : S) : Tree S V → Prop
  | .change d _ => D d
  | .swap x _ => ∃ d, D d ∧ d.cell = x ∧ d.Uniform start
  | .union children _ _ => Tree.AllRespectful D start children
  | .product children _ => Tree.AllRespectful D start children
  | .filter child _ => Tree.Respectful D start child

def Tree.AllRespectful (D : Definition S V → Prop) (start : S) : List (Tree S V) → Prop
  | [] => True
  | t :: ts => Tree.Respectful D start t ∧ Tree.AllRespectful D start ts

end

/-- The phase assigns to variables defined by `D`, and exchanges values of uniform ones only. -/
def SearchPhase.Respectful (D : Definition S V → Prop) (start : S) : SearchPhase S V sh → Prop
  | construction p => ∀ d ∈ p.definitions, D d
  | localSearch p => p.neighbourhood.tree.Respectful D start

theorem Slot.Known.open (ha : a.Known (Legal D start)) (hcell : CellOf D a.cell) :
    a.Open (CellOf D) start := by
  obtain ⟨p, hp, he⟩ := ha
  rw [hp.movable] at he
  exact ⟨hcell, he⟩

/-- What there is to choose from is permitted. -/
theorem Definition.Offers.permits (hd : D d) {v : Option V} (h : d.Offers (Legal D start) e v) :
    d.Permits start e v := by
  obtain ⟨p, e', hp, hentity, hv⟩ := h
  unfold Definition.choices at hv
  rw [hp.values d hd] at hv
  have hvalues : d.range.values start e' = d.range.values start e := by
    cases hrange : d.range with
    | listed vs => rfl
    | computed f => rfl
    | perEntity f => rw [hentity (by rw [hrange]; rfl)]
  rw [hvalues] at hv
  cases v with
  | none =>
    refine .inl ?_
    by_contra hall
    rw [if_neg hall, List.nil_append] at hv
    obtain ⟨v, -, hnone⟩ := List.mem_map.1 hv
    cases hnone
  | some v =>
    rcases List.mem_append.1 hv with hv | hv
    · split at hv
      · cases List.mem_singleton.1 hv
      · cases hv
    · obtain ⟨v', hv', hsome⟩ := List.mem_map.1 hv
      exact Option.some.inj hsome ▸ hv'

theorem Definition.Uniform.permits (h : d.Uniform start) {e' : Nat} {v : Option V}
    (he : e ∈ Plan.movable start d.cell.family) (he' : e' ∈ Plan.movable start d.cell.family)
    (hv : d.Permits start e v) : d.Permits start e' v := by
  obtain ⟨hvalues, hassigned⟩ := h e he e' he'
  cases v with
  | some v => exact hvalues v hv
  | none =>
    rcases hv with hall | hnone
    · exact .inl hall
    · exact hassigned.imp_right fun h => h hnone

namespace FixedRanges

theorem suits_definition (hD : FixedRanges D) (hd : D d) :
    d.Suits (Leaf.Lawful D start) (Legal D start) := fun e v he hv => by
  refine ⟨he.open ⟨d, hd, rfl⟩, fun d' hd' hcell => ?_⟩
  rw [hD.unique hd' hd hcell]
  exact hv.permits hd

mutual

theorem suits_tree (hD : FixedRanges D) :
    (t : Tree S V) → t.Respectful D start → t.Suits (Leaf.Lawful D start) (Legal D start)
  | .change _ _, ht => hD.suits_definition ht
  | .swap x _, ⟨d, hd, hx, huniform⟩ => fun left right hleft hright => by
    subst hx
    have hl := hleft.open ⟨d, hd, rfl⟩
    have hr := hright.open ⟨d, hd, rfl⟩
    refine ⟨hl, hr, fun d' hd' hcell v => ?_⟩
    rw [hD.unique hd' hd hcell]
    exact ⟨huniform.permits hl.2 hr.2, huniform.permits hr.2 hl.2⟩
  | .union children _ _, ht => suits_trees hD children ht
  | .product children _, ht => suits_trees hD children ht
  | .filter child _, ht => suits_tree hD child ht

theorem suits_trees (hD : FixedRanges D) : (ts : List (Tree S V)) →
    Tree.AllRespectful D start ts → Tree.SuitsAll (Leaf.Lawful D start) (Legal D start) ts
  | [], _ => trivial
  | t :: ts, hts => ⟨suits_tree hD t hts.1, suits_trees hD ts hts.2⟩

end

theorem suits (hD : FixedRanges D) {phase : SearchPhase S V sh} (h : phase.Respectful D start) :
    phase.Suits (Leaf.Lawful D start) (Legal D start) := by
  cases phase with
  | construction p => exact fun d hd => hD.suits_definition (h d hd)
  | localSearch p => exact hD.suits_tree _ h

end FixedRanges

/-! ## Solves -/

/-- If values of uniform variables only are exchanged, every plan that listeners hear of is legal,
and so is the one that is answered, however the solve goes and ends. -/
theorem Solver.solve_legal [Workspace W S sh] [Workspace.Lawful W] [DecidableEq V] [ToString V]
    (hD : FixedRanges D) (fuel : Nat) {solver : Solver (SearchPhase S V sh) S sh} {w : W}
    (hsolver : ∀ p ∈ solver.phases, p.Respectful D (Workspace.plan w))
    (hw : Legal D (Workspace.plan w) (Workspace.plan w)) :
    Finishes
      (fun x t => Legal D (Workspace.plan w) x.plan ∧ t.2.Sound (Legal D (Workspace.plan w)))
      (fun _ t => t.2.Sound (Legal D (Workspace.plan w))) (solver.solve fuel w) :=
  solve_sound (hD.upkeep _) fuel (fun p hp => hD.suits (hsolver p hp)) hw

/-! ## A row -/

namespace Row

theorem anchored : Anchored (· = cell) where
  toCells := lawful.toCells
  isPinned_set _ _ _ := rfl
  entityCount_setScore := scoreCell.entityCount_setScore
  isPinned_setScore _ _ _ := rfl
  get_setScore := scoreCell.get_setScore

/-- Cells with a range for each entity, whatever the row holds. -/
def ranged (range : Nat → List Nat) : Definition Row Nat where
  entityClass := "Row"
  cell := cell
  range := .perEntity fun _ e => range e

theorem fixedRanges (range : Nat → List Nat) : FixedRanges (· = ranged range) := by
  have hcells : CellOf (· = ranged range) = (· = cell) := by
    funext x
    exact propext ⟨fun ⟨d, hd, hx⟩ => by rw [← hx, hd]; rfl, fun hx => ⟨_, rfl, hx.symm⟩⟩
  refine { hcells ▸ anchored with
    unique := fun hd hd' _ => hd.trans hd'.symm
    values_set := fun v ha d hd e => ?_
    values_setScore := fun c p d hd e => ?_ } <;> rw [hd] <;> rfl

theorem legal_start {range : Nat → List Nat} {row : Row}
    (h : ∀ e < row.cells.length, ∃ v, cell.get row e = some v ∧ v ∈ range e) :
    Legal (· = ranged range) row row := by
  refine .of_mem_values fun d hd e he v hv => ?_
  rw [hd] at he hv ⊢
  obtain ⟨v', hget, hmem⟩ := h e he
  obtain rfl : v' = v := Option.some.inj (hget.symm.trans hv)
  exact hmem

/-- A row is worth what its first cell holds. -/
def headed (cells : List (Option Nat)) : RecomputingWorkspace Row .simple where
  plan := ⟨cells, none⟩
  calculate row := .ok (.single 0 (Int64.ofNat ((cell.get row 0).getD 0)))

/-- A local search of two steps. -/
def seeking (tree : Tree Row Nat) : Solver (SearchPhase Row Nat .simple) Row .simple where
  phases := [.localSearch { neighbourhood := .ofTree tree, candidateLimit := some 8 }]
  termination := some (.steps 2)

/-- Both cells take a seven or an eight, though they are not offered them in the same order. A cell
is changed while cells are swapped. -/
theorem solve_legal_seeking :
    let range := fun e => if e = 0 then [7, 8] else [8, 7]
    let w := headed [some 7, some 7]
    let solver := seeking (.product [.change (ranged range) .random, .swap cell .original] false)
    (∀ p ∈ solver.phases, p.Respectful (· = ranged range) w.plan) ∧
      Legal (· = ranged range) w.plan w.plan ∧
      ∃ x s, solver.solve 9 w = .ok x s ∧ x.plan.cells ≠ w.plan.cells ∧
        Legal (· = ranged range) w.plan x.plan ∧
        s.2.Sound (Legal (· = ranged range) w.plan) := by
  intro range w solver
  have hrange : ∀ e v, v ∈ range e ↔ v = 7 ∨ v = 8 := fun e v => by
    show v ∈ (if e = 0 then [7, 8] else [8, 7]) ↔ _
    split
    · simp only [List.mem_cons, List.not_mem_nil, or_false]
    · simp only [List.mem_cons, List.not_mem_nil, or_false]
      exact or_comm
  have hrespectful : ∀ p ∈ solver.phases, p.Respectful (· = ranged range) w.plan := by
    refine List.forall_mem_singleton.2
      ⟨rfl, ⟨ranged range, rfl, rfl, fun e he e' he' => ⟨fun v hv => ?_, .inr fun hnone => ?_⟩⟩, trivial⟩
    · exact (hrange e' v).2 ((hrange e v).1 hv)
    · replace he : e ∈ [0, 1] := he
      rcases List.mem_pair.1 he with rfl | rfl
      all_goals cases hnone
  have hlegal : Legal (· = ranged range) w.plan w.plan := legal_start fun e he => by
    replace he : e < 2 := he
    obtain rfl | rfl : e = 0 ∨ e = 1 := by omega
    all_goals exact ⟨7, rfl, by decide⟩
  have hok : (match solver.solve 9 w with
      | .ok x _ => decide (x.plan.cells ≠ w.plan.cells)
      | .error _ _ => false) = true := by decide +kernel
  have hsolve := Solver.solve_legal (w := w) (fixedRanges range) 9 hrespectful hlegal
  generalize solver.solve 9 w = y at hok hsolve
  cases hsolve with
  | error _ => cases hok
  | ok h => exact ⟨hrespectful, hlegal, _, _, rfl, of_decide_eq_true hok, h.1, h.2⟩

/-- Each cell may hold its own index only. The cells of a legal row are exchanged, and a row is
published and answered in which neither value is of the range of its cell. -/
theorem solve_trades_values :
    let w := headed [some 0, some 1]
    FixedRanges (· = ranged ([·])) ∧ Legal (· = ranged ([·])) w.plan w.plan ∧
      ∃ x s, (seeking (.swap cell .original)).solve 5 w = .ok x s ∧
        (∃ b ∈ published s.2.trace, b.1.cells = x.plan.cells) ∧
        ∀ e < 2, ∃ v, cell.get x.plan e = some v ∧ v ∉ (ranged ([·])).range.values x.plan e := by
  intro w
  have hlegal : Legal (· = ranged ([·])) w.plan w.plan := legal_start fun e he => by
    replace he : e < 2 := he
    obtain rfl | rfl : e = 0 ∨ e = 1 := by omega
    all_goals exact ⟨_, rfl, List.mem_singleton_self _⟩
  have hok : (match (seeking (.swap cell .original)).solve 5 w with
      | .ok x s => decide (x.plan.cells = [some 1, some 0] ∧
          (published s.2.trace).any (·.1.cells = x.plan.cells))
      | .error _ _ => false) = true := by decide +kernel
  refine ⟨fixedRanges _, hlegal, ?_⟩
  generalize (seeking (.swap cell .original)).solve 5 w = y at hok
  cases y with
  | error f s => cases hok
  | ok x s =>
    obtain ⟨hcells, hpublished⟩ := of_decide_eq_true hok
    obtain ⟨b, hb, hplan⟩ := List.any_eq_true.1 hpublished
    refine ⟨x, s, rfl, ⟨b, hb, of_decide_eq_true hplan⟩, fun e he => ⟨1 - e, ?_, ?_⟩⟩
    · show x.plan.cells[e]?.join = _
      rw [hcells]
      obtain rfl | rfl : e = 0 ∨ e = 1 := by omega
      all_goals rfl
    · show 1 - e ∉ [e]
      rw [List.mem_singleton]
      omega

end Row

end PlanSearch
