import PlanSearch.Proofs.Solver.Best
import PlanSearch.Proofs.Solver.Upkeep

/-!
# What moves leave alone

An entity is closed if it does not exist or is pinned. A guarded workspace does what the workspace
within it does until a change of a closed entity is announced, and answers no score from then on, so
that nothing that goes on from there ends well. On a problem where planning variables have no say in
which entities exist and which of them are pinned, moves of selectors and placements touch open
entities only: a solve on a guarded workspace goes the way of the solve without the guard, and the
variables of pinned entities are what they were at the start in every plan that listeners hear of.

    Anchored X → open slots → the workspace and the guarded one are linked    (Anchored.linked)
    phase.Over X → the phase assigns to open slots only                       (Anchored.suits)
    Anchored X → phases over X → a solve touches open entities only           (Solver.solve_spares)
-/

namespace PlanSearch

variable {W S V : Type} {sh : Shape}

/-! ## Guarded workspaces -/

/-- A workspace under guard. -/
structure Guarded (W : Type) where
  inner : W
  /-- A change of an entity that does not exist or is pinned was announced. -/
  breached : Bool := false

namespace Guarded

variable [Plan S sh] [Workspace W S sh]

/-- The entity exists and is not pinned. -/
def isOpen (plan : S) (f : Fact) : Bool :=
  f.index < Plan.entityCount plan f.family && !Plan.isPinned plan f

/-- A change of an entity is announced to the workspace within. -/
def announce (tell : Fact → W → W) (f : Fact) (g : Guarded W) : Guarded W where
  inner := tell f g.inner
  breached := g.breached || !isOpen (Workspace.plan g.inner) f

/-- No score is answered after a breach. -/
def score : Step (Guarded W) (Score sh) := fun g =>
  if g.breached then .error .undefined g
  else
    match Workspace.score g.inner with
    | .ok a w => .ok a { g with inner := w }
    | .error f w => .error f { g with inner := w }

instance : Workspace (Guarded W) S sh where
  plan g := Workspace.plan g.inner
  modify f g := { g with inner := Workspace.modify f g.inner }
  reset s g := { g with inner := Workspace.reset s g.inner }
  score := score
  fullScore g := if g.breached then .error .undefined else Workspace.fullScore g.inner
  beforeChange := announce Workspace.beforeChange
  afterChange := announce Workspace.afterChange
  afterAdded f g := { g with inner := Workspace.afterAdded f g.inner }
  beforeRemoved f g := { g with inner := Workspace.beforeRemoved f g.inner }
  calculations g := Workspace.calculations g.inner
  isIncremental g := Workspace.isIncremental g.inner

theorem isOpen_iff {plan : S} {f : Fact} :
    isOpen plan f ↔ f.index ∈ Plan.movable plan f.family := by
  unfold isOpen Plan.movable
  rw [List.mem_filter, List.mem_range, Bool.and_eq_true, decide_eq_true_iff]

/-- A guarded workspace that was not breached. -/
def Sealed (good : S → Prop) (w : W) (g : Guarded W) : Prop :=
  g = { inner := w } ∧ good (Workspace.plan w)

end Guarded

variable [Plan S sh]

/-! ## Anchored problems -/

/-- The variables `X` are cells of their own, and neither they nor the stored score have a say in
which entities exist and which of them are pinned. -/
structure Anchored (X : Variable S V → Prop) : Prop extends Cells X where
  isPinned_set : ∀ {p : S} {a : Slot S V} (v : Option V), a.Of X p → ∀ f,
    Plan.isPinned (a.set p v) f = Plan.isPinned p f
  entityCount_setScore : ∀ (c : Option (Score sh)) (p : S) (family : Nat),
    Plan.entityCount (Plan.setScore c p) family = Plan.entityCount p family
  isPinned_setScore : ∀ (c : Option (Score sh)) (p : S) (f : Fact),
    Plan.isPinned (Plan.setScore c p) f = Plan.isPinned p f
  get_setScore : ∀ {p : S} {a : Slot S V} (c : Option (Score sh)), a.Of X p →
    a.get (Plan.setScore c p) = a.get p

/-- The slot belongs to one of the variables `X` and to an entity that moves may change. -/
def Slot.Open (X : Variable S V → Prop) (plan : S) (a : Slot S V) : Prop :=
  X a.cell ∧ a.entity ∈ Plan.movable plan a.cell.family

/-- The plans have the same entities, the same of which are pinned, and the variables `X` of pinned
entities have the same values. -/
structure Spares (X : Variable S V → Prop) (p q : S) : Prop where
  entityCount : ∀ family, Plan.entityCount q family = Plan.entityCount p family
  isPinned : ∀ f, Plan.isPinned q f = Plan.isPinned p f
  get : ∀ a : Slot S V, a.Of X p → Plan.isPinned p a.fact → a.get q = a.get p

variable {X : Variable S V → Prop} {p q : S} {a b : Slot S V}

/-- Which entities moves may change depends on their number and on the pins. -/
theorem Plan.movable_congr {family : Nat}
    (hcount : Plan.entityCount p family = Plan.entityCount q family)
    (hpinned : ∀ f, Plan.isPinned p f = Plan.isPinned q f) :
    Plan.movable p family = Plan.movable q family := by
  unfold Plan.movable
  rw [hcount]
  simp only [hpinned]

namespace Slot.Open

theorem isOpen (h : a.Open X p) : Guarded.isOpen p a.fact := Guarded.isOpen_iff.2 h.2

theorem of (h : a.Open X p) : a.Of X p :=
  ⟨h.1, List.mem_range.1 (List.mem_filter.1 h.2).1⟩

theorem isPinned (h : a.Open X p) : Plan.isPinned p a.fact = false := by
  have hpinned := (List.mem_filter.1 h.2).2
  rwa [Bool.not_eq_true'] at hpinned

end Slot.Open

namespace Spares

theorem refl (X : Variable S V → Prop) (p : S) : Spares X p p :=
  ⟨fun _ => rfl, fun _ => rfl, fun _ _ _ => rfl⟩

theorem movable (h : Spares X p q) (family : Nat) :
    Plan.movable q family = Plan.movable p family :=
  Plan.movable_congr (h.entityCount family) h.isPinned

theorem open_iff (h : Spares X p q) (a : Slot S V) : a.Open X q ↔ a.Open X p := by
  unfold Slot.Open
  rw [h.movable]

theorem of_iff (h : Spares X p q) (a : Slot S V) : a.Of X q ↔ a.Of X p := by
  unfold Slot.Of Plan.Has
  rw [h.entityCount]

theorem set (h : Spares X p q) (hX : Anchored X) (ha : a.Open X p) (v : Option V) :
    Spares X p (a.set q v) := by
  have haq : a.Of X q := (h.of_iff a).2 ha.of
  refine ⟨fun family => ?_, fun f => ?_, fun b hb hpinned => ?_⟩
  · rw [hX.entityCount_set v haq, h.entityCount]
  · rw [hX.isPinned_set v haq, h.isPinned]
  · have hab : ¬a.sameAs b := fun hab => by
      rw [← hX.slot_eq_of_sameAs ha.1 hb.1 hab, ha.isPinned] at hpinned
      cases hpinned
    rw [hX.get_set_of_ne v haq ((h.of_iff b).2 hb) hab, h.get b hb hpinned]

theorem setScore (h : Spares X p q) (hX : Anchored X) (c : Option (Score sh)) :
    Spares X p (Plan.setScore c q) := by
  refine ⟨fun family => ?_, fun f => ?_, fun b hb hpinned => ?_⟩
  · rw [hX.entityCount_setScore, h.entityCount]
  · rw [hX.isPinned_setScore, h.isPinned]
  · rw [hX.get_setScore c ((h.of_iff b).2 hb), h.get b hb hpinned]

theorem writeAll (h : Spares X p q) (hX : Anchored X) {ws : List (Slot S V × Option V)}
    (hws : ∀ w ∈ ws, w.1.Open X p) : Spares X p (writeAll ws q) := by
  induction ws generalizing q with
  | nil => exact h
  | cons w ws ih =>
    obtain ⟨hw, hrest⟩ := List.forall_mem_cons.1 hws
    exact ih (h.set hX hw w.2) hrest

end Spares

/-! ## Plans that coincide -/

/-- The plans have the same entities, the same of which are pinned, with the same values of the
variables `X`. -/
structure Coincides (X : Variable S V → Prop) (p q : S) : Prop extends Agree X p q where
  isPinned : ∀ f, Plan.isPinned p f = Plan.isPinned q f

theorem Coincides.movable (h : Coincides X p q) (family : Nat) :
    Plan.movable p family = Plan.movable q family :=
  Plan.movable_congr (h.entityCount family) h.isPinned

theorem Coincides.open_iff (h : Coincides X p q) (a : Slot S V) : a.Open X p ↔ a.Open X q := by
  unfold Slot.Open
  rw [h.movable]

namespace Anchored

/-- Anchored variables are lenses up to what can be seen of them and of the pins. -/
theorem lenses (hX : Anchored X) : Lenses X (Coincides X) where
  toCells := hX.toCells
  equivalence :=
    ⟨fun p => ⟨.refl X p, fun _ => rfl⟩, fun h => ⟨h.symm, fun f => (h.isPinned f).symm⟩,
      fun h h' => ⟨h.trans h'.toAgree, fun f => (h.isPinned f).trans (h'.isPinned f)⟩⟩
  agree := Coincides.toAgree
  set_congr v h ha := by
    refine ⟨hX.agree_set v h.toAgree ha, fun f => ?_⟩
    rw [hX.isPinned_set v ha, hX.isPinned_set v ((h.of_iff _).1 ha), h.isPinned]
  set_comm {p a b} v w ha hb hab := by
    refine ⟨hX.agree_set_comm v w ha hb hab, fun f => ?_⟩
    rw [hX.isPinned_set w ((hX.of_set v ha b).2 hb), hX.isPinned_set v ha,
      hX.isPinned_set v ((hX.of_set w hb a).2 ha), hX.isPinned_set w hb]
  set_set {p a} v w ha := by
    refine ⟨hX.agree_set_set v w ha, fun f => ?_⟩
    rw [hX.isPinned_set w ((hX.of_set v ha a).2 ha), hX.isPinned_set v ha, hX.isPinned_set w ha]
  set_get ha := ⟨hX.agree_set_get ha, hX.isPinned_set _ ha⟩

theorem scoreFree (hX : Anchored X) : Workspace.ScoreFree (Coincides X) := fun c p => by
  refine ⟨⟨hX.entityCount_setScore c p, fun a ha => ?_⟩, hX.isPinned_setScore c p⟩
  refine hX.get_setScore c ⟨ha.1, ?_⟩
  have hhas := ha.2
  unfold Plan.Has at hhas ⊢
  rwa [hX.entityCount_setScore] at hhas

end Anchored

/-! ## Open slots -/

/-- All slots of the leaf are open. -/
def Leaf.Open (X : Variable S V → Prop) (p : S) (m : Leaf S V) : Prop := ∀ a ∈ m.slots, a.Open X p

namespace Anchored

theorem upkeep (hX : Anchored X) (p : S) : Upkeep sh (Leaf.Open X p) (Spares X p) where
  leaf {q m} hq hm := hq.writeAll hX fun w hw => by
    have hmem : w.1 ∈ (m.writes q).map (·.1) := List.mem_map_of_mem hw
    rw [m.map_writes] at hmem
    exact hm w.1 hmem
  restore _ hm ha b hb := by
    rw [List.mem_singleton.1 hb]
    exact hm _ ha
  setScore c hq := hq.setScore hX c

variable [Workspace W S sh] [Workspace.Lawful W]

theorem sealed_assign (hX : Anchored X) {w : W} {g : Guarded W} (h : g.Sealed (Spares X p) w)
    (ha : a.Open X p) (v : Option V) :
    (a.cell.assign a.entity v g).Sealed (Spares X p) (a.cell.assign a.entity v w) := by
  obtain ⟨rfl, hw⟩ := h
  have hset := hw.set hX ha v
  have hbefore : Guarded.isOpen (Workspace.plan w) a.fact := ((hw.open_iff a).2 ha).isOpen
  have hafter : Guarded.isOpen (a.set (Workspace.plan w) v) a.fact :=
    ((hset.open_iff a).2 ha).isOpen
  have hassign : Workspace.plan (a.cell.assign a.entity v w) = a.set (Workspace.plan w) v :=
    Workspace.plan_assign a.cell a.entity v w
  refine ⟨?_, hassign ▸ hset⟩
  have hplan : Workspace.plan (Workspace.modify (fun q => a.cell.set q a.entity v)
      (Workspace.beforeChange a.fact w)) = a.set (Workspace.plan w) v := by
    rw [Workspace.Lawful.plan_modify, Workspace.Lawful.plan_beforeChange]
    rfl
  show Guarded.mk (a.cell.assign a.entity v w) ((false || !Guarded.isOpen (Workspace.plan w) a.fact) ||
    !Guarded.isOpen (Workspace.plan (Workspace.modify _ (Workspace.beforeChange a.fact w))) a.fact) = _
  rw [hplan, hbefore, hafter]
  rfl

theorem linked (hX : Anchored X) (p : S) :
    Linked (W := W) (Leaf.Open X p) (Spares X p) (Guarded.Sealed (Spares X p)) where
  toUpkeep := hX.upkeep p
  plan h := congrArg _ h.1
  good h := h.2
  calculations h := congrArg _ h.1
  fullScore h := by
    rw [h.1]
    rfl
  applyLeaf {w g m} h hm := by
    cases m with
    | change x entity value => exact hX.sealed_assign h (hm ⟨x, entity⟩ List.mem_cons_self) value
    | swap x left right =>
      have hleft := hm ⟨x, left⟩ List.mem_cons_self
      have hright := hm ⟨x, right⟩ (List.mem_cons_of_mem _ List.mem_cons_self)
      unfold Leaf.apply
      rw [show Workspace.plan g = Workspace.plan w from congrArg _ h.1]
      exact hX.sealed_assign (hX.sealed_assign h hleft _) hright _
  restart {w g} h := by
    obtain ⟨rfl, hw⟩ := h
    exact ⟨rfl, Upkeep.good_restart hw⟩
  scoreNow := by
    rintro w _ ⟨rfl, hw⟩
    unfold Workspace.scoreNow
    have hscore : Workspace.score (Guarded.mk w false) =
        match Workspace.score w with
        | .ok a w => .ok a { inner := w }
        | .error f w => .error f { inner := w } := rfl
    rw [hscore]
    cases e : Workspace.score w with
    | ok a w' => exact .ok trivial ⟨rfl, (hX.upkeep p).good_score hw e⟩
    | error f w' =>
      refine .error ⟨rfl, ?_⟩
      rwa [Workspace.Lawful.plan_score_error e]

end Anchored

/-! ## What is read -/

/-- Whether the move can be done depends on the values of open entities alone; how it is taken back
and what its leaves write depends on the values of the slots that it writes. -/
structure Move.ReadsOwn (sh : Shape) [Plan S sh] [DecidableEq V] (m : Move S V) : Prop where
  isDoable : ∀ {p q : S}, (∀ family, Plan.entityCount p family = Plan.entityCount q family) →
    (∀ f, Plan.isPinned p f = Plan.isPinned q f) →
    (∀ a ∈ m.slots, a.Open (fun _ => True) p → a.get p = a.get q) → m.isDoable p = m.isDoable q
  undo : ∀ {p q : S}, (∀ a ∈ m.slots, a.get p = a.get q) → m.undo p = m.undo q
  writes : ∀ {p q : S}, ∀ leaf ∈ m.leaves, (∀ a ∈ leaf.slots, a.get p = a.get q) →
    leaf.writes p = leaf.writes q

theorem Leaf.isDoable_congr_open [DecidableEq V] {m : Leaf S V}
    (hcount : ∀ family, Plan.entityCount p family = Plan.entityCount q family)
    (hpinned : ∀ f, Plan.isPinned p f = Plan.isPinned q f)
    (hget : ∀ a ∈ m.slots, a.Open (fun _ => True) p → a.get p = a.get q) :
    m.isDoable p = m.isDoable q := by
  have hopen : ∀ (x : Variable S V) (e : Nat), isOpen x q e = isOpen x p e := fun x e => by
    unfold isOpen
    rw [hcount, hpinned]
  have hread : ∀ a ∈ m.slots, isOpen a.cell p a.entity → a.get p = a.get q := fun a ha h =>
    hget a ha ⟨trivial, (Guarded.isOpen_iff (f := a.fact)).1 h⟩
  cases m with
  | change x e v =>
    unfold isDoable
    dsimp only
    rw [hopen]
    cases h : isOpen x p e with
    | false => rfl
    | true => rw [show x.get p e = x.get q e from hread ⟨x, e⟩ List.mem_cons_self h]
  | swap x left right =>
    unfold isDoable
    dsimp only
    rw [hopen, hopen]
    cases hl : isOpen x p left with
    | false => simp only [Bool.and_false, Bool.false_and]
    | true =>
      cases hr : isOpen x p right with
      | false => simp only [Bool.and_false, Bool.false_and]
      | true =>
        rw [show x.get p left = x.get q left from hread ⟨x, left⟩ List.mem_cons_self hl,
          show x.get p right = x.get q right from
            hread ⟨x, right⟩ (List.mem_cons_of_mem _ List.mem_cons_self) hr]

omit [Plan S sh] in
theorem Leaf.writes_congr {m : Leaf S V} (hget : ∀ a ∈ m.slots, a.get p = a.get q) :
    m.writes p = m.writes q := by
  cases m with
  | change x e v => rfl
  | swap x left right =>
    unfold writes
    dsimp only
    rw [show x.get p left = x.get q left from hget ⟨x, left⟩ List.mem_cons_self,
      show x.get p right = x.get q right from
        hget ⟨x, right⟩ (List.mem_cons_of_mem _ List.mem_cons_self)]

omit [Plan S sh] in
theorem Move.undo_congr {m : Move S V} (hget : ∀ a ∈ m.slots, a.get p = a.get q) :
    m.undo p = m.undo q := by
  cases m with
  | leaf m =>
    cases m with
    | change x e v =>
      have he : x.get p e = x.get q e := hget ⟨x, e⟩ List.mem_cons_self
      unfold undo Leaf.undo
      dsimp only
      rw [he]
    | swap x left right => rfl
  | composite parts =>
    refine congrArg composite (List.map_congr_left fun a ha => ?_)
    rw [hget a (Slot.mem_of_mem_distinct ha)]

theorem Move.readsOwn [DecidableEq V] (m : Move S V) : m.ReadsOwn sh where
  isDoable {p q} hcount hpinned hget := by
    unfold Move.isDoable
    rw [List.any_eq, List.any_eq]
    refine decide_eq_decide.2 (exists_congr fun leaf => and_congr_right fun hleaf => ?_)
    rw [Leaf.isDoable_congr_open hcount hpinned fun a ha =>
      hget a (Move.mem_slots.2 ⟨leaf, hleaf, ha⟩)]
  undo := Move.undo_congr
  writes _ _ := Leaf.writes_congr

/-! ## Solves -/

namespace Anchored

theorem known_open {a : Slot S V} (ha : X a.cell ∧ a.Known (Spares X p)) : a.Open X p := by
  obtain ⟨hcell, q, hq, he⟩ := ha
  rw [hq.movable] at he
  exact ⟨hcell, he⟩

theorem suits {phase : SearchPhase S V sh} (h : phase.Over X) :
    phase.Suits (Leaf.Open X p) (Spares X p) := by
  have hfine : ∀ m : Leaf S V, (∀ a ∈ m.slots, X a.cell ∧ a.Known (Spares X p)) → m.Open X p :=
    fun m hm a ha => known_open (hm a ha)
  cases phase with
  | construction c =>
    intro d hd
    exact Definition.suits_of_slots (Construction.over_iff.1 h d hd) hfine
  | localSearch l => exact Tree.suits_of_slots hfine _ h

end Anchored

variable [Workspace W S sh] [Workspace.Lawful W] [DecidableEq V] [ToString V]

/-- However a solve goes and ends, the variables of pinned entities are what they were at the start
in every plan that listeners hear of and in the one that is answered. The solve under guard, which
cannot go on after a change of an entity that does not exist or is pinned, goes the same way, and no
change of that kind was announced; what a move reads are such entities neither. -/
theorem Solver.solve_spares (hX : Anchored X) (fuel : Nat)
    {solver : Solver (SearchPhase S V sh) S sh} (hsolver : ∀ p ∈ solver.phases, p.Over X) (w : W) :
    Finishes (fun x t => Spares X (Workspace.plan w) x.plan ∧ t.2.Sound (Spares X (Workspace.plan w)))
        (fun _ t => t.2.Sound (Spares X (Workspace.plan w))) (solver.solve fuel w) ∧
      InStep (fun s t => t = (s.1, { s.2 with workspace := { inner := s.2.workspace } }))
        (fun _ => True) (solver.solve fuel w) (solver.solve fuel { inner := w : Guarded W }) ∧
      ∀ m : Move S V, m.ReadsOwn sh := by
  have hsuits : ∀ p ∈ solver.phases, p.Suits (Leaf.Open X (Workspace.plan w))
      (Spares X (Workspace.plan w)) := fun p hp => Anchored.suits (hsolver p hp)
  have hstart := Spares.refl X (Workspace.plan w)
  refine ⟨solve_sound (hX.upkeep _) fuel hsuits hstart, ?_, Move.readsOwn⟩
  refine (solve_linked (hX.linked _) fuel hsuits ⟨rfl, hstart⟩).imp ?_ fun _ _ => trivial
  rintro _ _ ⟨-, ⟨hworkspace, -, -⟩⟩
  rw [hworkspace.1]

/-! ## A row with pins -/

/-- A row of cells, some of which are pinned. -/
structure Board where
  row : Row
  pins : List Nat

namespace Board

instance : Plan Board .simple where
  score b := Plan.score b.row
  setScore a b := { b with row := Plan.setScore a b.row }
  entityCount b := Plan.entityCount b.row
  isPinned b f := b.pins.contains f.index

def cell : Variable Board Nat where
  family := 0
  name := "cell"
  get b := Row.cell.get b.row
  set b e v := { b with row := Row.cell.set b.row e v }

theorem of_row {b : Board} {a : Slot Board Nat} (ha : a.Of (· = cell) b) :
    (⟨Row.cell, a.entity⟩ : Slot Row Nat).Of (· = Row.cell) b.row := by
  obtain ⟨hcell, hhas⟩ := ha
  unfold Slot.fact at hhas
  rw [hcell] at hhas
  exact ⟨rfl, hhas⟩

theorem anchored : Anchored (· = cell) where
  eq_of_sameAs hx hy _ := hx.trans hy.symm
  entityCount_set {b a} v ha family := by
    unfold Slot.set
    rw [ha.1]
    exact Row.lawful.entityCount_set v (of_row ha) family
  get_set {b a} v ha := by
    unfold Slot.get Slot.set
    rw [ha.1]
    exact Row.lawful.get_set v (of_row ha)
  get_set_of_ne {p a b} v ha hb hab := by
    have hne : ¬(⟨Row.cell, a.entity⟩ : Slot Row Nat).sameAs ⟨Row.cell, b.entity⟩ := fun e =>
      hab (Slot.sameAs_iff.2 ⟨(Slot.sameAs_iff.1 e).1, by rw [ha.1, hb.1], by rw [ha.1, hb.1]⟩)
    unfold Slot.get Slot.set
    rw [ha.1, hb.1]
    exact Row.lawful.get_set_of_ne v (of_row ha) (of_row hb) hne
  isPinned_set {b a} v ha f := by
    unfold Slot.set
    rw [ha.1]
    rfl
  entityCount_setScore _ _ _ := rfl
  isPinned_setScore _ _ _ := rfl
  get_setScore {b a} c ha := by
    unfold Slot.get
    rw [ha.1]
    rfl

def workspace (cells : List (Option Nat)) (pins : List Nat) : RecomputingWorkspace Board .simple where
  plan := { row := ⟨cells, none⟩, pins }
  calculate b := Row.rate b.row

/-- Fills cells and then fills and swaps cells at random, two steps long. -/
def solver : Solver (SearchPhase Board Nat .simple) Board .simple where
  phases :=
    let definition := { entityClass := "Board", cell := cell, range := .listed [7, 8] }
    [.construction (.firstFit [definition]),
      .localSearch
        { neighbourhood := .ofTree (.product [.change definition .random, .swap cell .random] true)
          candidateLimit := some 4 }]
  termination := some (.steps 4)

/-- The second of four cells is pinned. -/
theorem solve_spares_solver :
    let w := workspace [none, some 3, none, some 5] [1]
    (∀ p ∈ solver.phases, p.Over (· = cell)) ∧
      ∃ x s t, solver.solve 9 w = .ok x s ∧ s.2.steps = 4 ∧ x.plan.row.cells[1]? = some (some 3) ∧
        s.2.Sound (Spares (· = cell) w.plan) ∧ solver.solve 9 { inner := w : Guarded _ } = .ok x t ∧
          t.2.workspace.breached = false := by
  intro w
  have hover : ∀ p ∈ solver.phases, p.Over (· = cell) := by
    refine List.forall_mem_cons.2 ⟨fun placer hplacer => ?_, List.forall_mem_singleton.2 ?_⟩
    · rw [List.mem_singleton.1 hplacer]
      rfl
    · exact ⟨rfl, rfl, trivial⟩
  have hok : (match solver.solve 9 w with
      | .ok x s => decide (s.2.steps = 4 ∧ x.plan.row.cells[1]? = some (some 3))
      | .error _ _ => false) = true := by decide +kernel
  obtain ⟨hsound, hguarded, -⟩ := Solver.solve_spares anchored 9 hover w
  generalize solver.solve 9 w = y at hok hsound hguarded
  generalize solver.solve 9 { inner := w : Guarded _ } = z at hguarded
  cases hguarded with
  | error _ => cases hok
  | @ok x s t _ h =>
    cases hsound with
    | ok hsound =>
      obtain ⟨hsteps, hcell⟩ := of_decide_eq_true hok
      exact ⟨hover, x, s, t, rfl, hsteps, hcell, hsound.2, rfl, by rw [h]⟩

end Board

end PlanSearch
