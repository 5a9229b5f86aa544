import PlanSearch.Proofs.Workspace.Lawful

/-!
# Undoing and redoing moves

What a move does to a plan is a sequence of writes to its slots. The move that undoes it restores
every slot that was written, once, to the value that it had before; hence it does not matter in what
way the parts of a move overlap.

    same ((m.undo p).on (m.on p)) p                                      (Move.undo_on)
    do, undo: the plan before; do, undo, redo: the plan after            (Move.undo_redo)
-/

namespace PlanSearch

variable {W S V : Type} {sh : Shape}

/-! ## What moves do to plans -/

/-- The values that the leaf writes to its slots, in order. -/
def Leaf.writes (p : S) : Leaf S V → List (Slot S V × Option V)
  | change x entity value => [(⟨x, entity⟩, value)]
  | swap x left right => [(⟨x, left⟩, x.get p right), (⟨x, right⟩, x.get p left)]

def Leaf.on (m : Leaf S V) (p : S) : S := writeAll (m.writes p) p

def Move.on (m : Move S V) (p : S) : S := m.leaves.foldl (fun p leaf => leaf.on p) p

theorem Leaf.map_writes (m : Leaf S V) (p : S) : (m.writes p).map (·.1) = m.slots := by
  cases m <;> rfl

theorem Leaf.plan_apply [Plan S sh] [Workspace W S sh] [Workspace.Lawful W] (m : Leaf S V) (w : W) :
    Workspace.plan (m.apply w) = m.on (Workspace.plan w) := by
  cases m with
  | change x entity value => exact Workspace.plan_assign x entity value w
  | swap x left right =>
    show Workspace.plan (x.assign right _ (x.assign left _ w)) = _
    rw [Workspace.plan_assign, Workspace.plan_assign]
    rfl

theorem Move.plan_apply [Plan S sh] [Workspace W S sh] [Workspace.Lawful W] (m : Move S V) (w : W) :
    Workspace.plan (m.apply w) = m.on (Workspace.plan w) := by
  unfold Move.apply Move.on
  induction m.leaves generalizing w with
  | nil => rfl
  | cons leaf leaves ih => rw [List.foldl_cons, List.foldl_cons, ih, leaf.plan_apply]

theorem Move.leavesOf_map_leaf (ms : List (Leaf S V)) : leavesOf (ms.map leaf) = ms := by
  induction ms with
  | nil => rfl
  | cons m ms ih =>
    show [m] ++ leavesOf (ms.map leaf) = m :: ms
    rw [ih]
    rfl

variable [Plan S sh] {X : Variable S V → Prop} {same : S → S → Prop} {p q : S} {m : Move S V}
  {leaves : List (Leaf S V)}

/-- All slots of the move are slots of the variables `X`. -/
def Move.Of (X : Variable S V → Prop) (p : S) (m : Move S V) : Prop := ∀ a ∈ m.slots, a.Of X p

namespace Lenses

theorem writes_eq (h : Lenses X same) {m : Leaf S V} (hm : ∀ a ∈ m.slots, a.Of X p)
    (hpq : same p q) : m.writes p = m.writes q := by
  cases m with
  | change x entity value => rfl
  | swap x left right =>
    have hget := (h.agree hpq).get
    have hl : x.get p left = x.get q left := hget ⟨x, left⟩ (hm _ List.mem_cons_self)
    have hr : x.get p right = x.get q right := hget ⟨x, right⟩ (hm _ (by simp [Leaf.slots]))
    show [_, _] = [_, _]
    rw [hl, hr]

theorem mem_writes {m : Leaf S V} {w : Slot S V × Option V} (h : w ∈ m.writes p) : w.1 ∈ m.slots :=
  m.map_writes p ▸ List.mem_map_of_mem h

theorem of_leaf_on (h : Lenses X same) {m : Leaf S V} (hm : ∀ a ∈ m.slots, a.Of X p)
    (b : Slot S V) : b.Of X (m.on p) ↔ b.Of X p :=
  h.of_writeAll (fun w hw => hm w.1 (mem_writes hw)) b

theorem leaf_on_congr (h : Lenses X same) {m : Leaf S V} (hm : ∀ a ∈ m.slots, a.Of X p)
    (hpq : same p q) : same (m.on p) (m.on q) := by
  unfold Leaf.on
  rw [← h.writes_eq hm hpq]
  exact h.writeAll_congr (fun w hw => hm w.1 (mem_writes hw)) hpq

theorem foldl_on_congr (h : Lenses X same) (hm : ∀ m ∈ leaves, ∀ a ∈ m.slots, a.Of X p)
    (hpq : same p q) :
    same (leaves.foldl (fun p leaf => leaf.on p) p) (leaves.foldl (fun p leaf => leaf.on p) q) := by
  induction leaves generalizing p q with
  | nil => exact hpq
  | cons leaf leaves ih =>
    have hleaf := hm leaf List.mem_cons_self
    exact ih (fun m hm' a ha => (h.of_leaf_on hleaf a).2 (hm m (List.mem_cons_of_mem _ hm') a ha))
      (h.leaf_on_congr hleaf hpq)

/-- Leaves write to their slots and to nothing else. -/
theorem foldl_on_eq_writeAll (h : Lenses X same) (hm : ∀ m ∈ leaves, ∀ a ∈ m.slots, a.Of X p) :
    ∃ ws, leaves.foldl (fun p leaf => leaf.on p) p = writeAll ws p ∧
      ∀ w ∈ ws, w.1 ∈ leaves.flatMap Leaf.slots := by
  induction leaves generalizing p with
  | nil => exact ⟨[], rfl, nofun⟩
  | cons leaf leaves ih =>
    have hleaf := hm leaf List.mem_cons_self
    obtain ⟨ws, he, hws⟩ := ih (p := leaf.on p) fun m hm' a ha =>
      (h.of_leaf_on hleaf a).2 (hm m (List.mem_cons_of_mem _ hm') a ha)
    refine ⟨leaf.writes p ++ ws, ?_, fun w hw => ?_⟩
    · rw [List.foldl_cons, he]
      unfold writeAll Leaf.on writeAll
      rw [List.foldl_append]
    · rw [List.flatMap_cons]
      rcases List.mem_append.1 hw with hw | hw
      · exact List.mem_append_left _ (mem_writes hw)
      · exact List.mem_append_right _ (hws w hw)

/-- Leaves keep which slots there are. -/
theorem of_foldl_on (h : Lenses X same) (hm : ∀ m ∈ leaves, ∀ a ∈ m.slots, a.Of X p)
    (a : Slot S V) : a.Of X (leaves.foldl (fun p leaf => leaf.on p) p) ↔ a.Of X p := by
  obtain ⟨ws, he, hws⟩ := h.foldl_on_eq_writeAll hm
  rw [he]
  refine h.of_writeAll (fun w hw => ?_) a
  obtain ⟨leaf, hleaf, hslot⟩ := List.mem_flatMap.1 (hws w hw)
  exact hm leaf hleaf _ hslot

end Lenses

namespace Move

theorem mem_slots {a : Slot S V} : a ∈ m.slots ↔ ∃ leaf ∈ m.leaves, a ∈ leaf.slots :=
  List.mem_flatMap

theorem Of.leaf (h : m.Of X p) : ∀ l ∈ m.leaves, ∀ a ∈ l.slots, a.Of X p := fun l hl a ha =>
  h a (mem_slots.2 ⟨l, hl, ha⟩)

theorem on_congr (h : Lenses X same) (hm : m.Of X p) (hpq : same p q) : same (m.on p) (m.on q) :=
  h.foldl_on_congr hm.leaf hpq

theorem of_on (h : Lenses X same) (hm : m.Of X p) (a : Slot S V) : a.Of X (m.on p) ↔ a.Of X p :=
  h.of_foldl_on hm.leaf a

theorem Of.congr (h : Lenses X same) (hm : m.Of X p) (hpq : same p q) : m.Of X q := fun a ha =>
  (h.of_iff hpq a).1 (hm a ha)

/-! ## Undoing -/

theorem leaves_undo_composite (parts : List (Move S V)) (p : S) :
    (undo p (composite parts)).leaves =
      (Slot.distinct (composite parts).slots).map fun a => .change a.cell a.entity (a.get p) := by
  rw [← leavesOf_map_leaf (List.map _ _), List.map_map]
  rfl

theorem mem_slots_of_undo {a : Slot S V} (h : a ∈ (m.undo p).slots) : a ∈ m.slots := by
  cases m with
  | leaf m => cases m <;> exact h
  | composite parts =>
    obtain ⟨l, hl, ha⟩ := mem_slots.1 h
    rw [leaves_undo_composite] at hl
    obtain ⟨b, hb, rfl⟩ := List.mem_map.1 hl
    rw [List.mem_singleton.1 ha]
    exact Slot.mem_of_mem_distinct hb

/-- The swap that takes a swap back finds each of the two values in the other slot. -/
theorem swap_on_swap_on (h : Lenses X same) {x : Variable S V} {left right : Nat}
    (hl : Slot.Of X p ⟨x, left⟩) (hr : Slot.Of X p ⟨x, right⟩) :
    (Leaf.swap x left right).on ((Leaf.swap x left right).on p) =
      restore p [⟨x, left⟩, ⟨x, right⟩] ((Leaf.swap x left right).on p) := by
  have hr' := (h.of_set (x.get p right) hl ⟨x, right⟩).2 hr
  have hl' := (h.of_set (x.get p right) hl ⟨x, left⟩).2 hl
  have hright : x.get ((Leaf.swap x left right).on p) right = x.get p left :=
    h.get_set (x.get p left) hr'
  have hleft : x.get ((Leaf.swap x left right).on p) left = x.get p right := by
    by_cases hlr : left = right
    · rw [hlr] at hright ⊢
      exact hright
    · refine (h.get_set_of_ne (x.get p left) hr' hl' fun e => ?_).trans (h.get_set (x.get p right) hl)
      exact hlr (Slot.sameAs_iff.1 e).1.symm
  show writeAll [(⟨x, left⟩, x.get _ right), (⟨x, right⟩, x.get _ left)] _ = _
  rw [hright, hleft]
  rfl

/-- The move that undoes `m` restores all its slots. -/
theorem undo_on_eq_restore (h : Lenses X same) (hm : m.Of X p) :
    ∃ as, (m.undo p).on (m.on p) = restore p as (m.on p) ∧
      (∀ a ∈ as, a ∈ m.slots) ∧ ∀ a ∈ m.slots, ∃ b ∈ as, a.sameAs b := by
  cases m with
  | leaf m =>
    have hslots : (leaf m).slots = m.slots := List.append_nil _
    refine ⟨m.slots, ?_, fun a ha => hslots ▸ ha, fun a ha => ⟨a, hslots ▸ ha, a.sameAs_self⟩⟩
    cases m with
    | change x entity value => rfl
    | swap x left right =>
      exact swap_on_swap_on h (hm _ List.mem_cons_self)
        (hm _ (List.mem_cons_of_mem _ List.mem_cons_self))
  | composite parts =>
    refine ⟨Slot.distinct (composite parts).slots, ?_, fun a => Slot.mem_of_mem_distinct,
      fun a => Slot.exists_mem_distinct⟩
    unfold Move.on restore
    rw [leaves_undo_composite, List.foldl_map]
    rfl

theorem undo_on (h : Lenses X same) (hm : m.Of X p) : same ((m.undo p).on (m.on p)) p := by
  obtain ⟨as, he, has, hcover⟩ := undo_on_eq_restore h hm
  obtain ⟨ws, hon, hws⟩ := h.foldl_on_eq_writeAll hm.leaf
  rw [he]
  change m.on p = writeAll ws p at hon
  rw [hon]
  exact h.equivalence.trans
    (h.restore_writeAll (fun a ha => hm a (has a ha)) fun w hw =>
      ⟨hm w.1 (hws w hw), hcover w.1 (hws w hw)⟩)
    (h.restore_self fun a ha => hm a (has a ha))

theorem Of.undo (hm : m.Of X q) : (m.undo p).Of X q := fun a ha => hm a (mem_slots_of_undo ha)

/-- What undoing comes to does not depend on which of the plans that count as the same is meant. -/
theorem undo_on_same (h : Lenses X same) (hm : m.Of X p) (hpq : same (m.on p) q) :
    same ((m.undo p).on q) p :=
  have hof : (m.undo p).Of X (m.on p) := fun a ha => (of_on h hm a).2 (hm.undo a ha)
  h.equivalence.trans (h.equivalence.symm (on_congr h hof hpq)) (undo_on h hm)

end Move

/-! ## Workspaces -/

namespace Workspace.Exact

variable [Workspace W S sh] [Workspace.Lawful W] {good : W → Prop} {w : W}

theorem applyLeaf (hg : Exact X same good) {m : Leaf S V} (h : Lenses X same)
    (hm : ∀ a ∈ m.slots, a.Of X (plan w)) (hw : good w) : good (m.apply w) := by
  cases m with
  | change x entity value => exact hg.assign (a := ⟨x, entity⟩) value hw (hm _ List.mem_cons_self)
  | swap x left right =>
    have hl := hm ⟨x, left⟩ List.mem_cons_self
    have hr := hm ⟨x, right⟩ (List.mem_cons_of_mem _ List.mem_cons_self)
    refine hg.assign (a := ⟨x, right⟩) _ (hg.assign (a := ⟨x, left⟩) _ hw hl) ?_
    rw [plan_assign]
    exact (h.of_set _ hl _).2 hr

theorem apply (hg : Exact X same good) (h : Lenses X same) (hm : m.Of X (plan w)) (hw : good w) :
    good (m.apply w) := by
  have hleaves := hm.leaf
  clear hm
  unfold Move.apply
  generalize m.leaves = leaves at hleaves ⊢
  induction leaves generalizing w with
  | nil => exact hw
  | cons leaf leaves ih =>
    have hl := hleaves leaf List.mem_cons_self
    refine ih (hg.applyLeaf h hl hw) fun l hl' a ha => ?_
    rw [leaf.plan_apply]
    exact (h.of_leaf_on hl a).2 (hleaves l (List.mem_cons_of_mem _ hl') a ha)

/-- Undoing `m` brings the score back, also after the score was asked for. -/
theorem undo (hg : Exact X same good) (h : Lenses X same) (hm : m.Of X (plan w)) (hw : good w)
    {w' : W} (hw' : good w') (hsame : same (m.on (plan w)) (plan w')) :
    good ((m.undo (plan w)).apply w') ∧ same (plan ((m.undo (plan w)).apply w')) (plan w) ∧
      fullScore ((m.undo (plan w)).apply w') = fullScore w := by
  have hundo : (m.undo (plan w)).Of X (plan w') := fun a ha =>
    (h.of_iff hsame a).1 ((Move.of_on h hm a).2 (hm.undo a ha))
  have hgood := hg.apply h hundo hw'
  have hplan : same (plan ((m.undo (plan w)).apply w')) (plan w) := by
    rw [Move.plan_apply]
    exact Move.undo_on_same h hm hsame
  exact ⟨hgood, hplan, hg.fullScore_congr hgood hw hplan⟩

end Workspace.Exact

namespace Move

open Workspace

variable [Workspace W S sh] [Workspace.Lawful W] {w : W}

theorem Of.undo_apply (h : Lenses X same) (hm : m.Of X (plan w)) :
    (m.undo (plan w)).Of X (plan (m.apply w)) := fun a ha => by
  rw [plan_apply]
  exact (of_on h hm a).2 (hm.undo a ha)

theorem same_undo (h : Lenses X same) (hm : m.Of X (plan w)) :
    same (plan ((m.undo (plan w)).apply (m.apply w))) (plan w) := by
  rw [plan_apply, plan_apply]
  exact undo_on h hm

theorem same_apply (h : Lenses X same) (hm : m.Of X (plan w)) {w' : W}
    (hsame : same (plan w) (plan w')) : same (plan (m.apply w)) (plan (m.apply w')) := by
  rw [plan_apply, plan_apply]
  exact on_congr h hm hsame

/-- The score comes back although it was asked for, and hence stored, in between. -/
theorem score_undo_redo {good : W → Prop} (h : Lenses X same) (hg : Exact X same good)
    (hm : m.Of X (plan w)) (hw : good w) {a b c d : Score sh} {w₀ w₁ w₂ w₃ : W}
    (ha : score w = .ok a w₀) (hb : score (m.apply w₀) = .ok b w₁)
    (hc : score ((m.undo (plan w)).apply w₁) = .ok c w₂)
    (hd : score (((m.undo (plan w)).undo (plan (m.apply w))).apply w₂) = .ok d w₃) :
    c = a ∧ d = b := by
  have hs₀ : same (plan w) (plan w₀) :=
    h.equivalence.symm (same_score h.equivalence hg.scoreFree ha)
  have hg₀ := hg.apply h (hm.congr h hs₀) (hg.score hw ha)
  have hdone : same (plan (m.apply w)) (plan w₁) := h.equivalence.trans (same_apply h hm hs₀)
    (h.equivalence.symm (same_score h.equivalence hg.scoreFree hb))
  obtain ⟨hg₁, -, hundone⟩ := hg.undo h hm hw (hg.score hg₀ hb) (m.plan_apply w ▸ hdone)
  have hundo := hm.undo_apply h
  have hs₂ : same ((m.undo (plan w)).on (plan (m.apply w))) (plan w₂) := by
    rw [← plan_apply]
    exact h.equivalence.trans (same_apply h hundo hdone)
      (h.equivalence.symm (same_score h.equivalence hg.scoreFree hc))
  have hgdone := hg.apply h hm hw
  obtain ⟨hg₂, -, hredone⟩ := hg.undo h hundo hgdone (hg.score hg₁ hc) hs₂
  constructor
  · rw [hg.fullScore_eq hg₁ hc, hg.fullScore_eq hw ha] at hundone
    exact Except.ok.inj hundone
  · rw [hg.fullScore_eq hg₂ hd, hg.fullScore_congr hgdone hg₀ (same_apply h hm hs₀),
      hg.fullScore_eq hg₀ hb] at hredone
    exact Except.ok.inj hredone

/-- A move that is undone leaves every variable as it was, and one that is redone after that leaves
every variable as it did at first. Where a second write to a slot hides the first, this holds of the
whole plan. If the score is that of the plan, it comes back as well, whether or not it was asked for
in between. -/
theorem undo_redo (hX : PlanSearch.Lawful X) (hm : m.Of X (plan w)) :
    let undo := m.undo (plan w)
    let done := m.apply w
    let redo := undo.undo (plan done)
    let undone := undo.apply done
    let redone := redo.apply undone
    (Agree X (plan undone) (plan w) ∧ Agree X (plan redone) (plan done)) ∧
      (Overwrites X → plan undone = plan w ∧ plan redone = plan done) ∧
      ∀ good, Exact X (Agree X) good → good w →
        (fullScore undone = fullScore w ∧ fullScore redone = fullScore done) ∧
        ∀ a b c d w₀ w₁ w₂ w₃, score w = .ok a w₀ → score (m.apply w₀) = .ok b w₁ →
          score (undo.apply w₁) = .ok c w₂ → score (redo.apply w₂) = .ok d w₃ → c = a ∧ d = b := by
  intro undo done redo undone redone
  -- Redoing is undoing the move that undoes.
  have hback : ∀ {same}, Lenses X same →
      same (plan undone) (plan w) ∧ same (plan redone) (plan done) := fun h =>
    ⟨same_undo h hm, same_undo h (hm.undo_apply h)⟩
  refine ⟨hback hX.lenses, fun ho => hback (hX.lenses_eq ho), fun good hg hw => ?_⟩
  have h := hX.lenses
  have hdone := hg.apply h hm hw
  have hundone := hg.apply h (hm.undo_apply h) hdone
  have hredo : redo.Of X (plan undone) := (hm.undo_apply h).undo_apply h
  obtain ⟨hagree, hagree'⟩ := hback h
  exact ⟨⟨hg.fullScore_congr hundone hw hagree,
      hg.fullScore_congr (hg.apply h hredo hundone) hdone hagree'⟩,
    fun a b c d w₀ w₁ w₂ w₃ => score_undo_redo h hg hm hw⟩

/-- A swap that is overwritten on one side, undone and redone. -/
theorem undo_redo_row :
    let m : Move Row Nat :=
      .composite [.leaf (.swap Row.cell 0 1), .leaf (.change Row.cell 0 (some 2))]
    let w := Row.workspace [some 0, some 3, some 1, none]
    let undo := m.undo w.plan
    let redo := undo.undo (m.apply w).plan
    (undo.apply (m.apply w)).plan = w.plan ∧
      (redo.apply (undo.apply (m.apply w))).plan = (m.apply w).plan ∧
      fullScore (undo.apply (m.apply w)) = fullScore w := by
  intro m w undo redo
  have hm : m.Of (· = Row.cell) w.plan := fun a ha => by
    have hslots : a ∈ [(⟨Row.cell, 0⟩ : Slot Row Nat), ⟨Row.cell, 1⟩, ⟨Row.cell, 0⟩] := ha
    simp only [List.mem_cons, List.not_mem_nil, or_false] at hslots
    rcases hslots with rfl | rfl | rfl
    · exact Row.of_iff.2 ⟨rfl, by decide⟩
    · exact Row.of_iff.2 ⟨rfl, by decide⟩
    · exact Row.of_iff.2 ⟨rfl, by decide⟩
  obtain ⟨-, hplan, hscore⟩ := undo_redo Row.lawful (w := w) hm
  obtain ⟨hundone, hredone⟩ := hplan Row.overwrites
  exact ⟨hundone, hredone, (hscore _ Row.exact ⟨rfl, nofun⟩).1.1⟩

end Move

end PlanSearch
