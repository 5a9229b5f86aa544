import Mathlib
import PlanSearch.Proofs.Phase.Filling

/-!
# What a placer lists, and in which order

A placer that starts its walk over again is named every entity that moves may change, in the order
of their indices, wherever the walk stood before; it keeps those without a value. Sorting is stable:
it exchanges only what differs in difficulty. So the list has each of these entities once, the
hardest first if the placer compares them, and those that it does not tell apart by their indices.

    entities.restart is asked until it has nothing left → it names `Plan.movable`   (names_restart)
    [a, b] in a sorted list → a is in front of b by the order, or was before  (pairwise_stable)
    the placements are the unassigned ones of the named entities, in order    (placements_listed)
-/

namespace PlanSearch

/-! ## Walks that are started over -/

namespace EntityWalk

variable {S : Type} {sh : Shape} [Plan S sh] {plan : S} {family : Nat}

/-- A walk in order that is asked until it has nothing left names these entities. -/
inductive Names (plan : S) (family : Nat) :
    EntityWalk → Source → List Nat → EntityWalk → Source → Prop
  | stop {w w' : EntityWalk} {s s' : Source}
    (last : w.next plan family .original s = (none, w', s')) : Names plan family w s [] w' s'
  | step {w w₁ w' : EntityWalk} {s s₁ s' : Source} {e : Nat} {es : List Nat}
    (first : w.next plan family .original s = (some e, w₁, s₁))
    (rest : Names plan family w₁ s₁ es w' s') : Names plan family w s (e :: es) w' s'

/-- There is one way to ask a walk until it has nothing left. -/
theorem Names.unique {w w' w'' : EntityWalk} {s s' s'' : Source} {es es' : List Nat}
    (h : Names plan family w s es w' s') (h' : Names plan family w s es' w'' s'') :
    es = es' ∧ w' = w'' ∧ s' = s'' := by
  induction h generalizing es' with
  | stop last =>
    cases h' with
    | stop last' =>
      rw [last] at last'
      cases last'
      exact ⟨rfl, rfl, rfl⟩
    | step first' rest' =>
      rw [last] at first'
      cases first'
  | step first rest ih =>
    cases h' with
    | stop last' =>
      rw [first] at last'
      cases last'
    | step first' rest' =>
      rw [first] at first'
      cases first'
      obtain ⟨rfl, hw, hs⟩ := ih rest'
      exact ⟨rfl, hw, hs⟩

/-- Entities that are listed already are named as they stand. -/
theorem names_listed (w : EntityWalk) (hw : w.stale = false) (s : Source) :
    Names plan family w s w.candidates { w with candidates := [] } s := by
  obtain ⟨candidates, stale, tracker⟩ := w
  obtain rfl : stale = false := hw
  induction candidates with
  | nil => exact .stop rfl
  | cons e es ih => exact .step rfl ih

theorem Names.congr {w v w' : EntityWalk} {s s' : Source} {es : List Nat}
    (h : Names plan family v s es w' s')
    (e : w.next plan family .original s = v.next plan family .original s) :
    Names plan family w s es w' s' := by
  cases h with
  | stop last => exact .stop (e.trans last)
  | step first rest => exact .step (e.trans first) rest

/-- Wherever a walk stands, once started over it names all entities that moves may change. -/
theorem names_restart (w : EntityWalk) (s : Source) :
    Names plan family w.restart s (Plan.movable plan family)
      { w with candidates := [], stale := false } s := by
  have hlisted : Names plan family { w with candidates := Plan.movable plan family, stale := false }
      s (Plan.movable plan family) { w with candidates := [], stale := false } s :=
    names_listed _ rfl s
  -- The first question lists the entities, and then goes on as if they had been listed before.
  exact hlisted.congr rfl

end EntityWalk

/-! ## Stable sorting -/

section Sorting

variable {α : Type} {le : α → α → Bool} {r : α → α → Prop} {l : List α} {a b : α}

theorem pair_sublist (ha : a ∈ l) (hb : b ∈ l) (hne : a ≠ b) :
    [a, b].Sublist l ∨ [b, a].Sublist l := by
  obtain ⟨before, behind, rfl⟩ := List.append_of_mem ha
  rcases List.mem_append.1 hb with hb | hb
  · right
    exact (List.singleton_sublist.2 hb).append (List.singleton_sublist.2 List.mem_cons_self)
  · left
    have hb' : b ∈ behind := (List.mem_cons.1 hb).resolve_left hne.symm
    exact ((List.singleton_sublist.2 hb').cons_cons a).trans (List.sublist_append_right _ _)

/-- What stands in front in a sorted list belongs there, or was in front before. -/
theorem pairwise_stable (trans : ∀ a b c, le a b → le b c → le a c)
    (total : ∀ a b, le a b || le b a) (hnodup : l.Nodup) (hl : l.Pairwise r) :
    (l.mergeSort le).Pairwise fun a b => le a b ∧ (le b a → r a b) := by
  have hsorted : (l.mergeSort le).Pairwise fun a b => le a b :=
    List.pairwise_mergeSort trans total l
  have hnodup' : (l.mergeSort le).Nodup := (List.mergeSort_perm l le).nodup_iff.2 hnodup
  rw [List.pairwise_iff_forall_sublist] at hsorted hl ⊢
  intro a b hab
  refine ⟨hsorted hab, fun hle => ?_⟩
  have hmem : ∀ c ∈ [a, b], c ∈ l := fun c hc => List.mem_mergeSort.1 (hab.subset hc)
  have hne : a ≠ b := by
    have hpair : [a, b].Nodup := hnodup'.sublist hab
    rintro rfl
    exact (List.nodup_cons.1 hpair).1 List.mem_cons_self
  rcases pair_sublist (hmem a (by simp)) (hmem b (by simp)) hne with h | h
  · exact hl h
  · -- Sorting would have left the two as they were.
    have hba : [b, a].Sublist (l.mergeSort le) := List.pair_sublist_mergeSort trans total hle h
    have heq : [a, b] = [b, a] := (hnodup'.perm_iff_eq_of_sublist hab hba).1 (.swap b a [])
    exact absurd (List.cons.inj heq).1 hne

end Sorting

/-! ## Placements -/

namespace Placer

variable {S V : Type} {sh : Shape} [Plan S sh] {p : Placer S V} {plan : S}

theorem mem_movable {family e : Nat} : e ∈ Plan.movable plan family ↔
    e < Plan.entityCount plan family ∧ Plan.isPinned plan ⟨family, e⟩ = false := by
  unfold Plan.movable
  rw [List.mem_filter, List.mem_range, Bool.not_eq_true']

/-- The placer has a reason to place `a` before `b`: it is harder, or comes first. -/
def Precedes (p : Placer S V) (plan : S) (a b : Nat) : Prop :=
  match p.difficulty with
  | none => a < b
  | some difficulty => difficulty plan a b = .gt ∨ difficulty plan a b = .eq ∧ a < b

/-- Those of `es` that have no value yet. -/
def unassigned (p : Placer S V) (plan : S) (es : List Nat) : List Nat :=
  es.filter fun e => (p.definition.cell.get plan e).isNone

/-- Harder entities come first, and of two that are equally hard the one with the lower index. -/
theorem pairwise_precedes (h : ∀ difficulty, p.difficulty = some difficulty →
      Std.TransCmp (difficulty plan)) : (p.placements plan).Pairwise (p.Precedes plan) := by
  have hindex : (p.definition.gaps plan).Pairwise (· < ·) :=
    (List.pairwise_lt_range.filter _).filter _
  unfold placements Precedes
  cases hd : p.difficulty with
  | none => exact hindex
  | some difficulty =>
    have := h difficulty hd
    have hle : ∀ a b : Nat, (difficulty plan b a != .gt) = true ↔ (difficulty plan b a).isLE = true :=
      fun a b => by rw [bne_iff_ne, Ordering.isLE_iff_ne_gt]
    refine (pairwise_stable ?_ ?_ (hindex.imp Nat.ne_of_lt) hindex).imp ?_
    · intro a b c hab hbc
      rw [hle] at hab hbc ⊢
      exact Std.TransCmp.isLE_trans hbc hab
    · intro a b
      rw [Bool.or_eq_true, hle, hle]
      have hswap : difficulty plan a b = (difficulty plan b a).swap := Std.OrientedCmp.eq_swap
      rw [hswap]
      cases difficulty plan b a <;> decide
    · rintro a b ⟨hab, htie⟩
      rw [hle, Ordering.isLE_iff_ne_gt, Std.OrientedCmp.gt_iff_lt] at hab
      cases hcompare : difficulty plan a b with
      | lt => exact absurd hcompare hab
      | gt => exact .inl hcompare
      | eq => exact .inr ⟨hcompare, htie (by rw [hcompare]; rfl)⟩

/-- Wherever its walk stood, a placer that starts it over is named the entities that moves may
change; the placements are those of them without a value, each of them once, and every one precedes
those behind it. -/
theorem placements_listed (p : Placer S V) (plan : S)
    (h : ∀ difficulty, p.difficulty = some difficulty → Std.TransCmp (difficulty plan))
    (entities : EntityWalk) (s : Source) :
    (∃ (es : List Nat) (w : EntityWalk),
      entities.restart.Names plan p.definition.cell.family s es w s ∧
        (p.placements plan).Perm (p.unassigned plan es)) ∧
    (p.placements plan).Nodup ∧
    (∀ e, e ∈ p.placements plan ↔
      e < Plan.entityCount plan p.definition.cell.family ∧
      Plan.isPinned plan ⟨p.definition.cell.family, e⟩ = false ∧
      p.definition.cell.get plan e = none) ∧
    (p.placements plan).Pairwise (p.Precedes plan) := by
  have hperm : (p.placements plan).Perm (p.definition.gaps plan) :=
    Construction.placements_perm p plan
  refine ⟨⟨_, _, entities.names_restart s, hperm⟩, ?_, fun e => ?_, pairwise_precedes h⟩
  · exact hperm.nodup_iff.2 (p.definition.nodup_gaps plan)
  · rw [hperm.mem_iff, Definition.mem_gaps, and_congr_left' mem_movable, and_assoc]
    exact Iff.rfl

end Placer

namespace Board

/-- Odd cells are harder to fill than even ones. -/
def oddFirst : Placer Board Nat where
  definition := { entityClass := "Board", cell := cell, range := .listed [7, 8] }
  difficulty := some fun _ a b => compareOn (· % 2) a b

/-- The second of five cells has a value and the third one is pinned; the walk stood at its end. -/
theorem placements_listed_oddFirst :
    (∃ (es : List Nat) (w : EntityWalk),
      EntityWalk.Names (workspace [none, some 3, none, none, none] [2]).plan 0
        (EntityWalk.restart { candidates := [], stale := false }) (.ofSeed 0) es w (.ofSeed 0) ∧
      [3, 0, 4].Perm (oddFirst.unassigned (workspace [none, some 3, none, none, none] [2]).plan es)) ∧
    oddFirst.placements (workspace [none, some 3, none, none, none] [2]).plan = [3, 0, 4] := by
  have hplacements :
      oddFirst.placements (workspace [none, some 3, none, none, none] [2]).plan = [3, 0, 4] := by
    cbv
  have htrans : ∀ difficulty, oddFirst.difficulty = some difficulty →
      Std.TransCmp (difficulty (workspace [none, some 3, none, none, none] [2]).plan) := by
    rintro _ ⟨⟩
    exact inferInstanceAs (Std.TransCmp (compareOn fun a : Nat => a % 2))
  obtain ⟨hnamed, -⟩ := oddFirst.placements_listed
    (workspace [none, some 3, none, none, none] [2]).plan htrans
    { candidates := [], stale := false } (.ofSeed 0)
  rw [hplacements] at hnamed
  exact ⟨hnamed, hplacements⟩

end Board

end PlanSearch
