import PlanSearch.Proofs.Move.Undo
import PlanSearch.Proofs.Neighbourhood.Arrangement

/-!
# Which end of a swap comes first

A move and the same move with the ends of its swaps exchanged can be applied to the same plans, and
they lead to the same plan, since writes to different slots commute.

    m.upright.isDoable p = m.isDoable p                                  (isDoable_upright)
    m.Of X p → same (m.upright.on p) (m.on p)                            (on_upright)
-/

namespace PlanSearch

variable {S V : Type} {sh : Shape}

namespace Move

/-- The ends stay, or they are exchanged. -/
theorem uprightLeaf_swap (x : Variable S V) (left right : Nat) :
    uprightLeaf (.swap x left right) = .swap x left right ∨
      uprightLeaf (.swap x left right) = .swap x right left := by
  by_cases h : left ≤ right
  · left
    simp only [uprightLeaf, Nat.min_eq_left h, Nat.max_eq_right h]
  · right
    have h : right ≤ left := by omega
    simp only [uprightLeaf, Nat.min_eq_right h, Nat.max_eq_left h]

mutual

theorem leaves_upright : (m : Move S V) → m.upright.leaves = m.leaves.map uprightLeaf
  | leaf _ => rfl
  | composite parts => leavesOf_uprightAll parts

theorem leavesOf_uprightAll : (ms : List (Move S V)) →
    leavesOf (uprightAll ms) = (leavesOf ms).map uprightLeaf
  | [] => rfl
  | m :: ms => by
    show m.upright.leaves ++ leavesOf (uprightAll ms) = (m.leaves ++ leavesOf ms).map uprightLeaf
    rw [leaves_upright m, leavesOf_uprightAll ms, List.map_append]

end

theorem mem_slots_uprightLeaf (l : Leaf S V) (a : Slot S V) :
    a ∈ (uprightLeaf l).slots ↔ a ∈ l.slots := by
  cases l with
  | change x e v => rfl
  | swap x left right =>
    rcases uprightLeaf_swap x left right with h | h
    · rw [h]
    · rw [h]
      simp only [Leaf.slots, List.mem_cons, List.not_mem_nil, or_false]
      exact or_comm

theorem mem_slots_upright (m : Move S V) (a : Slot S V) : a ∈ m.upright.slots ↔ a ∈ m.slots := by
  unfold slots
  rw [leaves_upright]
  simp only [List.mem_flatMap, List.mem_map, exists_exists_and_eq_and, mem_slots_uprightLeaf]

variable [Plan S sh] {X : Variable S V → Prop} {same : S → S → Prop} {p : S} {m m' : Move S V}

theorem of_upright : m.upright.Of X p ↔ m.Of X p := by
  unfold Of
  simp only [mem_slots_upright]

/-! ## Whether a move can be applied -/

variable [DecidableEq V]

theorem isDoable_uprightLeaf (p : S) (l : Leaf S V) :
    (uprightLeaf l).isDoable p = l.isDoable p := by
  cases l with
  | change x e v => rfl
  | swap x left right =>
    rcases uprightLeaf_swap x left right with h | h
    · rw [h]
    · rw [h]
      unfold Leaf.isDoable
      dsimp only
      rw [bne_comm (a := right), bne_comm (a := x.get p right), Bool.and_right_comm (_ != _)]

theorem isDoable_upright (p : S) (m : Move S V) : m.upright.isDoable p = m.isDoable p := by
  unfold isDoable
  rw [leaves_upright, List.any_map]
  congr 1
  funext l
  exact isDoable_uprightLeaf p l

/-! ## What a move leads to -/

omit [DecidableEq V]

theorem swap_on_comm (h : Lenses X same) {x : Variable S V} {left right : Nat}
    (hl : Slot.Of X p ⟨x, left⟩) (hr : Slot.Of X p ⟨x, right⟩) :
    same ((Leaf.swap x right left).on p) ((Leaf.swap x left right).on p) := by
  by_cases hne : left = right
  · rw [hne]
    exact h.equivalence.refl _
  · have hdistinct : ¬ Slot.sameAs (⟨x, right⟩ : Slot S V) ⟨x, left⟩ := by
      intro hs
      exact hne (Slot.sameAs_iff.1 hs).1.symm
    exact h.set_comm (x.get p left) (x.get p right) hr hl hdistinct

theorem uprightLeaf_on (h : Lenses X same) {l : Leaf S V} (hl : ∀ a ∈ l.slots, a.Of X p) :
    same ((uprightLeaf l).on p) (l.on p) := by
  cases l with
  | change x e v => exact h.equivalence.refl _
  | swap x left right =>
    rcases uprightLeaf_swap x left right with hu | hu
    · rw [hu]
      exact h.equivalence.refl _
    · rw [hu]
      refine swap_on_comm h ?_ ?_
      · exact hl _ List.mem_cons_self
      · exact hl _ (List.mem_cons_of_mem _ List.mem_cons_self)

theorem on_upright (h : Lenses X same) (hm : m.Of X p) : same (m.upright.on p) (m.on p) := by
  have hleaves := hm.leaf
  unfold on
  rw [leaves_upright]
  clear hm
  generalize m.leaves = leaves at hleaves ⊢
  induction leaves generalizing p with
  | nil => exact h.equivalence.refl p
  | cons l leaves ih =>
    have hl := hleaves l List.mem_cons_self
    have hrest : ∀ l' ∈ leaves, ∀ a ∈ l'.slots, a.Of X (l.on p) := by
      intro l' hl' a ha
      exact (h.of_leaf_on hl a).2 (hleaves l' (List.mem_cons_of_mem _ hl') a ha)
    -- The first leaf leads to plans that count as the same, and the others keep them so.
    have hfirst : same (l.on p) ((uprightLeaf l).on p) := h.equivalence.symm (uprightLeaf_on h hl)
    have hmap : ∀ l' ∈ leaves.map uprightLeaf, ∀ a ∈ l'.slots, a.Of X (l.on p) := by
      intro l' hl' a ha
      obtain ⟨l'', hl'', rfl⟩ := List.mem_map.1 hl'
      exact hrest l'' hl'' a ((mem_slots_uprightLeaf l'' a).1 ha)
    have hothers := h.equivalence.symm (h.foldl_on_congr hmap hfirst)
    exact h.equivalence.trans hothers (ih hrest)

/-- Moves that differ only in the order of ends lead to the same plan. -/
theorem on_of_upright_eq (h : Lenses X same) (hm : m.Of X p) (e : m'.upright = m.upright) :
    same (m.on p) (m'.on p) := by
  have hm' : m'.Of X p := by rwa [← of_upright, e, of_upright]
  have hupright := on_upright h hm
  rw [← e] at hupright
  exact h.equivalence.trans (h.equivalence.symm hupright) (on_upright h hm')

end Move

end PlanSearch
