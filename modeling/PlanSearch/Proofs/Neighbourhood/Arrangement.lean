import Mathlib.Data.List.Perm.Basic
import PlanSearch.Neighbourhood.Tree

/-!
# Listings up to order

An orderly walk lists a neighbourhood, but not always in the order in which it is written down: a
shuffled leaf permutes its moves, and a shuffled swap leaf may also name the two ends of a swap the
other way round. `Slack` says how far a listing may be off, and the operations that trees are built
from respect it.

    k.Arranges norm l l' → k.Arranges norm (l.filter p) (l'.filter p)     (Slack.Arranges.filter)
    combinations of lists that are arranged are arranged                   (arranges_combinations)
    l.Perm l' → the unordered pairs of l and l' are the same               (perm_pairs)
-/

namespace PlanSearch

variable {α β γ δ : Type}

/-- How far a listing may be off. -/
inductive Slack where
  /-- Not at all. -/
  | exact
  /-- The order may differ. -/
  | order
  /-- The ends of a swap may be exchanged as well. -/
  | ends
  deriving DecidableEq

namespace Slack

/-- The larger of two slacks. -/
def join : Slack → Slack → Slack
  | exact, k => k
  | order, exact => order
  | order, k => k
  | ends, _ => ends

/-- The two lists agree as far as `k` asks for, where `norm` forgets the order of ends. -/
def Arranges (k : Slack) (norm : α → β) (l l' : List α) : Prop :=
  match k with
  | exact => l = l'
  | order => l.Perm l'
  | ends => (l.map norm).Perm (l'.map norm)

variable {k k' : Slack} {norm : α → β} {l l' l'' m m' : List α}

namespace Arranges

theorem of_eq (h : l = l') : k.Arranges norm l l' := by
  subst h
  cases k with
  | exact => rfl
  | order => exact .refl l
  | ends => exact .refl _

theorem of_perm (hk : k ≠ exact) (h : l.Perm l') : k.Arranges norm l l' := by
  cases k with
  | exact => exact absurd rfl hk
  | order => exact h
  | ends => exact h.map norm

theorem refl (k : Slack) (norm : α → β) (l : List α) : k.Arranges norm l l := of_eq rfl

theorem symm (h : k.Arranges norm l l') : k.Arranges norm l' l := by
  cases k with
  | exact => exact Eq.symm h
  | order => exact List.Perm.symm h
  | ends => exact List.Perm.symm h

theorem trans (h : k.Arranges norm l l') (h' : k.Arranges norm l' l'') :
    k.Arranges norm l l'' := by
  cases k with
  | exact => exact Eq.trans h h'
  | order => exact List.Perm.trans h h'
  | ends => exact List.Perm.trans h h'

theorem perm_map (h : k.Arranges norm l l') : (l.map norm).Perm (l'.map norm) := by
  cases k with
  | exact => exact .of_eq (congrArg (List.map norm) h)
  | order => exact List.Perm.map norm h
  | ends => exact h

theorem perm (h : k.Arranges norm l l') (hk : k ≠ ends) : l.Perm l' := by
  cases k with
  | exact => exact .of_eq h
  | order => exact h
  | ends => exact absurd rfl hk

theorem length_eq (h : k.Arranges norm l l') : l.length = l'.length := by
  have hlength := h.perm_map.length_eq
  rwa [List.length_map, List.length_map] at hlength

theorem eq_nil (h : k.Arranges norm l []) : l = [] :=
  List.eq_nil_of_length_eq_zero h.length_eq

/-- A larger slack asks for less. -/
theorem join_left (h : k.Arranges norm l l') (k' : Slack) : (k.join k').Arranges norm l l' := by
  cases k with
  | exact => exact of_eq h
  | order =>
    cases k' with
    | exact => exact h
    | order => exact h
    | ends => exact h.perm_map
  | ends => exact h

theorem join_right (h : k.Arranges norm l l') (k' : Slack) : (k'.join k).Arranges norm l l' := by
  cases k' with
  | exact => exact h
  | order =>
    cases k with
    | exact => exact of_perm nofun (.of_eq h)
    | order => exact h
    | ends => exact h
  | ends => exact h.perm_map

theorem append (h : k.Arranges norm l l') (h' : k.Arranges norm m m') :
    k.Arranges norm (l ++ m) (l' ++ m') := by
  cases k with
  | exact => exact congrArg₂ (· ++ ·) h h'
  | order => exact List.Perm.append h h'
  | ends =>
    show ((l ++ m).map norm).Perm ((l' ++ m').map norm)
    rw [List.map_append, List.map_append]
    exact List.Perm.append h h'

theorem map {norm' : γ → δ} {f : α → γ} {g : β → δ} (hf : ∀ a, norm' (f a) = g (norm a))
    (h : k.Arranges norm l l') : k.Arranges norm' (l.map f) (l'.map f) := by
  cases k with
  | exact => exact congrArg (List.map f) h
  | order => exact List.Perm.map f h
  | ends =>
    have hmap (l : List α) : (l.map f).map norm' = (l.map norm).map g := by
      rw [List.map_map, List.map_map]
      exact List.map_congr_left fun a _ => hf a
    show ((l.map f).map norm').Perm ((l'.map f).map norm')
    rw [hmap, hmap]
    exact List.Perm.map g h

theorem filter {norm : α → α} {l l' : List α} {p : α → Bool}
    (hp : k = ends → ∀ a, p (norm a) = p a)
    (h : k.Arranges norm l l') : k.Arranges norm (l.filter p) (l'.filter p) := by
  cases k with
  | exact => exact congrArg (List.filter p) h
  | order => exact List.Perm.filter p h
  | ends =>
    have hfilter (l : List α) : (l.filter p).map norm = (l.map norm).filter p := by
      rw [List.filter_map]
      exact congrArg (List.map norm) (List.filter_congr fun a _ => (hp rfl a).symm)
    show ((l.filter p).map norm).Perm ((l'.filter p).map norm)
    rw [hfilter, hfilter]
    exact List.Perm.filter p h

/-- Taking one element of `l` and then one of the lists of `m`. -/
theorem cons_product {m m' : List (List α)} (h : k.Arranges norm l l')
    (h' : k.Arranges (List.map norm) m m') :
    k.Arranges (List.map norm) (l.flatMap fun a => m.map (a :: ·))
      (l'.flatMap fun a => m'.map (a :: ·)) := by
  cases k with
  | exact =>
    obtain rfl : l = l' := h
    obtain rfl : m = m' := h'
    rfl
  | order => exact List.Perm.flatMap h fun a _ => List.Perm.map _ h'
  | ends =>
    have hmap (l : List α) (m : List (List α)) :
        (l.flatMap fun a => m.map (a :: ·)).map (List.map norm) =
          (l.map norm).flatMap fun b => (m.map (List.map norm)).map (b :: ·) := by
      rw [List.map_flatMap, List.flatMap_map]
      refine congrArg (List.flatMap · l) (funext fun a => ?_)
      rw [List.map_map, List.map_map]
      rfl
    show ((l.flatMap fun a => m.map (a :: ·)).map (List.map norm)).Perm
      ((l'.flatMap fun a => m'.map (a :: ·)).map (List.map norm))
    rw [hmap, hmap]
    exact List.Perm.flatMap h fun b _ => List.Perm.map _ h'

end Arranges

end Slack

/-! ## Moves up to the order of ends -/

/-- The unordered pair, the smaller end first. -/
def sorted (p : Nat × Nat) : Nat × Nat := (min p.1 p.2, max p.1 p.2)

theorem sorted_swap (a b : Nat) : sorted (a, b) = sorted (b, a) := by
  unfold sorted
  rw [Nat.min_comm, Nat.max_comm]

namespace Move

variable {S V : Type}

/-- A swap with the smaller end first. -/
def uprightLeaf : Leaf S V → Leaf S V
  | .change x entity value => .change x entity value
  | .swap x left right => .swap x (min left right) (max left right)

mutual

/-- The same move, each of its swaps with the smaller end first. -/
def upright : Move S V → Move S V
  | leaf m => leaf (uprightLeaf m)
  | composite parts => composite (uprightAll parts)

def uprightAll : List (Move S V) → List (Move S V)
  | [] => []
  | m :: ms => upright m :: uprightAll ms

end

theorem uprightAll_eq (ms : List (Move S V)) : uprightAll ms = ms.map upright := by
  induction ms with
  | nil => rfl
  | cons m ms ih => exact congrArg (m.upright :: ·) ih

theorem upright_composite (ms : List (Move S V)) :
    (composite ms).upright = composite (ms.map upright) :=
  congrArg composite (uprightAll_eq ms)

end Move

/-! ## Pairs -/

namespace Tree

/-- Which pairs there are does not depend on the order of the list, the order of ends aside. -/
theorem perm_pairs {l l' : List Nat} (h : l.Perm l') :
    ((pairs l).map sorted).Perm ((pairs l').map sorted) := by
  induction h with
  | nil => exact .refl _
  | @cons a l l' h ih =>
    show ((l.map (a, ·) ++ pairs l).map sorted).Perm ((l'.map (a, ·) ++ pairs l').map sorted)
    rw [List.map_append, List.map_append]
    exact ((h.map (a, ·)).map sorted).append ih
  | swap a b l =>
    show (((a :: l).map (b, ·) ++ (l.map (a, ·) ++ pairs l)).map sorted).Perm
      (((b :: l).map (a, ·) ++ (l.map (b, ·) ++ pairs l)).map sorted)
    simp only [List.map_append, List.map_cons, List.cons_append, sorted_swap b a]
    refine .cons _ ?_
    rw [← List.append_assoc, ← List.append_assoc]
    exact List.perm_append_comm.append_right _
  | trans _ _ ih ih' => exact ih.trans ih'

theorem length_pairs {α : Type} (l : List α) :
    (pairs l).length = l.length * (l.length - 1) / 2 := by
  have htwice : 2 * (pairs l).length = l.length * (l.length - 1) := by
    induction l with
    | nil => rfl
    | cons a l ih =>
      show 2 * (l.map (a, ·) ++ pairs l).length = (l.length + 1) * l.length
      rw [List.length_append, List.length_map, Nat.mul_add, ih]
      cases l.length with
      | zero => rfl
      | succ n =>
        rw [Nat.succ_sub_one, Nat.mul_comm (n + 1) n, ← Nat.add_mul, Nat.add_comm 2]
  rw [← htwice, Nat.mul_div_cancel_left _ (by decide)]

/-! ## Combinations -/

theorem length_combinations_cons (l : List α) (ls : List (List α)) :
    (combinations (l :: ls)).length = l.length * (combinations ls).length := by
  show (l.flatMap fun a => (combinations ls).map (a :: ·)).length = _
  rw [List.length_flatMap]
  simp only [List.length_map, List.map_const', List.sum_replicate_nat]

end Tree

end PlanSearch
