import Mathlib.Algebra.GroupWithZero.Nat
import Mathlib.Algebra.Order.BigOperators.Group.List
import Mathlib.Algebra.Order.Group.Nat
import PlanSearch.Proofs.Move.Slot
import PlanSearch.Proofs.Neighbourhood.Orderly

/-!
# Sizes of trees

The size that a tree states for a plan is the number of moves that it has without its filters, as
long as that can be counted; the filters leave no more than these. A product of too many moves has
the highest size there is. Sums are not cut off so: a tree in which the counts of a union, or of a
leaf, add up to more states no size at all.

    t.Countable plan → t.size plan = .ok (t.unfiltered.moves plan).length  (size_eq)
    (t.moves plan).length ≤ (t.unfiltered.moves plan).length               (length_moves_le)
    t.size plan = .ok (min (t.unfiltered.moves plan).length highest), or else t.Overruns plan
      and t.size plan = .error .overflow                       (size_saturates_or_overflows)
-/

namespace PlanSearch.Tree

variable {S V : Type} {sh : Shape} [Plan S sh] {plan : S}

mutual

/-- The tree without its filters. -/
def unfiltered : Tree S V → Tree S V
  | change d order => change d order
  | swap x order => swap x order
  | union children random weights => union (unfilteredAll children) random weights
  | product children random => product (unfilteredAll children) random
  | filter child _ => unfiltered child

def unfilteredAll : List (Tree S V) → List (Tree S V)
  | [] => []
  | t :: ts => unfiltered t :: unfilteredAll ts

end

mutual

/-- The moves of every node, filters aside, can be counted in 64 bits, those of a swap twice. -/
def Countable (plan : S) : Tree S V → Prop
  | change d order => (moves plan (change d order)).length < UInt64.size
  | swap x _ =>
    (Plan.movable plan x.family).length * ((Plan.movable plan x.family).length - 1) < UInt64.size
  | union children _ _ =>
    CountableAll plan children ∧
      (movesOf plan (unfilteredAll children)).flatten.length < UInt64.size
  | product children _ =>
    CountableAll plan children ∧
      (combinations (movesOf plan (unfilteredAll children))).length < UInt64.size
  | filter child _ => Countable plan child

def CountableAll (plan : S) : List (Tree S V) → Prop
  | [] => True
  | t :: ts => Countable plan t ∧ CountableAll plan ts

end

/-! ## Counts that overrun -/

/-- The highest size. -/
def highest : Nat := UInt64.size - 1

mutual

/-- Somewhere in the tree counts add up to more than the highest size: those of the values of a
change leaf, those of the ordered pairs of a swap leaf, or the sizes of the children of a union, of
which a product may have reached the highest one already. -/
def Overruns (plan : S) : Tree S V → Prop
  | change d order => highest < (moves plan (change d order)).length
  | swap x _ =>
    highest < (Plan.movable plan x.family).length * ((Plan.movable plan x.family).length - 1)
  | union children _ _ =>
    SomeOverruns plan children ∨
      highest < ((movesOf plan (unfilteredAll children)).map (min ·.length highest)).sum
  | product children _ => SomeOverruns plan children
  | filter child _ => Overruns plan child

def SomeOverruns (plan : S) : List (Tree S V) → Prop
  | [] => False
  | t :: ts => Overruns plan t ∨ SomeOverruns plan ts

end

/-- The count comes out as `n`, unless it overruns. -/
inductive Counts (overruns : Prop) (n : Nat) : Checked Nat → Prop
  | ok (h : ¬ overruns) : Counts overruns n (.ok n)
  | overflow (h : overruns) : Counts overruns n (.error .overflow)

namespace Counts

variable {p q : Prop} {n m : Nat} {x : Checked Nat}

theorem congr (h : Counts p n x) (hp : p ↔ q) (hn : ¬ p → n = m) : Counts q m x := by
  cases h with
  | ok h => exact hn h ▸ .ok (hp.not.1 h)
  | overflow h => exact .overflow (hp.1 h)

theorem eq_ok (h : Counts p n x) (hp : ¬ p) : x = .ok n := by
  cases h with
  | ok _ => rfl
  | overflow h => exact absurd h hp

theorem eq_overflow (h : Counts p n x) (hp : p) : x = .error .overflow := by
  cases h with
  | ok h => exact absurd hp h
  | overflow _ => rfl

theorem bind {f : Nat → Checked Nat} (h : Counts p n x) (hf : ¬ p → Counts q m (f n)) :
    Counts (p ∨ q) m (x >>= f) := by
  cases h with
  | overflow h => exact .overflow (.inl h)
  | ok h => exact (hf h).congr (or_iff_right h).symm fun _ => rfl

theorem count (n : Nat) : Counts (highest < n) n (Checked.count n) := by
  have hhighest : highest + 1 = UInt64.size := rfl
  unfold Checked.count
  split
  · exact .ok (by omega)
  · exact .overflow (by omega)

/-- A sum that is formed step by step overruns exactly if the whole of it does. -/
theorem foldlM {α : Type} (f : α → Nat) (l : List α) (hn : n ≤ highest) :
    Counts (highest < n + (l.map f).sum) (n + (l.map f).sum)
      (l.foldlM (fun sum a => Checked.count (sum + f a)) n) := by
  induction l generalizing n with
  | nil => exact .ok (Nat.not_lt.2 hn)
  | cons a l ih =>
    rw [List.foldlM_cons, List.map_cons, List.sum_cons, ← Nat.add_assoc]
    refine ((count (n + f a)).bind fun hle => ih (Nat.not_lt.1 hle)).congr ?_ fun _ => rfl
    omega

end Counts

theorem min_mul_min (a b m : Nat) : min (min a m * b) m = min (a * b) m := by
  rcases Nat.le_total a m with ha | ha
  · rw [Nat.min_eq_left ha]
  · rw [Nat.min_eq_right ha]
    cases b with
    | zero => rfl
    | succ b =>
      have hm : m ≤ m * (b + 1) := Nat.le_mul_of_pos_right m (Nat.succ_pos b)
      rw [Nat.min_eq_right hm, Nat.min_eq_right (Nat.le_trans hm (Nat.mul_le_mul_right _ ha))]

/-- Numbers that were cut off one by one are not cut off further as long as their sum is not. -/
theorem sum_min_eq {l : List Nat} {m : Nat} (h : (l.map (min · m)).sum ≤ m) :
    (l.map (min · m)).sum = min l.sum m := by
  induction l with
  | nil => exact (Nat.min_eq_left (Nat.zero_le m)).symm
  | cons a l ih =>
    rw [List.map_cons, List.sum_cons] at h
    rw [List.map_cons, List.sum_cons, List.sum_cons, ih (by omega)]
    have hrest := ih (by omega)
    omega

mutual

/-- The size of a tree is cut off at the highest one, unless something in the tree overruns. -/
theorem counts_size (plan : S) : (t : Tree S V) →
    Counts (t.Overruns plan) (min (t.unfiltered.moves plan).length highest) (t.size plan)
  | change d order => by
    have hlength : ((Plan.movable plan d.cell.family).map fun e =>
        (d.choices plan e).length).sum = (moves plan (change d order)).length := by
      show _ = (List.flatMap _ _).length
      rw [List.length_flatMap]
      simp only [List.length_map]
    have hfold := Counts.foldlM (fun e => (d.choices plan e).length)
      (Plan.movable plan d.cell.family) (Nat.zero_le highest)
    rw [Nat.zero_add, hlength] at hfold
    exact hfold.congr Iff.rfl fun hle => (Nat.min_eq_left (Nat.not_lt.1 hle)).symm
  | swap x order => by
    have hlength : (moves plan (swap x order) : List (Move S V)).length =
        (Plan.movable plan x.family).length * ((Plan.movable plan x.family).length - 1) / 2 := by
      show (List.map _ _).length = _
      rw [List.length_map, length_pairs]
    have hpairs : Counts (Overruns plan (swap x order : Tree S V) ∨ False) _
        (size plan (swap x order : Tree S V)) := (Counts.count _).bind fun _ => .ok not_false
    refine hpairs.congr (or_iff_left not_false) fun hle => ?_
    have hle : ¬ highest < (Plan.movable plan x.family).length *
      ((Plan.movable plan x.family).length - 1) := fun h => hle (.inl h)
    show _ = min (moves plan (swap x order) : List (Move S V)).length highest
    rw [hlength]
    omega
  | union children random weights => by
    have hsum := counts_sumSizes plan children (Nat.zero_le highest)
    rw [Nat.zero_add] at hsum
    refine hsum.congr Iff.rfl fun hle => ?_
    show _ = min (movesOf plan (unfilteredAll children)).flatten.length highest
    have hcut : (movesOf plan (unfilteredAll children)).map (min ·.length highest) =
        ((movesOf plan (unfilteredAll children)).map List.length).map (min · highest) := by
      rw [List.map_map]
      rfl
    rw [List.length_flatten, hcut, sum_min_eq (hcut ▸ Nat.not_lt.1 (not_or.1 hle).2)]
  | product children random => by
    show Counts _ _ (if children.isEmpty then .ok 0 else multiplySizes plan 1 children)
    cases children with
    | nil => exact .ok not_false
    | cons t ts =>
      have hproduct := counts_multiplySizes plan (t :: ts) (n := 1) (by decide)
      refine hproduct.congr Iff.rfl fun _ => ?_
      rw [Nat.one_mul]
      exact congrArg (min · highest) (List.length_map _).symm
  | filter child _ => counts_size plan child

theorem counts_sumSizes (plan : S) : (ts : List (Tree S V)) → {sum : Nat} → sum ≤ highest →
    Counts (SomeOverruns plan ts ∨
        highest < sum + ((movesOf plan (unfilteredAll ts)).map (min ·.length highest)).sum)
      (sum + ((movesOf plan (unfilteredAll ts)).map (min ·.length highest)).sum)
      (sumSizes plan sum ts)
  | [], _, hsum => .ok (not_or.2 ⟨not_false, Nat.not_lt.2 hsum⟩)
  | t :: ts, sum, _ => by
    have hcons : ((movesOf plan (unfilteredAll (t :: ts))).map (min ·.length highest)).sum =
        min (t.unfiltered.moves plan).length highest +
          ((movesOf plan (unfilteredAll ts)).map (min ·.length highest)).sum := List.sum_cons
    rw [hcons, ← Nat.add_assoc]
    have hsizes : Counts _ _ (sumSizes plan sum (t :: ts)) := (counts_size plan t).bind fun _ =>
      (Counts.count _).bind fun hle => counts_sumSizes plan ts (Nat.not_lt.1 hle)
    have hrest (rest : Nat) : highest < sum + min (t.unfiltered.moves plan).length highest →
        highest < sum + min (t.unfiltered.moves plan).length highest + rest :=
      fun h => Nat.lt_of_lt_of_le h (Nat.le_add_right _ _)
    refine hsizes.congr ?_ fun _ => rfl
    rw [or_left_comm (b := SomeOverruns plan ts), or_iff_right_of_imp (hrest _)]
    exact or_assoc.symm

theorem counts_multiplySizes (plan : S) : (ts : List (Tree S V)) → {n : Nat} → n ≤ highest →
    Counts (SomeOverruns plan ts)
      (min (n * (combinations (movesOf plan (unfilteredAll ts))).length) highest)
      (multiplySizes plan n ts)
  | [], n, hn => by
    show Counts False (min (n * 1) highest) (.ok n)
    rw [Nat.mul_one, Nat.min_eq_left hn]
    exact .ok not_false
  | t :: ts, n, _ => by
    have hcons : (combinations (movesOf plan (unfilteredAll (t :: ts)))).length =
        (t.unfiltered.moves plan).length *
          (combinations (movesOf plan (unfilteredAll ts))).length := length_combinations_cons _ _
    have hcut : min (n * min (t.unfiltered.moves plan).length highest) highest =
        min (n * (t.unfiltered.moves plan).length) highest := by
      rw [Nat.mul_comm, min_mul_min, Nat.mul_comm]
    rw [hcons, ← Nat.mul_assoc, ← min_mul_min, ← hcut]
    exact (counts_size plan t).bind fun _ => counts_multiplySizes plan ts (Nat.min_le_right ..)

end

/-! ## Sizes that are numbers of moves -/

mutual

theorem Countable.not_overruns : (t : Tree S V) → t.Countable plan → ¬ t.Overruns plan
  | change _ _, h => Nat.not_lt.2 (Nat.le_sub_one_of_lt h)
  | swap _ _, h => Nat.not_lt.2 (Nat.le_sub_one_of_lt h)
  | union children _ _, h => by
    refine not_or.2 ⟨CountableAll.not_someOverruns children h.1, Nat.not_lt.2 ?_⟩
    have hsum : (movesOf plan (unfilteredAll children)).flatten.length ≤ highest :=
      Nat.le_sub_one_of_lt h.2
    rw [List.length_flatten] at hsum
    exact Nat.le_trans (List.sum_le_sum fun _ _ => Nat.min_le_left _ _) hsum
  | product children _, h => CountableAll.not_someOverruns children h.1
  | filter child _, h => Countable.not_overruns child h

theorem CountableAll.not_someOverruns : (ts : List (Tree S V)) → CountableAll plan ts →
    ¬ SomeOverruns plan ts
  | [], _ => not_false
  | t :: ts, h =>
    not_or.2 ⟨Countable.not_overruns t h.1, CountableAll.not_someOverruns ts h.2⟩

end

theorem Countable.length_le : (t : Tree S V) → t.Countable plan →
    (t.unfiltered.moves plan).length ≤ highest
  | change _ _, h => Nat.le_sub_one_of_lt h
  | swap x order, h => by
    show (List.map _ _).length ≤ _
    rw [List.length_map, length_pairs]
    exact Nat.le_trans (Nat.div_le_self _ _) (Nat.le_sub_one_of_lt h)
  | union _ _ _, h => Nat.le_sub_one_of_lt h.2
  | product children random, h => by
    show (moves plan (product (unfilteredAll children) random)).length ≤ highest
    cases children with
    | nil => exact Nat.zero_le _
    | cons t ts =>
      refine Nat.le_trans (Nat.le_of_eq ?_) (Nat.le_sub_one_of_lt h.2)
      exact List.length_map _
  | filter child _, h => Countable.length_le child h

mutual

theorem length_moves_le (plan : S) : (t : Tree S V) →
    (t.moves plan).length ≤ (t.unfiltered.moves plan).length
  | change _ _ => Nat.le_refl _
  | swap _ _ => Nat.le_refl _
  | union children _ _ => (length_movesOf_le plan children).1
  | product children random => by
    show (if children.isEmpty then []
      else (combinations (movesOf plan children)).map Move.composite).length ≤
        (moves plan (product (unfilteredAll children) random)).length
    cases children with
    | nil => exact Nat.le_refl 0
    | cons t ts =>
      have hcombinations := (length_movesOf_le plan (t :: ts)).2
      rw [← List.length_map Move.composite, ← List.length_map Move.composite] at hcombinations
      exact hcombinations
  | filter child keep => Nat.le_trans (List.length_filter_le _ _) (length_moves_le plan child)

theorem length_movesOf_le (plan : S) : (ts : List (Tree S V)) →
    (movesOf plan ts).flatten.length ≤ (movesOf plan (unfilteredAll ts)).flatten.length ∧
      (combinations (movesOf plan ts)).length ≤
        (combinations (movesOf plan (unfilteredAll ts))).length
  | [] => ⟨Nat.le_refl _, Nat.le_refl _⟩
  | t :: ts => by
    have hthis := length_moves_le plan t
    obtain ⟨hsum, hproduct⟩ := length_movesOf_le plan ts
    show (moves plan t ++ (movesOf plan ts).flatten).length ≤
        (moves plan (unfiltered t) ++ (movesOf plan (unfilteredAll ts)).flatten).length ∧
      (combinations (moves plan t :: movesOf plan ts)).length ≤
        (combinations (moves plan (unfiltered t) :: movesOf plan (unfilteredAll ts))).length
    rw [List.length_append, List.length_append, length_combinations_cons,
      length_combinations_cons]
    exact ⟨Nat.add_le_add hthis hsum, Nat.mul_le_mul hthis hproduct⟩

end

/-! ## All sizes -/

/-- No size is lost without notice. It is the number of moves without the filters, cut off at the
highest size, or else something in the tree overruns and there is no size. -/
theorem size_saturates_or_overflows (plan : S) (t : Tree S V) :
    (¬ t.Overruns plan ∧ t.size plan = .ok (min (t.unfiltered.moves plan).length highest)) ∨
      (t.Overruns plan ∧ t.size plan = .error .overflow) := by
  rcases Classical.em (t.Overruns plan) with h | h
  · exact .inr ⟨h, (counts_size plan t).eq_overflow h⟩
  · exact .inl ⟨h, (counts_size plan t).eq_ok h⟩

end PlanSearch.Tree

namespace PlanSearch.Row

def sevenOrEight : Definition Row Nat :=
  { entityClass := "Row", cell := cell, range := .listed [7, 8] }

/-- A change of each of sixteen cells at once, any of them as often as one likes. -/
def sixteenfold : Tree Row Nat :=
  .product (List.replicate 16 (.change sevenOrEight .original)) false

/-- Eight cells have sixteen changes, and sixteen of these can be combined in `2 ^ 64` ways. That
size is cut off, and then a single change is too much for the sum. -/
theorem size_sixteenfold :
    let plan : Row := { cells := List.replicate 8 none }
    sixteenfold.size plan = .ok Tree.highest ∧
      (Tree.union [sixteenfold, .change sevenOrEight .original] false .equal).size plan =
        .error .overflow :=
  ⟨rfl, rfl⟩

end PlanSearch.Row
