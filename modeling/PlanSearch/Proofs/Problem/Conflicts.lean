import Mathlib.Algebra.BigOperators.Group.Finset.Piecewise
import Mathlib.Algebra.BigOperators.Group.Finset.Sigma
import Mathlib.Algebra.GroupWithZero.Nat
import PlanSearch.Problem.Queens
import PlanSearch.Proofs.Checked

/-!
# Counting conflicts

Two queens conflict along a line: a row, an ascending diagonal or a descending one. The count that
compares rows and their distance goes through the pairs of columns from the left. It finds each pair
of placed queens once for each line that they share, since queens in different columns are on at
most one diagonal. It has a result unless two rows are too far apart or the conflicts are too many.

    conflictScore b = .ok a ↔
      b.rows.Pairwise GapFits ∧ Fits (conflictCount b.rows) ∧ a.exact = [-conflictCount b.rows]
                                                                          (conflictScore_eq_ok_iff)
-/

namespace PlanSearch.Queens

open Checked (Fits)

/-! ## Lines -/

/-- The kinds of lines on which queens conflict. -/
inductive Line where
  | row
  | ascending
  | descending
  deriving DecidableEq, Repr

namespace Line

/-- The number of the line through a square. -/
def through : Line → Nat → Int64 → Int
  | row, _, r => r.toInt
  | ascending, column, r => r.toInt + column
  | descending, column, r => r.toInt - column

def all : List Line := [row, ascending, descending]

theorem mem_all (line : Line) : line ∈ all := by
  cases line <;> simp [all]

end Line

/-- The row of the queen in a column, if there is such a queen and it is placed. -/
def rowAt (rows : List (Option Int64)) (column : Nat) : Option Int64 := (rows[column]?).join

/-- The queens of two columns are placed, and they share a line. -/
def Meets (rows : List (Option Int64)) (line : Line) (i j : Nat) : Prop :=
  ∃ r ∈ rowAt rows i, ∃ s ∈ rowAt rows j, line.through i r = line.through j s

instance (rows : List (Option Int64)) (line : Line) (i j : Nat) : Decidable (Meets rows line i j) :=
  inferInstanceAs (Decidable (∃ r ∈ rowAt rows i, ∃ s ∈ rowAt rows j, _))

/-- The pairs of queens that share a line, by their columns, the left one first. -/
def meetings (rows : List (Option Int64)) (line : Line) : Finset (Nat × Nat) :=
  (Finset.range rows.length ×ˢ Finset.range rows.length).filter fun p =>
    p.1 < p.2 ∧ Meets rows line p.1 p.2

/-- The pairs of placed queens that stand in the same row. -/
def rowPairs (rows : List (Option Int64)) : Finset (Nat × Nat) :=
  (Finset.range rows.length ×ˢ Finset.range rows.length).filter fun p =>
    p.1 < p.2 ∧ ∃ r ∈ rowAt rows p.1, ∃ s ∈ rowAt rows p.2, r = s

/-- The pairs of placed queens that are as many rows apart as columns. -/
def diagonalPairs (rows : List (Option Int64)) : Finset (Nat × Nat) :=
  (Finset.range rows.length ×ˢ Finset.range rows.length).filter fun p =>
    p.1 < p.2 ∧ ∃ r ∈ rowAt rows p.1, ∃ s ∈ rowAt rows p.2,
      (r.toInt - s.toInt).natAbs = p.2 - p.1

/-- How many conflicts there are. A pair in one row has one, and so has a pair on a diagonal. -/
def conflictCount (rows : List (Option Int64)) : Nat :=
  (rowPairs rows).card + (diagonalPairs rows).card

variable {rows as bs : List (Option Int64)} {a b : Option Int64} {line : Line} {i j d : Nat}

@[simp] theorem rowAt_cons_zero (a : Option Int64) (as : List (Option Int64)) :
    rowAt (a :: as) 0 = a := rfl

@[simp] theorem rowAt_cons_succ (a : Option Int64) (as : List (Option Int64)) (i : Nat) :
    rowAt (a :: as) (i + 1) = rowAt as i := rfl

theorem rowAt_eq_some {r : Int64} : rowAt rows i = some r ↔ rows[i]? = some (some r) := by
  unfold rowAt
  exact Option.join_eq_some_iff

theorem lt_length_of_rowAt {r : Int64} (h : rowAt rows i = some r) : i < rows.length :=
  (List.getElem?_eq_some_iff.1 (rowAt_eq_some.1 h)).1

theorem mem_meetings : (i, j) ∈ meetings rows line ↔ i < j ∧ Meets rows line i j := by
  unfold meetings
  rw [Finset.mem_filter, Finset.mem_product, Finset.mem_range, Finset.mem_range]
  constructor
  · exact fun h => h.2
  · rintro ⟨hlt, r, hr, s, hs, heq⟩
    exact ⟨⟨lt_length_of_rowAt hr, lt_length_of_rowAt hs⟩, hlt, r, hr, s, hs, heq⟩

theorem card_meetings_le (rows : List (Option Int64)) (line : Line) :
    (meetings rows line).card ≤ rows.length * rows.length := by
  refine (Finset.card_filter_le _ _).trans_eq ?_
  rw [Finset.card_product, Finset.card_range]

/-! ## Lines and distances -/

theorem meetings_row (rows : List (Option Int64)) : meetings rows .row = rowPairs rows := by
  unfold meetings rowPairs Meets Line.through
  simp only [Int64.toInt_inj]

/-- Queens of different columns that are as many rows apart are on a diagonal. -/
theorem meetings_diagonal (rows : List (Option Int64)) :
    meetings rows .ascending ∪ meetings rows .descending = diagonalPairs rows := by
  unfold meetings diagonalPairs
  rw [← Finset.filter_or]
  refine Finset.filter_congr fun p _ => ?_
  rw [← and_or_left]
  refine and_congr_right fun hlt => ?_
  have hgap : ∀ r s : Int64, (r.toInt - s.toInt).natAbs = p.2 - p.1 ↔
      r.toInt + p.1 = s.toInt + p.2 ∨ r.toInt - p.1 = s.toInt - p.2 := fun r s => by omega
  simp only [hgap, Meets, Line.through, and_or_left, exists_or]

/-- No two queens of different columns share two diagonals. -/
theorem disjoint_meetings (rows : List (Option Int64)) :
    Disjoint (meetings rows .ascending) (meetings rows .descending) := by
  refine Finset.disjoint_left.2 fun ⟨i, j⟩ hascending hdescending => ?_
  obtain ⟨hlt, r, hr, s, hs, hsum⟩ := mem_meetings.1 hascending
  obtain ⟨-, r', hr', s', hs', hdifference⟩ := mem_meetings.1 hdescending
  obtain rfl := Option.some.inj (hr.symm.trans hr')
  obtain rfl := Option.some.inj (hs.symm.trans hs')
  simp only [Line.through] at hsum hdifference
  omega

theorem card_diagonalPairs (rows : List (Option Int64)) : (diagonalPairs rows).card =
    (meetings rows .ascending).card + (meetings rows .descending).card := by
  rw [← meetings_diagonal, Finset.card_union_of_disjoint (disjoint_meetings rows)]

/-- Pairs conflict once for each line that they share. -/
theorem conflictCount_eq (rows : List (Option Int64)) :
    conflictCount rows = (Line.all.map fun line => (meetings rows line).card).sum := by
  unfold conflictCount
  rw [card_diagonalPairs, ← meetings_row]
  rfl

theorem conflictCount_le (rows : List (Option Int64)) :
    conflictCount rows ≤ 3 * (rows.length * rows.length) := by
  have hrow := card_meetings_le rows .row
  have hascending := card_meetings_le rows .ascending
  have hdescending := card_meetings_le rows .descending
  simp only [conflictCount_eq, Line.all, List.map_cons, List.map_nil, List.sum_cons, List.sum_nil]
  omega

/-! ## Comparing rows and their distance -/

/-- The conflicts that the comparison of two queens finds. -/
def clashes (distance : Nat) : Option Int64 → Option Int64 → Nat
  | some r, some s =>
    (if r = s then 1 else 0) + if (r.toInt - s.toInt).natAbs = distance then 1 else 0
  | _, _ => 0

/-- The rows of two placed queens are not too far apart to be compared. -/
def GapFits (a b : Option Int64) : Prop :=
  ∀ r ∈ a, ∀ s ∈ b, Fits ((r.toInt - s.toInt).natAbs : Int)

theorem meets_iff {r s : Int64} (hr : rowAt rows i = some r) (hs : rowAt rows j = some s) :
    Meets rows line i j ↔ line.through i r = line.through j s := by
  unfold Meets
  simp only [hr, hs, Option.mem_def, Option.some.injEq, exists_eq_left']

theorem Meets.placed (h : Meets rows line i j) :
    (∃ r, rowAt rows i = some r) ∧ ∃ s, rowAt rows j = some s := by
  obtain ⟨r, hr, s, hs, -⟩ := h
  exact ⟨⟨r, hr⟩, s, hs⟩

/-- Queens of different columns share at most one diagonal, and if they do, they are as many rows
apart as columns. -/
theorem clashes_eq_sum (h : i < j) : clashes (j - i) (rowAt rows i) (rowAt rows j) =
    (Line.all.map fun line => if Meets rows line i j then 1 else 0).sum := by
  have hunplaced : (rowAt rows i = none ∨ rowAt rows j = none) →
      ∀ line, ¬ Meets rows line i j := by
    intro hnone line hmeets
    obtain ⟨⟨r, hr⟩, s, hs⟩ := hmeets.placed
    simp [hr, hs] at hnone
  cases hr : rowAt rows i with
  | none => simp [clashes, hunplaced (.inl hr)]
  | some r =>
    cases hs : rowAt rows j with
    | none => simp [clashes, hunplaced (.inr hs)]
    | some s =>
      have hrow : r = s ↔ r.toInt = s.toInt := Int64.toInt_inj.symm
      have hgap : (r.toInt - s.toInt).natAbs = j - i ↔
          r.toInt + i = s.toInt + j ∨ r.toInt - i = s.toInt - j := by omega
      have hone : ¬ (r.toInt + i = s.toInt + j ∧ r.toInt - i = s.toInt - j) := by omega
      simp only [clashes, Line.all, meets_iff hr hs, Line.through, hrow, hgap, List.map_cons,
        List.map_nil, List.sum_cons, List.sum_nil]
      by_cases hasc : r.toInt + i = s.toInt + j
      · have hdesc : ¬ r.toInt - i = s.toInt - j := fun hd => hone ⟨hasc, hd⟩
        simp only [hasc, hdesc, or_false, if_true, if_false, Nat.add_zero]
      · simp only [hasc, false_or, if_false, Nat.zero_add, Nat.add_zero]

theorem gap_eq_ok_iff {r s gap : Int64} : (Checked.sub r s >>= Checked.abs) = .ok gap ↔
    gap.toInt = ((r.toInt - s.toInt).natAbs : Int) := by
  rw [Checked.bind_eq_ok_iff]
  constructor
  · rintro ⟨x, hx, hgap⟩
    rw [← Checked.sub_eq_ok_iff.1 hx]
    exact Checked.fit_eq_ok_iff.1 hgap
  · intro hgap
    have hfits : Fits (r.toInt - s.toInt) := by
      have hle := (Checked.fits_toInt gap).2
      constructor <;> omega
    obtain ⟨x, hx⟩ := Checked.fits_iff.1 hfits
    refine ⟨x, Checked.sub_eq_ok_iff.2 hx, ?_⟩
    exact Checked.fit_eq_ok_iff.2 (by rw [hgap, hx])

theorem conflictsBetween_eq_ok_iff {c : Int64} :
    conflictsBetween d a b = .ok c ↔ GapFits a b ∧ c.toInt = clashes d a b := by
  have hunplaced : (a = none ∨ b = none) → GapFits a b ∧ clashes d a b = 0 ∧
      conflictsBetween d a b = .ok 0 := by
    rintro (rfl | rfl)
    · exact ⟨nofun, rfl, rfl⟩
    · cases a <;> exact ⟨nofun, rfl, rfl⟩
  have hzero : (.ok 0 : Checked Int64) = .ok c ↔ c.toInt = (0 : Nat) := by
    rw [Except.ok.injEq, eq_comm, ← Int64.toInt_inj]
    rfl
  cases a with
  | none =>
    obtain ⟨hgap, hclashes, hok⟩ := hunplaced (.inl rfl)
    rw [hok, hclashes, hzero, and_iff_right hgap]
  | some r =>
    cases b with
    | none =>
      obtain ⟨hgap, hclashes, hok⟩ := hunplaced (.inr rfl)
      rw [hok, hclashes, hzero, and_iff_right hgap]
    | some s =>
      have hbind : conflictsBetween d (some r) (some s) =
          (Checked.sub r s >>= Checked.abs) >>= fun gap =>
            Checked.add (if r = s then 1 else 0) (if gap.toInt = d then 1 else 0) := by
        unfold conflictsBetween
        rw [bind_assoc]
      have hgap : GapFits (some r) (some s) ↔ Fits ((r.toInt - s.toInt).natAbs : Int) := by
        simp [GapFits]
      have hbit : ∀ (p : Prop) [Decidable p],
          (if p then 1 else 0 : Int64).toInt = if p then 1 else 0 := fun p _ => by split <;> rfl
      rw [hbind, Checked.bind_eq_ok_iff, hgap, Checked.fits_iff]
      simp only [gap_eq_ok_iff, Checked.add_eq_ok_iff, hbit, clashes]
      constructor
      · rintro ⟨gap, hgap, hc⟩
        refine ⟨⟨gap, hgap⟩, ?_⟩
        rw [hc, hgap]
        split_ifs <;> omega
      · rintro ⟨⟨gap, hgap⟩, hc⟩
        refine ⟨gap, hgap, ?_⟩
        rw [hc, hgap]
        split_ifs <;> omega

/-! ## Going through the pairs -/

/-- The conflicts of a queen with those behind it, of which the next is `d` columns away. -/
def clashesOf (a : Option Int64) (d : Nat) (bs : List (Option Int64)) : Nat :=
  ∑ k ∈ Finset.range bs.length, clashes (d + k) a (rowAt bs k)

/-- The conflicts that the comparison finds among all pairs. -/
def allClashes (rows : List (Option Int64)) : Nat :=
  ∑ i ∈ Finset.range rows.length, ∑ j ∈ Finset.range rows.length,
    if i < j then clashes (j - i) (rowAt rows i) (rowAt rows j) else 0

theorem clashesOf_cons (a b : Option Int64) (d : Nat) (bs : List (Option Int64)) :
    clashesOf a d (b :: bs) = clashes d a b + clashesOf a (d + 1) bs := by
  unfold clashesOf
  rw [List.length_cons, Finset.sum_range_succ', Nat.add_comm]
  congr 1
  refine Finset.sum_congr rfl fun k _ => ?_
  rw [rowAt_cons_succ, Nat.add_assoc, Nat.add_comm 1 k]

theorem allClashes_cons (a : Option Int64) (as : List (Option Int64)) :
    allClashes (a :: as) = clashesOf a 1 as + allClashes as := by
  unfold allClashes clashesOf
  rw [List.length_cons, Finset.sum_range_succ', Nat.add_comm]
  congr 1
  · rw [Finset.sum_range_succ', if_neg (Nat.lt_irrefl 0), Nat.add_zero]
    refine Finset.sum_congr rfl fun k _ => ?_
    rw [if_pos (Nat.succ_pos k), rowAt_cons_succ, rowAt_cons_zero, Nat.sub_zero, Nat.add_comm]
  · refine Finset.sum_congr rfl fun i _ => ?_
    rw [Finset.sum_range_succ', if_neg (Nat.not_lt_zero _), Nat.add_zero]
    refine Finset.sum_congr rfl fun j _ => ?_
    rw [rowAt_cons_succ, rowAt_cons_succ, Nat.add_sub_add_right]
    exact if_congr Nat.succ_lt_succ_iff rfl rfl

/-- The comparison finds what there is. -/
theorem allClashes_eq (rows : List (Option Int64)) : allClashes rows = conflictCount rows := by
  have hcard : ∀ line, (meetings rows line).card =
      ∑ i ∈ Finset.range rows.length, ∑ j ∈ Finset.range rows.length,
        if i < j ∧ Meets rows line i j then 1 else 0 := fun line => by
    unfold meetings
    rw [Finset.card_filter, Finset.sum_product]
  have hterm : ∀ i j, (if i < j then clashes (j - i) (rowAt rows i) (rowAt rows j) else 0) =
      (Line.all.map fun line => if i < j ∧ Meets rows line i j then 1 else 0).sum := by
    intro i j
    by_cases hlt : i < j
    · simp only [hlt, if_true, true_and, clashes_eq_sum]
    · simp only [hlt, if_false, false_and, Line.all, List.map_cons, List.map_nil, List.sum_cons,
        List.sum_nil, Nat.add_zero]
  rw [conflictCount_eq]
  unfold allClashes
  simp only [hterm, hcard, Line.all, List.map_cons, List.map_nil, List.sum_cons, List.sum_nil,
    Nat.add_zero, Finset.sum_add_distrib]

/-- What lies between two numbers that fit can be formed on the way. -/
theorem exists_between {a c : Int64} {x : Int} (ha : a.toInt ≤ x) (hc : x ≤ c.toInt) :
    ∃ b : Int64, b.toInt = x :=
  Checked.fits_iff.1 ⟨Int.le_trans a.le_toInt ha, Int.lt_of_le_of_lt hc c.toInt_lt⟩

theorem conflictsOf_eq_ok_iff {sum c : Int64} : conflictsOf a d sum bs = .ok c ↔
    (∀ b ∈ bs, GapFits a b) ∧ c.toInt = sum.toInt + clashesOf a d bs := by
  induction bs generalizing d sum with
  | nil =>
    have hok : conflictsOf a d sum [] = .ok sum := rfl
    have hnone : clashesOf a d [] = 0 := rfl
    rw [hok, hnone, Except.ok.injEq, ← Int64.toInt_inj, eq_comm]
    simp
  | cons b bs ih =>
    have hbind : conflictsOf a d sum (b :: bs) = conflictsBetween d a b >>= fun k =>
        Checked.add sum k >>= fun sum => conflictsOf a (d + 1) sum bs := rfl
    rw [hbind, List.forall_mem_cons, clashesOf_cons]
    simp only [Checked.bind_eq_ok_iff, conflictsBetween_eq_ok_iff, Checked.add_eq_ok_iff, ih]
    constructor
    · rintro ⟨k, ⟨hgap, hk⟩, next, hnext, hgaps, hc⟩
      refine ⟨⟨hgap, hgaps⟩, ?_⟩
      push_cast
      omega
    · rintro ⟨⟨hgap, hgaps⟩, hc⟩
      push_cast at hc
      obtain ⟨next, hnext⟩ : ∃ next : Int64, next.toInt = sum.toInt + clashes d a b :=
        exists_between (a := sum) (c := c) (by omega) (by omega)
      obtain ⟨k, hk⟩ : ∃ k : Int64, k.toInt = clashes d a b := by
        have hle : clashes d a b ≤ 2 := by
          unfold clashes
          split
          · split_ifs <;> omega
          · omega
        exact Checked.fits_iff.1 (by constructor <;> omega)
      exact ⟨k, ⟨hgap, hk⟩, next, by rw [hnext, hk], hgaps, by omega⟩

theorem conflicts_eq_ok_iff {sum c : Int64} : conflicts sum rows = .ok c ↔
    rows.Pairwise GapFits ∧ c.toInt = sum.toInt + allClashes rows := by
  induction rows generalizing sum with
  | nil =>
    have hok : conflicts sum [] = .ok sum := rfl
    have hnone : allClashes [] = 0 := rfl
    rw [hok, hnone, Except.ok.injEq, ← Int64.toInt_inj, eq_comm]
    simp
  | cons a as ih =>
    have hbind : conflicts sum (a :: as) =
        conflictsOf a 1 sum as >>= fun sum => conflicts sum as := rfl
    rw [hbind, List.pairwise_cons, allClashes_cons]
    simp only [Checked.bind_eq_ok_iff, conflictsOf_eq_ok_iff, ih]
    constructor
    · rintro ⟨next, ⟨hgap, hnext⟩, hgaps, hc⟩
      refine ⟨⟨hgap, hgaps⟩, ?_⟩
      push_cast
      omega
    · rintro ⟨⟨hgap, hgaps⟩, hc⟩
      push_cast at hc
      obtain ⟨next, hnext⟩ : ∃ next : Int64, next.toInt = sum.toInt + clashesOf a 1 as :=
        exists_between (a := sum) (c := c) (by omega) (by omega)
      exact ⟨next, ⟨hgap, hnext⟩, hgaps, by omega⟩

/-! ## The score -/

theorem exact_single (x : Int64) : (Score.single 0 x : Score .simple).exact = [x.toInt] := rfl

/-- Comparing rows and their distance yields the number of conflicts, counted as points lost. -/
theorem conflictScore_eq_ok_iff {b : Board} {a : Score .simple} : conflictScore b = .ok a ↔
    b.rows.Pairwise GapFits ∧ Fits (conflictCount b.rows) ∧
      a.exact = [-(conflictCount b.rows : Int)] := by
  have hbind : conflictScore b = conflicts 0 b.rows >>= fun count =>
      Checked.neg count >>= fun lost => .ok (.single 0 lost) := rfl
  have hneg : ∀ x y : Int64, Checked.neg x = .ok y ↔ y.toInt = -x.toInt := fun x y =>
    Checked.fit_eq_ok_iff
  rw [hbind]
  simp only [Checked.bind_eq_ok_iff, conflicts_eq_ok_iff, hneg, allClashes_eq, Except.ok.injEq]
  have hzero : (0 : Int64).toInt = 0 := rfl
  constructor
  · rintro ⟨count, ⟨hgaps, hcount⟩, lost, hlost, rfl⟩
    rw [hzero, Int.zero_add] at hcount
    refine ⟨hgaps, hcount ▸ Checked.fits_toInt count, ?_⟩
    rw [exact_single, hlost, hcount]
  · rintro ⟨hgaps, hfits, hexact⟩
    obtain ⟨count, hcount⟩ := Checked.fits_iff.1 hfits
    obtain ⟨lost, hlost⟩ : ∃ lost : Int64, lost.toInt = -(conflictCount b.rows : Int) := by
      refine Checked.fits_iff.1 ?_
      have hlt := hfits.2
      constructor <;> omega
    refine ⟨count, ⟨hgaps, by omega⟩, lost, by omega, ?_⟩
    rw [← Score.exact_inj, exact_single, hexact, hlost]

/-! ## Overflow -/

variable {f : Fault}

theorem conflictsBetween_error (e : conflictsBetween d a b = .error f) : f = .overflow := by
  cases a with
  | none => cases e
  | some r =>
    cases b with
    | none => cases e
    | some s =>
      refine Checked.error_of_bind (fun _ => Checked.fit_eq_error) (fun _ _ => ?_) e
      exact Checked.error_of_bind (fun _ => Checked.fit_eq_error) fun _ _ => Checked.fit_eq_error

theorem conflictsOf_error {sum : Int64} (e : conflictsOf a d sum bs = .error f) :
    f = .overflow := by
  induction bs generalizing d sum f with
  | nil => cases e
  | cons b bs ih =>
    refine Checked.error_of_bind (fun _ => conflictsBetween_error) (fun _ _ => ?_) e
    exact Checked.error_of_bind (fun _ => Checked.fit_eq_error) fun _ _ => ih

theorem conflicts_error {sum : Int64} (e : conflicts sum rows = .error f) : f = .overflow := by
  induction rows generalizing sum f with
  | nil => cases e
  | cons a as ih => exact Checked.error_of_bind (fun _ => conflictsOf_error) (fun _ _ => ih) e

/-- Without a result, some number on the way did not fit. -/
theorem conflictScore_error {b : Board} (e : conflictScore b = .error f) : f = .overflow := by
  refine Checked.error_of_bind (fun _ => conflicts_error) (fun count f e => ?_) e
  exact Checked.error_of_bind (fun _ => Checked.fit_eq_error) (fun lost f e => by cases e) e

/-! ## Boards in range -/

/-- Nothing overflows: there are not too many pairs, no two rows are too far apart, and the lines
through the queens have numbers. -/
structure InRange (rows : List (Option Int64)) : Prop where
  pairs : 3 * (rows.length * rows.length) + 1 < 2 ^ 63
  gaps : rows.Pairwise GapFits
  lines : ∀ (line : Line) (i : Nat) (r : Int64), rowAt rows i = some r → Fits (line.through i r)

theorem InRange.exists_conflictScore {b : Board} (h : InRange b.rows) :
    ∃ a, conflictScore b = .ok a := by
  have hcount := conflictCount_le b.rows
  have hpairs := h.pairs
  obtain ⟨lost, hlost⟩ : ∃ lost : Int64, lost.toInt = -(conflictCount b.rows : Int) :=
    Checked.fits_iff.1 (by constructor <;> omega)
  refine ⟨.single 0 lost, conflictScore_eq_ok_iff.2 ⟨h.gaps, by constructor <;> omega, ?_⟩⟩
  rw [exact_single, hlost]

end PlanSearch.Queens
