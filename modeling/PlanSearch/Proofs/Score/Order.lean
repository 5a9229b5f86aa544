import PlanSearch.Problem

/-!
# Scores and ranks in order

Scores are ordered like the lists of their exact levels, which is a total order; ranks put fewer
unassigned variables first.

    a < b ↔ a.exact < b.exact                                            (Score.lt_iff)
    ¬a ≤ b ↔ b < a                                                       (Score.not_le)
    a.beats b → ¬ c.beats b → a.beats c                                  (Rank.beats_of_not_beats)
-/

namespace PlanSearch

variable {sh : Shape}

namespace Score

theorem compareLevels_eq_lt_iff {xs ys : List Int64} (h : xs.length = ys.length) :
    compareLevels xs ys = .lt ↔ xs.map Int64.toInt < ys.map Int64.toInt := by
  induction xs generalizing ys with
  | nil =>
    obtain rfl := List.eq_nil_of_length_eq_zero h.symm
    exact ⟨nofun, fun h => absurd h (List.not_lt_nil _)⟩
  | cons x xs ih =>
    obtain _ | ⟨y, ys⟩ := ys
    · cases h
    have hrest := ih (Nat.succ.inj h)
    show (compare x y).then (compareLevels xs ys) = .lt ↔
      x.toInt :: xs.map Int64.toInt < y.toInt :: ys.map Int64.toInt
    rw [List.cons_lt_cons_iff, ← hrest, Int64.toInt_inj, ← Int64.lt_iff_toInt_lt]
    show (compareOfLessAndEq x y).then _ = .lt ↔ _
    unfold compareOfLessAndEq
    by_cases hlt : x < y
    · rw [if_pos hlt]
      exact ⟨fun _ => .inl hlt, fun _ => rfl⟩
    · rw [if_neg hlt]
      by_cases heq : x = y
      · rw [if_pos heq]
        exact ⟨fun e => .inr ⟨heq, e⟩, fun e => e.elim (absurd · hlt) And.right⟩
      · rw [if_neg heq]
        exact ⟨nofun, fun e => e.elim (absurd · hlt) fun e => absurd e.1 heq⟩

theorem lt_iff {a b : Score sh} : a < b ↔ a.exact < b.exact :=
  compareLevels_eq_lt_iff (a.length_levels.trans b.length_levels.symm)

theorem compareLevels_eq_gt_iff {xs ys : List Int64} :
    compareLevels xs ys = .gt ↔ compareLevels ys xs = .lt := by
  induction xs generalizing ys with
  | nil =>
    cases ys with
    | nil => exact ⟨nofun, nofun⟩
    | cons y ys => exact ⟨nofun, nofun⟩
  | cons x xs ih =>
    obtain _ | ⟨y, ys⟩ := ys
    · exact ⟨nofun, nofun⟩
    show (compareOfLessAndEq x y).then (compareLevels xs ys) = .gt ↔
      (compareOfLessAndEq y x).then (compareLevels ys xs) = .lt
    unfold compareOfLessAndEq
    simp only [Int64.lt_iff_toInt_lt, ← Int64.toInt_inj]
    rcases Int.lt_trichotomy x.toInt y.toInt with hxy | hxy | hyx
    · rw [if_pos hxy, if_neg (by omega), if_neg (by omega)]
      exact ⟨nofun, nofun⟩
    · rw [if_neg (by omega), if_pos hxy, if_neg (by omega), if_pos hxy.symm]
      exact ih
    · rw [if_neg (by omega), if_neg (by omega), if_pos hyx]
      exact ⟨fun _ => rfl, fun _ => rfl⟩

theorem not_le {a b : Score sh} : ¬a ≤ b ↔ b < a := by
  show ¬compareLevels a.levels b.levels ≠ .gt ↔ compareLevels b.levels a.levels = .lt
  rw [Decidable.not_not, compareLevels_eq_gt_iff]

theorem not_lt {a b : Score sh} : ¬a < b ↔ b ≤ a := by
  rw [← not_le, Decidable.not_not]

theorem le_refl (a : Score sh) : a ≤ a :=
  not_lt.1 fun h => List.lt_irrefl _ (lt_iff.1 h)

theorem le_trans {a b c : Score sh} (hab : a ≤ b) (hbc : b ≤ c) : a ≤ c := by
  refine not_lt.1 fun hca => ?_
  have hexact := List.not_lt.1 (mt lt_iff.2 (not_lt.2 hbc))
  have hba := List.lt_of_le_of_lt hexact (lt_iff.1 hca)
  exact not_lt.2 hab (lt_iff.2 hba)

theorem le_of_lt {a b : Score sh} (h : a < b) : a ≤ b :=
  not_lt.1 fun hba => List.lt_asymm (lt_iff.1 h) (lt_iff.1 hba)

theorem lt_of_le_of_lt {a b c : Score sh} (hab : a ≤ b) (hbc : b < c) : a < c :=
  not_le.1 fun hca => not_le.2 hbc (le_trans hca hab)

end Score

namespace Rank

variable {a b c : Rank sh}

theorem beats_iff :
    a.beats b ↔ a.unassigned < b.unassigned ∨
      a.unassigned = b.unassigned ∧ b.score.exact < a.score.exact := by
  unfold beats
  rw [Bool.or_eq_true, Bool.and_eq_true, decide_eq_true_iff, beq_iff_eq, decide_eq_true_iff,
    Score.lt_iff]

/-- What beats `b` beats all that does not. -/
theorem beats_of_not_beats (hab : a.beats b) (hcb : ¬c.beats b) : a.beats c := by
  rw [beats_iff] at hab hcb ⊢
  rw [not_or, not_and] at hcb
  rcases hab with hab | ⟨hab, hlt⟩
  · exact .inl (by omega)
  · rcases Nat.lt_or_ge a.unassigned c.unassigned with hac | hac
    · exact .inl hac
    · have hc : c.unassigned = b.unassigned := by omega
      exact .inr ⟨by omega, List.lt_of_le_of_lt (List.not_lt.1 (hcb.2 hc)) hlt⟩

/-- Ranks are ordered totally. -/
theorem eq_of_not_beats (hab : ¬a.beats b) (hba : ¬b.beats a) : a = b := by
  rw [beats_iff, not_or, not_and] at hab hba
  have hunassigned : a.unassigned = b.unassigned := by omega
  have hle := List.not_lt.1 (hab.2 hunassigned)
  have hge := List.not_lt.1 (hba.2 hunassigned.symm)
  have hscore : a.score = b.score := Score.exact_inj.1 (List.le_antisymm hle hge)
  cases a
  cases b
  cases hunassigned
  cases hscore
  rfl

theorem not_beats_self (a : Rank sh) : ¬a.beats a := by
  rw [beats_iff]
  rintro (h | ⟨-, h⟩)
  · omega
  · exact List.lt_irrefl _ h

theorem beats_trans (hab : a.beats b) (hbc : b.beats c) : a.beats c := by
  refine beats_of_not_beats hab fun hcb => b.not_beats_self ?_
  rw [beats_iff] at hbc hcb ⊢
  rcases hbc with hbc | ⟨hbc, hlt⟩
  · rcases hcb with hcb | ⟨hcb, -⟩ <;> omega
  · rcases hcb with hcb | ⟨-, hlt'⟩
    · omega
    · exact absurd hlt (List.lt_asymm hlt')

end Rank

end PlanSearch
