import Mathlib.Algebra.BigOperators.Group.List.Basic
import Mathlib.Algebra.Ring.Int.Defs
import Mathlib.Data.List.GetD
import PlanSearch.Score.Basic

/-!
# Levels of a score

A score is determined by the integers on its levels, and every operation acts on each level alone.
`total` adds scores up exactly and asks only of the result whether it fits, so the order in which
the scores come does not matter.

    (∀ i, a.level i = b.level i) → a = b                                      (eq_of_level_eq)
    total as = .ok a ↔ ∀ i, a.level i = (as.map (·.level i)).sum              (total_eq_ok_iff)
-/

namespace PlanSearch.Score

variable {sh : Shape}

/-- The integer on level `i`, zero beyond the last level. -/
def level (a : Score sh) (i : Nat) : Int := a.exact.getD i 0

/-- The exact sums of the levels. -/
def exactSums (as : List (Score sh)) : List Int :=
  (List.range sh.size).map fun i => (as.map (·.level i)).sum

/-- The sum of scores, which fails only if the sum itself does not fit. -/
def total (as : List (Score sh)) : Checked (Score sh) :=
  ofExact (exactSums as) (by simp [exactSums])

/-! ## Lemmas -/

theorem level_of_size_le (a : Score sh) {i : Nat} (h : sh.size ≤ i) : a.level i = 0 := by
  unfold level
  rw [List.getD_eq_getElem?_getD, List.getElem?_eq_none (by rw [length_exact]; exact h)]
  rfl

theorem eq_of_level_eq {a b : Score sh} (h : ∀ i, a.level i = b.level i) : a = b := by
  apply exact_inj.1
  apply List.ext_getElem (by rw [length_exact, length_exact])
  intro i hi hi'
  have hl := h i
  unfold level at hl
  rwa [List.getD_eq_getElem _ _ hi, List.getD_eq_getElem _ _ hi'] at hl

theorem level_eq_of_exact {a : Score sh} {xs : List Int} (h : a.exact = xs) (i : Nat) :
    a.level i = xs.getD i 0 := by
  unfold level
  rw [h]

theorem getD_zipWith (f : Int → Int → Int) (h0 : f 0 0 = 0) (xs ys : List Int)
    (h : xs.length = ys.length) (i : Nat) :
    (List.zipWith f xs ys).getD i 0 = f (xs.getD i 0) (ys.getD i 0) := by
  rcases Nat.lt_or_ge i xs.length with hi | hi
  · rw [List.getD_eq_getElem _ _ (by simp; omega), List.getD_eq_getElem _ _ hi,
      List.getD_eq_getElem _ _ (by omega), List.getElem_zipWith]
  · rw [List.getD_eq_default _ _ (by simp; omega), List.getD_eq_default _ _ hi,
      List.getD_eq_default _ _ (by omega), h0]

theorem level_zero (i : Nat) : (zero : Score sh).level i = 0 := by
  unfold level exact zero
  rw [List.map_replicate, List.getD_eq_getElem?_getD, List.getElem?_replicate]
  split <;> rfl

theorem level_add {a b c : Score sh} (h : add a b = .ok c) (i : Nat) :
    c.level i = a.level i + b.level i := by
  rw [level_eq_of_exact (add_eq_ok_iff.1 h),
    getD_zipWith _ (by omega) _ _ (by rw [length_exact, length_exact])]
  rfl

theorem level_sub {a b c : Score sh} (h : sub a b = .ok c) (i : Nat) :
    c.level i = a.level i - b.level i := by
  rw [level_eq_of_exact (sub_eq_ok_iff.1 h),
    getD_zipWith _ (by omega) _ _ (by rw [length_exact, length_exact])]
  rfl

theorem level_neg {a c : Score sh} (h : neg a = .ok c) (i : Nat) : c.level i = -a.level i := by
  rw [level_eq_of_exact (neg_eq_ok_iff.1 h)]
  unfold level
  rcases Nat.lt_or_ge i a.exact.length with hi | hi
  · rw [List.getD_eq_getElem _ _ (by simpa using hi), List.getD_eq_getElem _ _ hi,
      List.getElem_map]
  · rw [List.getD_eq_default _ _ (by simpa using hi), List.getD_eq_default _ _ hi]
    rfl

theorem level_scaled {a c : Score sh} {k : Int64} (h : scaled a k = .ok c) (i : Nat) :
    c.level i = a.level i * k.toInt := by
  rw [level_eq_of_exact (scaled_eq_ok_iff.1 h)]
  unfold level
  rcases Nat.lt_or_ge i a.exact.length with hi | hi
  · rw [List.getD_eq_getElem _ _ (by simpa using hi), List.getD_eq_getElem _ _ hi,
      List.getElem_map]
  · rw [List.getD_eq_default _ _ (by simpa using hi), List.getD_eq_default _ _ hi, zero_mul]

theorem level_eq_zero_iff (a : Score sh) (i : Nat) : a.level i = 0 ↔ a.levels.getD i 0 = 0 := by
  unfold level exact
  rw [show (0 : Int) = (0 : Int64).toInt from rfl, List.getD_map, Int64.toInt_inj]

/-- The single level of a score is the only one that is not zero. -/
theorem level_ne_zero_iff {a : Score sh} {i : Nat} (h : a.singleLevel? = some i) (j : Nat) :
    a.level j ≠ 0 ↔ j = i := by
  unfold singleLevel? at h
  split at h
  · next k hk =>
    cases h
    rw [← List.mem_singleton, ← hk, List.mem_filter, List.mem_range, bne_iff_ne, Ne,
      level_eq_zero_iff]
    refine ⟨fun hj => ⟨?_, hj⟩, fun hj => hj.2⟩
    by_contra hlen
    exact hj (List.getD_eq_default _ _ (Nat.le_of_not_lt hlen))
  · cases h

/-- A score fails to be formed only because a level does not fit. -/
theorem ofExact_error {xs : List Int} {h : xs.length = sh.size} {f : Fault}
    (e : (ofExact xs h : Checked (Score sh)) = .error f) : f = .overflow := by
  unfold ofExact at e
  split at e
  · cases e
  · cases e; rfl

/-- A score cannot be formed exactly if some level does not fit. -/
theorem ofExact_eq_error_iff {xs : List Int} {h : xs.length = sh.size} {f : Fault} :
    (ofExact xs h : Checked (Score sh)) = .error f ↔
      f = .overflow ∧ ∃ l, ¬ Checked.Fits (xs.getD l 0) := by
  unfold ofExact
  split
  · next hfits =>
    constructor
    · intro e
      cases e
    · rintro ⟨-, l, hl⟩
      refine absurd ?_ hl
      rcases Nat.lt_or_ge l xs.length with hlt | hge
      · rw [List.getD_eq_getElem _ _ hlt]
        exact hfits _ (List.getElem_mem hlt)
      · rw [List.getD_eq_default _ _ hge]
        exact Checked.fits_toInt 0
  · next hfits =>
    constructor
    · intro e
      cases e
      push Not at hfits
      obtain ⟨x, hx, hnot⟩ := hfits
      obtain ⟨l, hl, rfl⟩ := List.getElem_of_mem hx
      exact ⟨rfl, l, by rwa [List.getD_eq_getElem _ _ hl]⟩
    · rintro ⟨rfl, -⟩
      rfl

theorem add_eq_error_iff {a b : Score sh} {f : Fault} :
    add a b = .error f ↔ f = .overflow ∧ ∃ l, ¬ Checked.Fits (a.level l + b.level l) := by
  have hlevel := getD_zipWith (· + ·) (Int.add_zero 0) a.exact b.exact (by simp [length_exact])
  unfold add level
  simp only [ofExact_eq_error_iff, hlevel]

theorem sub_eq_error_iff {a b : Score sh} {f : Fault} :
    sub a b = .error f ↔ f = .overflow ∧ ∃ l, ¬ Checked.Fits (a.level l - b.level l) := by
  have hlevel := getD_zipWith (· - ·) (Int.sub_zero 0) a.exact b.exact (by simp [length_exact])
  unfold sub level
  simp only [ofExact_eq_error_iff, hlevel]

theorem neg_eq_error_iff {a : Score sh} {f : Fault} :
    neg a = .error f ↔ f = .overflow ∧ ∃ l, ¬ Checked.Fits (-a.level l) := by
  have hlevel : ∀ l, (a.exact.map (- ·)).getD l 0 = -a.exact.getD l 0 := fun l =>
    List.getD_map a.exact 0 (- ·)
  unfold neg level
  simp only [ofExact_eq_error_iff, hlevel]

theorem scaled_eq_error_iff {a : Score sh} {k : Int64} {f : Fault} :
    scaled a k = .error f ↔ f = .overflow ∧ ∃ l, ¬ Checked.Fits (a.level l * k.toInt) := by
  have hlevel : ∀ l, (a.exact.map (· * k.toInt)).getD l 0 = a.exact.getD l 0 * k.toInt := by
    intro l
    have hmap := List.getD_map a.exact 0 (n := l) (· * k.toInt)
    rwa [Int.zero_mul] at hmap
  unfold scaled level
  simp only [ofExact_eq_error_iff, hlevel]

/-- What stands on a level fits. -/
theorem fits_level (a : Score sh) (l : Nat) : Checked.Fits (a.level l) := by
  unfold level exact
  rw [show (0 : Int) = (0 : Int64).toInt from rfl, List.getD_map]
  exact Checked.fits_toInt _

theorem total_eq_ok_iff {as : List (Score sh)} {a : Score sh} :
    total as = .ok a ↔ ∀ i, a.level i = (as.map (·.level i)).sum := by
  unfold total
  rw [ofExact_eq_ok_iff]
  constructor
  · intro h i
    rw [level_eq_of_exact h]
    rcases Nat.lt_or_ge i sh.size with hi | hi
    · rw [List.getD_eq_getElem _ _ (by simpa [exactSums] using hi)]
      simp [exactSums]
    · rw [List.getD_eq_default _ _ (by simpa [exactSums] using hi)]
      have hz : as.map (·.level i) = as.map fun _ => (0 : Int) :=
        List.map_congr_left fun b _ => b.level_of_size_le hi
      rw [hz]
      simp
  · intro h
    apply List.ext_getElem (by simp [exactSums, length_exact])
    intro i hi hi'
    have hl : a.exact.getD i 0 = (as.map (·.level i)).sum := h i
    rw [List.getD_eq_getElem _ _ hi] at hl
    rw [hl]
    simp [exactSums]

/-- The sum does not depend on the order of the scores. -/
theorem total_perm {as bs : List (Score sh)} (h : as.Perm bs) : total as = total bs := by
  unfold total
  congr 1
  unfold exactSums
  apply List.map_congr_left
  intro i _
  exact (h.map _).sum_eq

end PlanSearch.Score
