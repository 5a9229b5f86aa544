import PlanSearch.Random.Source

/-!
# Random draws

Whatever the words of a source are, a number drawn below a bound is below it, and a shuffled list
is a permutation. Any number below a bound that is not too large is drawn for ever from some source.

    0 < n → (s.below n).1 < n                                            (below_lt)
    (s.shuffle xs).1 ~ xs                                                (shuffle_perm)
    i < n → (steady word position).below n = (i, …)                      (exists_steady)
-/

namespace PlanSearch.Source

theorem below_lt {n : Nat} (hn : 0 < n) (s : Source) : (s.below n).1 < n := by
  unfold below
  generalize s.next32 = q
  obtain ⟨x, s⟩ := q
  have hx : x.toNat < UInt32.size := x.toNat_lt
  have hle : x.toNat * n + n ≤ UInt32.size * n := by
    have := Nat.mul_le_mul_right n (Nat.succ_le_of_lt hx)
    rw [Nat.succ_mul] at this
    exact this
  have hdiv := Nat.div_add_mod (x.toNat * n) UInt32.size
  dsimp only
  split
  · next hcarry =>
    -- A carry means that the high half is not the largest one.
    have hhigh : x.toNat * n / UInt32.size + 1 < n := Nat.lt_of_not_le fun hge => by
      have hge' : n - 1 ≤ x.toNat * n / UInt32.size := by omega
      have hmul := Nat.mul_le_mul_left UInt32.size hge'
      rw [Nat.mul_sub, Nat.mul_one] at hmul
      omega
    dsimp only
    split
    · exact hhigh
    · omega
  · have hlt : x.toNat * n < n * UInt32.size := by
      rw [Nat.mul_comm n]
      omega
    exact (Nat.div_lt_iff_lt_mul (by omega)).2 hlt

theorem shuffleFrom_perm {α : Type} (k n : Nat) (xs : Array α) (c : Choices) (s : Source) :
    (shuffleFrom k n xs c s).1.toList.Perm xs.toList := by
  induction k generalizing n xs c s with
  | zero => exact .refl _
  | succ k ih =>
    unfold shuffleFrom
    generalize choose (n + 1) c s = q
    obtain ⟨i, c, s⟩ := q
    refine (ih (n + 1) _ _ _).trans ?_
    rw [Array.swapIfInBounds_def]
    split
    · next hn =>
      split
      · next hi => exact Array.perm_iff_toList_perm.1 (Array.swap_perm hn hi)
      · exact .refl _
    · exact .refl _

theorem shuffle_perm {α : Type} (xs : List α) (s : Source) : (s.shuffle xs).1.Perm xs :=
  shuffleFrom_perm xs.length 0 xs.toArray {} s

/-! ## Steady sources -/

/-- The same word over and over. -/
def steady (word : UInt64) (position : Nat) : Source := .given (fun _ => word) position

/-- The first multiple of `n` from `i * size` on. -/
theorem exists_multiple {n i size : Nat} (hn : n ≤ size) (hi : i < n) :
    ∃ x < size, ∃ low < n, x * n = i * size + low := by
  have hle : n * ((i * size + (n - 1)) / n) ≤ i * size + (n - 1) := Nat.mul_div_le _ _
  have hlt : i * size + (n - 1) < n * ((i * size + (n - 1)) / n) + n :=
    Nat.lt_mul_div_succ _ (by omega)
  generalize (i * size + (n - 1)) / n = x at hle hlt
  have hi' : i * size + size ≤ n * size := by
    rw [← Nat.succ_mul]
    exact Nat.mul_le_mul_right size hi
  refine ⟨x, ?_, n * x - i * size, by omega, by rw [Nat.mul_comm]; omega⟩
  exact Nat.lt_of_mul_lt_mul_left (a := n) (by omega)

theorem toNat_upper {x : Nat} (hx : x < UInt32.size) :
    ((UInt64.ofNat (x * UInt32.size)) >>> 32).toUInt32.toNat = x := by
  have h64 : x * UInt32.size < 2 ^ 64 := Nat.mul_lt_mul_of_pos_right hx (by decide)
  rw [UInt64.toNat_toUInt32, UInt64.toNat_shiftRight, UInt64.toNat_ofNat',
    Nat.mod_eq_of_lt h64]
  show (x * UInt32.size) >>> 32 % 2 ^ 32 = x
  rw [Nat.shiftRight_eq_div_pow]
  show x * UInt32.size / UInt32.size % UInt32.size = x
  rw [Nat.mul_div_cancel _ (by decide), Nat.mod_eq_of_lt hx]

/-- Any number below a bound that is not too large may be drawn again and again. -/
theorem exists_steady {n i : Nat} (hn : 2 * n ≤ UInt32.size) (hi : i < n) :
    ∃ word, ∀ position, (steady word position).below n = (i, steady word (position + 1)) := by
  obtain ⟨x, hx, low, hlow, hproduct⟩ := exists_multiple (show n ≤ UInt32.size by omega) hi
  refine ⟨UInt64.ofNat (x * UInt32.size), fun position => ?_⟩
  unfold below steady next32
  dsimp only
  rw [toNat_upper hx, hproduct]
  generalize UInt32.size = size at hn hx ⊢
  have hmod : (i * size + low) % size = low := by
    rw [Nat.mul_comm, Nat.mul_add_mod]
    exact Nat.mod_eq_of_lt (by omega)
  have hdiv : (i * size + low) / size = i := by
    rw [Nat.mul_comm, Nat.mul_add_div (by omega), Nat.div_eq_of_lt (by omega), Nat.add_zero]
  rw [hmod, hdiv, if_neg (by omega)]

end PlanSearch.Source
