import Mathlib

/-!
# Sums of floats that are not negative

A sum of floats that are not negative is positive as soon as one of them is: rounding may lose the
smaller part of a sum, but it never loses both, and a sum that is too large to store is infinite.

    0 < m → -1074 ≤ e → m * 2 ^ e is rounded to a positive number       (positive_round)
    Positive u → Storable u → u is positive once it was stored           (Positive.stored)
    0.0 ≤ x → 0.0 ≤ y → (0.0 < x + y ↔ 0.0 < x ∨ 0.0 < y)               (add_pos_iff)
-/

namespace PlanSearch.Binary64

open Float.Model Float.Model.UnpackedFloat

/-! ## Numbers as they are stored -/

/-- A number that is not finite, or one that is neither wider nor finer than what can be stored. -/
def Storable : UnpackedFloat → Prop
  | .finite _ m e _ => m < 2 ^ 53 ∧ -1074 ≤ e
  | _ => True

def Positive : UnpackedFloat → Prop
  | .infinity .positive => True
  | .finite .positive .. => True
  | _ => False

def IsZero : UnpackedFloat → Prop
  | .zero _ => True
  | _ => False

theorem IsZero.not_positive {u : UnpackedFloat} (h : IsZero u) : ¬Positive u := by
  match u, h with
  | .zero _, _ => exact nofun

theorem storable_unpack (f : Float.Model) : Storable f.unpack := by
  unfold Float.Model.unpack UnpackedFloat.unpack
  dsimp only
  split
  · split <;> trivial
  split
  · split
    · trivial
    · refine ⟨by omega, ?_⟩
      show (-1074 : Int) ≤ _ - (1023 + 52) + 1
      omega
  next hnormal =>
    have hpos : (@unpackExponent .binary64 f.toBits.toBitVec).toNat ≠ 0 :=
      fun h => hnormal (BitVec.eq_of_toNat_eq h)
    refine ⟨by omega, ?_⟩
    show (-1074 : Int) ≤ _ - (1023 + 52)
    omega

/-- Bits with a positive sign stand for a positive number, those of zero and of no number aside. -/
theorem positive_components {e : BitVec 11} {m : BitVec 52} (hnan : e = -1#_ → m = 0#_)
    (hzero : e = 0#_ → m ≠ 0#_) :
    Positive (UnpackedFloat.unpack .binary64 (packComponents .binary64 .positive e m)) := by
  unfold UnpackedFloat.unpack
  simp only [unpackMantissa_packComponents, unpackExponent_packComponents,
    unpackSign_packComponents, Sign.ofBitVec_toBitVec]
  split
  · next he =>
    rw [if_pos (hnan he)]
    trivial
  split
  · next he =>
    rw [dif_neg (hzero he)]
    trivial
  · trivial

theorem Positive.stored {u : UnpackedFloat} (hpos : Positive u) (hu : Storable u) :
    Positive (Float.Model.pack u).unpack := by
  have hinfinity : Positive (UnpackedFloat.unpack .binary64 (packedInfinity .binary64 .positive)) :=
    positive_components (fun _ => rfl) nofun
  match u, hpos with
  | .infinity .positive, _ => exact hinfinity
  | .finite .positive m e hm, _ =>
    obtain ⟨hwide, hfine⟩ := hu
    show Positive (UnpackedFloat.unpack .binary64 (UnpackedFloat.pack .binary64 _))
    unfold UnpackedFloat.pack
    dsimp only
    split
    · exact hinfinity
    next hfits =>
    have hexponent : (e + 1023 + 52).toNat + 1 < 2 ^ 11 := not_le.1 hfits
    split
    · refine positive_components (fun he => ?_) (fun he => ?_)
      · have hall : (e + 1023 + 52).toNat % 2 ^ 11 = 2 ^ 11 - 1 := congrArg BitVec.toNat he
        omega
      · have hnone : (e + 1023 + 52).toNat % 2 ^ 11 = 0 := congrArg BitVec.toNat he
        omega
    next hsubnormal =>
      refine positive_components nofun fun _ hm' => ?_
      have hnone : m % 2 ^ 52 = 0 := congrArg BitVec.toNat hm'
      have hshort : m.log2 < 52 := by
        have hlog : m.log2 < 53 := (Nat.log2_lt hm.ne').2 hwide
        have hnot : m.log2 + 1 ≠ 53 := hsubnormal
        omega
      have hm52 : m < 2 ^ 52 := (Nat.log2_lt hm.ne').1 hshort
      omega

/-! ## Rounding -/

theorem mantissa_shiftRight (em : ExtendedMantissa) (k : Nat) :
    (em >>> k).mantissa = em.mantissa / 2 ^ k := by
  induction k with
  | zero => exact (Nat.div_one _).symm
  | succ k ih =>
    show (em >>> k).mantissa / 2 = _
    rw [ih, Nat.div_div_eq_div_mul, ← Nat.pow_succ]

theorem le_roundedMantissa (em : ExtendedMantissa) : em.mantissa ≤ em.roundedMantissa := by
  obtain ⟨m, _ | _, _ | _⟩ := em
  · exact Nat.le_refl m
  · exact Nat.le_refl m
  · exact Nat.le_add_right m _
  · exact Nat.le_succ m

/-- The bits that are dropped to reach the width of the format are never all that there are. -/
theorem shiftToTargetExponent_spec {m : Nat} {e : Int} (hm : 0 < m) (he : -1074 ≤ e) :
    let r := shiftToTargetExponent .binary64 m e .exact
    (0 < r.1.mantissa ∧ r.1.mantissa < 2 ^ 53) ∧ -1074 ≤ r.2 := by
  intro r
  have hlow : 2 ^ m.log2 ≤ m := Nat.log2_self_le hm.ne'
  have hhigh : m < 2 ^ (m.log2 + 1) := Nat.lt_log2_self
  obtain ⟨k, hk⟩ : ∃ k, k = (max (m.log2 + 1 + e - 53) (-1074) - e).toNat := ⟨_, rfl⟩
  have hmantissa : r.1.mantissa = m / 2 ^ k := by
    rw [hk]
    exact mantissa_shiftRight _ _
  have hexponent : r.2 = e + k := by
    rw [hk]
    rfl
  rw [hmantissa, hexponent]
  refine ⟨⟨Nat.div_pos ?_ (Nat.two_pow_pos k), ?_⟩, by omega⟩
  · exact (Nat.pow_le_pow_right Nat.two_pos (by omega)).trans hlow
  · rw [Nat.div_lt_iff_lt_mul (Nat.two_pow_pos k), ← Nat.pow_add]
    exact hhigh.trans_le (Nat.pow_le_pow_right Nat.two_pos (by omega))

theorem positive_roundWithAccuracy {m : Nat} {e : Int} (hm : 0 < m) (he : -1074 ≤ e) :
    Positive (roundWithAccuracy .binary64 .positive m e .exact) ∧
      Storable (roundWithAccuracy .binary64 .positive m e .exact) := by
  obtain ⟨⟨hfirst, -⟩, hfine⟩ := shiftToTargetExponent_spec hm he
  obtain ⟨⟨hpos, hwide⟩, hfine⟩ :=
    shiftToTargetExponent_spec (hfirst.trans_le (le_roundedMantissa _)) hfine
  unfold roundWithAccuracy
  dsimp only
  rw [dif_neg hpos.ne']
  exact ⟨trivial, hwide, hfine⟩

theorem positive_round {m : Nat} {e : Int} (hm : 0 < m) (he : -1074 ≤ e) :
    Positive (UnpackedFloat.round .binary64 .positive m e) ∧
      Storable (UnpackedFloat.round .binary64 .positive m e) := by
  refine positive_roundWithAccuracy ?_ ?_
  · rw [Nat.shiftLeft_eq]
    exact Nat.mul_pos hm (Nat.two_pow_pos _)
  · show -1074 ≤ e - ((e - max (m.log2 + 1 + e - 53) (-1074)).toNat : Nat)
    omega

/-! ## Sums -/

theorem Positive.add_zero {u v : UnpackedFloat} (hu : Positive u) (hv : IsZero v) :
    UnpackedFloat.add .binary64 u v = u := by
  match u, v, hu, hv with
  | .infinity .positive, .zero _, _, _ => rfl
  | .finite .positive .., .zero _, _, _ => rfl

theorem Positive.zero_add {u v : UnpackedFloat} (hu : IsZero u) (hv : Positive v) :
    UnpackedFloat.add .binary64 u v = v := by
  match u, v, hu, hv with
  | .zero _, .infinity .positive, _, _ => rfl
  | .zero _, .finite .positive .., _, _ => rfl

theorem Positive.add {u v : UnpackedFloat} (hu : Positive u) (hv : Positive v) (hsu : Storable u)
    (hsv : Storable v) :
    Positive (UnpackedFloat.add .binary64 u v) ∧ Storable (UnpackedFloat.add .binary64 u v) := by
  match u, v, hu, hv with
  | .infinity .positive, .infinity .positive, _, _ => exact ⟨trivial, trivial⟩
  | .infinity .positive, .finite .positive .., _, _ => exact ⟨trivial, trivial⟩
  | .finite .positive .., .infinity .positive, _, _ => exact ⟨trivial, trivial⟩
  | .finite .positive m e hm, .finite .positive m' e' hm', _, _ =>
    -- Both mantissas are brought to the smaller of the two exponents.
    have hfine : -1074 ≤ min e e' := le_min hsu.2 hsv.2
    have hsum : 0 < m <<< (e - min e e').toNat + m' <<< (e' - min e e').toNat := by
      rw [Nat.shiftLeft_eq]
      exact Nat.add_pos_left (Nat.mul_pos hm (Nat.two_pow_pos _)) _
    have hround : UnpackedFloat.add .binary64 (.finite .positive m e hm)
        (.finite .positive m' e' hm') = UnpackedFloat.round .binary64 .positive
          (m <<< (e - min e e').toNat + m' <<< (e' - min e e').toNat) (min e e') := by
      show (match compare (((_ : Nat) : Int) + ((_ : Nat) : Int)) 0 with
        | .lt => _
        | .eq => _
        | .gt => _) = _
      rw [Int.compare_eq_gt.2 (by omega)]
      rfl
    rw [hround]
    exact positive_round hsum hfine

theorem IsZero.stored_add {u v : UnpackedFloat} (hu : IsZero u) (hv : IsZero v) :
    IsZero (Float.Model.pack (UnpackedFloat.add .binary64 u v)).unpack := by
  match u, v, hu, hv with
  | .zero .positive, .zero .positive, _, _ => trivial
  | .zero .positive, .zero .negative, _, _ => trivial
  | .zero .negative, .zero .positive, _, _ => trivial
  | .zero .negative, .zero .negative, _, _ => trivial

/-! ## Floats -/

theorem lt_iff {x y : Float} : x < y ↔ x.toModel.unpack.lt y.toModel.unpack :=
  decide_eq_true_iff

theorem le_iff {x y : Float} : x ≤ y ↔ x.toModel.unpack.le y.toModel.unpack :=
  decide_eq_true_iff

theorem unpack_zero : (0.0 : Float).toModel.unpack = .zero .positive := rfl

theorem zero_lt_iff {x : Float} : 0.0 < x ↔ Positive x.toModel.unpack := by
  rw [lt_iff, unpack_zero]
  rcases x.toModel.unpack with (_ | _) | _ | _ | (_ | _) <;>
    simp [Positive, UnpackedFloat.lt, UnpackedFloat.compare]

theorem zero_le_iff {x : Float} :
    0.0 ≤ x ↔ Positive x.toModel.unpack ∨ IsZero x.toModel.unpack := by
  rw [le_iff, unpack_zero]
  rcases x.toModel.unpack with (_ | _) | _ | _ | (_ | _) <;>
    simp [Positive, IsZero, UnpackedFloat.le, UnpackedFloat.compare]

theorem zero_le_zero : (0.0 : Float) ≤ 0.0 := zero_le_iff.2 (.inr trivial)

theorem not_zero_lt_zero : ¬(0.0 : Float) < 0.0 := fun h => (zero_lt_iff.1 h).elim

theorem not_lt_zero {x : Float} (hx : x.isFinite) : ¬x < 0.0 ↔ 0.0 ≤ x := by
  change x.toModel.unpack.isFinite = true at hx
  rw [zero_le_iff, lt_iff, unpack_zero]
  generalize x.toModel.unpack = u at hx ⊢
  rcases u with (_ | _) | _ | _ | (_ | _) <;>
    simp [Positive, IsZero, UnpackedFloat.lt, UnpackedFloat.compare] at hx ⊢
  cases hx

theorem not_le_zero {x : Float} (hx : 0.0 ≤ x) : ¬x ≤ 0.0 ↔ 0.0 < x := by
  rw [zero_le_iff] at hx
  rw [zero_lt_iff, le_iff, unpack_zero]
  generalize x.toModel.unpack = u at hx ⊢
  rcases u with (_ | _) | _ | _ | (_ | _) <;>
    simp [Positive, IsZero, UnpackedFloat.le, UnpackedFloat.compare] at hx ⊢

theorem not_le_zero_of_lt {x : Float} (hx : 0.0 < x) : ¬x ≤ 0.0 :=
  (not_le_zero (zero_le_iff.2 (.inl (zero_lt_iff.1 hx)))).2 hx

/-- A sum is positive if one of its parts is and the other one is not negative. -/
theorem add_pos {x y : Float} (hx : 0.0 ≤ x) (hy : 0.0 ≤ y) (hpos : 0.0 < x ∨ 0.0 < y) :
    0.0 < x + y := by
  rw [zero_le_iff] at hx hy
  rw [zero_lt_iff, zero_lt_iff] at hpos
  have hsx := storable_unpack x.toModel
  have hsy := storable_unpack y.toModel
  rw [zero_lt_iff]
  show Positive (Float.Model.pack (UnpackedFloat.add .binary64 x.toModel.unpack _)).unpack
  rcases hx with hx | hx
  · rcases hy with hy | hy
    · have hsum := hx.add hy hsx hsy
      exact hsum.1.stored hsum.2
    · rw [hx.add_zero hy]
      exact hx.stored hsx
  · have hy := hpos.resolve_left hx.not_positive
    rw [hy.zero_add hx]
    exact hy.stored hsy

theorem isZero_add {x y : Float} (hx : 0.0 ≤ x) (hy : 0.0 ≤ y)
    (hpos : ¬(0.0 < x ∨ 0.0 < y)) : IsZero (x + y).toModel.unpack := by
  rw [zero_lt_iff, zero_lt_iff, not_or] at hpos
  have hxzero := (zero_le_iff.1 hx).resolve_left hpos.1
  have hyzero := (zero_le_iff.1 hy).resolve_left hpos.2
  exact hxzero.stored_add hyzero

theorem add_nonneg {x y : Float} (hx : 0.0 ≤ x) (hy : 0.0 ≤ y) : 0.0 ≤ x + y := by
  rw [zero_le_iff, ← zero_lt_iff]
  by_cases hpos : 0.0 < x ∨ 0.0 < y
  · exact .inl (add_pos hx hy hpos)
  · exact .inr (isZero_add hx hy hpos)

theorem add_pos_iff {x y : Float} (hx : 0.0 ≤ x) (hy : 0.0 ≤ y) :
    0.0 < x + y ↔ 0.0 < x ∨ 0.0 < y := by
  refine ⟨fun hsum => ?_, add_pos hx hy⟩
  by_contra hpos
  exact (isZero_add hx hy hpos).not_positive (zero_lt_iff.1 hsum)

end PlanSearch.Binary64
