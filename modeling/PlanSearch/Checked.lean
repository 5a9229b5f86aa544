/-!
# Checked arithmetic

Numbers of the problem are 64-bit integers, and every operation on them is exact or fails: the
exact integer result is formed first and then `fit` asks whether a 64-bit integer denotes it.

    fit x = .ok y ↔ y.toInt = x                                  (fit_eq_ok_iff)
    add a b = .ok c ↔ c.toInt = a.toInt + b.toInt                (add_eq_ok_iff)
-/

namespace PlanSearch

/-- Why a well-typed computation has no result. -/
inductive Fault where
  /-- An exact result does not fit the machine integer that has to hold it. -/
  | overflow
  /-- A function supplied with the problem was asked outside its domain. -/
  | undefined
  deriving DecidableEq, Repr, Inhabited

/-- A value, or the fault that prevented it. -/
abbrev Checked (α : Type) : Type := Except Fault α

/-- A computation on a state of type `σ`. A fault keeps the state it was met in. -/
abbrev Step (σ : Type) : Type → Type := EStateM Fault σ

namespace Checked

/-- The integers that a 64-bit signed integer denotes. -/
def Fits (x : Int) : Prop := -0x8000000000000000 ≤ x ∧ x < 0x8000000000000000

instance (x : Int) : Decidable (Fits x) := inferInstanceAs (Decidable (_ ∧ _))

/-- The 64-bit integer that denotes `x`. -/
def fit (x : Int) : Checked Int64 :=
  if Fits x then .ok (Int64.ofInt x) else .error .overflow

def add (a b : Int64) : Checked Int64 := fit (a.toInt + b.toInt)

def sub (a b : Int64) : Checked Int64 := fit (a.toInt - b.toInt)

def mul (a b : Int64) : Checked Int64 := fit (a.toInt * b.toInt)

def neg (a : Int64) : Checked Int64 := fit (-a.toInt)

def abs (a : Int64) : Checked Int64 := fit a.toInt.natAbs

/-- The count `n` as a 64-bit unsigned number. -/
def count (n : Nat) : Checked Nat := if n < UInt64.size then .ok n else .error .overflow

/-! ## Lemmas -/

theorem fits_toInt (a : Int64) : Fits a.toInt := ⟨a.le_toInt, a.toInt_lt⟩

theorem fit_eq_ok_iff {x : Int} {y : Int64} : fit x = .ok y ↔ y.toInt = x := by
  unfold fit
  split
  · rename_i h
    have hx : (Int64.ofInt x).toInt = x := Int64.toInt_ofInt_of_le h.1 h.2
    constructor
    · intro e; cases e; exact hx
    · intro e; rw [← e]; simp
  · rename_i h
    constructor
    · intro e; cases e
    · intro e; exact absurd (e ▸ fits_toInt y) h

theorem fit_eq_error_iff {x : Int} {f : Fault} : fit x = .error f ↔ f = .overflow ∧ ¬ Fits x := by
  unfold fit
  split <;> rename_i h
  · simp [h]
  · simp [h, eq_comm]

theorem fit_toInt (a : Int64) : fit a.toInt = .ok a := fit_eq_ok_iff.2 rfl

theorem add_eq_ok_iff {a b c : Int64} : add a b = .ok c ↔ c.toInt = a.toInt + b.toInt :=
  fit_eq_ok_iff

theorem sub_eq_ok_iff {a b c : Int64} : sub a b = .ok c ↔ c.toInt = a.toInt - b.toInt :=
  fit_eq_ok_iff

end Checked

namespace Step

variable {σ α : Type}

def ofChecked (x : Checked α) : Step σ α := fun s =>
  match x with
  | .ok a => .ok a s
  | .error f => .error f s

/-- The state that `x` leaves. -/
def finalState (x : Step σ α) (s : σ) : σ :=
  match x s with
  | .ok _ s => s
  | .error _ s => s

/-- The answer of `x`. -/
def answer (x : Step σ α) (s : σ) : Checked α :=
  match x s with
  | .ok a _ => .ok a
  | .error f _ => .error f

end Step

end PlanSearch
