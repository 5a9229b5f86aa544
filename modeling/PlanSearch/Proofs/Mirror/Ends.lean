import PlanSearch.Error
import PlanSearch.Proofs.Checked

/-!
# Computations that end alike

Two computations on states of different types end alike if both answer the same and leave related
states, or if both fail in the same way. Some failures excuse the other computation from anything;
reported errors never do, and the corruption of scores is never among the errors that are reported.

    Alike … (x s) (y t) → (∀ a s t, I s t → Alike … (f a s) (g a t)) →
      Alike … ((x >>= f) s) ((y >>= g) t)                                (Alike.bind)
-/

namespace PlanSearch

/-- The error is a broken promise of the scores. -/
def SolverError.isCorruption : SolverError → Bool
  | scoreCorruption _ _ _ | undoCorruption _ _ _ => true
  | _ => false

namespace Failure

theorem fault_ne_error (f : Fault) (e : SolverError) : fault f ≠ error e := by
  intro h
  cases h

theorem outOfFuel_ne_error (e : SolverError) : outOfFuel ≠ error e := by
  intro h
  cases h

theorem error_ne_outOfFuel (e : SolverError) : error e ≠ outOfFuel :=
  (outOfFuel_ne_error e).symm

end Failure

/-- Failures after which nothing is asked of the other computation. -/
structure Excuse where
  left : Failure → Prop
  right : Failure → Prop
  left_error : ∀ e, ¬left (.error e)
  right_error : ∀ e, ¬right (.error e)

namespace Excuse

/-- Nothing is excused. -/
def none : Excuse where
  left _ := False
  right _ := False
  left_error _ := id
  right_error _ := id

/-- Either computation may fail to compute something. -/
def fault : Excuse where
  left e := ∃ f, e = .fault f
  right e := ∃ f, e = .fault f
  left_error := nofun
  right_error := nofun

/-- Either computation may overflow. -/
def overflow : Excuse where
  left f := f = .fault .overflow
  right f := f = .fault .overflow
  left_error := nofun
  right_error := nofun

/-- The bounds on the rounds of two loops: they are the same, or running into the smaller one is
excused. -/
def Fuels (ex : Excuse) (n n' : Nat) : Prop :=
  n = n' ∨ n ≤ n' ∧ ex.left .outOfFuel ∨ n' ≤ n ∧ ex.right .outOfFuel

namespace Fuels

variable {ex : Excuse} {n n' : Nat}

theorem zero (h : ex.Fuels 0 n') : n' = 0 ∨ ex.left .outOfFuel := by
  rcases h with rfl | ⟨-, hleft⟩ | ⟨hle, -⟩
  · exact .inl rfl
  · exact .inr hleft
  · exact .inl (Nat.le_zero.1 hle)

theorem succ (h : ex.Fuels (n + 1) n') :
    n' = 0 ∧ ex.right .outOfFuel ∨ ∃ k, n' = k + 1 ∧ ex.Fuels n k := by
  cases n' with
  | zero =>
    rcases h with h | ⟨hle, -⟩ | ⟨-, hright⟩
    · cases h
    · exact absurd hle (Nat.not_succ_le_zero n)
    · exact .inl ⟨rfl, hright⟩
  | succ k =>
    refine .inr ⟨k, rfl, ?_⟩
    rcases h with h | ⟨hle, hleft⟩ | ⟨hle, hright⟩
    · exact .inl (Nat.succ.inj h)
    · exact .inr (.inl ⟨Nat.le_of_succ_le_succ hle, hleft⟩)
    · exact .inr (.inr ⟨Nat.le_of_succ_le_succ hle, hright⟩)

end Fuels

end Excuse

variable {σ τ α β γ δ : Type} {ex : Excuse} {I : σ → τ → Prop}

/-- How two computations end: with answers and states within `Q`, or with one and the same failure,
and states within `I` if it is a reported error. -/
inductive Ends (ex : Excuse) (I : σ → τ → Prop) (Q : α → σ → β → τ → Prop) :
    EStateM.Result Failure σ α → EStateM.Result Failure τ β → Prop
  | ok {a : α} {s : σ} {b : β} {t : τ} (h : Q a s b t) : Ends ex I Q (.ok a s) (.ok b t)
  | error {f : Failure} {s : σ} {t : τ}
    (h : ∀ e, f = .error e → e.isCorruption = false ∧ I s t) : Ends ex I Q (.error f s) (.error f t)
  | left {f : Failure} {s : σ} (h : ex.left f) (y : EStateM.Result Failure τ β) :
    Ends ex I Q (.error f s) y
  | right {f : Failure} {t : τ} (h : ex.right f) (x : EStateM.Result Failure σ α) :
    Ends ex I Q x (.error f t)

/-- Two computations answer the same and leave related states, unless they fail alike. -/
abbrev Alike (ex : Excuse) (I : σ → τ → Prop) :
    EStateM.Result Failure σ α → EStateM.Result Failure τ α → Prop :=
  Ends ex I fun a s b t => a = b ∧ I s t

namespace Ends

variable {Q Q' : α → σ → β → τ → Prop} {P : γ → σ → δ → τ → Prop} {x : Action σ α} {y : Action τ β}
  {f : α → Action σ γ} {g : β → Action τ δ} {s : σ} {t : τ}

theorem imp {I' : σ → τ → Prop} {x : EStateM.Result Failure σ α} {y : EStateM.Result Failure τ β}
    (h : Ends ex I Q x y) (hI : ∀ s t, I s t → I' s t) (hQ : ∀ a s b t, Q a s b t → Q' a s b t) :
    Ends ex I' Q' x y := by
  cases h with
  | ok h => exact .ok (hQ _ _ _ _ h)
  | error h => exact .error fun e he => ⟨(h e he).1, hI _ _ (h e he).2⟩
  | left h => exact .left h _
  | right h => exact .right h _

theorem mono {x : EStateM.Result Failure σ α} {y : EStateM.Result Failure τ β}
    (h : Ends ex I Q x y) (hQ : ∀ a s b t, Q a s b t → Q' a s b t) : Ends ex I Q' x y :=
  h.imp (fun _ _ => id) hQ

/-- What is known of the answers includes how they came about. -/
theorem with_results {x : EStateM.Result Failure σ α} {y : EStateM.Result Failure τ β}
    (h : Ends ex I Q x y) :
    Ends ex I (fun a s b t => (x = .ok a s ∧ y = .ok b t) ∧ Q a s b t) x y := by
  cases h with
  | ok h => exact .ok ⟨⟨rfl, rfl⟩, h⟩
  | error h => exact .error h
  | left h => exact .left h _
  | right h => exact .right h _

theorem bind (h : Ends ex I Q (x s) (y t))
    (hf : ∀ a s b t, Q a s b t → Ends ex I P (f a s) (g b t)) :
    Ends ex I P ((x >>= f) s) ((y >>= g) t) := by
  show Ends ex I P (EStateM.bind x f s) (EStateM.bind y g t)
  unfold EStateM.bind
  generalize x s = u at h
  generalize y t = v at h
  cases h with
  | ok h => exact hf _ _ _ _ h
  | error h => exact .error h
  | left h => exact .left h _
  | right h => exact .right h _

/-- A computation that ends like itself never reports a broken promise of the scores. -/
theorem isCorruption {J : σ → σ → Prop} {P : α → σ → α → σ → Prop}
    {x : EStateM.Result Failure σ α} (h : Ends ex J P x x) {e : SolverError} {s : σ}
    (hx : x = .error (.error e) s) : e.isCorruption = false := by
  subst hx
  cases h with
  | error h => exact (h e rfl).1
  | left h => exact absurd h (ex.left_error e)
  | right h => exact absurd h (ex.right_error e)

/-- Actions on parts of the states. -/
theorem onPart {σ' τ' : Type} {J : σ' → τ' → Prop} {P : α → σ' → β → τ' → Prop} {get : σ' → σ}
    {set : σ → σ' → σ'} {get' : τ' → τ} {set' : τ → τ' → τ'} {s : σ'} {t : τ'}
    (h : Ends ex I Q (x (get s)) (y (get' t))) (hJ : ∀ u v, I u v → J (set u s) (set' v t))
    (hP : ∀ a u b v, Q a u b v → P a (set u s) b (set' v t)) :
    Ends ex J P (Action.onPart get set x s) (Action.onPart get' set' y t) := by
  unfold Action.onPart
  generalize x (get s) = u at h
  generalize y (get' t) = v at h
  cases h with
  | ok h => exact .ok (hP _ _ _ _ h)
  | error h => exact .error fun e he => ⟨(h e he).1, hJ _ _ (h e he).2⟩
  | left h => exact .left h _
  | right h => exact .right h _

theorem reported {e : SolverError} (he : e.isCorruption = false) (h : I s t) :
    Ends ex I Q (.error (.error e) s) (.error (.error e) t) := by
  refine .error fun e' he' => ?_
  cases he'
  exact ⟨he, h⟩

/-- A failure that is not reported. -/
theorem unreported {failure : Failure} (hf : ∀ e, failure ≠ .error e) (s : σ) (t : τ) :
    Ends ex I Q (.error failure s) (.error failure t) :=
  .error fun e he => absurd he (hf e)

theorem outOfFuel (s : σ) (t : τ) :
    Ends ex I Q ((throw .outOfFuel : Action σ α) s) ((throw .outOfFuel : Action τ β) t) :=
  unreported Failure.outOfFuel_ne_error s t

end Ends

namespace Alike

variable {P : γ → σ → δ → τ → Prop} {x : Action σ α} {y : Action τ α} {f : α → Action σ γ}
  {g : α → Action τ δ} {s : σ} {t : τ}

theorem bind (h : Alike ex I (x s) (y t))
    (hf : ∀ a s t, I s t → Ends ex I P (f a s) (g a t)) :
    Ends ex I P ((x >>= f) s) ((y >>= g) t) :=
  Ends.bind h fun a s _ t ⟨hab, hI⟩ => hab ▸ hf a s t hI

theorem pure (a : α) (h : I s t) : Alike ex I ((pure a : Action σ α) s) ((pure a : Action τ α) t) :=
  .ok ⟨rfl, h⟩

end Alike

end PlanSearch
