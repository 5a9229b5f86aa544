import PlanSearch.Proofs.Lifecycle.Quiet

/-!
# Fuel that suffices

A loop of the model is given fuel, and fails where the fuel runs out. It converges if that is no more
than a bound: with enough fuel it always gives the same answer, which is not that the fuel ran out.

    Converges x → Converges (f · (x n)) → Converges fun n => f n (x n)           (Converges.andThen)
    Converges (x · s) → Converges (g · a t) → Converges fun n => (x n >>= g n) s    (Converges.bind)
-/

namespace PlanSearch

variable {σ τ α β γ δ : Type}

/-! ## Actions without loops -/

/-- The action never says that fuel ran out, and if it succeeds it leaves what `view` sees of the
state as it was. -/
def Frugal (view : σ → γ) (x : Action σ α) : Prop :=
  ∀ s, Finishes (fun _ t => view t = view s) (fun f _ => f ≠ .outOfFuel) (x s)

namespace Frugal

variable {view : σ → γ} {x : Action σ α}

theorem ok (a : α) : Frugal view (pure a : Action σ α) := fun _ => .ok rfl

theorem error (e : SolverError) : Frugal view (throw (.error e) : Action σ α) := fun _ =>
  .error (Failure.error_ne_outOfFuel e)

theorem get : Frugal view (get : Action σ σ) := fun _ => .ok rfl

theorem modify {f : σ → σ} (h : ∀ s, view (f s) = view s) :
    Frugal view (modify f : Action σ PUnit) := fun s => .ok (h s)

theorem bind {g : α → Action σ β} (hx : Frugal view x) (hg : ∀ a, Frugal view (g a)) :
    Frugal view (x >>= g) := fun s =>
  (hx s).bind fun a t ht => (hg a t).mono (fun _ _ hu => hu.trans ht) fun _ _ hf => hf

theorem onPart (part : τ → δ) {get : σ → τ} {set : τ → σ → σ} {x : Action τ α}
    (hx : Frugal part x) (h : ∀ t s, part t = part (get s) → view (set t s) = view s) :
    Frugal view (Action.onPart get set x) := fun s => by
  refine (Finishes.onPart get set (hx (get s))).mono (fun a t ht => ?_) fun f t ht => ?_
  · obtain ⟨u, hu, rfl⟩ := ht
    exact h u s hu
  · obtain ⟨u, hf, -⟩ := ht
    exact hf

theorem ofChecked (x : Checked α) : Frugal view (Action.ofChecked x : Action σ α) := fun s => by
  unfold Action.ofChecked
  split
  · exact .ok rfl
  · exact .error nofun

theorem ofExcept {y : Except Failure α} (h : y ≠ .error .outOfFuel) :
    Frugal view (ofExcept y : Action σ α) := fun s => by
  cases y with
  | ok a => exact .ok rfl
  | error f => exact .error fun hf => h (congrArg _ hf)

end Frugal

/-! ## Loops -/

/-- With enough fuel the answer is always the same, and it is not that the fuel ran out. -/
def Converges (x : Nat → EStateM.Result Failure σ α) : Prop :=
  ∃ n y, (∀ s, y ≠ .error .outOfFuel s) ∧ ∀ fuel, n ≤ fuel → x fuel = y

namespace Converges

variable {x : Nat → EStateM.Result Failure σ α}

theorem ok (a : α) (s : σ) : Converges fun _ => (.ok a s : EStateM.Result Failure σ α) :=
  ⟨0, .ok a s, nofun, fun _ _ => rfl⟩

theorem error {e : Failure} (he : e ≠ .outOfFuel) (s : σ) :
    Converges fun _ => (.error e s : EStateM.Result Failure σ α) :=
  ⟨0, .error e s, fun _ h => he (by cases h; rfl), fun _ _ => rfl⟩

/-- Fuel that is spent on the first round may be given in addition. -/
theorem succ (h : Converges fun n => x (n + 1)) : Converges x := by
  obtain ⟨n, y, hy, hx⟩ := h
  refine ⟨n + 1, y, hy, fun fuel hfuel => ?_⟩
  cases fuel with
  | zero => exact absurd hfuel (Nat.not_succ_le_zero n)
  | succ fuel => exact hx fuel (Nat.le_of_succ_le_succ hfuel)

/-- More fuel does no harm. -/
theorem comp (h : Converges x) {f : Nat → Nat} (hf : ∀ n, n ≤ f n) : Converges fun n => x (f n) := by
  obtain ⟨n, y, hy, hx⟩ := h
  exact ⟨n, y, hy, fun fuel hfuel => hx (f fuel) (Nat.le_trans hfuel (hf fuel))⟩

/-- What is done with the answer of a loop need not converge but for the answer it settles on. -/
theorem andThen {f : Nat → EStateM.Result Failure σ α → EStateM.Result Failure τ β}
    (hx : Converges x) (hok : ∀ n a s, x n = .ok a s → Converges fun m => f m (.ok a s))
    (herror : ∀ e s, e ≠ .outOfFuel → Converges fun m => f m (.error e s)) :
    Converges fun n => f n (x n) := by
  obtain ⟨n, y, hy, hx⟩ := hx
  have hf : Converges fun m => f m y := by
    cases y with
    | ok a s => exact hok n a s (hx n (Nat.le_refl n))
    | error e s => exact herror e s fun he => hy s (by rw [he])
  obtain ⟨m, z, hz, hfm⟩ := hf
  refine ⟨max n m, z, hz, fun fuel hfuel => ?_⟩
  show f fuel (x fuel) = z
  rw [hx fuel (Nat.le_trans (Nat.le_max_left n m) hfuel)]
  exact hfm fuel (Nat.le_trans (Nat.le_max_right n m) hfuel)

theorem bind {x : Nat → Action σ α} {g : Nat → α → Action σ β} {s : σ}
    (hx : Converges fun n => x n s)
    (hg : ∀ a t n, x n s = .ok a t → Converges fun n => g n a t) :
    Converges fun n => (x n >>= g n) s :=
  hx.andThen (f := fun n y => EStateM.bind (fun _ => y) (g n) s) (fun n a t e => hg a t n e)
    fun _ t hf => error hf t

theorem of_finishes {y : EStateM.Result Failure σ α} {Q : α → σ → Prop}
    (h : Finishes Q (fun f _ => f ≠ .outOfFuel) y) : Converges fun _ => y := by
  cases h with
  | ok _ => exact ok _ _
  | error h => exact error h _

/-- An action without loops comes first. -/
theorem bind_finishes {x : Action σ α} {g : Nat → α → Action σ β} {s : σ} {Q : α → σ → Prop}
    (hx : Finishes Q (fun f _ => f ≠ .outOfFuel) (x s))
    (hg : ∀ a t, x s = .ok a t → Q a t → Converges fun n => g n a t) :
    Converges fun n => (x >>= g n) s :=
  bind (x := fun _ => x) (of_finishes hx) fun a t _ e => hg a t e (by
    rw [show x s = .ok a t from e] at hx
    cases hx with
    | ok h => exact h)

end Converges

end PlanSearch
