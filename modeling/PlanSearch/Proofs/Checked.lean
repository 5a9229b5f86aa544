import Mathlib.Data.List.Forall2
import PlanSearch.Checked

/-!
# Chains of checked computations

When a chain of checked computations succeeds, each of its links did; when it fails, one of them
did and those before it succeeded.
-/

namespace PlanSearch

namespace Checked

variable {ε α β : Type} {x : Except ε α} {b : β}

theorem bind_eq_ok {g : α → Except ε β} (e : (x >>= g) = .ok b) : ∃ a, x = .ok a ∧ g a = .ok b := by
  cases x with
  | error f => cases e
  | ok a => exact ⟨a, rfl, e⟩

theorem bind_eq_ok_iff {g : α → Except ε β} :
    (x >>= g) = .ok b ↔ ∃ a, x = .ok a ∧ g a = .ok b :=
  ⟨bind_eq_ok, by rintro ⟨a, rfl, h⟩; exact h⟩

theorem bind_eq_error {g : α → Except ε β} {f : ε} (e : (x >>= g) = .error f) :
    x = .error f ∨ ∃ a, x = .ok a ∧ g a = .error f := by
  cases x with
  | error f' => cases e; exact .inl rfl
  | ok a => exact .inr ⟨a, rfl, e⟩

/-- A chain fails as its links do. -/
theorem error_of_bind {P : ε → Prop} {g : α → Except ε β} (hx : ∀ f, x = .error f → P f)
    (hg : ∀ a f, g a = .error f → P f) {f : ε} (e : (x >>= g) = .error f) : P f := by
  rcases bind_eq_error e with e | ⟨a, -, e⟩
  · exact hx f e
  · exact hg a f e

theorem map_eq_ok {g : α → β} (e : g <$> x = .ok b) : ∃ a, x = .ok a ∧ g a = b := by
  cases x with
  | error f => cases e
  | ok a => cases e; exact ⟨a, rfl, rfl⟩

theorem map_eq_error {g : α → β} {f : ε} (e : g <$> x = .error f) : x = .error f := by
  cases x with
  | error f => cases e; rfl
  | ok a => cases e

theorem mapError_eq_ok {δ : Type} {g : ε → δ} {a : α} {x : Except ε α} :
    x.mapError g = .ok a ↔ x = .ok a := by
  cases x <;> simp [Except.mapError]

theorem mapM_eq_ok {f : α → Except ε β} {l : List α} {bs : List β} (e : l.mapM f = .ok bs) :
    List.Forall₂ (fun a b => f a = .ok b) l bs := by
  induction l generalizing bs with
  | nil =>
    cases e
    exact .nil
  | cons a l ih =>
    rw [List.mapM_cons] at e
    obtain ⟨b, hb, e⟩ := bind_eq_ok e
    obtain ⟨bs', hbs, e⟩ := bind_eq_ok e
    cases e
    exact .cons hb (ih hbs)

theorem exists_of_mem_mapM {f : α → Except ε β} {l : List α} {bs : List β} (e : l.mapM f = .ok bs)
    (hb : b ∈ bs) : ∃ a ∈ l, f a = .ok b := by
  have h := mapM_eq_ok e
  clear e
  induction h with
  | nil => cases hb
  | cons ha _ ih =>
    rcases List.mem_cons.1 hb with rfl | hb
    · exact ⟨_, List.mem_cons_self, ha⟩
    · obtain ⟨a, hmem, ha⟩ := ih hb
      exact ⟨a, List.mem_cons_of_mem _ hmem, ha⟩

theorem mapM_eq_error {f : α → Except ε β} {l : List α} {failure : ε}
    (e : l.mapM f = .error failure) : ∃ a ∈ l, f a = .error failure := by
  induction l with
  | nil => cases e
  | cons a l ih =>
    rw [List.mapM_cons] at e
    cases ha : f a with
    | error failure' =>
      rw [ha] at e
      cases e
      exact ⟨a, List.mem_cons_self, ha⟩
    | ok b =>
      rw [ha] at e
      cases hl : l.mapM f with
      | ok bs =>
        rw [hl] at e
        cases e
      | error failure' =>
        rw [hl] at e
        cases e
        obtain ⟨a', ha', hf⟩ := ih hl
        exact ⟨a', List.mem_cons_of_mem _ ha', hf⟩

theorem mapM_congr {f g : α → Except ε β} {l : List α} (h : ∀ a ∈ l, f a = g a) :
    l.mapM f = l.mapM g := by
  induction l with
  | nil => rfl
  | cons a l ih =>
    obtain ⟨ha, hrest⟩ := List.forall_mem_cons.1 h
    rw [List.mapM_cons, List.mapM_cons, ha, ih hrest]

theorem mapM_eq_map {f : α → Except ε β} {g : α → β} {l : List α} (h : ∀ a ∈ l, f a = .ok (g a)) :
    l.mapM f = .ok (l.map g) := by
  induction l with
  | nil => rfl
  | cons a l ih =>
    obtain ⟨ha, hrest⟩ := List.forall_mem_cons.1 h
    rw [List.mapM_cons, ha, ih hrest]
    rfl

theorem fits_iff {x : Int} : Fits x ↔ ∃ a : Int64, a.toInt = x := by
  constructor
  · intro h
    exact ⟨Int64.ofInt x, Int64.toInt_ofInt_of_le h.1 h.2⟩
  · rintro ⟨a, rfl⟩
    exact fits_toInt a

theorem fit_eq_error {x : Int} {f : Fault} (e : fit x = .error f) : f = .overflow :=
  (fit_eq_error_iff.1 e).1

/-- Both computations succeed, with results within `R`, or both fail in the same way. -/
inductive Rel {ε α β : Type} (R : α → β → Prop) : Except ε α → Except ε β → Prop
  | ok {a : α} {b : β} (h : R a b) : Rel R (.ok a) (.ok b)
  | error (f : ε) : Rel R (.error f) (.error f)

theorem Rel.bind {γ δ : Type} {R : α → β → Prop} {Q : γ → δ → Prop} {y : Except ε β}
    {g : α → Except ε γ} {h : β → Except ε δ} (hxy : Rel R x y)
    (hgh : ∀ a b, R a b → Rel Q (g a) (h b)) : Rel Q (x >>= g) (y >>= h) := by
  cases hxy with
  | ok hab => exact hgh _ _ hab
  | error f => exact .error f

theorem Rel.mapM {γ δ : Type} {R : α → β → Prop} {Q : γ → δ → Prop} {f : α → Except ε γ}
    {g : β → Except ε δ} {as : List α} {bs : List β} (h : List.Forall₂ R as bs)
    (hfg : ∀ a b, R a b → Rel Q (f a) (g b)) : Rel (List.Forall₂ Q) (as.mapM f) (bs.mapM g) := by
  induction h with
  | nil => exact .ok .nil
  | cons hab _ ih =>
    rw [List.mapM_cons, List.mapM_cons]
    exact (hfg _ _ hab).bind fun c d hcd => ih.bind fun cs ds hcds => .ok (.cons hcd hcds)

theorem Rel.eq {x y : Except ε α} (h : Rel Eq x y) : x = y := by
  cases h with
  | ok h => rw [h]
  | error f => rfl

theorem Rel.of_eq {x y : Except ε α} (h : x = y) : Rel Eq x y := by
  subst h
  cases x with
  | ok a => exact .ok rfl
  | error f => exact .error f

end Checked

namespace Step

variable {ε σ α β : Type} {x : EStateM ε σ α} {g : α → EStateM ε σ β} {s t : σ} {b : β} {f : ε}

theorem bind_eq_ok (e : (x >>= g) s = .ok b t) : ∃ a r, x s = .ok a r ∧ g a r = .ok b t := by
  change EStateM.bind x g s = _ at e
  unfold EStateM.bind at e
  split at e
  · next a r h => exact ⟨a, r, h, e⟩
  · cases e

theorem bind_eq_error (e : (x >>= g) s = .error f t) :
    x s = .error f t ∨ ∃ a r, x s = .ok a r ∧ g a r = .error f t := by
  change EStateM.bind x g s = _ at e
  unfold EStateM.bind at e
  split at e
  · next a r h => exact .inr ⟨a, r, h, e⟩
  · next f' r h =>
    cases e
    exact .inl h

theorem bind_ok {a : α} (e : x s = .ok a t) : (x >>= g) s = g a t := by
  show EStateM.bind x g s = _
  unfold EStateM.bind
  rw [e]

theorem bind_error (e : x s = .error f t) : (x >>= g) s = .error f t := by
  show EStateM.bind x g s = _
  unfold EStateM.bind
  rw [e]

/-- The computation fails on the state. -/
def Fails (x : EStateM ε σ α) (s : σ) : Prop := ∃ f t, x s = .error f t

theorem fails_congr {y : EStateM ε σ α} (h : x s = y t) : Fails x s ↔ Fails y t := by
  unfold Fails
  rw [h]

theorem not_fails_pure (b : β) (s : σ) : ¬ Fails (pure b : EStateM ε σ β) s := by
  rintro ⟨f, t, e⟩
  cases e

/-- A chain fails in its first link or, where that succeeds, in what follows. -/
theorem fails_bind_iff {P Q : Prop} (hx : Fails x s ↔ P)
    (hg : ∀ a r, x s = .ok a r → (Fails (g a) r ↔ Q)) : Fails (x >>= g) s ↔ P ∨ Q := by
  constructor
  · rintro ⟨f, t, e⟩
    rcases bind_eq_error e with hf | ⟨a, r, hok, hf⟩
    · exact .inl (hx.1 ⟨f, t, hf⟩)
    · exact .inr ((hg a r hok).1 ⟨f, t, hf⟩)
  · rintro (hP | hQ)
    · obtain ⟨f, t, hf⟩ := hx.2 hP
      exact ⟨f, t, bind_error hf⟩
    · cases hok : x s with
      | error f t => exact ⟨f, t, bind_error hok⟩
      | ok a r =>
        obtain ⟨f, t, hf⟩ := (hg a r hok).2 hQ
        exact ⟨f, t, (bind_ok hok).trans hf⟩

theorem fails_bind_congr {y : EStateM ε σ α} (h : x s = y t) :
    Fails (x >>= g) s ↔ Fails (y >>= g) t := by
  refine fails_congr ?_
  change EStateM.bind x g s = EStateM.bind y g t
  unfold EStateM.bind
  rw [h]

theorem get_bind (g : σ → EStateM ε σ β) (s : σ) : (get >>= g) s = g s s := rfl

theorem set_bind (t : σ) (g : PUnit → EStateM ε σ β) (s : σ) : (set t >>= g) s = g ⟨⟩ t := rfl

theorem modify_bind (h : σ → σ) (g : PUnit → EStateM ε σ β) (s : σ) :
    (modify h >>= g) s = g ⟨⟩ (h s) := rfl

end Step

end PlanSearch
