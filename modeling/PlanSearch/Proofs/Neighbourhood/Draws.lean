import PlanSearch.Proofs.Neighbourhood.Slots

/-!
# Draws from a tree

What the leaves of a tree keep, its inner nodes keep as well: whatever children a union or a product
turns to, and however often a filter asks again, a step of a child is all that happens to the walk.

    c.Yields P M → P x → u.next c … yields a move within M               (UnionWalk.next_within)
    t.Over X → t.Within ok x → t.next plan x s yields a move within ok   (Tree.Within.next)
-/

namespace PlanSearch

variable {S V σ : Type}

theorem Move.mem_leavesOf {ms : List (Move S V)} {leaf : Leaf S V} :
    leaf ∈ leavesOf ms ↔ ∃ m ∈ ms, leaf ∈ m.leaves := by
  induction ms with
  | nil => exact ⟨nofun, nofun⟩
  | cons m ms ih =>
    rw [leavesOf, List.mem_append, ih]
    simp only [List.mem_cons, or_and_right, exists_or, exists_eq_left]

theorem Move.within_composite {ok : Slot S V → Prop} {ms : List (Move S V)}
    (h : ∀ m ∈ ms, m.Within ok) : (composite ms).Within ok := by
  intro a ha
  obtain ⟨leaf, hleaf, ha⟩ := List.mem_flatMap.1 ha
  obtain ⟨m, hm, hleaf⟩ := mem_leavesOf.1 hleaf
  exact h m hm a (List.mem_flatMap.2 ⟨leaf, hleaf, ha⟩)

/-! ## Inner nodes -/

/-- Steps and restarts of the children keep `P`, and the moves that the children yield are within
`M`. -/
structure Children.Yields (c : Children S V σ) (P : σ → Prop) (M : Move S V → Prop) : Prop where
  step : ∀ {i : Nat} {x : σ} {s : Source}, P x →
    P (c.step i x s).2.1 ∧ ∀ m, (c.step i x s).1 = some m → M m
  restart : ∀ {i : Nat} {x : σ}, P x → P (c.restart i x)

/-- Steps and restarts of the children keep `P`, and the moves that the children yield are within
`ok`. -/
structure Children.Keeps (c : Children S V σ) (P : σ → Prop) (ok : Slot S V → Prop) : Prop where
  step : ∀ {i : Nat} {x : σ} {s : Source}, P x →
    P (c.step i x s).2.1 ∧ ∀ m, (c.step i x s).1 = some m → m.Within ok
  restart : ∀ {i : Nat} {x : σ}, P x → P (c.restart i x)

variable {c : Children S V σ} {P : σ → Prop} {M : Move S V → Prop} {ok : Slot S V → Prop} {x : σ}
  {s : Source}

theorem Children.Keeps.yields (h : c.Keeps P ok) : c.Yields P (Move.Within ok) := ⟨h.step, h.restart⟩

namespace UnionWalk

theorem nextOrderly_within (h : c.Yields P M) (hx : P x) (k : Nat) (u : UnionWalk) :
    P (nextOrderly c k u x s).2.2.1 ∧ ∀ m, (nextOrderly c k u x s).1 = some m → M m := by
  induction k generalizing u x s with
  | zero => exact ⟨hx, nofun⟩
  | succ k ih =>
    have hstep := h.step (i := u.position) (s := s) hx
    unfold nextOrderly
    generalize c.step u.position x s = q at hstep ⊢
    obtain ⟨m?, x', s'⟩ := q
    cases m? with
    | none => exact ih hstep.1 _
    | some m => exact hstep

theorem nextRandom_within (h : c.Yields P M) (hx : P x) (weights : List Float) (k : Nat)
    (u : UnionWalk) :
    P (nextRandom c weights k u x s).2.2.1 ∧ ∀ m, (nextRandom c weights k u x s).1 = some m → M m := by
  induction k generalizing u x s with
  | zero => exact ⟨hx, nofun⟩
  | succ k ih =>
    unfold nextRandom
    dsimp only
    split
    · exact ⟨hx, nofun⟩
    · split
      · exact ⟨hx, nofun⟩
      · next i _ =>
        have hstep := h.step (i := i) (s := s.unit.2) hx
        generalize c.step i x s.unit.2 = q at hstep ⊢
        obtain ⟨m?, x', s'⟩ := q
        cases m? with
        | none => exact ih hstep.1 _
        | some m => exact hstep

theorem next_within (h : c.Yields P M) (hx : P x) (random : Bool) (weights : Weights S)
    (plan : S) (u : UnionWalk) :
    P (u.next c random weights plan x s).2.2.1 ∧
      ∀ m, (u.next c random weights plan x s).1 = some m → M m := by
  unfold UnionWalk.next
  split
  · exact nextRandom_within h hx _ _ _
  · exact nextOrderly_within h hx _ _

theorem next_keeps (h : c.Keeps P ok) (hx : P x) (random : Bool) (weights : Weights S)
    (plan : S) (u : UnionWalk) :
    P (u.next c random weights plan x s).2.2.1 ∧
      ∀ m, (u.next c random weights plan x s).1 = some m → m.Within ok :=
  next_within h.yields hx random weights plan u

end UnionWalk

namespace ProductWalk

theorem parts_within (h : c.Yields P M) (hx : P x) (k i : Nat) :
    P (parts c k i x s).2.1 ∧ ∀ ms, (parts c k i x s).1 = some ms → ∀ m ∈ ms, M m := by
  induction k generalizing i x s with
  | zero =>
    refine ⟨hx, fun ms hms => ?_⟩
    cases hms
    exact nofun
  | succ k ih =>
    have hstep := h.step (i := i) (s := s) hx
    unfold parts
    generalize c.step i x s = q at hstep ⊢
    obtain ⟨m?, x', s'⟩ := q
    cases m? with
    | none => exact ⟨hstep.1, nofun⟩
    | some m =>
      have hrest := ih (s := s') hstep.1 (i + 1)
      dsimp only
      generalize parts c k (i + 1) x' s' = r at hrest ⊢
      obtain ⟨ms?, x'', s''⟩ := r
      cases ms? with
      | none => exact ⟨hrest.1, nofun⟩
      | some ms =>
        refine ⟨hrest.1, fun ms' hms' => ?_⟩
        cases hms'
        exact List.forall_mem_cons.2 ⟨hstep.2 m rfl, hrest.2 ms rfl⟩

theorem firstParts_within (h : c.Yields P M) (hx : P x) (k i : Nat) :
    P (firstParts c k i x s).2.1 ∧ ∀ ms, (firstParts c k i x s).1 = some ms → ∀ m ∈ ms, M m := by
  induction k generalizing i x s with
  | zero =>
    refine ⟨hx, fun ms hms => ?_⟩
    cases hms
    exact nofun
  | succ k ih =>
    have hstep := h.step (i := i) (s := s) (h.restart (i := i) hx)
    unfold firstParts
    generalize c.step i (c.restart i x) s = q at hstep ⊢
    obtain ⟨m?, x', s'⟩ := q
    cases m? with
    | none => exact ⟨hstep.1, nofun⟩
    | some m =>
      have hrest := ih (s := s') hstep.1 (i + 1)
      dsimp only
      generalize firstParts c k (i + 1) x' s' = r at hrest ⊢
      obtain ⟨ms?, x'', s''⟩ := r
      cases ms? with
      | none => exact ⟨hrest.1, nofun⟩
      | some ms =>
        refine ⟨hrest.1, fun ms' hms' => ?_⟩
        cases hms'
        exact List.forall_mem_cons.2 ⟨hstep.2 m rfl, hrest.2 ms rfl⟩

theorem turn_within (h : c.Yields P M) (hx : P x) {current : List (Move S V)}
    (hc : ∀ m ∈ current, M m) (p : Nat) :
    P (turn c current p x s).2.1 ∧ ∀ ms, (turn c current p x s).1 = some ms → ∀ m ∈ ms, M m := by
  induction p generalizing x s with
  | zero => exact ⟨hx, nofun⟩
  | succ p ih =>
    have hstep := h.step (i := p) (s := s) hx
    unfold turn
    generalize c.step p x s = q at hstep ⊢
    obtain ⟨m?, x', s'⟩ := q
    cases m? with
    | none => exact ih hstep.1
    | some m =>
      have hrest := firstParts_within h (s := s') hstep.1 (c.count - (p + 1)) (p + 1)
      dsimp only
      generalize firstParts c (c.count - (p + 1)) (p + 1) x' s' = r at hrest ⊢
      obtain ⟨ms?, x'', s''⟩ := r
      cases ms? with
      | none => exact ⟨hrest.1, nofun⟩
      | some ms =>
        refine ⟨hrest.1, fun ms' hms' => ?_⟩
        cases hms'
        refine List.forall_mem_append.2 ⟨fun m' hm' => hc m' (List.mem_of_mem_take hm'), ?_⟩
        exact List.forall_mem_cons.2 ⟨hstep.2 m rfl, hrest.2 ms rfl⟩

/-- A product of children that yield moves within `M`, which composites do not leave. -/
theorem next_within {w : ProductWalk S V}
    (hM : ∀ ms : List (Move S V), (∀ m ∈ ms, M m) → M (.composite ms))
    (hw : ∀ m ∈ w.current, M m) (h : c.Yields P M) (hx : P x) (random : Bool) :
    ((∀ m ∈ (w.next c random x s).2.1.current, M m) ∧ P (w.next c random x s).2.2.1) ∧
      ∀ m, (w.next c random x s).1 = some m → M m := by
  have hparts := parts_within h (s := s) hx c.count 0
  have hturn := turn_within h (s := s) hx hw c.count
  unfold ProductWalk.next
  split
  · exact ⟨⟨hw, hx⟩, nofun⟩
  split
  · unfold nextRandom
    generalize parts c c.count 0 x s = q at hparts ⊢
    obtain ⟨ms?, x', s'⟩ := q
    cases ms? with
    | none => exact ⟨⟨hw, hparts.1⟩, nofun⟩
    | some ms =>
      refine ⟨⟨hw, hparts.1⟩, fun m hm => ?_⟩
      cases hm
      exact hM ms (hparts.2 ms rfl)
  unfold nextOrderly
  split
  · generalize parts c c.count 0 x s = q at hparts ⊢
    obtain ⟨ms?, x', s'⟩ := q
    cases ms? with
    | none => exact ⟨⟨nofun, hparts.1⟩, nofun⟩
    | some ms =>
      refine ⟨⟨hparts.2 ms rfl, hparts.1⟩, fun m hm => ?_⟩
      cases hm
      exact hM ms (hparts.2 ms rfl)
  · generalize turn c w.current c.count x s = q at hturn ⊢
    obtain ⟨ms?, x', s'⟩ := q
    cases ms? with
    | none => exact ⟨⟨hw, hturn.1⟩, nofun⟩
    | some ms =>
      refine ⟨⟨hturn.2 ms rfl, hturn.1⟩, fun m hm => ?_⟩
      cases hm
      exact hM ms (hturn.2 ms rfl)

/-- The parts of the composite yielded last are within `ok`. -/
def Within (ok : Slot S V → Prop) (w : ProductWalk S V) : Prop := ∀ m ∈ w.current, m.Within ok

theorem Within.next {w : ProductWalk S V} (hw : w.Within ok) (h : c.Keeps P ok) (hx : P x)
    (random : Bool) :
    ((w.next c random x s).2.1.Within ok ∧ P (w.next c random x s).2.2.1) ∧
      ∀ m, (w.next c random x s).1 = some m → m.Within ok :=
  next_within (fun _ => Move.within_composite) hw h.yields hx random

end ProductWalk

theorem nextKept_within {step : σ → Source → Option (Move S V) × σ × Source}
    (h : ∀ {x : σ} {s : Source}, P x → P (step x s).2.1 ∧ ∀ m, (step x s).1 = some m → M m)
    (hx : P x) (keep : Move S V → Bool) (k : Nat) :
    P (nextKept keep step k x s).2.1 ∧ ∀ m, (nextKept keep step k x s).1 = some m → M m := by
  induction k generalizing x s with
  | zero => exact ⟨hx, nofun⟩
  | succ k ih =>
    have hstep := h (s := s) hx
    unfold nextKept
    generalize step x s = q at hstep ⊢
    obtain ⟨m?, x', s'⟩ := q
    cases m? with
    | none => exact ⟨hstep.1, nofun⟩
    | some m =>
      dsimp only
      split
      · exact hstep
      · exact ih hstep.1

theorem nextKept_keeps {step : σ → Source → Option (Move S V) × σ × Source}
    (h : ∀ {x : σ} {s : Source}, P x → P (step x s).2.1 ∧ ∀ m, (step x s).1 = some m → m.Within ok)
    (hx : P x) (keep : Move S V → Bool) (k : Nat) :
    P (nextKept keep step k x s).2.1 ∧
      ∀ m, (nextKept keep step k x s).1 = some m → m.Within ok :=
  nextKept_within h hx keep k

/-! ## Trees -/

namespace Tree

variable {sh : Shape} [Plan S sh]

mutual

/-- The leaves assign to no variables but `X`. -/
def Over (X : Variable S V → Prop) : Tree S V → Prop
  | change d _ => X d.cell
  | swap x _ => X x
  | union children _ _ => OverAll X children
  | product children _ => OverAll X children
  | filter child _ => Over X child

def OverAll (X : Variable S V → Prop) : List (Tree S V) → Prop
  | [] => True
  | t :: ts => Over X t ∧ OverAll X ts

end

mutual

/-- What the walk remembers is `ok`. -/
def Within (ok : Slot S V → Prop) : (t : Tree S V) → State t → Prop
  | change d _, (w : ChangeWalk V) => w.Within ok d
  | swap x _, (w : SwapWalk) => w.Within ok x
  | union children _ _, (_, x) => WithinAll ok children x
  | product children _, (w, x) => w.Within ok ∧ WithinAll ok children x
  | filter child _, x => Within ok child x

def WithinAll (ok : Slot S V → Prop) : (ts : List (Tree S V)) → States ts → Prop
  | [], _ => True
  | t :: ts, (x, xs) => Within ok t x ∧ WithinAll ok ts xs

end

mutual

theorem within_restart (ok : Slot S V → Prop) : (t : Tree S V) → (x : State t) →
    t.Within ok (t.restart x)
  | change d _, (w : ChangeWalk V) => w.within_restart ok d
  | swap x _, (w : SwapWalk) => w.within_restart ok x
  | union children _ _, (_, x) => withinAll_restartAll ok children x
  | product children _, (_, x) => ⟨nofun, withinAll_restartAll ok children x⟩
  | filter child _, x => within_restart ok child x

theorem withinAll_restartAll (ok : Slot S V → Prop) : (ts : List (Tree S V)) → (x : States ts) →
    WithinAll ok ts (restartAll ts x)
  | [], _ => trivial
  | t :: ts, (x, xs) => ⟨within_restart ok t x, withinAll_restartAll ok ts xs⟩

end

theorem withinAll_restartAt : (ts : List (Tree S V)) → (i : Nat) → (x : States ts) →
    WithinAll ok ts x → WithinAll ok ts (restartAt ts i x)
  | [], _, _, h => h
  | t :: _, 0, (x, _), h => ⟨within_restart ok t x, h.2⟩
  | _ :: ts, i + 1, (_, xs), h => ⟨h.1, withinAll_restartAt ts i xs h.2⟩

mutual

theorem within_hear (ok : Slot S V → Prop) (plan : S) {e : Event} (he : e.restarts) :
    (t : Tree S V) → (x : State t) → t.Within ok (t.hear plan e x)
  | change d _, (w : ChangeWalk V) => w.within_hear ok d he
  | swap x _, (w : SwapWalk) => w.within_hear ok x he
  | union children _ _, (_, x) => withinAll_hearAll ok plan he children x
  | product children _, (w, x) => by
    refine ⟨?_, withinAll_hearAll ok plan he children x⟩
    show (if e.restarts then ({} : ProductWalk S V) else w).Within ok
    rw [if_pos he]
    exact nofun
  | filter child _, x => within_hear ok plan he child x

theorem withinAll_hearAll (ok : Slot S V → Prop) (plan : S) {e : Event} (he : e.restarts) :
    (ts : List (Tree S V)) → (x : States ts) → WithinAll ok ts (hearAll plan e ts x)
  | [], _ => trivial
  | t :: ts, (x, xs) => ⟨within_hear ok plan he t x, withinAll_hearAll ok plan he ts xs⟩

end

variable {X : Variable S V → Prop} {plan : S}

mutual

theorem Within.next (hm : ∀ y, X y → ∀ e ∈ Plan.movable plan y.family, ok ⟨y, e⟩) :
    (t : Tree S V) → (x : State t) → t.Over X → t.Within ok x → (s : Source) →
      t.Within ok (t.next plan x s).2.1 ∧ ∀ m, (t.next plan x s).1 = some m → m.Within ok
  | change d _, (w : ChangeWalk V), ht, h, _ => ChangeWalk.Within.next (w := w) h (hm d.cell ht)
  | swap y _, (w : SwapWalk), ht, h, _ => SwapWalk.Within.next (w := w) h (hm y ht)
  | union children random weights, (u, _), ht, h, _ =>
    UnionWalk.next_keeps (P := WithinAll ok children)
      ⟨fun hx => WithinAll.stepAt hm children _ _ ht hx _, withinAll_restartAt children _ _⟩ h random
      weights plan u
  | product children random, (_, _), ht, h, _ =>
    ProductWalk.Within.next (P := WithinAll ok children) h.1
      ⟨fun hx => WithinAll.stepAt hm children _ _ ht hx _, withinAll_restartAt children _ _⟩ h.2
      random
  | filter child keep, _, ht, h, _ =>
    nextKept_keeps (P := Within ok child) (fun hx => Within.next hm child _ ht hx _) h (keep plan) _

theorem WithinAll.stepAt (hm : ∀ y, X y → ∀ e ∈ Plan.movable plan y.family, ok ⟨y, e⟩) :
    (ts : List (Tree S V)) → (i : Nat) → (x : States ts) → OverAll X ts → WithinAll ok ts x →
      (s : Source) → WithinAll ok ts (stepAt plan ts i x s).2.1 ∧
        ∀ m, (stepAt plan ts i x s).1 = some m → m.Within ok
  | [], _, _, _, h, _ => ⟨h, nofun⟩
  | t :: _, 0, (x, _), ht, h, s =>
    have hnext := Within.next hm t x ht.1 h.1 s
    ⟨⟨hnext.1, h.2⟩, hnext.2⟩
  | _ :: ts, i + 1, (_, xs), ht, h, s =>
    have hstep := WithinAll.stepAt hm ts i xs ht.2 h.2 s
    ⟨⟨h.1, hstep.1⟩, hstep.2⟩

end

end Tree

namespace Neighbourhood

variable {sh : Shape} [Plan S sh] {X : Variable S V → Prop} {n : Neighbourhood S V} {plan : S}

/-- What the walk remembers is `ok`. -/
def Within (ok : Slot S V → Prop) (n : Neighbourhood S V) : Prop := n.tree.Within ok n.walk

theorem within_hear (ok : Slot S V → Prop) (n : Neighbourhood S V) (plan : S) {e : Event}
    (he : e.restarts) : (n.hear plan e).Within ok :=
  Tree.within_hear ok plan he n.tree n.walk

theorem Within.next (h : n.Within ok) (ht : n.tree.Over X)
    (hm : ∀ y, X y → ∀ e ∈ Plan.movable plan y.family, ok ⟨y, e⟩) (s : Source) :
    (n.next plan s).2.1.Within ok ∧ ∀ m, (n.next plan s).1 = some m → m.Within ok :=
  Tree.Within.next hm n.tree n.walk ht h s

end Neighbourhood

end PlanSearch
