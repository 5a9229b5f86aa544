import PlanSearch.Proofs.Neighbourhood.Enumeration
import PlanSearch.Proofs.Neighbourhood.Stock

/-!
# Trees that come to an end

A tree that does not claim to go on without end yields no more moves than a number that depends on
the tree and the plan, from one restart to the next, whatever the random numbers are. And no call
goes on without end: the loops of unions and filters end before the bounds that are put on them.

    t.isNeverEnding = false → t.next … takes a move from t.stock …         (stock_next)
    t.Ready x → t.stock plan x = t.capacity plan                          (stock_ready)
    t.Sane x → t.stock plan x ≤ t.supply plan x                           (Sane.stock_le_supply)
    t.Course plan n x₀ x → n ≤ t.capacity plan                            (returns_and_ends)
-/

namespace PlanSearch.Tree

variable {S V : Type} {sh : Shape} [Plan S sh] {plan : S}

mutual

theorem ready_fresh : (t : Tree S V) → t.Ready t.fresh
  | change _ _ => ⟨rfl, rfl, rfl⟩
  | swap _ _ => rfl
  | union children _ _ => ⟨rfl, readyAll_freshAll children⟩
  | product children _ => ⟨⟨rfl, rfl⟩, readyAll_freshAll children⟩
  | filter child _ => ready_fresh child

theorem readyAll_freshAll : (ts : List (Tree S V)) → ReadyAll ts (freshAll ts)
  | [] => trivial
  | t :: ts => ⟨ready_fresh t, readyAll_freshAll ts⟩

end

/-! ## Stocks -/

mutual

/-- The most moves that come between two restarts, where the tree comes to an end. -/
def capacity (plan : S) : Tree S V → Nat
  | change d _ => ((Plan.movable plan d.cell.family).map fun e => (d.choices plan e).length).sum
  | swap x _ => (pairs (Plan.movable plan x.family)).length
  | union children _ _ => together children.length fun i => capacityAt plan children i
  | product children random =>
    if random then together children.length fun i => capacityAt plan children i
    else
      ProductWalk.odometer (fun i => capacityAt plan children i)
        (fun i => capacityAt plan children i) 0 children.length
  | filter child _ => capacity plan child

/-- The capacity of child `i`, if it comes to an end. -/
def capacityAt (plan : S) : List (Tree S V) → Nat → Nat
  | [], _ => 0
  | t :: _, 0 => if isNeverEnding t then 0 else capacity plan t
  | _ :: ts, i + 1 => capacityAt plan ts i

end

mutual

/-- The most moves that still come before the next restart, where the tree comes to an end. -/
def stock (plan : S) : (t : Tree S V) → State t → Nat
  | change d _, (w : ChangeWalk V) => w.stock plan d
  | swap x _, (w : SwapWalk) => (w.left plan x).length
  | union children _ _, (_, x) => together children.length fun i => stockAt plan children i x
  | product children random, (w, x) =>
    w.stock random children.length (capacityAt plan children) fun i => stockAt plan children i x
  | filter child _, x => stock plan child x

/-- The stock of child `i`, if it comes to an end. -/
def stockAt (plan : S) : (ts : List (Tree S V)) → Nat → States ts → Nat
  | [], _, _ => 0
  | t :: _, 0, (x, _) => if isNeverEnding t then 0 else stock plan t x
  | _ :: ts, i + 1, (_, xs) => stockAt plan ts i xs

end

/-- Child `i` comes to an end. -/
def endsAt : List (Tree S V) → Nat → Prop
  | [], _ => True
  | t :: _, 0 => t.isNeverEnding = false
  | _ :: ts, i + 1 => endsAt ts i

theorem endsAt_of_some : (ts : List (Tree S V)) → someNeverEnding ts = false → ∀ i, endsAt ts i
  | [], _, _ => trivial
  | _ :: _, h, 0 => (Bool.or_eq_false_iff.1 h).1
  | _ :: ts, h, i + 1 => endsAt_of_some ts (Bool.or_eq_false_iff.1 h).2 i

theorem exists_endsAt : (ts : List (Tree S V)) → allNeverEnding ts = false →
    ∃ i < ts.length, endsAt ts i
  | [], h => by cases h
  | t :: ts, h => by
    rcases Bool.and_eq_false_iff.1 h with h | h
    · exact ⟨0, Nat.succ_pos _, h⟩
    · obtain ⟨i, hi, hends⟩ := exists_endsAt ts h
      exact ⟨i + 1, Nat.succ_lt_succ hi, hends⟩

mutual

theorem stock_ready (plan : S) : (t : Tree S V) → (x : State t) → t.Ready x →
    t.stock plan x = t.capacity plan
  | change d _, (w : ChangeWalk V), h => by
    have hreserve (e : Nat) : w.values.reserve plan d e = (d.choices plan e).length := by
      unfold ValueWalk.reserve ValueWalk.isOutdated
      rw [h.2.1]
      exact Nat.max_eq_left (Nat.zero_le _)
    show w.stock plan d = _
    unfold ChangeWalk.stock ChangeWalk.reserves EntityWalk.upcoming
    rw [h.2.2, if_pos h.1, funext hreserve]
    exact Nat.zero_add _
  | swap x _, (w : SwapWalk), h => by
    have hstale : w.stale = true := h
    show (SwapWalk.swaps x (if w.stale then _ else _)).length = _
    rw [if_pos hstale]
    exact List.length_map _
  | union children _ _, (_, x), h =>
    congrArg (together children.length) (funext (stockAt_ready plan children x h.2))
  | product children random, (w, x), h => by
    have hstocks : (fun i => stockAt plan children i x) = capacityAt plan children :=
      funext (stockAt_ready plan children x h.2)
    show w.stock random children.length (capacityAt plan children)
      (fun i => stockAt plan children i x) = _
    unfold ProductWalk.stock
    rw [hstocks, h.1.2]
    rfl
  | filter child _, x, h => stock_ready plan child x h

theorem stockAt_ready (plan : S) : (ts : List (Tree S V)) → (x : States ts) → ReadyAll ts x →
    (i : Nat) → stockAt plan ts i x = capacityAt plan ts i
  | [], _, _, _ => rfl
  | t :: _, (x, _), h, 0 => by
    show (if isNeverEnding t then 0 else stock plan t x) =
      if isNeverEnding t then 0 else capacity plan t
    rw [stock_ready plan t x h.1]
  | _ :: ts, (_, xs), h, i + 1 => stockAt_ready plan ts xs h.2 i

end

theorem stockAt_restartAt (plan : S) : (ts : List (Tree S V)) → (i : Nat) → (x : States ts) →
    stockAt plan ts i (restartAt ts i x) ≤ capacityAt plan ts i ∧
      ∀ j, j ≠ i → stockAt plan ts j (restartAt ts i x) = stockAt plan ts j x
  | [], _, _ => ⟨Nat.le_refl 0, fun _ _ => rfl⟩
  | t :: _, 0, (x, _) => by
    refine ⟨?_, fun j hj => ?_⟩
    · show (if isNeverEnding t then 0 else stock plan t (restart t x)) ≤
        if isNeverEnding t then 0 else capacity plan t
      rw [stock_ready plan t _ (ready_restart t x)]
    · cases j with
      | zero => exact absurd rfl hj
      | succ j => rfl
  | _ :: ts, i + 1, (_, xs) => by
    obtain ⟨hle, hothers⟩ := stockAt_restartAt plan ts i xs
    refine ⟨hle, fun j hj => ?_⟩
    cases j with
    | zero => rfl
    | succ j => exact hothers j fun e => hj (congrArg (· + 1) e)

/-- The children of an inner node take from their stocks if their steps do. -/
theorem childrenEnd {ts : List (Tree S V)}
    (hstep : ∀ (i : Nat) (x : States ts) (s : Source),
      (∀ j, stockAt plan ts j (stepAt plan ts i x s).2.1 ≤ stockAt plan ts j x) ∧
        (endsAt ts i →
          stockAt plan ts i (stepAt plan ts i x s).2.1 + yielded (stepAt plan ts i x s).1 ≤
            stockAt plan ts i x)) :
    Children.Ends (⟨ts.length, stepAt plan ts, restartAt ts⟩ : Children S V (States ts)) (endsAt ts)
      (capacityAt plan ts) (fun x i => stockAt plan ts i x) where
  step i x s := (hstep i x s).1
  yields x s _ := (hstep _ x s).2
  restart x _ := (stockAt_restartAt plan ts _ x).1
  others i x j hj := Nat.le_of_eq ((stockAt_restartAt plan ts i x).2 j hj)

mutual

/-- A tree that comes to an end takes the moves that it yields from its stock. -/
theorem stock_next (plan : S) : (t : Tree S V) → t.isNeverEnding = false → (x : State t) →
    (s : Source) → t.stock plan (t.next plan x s).2.1 + yielded (t.next plan x s).1 ≤ t.stock plan x
  | change d _, h, (w : ChangeWalk V), s => w.stock_next h plan d s
  | swap x _, h, (w : SwapWalk), s => (w.next_yields h s).length_le
  | union children random weights, h, (u, x), s => by
    obtain ⟨rfl, hsome⟩ := Bool.or_eq_false_iff.1 h
    by_cases hu : u.position ≤ children.length
    · exact UnionWalk.stock_nextOrderly (childrenEnd (stockAt_stepAt plan children))
        (fun i _ => endsAt_of_some children hsome i) (children.length - u.position) u x s
        (Nat.le_of_eq (Nat.add_sub_cancel' hu))
    · have hover : children.length - u.position = 0 := Nat.sub_eq_zero_of_le (Nat.le_of_not_le hu)
      show together children.length (fun i => stockAt plan children i (UnionWalk.nextOrderly _
        (children.length - u.position) u x s).2.2.1) +
          yielded (UnionWalk.nextOrderly _ (children.length - u.position) u x s).1 ≤ _
      rw [hover]
      exact Nat.le_refl _
  | product children random, h, (w, x), s => by
    change (if children.isEmpty then false
      else if random then allNeverEnding children else someNeverEnding children) = false at h
    refine ProductWalk.stock_next (childrenEnd (stockAt_stepAt plan children)) (fun hr hne => ?_)
      (fun hr i hi => ?_) w x s
    · rw [hr, if_neg (by simpa using hne)] at h
      exact exists_endsAt children h
    · have hne : ¬children.isEmpty := by
        rw [List.isEmpty_iff]
        rintro rfl
        exact absurd hi (Nat.not_lt_zero i)
      rw [hr, if_neg hne] at h
      exact endsAt_of_some children h i
  | filter child keep, h, x, s => stock_nextKept (stock_next plan child h) _ x s

theorem stockAt_stepAt (plan : S) : (ts : List (Tree S V)) → (i : Nat) → (x : States ts) →
    (s : Source) → (∀ j, stockAt plan ts j (stepAt plan ts i x s).2.1 ≤ stockAt plan ts j x) ∧
      (endsAt ts i →
        stockAt plan ts i (stepAt plan ts i x s).2.1 + yielded (stepAt plan ts i x s).1 ≤
          stockAt plan ts i x)
  | [], _, _, _ => ⟨fun _ => Nat.le_refl _, fun _ => Nat.le_refl _⟩
  | t :: ts, 0, (x, xs), s => by
    have hfirst : t.isNeverEnding = false →
        stockAt plan (t :: ts) 0 (stepAt plan (t :: ts) 0 (x, xs) s).2.1 +
            yielded (stepAt plan (t :: ts) 0 (x, xs) s).1 ≤
          stockAt plan (t :: ts) 0 (x, xs) := fun h => by
      show (if isNeverEnding t then 0 else stock plan t (next plan t x s).2.1) +
        yielded (next plan t x s).1 ≤ if isNeverEnding t then 0 else stock plan t x
      rw [h]
      exact stock_next plan t h x s
    refine ⟨fun j => ?_, hfirst⟩
    cases j with
    | succ j => exact Nat.le_refl _
    | zero =>
      cases h : isNeverEnding t with
      | false => exact (Nat.le_add_right _ _).trans (hfirst h)
      | true =>
        show (if isNeverEnding t then 0 else stock plan t _) ≤ _
        rw [h]
        exact Nat.zero_le _
  | _ :: ts, i + 1, (x, xs), s => by
    obtain ⟨hle, hyields⟩ := stockAt_stepAt plan ts i xs s
    refine ⟨fun j => ?_, hyields⟩
    cases j with
    | zero => exact Nat.le_refl _
    | succ j => exact hle j

end

/-! ## Walks that can be reached -/

mutual

/-- No more values are upcoming than are listed, and unions know of each child whether it is dry. -/
def Sane : (t : Tree S V) → State t → Prop
  | change _ _, (w : ChangeWalk V) => w.values.Bounded
  | swap _ _, _ => True
  | union children _ _, (u, x) => u.dry.length = children.length ∧ SaneAll children x
  | product children _, (_, x) => SaneAll children x
  | filter child _, x => Sane child x

def SaneAll : (ts : List (Tree S V)) → States ts → Prop
  | [], _ => True
  | t :: ts, (x, xs) => Sane t x ∧ SaneAll ts xs

end

mutual

theorem sane_fresh : (t : Tree S V) → t.Sane t.fresh
  | change _ _ => Nat.le_refl 0
  | swap _ _ => trivial
  | union children _ _ => ⟨List.length_replicate, saneAll_freshAll children⟩
  | product children _ => saneAll_freshAll children
  | filter child _ => sane_fresh child

theorem saneAll_freshAll : (ts : List (Tree S V)) → SaneAll ts (freshAll ts)
  | [] => trivial
  | t :: ts => ⟨sane_fresh t, saneAll_freshAll ts⟩

end

mutual

theorem Sane.restart : (t : Tree S V) → (x : State t) → t.Sane x → t.Sane (t.restart x)
  | change _ _, _, h => h
  | swap _ _, _, _ => trivial
  | union children _ _, (_, x), h =>
    ⟨(List.length_map _).trans h.1, SaneAll.restartAll children x h.2⟩
  | product children _, (_, x), h => SaneAll.restartAll children x h
  | filter child _, x, h => Sane.restart child x h

theorem SaneAll.restartAll : (ts : List (Tree S V)) → (x : States ts) → SaneAll ts x →
    SaneAll ts (restartAll ts x)
  | [], _, _ => trivial
  | t :: ts, (x, xs), h => ⟨Sane.restart t x h.1, SaneAll.restartAll ts xs h.2⟩

end

theorem SaneAll.restartAt : (ts : List (Tree S V)) → (i : Nat) → (x : States ts) → SaneAll ts x →
    SaneAll ts (restartAt ts i x)
  | [], _, _, _ => trivial
  | t :: _, 0, (x, _), h => ⟨Sane.restart t x h.1, h.2⟩
  | _ :: ts, i + 1, (_, xs), h => ⟨h.1, SaneAll.restartAt ts i xs h.2⟩

mutual

theorem Sane.hear (plan : S) (e : Event) : (t : Tree S V) → (x : State t) → t.Sane x →
    t.Sane (t.hear plan e x)
  | change _ _, (w : ChangeWalk V), h => by
    show (w.hear e).values.Bounded
    unfold ChangeWalk.hear ValueWalk.hear
    dsimp only
    split <;> exact h
  | swap _ _, _, _ => trivial
  | union children random weights, (u, x), h => by
    refine ⟨?_, SaneAll.hearAll plan e children x h.2⟩
    show (u.hear children.length random weights plan e).dry.length = _
    unfold UnionWalk.hear
    split
    · exact (List.length_map _).trans h.1
    · exact h.1
  | product children _, (_, x), h => SaneAll.hearAll plan e children x h
  | filter child _, x, h => Sane.hear plan e child x h

theorem SaneAll.hearAll (plan : S) (e : Event) : (ts : List (Tree S V)) → (x : States ts) →
    SaneAll ts x → SaneAll ts (hearAll plan e ts x)
  | [], _, _ => trivial
  | t :: ts, (x, xs), h => ⟨Sane.hear plan e t x h.1, SaneAll.hearAll plan e ts xs h.2⟩

end

theorem SaneAll.keeps {ts : List (Tree S V)}
    (hstep : ∀ (i : Nat) (x : States ts), SaneAll ts x → ∀ s,
      SaneAll ts (Tree.stepAt plan ts i x s).2.1) :
    Children.Keeps (⟨ts.length, Tree.stepAt plan ts, Tree.restartAt ts⟩ : Children S V (States ts))
      (SaneAll ts) fun _ => True where
  step hx := ⟨hstep _ _ hx _, fun _ _ _ _ => trivial⟩
  restart hx := SaneAll.restartAt ts _ _ hx

mutual

theorem Sane.next (plan : S) : (t : Tree S V) → (x : State t) → t.Sane x → (s : Source) →
    t.Sane (t.next plan x s).2.1
  | change d order, (w : ChangeWalk V), h, s => w.bounded_next h plan d order s
  | swap _ _, _, _, _ => trivial
  | union children random weights, (u, x), h, s =>
    ⟨(UnionWalk.length_dry_next _ random weights plan u x s).trans h.1,
      (UnionWalk.next_keeps (SaneAll.keeps (SaneAll.stepAt plan children)) h.2 random weights plan
        u).1⟩
  | product children random, (w, _), h, _ =>
    have hw : w.Within fun _ : Slot S V => True := fun _ _ _ _ => trivial
    (hw.next (SaneAll.keeps (SaneAll.stepAt plan children)) h random).1.2
  | filter child keep, _, h, _ =>
    have hstep : ∀ {x : State child} {s : Source}, Sane child x →
        Sane child (Tree.next plan child x s).2.1 ∧
          ∀ m, (Tree.next plan child x s).1 = some m → m.Within fun _ => True :=
      fun hx => ⟨Sane.next plan child _ hx _, fun _ _ _ _ => trivial⟩
    (nextKept_keeps hstep h (keep plan) _).1

theorem SaneAll.stepAt (plan : S) : (ts : List (Tree S V)) → (i : Nat) → (x : States ts) →
    SaneAll ts x → (s : Source) → SaneAll ts (stepAt plan ts i x s).2.1
  | [], _, _, _, _ => trivial
  | t :: _, 0, (x, _), h, s => ⟨Sane.next plan t x h.1 s, h.2⟩
  | _ :: ts, i + 1, (_, xs), h, s => ⟨h.1, SaneAll.stepAt plan ts i xs h.2 s⟩

end

/-! ## No more is in stock than is supplied -/

mutual

theorem Sane.stock_le_supply (plan : S) : (t : Tree S V) → t.isNeverEnding = false →
    (x : State t) → t.Sane x → t.stock plan x ≤ t.supply plan x
  | change d _, _, (w : ChangeWalk V), h => w.stock_le_supply h
  | swap x _, _, (w : SwapWalk), _ => w.length_left_le
  | union children random weights, _, (_, x), h => SaneAll.together_le_supplies plan children x h.2
  | product children random, h, (w, x), hx => by
    change (if children.isEmpty then false
      else if random then allNeverEnding children else someNeverEnding children) = false at h
    show w.stock random children.length (capacityAt plan children)
        (fun i => stockAt plan children i x) ≤
      if random then sumSupplies plan children x else multiplySupplies plan children x
    unfold ProductWalk.stock
    cases random with
    | true => exact SaneAll.together_le_supplies plan children x hx
    | false =>
      have hsome : someNeverEnding children = false := by
        cases children with
        | nil => rfl
        | cons t ts => exact h
      rw [if_neg Bool.false_ne_true, if_neg Bool.false_ne_true]
      split
      · exact Nat.zero_le _
      · exact (SaneAll.odometer_le_supplies plan children hsome x hx).2
  | filter child _, h, x, hx => Sane.stock_le_supply plan child h x hx

theorem SaneAll.together_le_supplies (plan : S) : (ts : List (Tree S V)) → (x : States ts) →
    SaneAll ts x → together ts.length (fun i => stockAt plan ts i x) ≤ sumSupplies plan ts x
  | [], _, _ => Nat.le_refl 0
  | t :: ts, (x, xs), h => by
    have hrest := SaneAll.together_le_supplies plan ts xs h.2
    rw [List.length_cons, together_succ]
    refine Nat.add_le_add ?_ hrest
    show (if isNeverEnding t then 0 else stock plan t x) ≤
      if isNeverEnding t then 0 else supply plan t x
    split
    · exact Nat.le_refl 0
    · next hends => exact Sane.stock_le_supply plan t (Bool.eq_false_iff.2 hends) x h.1

theorem SaneAll.odometer_le_supplies (plan : S) : (ts : List (Tree S V)) →
    someNeverEnding ts = false → (x : States ts) → SaneAll ts x →
      ProductWalk.combined (capacityAt plan ts) 0 ts.length ≤ multiplySupplies plan ts x ∧
        ProductWalk.odometer (capacityAt plan ts) (fun i => stockAt plan ts i x) 0 ts.length ≤
          multiplySupplies plan ts x
  | [], _, _, _ => ⟨Nat.le_refl 1, Nat.zero_le 1⟩
  | t :: ts, hsome, (x, xs), h => by
    obtain ⟨hends, hrest⟩ := Bool.or_eq_false_iff.1 hsome
    obtain ⟨hcombined, hodometer⟩ := SaneAll.odometer_le_supplies plan ts hrest xs h.2
    have hstock := Sane.stock_le_supply plan t hends x h.1
    have hcapacity := Sane.stock_le_supply plan t hends (t.restart x) (Sane.restart t x h.1)
    rw [stock_ready plan t _ (ready_restart t x)] at hcapacity
    have hfirst : capacityAt plan (t :: ts) 0 = t.capacity plan :=
      if_neg (Bool.eq_false_iff.1 hends)
    have hthis : stockAt plan (t :: ts) 0 (x, xs) = t.stock plan x :=
      if_neg (Bool.eq_false_iff.1 hends)
    show capacityAt plan (t :: ts) 0 *
          ProductWalk.combined (capacityAt plan (t :: ts)) 1 ts.length ≤
        (1 + supply plan t x + supply plan t (t.restart x)) * multiplySupplies plan ts xs ∧
      stockAt plan (t :: ts) 0 (x, xs) *
            ProductWalk.combined (capacityAt plan (t :: ts)) 1 ts.length +
          ProductWalk.odometer (capacityAt plan (t :: ts))
            (fun i => stockAt plan (t :: ts) i (x, xs)) 1 ts.length ≤
        (1 + supply plan t x + supply plan t (t.restart x)) * multiplySupplies plan ts xs
    rw [hfirst, hthis, ProductWalk.combined_succ, ProductWalk.odometer_succ]
    constructor
    · exact Nat.mul_le_mul (by omega) hcombined
    · have hmul : t.stock plan x * ProductWalk.combined (capacityAt plan ts) 0 ts.length ≤
          (supply plan t x + supply plan t (t.restart x)) * multiplySupplies plan ts xs :=
        Nat.mul_le_mul (by omega) hcombined
      rw [Nat.add_assoc 1, Nat.add_mul, Nat.one_mul, Nat.add_comm]
      exact Nat.add_le_add hodometer hmul

end

/-! ## Calls that return -/

/-- The walk is at `x` after any draws, restarts and events. -/
inductive Reached (t : Tree S V) : State t → Prop
  | fresh : Reached t t.fresh
  | next (plan : S) (s : Source) {x : State t} (h : Reached t x) : Reached t (t.next plan x s).2.1
  | restart {x : State t} (h : Reached t x) : Reached t (t.restart x)
  | hear (plan : S) (e : Event) {x : State t} (h : Reached t x) : Reached t (t.hear plan e x)

theorem Reached.sane {t : Tree S V} {x : State t} (h : t.Reached x) : t.Sane x := by
  induction h with
  | fresh => exact sane_fresh t
  | next plan s _ ih => exact Sane.next plan t _ ih s
  | restart _ ih => exact Sane.restart t _ ih
  | hear plan e _ ih => exact Sane.hear plan e t _ ih

mutual

/-- At `x` no bound cuts a loop short, neither at the root nor below: a random union draws until one
of its children yields a move or all are dry, and a filter draws until a move is kept or its child,
if it comes to an end, has no more. -/
def Returns (plan : S) : (t : Tree S V) → State t → Prop
  | change _ _, _ => True
  | swap _ _, _ => True
  | union children random weights, (u, x) =>
    let c : Children S V (States children) :=
      ⟨children.length, stepAt plan children, restartAt children⟩
    let now := u.weights.getD (weights.resolve children.length plan)
    (random → ∀ s, UnionWalk.Draws c now { u with weights := some now } x s
      (u.next c random weights plan x s)) ∧ ReturnsAll plan children x
  | product children _, (_, x) => ReturnsAll plan children x
  | filter child keep, x =>
    (child.isNeverEnding = false → ∀ s, Sieved (keep plan) (child.next plan) x s
      ((filter child keep).next plan x s)) ∧ Returns plan child x

def ReturnsAll (plan : S) : (ts : List (Tree S V)) → States ts → Prop
  | [], _ => True
  | t :: ts, (x, xs) => Returns plan t x ∧ ReturnsAll plan ts xs

end

mutual

theorem Sane.returns (plan : S) : (t : Tree S V) → (x : State t) → t.Sane x → t.Returns plan x
  | change _ _, _, _ => trivial
  | swap _ _, _, _ => trivial
  | union children random weights, (u, x), h => by
    refine ⟨fun hr s => ?_, SaneAll.returnsAll plan children x h.2⟩
    unfold UnionWalk.next
    rw [if_pos hr]
    refine UnionWalk.nextRandom_draws _ _ x s (Nat.lt_succ_of_le ?_)
    exact h.1 ▸ List.count_le_length
  | product children _, (_, x), h => SaneAll.returnsAll plan children x h
  | filter child keep, x, h => by
    refine ⟨fun hends s => ?_, Sane.returns plan child x h⟩
    show Sieved (keep plan) (child.next plan) x s (nextKept (keep plan) (child.next plan)
      (if isNeverEnding child then refusalLimit else supply plan child x + 1) x s)
    rw [hends]
    exact nextKept_sieved (stock_next plan child hends) _ x s
      (Nat.lt_succ_of_le (Sane.stock_le_supply plan child hends x h))

theorem SaneAll.returnsAll (plan : S) : (ts : List (Tree S V)) → (x : States ts) → SaneAll ts x →
    ReturnsAll plan ts x
  | [], _, _ => trivial
  | t :: ts, (x, xs), h => ⟨Sane.returns plan t x h.1, SaneAll.returnsAll plan ts xs h.2⟩

end

/-! ## Courses between restarts -/

/-- From `x₀` on, `n` moves were drawn for a plan, with no event in between that starts the walk
over; each draw may have a source of its own. -/
inductive Course (plan : S) (t : Tree S V) (x₀ : State t) : Nat → State t → Prop
  | start : Course plan t x₀ 0 x₀
  | next {n : Nat} {x : State t} (h : Course plan t x₀ n x) (s : Source) :
    Course plan t x₀ (n + yielded (t.next plan x s).1) (t.next plan x s).2.1
  | hear {n : Nat} {x : State t} (h : Course plan t x₀ n x) (q : S) {e : Event}
    (he : e.restarts = false) : Course plan t x₀ n (t.hear q e x)

mutual

theorem stock_hear (plan q : S) {e : Event} (he : e.restarts = false) : (t : Tree S V) →
    (x : State t) → t.stock plan (t.hear q e x) = t.stock plan x
  | change d _, (w : ChangeWalk V) => by
    show (w.hear e).stock plan d = w.stock plan d
    unfold ChangeWalk.hear EntityWalk.hear ValueWalk.hear
    simp only [he]
    rfl
  | swap x _, (w : SwapWalk) => by
    show ((w.hear e).left plan x).length = (w.left plan x).length
    unfold SwapWalk.hear SwapWalk.left
    simp only [he, Bool.or_false]
  | union children _ _, (_, x) =>
    congrArg (together children.length) (funext fun i => stockAt_hearAll plan q he children i x)
  | product children random, (w, x) => by
    show ProductWalk.stock random children.length (capacityAt plan children)
      (fun i => stockAt plan children i (hearAll q e children x)) (if e.restarts then {} else w) = _
    rw [he, funext fun i => stockAt_hearAll plan q he children i x]
    rfl
  | filter child _, x => stock_hear plan q he child x

theorem stockAt_hearAll (plan q : S) {e : Event} (he : e.restarts = false) :
    (ts : List (Tree S V)) → (i : Nat) → (x : States ts) →
      stockAt plan ts i (hearAll q e ts x) = stockAt plan ts i x
  | [], _, _ => rfl
  | t :: _, 0, (x, _) => by
    show (if isNeverEnding t then 0 else stock plan t (hear q e t x)) =
      if isNeverEnding t then 0 else stock plan t x
    rw [stock_hear plan q he t x]
  | _ :: ts, i + 1, (_, xs) => stockAt_hearAll plan q he ts i xs

end

theorem Course.stock_le {t : Tree S V} {x₀ x : State t} {n : Nat} (ht : t.isNeverEnding = false)
    (h : t.Course plan x₀ n x) : t.stock plan x + n ≤ t.stock plan x₀ := by
  induction h with
  | start => exact Nat.le_refl _
  | @next n x _ s ih =>
    have hnext := stock_next plan t ht x s
    exact Nat.le_trans (by omega) ih
  | hear _ q he ih =>
    rw [stock_hear plan q he t]
    exact ih

/-- Every call on a walk returns, whatever happened to it before; and if the tree does not claim to
go on without end, no more moves come from one restart to the next than its capacity, which depends
on the tree and the plan alone. -/
theorem returns_and_ends (t : Tree S V) :
    (∀ x, t.Reached x → ∀ plan : S, t.Returns plan x) ∧
      (t.isNeverEnding = false → ∀ (plan : S) (x₀ : State t), x₀ = t.fresh ∨ t.Restarted x₀ →
        ∀ n x, t.Course plan x₀ n x → n ≤ t.capacity plan) := by
  refine ⟨fun x hx plan => Sane.returns plan t x hx.sane, fun ht plan x₀ hx₀ n x hcourse => ?_⟩
  have hready : t.Ready x₀ := by
    rcases hx₀ with rfl | hx₀
    · exact ready_fresh t
    · exact hx₀.ready
  have hstock := hcourse.stock_le ht
  rw [stock_ready plan t x₀ hready] at hstock
  exact (Nat.le_add_left _ _).trans hstock

end PlanSearch.Tree

namespace PlanSearch.Row

/-- Each swap along with each draw of a change at random and another one in shuffled order, but for
those that a filter refuses. -/
def sieved : Tree Row Nat :=
  .filter
    (.product
      [.product [.change sevenOrEight .random, .change sevenOrEight .shuffled] true,
        .swap cell .shuffled]
      false)
    fun row m => m.isDoable row

/-- The random changes come to an end with the shuffled ones beside them: there are four of these, and
one swap for each. The capacity counts the first swap twice. -/
theorem returns_and_ends_sieved :
    let plan : Row := { cells := [none, some 7] }
    sieved.isNeverEnding = false ∧ sieved.capacity plan = 5 ∧
      sieved.Returns plan (sieved.restart (sieved.next plan sieved.fresh (.ofSeed 3)).2.1) ∧
        ∀ n x, sieved.Course plan (sieved.hear plan .stepStarted sieved.fresh) n x → n ≤ 5 := by
  intro plan
  obtain ⟨hreturns, hends⟩ := Tree.returns_and_ends sieved
  have hnever : sieved.isNeverEnding = false := rfl
  have hcapacity : sieved.capacity plan = 5 := by decide
  refine ⟨hnever, hcapacity, hreturns _ (.restart (.next plan _ .fresh)) plan, fun n x hx => ?_⟩
  rw [← hcapacity]
  exact hends hnever plan _ (.inr ⟨sieved.fresh, .inr ⟨plan, .stepStarted, rfl, rfl⟩⟩) n x hx

end PlanSearch.Row
