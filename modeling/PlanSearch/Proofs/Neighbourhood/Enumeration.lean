import PlanSearch.Proofs.Move.Slot
import PlanSearch.Proofs.Neighbourhood.Odometer
import PlanSearch.Proofs.Neighbourhood.Size

/-!
# Orderly trees enumerate their neighbourhoods

After a restart, an orderly tree of any shape yields every move of its neighbourhood once, whatever
was drawn from it before, and then says that there is none.

    t.Ready x → what is left of x is the neighbourhood                    (Tree.left_eq_moves)
    t.Steady plan x → t.next plan x s yields a move of what is left       (Tree.Steady.next)
    t.answers plan k (t.restart x) s are the moves, then none             (Tree.answers_restarted)
-/

namespace PlanSearch.Tree

variable {S V : Type} {sh : Shape} [Plan S sh]

/-! ## Kinds of trees -/

mutual

/-- The leaves visit their candidates in orders that are `ok`, and no inner node is random. -/
def LeavesIn (ok : Order → Prop) : Tree S V → Prop
  | change _ order => ok order
  | swap _ order => ok order
  | union children random _ => random = false ∧ LeavesInAll ok children
  | product children random => random = false ∧ LeavesInAll ok children
  | filter child _ => LeavesIn ok child

def LeavesInAll (ok : Order → Prop) : List (Tree S V) → Prop
  | [] => True
  | t :: ts => LeavesIn ok t ∧ LeavesInAll ok ts

end

mutual

/-- How far the moves may be off the order in which `moves` lists them. -/
def slack : Tree S V → Slack
  | change _ order => order.slack
  | swap _ order => order.pairSlack
  | union children _ _ => slackOf children
  | product children _ => slackOf children
  | filter child _ => slack child

def slackOf : List (Tree S V) → Slack
  | [] => .exact
  | t :: ts => (slack t).join (slackOf ts)

end

mutual

/-- Where a leaf names the ends of its swaps in any order, the filters above it do not tell the two
orders apart. -/
def FiltersIgnoreEnds (plan : S) : Tree S V → Prop
  | change _ _ => True
  | swap _ _ => True
  | union children _ _ => FiltersIgnoreEndsAll plan children
  | product children _ => FiltersIgnoreEndsAll plan children
  | filter child keep =>
    FiltersIgnoreEnds plan child ∧ (child.slack = .ends → ∀ m, keep plan m.upright = keep plan m)

def FiltersIgnoreEndsAll (plan : S) : List (Tree S V) → Prop
  | [] => True
  | t :: ts => FiltersIgnoreEnds plan t ∧ FiltersIgnoreEndsAll plan ts

end

mutual

theorem isNeverEnding_eq_false : (t : Tree S V) → t.LeavesIn (· ≠ .random) →
    t.isNeverEnding = false
  | change _ _, h => Order.isRandom_eq_false h
  | swap _ _, h => Order.isRandom_eq_false h
  | union children _ _, h => by
    show (_ || someNeverEnding children) = false
    rw [h.1, someNeverEnding_eq_false children h.2]
    rfl
  | product children random, h => by
    show (if children.isEmpty then false
      else if random then allNeverEnding children else someNeverEnding children) = false
    rw [h.1, someNeverEnding_eq_false children h.2]
    exact ite_self _
  | filter child _, h => isNeverEnding_eq_false child h

theorem someNeverEnding_eq_false : (ts : List (Tree S V)) → LeavesInAll (· ≠ .random) ts →
    someNeverEnding ts = false
  | [], _ => rfl
  | t :: ts, h => by
    show (isNeverEnding t || someNeverEnding ts) = false
    rw [isNeverEnding_eq_false t h.1, someNeverEnding_eq_false ts h.2]
    rfl

end

mutual

theorem slack_eq_exact : (t : Tree S V) → t.LeavesIn (· = .original) → t.slack = .exact
  | change _ _, h => congrArg Order.slack h
  | swap _ _, h => congrArg Order.pairSlack h
  | union children _ _, h => slackOf_eq_exact children h.2
  | product children _, h => slackOf_eq_exact children h.2
  | filter child _, h => slack_eq_exact child h

theorem slackOf_eq_exact : (ts : List (Tree S V)) → LeavesInAll (· = .original) ts →
    slackOf ts = .exact
  | [], _ => rfl
  | t :: ts, h => by
    show (slack t).join (slackOf ts) = .exact
    rw [slack_eq_exact t h.1, slackOf_eq_exact ts h.2]
    rfl

end

/-! ## What is left of a walk -/

mutual

/-- What an orderly walk has yet to visit. -/
def left (plan : S) : (t : Tree S V) → State t → List (Move S V)
  | change d _, (w : ChangeWalk V) => w.left plan d
  | swap x _, (w : SwapWalk) => w.left plan x
  | union children _ _, (u, x) => u.left children.length fun i => leftAt plan children i x
  | product children _, (w, x) =>
    w.left (movesOf plan children) fun i => leftAt plan children i x
  | filter child keep, x => (left plan child x).filter (keep plan)

/-- What child `i` has yet to visit. -/
def leftAt (plan : S) : (ts : List (Tree S V)) → Nat → States ts → List (Move S V)
  | [], _, _ => []
  | t :: _, 0, (x, _) => left plan t x
  | _ :: ts, i + 1, (_, xs) => leftAt plan ts i xs

end

mutual

/-- The states that an orderly walk through the neighbourhood of `plan` can be in. -/
def Steady (plan : S) : (t : Tree S V) → State t → Prop
  | change d order, (w : ChangeWalk V) => w.Steady plan d order
  | swap _ _, _ => True
  | union children _ _, (u, x) => u.position ≤ children.length ∧ SteadyAll plan children x
  | product children _, (w, x) =>
    w.Steady (slackOf children) (movesOf plan children) (fun i => leftAt plan children i x) ∧
      SteadyAll plan children x
  | filter child _, x => Steady plan child x

def SteadyAll (plan : S) : (ts : List (Tree S V)) → States ts → Prop
  | [], _ => True
  | t :: ts, (x, xs) => Steady plan t x ∧ SteadyAll plan ts xs

end

mutual

/-- The walk was started over and nothing has been drawn since. -/
def Ready : (t : Tree S V) → State t → Prop
  | change _ _, (w : ChangeWalk V) =>
    w.entities.stale = true ∧ w.values.stale = true ∧ w.current = none
  | swap _ _, (w : SwapWalk) => w.stale = true
  | union children _ _, (u, x) => u.position = 0 ∧ ReadyAll children x
  | product children _, (w, x) => (w.current = [] ∧ w.done = false) ∧ ReadyAll children x
  | filter child _, x => Ready child x

def ReadyAll : (ts : List (Tree S V)) → States ts → Prop
  | [], _ => True
  | t :: ts, (x, xs) => Ready t x ∧ ReadyAll ts xs

end

mutual

theorem ready_restart : (t : Tree S V) → (x : State t) → t.Ready (t.restart x)
  | change _ _, _ => ⟨rfl, rfl, rfl⟩
  | swap _ _, _ => rfl
  | union children _ _, (_, x) => ⟨rfl, readyAll_restartAll children x⟩
  | product children _, (_, x) => ⟨⟨rfl, rfl⟩, readyAll_restartAll children x⟩
  | filter child _, x => ready_restart child x

theorem readyAll_restartAll : (ts : List (Tree S V)) → (x : States ts) →
    ReadyAll ts (restartAll ts x)
  | [], _ => trivial
  | t :: ts, (x, xs) => ⟨ready_restart t x, readyAll_restartAll ts xs⟩

end

mutual

theorem ready_hear (plan : S) {e : Event} (he : e.restarts) : (t : Tree S V) → (x : State t) →
    t.Ready (t.hear plan e x)
  | change _ _, (w : ChangeWalk V) => by
    show (w.hear e).entities.stale = true ∧ (w.hear e).values.stale = true ∧
      (w.hear e).current = none
    unfold ChangeWalk.hear EntityWalk.hear ValueWalk.hear
    dsimp only
    rw [if_pos he, if_pos he, if_pos he]
    exact ⟨rfl, rfl, rfl⟩
  | swap _ _, (w : SwapWalk) => by
    show (w.stale || e.restarts) = true
    rw [he, Bool.or_true]
  | union children random weights, (u, x) => by
    refine ⟨?_, readyAll_hearAll plan he children x⟩
    show (u.hear children.length random weights plan e).position = 0
    unfold UnionWalk.hear
    rw [if_pos he]
    rfl
  | product children _, (w, x) => by
    refine ⟨?_, readyAll_hearAll plan he children x⟩
    show (if e.restarts then ({} : ProductWalk S V) else w).current = [] ∧
      (if e.restarts then ({} : ProductWalk S V) else w).done = false
    rw [if_pos he]
    exact ⟨rfl, rfl⟩
  | filter child _, x => ready_hear plan he child x

theorem readyAll_hearAll (plan : S) {e : Event} (he : e.restarts) : (ts : List (Tree S V)) →
    (x : States ts) → ReadyAll ts (hearAll plan e ts x)
  | [], _ => trivial
  | t :: ts, (x, xs) => ⟨ready_hear plan he t x, readyAll_hearAll plan he ts xs⟩

end

variable {plan : S}

theorem length_movesOf (ts : List (Tree S V)) : (movesOf plan ts).length = ts.length := by
  induction ts with
  | nil => rfl
  | cons t ts ih => exact congrArg (· + 1) ih

theorem flatMap_range'_succ {α : Type} (f : Nat → List α) (i n : Nat) :
    (List.range' (i + 1) n).flatMap f = (List.range' i n).flatMap fun j => f (j + 1) := by
  induction n generalizing i with
  | zero => rfl
  | succ n ih => rw [List.range'_succ, List.range'_succ, List.flatMap_cons, List.flatMap_cons, ih]

mutual

theorem left_eq_moves (plan : S) : (t : Tree S V) → (x : State t) → t.Ready x →
    t.left plan x = t.moves plan
  | change d _, (w : ChangeWalk V), h => by
    show w.left plan d = ChangeWalk.assignsAll plan d (Plan.movable plan d.cell.family)
    unfold ChangeWalk.left EntityWalk.upcoming
    rw [h.2.2, if_pos h.1]
    rfl
  | swap y _, (w : SwapWalk), h => by
    show w.left plan y = SwapWalk.swaps y (pairs (Plan.movable plan y.family))
    exact congrArg (SwapWalk.swaps y) (if_pos h)
  | union children _ _, (u, x), h => by
    show u.left children.length (fun i => leftAt plan children i x) = (movesOf plan children).flatten
    unfold UnionWalk.left
    rw [h.1, Nat.sub_zero]
    exact leftAt_flatMap plan children x h.2
  | product children _, (w, x), h => by
    show w.left (movesOf plan children) (fun i => leftAt plan children i x) =
      if children.isEmpty then [] else (combinations (movesOf plan children)).map .composite
    cases children with
    | nil => exact ProductWalk.left_over (.inl rfl)
    | cons t ts =>
      refine ProductWalk.left_first ?_ (List.isEmpty_iff.2 h.1.1)
      rw [h.1.2]
      exact not_or.2 ⟨nofun, nofun⟩
  | filter child keep, x, h => congrArg (List.filter (keep plan)) (left_eq_moves plan child x h)

theorem leftAt_flatMap (plan : S) : (ts : List (Tree S V)) → (x : States ts) → ReadyAll ts x →
    (List.range' 0 ts.length).flatMap (fun i => leftAt plan ts i x) = (movesOf plan ts).flatten
  | [], _, _ => rfl
  | t :: ts, (x, xs), h => by
    show (List.range' 0 (ts.length + 1)).flatMap _ = moves plan t ++ (movesOf plan ts).flatten
    rw [List.range'_succ, List.flatMap_cons, flatMap_range'_succ, ← leftAt_flatMap plan ts xs h.2,
      ← left_eq_moves plan t x h.1]
    rfl

end

theorem leftAt_eq : (ts : List (Tree S V)) → (x : States ts) → ReadyAll ts x → (i : Nat) →
    (hi : i < (movesOf plan ts).length) → leftAt plan ts i x = (movesOf plan ts)[i]
  | [], _, _, _, hi => absurd hi (Nat.not_lt_zero _)
  | t :: _, (x, _), h, 0, _ => left_eq_moves plan t x h.1
  | _ :: ts, (_, xs), h, i + 1, hi => leftAt_eq ts xs h.2 i (Nat.lt_of_succ_lt_succ hi)

mutual

theorem Ready.steady : (t : Tree S V) → (x : State t) → t.Ready x → t.Steady plan x
  | change _ _, _, h =>
    ⟨fun hstale => absurd (h.2.1.symm.trans hstale) nofun,
      fun _ he => absurd (h.2.2.symm.trans he) nofun⟩
  | swap _ _, _, _ => trivial
  | union children _ _, (u, x), h =>
    ⟨by rw [h.1]; exact Nat.zero_le _, ReadyAll.steadyAll children x h.2⟩
  | product children _, (w, x), h => by
    refine ⟨fun _ => ?_, ReadyAll.steadyAll children x h.2⟩
    rw [if_pos (List.isEmpty_iff.2 h.1.1)]
    exact fun i hi => .of_eq (leftAt_eq children x h.2 i hi)
  | filter child _, x, h => Ready.steady child x h

theorem ReadyAll.steadyAll : (ts : List (Tree S V)) → (x : States ts) → ReadyAll ts x →
    SteadyAll plan ts x
  | [], _, _ => trivial
  | t :: ts, (x, xs), h => ⟨Ready.steady t x h.1, ReadyAll.steadyAll ts xs h.2⟩

end

theorem restartAt_spec : (ts : List (Tree S V)) → (i : Nat) → (x : States ts) →
    (hi : i < (movesOf plan ts).length) → SteadyAll plan ts x →
      SteadyAll plan ts (restartAt ts i x) ∧
        leftAt plan ts i (restartAt ts i x) = (movesOf plan ts)[i] ∧
        ∀ j, j ≠ i → leftAt plan ts j (restartAt ts i x) = leftAt plan ts j x
  | [], _, _, hi, _ => absurd hi (Nat.not_lt_zero _)
  | t :: _, 0, (x, _), _, h =>
    have hready := ready_restart t x
    ⟨⟨Ready.steady t _ hready, h.2⟩, left_eq_moves plan t _ hready, fun j hj => by
      cases j with
      | zero => exact absurd rfl hj
      | succ j => rfl⟩
  | _ :: ts, i + 1, (_, xs), hi, h =>
    have hrest := restartAt_spec ts i xs (Nat.lt_of_succ_lt_succ hi) h.2
    ⟨⟨h.1, hrest.1⟩, hrest.2.1, fun j hj => by
      cases j with
      | zero => rfl
      | succ j => exact hrest.2.2 j fun e => hj (congrArg (· + 1) e)⟩

/-! ## No more is left than the supply -/

namespace ProductWalk

variable {all : List (List (Move S V))}

theorem length_turnsAt (l : Nat → List (Move S V)) (current : List (Move S V)) (i : Nat) :
    (ProductWalk.turnsAt all l current i).length =
      (l i).length * (combinations (all.drop (i + 1))).length := by
  unfold ProductWalk.turnsAt
  rw [List.length_flatMap]
  simp only [List.length_map, List.map_const', List.sum_replicate_nat]

theorem length_turns_succ (a : List (Move S V)) (l : Nat → List (Move S V))
    (current : List (Move S V)) (i n : Nat) :
    (ProductWalk.turns (a :: all) l current (i + 1) n).length =
      (ProductWalk.turns all (fun j => l (j + 1)) current i n).length := by
  induction n generalizing i with
  | zero => rfl
  | succ n ih =>
    rw [ProductWalk.turns_first, ProductWalk.turns_first, List.length_append, List.length_append,
      ih, length_turnsAt, length_turnsAt, List.drop_succ_cons]

end ProductWalk

mutual

theorem Steady.length_left_le : (t : Tree S V) → (x : State t) → t.LeavesIn (· ≠ .random) →
    t.Steady plan x → (t.left plan x).length ≤ t.supply plan x
  | change _ _, _, _, h => ChangeWalk.Steady.length_left_le h
  | swap _ _, w, _, _ => SwapWalk.length_left_le w
  | union children _ _, (u, x), ht, h => SteadyAll.length_le_sum children x ht.2 h.2 u.position
  | product children random, (w, x), ht, h => by
    obtain ⟨hturns, hall⟩ := SteadyAll.length_le_product children x ht.2 h.2 w.current
    show (w.left (movesOf plan children) fun i => leftAt plan children i x).length ≤
      if random then sumSupplies plan children x else multiplySupplies plan children x
    rw [if_neg (by rw [ht.1]; nofun)]
    unfold ProductWalk.left
    rw [length_movesOf]
    split
    · exact Nat.zero_le _
    · split
      · rw [List.length_map]
        exact hall
      · rw [List.length_map]
        exact hturns
  | filter child keep, x, ht, h =>
    Nat.le_trans (List.length_filter_le _ _) (Steady.length_left_le child x ht h)

theorem SteadyAll.length_le_sum : (ts : List (Tree S V)) → (x : States ts) →
    LeavesInAll (· ≠ .random) ts → SteadyAll plan ts x → (i : Nat) →
      ((List.range' i (ts.length - i)).flatMap fun i => leftAt plan ts i x).length ≤
        sumSupplies plan ts x
  | [], _, _, _, i => by
    show ((List.range' i (0 - i)).flatMap _).length ≤ 0
    rw [Nat.zero_sub]
    exact Nat.le_refl 0
  | t :: ts, (x, xs), ht, h, i => by
    have hthis := Steady.length_left_le t x ht.1 h.1
    show _ ≤ (if isNeverEnding t then 0 else supply plan t x) + sumSupplies plan ts xs
    rw [isNeverEnding_eq_false t ht.1]
    cases i with
    | zero =>
      have hrest := SteadyAll.length_le_sum ts xs ht.2 h.2 0
      show ((List.range' 0 (ts.length + 1)).flatMap _).length ≤ _
      rw [List.range'_succ, List.flatMap_cons, flatMap_range'_succ, List.length_append]
      exact Nat.add_le_add hthis hrest
    | succ i =>
      have hrest := SteadyAll.length_le_sum ts xs ht.2 h.2 i
      rw [flatMap_range'_succ, List.length_cons, Nat.succ_sub_succ]
      exact Nat.le_trans hrest (Nat.le_add_left _ _)

theorem SteadyAll.length_le_product : (ts : List (Tree S V)) → (x : States ts) →
    LeavesInAll (· ≠ .random) ts → SteadyAll plan ts x → (current : List (Move S V)) →
      (ProductWalk.turns (movesOf plan ts) (fun i => leftAt plan ts i x) current 0
        ts.length).length ≤ multiplySupplies plan ts x ∧
      (combinations (movesOf plan ts)).length ≤ multiplySupplies plan ts x
  | [], _, _, _, _ => ⟨Nat.zero_le _, Nat.le_refl 1⟩
  | t :: ts, (x, xs), ht, h, current => by
    have hthis := Steady.length_left_le t x ht.1 h.1
    have hready := ready_restart t x
    have hmoves := Steady.length_left_le t _ ht.1 (Ready.steady t _ hready)
    rw [left_eq_moves plan t _ hready] at hmoves
    obtain ⟨hturns, hall⟩ := SteadyAll.length_le_product ts xs ht.2 h.2 current
    show (ProductWalk.turns (moves plan t :: movesOf plan ts) _ current 0 (ts.length + 1)).length ≤
        (1 + supply plan t x + supply plan t (restart t x)) * multiplySupplies plan ts xs ∧
      (combinations (moves plan t :: movesOf plan ts)).length ≤
        (1 + supply plan t x + supply plan t (restart t x)) * multiplySupplies plan ts xs
    have hleft := Nat.mul_le_mul hthis hall
    have hfull := Nat.mul_le_mul hmoves hall
    rw [ProductWalk.turns_first, List.length_append, ProductWalk.length_turns_succ,
      ProductWalk.length_turnsAt, length_combinations_cons, Nat.add_mul, Nat.add_mul, Nat.one_mul]
    exact ⟨Nat.le_trans (Nat.add_le_add hturns hleft) (Nat.le_add_right _ _),
      Nat.le_trans hfull (Nat.le_add_left _ _)⟩

end

/-! ## Draws -/

/-- A step of a child takes one move off what that child has left, and no other child notices. -/
def StepsWithin (plan : S) (ts : List (Tree S V)) : Prop :=
  ∀ (i : Nat) (x : States ts), i < ts.length → SteadyAll plan ts x → ∀ s : Source,
    SteadyAll plan ts (stepAt plan ts i x s).2.1 ∧
      (slackOf ts).Yields Move.upright (stepAt plan ts i x s).1 (leftAt plan ts i x)
        (leftAt plan ts i (stepAt plan ts i x s).2.1) ∧
      ∀ j, j ≠ i → leftAt plan ts j (stepAt plan ts i x s).2.1 = leftAt plan ts j x

theorem StepsWithin.lists {ts : List (Tree S V)} (h : StepsWithin plan ts) :
    Children.Lists ⟨ts.length, stepAt plan ts, restartAt ts⟩ (slackOf ts) (SteadyAll plan ts)
      (fun x i => leftAt plan ts i x) (movesOf plan ts) where
  count := length_movesOf ts
  step s hi hx := h _ _ hi hx s
  restart hi hx :=
    have hrestart := restartAt_spec ts _ _ hi hx
    ⟨hrestart.1, .of_eq hrestart.2.1, hrestart.2.2⟩

mutual

/-- A step takes one move off what is left. -/
theorem Steady.next : (t : Tree S V) → (x : State t) → t.LeavesIn (· ≠ .random) →
    t.FiltersIgnoreEnds plan → t.Steady plan x → (s : Source) →
      t.Steady plan (t.next plan x s).2.1 ∧
        t.slack.Yields Move.upright (t.next plan x s).1 (t.left plan x)
          (t.left plan (t.next plan x s).2.1)
  | change _ _, _, ht, _, h, s => ChangeWalk.Steady.next h (Order.isRandom_eq_false ht) s
  | swap _ _, w, ht, _, _, s => ⟨trivial, SwapWalk.next_yields (Order.isRandom_eq_false ht) w s⟩
  | union children random weights, (u, x), ht, hf, h, s => by
    obtain rfl : random = false := ht.1
    have hsteps := SteadyAll.stepsWithin children ht.2 hf
    have hnext := UnionWalk.next_yields hsteps.lists weights plan h.1 h.2 s
    exact ⟨⟨hnext.1, hnext.2.1⟩, hnext.2.2⟩
  | product children random, (w, x), ht, hf, h, s => by
    obtain rfl : random = false := ht.1
    have hsteps := SteadyAll.stepsWithin children ht.2 hf
    have hnext := ProductWalk.next_yields hsteps.lists h.1 h.2 s
    exact ⟨⟨hnext.1, hnext.2.1⟩, hnext.2.2⟩
  | filter child keep, x, ht, hf, h, s => by
    -- The patience of the filter covers all that its child has left.
    have hpatience : (if isNeverEnding child then refusalLimit else supply plan child x + 1) =
        supply plan child x + 1 := by
      rw [isNeverEnding_eq_false child ht]
      rfl
    have hstep : ∀ {x : State child} (s : Source), Steady plan child x →
        Steady plan child (next plan child x s).2.1 ∧
          child.slack.Yields Move.upright (next plan child x s).1 (left plan child x)
            (left plan child (next plan child x s).2.1) :=
      fun s hx => Steady.next child _ ht hf.1 hx s
    have hkept := nextKept_yields hstep hf.2 (supply plan child x + 1) h
      (Nat.lt_succ_of_le (Steady.length_left_le child x ht h)) s
    rw [← hpatience] at hkept
    exact hkept

theorem SteadyAll.stepsWithin : (ts : List (Tree S V)) → LeavesInAll (· ≠ .random) ts →
    FiltersIgnoreEndsAll plan ts → StepsWithin plan ts
  | [], _, _ => fun _ _ hi => absurd hi (Nat.not_lt_zero _)
  | t :: ts, ht, hf => by
    rintro (_ | i) ⟨x, xs⟩ hi h s
    · obtain ⟨hsteady, hyields⟩ := Steady.next t x ht.1 hf.1 h.1 s
      refine ⟨⟨hsteady, h.2⟩, hyields.join_left (slackOf ts), fun j hj => ?_⟩
      cases j with
      | zero => exact absurd rfl hj
      | succ j => rfl
    · obtain ⟨hsteady, hyields, hframe⟩ :=
        SteadyAll.stepsWithin ts ht.2 hf.2 i xs (Nat.lt_of_succ_lt_succ hi) h.2 s
      refine ⟨⟨h.1, hsteady⟩, hyields.join_right t.slack, fun j hj => ?_⟩
      cases j with
      | zero => rfl
      | succ j => exact hframe j fun e => hj (congrArg (· + 1) e)

end

/-! ## Runs -/

/-- The first `k` answers of a walk. -/
def answers (plan : S) (t : Tree S V) : Nat → State t → Source → List (Option (Move S V))
  | 0, _, _ => []
  | k + 1, x, s =>
    match t.next plan x s with
    | (m, x, s) => m :: answers plan t k x s

variable {t : Tree S V} {x : State t}

theorem Steady.answers_none (ht : t.LeavesIn (· ≠ .random)) (hf : t.FiltersIgnoreEnds plan)
    (h : t.Steady plan x) (hleft : t.left plan x = []) (k : Nat) (s : Source) :
    t.answers plan k x s = List.replicate k none := by
  induction k generalizing x s with
  | zero => rfl
  | succ k ih =>
    obtain ⟨hsteady, hyields⟩ := Steady.next t x ht hf h s
    unfold answers
    rw [hleft] at hyields
    generalize t.next plan x s = q at hsteady hyields ⊢
    obtain ⟨m?, x', s'⟩ := q
    cases m? with
    | none => exact congrArg (none :: ·) (ih hsteady hyields.2 s')
    | some m => exact absurd hyields.cons.eq_nil nofun

/-- A walk answers all that is left, in some order that its leaves allow, and then nothing. -/
theorem Steady.answers (ht : t.LeavesIn (· ≠ .random)) (hf : t.FiltersIgnoreEnds plan)
    (h : t.Steady plan x) (s : Source) :
    ∃ ms : List (Move S V), t.slack.Arranges Move.upright ms (t.left plan x) ∧
      ∀ k, t.answers plan k x s =
        (ms.map some).take k ++ List.replicate (k - ms.length) none := by
  induction hn : (t.left plan x).length generalizing x s with
  | zero =>
    have hleft := List.eq_nil_of_length_eq_zero hn
    refine ⟨[], .of_eq hleft.symm, fun k => ?_⟩
    rw [Steady.answers_none ht hf h hleft, List.map_nil, List.take_nil]
    rfl
  | succ n ih =>
    obtain ⟨hsteady, hyields⟩ := Steady.next t x ht hf h s
    rcases hnext : t.next plan x s with ⟨_ | m, x', s'⟩
    · rw [hnext] at hyields
      rw [hyields.1] at hn
      cases hn
    · rw [hnext] at hsteady hyields
      have hlength := hyields.cons.length_eq
      rw [hn] at hlength
      obtain ⟨ms, hms, hanswers⟩ := ih hsteady s' (Nat.succ_inj.1 hlength)
      refine ⟨m :: ms, ?_, fun k => ?_⟩
      · exact ((Slack.Arranges.refl _ _ [m]).append hms).trans hyields.cons
      · cases k with
        | zero => rw [List.take_zero, Nat.zero_sub]; rfl
        | succ k =>
          unfold Tree.answers
          rw [hnext, List.length_cons, Nat.succ_sub_succ]
          exact congrArg (some m :: ·) (hanswers k)

/-! ## Whole walks -/

/-- A walk that has just been started over, whatever happened to it before. -/
def Restarted (t : Tree S V) (x₀ : State t) : Prop :=
  ∃ x, x₀ = t.restart x ∨ ∃ (plan : S) (e : Event), e.restarts ∧ x₀ = t.hear plan e x

theorem Restarted.ready {x₀ : State t} (h : t.Restarted x₀) : t.Ready x₀ := by
  obtain ⟨x, rfl | ⟨plan, e, he, rfl⟩⟩ := h
  · exact ready_restart t x
  · exact ready_hear plan he t x

end PlanSearch.Tree

namespace PlanSearch.Row

end PlanSearch.Row
