import PlanSearch.Proofs.Neighbourhood.Orderly

/-!
# Orderly inner nodes

What a union, a product or a filter has yet to visit, given what each of its children has. A product
turns like an odometer: the children before the one that moves on keep their moves, and those behind
it start over. Hence what is left of it falls into one part for each child that has yet to turn.

    c.Lists → an orderly union yields what is left of its children        (UnionWalk.next_yields)
    c.Lists → an orderly product yields the combinations that are left     (ProductWalk.next_yields)
    a filter yields what it keeps of what is left of its child            (nextKept_yields)
-/

namespace PlanSearch

variable {S V σ : Type}

/-- Each child `i` has `lefts x i` yet to visit, of `all[i]` after a restart, and no child is changed
by a step or a restart of another one. -/
structure Children.Lists (c : Children S V σ) (k : Slack) (inv : σ → Prop)
    (lefts : σ → Nat → List (Move S V)) (all : List (List (Move S V))) : Prop where
  count : all.length = c.count
  step : ∀ {i : Nat} {x : σ} (s : Source), i < c.count → inv x →
    inv (c.step i x s).2.1 ∧
      k.Yields Move.upright (c.step i x s).1 (lefts x i) (lefts (c.step i x s).2.1 i) ∧
      ∀ j, j ≠ i → lefts (c.step i x s).2.1 j = lefts x j
  restart : ∀ {i : Nat} {x : σ} (hi : i < all.length), inv x →
    inv (c.restart i x) ∧ k.Arranges Move.upright (lefts (c.restart i x) i) all[i] ∧
      ∀ j, j ≠ i → lefts (c.restart i x) j = lefts x j

variable {c : Children S V σ} {k : Slack} {inv : σ → Prop} {lefts : σ → Nat → List (Move S V)}
  {all : List (List (Move S V))} {x : σ}

/-! ## Unions -/

namespace UnionWalk

/-- What an orderly union of `n` children has yet to visit. -/
def left (n : Nat) (lefts : Nat → List (Move S V)) (u : UnionWalk) : List (Move S V) :=
  (List.range' u.position (n - u.position)).flatMap lefts

theorem nextOrderly_yields (h : c.Lists k inv lefts all) (n : Nat) (u : UnionWalk) (hx : inv x)
    (hn : u.position + n = c.count) (s : Source) :
    (nextOrderly c n u x s).2.1.position ≤ c.count ∧ inv (nextOrderly c n u x s).2.2.1 ∧
      k.Yields Move.upright (nextOrderly c n u x s).1
        ((List.range' u.position n).flatMap (lefts x))
        ((nextOrderly c n u x s).2.1.left c.count (lefts (nextOrderly c n u x s).2.2.1)) := by
  induction n generalizing u x s with
  | zero =>
    refine ⟨Nat.le_of_eq hn, hx, rfl, ?_⟩
    show (List.range' u.position (c.count - u.position)).flatMap (lefts x) = []
    rw [← hn, Nat.add_sub_cancel_left]
    rfl
  | succ n ih =>
    obtain ⟨hinv, hyields, hframe⟩ := h.step (i := u.position) s (by omega) hx
    unfold nextOrderly
    generalize c.step u.position x s = q at hinv hyields hframe ⊢
    obtain ⟨m?, x', s'⟩ := q
    -- The children behind the current one are as they were.
    have hrest : (List.range' (u.position + 1) n).flatMap (lefts x') =
        (List.range' (u.position + 1) n).flatMap (lefts x) := by
      refine List.flatMap_congr fun j hj => hframe j ?_
      have := (List.mem_range'_1.1 hj).1
      omega
    rw [List.range'_succ, List.flatMap_cons, ← hrest]
    cases m? with
    | none =>
      rw [hyields.1]
      exact ih { u with position := u.position + 1 } hinv (by show u.position + 1 + n = _; omega) s'
    | some m =>
      refine ⟨by show u.position ≤ _; omega, hinv, ?_⟩
      have hleft : u.left c.count (lefts x') =
          lefts x' u.position ++ (List.range' (u.position + 1) n).flatMap (lefts x') := by
        unfold UnionWalk.left
        rw [show c.count - u.position = n + 1 by omega, List.range'_succ, List.flatMap_cons]
      show k.Arranges Move.upright (m :: u.left c.count (lefts x')) _
      rw [hleft]
      exact hyields.cons.append (.refl _ _ _)

theorem next_yields (h : c.Lists k inv lefts all) (weights : Weights S) (plan : S) {u : UnionWalk}
    (hu : u.position ≤ c.count) (hx : inv x) (s : Source) :
    (u.next c false weights plan x s).2.1.position ≤ c.count ∧
      inv (u.next c false weights plan x s).2.2.1 ∧
      k.Yields Move.upright (u.next c false weights plan x s).1 (u.left c.count (lefts x))
        ((u.next c false weights plan x s).2.1.left c.count
          (lefts (u.next c false weights plan x s).2.2.1)) :=
  nextOrderly_yields h (c.count - u.position) u hx (by omega) s

end UnionWalk

/-! ## Products -/

namespace ProductWalk

variable {current : List (Move S V)}

/-- The combinations that come up when child `i` moves on from its part of `current`. -/
def turnsAt (all : List (List (Move S V))) (lefts : Nat → List (Move S V))
    (current : List (Move S V)) (i : Nat) : List (List (Move S V)) :=
  (lefts i).flatMap fun m => (Tree.combinations (all.drop (i + 1))).map (current.take i ++ m :: ·)

/-- The combinations that come up when one of the `n` children from `i` on moves on, the last child
first. -/
def turns (all : List (List (Move S V))) (lefts : Nat → List (Move S V))
    (current : List (Move S V)) (i n : Nat) : List (List (Move S V)) :=
  (List.range' i n).reverse.flatMap (turnsAt all lefts current)

/-- What an orderly product has yet to visit. -/
def left (all : List (List (Move S V))) (lefts : Nat → List (Move S V)) (w : ProductWalk S V) :
    List (Move S V) :=
  if all.length = 0 ∨ w.done then []
  else if w.current.isEmpty then (Tree.combinations all).map .composite
  else (turns all lefts w.current 0 all.length).map .composite

/-- Before the first composite all children are full; from then on each has its part in it. -/
def Steady (k : Slack) (all : List (List (Move S V))) (lefts : Nat → List (Move S V))
    (w : ProductWalk S V) : Prop :=
  w.done = false →
    if w.current.isEmpty then ∀ i, (hi : i < all.length) → k.Arranges Move.upright (lefts i) all[i]
    else w.current.length = all.length

theorem turns_zero (l : Nat → List (Move S V)) (i : Nat) : turns all l current i 0 = [] := rfl

theorem turns_first (l : Nat → List (Move S V)) (i n : Nat) :
    turns all l current i (n + 1) = turns all l current (i + 1) n ++ turnsAt all l current i := by
  unfold turns
  rw [List.range'_succ, List.reverse_cons, List.flatMap_append, List.flatMap_singleton]

theorem turns_last (l : Nat → List (Move S V)) (n : Nat) :
    turns all l current 0 (n + 1) = turnsAt all l current n ++ turns all l current 0 n := by
  unfold turns
  rw [List.range'_1_concat, Nat.zero_add, List.reverse_append]
  rfl

theorem turns_split (l : Nat → List (Move S V)) {p n : Nat} (hp : p ≤ n) :
    turns all l current 0 n = turns all l current p (n - p) ++ turns all l current 0 p := by
  have hrange : List.range' 0 n = List.range' 0 p ++ List.range' p (n - p) := by
    have hsplit := List.range'_append_1 (s := 0) (m := p) (n := n - p)
    rw [Nat.zero_add, Nat.add_sub_cancel' hp] at hsplit
    exact hsplit.symm
  unfold turns
  rw [hrange, List.reverse_append, List.flatMap_append]

theorem turns_congr {l l' : Nat → List (Move S V)} {current' : List (Move S V)} {n : Nat}
    (hl : ∀ j, j < n → l j = l' j) (hc : ∀ j, j < n → current.take j = current'.take j) :
    turns all l current 0 n = turns all l' current' 0 n := by
  refine List.flatMap_congr fun j hj => ?_
  have hjn := (List.mem_range'_1.1 (List.mem_reverse.1 hj)).2
  unfold turnsAt
  rw [hl j (by omega), hc j (by omega)]

theorem turnsAt_append {l : Nat → List (Move S V)} {pre rest : List (Move S V)} {i : Nat}
    (hpre : pre.length = i) : turnsAt all l (pre ++ rest) i =
      (l i).flatMap fun a => (Tree.combinations (all.drop (i + 1))).map (pre ++ a :: ·) := by
  unfold turnsAt
  rw [List.take_left' hpre]

/-- A child without moves leaves no combination of those from there on. -/
theorem combinations_nil_of_le {i j : Nat} (hij : i ≤ j)
    (h : Tree.combinations (all.drop j) = []) : Tree.combinations (all.drop i) = [] := by
  induction hij with
  | refl => exact h
  | @step j hij ih =>
    refine ih ?_
    rcases Nat.lt_or_ge j all.length with hj | hj
    · rw [List.drop_eq_getElem_cons hj]
      show all[j].flatMap (fun m => (Tree.combinations (all.drop (j + 1))).map (m :: ·)) = []
      rw [h]
      exact List.flatMap_eq_nil_iff.2 fun _ _ => rfl
    · rw [List.drop_eq_nil_of_le (by omega)] at h
      cases h

/-- A child has the move `m` taken, and the combinations with it come first. -/
theorem arranges_turn {m : Move S V} {rest l : List (Move S V)} {pre : List (Move S V)}
    {first combos : List (List (Move S V))} (hl : k.Arranges Move.upright (m :: rest) l)
    (hfirst : k.Arranges (List.map Move.upright) first (combos.map ((pre ++ [m]) ++ ·))) :
    k.Arranges (List.map Move.upright)
      (first ++ rest.flatMap fun a => combos.map (pre ++ a :: ·))
      (l.flatMap fun a => combos.map (pre ++ a :: ·)) := by
  have hprefix (l : List (Move S V)) : (l.flatMap fun a => combos.map (pre ++ a :: ·)) =
      (l.flatMap fun a => combos.map (a :: ·)).map (pre ++ ·) := by
    rw [List.map_flatMap]
    refine congrArg (List.flatMap · l) (funext fun a => ?_)
    rw [List.map_map]
    rfl
  have hcons : combos.map ((pre ++ [m]) ++ ·) ++ rest.flatMap (fun a => combos.map (pre ++ a :: ·)) =
      (m :: rest).flatMap fun a => combos.map (pre ++ a :: ·) := by
    rw [List.flatMap_cons]
    refine congrArg (· ++ _) (List.map_congr_left fun ms _ => ?_)
    rw [List.append_assoc]
    rfl
  refine (hfirst.append (.refl _ _ _)).trans ?_
  rw [hcons, hprefix, hprefix]
  exact (hl.cons_product (.refl _ _ combos)).map (g := (pre.map Move.upright ++ ·))
    fun ms => List.map_append

/-- `q` holds the first moves of the `n` children from `i` on, in combination with which all others
are still to come, and the children before them are as they are in `x`. -/
def Starts (k : Slack) (inv : σ → Prop) (lefts : σ → Nat → List (Move S V))
    (all : List (List (Move S V))) (n i : Nat) (x : σ)
    (q : Option (List (Move S V)) × σ × Source) : Prop :=
  inv q.2.1 ∧ (∀ j, j < i → lefts q.2.1 j = lefts x j) ∧
    match q.1 with
    | none => Tree.combinations (all.drop i) = []
    | some ms => ms.length = n ∧ ∀ pre : List (Move S V), pre.length = i →
      k.Arranges (List.map Move.upright) ((pre ++ ms) :: turns all (lefts q.2.1) (pre ++ ms) i n)
        ((Tree.combinations (all.drop i)).map (pre ++ ·))

theorem starts_zero {i : Nat} (hi : all.length ≤ i) (hx : inv x) (s : Source) :
    Starts k inv lefts all 0 i x (some [], x, s) := by
  refine ⟨hx, fun _ _ => rfl, rfl, fun pre _ => .of_eq ?_⟩
  rw [List.drop_eq_nil_of_le hi, turns_zero]
  rfl

theorem starts_none (h : c.Lists k inv lefts all) {n i : Nat} {y : σ} {s : Source}
    (hi : i < all.length) (hy : inv y) (hfull : k.Arranges Move.upright (lefts y i) all[i])
    (hframe : ∀ j, j < i → lefts y j = lefts x j) (hm : (c.step i y s).1 = none) :
    Starts k inv lefts all (n + 1) i x (none, (c.step i y s).2.1, (c.step i y s).2.2) := by
  obtain ⟨hinv, hyields, hframe'⟩ := h.step s (h.count ▸ hi) hy
  rw [hm] at hyields
  refine ⟨hinv, fun j hj => (hframe' j (by omega)).trans (hframe j hj), ?_⟩
  rw [hyields.1] at hfull
  show Tree.combinations (all.drop i) = []
  rw [List.drop_eq_getElem_cons hi, hfull.symm.eq_nil]
  rfl

/-- Child `i` of `y` starts, then the children behind it do. -/
theorem starts_succ (h : c.Lists k inv lefts all) {n i : Nat} {y x' : σ} {s s' : Source}
    {m : Move S V} {q : Option (List (Move S V)) × σ × Source}
    (hi : i < all.length) (hy : inv y) (hfull : k.Arranges Move.upright (lefts y i) all[i])
    (hframe : ∀ j, j < i → lefts y j = lefts x j) (hm : c.step i y s = (some m, x', s'))
    (hq : Starts k inv lefts all n (i + 1) x' q) :
    Starts k inv lefts all (n + 1) i x (q.1.map (m :: ·), q.2) := by
  obtain ⟨hinv, hyields, hframe'⟩ := h.step s (h.count ▸ hi) hy
  rw [hm] at hyields hframe'
  obtain ⟨ms?, x'', s''⟩ := q
  obtain ⟨hinv', hbefore, hq⟩ := hq
  refine ⟨hinv', fun j hj => ?_, ?_⟩
  · exact (hbefore j (by omega)).trans ((hframe' j (by omega)).trans (hframe j hj))
  cases ms? with
  | none => exact combinations_nil_of_le (Nat.le_succ i) hq
  | some ms =>
    obtain ⟨hlength, hrest⟩ := hq
    refine ⟨congrArg (· + 1) hlength, fun pre hpre => ?_⟩
    have hrest := hrest (pre ++ [m]) (by rw [List.length_append, hpre]; rfl)
    rw [List.append_assoc, List.singleton_append] at hrest
    have hall : (Tree.combinations (all.drop i)).map (pre ++ ·) = all[i].flatMap fun a =>
        (Tree.combinations (all.drop (i + 1))).map (pre ++ a :: ·) := by
      rw [List.drop_eq_getElem_cons hi]
      show (all[i].flatMap fun a => (Tree.combinations (all.drop (i + 1))).map (a :: ·)).map _ = _
      rw [List.map_flatMap]
      refine congrArg (List.flatMap · all[i]) (funext fun a => ?_)
      rw [List.map_map]
      rfl
    show k.Arranges (List.map Move.upright)
      ((pre ++ m :: ms) :: turns all (lefts x'') (pre ++ m :: ms) i (n + 1)) _
    rw [turns_first, turnsAt_append hpre, hbefore i (Nat.lt_succ_self i), hall, ← List.cons_append]
    exact arranges_turn (hyields.cons.trans hfull) hrest

theorem firstParts_starts (h : c.Lists k inv lefts all) (n i : Nat) (hx : inv x)
    (hn : i + n = all.length) (s : Source) :
    Starts k inv lefts all n i x (firstParts c n i x s) := by
  induction n generalizing i x s with
  | zero => exact starts_zero (by omega) hx s
  | succ n ih =>
    have hi : i < all.length := by omega
    obtain ⟨hy, hfull, hframe⟩ := h.restart hi hx
    have hnone := starts_none h (n := n) (s := s) hi hy hfull fun j hj => hframe j (by omega)
    have hinv := (h.step s (h.count ▸ hi) hy).1
    unfold firstParts
    rcases hstep : c.step i (c.restart i x) s with ⟨_ | m, x', s'⟩
    · rw [hstep] at hnone
      exact hnone rfl
    · rw [hstep] at hinv
      have hsome := starts_succ h hi hy hfull (fun j hj => hframe j (by omega)) hstep
        (ih (i + 1) hinv (by omega) s')
      dsimp only
      generalize firstParts c n (i + 1) x' s' = q at hsome ⊢
      obtain ⟨_ | ms, x'', s''⟩ := q
      · exact hsome
      · exact hsome

theorem parts_starts (h : c.Lists k inv lefts all) (n i : Nat) (hx : inv x)
    (hn : i + n = all.length)
    (hfull : ∀ j, (hj : j < all.length) → i ≤ j → k.Arranges Move.upright (lefts x j) all[j])
    (s : Source) : Starts k inv lefts all n i x (parts c n i x s) := by
  induction n generalizing i x s with
  | zero => exact starts_zero (by omega) hx s
  | succ n ih =>
    have hi : i < all.length := by omega
    have hnone := starts_none h (n := n) (s := s) hi hx (hfull i hi (Nat.le_refl i)) fun _ _ => rfl
    obtain ⟨hinv, -, hframe⟩ := h.step s (h.count ▸ hi) hx
    unfold parts
    rcases hstep : c.step i x s with ⟨_ | m, x', s'⟩
    · rw [hstep] at hnone
      exact hnone rfl
    · rw [hstep] at hinv hframe
      have hrest (j : Nat) (hj : j < all.length) (hij : i + 1 ≤ j) :
          k.Arranges Move.upright (lefts x' j) all[j] := by
        rw [hframe j (by omega)]
        exact hfull j hj (by omega)
      have hsome := starts_succ h hi hx (hfull i hi (Nat.le_refl i)) (fun _ _ => rfl) hstep
        (ih (i + 1) hinv (by omega) hrest s')
      dsimp only
      generalize parts c n (i + 1) x' s' = q at hsome ⊢
      obtain ⟨_ | ms, x'', s''⟩ := q
      · exact hsome
      · exact hsome

/-- The last child that has another move turns, and the combinations that were left are the new one
and those that are left then. -/
theorem turn_yields (h : c.Lists k inv lefts all) (hc : current.length = all.length) (p : Nat)
    (hx : inv x) (hp : p ≤ all.length) (s : Source) :
    inv (turn c current p x s).2.1 ∧
      match (turn c current p x s).1 with
      | none => turns all (lefts x) current 0 p = []
      | some ms => ms.length = all.length ∧
        k.Arranges (List.map Move.upright)
          (ms :: turns all (lefts (turn c current p x s).2.1) ms 0 all.length)
          (turns all (lefts x) current 0 p) := by
  induction p generalizing x s with
  | zero => exact ⟨hx, rfl⟩
  | succ p ih =>
    obtain ⟨hinv, hyields, hframe⟩ := h.step (i := p) s (h.count ▸ hp) hx
    unfold turn
    rw [turns_last]
    generalize c.step p x s = q at hinv hyields hframe ⊢
    obtain ⟨m?, x', s'⟩ := q
    have hbefore : turns all (lefts x) current 0 p = turns all (lefts x') current 0 p :=
      turns_congr (fun j hj => (hframe j (by omega)).symm) fun _ _ => rfl
    cases m? with
    | none =>
      have hnil : turnsAt all (lefts x) current p = [] := by
        unfold turnsAt
        rw [hyields.1]
        rfl
      rw [hnil, List.nil_append, hbefore]
      exact ih hinv (by omega) s'
    | some m =>
      have hstarts := firstParts_starts h (all.length - (p + 1)) (p + 1) hinv (by omega) s'
      rw [← h.count]
      dsimp only
      generalize firstParts c (all.length - (p + 1)) (p + 1) x' s' = r at hstarts ⊢
      obtain ⟨ms?, x'', s''⟩ := r
      obtain ⟨hinv', hkeep, hstarts⟩ := hstarts
      refine ⟨?_, ?_⟩
      · cases ms? with
        | none => exact hinv'
        | some ms => exact hinv'
      cases ms? with
      | none =>
        -- A child behind has no moves at all, so there are no combinations.
        rw [← turns_last]
        refine List.flatMap_eq_nil_iff.2 fun j hj => ?_
        have hjp := (List.mem_range'_1.1 (List.mem_reverse.1 hj)).2
        unfold turnsAt
        rw [combinations_nil_of_le (i := j + 1) (by omega) hstarts]
        exact List.flatMap_eq_nil_iff.2 fun _ _ => rfl
      | some ms =>
        obtain ⟨hlength, hstarts⟩ := hstarts
        have htake : (current.take p).length = p := List.length_take_of_le (by omega)
        have hnew := hstarts (current.take p ++ [m]) (by rw [List.length_append, htake]; rfl)
        rw [List.append_assoc, List.singleton_append] at hnew
        refine ⟨by rw [List.length_append, htake, List.length_cons, hlength]; omega, ?_⟩
        dsimp only
        rw [turns_split _ hp, turns_last, ← List.append_assoc, ← List.cons_append]
        have hsame : turns all (lefts x'') (current.take p ++ m :: ms) 0 p =
            turns all (lefts x) current 0 p := by
          refine turns_congr (fun j hj => ?_) fun j hj => ?_
          · exact (hkeep j (by omega)).trans (hframe j (by omega))
          · rw [List.take_append_of_le_length (by omega), List.take_take, Nat.min_eq_left (by omega)]
        rw [turnsAt_append htake, hkeep p (Nat.lt_succ_self p), hsame]
        exact (arranges_turn hyields.cons hnew).append (.refl _ _ _)

variable {w : ProductWalk S V}

theorem left_over {l : Nat → List (Move S V)} (h : all.length = 0 ∨ w.done) : w.left all l = [] :=
  if_pos h

theorem left_first {l : Nat → List (Move S V)} (h : ¬(all.length = 0 ∨ w.done))
    (hw : w.current.isEmpty) : w.left all l = (Tree.combinations all).map .composite := by
  unfold ProductWalk.left
  rw [if_neg h, if_pos hw]

theorem left_next {l : Nat → List (Move S V)} (h : ¬(all.length = 0 ∨ w.done))
    (hw : w.current.length = all.length) :
    ¬w.current.isEmpty ∧
      w.left all l = (turns all l w.current 0 all.length).map .composite := by
  have hne : ¬w.current.isEmpty := fun hnil => h (.inl (by rw [← hw, List.isEmpty_iff.1 hnil]; rfl))
  refine ⟨hne, ?_⟩
  unfold ProductWalk.left
  rw [if_neg h, if_neg hne]

theorem arranges_composites {ls ls' : List (List (Move S V))}
    (h : k.Arranges (List.map Move.upright) ls ls') :
    k.Arranges Move.upright (ls.map .composite) (ls'.map .composite) :=
  h.map (g := .composite) Move.upright_composite

theorem nextOrderly_yields (h : c.Lists k inv lefts all) (hgoing : ¬(all.length = 0 ∨ w.done))
    (hw : w.Steady k all (lefts x)) (hx : inv x) (s : Source) :
    (w.nextOrderly c x s).2.1.Steady k all (lefts (w.nextOrderly c x s).2.2.1) ∧
      inv (w.nextOrderly c x s).2.2.1 ∧
      k.Yields Move.upright (w.nextOrderly c x s).1 (w.left all (lefts x))
        ((w.nextOrderly c x s).2.1.left all (lefts (w.nextOrderly c x s).2.2.1)) := by
  have hw := hw (Bool.not_eq_true _ ▸ (not_or.1 hgoing).2)
  unfold ProductWalk.nextOrderly
  split
  · next hempty =>
    rw [if_pos hempty] at hw
    rw [left_first hgoing hempty, ← h.count]
    have hparts := parts_starts h all.length 0 hx (Nat.zero_add _) (fun i hi _ => hw i hi) s
    generalize parts c all.length 0 x s = q at hparts ⊢
    obtain ⟨ms?, x', s'⟩ := q
    obtain ⟨hinv, -, hparts⟩ := hparts
    rw [List.drop_zero] at hparts
    cases ms? with
    | none => exact ⟨nofun, hinv, congrArg (List.map Move.composite) hparts, left_over (.inr rfl)⟩
    | some ms =>
      have hfirst := hparts.2 [] rfl
      have hnext := left_next (w := { w with current := ms }) (l := lefts x') hgoing hparts.1
      refine ⟨fun _ => ?_, hinv, ?_⟩
      · rw [if_neg hnext.1]
        exact hparts.1
      · show k.Arranges Move.upright (_ :: ProductWalk.left all (lefts x') { w with current := ms }) _
        rw [hnext.2]
        exact (arranges_composites hfirst).trans (.of_eq (congrArg _ (List.map_id' _)))
  · next hempty =>
    rw [if_neg hempty] at hw
    rw [(left_next hgoing hw).2, ← h.count]
    have hturn := turn_yields h hw all.length hx (Nat.le_refl _) s
    generalize turn c w.current all.length x s = q at hturn ⊢
    obtain ⟨ms?, x', s'⟩ := q
    obtain ⟨hinv, hturn⟩ := hturn
    cases ms? with
    | none => exact ⟨nofun, hinv, congrArg (List.map Move.composite) hturn, left_over (.inr rfl)⟩
    | some ms =>
      have hnext := left_next (w := { w with current := ms }) (l := lefts x') hgoing hturn.1
      refine ⟨fun _ => ?_, hinv, ?_⟩
      · rw [if_neg hnext.1]
        exact hturn.1
      · show k.Arranges Move.upright (_ :: ProductWalk.left all (lefts x') { w with current := ms }) _
        rw [hnext.2]
        exact arranges_composites hturn.2

theorem next_yields (h : c.Lists k inv lefts all) (hw : w.Steady k all (lefts x)) (hx : inv x)
    (s : Source) :
    (w.next c false x s).2.1.Steady k all (lefts (w.next c false x s).2.2.1) ∧
      inv (w.next c false x s).2.2.1 ∧
      k.Yields Move.upright (w.next c false x s).1 (w.left all (lefts x))
        ((w.next c false x s).2.1.left all (lefts (w.next c false x s).2.2.1)) := by
  unfold ProductWalk.next
  split
  · next hover =>
    rw [← h.count] at hover
    exact ⟨hw, hx, left_over hover, left_over hover⟩
  · next hgoing =>
    rw [← h.count] at hgoing
    exact nextOrderly_yields h hgoing hw hx s

end ProductWalk

/-! ## Filters -/

theorem nextKept_yields {lefts : σ → List (Move S V)} {keep : Move S V → Bool}
    {step : σ → Source → Option (Move S V) × σ × Source}
    (hstep : ∀ {x : σ} (s : Source), inv x →
      inv (step x s).2.1 ∧ k.Yields Move.upright (step x s).1 (lefts x) (lefts (step x s).2.1))
    (hkeep : k = .ends → ∀ m, keep m.upright = keep m) (n : Nat) (hx : inv x)
    (hn : (lefts x).length < n) (s : Source) :
    inv (nextKept keep step n x s).2.1 ∧
      k.Yields Move.upright (nextKept keep step n x s).1 ((lefts x).filter keep)
        ((lefts (nextKept keep step n x s).2.1).filter keep) := by
  induction n generalizing x s with
  | zero => exact absurd hn (Nat.not_lt_zero _)
  | succ n ih =>
    obtain ⟨hinv, hyields⟩ := hstep s hx
    unfold nextKept
    generalize step x s = q at hinv hyields ⊢
    obtain ⟨m?, x', s'⟩ := q
    cases m? with
    | none =>
      obtain ⟨hbefore, hafter⟩ := hyields
      dsimp only at hafter
      refine ⟨hinv, ?_, ?_⟩
      · rw [hbefore]
        rfl
      · show (lefts x').filter keep = []
        rw [hafter]
        rfl
    | some m =>
      have hlength := hyields.cons.length_eq
      have hfilter := hyields.cons.filter hkeep
      rw [List.length_cons] at hlength
      dsimp only
      split
      · next hm =>
        rw [List.filter_cons_of_pos hm] at hfilter
        exact ⟨hinv, hfilter⟩
      · next hm =>
        rw [List.filter_cons_of_neg hm] at hfilter
        obtain ⟨hinv', hrest⟩ := ih hinv (by omega) s'
        exact ⟨hinv', hrest.of_arranges hfilter⟩

end PlanSearch
