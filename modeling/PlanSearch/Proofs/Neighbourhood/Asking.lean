import PlanSearch.Proofs.Data.Binary64
import PlanSearch.Proofs.Neighbourhood.Odometer
import PlanSearch.Proofs.Neighbourhood.Stock

/-!
# How a random union asks its children

A random union asks one of the children that have a weight and did not run dry; a child that has no
move is dry, and another one is asked. A log tells which children were asked and what they answered.
Where each child visits its moves in order, what it answered goes on with what it has yet to visit.

    0 < total weights dry ↔ a child counts                                  (total_pos_iff)
    a log changes nothing else                                              (nextRandom_logged)
    a child that counts yields its next move, or is dry from then on        (Interleaves.ask)
    a draw keeps the answers in order, and without a move no child counts   (Draws.interleaves)
-/

namespace PlanSearch

variable {S V σ : Type}

/-! ## Weights -/

namespace Weights

theorem resolve_nonneg (w : Weights S) (n : Nat) (plan : S) :
    ∀ x ∈ w.resolve n plan, 0.0 ≤ x := by
  intro x hx
  obtain ⟨y, -, rfl⟩ := List.mem_map.1 hx
  split
  · exact Binary64.zero_le_zero
  · next hy =>
    rw [Bool.or_eq_true, Bool.not_eq_true', decide_eq_true_iff, not_or, Bool.not_eq_false] at hy
    exact (Binary64.not_lt_zero hy.1).1 hy.2

end Weights

namespace UnionWalk

/-- Child `i` has a weight that is positive. -/
def Weighs (weights : List Float) (i : Nat) : Prop := ∃ w ∈ weights[i]?, 0.0 < w

/-- Child `i` may be drawn: it has a weight and did not run dry. -/
def Counts (weights : List Float) (dry : List Bool) (i : Nat) : Prop :=
  dry[i]? = some false ∧ Weighs weights i

variable {weights : List Float} {dry : List Bool}

theorem foldl_pos_iff {pairs : List (Float × Bool)} (hpairs : ∀ p ∈ pairs, 0.0 ≤ p.1) {sum : Float}
    (hsum : 0.0 ≤ sum) :
    0.0 < pairs.foldl (fun sum (w, d) => if d then sum else sum + w) sum ↔
      0.0 < sum ∨ ∃ w, 0.0 < w ∧ (w, false) ∈ pairs := by
  induction pairs generalizing sum with
  | nil => simp
  | cons p pairs ih =>
    have hrest : ∀ p ∈ pairs, 0.0 ≤ p.1 := fun p hp => hpairs p (List.mem_cons_of_mem _ hp)
    obtain ⟨w, _ | _⟩ := p
    · have hw : 0.0 ≤ w := hpairs (w, false) List.mem_cons_self
      simp only [List.foldl_cons, Bool.false_eq_true, if_false]
      rw [ih hrest (Binary64.add_nonneg hsum hw), Binary64.add_pos_iff hsum hw, or_assoc]
      refine or_congr_right ⟨?_, ?_⟩
      · rintro (hw | ⟨v, hv, hmem⟩)
        · exact ⟨w, hw, List.mem_cons_self⟩
        · exact ⟨v, hv, List.mem_cons_of_mem _ hmem⟩
      · rintro ⟨v, hv, hmem⟩
        rcases List.mem_cons.1 hmem with hthis | hrest
        · cases hthis
          exact .inl hv
        · exact .inr ⟨v, hv, hrest⟩
    · simp only [List.foldl_cons, if_true]
      rw [ih hrest hsum]
      simp

/-- The children that did not run dry weigh something if and only if one of them does. -/
theorem total_pos_iff (hw : ∀ w ∈ weights, 0.0 ≤ w) :
    0.0 < total weights dry ↔ ∃ i, Counts weights dry i := by
  have hpairs : ∀ p ∈ weights.zip dry, 0.0 ≤ p.1 := fun p hp => hw p.1 (List.of_mem_zip hp).1
  refine (foldl_pos_iff hpairs Binary64.zero_le_zero).trans ⟨?_, ?_⟩
  · rintro (hzero | ⟨w, hw, hmem⟩)
    · exact absurd hzero Binary64.not_zero_lt_zero
    · obtain ⟨i, hi⟩ := List.mem_iff_getElem?.1 hmem
      obtain ⟨hwi, hdi⟩ := List.getElem?_zip_eq_some.1 hi
      exact ⟨i, hdi, w, hwi, hw⟩
  · rintro ⟨i, hdi, w, hwi, hw⟩
    exact .inr ⟨w, hw, List.mem_iff_getElem?.2 ⟨i, List.getElem?_zip_eq_some.2 ⟨hwi, hdi⟩⟩⟩

/-- A child is found if one counts. -/
theorem childAt_eq_none {offset sum : Float} {i : Nat} {last : Option Nat}
    (h : childAt offset i sum last weights dry = none) :
    last = none ∧ ∀ k, ¬Counts weights dry k := by
  induction weights generalizing i sum last dry with
  | nil => exact ⟨h, fun k hk => by obtain ⟨-, w, hw, -⟩ := hk; cases hw⟩
  | cons w weights ih =>
    cases dry with
    | nil => exact ⟨h, fun k hk => by cases hk.1⟩
    | cons d dry =>
      unfold childAt at h
      split at h
      · next hskip =>
        obtain ⟨hlast, hrest⟩ := ih h
        refine ⟨hlast, fun k hk => ?_⟩
        cases k with
        | succ k => exact hrest k hk
        | zero =>
          obtain ⟨hd, v, hv, hpos⟩ := hk
          cases hd
          cases hv
          exact absurd hskip (by simpa using Binary64.not_le_zero_of_lt hpos)
      · split at h
        · cases h
        · exact absurd (ih h).1 (Option.some_ne_none _)

theorem counts_childAt {offset : Float} {i : Nat} (hw : ∀ w ∈ weights, 0.0 ≤ w)
    (h : childAt offset 0 0.0 none weights dry = some i) : Counts weights dry i := by
  obtain hlast | ⟨k, w, hk, hdry, hwk, hpos⟩ := childAt_eq_some h
  · cases hlast
  · rw [Nat.zero_add] at hk
    subst hk
    exact ⟨hdry, w, hwk, (Binary64.not_le_zero (hw w (List.mem_of_getElem? hwk))).1 hpos⟩

end UnionWalk

/-! ## Logs -/

/-- Which child was asked for a move, and what it answered. -/
abbrev Inquiry (S V : Type) := Nat × Option (Move S V)

/-- The children, with a log of what they were asked. -/
def Children.logged (c : Children S V σ) : Children S V (σ × List (Inquiry S V)) where
  count := c.count
  step i y s :=
    let r := c.step i y.1 s
    (r.1, (r.2.1, y.2 ++ [(i, r.1)]), r.2.2)
  restart i y := (c.restart i y.1, y.2)

/-- What child `i` answered. -/
def answersOf (i : Nat) (log : List (Inquiry S V)) : List (Option (Move S V)) :=
  (log.filter fun a => a.1 = i).map (·.2)

/-- What a child answers that has `ms` yet to visit: each of them, and then that there is none. -/
def script (ms : List (Move S V)) : List (Option (Move S V)) := ms.map some ++ [none]

theorem Children.step_logged {c : Children S V σ} {i : Nat} {y y' : σ × List (Inquiry S V)}
    {s s' : Source} {m? : Option (Move S V)} (h : c.logged.step i y s = (m?, y', s')) :
    c.step i y.1 s = (m?, y'.1, s') ∧ y'.2 = y.2 ++ [(i, m?)] := by
  unfold Children.logged at h
  dsimp only at h
  generalize c.step i y.1 s = q at h ⊢
  cases h
  exact ⟨rfl, rfl⟩

theorem answersOf_concat (i : Nat) (log : List (Inquiry S V)) (a : Inquiry S V) :
    answersOf i (log ++ [a]) = if a.1 = i then answersOf i log ++ [a.2] else answersOf i log := by
  unfold answersOf
  rw [List.filter_append, List.map_append]
  split
  · next h => simp [h]
  · next h => simp [h]

namespace UnionWalk

variable {c : Children S V σ} {weights : List Float}

/-- A log changes nothing else. -/
theorem nextRandom_logged (k : Nat) (u : UnionWalk) (x : σ) (log : List (Inquiry S V)) (s : Source) :
    nextRandom c weights k u x s =
      ((nextRandom c.logged weights k u (x, log) s).1,
        (nextRandom c.logged weights k u (x, log) s).2.1,
        (nextRandom c.logged weights k u (x, log) s).2.2.1.1,
        (nextRandom c.logged weights k u (x, log) s).2.2.2) := by
  induction k generalizing u x log s with
  | zero => rfl
  | succ k ih =>
    unfold nextRandom
    dsimp only
    split
    · rfl
    split
    · rfl
    · next i _ =>
      unfold Children.logged
      dsimp only
      rcases c.step i x s.unit.2 with ⟨_ | m, x', s'⟩
      · exact ih _ x' _ s'
      · rfl

/-- What child `i` still answers. -/
def upcoming (dry : List Bool) (lefts : Nat → List (Move S V)) (i : Nat) :
    List (Option (Move S V)) :=
  if dry[i]? = some true then [] else script (lefts i)

/-- The answers in `log` are those of children that have a weight, and what a child answered goes on
with what it still answers, to the end of its moves in `all`. -/
structure Interleaves (weights : List Float) (all : List (List (Move S V))) (dry : List Bool)
    (lefts : Nat → List (Move S V)) (log : List (Inquiry S V)) : Prop where
  length : dry.length = all.length
  weighs : ∀ a ∈ log, a.1 < all.length ∧ Weighs weights a.1
  answers : ∀ i, (hi : i < all.length) → answersOf i log ++ upcoming dry lefts i = script all[i]

namespace Interleaves

variable {all : List (List (Move S V))} {dry dry' : List Bool} {l l' : Nat → List (Move S V)}
  {log : List (Inquiry S V)} {i : Nat}

theorem start (hdry : dry = List.replicate all.length false)
    (hl : ∀ i, (hi : i < all.length) → l i = all[i]) : Interleaves weights all dry l [] where
  length := by rw [hdry, List.length_replicate]
  weighs := nofun
  answers i hi := by
    show upcoming dry l i = script all[i]
    unfold upcoming
    rw [hdry, List.getElem?_replicate_of_lt hi, if_neg nofun, hl i hi]

theorem lt_length (h : Interleaves weights all dry l log) (hi : Counts weights dry i) :
    i < dry.length ∧ i < all.length := by
  have hlt : i < dry.length := (List.getElem?_eq_some_iff.1 hi.1).1
  exact ⟨hlt, h.length ▸ hlt⟩

theorem concat (h : Interleaves weights all dry l log) (hi : Counts weights dry i)
    (hlength : dry'.length = dry.length) {m? : Option (Move S V)}
    (hthis : upcoming dry l i = m? :: upcoming dry' l' i)
    (hothers : ∀ j, j ≠ i → upcoming dry' l' j = upcoming dry l j) :
    Interleaves weights all dry' l' (log ++ [(i, m?)]) where
  length := hlength.trans h.length
  weighs a ha := by
    rcases List.mem_append.1 ha with ha | ha
    · exact h.weighs a ha
    · rw [List.mem_singleton.1 ha]
      exact ⟨(h.lt_length hi).2, hi.2⟩
  answers j hj := by
    rw [answersOf_concat, ← h.answers j hj]
    split
    · next hij =>
      subst hij
      rw [hthis, List.append_assoc]
      rfl
    · next hij => rw [hothers j fun e => hij e.symm]

/-- A child that counts yields the next of its moves. -/
theorem yield (h : Interleaves weights all dry l log) (hi : Counts weights dry i) {m : Move S V}
    (hthis : m :: l' i = l i) (hothers : ∀ j, j ≠ i → l' j = l j) :
    Interleaves weights all dry l' (log ++ [(i, some m)]) := by
  refine h.concat hi rfl ?_ fun j hj => ?_
  · unfold upcoming
    rw [hi.1, if_neg nofun, if_neg nofun, ← hthis]
    rfl
  · unfold upcoming
    rw [hothers j hj]

/-- A child that counts has no move left, and is dry from then on. -/
theorem exhaust (h : Interleaves weights all dry l log) (hi : Counts weights dry i)
    (hthis : l i = []) (hothers : ∀ j, j ≠ i → l' j = l j) :
    Interleaves weights all (dry.set i true) l' (log ++ [(i, none)]) := by
  refine h.concat hi List.length_set ?_ fun j hj => ?_
  · unfold upcoming
    rw [hi.1, if_neg nofun, List.getElem?_set_self (h.lt_length hi).1, if_pos rfl, hthis]
    rfl
  · unfold upcoming
    rw [List.getElem?_set_ne hj.symm, hothers j hj]

/-- A child that has a weight and does not count any more has answered all its moves. -/
theorem complete (h : Interleaves weights all dry l log) (hi : i < all.length)
    (hw : Weighs weights i) (hcounts : ¬Counts weights dry i) :
    answersOf i log = script all[i] := by
  have hlt : i < dry.length := h.length ▸ hi
  have hdry : dry[i]? = some true := by
    rw [List.getElem?_eq_getElem hlt, Option.some_inj, ← Bool.not_eq_false]
    exact fun hd => hcounts ⟨List.getElem?_eq_some_iff.2 ⟨hlt, hd⟩, hw⟩
  rw [← h.answers i hi]
  unfold upcoming
  rw [if_pos hdry, List.append_nil]

end Interleaves

theorem Counts.of_set {dry : List Bool} {i j : Nat} (h : Counts weights (dry.set i true) j) :
    Counts weights dry j := by
  obtain ⟨hdry, hw⟩ := h
  refine ⟨?_, hw⟩
  rw [List.getElem?_set] at hdry
  split at hdry
  · split at hdry <;> cases hdry
  · exact hdry

variable {inv : σ → Prop} {lefts : σ → Nat → List (Move S V)} {all : List (List (Move S V))}

/-- The children that are dry when child `i` gave an answer. -/
def dryAfter (dry : List Bool) (i : Nat) : Option (Move S V) → List Bool
  | some _ => dry
  | none => dry.set i true

/-- A child that counts is asked. -/
theorem Interleaves.ask (h : c.Lists .exact inv lefts all) {dry : List Bool}
    {log : List (Inquiry S V)} {y y' : σ × List (Inquiry S V)} {i : Nat} {m? : Option (Move S V)}
    {s s' : Source} (hy : inv y.1) (hall : Interleaves weights all dry (lefts y.1) (log ++ y.2))
    (hi : Counts weights dry i) (hstep : c.logged.step i y s = (m?, y', s')) :
    inv y'.1 ∧ Interleaves weights all (dryAfter dry i m?) (lefts y'.1) (log ++ y'.2) ∧
      y'.2.filterMap (·.2) = y.2.filterMap (·.2) ++ m?.toList := by
  obtain ⟨hthis, hlog⟩ := Children.step_logged hstep
  obtain ⟨hinv, hyields, hframe⟩ := h.step s (h.count ▸ (hall.lt_length hi).2) hy
  rw [hthis] at hinv hyields hframe
  rw [hlog, ← List.append_assoc, List.filterMap_append]
  cases m? with
  | none => exact ⟨hinv, hall.exhaust hi hyields.1 hframe, rfl⟩
  | some m => exact ⟨hinv, hall.yield hi hyields hframe, rfl⟩

/-- A draw goes on with the answers of the children. If it comes to nothing, no child counts any
more. -/
theorem Draws.interleaves (h : c.Lists .exact inv lefts all) (hw : ∀ w ∈ weights, 0.0 ≤ w)
    {log : List (Inquiry S V)} {u : UnionWalk} {y : σ × List (Inquiry S V)} {s : Source}
    {r : Option (Move S V) × UnionWalk × (σ × List (Inquiry S V)) × Source}
    (hdraws : Draws c.logged weights u y s r) (hy : inv y.1)
    (hall : Interleaves weights all u.dry (lefts y.1) (log ++ y.2)) :
    inv r.2.2.1.1 ∧
      Interleaves weights all r.2.1.dry (lefts r.2.2.1.1) (log ++ r.2.2.1.2) ∧
      r.2.2.1.2.filterMap (·.2) = y.2.filterMap (·.2) ++ r.1.toList ∧
      (r.1 = none → ∀ i, ¬Counts weights r.2.1.dry i) ∧
      ∀ i, Counts weights r.2.1.dry i → Counts weights u.dry i := by
  induction hdraws with
  | weightless htotal =>
    refine ⟨hy, hall, (List.append_nil _).symm, fun _ i hi => ?_, fun i hi => hi⟩
    exact Binary64.not_le_zero_of_lt ((total_pos_iff hw).2 ⟨i, hi⟩) htotal
  | nobody htotal hnone =>
    exact ⟨hy, hall, (List.append_nil _).symm, fun _ => (childAt_eq_none hnone).2, fun i hi => hi⟩
  | drawn htotal hi hm =>
    obtain ⟨hinv, hall', hmoves⟩ := hall.ask h hy (counts_childAt hw hi) hm
    exact ⟨hinv, hall', hmoves, nofun, fun j hj => hj⟩
  | dry htotal hi hm rest ih =>
    obtain ⟨hinv, hall', hmoves⟩ := hall.ask h hy (counts_childAt hw hi) hm
    obtain ⟨hinv', hrest, hmoves', hnone, hcounts⟩ := ih hinv hall'
    rw [hmoves] at hmoves'
    refine ⟨hinv', hrest, hmoves'.trans ?_, hnone, fun j hj => (hcounts j hj).of_set⟩
    exact congrArg (· ++ _) (List.append_nil _)

theorem next_interleaves (h : c.Lists .exact inv lefts all) (hw : ∀ w ∈ weights, 0.0 ≤ w)
    {log : List (Inquiry S V)} {w : Weights S} {plan : S} {u : UnionWalk} {x : σ}
    (hweights : u.weights.getD (w.resolve c.count plan) = weights) (hx : inv x)
    (hall : Interleaves weights all u.dry (lefts x) log) (s : Source) :
    let r := u.next c true w plan x s
    let told := (u.next c.logged true w plan (x, []) s).2.2.1.2
    inv r.2.2.1 ∧ Interleaves weights all r.2.1.dry (lefts r.2.2.1) (log ++ told) ∧
      told.filterMap (·.2) = r.1.toList ∧
      (r.1 = none → ∀ i, ¬Counts weights r.2.1.dry i) ∧
      ∀ i, Counts weights r.2.1.dry i → Counts weights u.dry i := by
  intro r told
  subst hweights
  have hfuel : u.dry.count false < c.count + 1 := by
    rw [← h.count, ← hall.length]
    exact Nat.lt_succ_of_le List.count_le_length
  have hdraws : Draws c.logged (u.weights.getD (w.resolve c.count plan))
      { u with weights := some (u.weights.getD (w.resolve c.count plan)) } (x, []) s
      (u.next c.logged true w plan (x, []) s) := nextRandom_draws _ (c.count + 1) _ s hfuel
  have hlogged : r = ((u.next c.logged true w plan (x, []) s).1,
      (u.next c.logged true w plan (x, []) s).2.1,
      (u.next c.logged true w plan (x, []) s).2.2.1.1,
      (u.next c.logged true w plan (x, []) s).2.2.2) := nextRandom_logged (c.count + 1) _ x [] s
  rw [hlogged]
  exact hdraws.interleaves h hw hx (by rwa [List.append_nil])

theorem hear_eq_self {e : Event} (he : e.restarts = false) (n : Nat) (random : Bool)
    (w : Weights S) (plan : S) (u : UnionWalk) : u.hear n random w plan e = u := by
  unfold hear
  rw [he]
  rfl

theorem weights_next (c : Children S V σ) (w : Weights S) (plan : S) (u : UnionWalk) (x : σ)
    (s : Source) :
    (u.next c true w plan x s).2.1.weights = some (u.weights.getD (w.resolve c.count plan)) :=
  weights_nextRandom c _ (c.count + 1) _ x s

end UnionWalk

end PlanSearch
