import Mathlib.Algebra.GroupWithZero.Nat
import Mathlib.Algebra.Order.BigOperators.Group.Finset
import Mathlib.Algebra.Order.BigOperators.Group.List
import PlanSearch.Proofs.Neighbourhood.Draws
import PlanSearch.Proofs.Neighbourhood.Orderly

/-!
# The stock of a walk

A bound on the moves that a walk still yields before it is started over. Every move that a leaf or
an inner node yields is taken from its stock, whatever the random numbers are. The stock of an
ordered product is a number with mixed radices, which turning the odometer makes smaller.

    (w.next …).2.1.stock … + yielded (w.next …).1 ≤ w.stock …              (ChangeWalk.stock_next)
    c.Ends … → the same for unions and products over c                     (UnionWalk.stock_next,
                                                                            ProductWalk.stock_next)

The loops over unions and filters are bounded in the model; with a bound above the stock they end
before it does.

    stock x < k → Sieved keep step x s (nextKept keep step k x s)           (nextKept_sieved)
-/

namespace PlanSearch

variable {α β S V σ : Type}

/-- The number of moves in an answer. -/
def yielded (m? : Option α) : Nat := if m?.isSome then 1 else 0

theorem yielded_some (a : α) : yielded (some a) = 1 := rfl

theorem Slack.Yields.length_le {k : Slack} {norm : α → β} {m? : Option α} {before after : List α}
    (h : k.Yields norm m? before after) : after.length + yielded m? ≤ before.length := by
  cases m? with
  | none =>
    rw [h.2]
    exact Nat.zero_le _
  | some m => exact Nat.le_of_eq h.cons.length_eq

/-! ## Values -/

theorem Definition.choices_eq {d : Definition S V} (h : d.range.isPerEntity = false) (plan : S)
    (e e' : Nat) : d.choices plan e = d.choices plan e' := by
  obtain ⟨entityClass, cell, range, allowsUnassigned, difficulty⟩ := d
  cases range with
  | listed values => rfl
  | computed values => rfl
  | perEntity values => cases h

namespace ValueWalk

variable {plan : S} {d : Definition S V} {order : Order} {w : ValueWalk V}

/-- The values of `e` that may still come, where the walk is at `e`. -/
def stock (plan : S) (d : Definition S V) (w : ValueWalk V) (e : Nat) : Nat :=
  if w.isOutdated d e then (d.choices plan e).length else w.upcoming.length

/-- The values of `e` that may come once the walk turns to `e`: those at hand, if they pass for the
values of `e`, or those that are listed then. -/
def reserve (plan : S) (d : Definition S V) (w : ValueWalk V) (e : Nat) : Nat :=
  max (d.choices plan e).length (if w.isOutdated d e then 0 else w.all.length)

theorem length_shuffled (order : Order) (xs : List α) (s : Source) :
    (if order = .shuffled then s.shuffle xs else (xs, s)).1.length = xs.length := by
  split
  · exact (s.shuffle_perm xs).length_eq
  · rfl

section

variable (plan : S) (d : Definition S V) (order : Order) (w : ValueWalk V) (e : Nat) (s : Source)

theorem isOutdated_start :
    (w.start plan d order e s).1.isOutdated d e = false := by
  unfold start
  split
  · simp [isOutdated]
  · next h => exact Bool.not_eq_true _ ▸ h

theorem length_upcoming_start :
    (w.start plan d order e s).1.upcoming.length = (w.start plan d order e s).1.all.length := rfl

theorem length_all_start :
    (w.start plan d order e s).1.all.length =
      if w.isOutdated d e then (d.choices plan e).length else w.all.length := by
  unfold start
  split
  · exact length_shuffled order _ s
  · exact length_shuffled order _ s

theorem length_all_start_le :
    (w.start plan d order e s).1.all.length ≤ w.reserve plan d e := by
  rw [length_all_start]
  unfold reserve
  split
  · exact Nat.le_max_left _ _
  · exact Nat.le_max_right _ _

end

/-- Values that were listed for `e` and pass for those of `e'` are as many. -/
theorem length_choices_eq {e e' : Nat} {s : Source} (he : w.isOutdated d e)
    (he' : (w.start plan d order e s).1.isOutdated d e' = false) :
    (d.choices plan e).length = (d.choices plan e').length := by
  unfold start at he'
  rw [if_pos he] at he'
  cases hrange : d.range.isPerEntity with
  | false => rw [d.choices_eq hrange plan e e']
  | true =>
    have hsame : e = e' := by simpa [isOutdated, hrange] using he'
    rw [hsame]

/-- Turning to an entity does not add to what may come of another. -/
theorem reserve_start_le (plan : S) (d : Definition S V) (order : Order) (w : ValueWalk V) (e : Nat)
    (s : Source) (e' : Nat) :
    (w.start plan d order e s).1.reserve plan d e' ≤ w.reserve plan d e' := by
  refine Nat.max_le.2 ⟨Nat.le_max_left _ _, ?_⟩
  split
  · exact Nat.zero_le _
  next hcurrent =>
  rw [Bool.not_eq_true] at hcurrent
  rw [length_all_start]
  split
  · next he =>
    rw [length_choices_eq he hcurrent]
    exact Nat.le_max_left _ _
  · next he =>
    have hsame : w.isOutdated d e' = false := by
      unfold start at hcurrent
      rw [if_neg he] at hcurrent
      exact hcurrent
    unfold reserve
    rw [hsame]
    exact Nat.le_max_right _ _

/-- An orderly walk takes a value from the stock of the entity. -/
theorem stock_next (ho : order.isRandom = false) (plan : S) (d : Definition S V) (w : ValueWalk V)
    (e : Nat) (s : Source) :
    (w.next plan d order e s).2.1.stock plan d e + yielded (w.next plan d order e s).1 ≤
        w.stock plan d e ∧
      ∀ e', (w.next plan d order e s).2.1.reserve plan d e' ≤ w.reserve plan d e' := by
  -- What is left once the values are up to date.
  have htake : ∀ (v : ValueWalk V) (s : Source), v.isOutdated d e = false →
      (v.next plan d order e s).2.1.stock plan d e + yielded (v.next plan d order e s).1 ≤
          v.upcoming.length ∧
        ∀ e', (v.next plan d order e s).2.1.reserve plan d e' = v.reserve plan d e' := by
    intro v s hv
    rw [next_eq hv ho]
    rcases hupcoming : v.upcoming with _ | ⟨a, rest⟩
    · refine ⟨?_, fun _ => rfl⟩
      unfold stock
      rw [hv, hupcoming]
      exact Nat.le_refl _
    · refine ⟨?_, fun _ => rfl⟩
      unfold stock
      rw [show isOutdated d e { v with upcoming := rest } = false from hv]
      exact Nat.le_refl _
  cases hw : w.isOutdated d e with
  | false =>
    obtain ⟨hstock, hreserve⟩ := htake w s hw
    refine ⟨?_, fun e' => Nat.le_of_eq (hreserve e')⟩
    unfold stock at hstock ⊢
    rwa [hw]
  | true =>
    have hnext : w.next plan d order e s =
        (w.start plan d order e s).1.next plan d order e (w.start plan d order e s).2 := by
      unfold ValueWalk.next
      rw [hw, isOutdated_start]
      rfl
    obtain ⟨hstock, hreserve⟩ :=
      htake _ (w.start plan d order e s).2 (w.isOutdated_start plan d order e s)
    rw [length_upcoming_start, length_all_start, if_pos hw] at hstock
    rw [hnext]
    refine ⟨?_, fun e' => Nat.le_trans (Nat.le_of_eq (hreserve e')) ?_⟩
    · unfold stock at hstock ⊢
      rwa [hw]
    · exact reserve_start_le plan d order w e s e'

/-- No more values are upcoming than are listed. -/
def Bounded (w : ValueWalk V) : Prop := w.upcoming.length ≤ w.all.length

theorem bounded_start (plan : S) (d : Definition S V) (order : Order) (w : ValueWalk V) (e : Nat)
    (s : Source) : (w.start plan d order e s).1.Bounded :=
  Nat.le_of_eq (length_upcoming_start plan d order w e s)

theorem Bounded.next (h : w.Bounded) (plan : S) (d : Definition S V) (order : Order) (e : Nat)
    (s : Source) : (w.next plan d order e s).2.1.Bounded := by
  have hstarted : (if w.isOutdated d e then w.start plan d order e s else (w, s)).1.Bounded := by
    split
    · exact bounded_start plan d order w e s
    · exact h
  unfold ValueWalk.next
  generalize (if w.isOutdated d e then w.start plan d order e s else (w, s)) = q at hstarted ⊢
  obtain ⟨v, s'⟩ := q
  dsimp only at hstarted ⊢
  split
  · split <;> exact hstarted
  · split
    · exact hstarted
    · next rest hupcoming =>
      unfold Bounded at hstarted
      rw [hupcoming] at hstarted
      exact Nat.le_of_succ_le hstarted

end ValueWalk

/-! ## Changes -/

namespace ChangeWalk

variable {sh : Shape} [Plan S sh] {plan : S} {d : Definition S V} {order : Order} {w : ChangeWalk V}

/-- The values that may come of these entities. -/
def reserves (plan : S) (d : Definition S V) (values : ValueWalk V) (es : List Nat) : Nat :=
  (es.map (values.reserve plan d)).sum

/-- A bound on what an orderly walk has yet to visit. -/
def stock (plan : S) (d : Definition S V) (w : ChangeWalk V) : Nat :=
  w.current.elim 0 (w.values.stock plan d) +
    reserves plan d w.values (w.entities.upcoming plan d.cell.family)

theorem reserves_le {values values' : ValueWalk V}
    (h : ∀ e, values'.reserve plan d e ≤ values.reserve plan d e) (es : List Nat) :
    reserves plan d values' es ≤ reserves plan d values es :=
  List.sum_le_sum fun e _ => h e

theorem stock_advance (ho : order.isRandom = false) (plan : S) (d : Definition S V)
    (es : List Nat) (values : ValueWalk V) (s : Source) :
    match advance plan d order es values s with
    | (none, rest, _, _) => rest = []
    | (some (e, _), rest, values', _) =>
      values'.stock plan d e + 1 + reserves plan d values' rest ≤ reserves plan d values es := by
  induction es generalizing values s with
  | nil => rfl
  | cons e es ih =>
    have hstart := values.reserve_start_le plan d order e s
    have hfirst := values.length_all_start_le plan d order e s
    have hcurrent := values.isOutdated_start plan d order e s
    have hcons : reserves plan d values (e :: es) =
        values.reserve plan d e + reserves plan d values es := List.sum_cons
    rw [← values.length_upcoming_start] at hfirst
    rw [hcons]
    unfold advance
    generalize values.start plan d order e s = q at hstart hfirst hcurrent ⊢
    obtain ⟨started, s'⟩ := q
    dsimp only at hstart hfirst hcurrent ⊢
    obtain ⟨hstock, hreserve⟩ := started.stock_next ho plan d e s'
    have hstarted : started.stock plan d e ≤ values.reserve plan d e := by
      unfold ValueWalk.stock
      rw [hcurrent]
      exact hfirst
    generalize started.next plan d order e s' = r at hstock hreserve ⊢
    obtain ⟨v?, values', s''⟩ := r
    have hrest := reserves_le (fun e' => (hreserve e').trans (hstart e')) es
    dsimp only at hrest
    cases v? with
    | some v =>
      have hone : values'.stock plan d e + 1 ≤ values.reserve plan d e := hstock.trans hstarted
      dsimp only
      omega
    | none =>
      have hih := ih values' s''
      dsimp only
      generalize advance plan d order es values' s'' = a at hih ⊢
      obtain ⟨_ | ⟨e', v⟩, rest, values'', s₃⟩ := a
      · exact hih
      · exact hih.trans (hrest.trans (Nat.le_add_left _ _))

theorem stock_nextEntity (ho : order.isRandom = false) (plan : S) (d : Definition S V)
    (w : ChangeWalk V) (s : Source) :
    (w.nextEntity plan d order s).2.1.stock plan d + yielded (w.nextEntity plan d order s).1 ≤
      reserves plan d w.values (w.entities.upcoming plan d.cell.family) := by
  obtain ⟨hentities, hstale⟩ := w.entities.arranges_prepare plan d.cell.family order s
  have hperm := hentities.perm_map
  rw [List.map_id, List.map_id] at hperm
  have hsum : reserves plan d w.values
        (w.entities.prepare plan d.cell.family order s).1.candidates =
      reserves plan d w.values (w.entities.upcoming plan d.cell.family) :=
    (hperm.map _).sum_eq
  rw [← hsum]
  unfold nextEntity
  generalize w.entities.prepare plan d.cell.family order s = q at hstale ⊢
  obtain ⟨entities, s'⟩ := q
  have hupcoming (rest : List Nat) :
      EntityWalk.upcoming plan d.cell.family { entities with candidates := rest } = rest := by
    unfold EntityWalk.upcoming
    rw [show entities.stale = false from hstale]
    rfl
  have hadvance := stock_advance ho plan d entities.candidates w.values s'
  dsimp only
  generalize advance plan d order entities.candidates w.values s' = r at hadvance ⊢
  obtain ⟨_ | ⟨e, v⟩, rest, values', s''⟩ := r
  · obtain rfl : rest = [] := hadvance
    unfold stock
    dsimp only
    rw [hupcoming]
    exact Nat.zero_le _
  · unfold stock
    dsimp only at hadvance ⊢
    rw [hupcoming, yielded_some]
    show values'.stock plan d e + _ + 1 ≤ _
    omega

theorem stock_next (ho : order.isRandom = false) (plan : S) (d : Definition S V)
    (w : ChangeWalk V) (s : Source) :
    (w.next plan d order s).2.1.stock plan d + yielded (w.next plan d order s).1 ≤
      w.stock plan d := by
  unfold ChangeWalk.next
  rw [ho]
  show (w.nextOrderly plan d order s).2.1.stock plan d +
    yielded (w.nextOrderly plan d order s).1 ≤ _
  unfold nextOrderly
  rcases hcurrent : w.current with _ | e
  · exact (stock_nextEntity ho plan d w s).trans (Nat.le_add_left _ _)
  · obtain ⟨hstock, hreserve⟩ := w.values.stock_next ho plan d e s
    have hw : w.stock plan d = w.values.stock plan d e +
        reserves plan d w.values (w.entities.upcoming plan d.cell.family) := by
      unfold stock
      rw [hcurrent]
      rfl
    rw [hw]
    dsimp only
    generalize w.values.next plan d order e s = q at hstock hreserve ⊢
    obtain ⟨v?, values, s'⟩ := q
    have hrest := reserves_le hreserve (w.entities.upcoming plan d.cell.family)
    cases v? with
    | none =>
      have hentity := stock_nextEntity ho plan d { w with values } s'
      rw [← hcurrent]
      exact hentity.trans (hrest.trans (Nat.le_add_left _ _))
    | some v =>
      unfold stock
      dsimp only at hstock hrest ⊢
      rw [yielded_some] at hstock ⊢
      show values.stock plan d e + _ + 1 ≤ _
      omega

theorem add_reserves_le (bound : Nat → Nat) {values : ValueWalk V}
    (h : ∀ e, values.reserve plan d e ≤ bound e) (es : List Nat) {n m : Nat} (hn : n ≤ m) :
    n + reserves plan d values es ≤ es.foldl (fun n e => n + bound e) m := by
  induction es generalizing n m with
  | nil => exact hn
  | cons e es ih =>
    have hcons : reserves plan d values (e :: es) =
        values.reserve plan d e + reserves plan d values es := List.sum_cons
    rw [hcons, ← Nat.add_assoc]
    exact ih (Nat.add_le_add hn (h e))

theorem stock_le_supply (h : w.values.Bounded) :
    w.stock plan d ≤ w.supply plan d := by
  have hreserve (e : Nat) : w.values.reserve plan d e ≤
      w.values.all.length + (d.choices plan e).length := by
    unfold ValueWalk.reserve
    split
    · omega
    · omega
  unfold stock supply
  refine add_reserves_le _ hreserve _ ?_
  cases w.current with
  | none => exact Nat.le_refl 0
  | some e =>
    show w.values.stock plan d e ≤ w.values.all.length + (d.choices plan e).length
    unfold ValueWalk.stock
    split
    · exact Nat.le_add_left _ _
    · exact h.trans (Nat.le_add_right _ _)

theorem bounded_nextRandom (plan : S) (d : Definition S V) (attempts : Nat) (s : Source)
    (h : w.values.Bounded) : (w.nextRandom plan d attempts s).2.1.values.Bounded := by
  induction attempts generalizing w s with
  | zero => exact h
  | succ attempts ih =>
    unfold nextRandom
    generalize w.entities.next plan d.cell.family .random s = q
    obtain ⟨_ | e, entities, s'⟩ := q
    · exact h
    · have hnext := h.next plan d .random e s'
      dsimp only
      generalize w.values.next plan d .random e s' = r at hnext ⊢
      obtain ⟨_ | v, values, s''⟩ := r
      · exact ih (w := { w with entities, values }) s'' hnext
      · exact hnext

theorem bounded_advance (plan : S) (d : Definition S V) (order : Order) (es : List Nat)
    {values : ValueWalk V} (s : Source) (h : values.Bounded) :
    (advance plan d order es values s).2.2.1.Bounded := by
  induction es generalizing values s with
  | nil => exact h
  | cons e es ih =>
    have hnext := (values.bounded_start plan d order e s).next plan d order e
      (values.start plan d order e s).2
    unfold advance
    generalize values.start plan d order e s = q at hnext ⊢
    obtain ⟨started, s'⟩ := q
    dsimp only at hnext ⊢
    generalize started.next plan d order e s' = r at hnext ⊢
    obtain ⟨_ | v, values', s''⟩ := r
    · exact ih s'' hnext
    · exact hnext

theorem bounded_nextEntity (plan : S) (d : Definition S V) (order : Order) (s : Source)
    (h : w.values.Bounded) : (w.nextEntity plan d order s).2.1.values.Bounded := by
  unfold nextEntity
  generalize w.entities.prepare plan d.cell.family order s = q
  obtain ⟨entities, s'⟩ := q
  have hadvance := bounded_advance plan d order entities.candidates s' h
  dsimp only
  generalize advance plan d order entities.candidates w.values s' = r at hadvance ⊢
  obtain ⟨_ | ⟨e, v⟩, rest, values, s''⟩ := r
  · exact hadvance
  · exact hadvance

theorem bounded_next (h : w.values.Bounded) (plan : S) (d : Definition S V) (order : Order)
    (s : Source) : (w.next plan d order s).2.1.values.Bounded := by
  unfold ChangeWalk.next
  split
  · exact bounded_nextRandom plan d _ s h
  · unfold nextOrderly
    rcases w.current with _ | e
    · exact bounded_nextEntity plan d order s h
    · have hnext := h.next plan d order e s
      dsimp only
      generalize w.values.next plan d order e s = q at hnext ⊢
      obtain ⟨_ | v, values, s'⟩ := q
      · exact bounded_nextEntity (w := { w with values }) plan d order s' hnext
      · exact hnext

end ChangeWalk

/-! ## Inner nodes -/

/-- Children have stocks, from which those that end take what they yield, and which a restart fills
up to their capacity. -/
structure Children.Ends (c : Children S V σ) (ends : Nat → Prop) (capacity : Nat → Nat)
    (stocks : σ → Nat → Nat) : Prop where
  step : ∀ (i : Nat) (x : σ) (s : Source) (j : Nat), stocks (c.step i x s).2.1 j ≤ stocks x j
  yields : ∀ {i : Nat} (x : σ) (s : Source), i < c.count → ends i →
    stocks (c.step i x s).2.1 i + yielded (c.step i x s).1 ≤ stocks x i
  restart : ∀ {i : Nat} (x : σ), i < c.count → stocks (c.restart i x) i ≤ capacity i
  others : ∀ (i : Nat) (x : σ) {j : Nat}, j ≠ i → stocks (c.restart i x) j ≤ stocks x j

variable {c : Children S V σ} {ends : Nat → Prop} {capacity : Nat → Nat} {stocks : σ → Nat → Nat}
  {x : σ}

/-- The stocks of `n` children together. -/
def together (n : Nat) (stocks : Nat → Nat) : Nat := ∑ i ∈ Finset.range n, stocks i

theorem together_le {n : Nat} {stocks stocks' : Nat → Nat} (h : ∀ i, stocks' i ≤ stocks i) :
    together n stocks' ≤ together n stocks :=
  Finset.sum_le_sum fun i _ => h i

theorem together_lt {n i : Nat} {stocks stocks' : Nat → Nat} (h : ∀ i, stocks' i ≤ stocks i)
    (hi : i < n) (hlt : stocks' i < stocks i) : together n stocks' < together n stocks :=
  Finset.sum_lt_sum (fun i _ => h i) ⟨i, Finset.mem_range.2 hi, hlt⟩

theorem together_succ (n : Nat) (stocks : Nat → Nat) :
    together (n + 1) stocks = stocks 0 + together n fun i => stocks (i + 1) := by
  unfold together
  rw [Finset.sum_range_succ', Nat.add_comm]

/-! ## Unions -/

namespace UnionWalk

theorem stock_nextOrderly (h : c.Ends ends capacity stocks) (hends : ∀ i < c.count, ends i)
    (k : Nat) (u : UnionWalk) (x : σ) (s : Source) (hk : u.position + k ≤ c.count) :
    together c.count (stocks (nextOrderly c k u x s).2.2.1) + yielded (nextOrderly c k u x s).1 ≤
      together c.count (stocks x) := by
  induction k generalizing u x s with
  | zero => exact Nat.le_refl _
  | succ k ih =>
    have hi : u.position < c.count := by omega
    have hle := h.step u.position x s
    have hyields := h.yields x s hi (hends u.position hi)
    unfold nextOrderly
    generalize c.step u.position x s = q at hle hyields ⊢
    obtain ⟨m?, x', s'⟩ := q
    cases m? with
    | none =>
      have hrest := ih { u with position := u.position + 1 } x' s' (by
        show u.position + 1 + k ≤ c.count
        omega)
      exact hrest.trans (together_le hle)
    | some m => exact together_lt hle hi hyields

/-! ## Random unions -/

variable (c) (weights : List Float)

/-- Draws by weight until a child yields a move or none has a weight, with no bound on the draws. -/
inductive Draws : UnionWalk → σ → Source → Option (Move S V) × UnionWalk × σ × Source → Prop
  | weightless {u : UnionWalk} {x : σ} {s : Source} (h : total weights u.dry ≤ 0.0) :
    Draws u x s (none, u, x, s)
  | nobody {u : UnionWalk} {x : σ} {s : Source} (h : ¬total weights u.dry ≤ 0.0)
    (hi : childAt (s.unit.1 * total weights u.dry) 0 0.0 none weights u.dry = none) :
    Draws u x s (none, u, x, s.unit.2)
  | drawn {u : UnionWalk} {x x' : σ} {s s' : Source} {i : Nat} {m : Move S V}
    (h : ¬total weights u.dry ≤ 0.0)
    (hi : childAt (s.unit.1 * total weights u.dry) 0 0.0 none weights u.dry = some i)
    (hm : c.step i x s.unit.2 = (some m, x', s')) : Draws u x s (some m, u, x', s')
  | dry {u : UnionWalk} {x x' : σ} {s s' : Source} {i : Nat}
    {r : Option (Move S V) × UnionWalk × σ × Source} (h : ¬total weights u.dry ≤ 0.0)
    (hi : childAt (s.unit.1 * total weights u.dry) 0 0.0 none weights u.dry = some i)
    (hm : c.step i x s.unit.2 = (none, x', s'))
    (rest : Draws { u with dry := u.dry.set i true } x' s' r) : Draws u x s r

variable {weights} {u : UnionWalk}

/-- Only children that did not run dry and have a weight are drawn. -/
theorem childAt_eq_some {offset sum : Float} {i j : Nat} {last : Option Nat} {ds : List Bool}
    {ws : List Float} (h : childAt offset i sum last ws ds = some j) :
    last = some j ∨
      ∃ k w, j = i + k ∧ ds[k]? = some false ∧ ws[k]? = some w ∧ ¬w ≤ 0.0 := by
  induction ws generalizing i sum last ds with
  | nil => exact .inl h
  | cons w ws ih =>
    cases ds with
    | nil => exact .inl h
    | cons d ds =>
      have hbehind : (∃ k w, j = i + 1 + k ∧ ds[k]? = some false ∧ ws[k]? = some w ∧ ¬w ≤ 0.0) →
          ∃ k v, j = i + k ∧ (d :: ds)[k]? = some false ∧ (w :: ws)[k]? = some v ∧ ¬v ≤ 0.0 := by
        rintro ⟨k, v, hj, hrest⟩
        exact ⟨k + 1, v, by omega, hrest⟩
      unfold childAt at h
      split at h
      · exact (ih h).imp_right hbehind
      · next hskip =>
        have hthis :
            ∃ k v, i = i + k ∧ (d :: ds)[k]? = some false ∧ (w :: ws)[k]? = some v ∧ ¬v ≤ 0.0 := by
          rw [Bool.or_eq_true, not_or, Bool.not_eq_true, decide_eq_true_iff] at hskip
          exact ⟨0, w, rfl, congrArg some hskip.1, rfl, hskip.2⟩
        split at h
        · cases h
          exact .inr hthis
        · rcases ih h with hlast | hrest
          · cases hlast
            exact .inr hthis
          · exact .inr (hbehind hrest)

theorem count_dry_lt {i : Nat} {ds : List Bool} (hi : ds[i]? = some false) :
    (ds.set i true).count false < ds.count false := by
  obtain ⟨hlt, hget⟩ := List.getElem?_eq_some_iff.1 hi
  have hpos : 0 < ds.count false := List.count_pos_iff.2 (hget ▸ List.getElem_mem hlt)
  rw [List.count_set hlt, hget]
  simp only [beq_self_eq_true, if_true]
  show ds.count false - 1 + 0 < _
  omega

/-- Every draw that fails marks another child as dry, so that the bound is never reached. -/
theorem nextRandom_draws (k : Nat) (x : σ) (s : Source) (hk : u.dry.count false < k) :
    Draws c weights u x s (nextRandom c weights k u x s) := by
  induction k generalizing u x s with
  | zero => exact absurd hk (Nat.not_lt_zero _)
  | succ k ih =>
    unfold nextRandom
    dsimp only
    split
    · next h => exact .weightless h
    next h =>
    split
    · next hi => exact .nobody h hi
    · next i hi =>
      rcases hm : c.step i x s.unit.2 with ⟨_ | m, x', s'⟩
      · refine .dry h hi hm (ih x' s' ?_)
        obtain hlast | ⟨j, -, hj, hdry, -⟩ := childAt_eq_some hi
        · cases hlast
        · rw [Nat.zero_add] at hj
          subst hj
          exact Nat.lt_of_lt_of_le (count_dry_lt hdry) (Nat.le_of_lt_succ hk)
      · exact .drawn h hi hm

theorem length_dry_nextOrderly (c : Children S V σ) (k : Nat) (u : UnionWalk) (x : σ) (s : Source) :
    (nextOrderly c k u x s).2.1.dry.length = u.dry.length := by
  induction k generalizing u x s with
  | zero => rfl
  | succ k ih =>
    unfold nextOrderly
    generalize c.step u.position x s = q
    obtain ⟨_ | m, x', s'⟩ := q
    · exact ih _ x' s'
    · rfl

/-- A draw does nothing to the union but to mark children as dry. -/
theorem nextRandom_induction (c : Children S V σ) (weights : List Float) (P : UnionWalk → Prop)
    (hdry : ∀ u i, P u → P { u with dry := u.dry.set i true }) (k : Nat) {u : UnionWalk} (hu : P u)
    (x : σ) (s : Source) : P (nextRandom c weights k u x s).2.1 := by
  induction k generalizing u x s with
  | zero => exact hu
  | succ k ih =>
    unfold nextRandom
    dsimp only
    split
    · exact hu
    split
    · exact hu
    · next i _ =>
      generalize c.step i x s.unit.2 = q
      obtain ⟨_ | m, x', s'⟩ := q
      · exact ih (hdry u i hu) x' s'
      · exact hu

theorem length_dry_nextRandom (c : Children S V σ) (weights : List Float) (k : Nat) (u : UnionWalk)
    (x : σ) (s : Source) : (nextRandom c weights k u x s).2.1.dry.length = u.dry.length :=
  nextRandom_induction c weights (·.dry.length = u.dry.length)
    (fun _ _ hv => List.length_set.trans hv) k rfl x s

theorem weights_nextRandom (c : Children S V σ) (weights : List Float) (k : Nat) (u : UnionWalk)
    (x : σ) (s : Source) : (nextRandom c weights k u x s).2.1.weights = u.weights :=
  nextRandom_induction c weights (·.weights = u.weights) (fun _ _ hv => hv) k rfl x s

theorem length_dry_next (c : Children S V σ) (random : Bool) (weights : Weights S) (plan : S)
    (u : UnionWalk) (x : σ) (s : Source) :
    (u.next c random weights plan x s).2.1.dry.length = u.dry.length := by
  unfold UnionWalk.next
  split
  · exact length_dry_nextRandom c _ _ _ x s
  · exact length_dry_nextOrderly c _ u x s

end UnionWalk

/-! ## Products -/

namespace ProductWalk

/-- The number of combinations of `k` children from child `i` on. -/
def combined (capacity : Nat → Nat) : Nat → Nat → Nat
  | _, 0 => 1
  | i, k + 1 => capacity i * combined capacity (i + 1) k

/-- What `k` children from child `i` on may still come to: what is left of the first one with all
combinations of those behind it, and what is left of these. -/
def odometer (capacity : Nat → Nat) (stocks : Nat → Nat) : Nat → Nat → Nat
  | _, 0 => 0
  | i, k + 1 => stocks i * combined capacity (i + 1) k + odometer capacity stocks (i + 1) k

theorem combined_succ (i k : Nat) :
    combined capacity (i + 1) k = combined (fun j => capacity (j + 1)) i k := by
  induction k generalizing i with
  | zero => rfl
  | succ k ih => exact congrArg (capacity (i + 1) * ·) (ih (i + 1))

theorem odometer_succ {stocks : Nat → Nat} (i k : Nat) :
    odometer capacity stocks (i + 1) k =
      odometer (fun j => capacity (j + 1)) (fun j => stocks (j + 1)) i k := by
  induction k generalizing i with
  | zero => rfl
  | succ k ih =>
    unfold odometer
    rw [combined_succ, ih]

theorem odometer_le {stocks stocks' : Nat → Nat} (h : ∀ i, stocks' i ≤ stocks i) (i k : Nat) :
    odometer capacity stocks' i k ≤ odometer capacity stocks i k := by
  induction k generalizing i with
  | zero => exact Nat.le_refl 0
  | succ k ih => exact Nat.add_le_add (Nat.mul_le_mul_right _ (h i)) (ih (i + 1))

/-- Children that have yielded their first move have fewer combinations left than there are. -/
theorem odometer_lt_combined {stocks : Nat → Nat} (i k : Nat)
    (h : ∀ j, i ≤ j → j < i + k → stocks j < capacity j) :
    odometer capacity stocks i k < combined capacity i k := by
  induction k generalizing i with
  | zero => exact Nat.one_pos
  | succ k ih =>
    have hrest := ih (i + 1) fun j hij hj => h j (by omega) (by omega)
    have hthis := Nat.mul_le_mul_right (combined capacity (i + 1) k) (h i (by omega) (by omega))
    rw [Nat.succ_mul] at hthis
    show stocks i * combined capacity (i + 1) k + odometer capacity stocks (i + 1) k <
      capacity i * combined capacity (i + 1) k
    omega

/-- Child `p` has turned, and those behind it have started over. -/
theorem odometer_lt {stocks stocks' : Nat → Nat} {p : Nat} (i k : Nat) (hip : i ≤ p)
    (hp : p < i + k) (hbefore : ∀ j < p, stocks' j ≤ stocks j) (hthis : stocks' p < stocks p)
    (hbehind : ∀ j, p < j → j < i + k → stocks' j < capacity j) :
    odometer capacity stocks' i k < odometer capacity stocks i k := by
  induction k generalizing i with
  | zero => omega
  | succ k ih =>
    unfold odometer
    rcases Nat.eq_or_lt_of_le hip with rfl | hip
    · have hrest := odometer_lt_combined (i + 1) k fun j hij hj => hbehind j hij (by omega)
      have hmul := Nat.mul_le_mul_right (combined capacity (i + 1) k) hthis
      rw [Nat.succ_mul] at hmul
      omega
    · have hrest := ih (i + 1) hip (by omega) fun j hpj hj => hbehind j hpj (by omega)
      have hmul := Nat.mul_le_mul_right (combined capacity (i + 1) k) (hbefore i hip)
      omega

theorem stock_parts (h : c.Ends ends capacity stocks) (k i : Nat) (x : σ) (s : Source)
    (hk : i + k ≤ c.count) :
    (∀ j, stocks (parts c k i x s).2.1 j ≤ stocks x j) ∧
      ((parts c k i x s).1.isSome →
        ∀ j, i ≤ j → j < i + k → ends j → stocks (parts c k i x s).2.1 j < stocks x j) := by
  induction k generalizing i x s with
  | zero => exact ⟨fun _ => Nat.le_refl _, fun _ j hij hj => by omega⟩
  | succ k ih =>
    have hle := h.step i x s
    have hyields := h.yields (i := i) x s (by omega)
    unfold parts
    generalize c.step i x s = q at hle hyields ⊢
    obtain ⟨m?, x', s'⟩ := q
    cases m? with
    | none => exact ⟨hle, fun h => absurd h Bool.false_ne_true⟩
    | some m =>
      obtain ⟨hle', hlt'⟩ := ih (i + 1) x' s' (by omega)
      dsimp only at hle hyields ⊢
      generalize parts c k (i + 1) x' s' = r at hle' hlt' ⊢
      obtain ⟨ms?, x'', s''⟩ := r
      cases ms? with
      | none => exact ⟨fun j => (hle' j).trans (hle j), fun h => absurd h Bool.false_ne_true⟩
      | some ms =>
        refine ⟨fun j => (hle' j).trans (hle j), fun _ j hij hj hends => ?_⟩
        rcases Nat.eq_or_lt_of_le hij with rfl | hij
        · exact Nat.lt_of_le_of_lt (hle' i) (hyields hends)
        · exact Nat.lt_of_lt_of_le (hlt' rfl j hij (by omega) hends) (hle j)

theorem stock_firstParts (h : c.Ends ends capacity stocks) (hends : ∀ i < c.count, ends i)
    (k i : Nat) (x : σ) (s : Source) (hk : i + k ≤ c.count) :
    (∀ j < i, stocks (firstParts c k i x s).2.1 j ≤ stocks x j) ∧
      ((firstParts c k i x s).1.isSome →
        ∀ j, i ≤ j → j < i + k → stocks (firstParts c k i x s).2.1 j < capacity j) := by
  induction k generalizing i x s with
  | zero => exact ⟨fun _ _ => Nat.le_refl _, fun _ j hij hj => by omega⟩
  | succ k ih =>
    have hi : i < c.count := by omega
    have hle := h.step i (c.restart i x) s
    have hyields := h.yields (c.restart i x) s hi (hends i hi)
    have hfull := h.restart x hi
    have hothers (j : Nat) (hj : j < i) : stocks (c.restart i x) j ≤ stocks x j :=
      h.others i x (Nat.ne_of_lt hj)
    unfold firstParts
    generalize c.step i (c.restart i x) s = q at hle hyields ⊢
    obtain ⟨m?, x', s'⟩ := q
    cases m? with
    | none =>
      exact ⟨fun j hj => (hle j).trans (hothers j hj), fun h => absurd h Bool.false_ne_true⟩
    | some m =>
      obtain ⟨hle', hlt'⟩ := ih (i + 1) x' s' (by omega)
      dsimp only at hle hyields ⊢
      generalize firstParts c k (i + 1) x' s' = r at hle' hlt' ⊢
      obtain ⟨ms?, x'', s''⟩ := r
      have hbefore (j : Nat) (hj : j < i) : stocks x'' j ≤ stocks x j :=
        (hle' j (by omega)).trans ((hle j).trans (hothers j hj))
      cases ms? with
      | none => exact ⟨hbefore, fun h => absurd h Bool.false_ne_true⟩
      | some ms =>
        refine ⟨hbefore, fun _ j hij hj => ?_⟩
        rcases Nat.eq_or_lt_of_le hij with rfl | hij
        · exact Nat.lt_of_le_of_lt (hle' i (by omega)) (Nat.lt_of_lt_of_le hyields hfull)
        · exact hlt' rfl j hij (by omega)

theorem stock_turn (h : c.Ends ends capacity stocks) (hends : ∀ i < c.count, ends i)
    (current : List (Move S V)) (p : Nat) (x : σ) (s : Source) (hp : p ≤ c.count)
    (hsome : (turn c current p x s).1.isSome) :
    odometer capacity (stocks (turn c current p x s).2.1) 0 c.count <
      odometer capacity (stocks x) 0 c.count := by
  induction p generalizing x s with
  | zero => cases hsome
  | succ p ih =>
    have hle := h.step p x s
    have hyields := h.yields x s hp (hends p hp)
    unfold turn at hsome ⊢
    generalize c.step p x s = q at hle hyields hsome ⊢
    obtain ⟨m?, x', s'⟩ := q
    cases m? with
    | none => exact Nat.lt_of_lt_of_le (ih x' s' (by omega) hsome) (odometer_le hle 0 _)
    | some m =>
      obtain ⟨hle', hlt'⟩ := stock_firstParts h hends (c.count - (p + 1)) (p + 1) x' s' (by omega)
      dsimp only at hle hyields hsome ⊢
      generalize firstParts c (c.count - (p + 1)) (p + 1) x' s' = r at hle' hlt' hsome ⊢
      obtain ⟨ms?, x'', s''⟩ := r
      cases ms? with
      | none => cases hsome
      | some ms =>
        refine odometer_lt 0 c.count (Nat.zero_le p) (by omega) (fun j hj => ?_) ?_
          fun j hpj hj => ?_
        · exact (hle' j (by omega)).trans (hle j)
        · exact Nat.lt_of_le_of_lt (hle' p (by omega)) hyields
        · exact hlt' rfl j hpj (by omega)

/-- A bound on the composites that are left: a random product takes from all children at once, an
ordered one turns its odometer. -/
def stock (random : Bool) (n : Nat) (capacity stocks : Nat → Nat) (w : ProductWalk S V) : Nat :=
  if random then together n stocks else if w.done then 0 else odometer capacity stocks 0 n

theorem stock_nextRandom (h : c.Ends ends capacity stocks) (hsome : ∃ i < c.count, ends i)
    (w : ProductWalk S V) (x : σ) (s : Source) :
    together c.count (stocks (w.nextRandom c x s).2.2.1) + yielded (w.nextRandom c x s).1 ≤
      together c.count (stocks x) := by
  obtain ⟨i, hi, hends⟩ := hsome
  have hparts := stock_parts h c.count 0 x s (by omega)
  unfold nextRandom
  generalize parts c c.count 0 x s = q at hparts ⊢
  obtain ⟨ms?, x', s'⟩ := q
  obtain ⟨hle, hlt⟩ := hparts
  cases ms? with
  | none => exact together_le hle
  | some ms => exact together_lt hle hi (hlt rfl i (Nat.zero_le i) (by omega) hends)

/-- An ordered product that yields nothing is done. -/
theorem stock_nextOrderly (h : c.Ends ends capacity stocks) (hends : ∀ i < c.count, ends i)
    (hcount : c.count ≠ 0) {w : ProductWalk S V} (hdone : ¬w.done) (x : σ) (s : Source) :
    (w.nextOrderly c x s).2.1.stock false c.count capacity (stocks (w.nextOrderly c x s).2.2.1) +
        yielded (w.nextOrderly c x s).1 ≤
      odometer capacity (stocks x) 0 c.count := by
  have hnext (ms : List (Move S V)) (r : Nat → Nat) :
      ProductWalk.stock false c.count capacity r { w with current := ms } =
        odometer capacity r 0 c.count := by
    unfold ProductWalk.stock
    exact if_neg hdone
  have hparts := stock_parts h c.count 0 x s (by omega)
  have hturn := stock_turn h hends w.current c.count x s (Nat.le_refl _)
  unfold nextOrderly
  split
  · generalize parts c c.count 0 x s = q at hparts ⊢
    obtain ⟨ms?, x', s'⟩ := q
    obtain ⟨hle, hlt⟩ := hparts
    cases ms? with
    | none => exact Nat.zero_le _
    | some ms =>
      -- The last child has yielded a move, and there is none behind it.
      dsimp only
      rw [hnext]
      have hlast := hlt rfl (c.count - 1) (Nat.zero_le _) (by omega) (hends _ (by omega))
      refine odometer_lt 0 c.count (Nat.zero_le _) (by omega) (fun j _ => hle j) hlast
        fun j hpj hj => ?_
      omega
  · generalize turn c w.current c.count x s = q at hturn ⊢
    obtain ⟨ms?, x', s'⟩ := q
    cases ms? with
    | none => exact Nat.zero_le _
    | some ms =>
      dsimp only
      rw [hnext]
      exact hturn rfl

/-- A product that ends takes its composites from its stock. -/
theorem stock_next (h : c.Ends ends capacity stocks) {random : Bool}
    (hsome : random = true → c.count ≠ 0 → ∃ i < c.count, ends i)
    (hall : random = false → ∀ i < c.count, ends i) (w : ProductWalk S V) (x : σ) (s : Source) :
    (w.next c random x s).2.1.stock random c.count capacity (stocks (w.next c random x s).2.2.1) +
        yielded (w.next c random x s).1 ≤
      w.stock random c.count capacity (stocks x) := by
  unfold ProductWalk.next
  split
  · exact Nat.le_refl _
  next hgoing =>
  obtain ⟨hcount, hdone⟩ := not_or.1 hgoing
  cases random with
  | true => exact stock_nextRandom h (hsome rfl hcount) w x s
  | false =>
    have hstock : w.stock false c.count capacity (stocks x) =
        odometer capacity (stocks x) 0 c.count := by
      unfold ProductWalk.stock
      rw [if_neg hdone]
      rfl
    rw [hstock]
    exact stock_nextOrderly h (hall rfl) hcount hdone x s

end ProductWalk

/-! ## Filters -/

/-- Draws until a move is kept or there is none, with no bound on the draws. -/
inductive Sieved (keep : Move S V → Bool) (step : σ → Source → Option (Move S V) × σ × Source) :
    σ → Source → Option (Move S V) × σ × Source → Prop
  | dry {x x' : σ} {s s' : Source} (h : step x s = (none, x', s')) :
    Sieved keep step x s (none, x', s')
  | kept {x x' : σ} {s s' : Source} {m : Move S V} (h : step x s = (some m, x', s')) (hm : keep m) :
    Sieved keep step x s (some m, x', s')
  | refused {x x' : σ} {s s' : Source} {m : Move S V} {r : Option (Move S V) × σ × Source}
    (h : step x s = (some m, x', s')) (hm : ¬keep m) (rest : Sieved keep step x' s' r) :
    Sieved keep step x s r

section

variable {stock : σ → Nat} {step : σ → Source → Option (Move S V) × σ × Source}
  {keep : Move S V → Bool}

theorem stock_nextKept
    (hstep : ∀ x s, stock (step x s).2.1 + yielded (step x s).1 ≤ stock x) (k : Nat) (x : σ)
    (s : Source) :
    stock (nextKept keep step k x s).2.1 + yielded (nextKept keep step k x s).1 ≤ stock x := by
  induction k generalizing x s with
  | zero => exact Nat.le_refl _
  | succ k ih =>
    have hle := hstep x s
    unfold nextKept
    generalize step x s = q at hle ⊢
    obtain ⟨m?, x', s'⟩ := q
    cases m? with
    | none => exact hle
    | some m =>
      dsimp only at hle ⊢
      split
      · exact hle
      · exact (ih x' s').trans (Nat.le_of_succ_le hle)

/-- A bound above the stock is never reached. -/
theorem nextKept_sieved
    (hstep : ∀ x s, stock (step x s).2.1 + yielded (step x s).1 ≤ stock x) (k : Nat) (x : σ)
    (s : Source) (hk : stock x < k) : Sieved keep step x s (nextKept keep step k x s) := by
  induction k generalizing x s with
  | zero => exact absurd hk (Nat.not_lt_zero _)
  | succ k ih =>
    have hle := hstep x s
    unfold nextKept
    rcases h : step x s with ⟨_ | m, x', s'⟩
    · exact .dry h
    · rw [h] at hle
      dsimp only
      split
      · next hm => exact .kept h hm
      · next hm =>
        refine .refused h hm (ih x' s' ?_)
        exact Nat.lt_of_lt_of_le hle (Nat.le_of_lt_succ hk)

end

end PlanSearch
