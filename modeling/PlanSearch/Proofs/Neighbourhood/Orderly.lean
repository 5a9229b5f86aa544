import PlanSearch.Proofs.Neighbourhood.Arrangement
import PlanSearch.Proofs.Random.Source

/-!
# Orderly leaves

What an orderly change or swap walk has yet to visit, read off its state. A step takes one move off
that list, in whatever order the leaf visits them, and says that there is none when the list is
empty.

    w.Steady → w.next … yields a move of w.left …, and leaves the others  (ChangeWalk.Steady.next)
    w.next … yields a pair of w.left …, and leaves the others             (SwapWalk.next_yields)
    (w.left …).length ≤ w.supply …                                        (length_left_le)
-/

namespace PlanSearch

variable {α β : Type}

/-- A walk that had `before` left answers `m?` and has `after` left. -/
def Slack.Yields (k : Slack) (norm : α → β) (m? : Option α) (before after : List α) : Prop :=
  match m? with
  | none => before = [] ∧ after = []
  | some m => k.Arranges norm (m :: after) before

namespace Slack.Yields

variable {k : Slack} {norm : α → β} {m? : Option α} {before before' after : List α}

theorem cons {m : α} (h : k.Yields norm (some m) before after) :
    k.Arranges norm (m :: after) before := h

theorem of_arranges (h : k.Yields norm m? before' after)
    (hbefore : k.Arranges norm before' before) : k.Yields norm m? before after := by
  cases m? with
  | none =>
    obtain ⟨rfl, hafter⟩ := h
    exact ⟨hbefore.symm.eq_nil, hafter⟩
  | some m => exact h.cons.trans hbefore

theorem join_left (h : k.Yields norm m? before after) (k' : Slack) :
    (k.join k').Yields norm m? before after := by
  cases m? with
  | none => exact h
  | some m => exact h.cons.join_left k'

theorem join_right (h : k.Yields norm m? before after) (k' : Slack) :
    (k'.join k).Yields norm m? before after := by
  cases m? with
  | none => exact h
  | some m => exact h.cons.join_right k'

end Slack.Yields

namespace Order

/-- The candidates of a leaf in this order may be permuted. -/
def slack : Order → Slack
  | original => .exact
  | _ => .order

/-- The pairs of candidates in this order may be turned round as well. -/
def pairSlack : Order → Slack
  | original => .exact
  | _ => .ends

theorem isRandom_eq_false {order : Order} (h : order ≠ random) : order.isRandom = false :=
  beq_false_of_ne h

theorem arranges_shuffled (order : Order) (norm : α → β) (xs : List α) (s : Source) :
    order.slack.Arranges norm (if order = .shuffled then s.shuffle xs else (xs, s)).1 xs := by
  split
  · next h =>
    subst h
    exact .of_perm nofun (s.shuffle_perm xs)
  · exact .refl _ _ _

theorem pairSlack_of_perm {order : Order} {l l' : List Nat}
    (h : order.slack.Arranges id l l') :
    order.pairSlack.Arranges sorted (Tree.pairs l) (Tree.pairs l') := by
  cases order with
  | original => exact congrArg Tree.pairs h
  | random => exact Tree.perm_pairs h
  | shuffled => exact Tree.perm_pairs h

end Order

/-! ## Entities -/

namespace EntityWalk

variable {S : Type} {sh : Shape} [Plan S sh]

theorem arranges_prepare (plan : S) (family : Nat) (order : Order) (w : EntityWalk) (s : Source) :
    order.slack.Arranges id (w.prepare plan family order s).1.candidates (w.upcoming plan family) ∧
      (w.prepare plan family order s).1.stale = false := by
  unfold prepare upcoming
  split
  · exact ⟨order.arranges_shuffled id _ s, rfl⟩
  · next hstale => exact ⟨.refl _ _ _, Bool.not_eq_true _ ▸ hstale⟩

end EntityWalk

/-! ## Values -/

namespace ValueWalk

variable {S V : Type} {plan : S} {d : Definition S V} {order : Order} {e : Nat} {w : ValueWalk V}

/-- What is listed are the choices of an entity. -/
def Lists (plan : S) (d : Definition S V) (k : Slack) (w : ValueWalk V) : Prop :=
  w.stale = false → ∃ e, w.entity = some e ∧ k.Arranges id w.all (d.choices plan e)

/-- The walk visits the choices of `e`. -/
structure On (plan : S) (d : Definition S V) (k : Slack) (e : Nat) (w : ValueWalk V) : Prop where
  lists : w.Lists plan d k
  current : w.isOutdated d e = false
  bound : w.upcoming.length ≤ (d.choices plan e).length

theorem Lists.arranges {k : Slack} (h : w.Lists plan d k) (he : w.isOutdated d e = false) :
    k.Arranges id w.all (d.choices plan e) := by
  unfold isOutdated at he
  rw [Bool.or_eq_false_iff] at he
  obtain ⟨e', hentity, hall⟩ := h he.1
  rcases hrange : d.range with values | values | values
  · have hchoices : d.choices plan e' = d.choices plan e := by
      unfold Definition.choices
      rw [hrange]
      rfl
    exact hchoices ▸ hall
  · have hchoices : d.choices plan e' = d.choices plan e := by
      unfold Definition.choices
      rw [hrange]
      rfl
    exact hchoices ▸ hall
  · have hsame : e' = e := by simpa [hrange, ValueRange.isPerEntity, hentity] using he.2
    exact hsame ▸ hall

/-- The choices of `e` are listed anew where that is due, and visited from the first one on. -/
theorem Lists.start (h : w.Lists plan d order.slack) (e : Nat) (s : Source) :
    (w.start plan d order e s).1.On plan d order.slack e ∧
      order.slack.Arranges id (w.start plan d order e s).1.upcoming (d.choices plan e) := by
  unfold ValueWalk.start
  split
  · have hall := order.arranges_shuffled id (d.choices plan e) s
    refine ⟨⟨fun _ => ⟨e, rfl, hall⟩, ?_, Nat.le_of_eq hall.length_eq⟩, hall⟩
    simp [isOutdated]
  · next hcurrent =>
    rw [Bool.not_eq_true] at hcurrent
    have hall := (order.arranges_shuffled id w.all s).trans (h.arranges hcurrent)
    refine ⟨⟨fun hstale => ?_, hcurrent, Nat.le_of_eq hall.length_eq⟩, hall⟩
    obtain ⟨e', hentity, hlisted⟩ := h hstale
    exact ⟨e', hentity, (order.arranges_shuffled id w.all s).trans hlisted⟩

/-- An orderly walk takes the first of the upcoming values. -/
theorem next_eq (he : w.isOutdated d e = false) (ho : order.isRandom = false) (s : Source) :
    w.next plan d order e s =
      match w.upcoming with
      | [] => (none, w, s)
      | v :: rest => (some v, { w with upcoming := rest }, s) := by
  unfold ValueWalk.next
  rw [he, ho]
  rfl

theorem On.rest {k : Slack} (h : w.On plan d k e) {v : Option V} {rest : List (Option V)}
    (hw : w.upcoming = v :: rest) : ValueWalk.On plan d k e { w with upcoming := rest } := by
  have hbound := h.bound
  rw [hw, List.length_cons] at hbound
  exact ⟨h.lists, h.current, Nat.le_of_succ_le hbound⟩

end ValueWalk

/-! ## Changes -/

namespace ChangeWalk

variable {S V : Type} {sh : Shape} [Plan S sh]

/-- The moves that assign these values to an entity. -/
def assigns (d : Definition S V) (e : Nat) (values : List (Option V)) : List (Move S V) :=
  values.map fun v => .leaf (.change d.cell e v)

/-- The moves that assign to these entities. -/
def assignsAll (plan : S) (d : Definition S V) (es : List Nat) : List (Move S V) :=
  es.flatMap fun e => assigns d e (d.choices plan e)

/-- What an orderly walk has yet to visit. -/
def left (plan : S) (d : Definition S V) (w : ChangeWalk V) : List (Move S V) :=
  w.current.elim [] (fun e => assigns d e w.values.upcoming) ++
    assignsAll plan d (w.entities.upcoming plan d.cell.family)

/-- The values at hand are those of the entity that the walk is at. -/
structure Steady (plan : S) (d : Definition S V) (order : Order) (w : ChangeWalk V) : Prop where
  lists : w.values.Lists plan d order.slack
  on : ∀ e, w.current = some e → w.values.On plan d order.slack e

variable {plan : S} {d : Definition S V} {order : Order} {w : ChangeWalk V}

theorem arranges_assigns {k : Slack} (e : Nat) {vs vs' : List (Option V)}
    (h : k.Arranges id vs vs') : k.Arranges Move.upright (assigns d e vs) (assigns d e vs') :=
  h.map (g := fun v => .leaf (.change d.cell e v)) fun _ => rfl

theorem arranges_assignsAll {es es' : List Nat} (h : order.slack.Arranges id es es') :
    order.slack.Arranges Move.upright (assignsAll plan d es) (assignsAll plan d es') := by
  cases order with
  | original => exact congrArg (assignsAll plan d) h
  | random => exact List.Perm.flatMap_right _ h
  | shuffled => exact List.Perm.flatMap_right _ h

theorem advance_yields (ho : order.isRandom = false) (es : List Nat) {values : ValueWalk V}
    (h : values.Lists plan d order.slack) (s : Source) :
    match advance plan d order es values s with
    | (none, rest, values', _) =>
      rest = [] ∧ assignsAll plan d es = [] ∧ values'.Lists plan d order.slack
    | (some (e, v), rest, values', _) =>
      values'.On plan d order.slack e ∧
        order.slack.Arranges Move.upright
          (.leaf (.change d.cell e v) :: (assigns d e values'.upcoming ++ assignsAll plan d rest))
          (assignsAll plan d es) := by
  induction es generalizing values s with
  | nil => exact ⟨rfl, rfl, h⟩
  | cons e rest ih =>
    obtain ⟨hon, hlisted⟩ := h.start e s
    unfold advance
    generalize values.start plan d order e s = q at hon hlisted ⊢
    obtain ⟨values', s'⟩ := q
    dsimp only at hon hlisted ⊢
    rw [ValueWalk.next_eq hon.current ho]
    rcases hupcoming : values'.upcoming with _ | ⟨v, vs⟩
    · -- The entity has no values.
      have hchoices : d.choices plan e = [] := by
        rw [hupcoming] at hlisted
        exact hlisted.symm.eq_nil
      have hall : assignsAll plan d (e :: rest) = assignsAll plan d rest := by
        show assigns d e (d.choices plan e) ++ assignsAll plan d rest = _
        rw [hchoices]
        rfl
      rw [hall]
      exact ih hon.lists s'
    · refine ⟨hon.rest hupcoming, ?_⟩
      rw [hupcoming] at hlisted
      exact (arranges_assigns e hlisted).append (.refl _ _ (assignsAll plan d rest))

theorem Steady.nextEntity (h : w.Steady plan d order) (ho : order.isRandom = false)
    (hw : w.current.elim [] (fun e => assigns d e w.values.upcoming) = []) (s : Source) :
    (w.nextEntity plan d order s).2.1.Steady plan d order ∧
      order.slack.Yields Move.upright (w.nextEntity plan d order s).1 (w.left plan d)
        ((w.nextEntity plan d order s).2.1.left plan d) := by
  have hleft : w.left plan d = assignsAll plan d (w.entities.upcoming plan d.cell.family) := by
    unfold left
    rw [hw, List.nil_append]
  obtain ⟨hentities, hstale⟩ := w.entities.arranges_prepare plan d.cell.family order s
  rw [hleft]
  unfold ChangeWalk.nextEntity
  generalize w.entities.prepare plan d.cell.family order s = q at hentities hstale ⊢
  obtain ⟨entities, s'⟩ := q
  dsimp only at hentities hstale ⊢
  have hupcoming (rest : List Nat) :
      EntityWalk.upcoming plan d.cell.family { entities with candidates := rest } = rest := by
    unfold EntityWalk.upcoming
    rw [hstale]
    rfl
  have hadvance := advance_yields ho entities.candidates h.lists s'
  generalize advance plan d order entities.candidates w.values s' = r at hadvance ⊢
  obtain ⟨next?, rest, values', s''⟩ := r
  cases next? with
  | none =>
    obtain ⟨rfl, hnil, hlists⟩ := hadvance
    refine ⟨⟨hlists, nofun⟩, ?_, ?_⟩
    · have hall : order.slack.Arranges Move.upright (assignsAll plan d entities.candidates)
          (assignsAll plan d (w.entities.upcoming plan d.cell.family)) :=
        arranges_assignsAll hentities
      rw [hnil] at hall
      exact hall.symm.eq_nil
    · show [] ++ assignsAll plan d _ = []
      rw [hupcoming]
      rfl
  | some ev =>
    obtain ⟨hon, hyields⟩ := hadvance
    refine ⟨⟨hon.lists, fun e he => ?_⟩, ?_⟩
    · cases he
      exact hon
    · show order.slack.Arranges Move.upright
        (_ :: (assigns d ev.1 values'.upcoming ++ assignsAll plan d _)) _
      rw [hupcoming]
      exact hyields.trans (arranges_assignsAll hentities)

theorem Steady.next (h : w.Steady plan d order) (ho : order.isRandom = false) (s : Source) :
    (w.next plan d order s).2.1.Steady plan d order ∧
      order.slack.Yields Move.upright (w.next plan d order s).1 (w.left plan d)
        ((w.next plan d order s).2.1.left plan d) := by
  unfold ChangeWalk.next
  rw [ho]
  show (w.nextOrderly plan d order s).2.1.Steady plan d order ∧ _
  unfold ChangeWalk.nextOrderly
  rcases hcurrent : w.current with _ | e
  · exact h.nextEntity ho (by rw [hcurrent]; rfl) s
  · have hon := h.on e hcurrent
    dsimp only
    rw [ValueWalk.next_eq hon.current ho]
    rcases hupcoming : w.values.upcoming with _ | ⟨v, vs⟩
    · exact h.nextEntity ho (by rw [hcurrent, hupcoming]; rfl) s
    · have hrest := hon.rest hupcoming
      refine ⟨⟨hrest.lists, fun e' he' => ?_⟩, .of_eq ?_⟩
      · obtain rfl : e = e' := Option.some.inj he'
        exact hrest
      · unfold left
        rw [hcurrent, hupcoming]
        rfl

theorem add_length_assignsAll_le (bound : Nat → Nat)
    (hbound : ∀ e, (d.choices plan e).length ≤ bound e) (es : List Nat) {n m : Nat} (h : n ≤ m) :
    n + (assignsAll plan d es).length ≤ es.foldl (fun n e => n + bound e) m := by
  induction es generalizing n m with
  | nil => exact h
  | cons e es ih =>
    have hcons : (assignsAll plan d (e :: es)).length =
        (d.choices plan e).length + (assignsAll plan d es).length := by
      show (assigns d e (d.choices plan e) ++ assignsAll plan d es).length = _
      rw [List.length_append]
      unfold assigns
      rw [List.length_map]
    have hrest := ih (n := n + (d.choices plan e).length) (m := m + bound e)
      (Nat.add_le_add h (hbound e))
    rw [hcons, ← Nat.add_assoc]
    exact hrest

theorem Steady.length_left_le (h : w.Steady plan d order) :
    (w.left plan d).length ≤ w.supply plan d := by
  unfold left supply
  rw [List.length_append]
  refine add_length_assignsAll_le _ (fun e => Nat.le_add_left _ _) _ ?_
  rcases hcurrent : w.current with _ | e
  · exact Nat.le_refl 0
  · have hbound := (h.on e hcurrent).bound
    show (assigns d e w.values.upcoming).length ≤ _ + _
    unfold assigns
    rw [List.length_map]
    omega

end ChangeWalk

/-! ## Swaps -/

namespace SwapWalk

variable {S V : Type} {sh : Shape} [Plan S sh]

/-- The moves that exchange these pairs. -/
def swaps (x : Variable S V) (ps : List (Nat × Nat)) : List (Move S V) :=
  ps.map fun (a, b) => .leaf (.swap x a b)

/-- The first of `lefts` with each of `rights`, then the pairs of the other `lefts`. -/
def pairsLeft (lefts rights : List Nat) : List (Nat × Nat) :=
  match lefts with
  | [] => []
  | left :: lefts => rights.map (left, ·) ++ Tree.pairs lefts

/-- What an orderly walk has yet to visit. -/
def left (plan : S) (x : Variable S V) (w : SwapWalk) : List (Move S V) :=
  swaps x (if w.stale then Tree.pairs (Plan.movable plan x.family)
    else pairsLeft w.lefts w.rights)

variable {plan : S} {x : Variable S V} {order : Order}

theorem arranges_swaps {k : Slack} {ps qs : List (Nat × Nat)} (h : k.Arranges sorted ps qs) :
    k.Arranges Move.upright (swaps x ps) (swaps x qs) :=
  h.map (g := fun p => .leaf (.swap x p.1 p.2)) fun _ => rfl

theorem pairsLeft_tail (l : List Nat) : pairsLeft l l.tail = Tree.pairs l := by
  cases l with
  | nil => rfl
  | cons a l => rfl

theorem nextPair_yields (lefts rights : List Nat) :
    match nextPair lefts rights with
    | (none, lefts', rights') => pairsLeft lefts rights = [] ∧ pairsLeft lefts' rights' = []
    | (some p, lefts', rights') => pairsLeft lefts rights = p :: pairsLeft lefts' rights' := by
  match lefts, rights with
  | left :: lefts, right :: rights => rfl
  | _ :: left :: [], [] => exact ⟨rfl, rfl⟩
  | _ :: left :: right :: rights, [] => rfl
  | [_], [] => exact ⟨rfl, rfl⟩
  | [], _ => exact ⟨rfl, rfl⟩

theorem next_yields (ho : order.isRandom = false) (w : SwapWalk) (s : Source) :
    order.pairSlack.Yields Move.upright (w.next plan x order s).1 (w.left plan x)
      ((w.next plan x order s).2.1.left plan x) := by
  -- Listing the entities changes the order of what is left only.
  have hprepare : (w.prepare plan x order s).1.stale = false ∧
      order.pairSlack.Arranges Move.upright
        (swaps x (pairsLeft (w.prepare plan x order s).1.lefts (w.prepare plan x order s).1.rights))
        (w.left plan x) := by
    unfold prepare left
    split
    · refine ⟨rfl, arranges_swaps ?_⟩
      show order.pairSlack.Arranges sorted (pairsLeft _ (List.tail _)) _
      rw [pairsLeft_tail]
      exact Order.pairSlack_of_perm (order.arranges_shuffled id _ s)
    · next hstale => exact ⟨Bool.not_eq_true _ ▸ hstale, .refl _ _ _⟩
  unfold SwapWalk.next
  rw [ho]
  show order.pairSlack.Yields Move.upright (w.nextOrderly plan x order s).1 _ _
  unfold SwapWalk.nextOrderly
  generalize w.prepare plan x order s = q at hprepare ⊢
  obtain ⟨w', s'⟩ := q
  obtain ⟨hstale, hleft⟩ := hprepare
  have hpair := nextPair_yields w'.lefts w'.rights
  have hafter (lefts rights : List Nat) :
      left plan x { w' with lefts, rights } = swaps x (pairsLeft lefts rights) := by
    unfold left
    rw [hstale]
    rfl
  dsimp only at hleft ⊢
  generalize nextPair w'.lefts w'.rights = r at hpair ⊢
  obtain ⟨p?, lefts, rights⟩ := r
  cases p? with
  | none =>
    rw [hpair.1] at hleft
    refine ⟨hleft.symm.eq_nil, ?_⟩
    show left plan x { w' with lefts, rights } = []
    rw [hafter, hpair.2]
    rfl
  | some p =>
    rw [hpair] at hleft
    show order.pairSlack.Arranges Move.upright (_ :: left plan x { w' with lefts, rights }) _
    rw [hafter]
    exact hleft

theorem length_pairs_le (l : List Nat) : (Tree.pairs l).length ≤ l.length * l.length := by
  rw [Tree.length_pairs]
  exact Nat.le_trans (Nat.div_le_self _ _) (Nat.mul_le_mul_left _ (Nat.sub_le _ _))

theorem length_left_le (w : SwapWalk) : (w.left plan x).length ≤ w.supply plan x := by
  unfold left supply swaps
  rw [List.length_map]
  split
  · have hpairs := length_pairs_le (Plan.movable plan x.family)
    dsimp only
    omega
  · unfold pairsLeft
    split
    · exact Nat.zero_le _
    · next a lefts hlefts =>
      have hpairs := length_pairs_le lefts
      rw [List.length_append, List.length_map, hlefts, List.length_cons]
      dsimp only
      rw [Nat.add_mul, Nat.mul_add]
      omega

end SwapWalk

end PlanSearch
