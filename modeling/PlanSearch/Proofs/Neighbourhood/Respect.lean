import PlanSearch.Neighbourhood.Tree

/-!
# Neighbourhoods of plans that are alike

A neighbourhood asks a plan for its entities, for those that are pinned, for values and weights, and
whether a move is to be kept. If none of these tells plans that are alike from each other, a walk
draws the same moves on both.

    Plan.SharesEntities like → t.AsksAlike like → like p q →
      t.next p = t.next q                                                (Tree.next_congr)
-/

namespace PlanSearch

variable {S V : Type} {sh : Shape} [Plan S sh] {like : S → S → Prop} {p q : S}

/-- Plans that are alike have the same entities, the same of which are pinned, and as many variables
without a value. -/
structure Plan.Respects (like : S → S → Prop) : Prop where
  entityCount : ∀ {p q : S}, like p q → Plan.entityCount p = Plan.entityCount q
  isPinned : ∀ {p q : S}, like p q → Plan.isPinned p = Plan.isPinned q
  unassignedCount : ∀ {p q : S}, like p q → Plan.unassignedCount p = Plan.unassignedCount q

/-- Plans that are alike have the same entities, the same of which are pinned. -/
structure Plan.SharesEntities (like : S → S → Prop) : Prop where
  entityCount : ∀ {p q : S}, like p q → Plan.entityCount p = Plan.entityCount q
  isPinned : ∀ {p q : S}, like p q → Plan.isPinned p = Plan.isPinned q

theorem Plan.Respects.sharesEntities (h : Plan.Respects like) : Plan.SharesEntities like :=
  ⟨h.entityCount, h.isPinned⟩

theorem Plan.SharesEntities.movable (h : Plan.SharesEntities like) (hpq : like p q) :
    Plan.movable p = Plan.movable q := by
  funext family
  unfold Plan.movable
  rw [h.entityCount hpq, h.isPinned hpq]

/-! ## Moves -/

/-- Whether a move can be applied depends on the values of its slots, beside entities and pins. -/
theorem Move.isDoable_congr [DecidableEq V] (h : Plan.SharesEntities like) (hpq : like p q) {m : Move S V}
    (hget : ∀ a ∈ m.slots, a.get p = a.get q) : m.isDoable p = m.isDoable q := by
  have hopen : ∀ x : Variable S V, Leaf.isOpen x p = Leaf.isOpen x q := fun x => by
    funext e
    unfold Leaf.isOpen
    rw [h.entityCount hpq, h.isPinned hpq]
  unfold isDoable
  rw [List.any_eq, List.any_eq]
  refine decide_eq_decide.2 (exists_congr fun leaf => and_congr_right fun hleaf => ?_)
  have hslots : ∀ a ∈ leaf.slots, a.get p = a.get q := fun a ha =>
    hget a (List.mem_flatMap.2 ⟨leaf, hleaf, ha⟩)
  cases leaf with
  | change x e v =>
    have he : x.get p e = x.get q e := hslots ⟨x, e⟩ List.mem_cons_self
    unfold Leaf.isDoable
    dsimp only
    rw [hopen, he]
  | swap x left right =>
    have hl : x.get p left = x.get q left := hslots ⟨x, left⟩ List.mem_cons_self
    have hr : x.get p right = x.get q right :=
      hslots ⟨x, right⟩ (List.mem_cons_of_mem _ List.mem_cons_self)
    unfold Leaf.isDoable
    dsimp only
    rw [hopen, hl, hr]

/-! ## Leaves -/

/-- The values do not tell plans that are alike from each other. -/
def ValueRange.Respects (like : S → S → Prop) : ValueRange S V → Prop
  | listed _ => True
  | computed values => ∀ p q, like p q → values p = values q
  | perEntity values => ∀ p q, like p q → values p = values q

theorem Definition.choices_congr {d : Definition S V} (h : d.range.Respects like) (hpq : like p q) :
    d.choices p = d.choices q := by
  obtain ⟨entityClass, cell, range, allowsUnassigned, difficulty⟩ := d
  cases range with
  | listed values => rfl
  | computed values =>
    funext e
    exact congrArg (fun vs : List V => (if allowsUnassigned then [none] else []) ++ vs.map some)
      (h p q hpq)
  | perEntity values =>
    funext e
    exact congrArg (fun vs : Nat → List V =>
      (if allowsUnassigned then [none] else []) ++ (vs e).map some) (h p q hpq)

namespace EntityWalk

theorem prepare_congr (h : Plan.movable p = Plan.movable q) :
    EntityWalk.prepare p = EntityWalk.prepare q := by
  funext family order w s
  unfold prepare refresh
  rw [h]

theorem next_congr (h : Plan.movable p = Plan.movable q) :
    EntityWalk.next p = EntityWalk.next q := by
  funext family order w s
  unfold EntityWalk.next
  rw [prepare_congr h]

end EntityWalk

namespace ValueWalk

variable {d : Definition S V}

theorem start_congr (h : d.choices p = d.choices q) : start p d = start q d := by
  funext order entity w s
  unfold start
  rw [h]

theorem next_congr (h : d.choices p = d.choices q) : ValueWalk.next p d = ValueWalk.next q d := by
  funext order entity w s
  unfold ValueWalk.next
  rw [start_congr h]

end ValueWalk

namespace ChangeWalk

variable {d : Definition S V}

theorem nextRandom_congr (hm : Plan.movable p = Plan.movable q) (hd : d.choices p = d.choices q) :
    nextRandom p d = nextRandom q d := by
  funext attempts
  induction attempts with
  | zero => rfl
  | succ attempts ih =>
    funext w s
    rw [nextRandom, nextRandom, EntityWalk.next_congr hm, ValueWalk.next_congr hd, ih]

theorem advance_congr (hd : d.choices p = d.choices q) : advance p d = advance q d := by
  funext order es
  induction es with
  | nil => rfl
  | cons e es ih =>
    funext values s
    rw [advance, advance, ValueWalk.start_congr hd, ValueWalk.next_congr hd, ih]

theorem next_congr (hc : Plan.entityCount p = Plan.entityCount q)
    (hm : Plan.movable p = Plan.movable q) (hd : d.choices p = d.choices q) :
    ChangeWalk.next p d = ChangeWalk.next q d := by
  have hentity : nextEntity p d = nextEntity q d := by
    funext order w s
    unfold nextEntity
    rw [EntityWalk.prepare_congr hm, advance_congr hd]
  have horderly : nextOrderly p d = nextOrderly q d := by
    funext order w s
    unfold nextOrderly
    rw [hentity, ValueWalk.next_congr hd]
  funext order w s
  unfold ChangeWalk.next
  rw [nextRandom_congr hm hd, horderly, hc]

theorem supply_congr (hm : Plan.movable p = Plan.movable q) (hd : d.choices p = d.choices q) :
    supply p d = supply q d := by
  funext w
  unfold supply EntityWalk.upcoming
  rw [hm, hd]

end ChangeWalk

namespace SwapWalk

theorem next_congr (hm : Plan.movable p = Plan.movable q) :
    (SwapWalk.next p : Variable S V → _) = SwapWalk.next q := by
  have hrandom : (nextRandom p : Variable S V → _) = nextRandom q := by
    funext x w s
    unfold nextRandom
    rw [EntityWalk.next_congr hm]
  have horderly : (nextOrderly p : Variable S V → _) = nextOrderly q := by
    funext x order w s
    unfold nextOrderly prepare
    rw [hm]
  funext x order w s
  unfold SwapWalk.next
  rw [hrandom, horderly]

theorem supply_congr (hm : Plan.movable p = Plan.movable q) :
    (supply p : Variable S V → _) = supply q := by
  funext x w
  unfold supply
  rw [hm]

end SwapWalk

/-! ## Trees -/

/-- The weights do not tell plans that are alike from each other. -/
def Weights.Respects (like : S → S → Prop) : Weights S → Prop
  | perStep weight => ∀ p q, like p q → weight p = weight q
  | _ => True

theorem Weights.resolve_congr {w : Weights S} (h : w.Respects like) (hpq : like p q) (n : Nat) :
    w.resolve n p = w.resolve n q := by
  cases w with
  | perStep weight =>
    unfold resolve
    dsimp only
    rw [h p q hpq]
  | _ => rfl

/-- The weights are asked for if children are drawn at random, and only then. -/
theorem UnionWalk.next_congr {σ : Type} {c : Children S V σ} {weights : Weights S} {random : Bool}
    (h : random → weights.Respects like) (hpq : like p q) (u : UnionWalk) (x : σ) (s : Source) :
    u.next c random weights p x s = u.next c random weights q x s := by
  unfold UnionWalk.next
  split
  · next hrandom => rw [Weights.resolve_congr (h hrandom) hpq]
  · rfl

theorem UnionWalk.hear_congr {weights : Weights S} {random : Bool}
    (h : random → weights.Respects like) (hpq : like p q) (n : Nat) (e : Event) (u : UnionWalk) :
    u.hear n random weights p e = u.hear n random weights q e := by
  unfold UnionWalk.hear
  cases random with
  | false => rfl
  | true => rw [Weights.resolve_congr (h rfl) hpq]

namespace Tree

mutual

/-- What the tree asks of a plan does not tell plans that are alike from each other. -/
def Respects (like : S → S → Prop) : Tree S V → Prop
  | change d _ => d.range.Respects like
  | swap _ _ => True
  | union children _ weights => weights.Respects like ∧ RespectsAll like children
  | product children _ => RespectsAll like children
  | filter child keep => (∀ p q, like p q → keep p = keep q) ∧ Respects like child

def RespectsAll (like : S → S → Prop) : List (Tree S V) → Prop
  | [] => True
  | t :: ts => Respects like t ∧ RespectsAll like ts

end

mutual

/-- What walks through the tree ask of a plan does not tell plans that are alike from each other.
They do not ask for the weights of a union that is orderly. -/
def AsksAlike (like : S → S → Prop) : Tree S V → Prop
  | change d _ => d.range.Respects like
  | swap _ _ => True
  | union children random weights =>
    (random → weights.Respects like) ∧ AsksAlikeAll like children
  | product children _ => AsksAlikeAll like children
  | filter child keep => (∀ p q, like p q → keep p = keep q) ∧ AsksAlike like child

def AsksAlikeAll (like : S → S → Prop) : List (Tree S V) → Prop
  | [] => True
  | t :: ts => AsksAlike like t ∧ AsksAlikeAll like ts

end

mutual

theorem Respects.asksAlike : (t : Tree S V) → t.Respects like → t.AsksAlike like
  | change _ _, h => h
  | swap _ _, h => h
  | union children _ _, h => ⟨fun _ => h.1, RespectsAll.asksAlikeAll children h.2⟩
  | product children _, h => RespectsAll.asksAlikeAll children h
  | filter child _, h => ⟨h.1, Respects.asksAlike child h.2⟩

theorem RespectsAll.asksAlikeAll : (ts : List (Tree S V)) → RespectsAll like ts →
    AsksAlikeAll like ts
  | [], h => h
  | t :: ts, h => ⟨Respects.asksAlike t h.1, RespectsAll.asksAlikeAll ts h.2⟩

end

mutual

theorem supply_congr (hP : Plan.SharesEntities like) (hpq : like p q) : (t : Tree S V) →
    t.AsksAlike like → t.supply p = t.supply q
  | change d _, h =>
    ChangeWalk.supply_congr (hP.movable hpq) (Definition.choices_congr h hpq)
  | swap x _, _ => congrFun (SwapWalk.supply_congr (hP.movable hpq)) x
  | union children _ _, h => by
    funext ⟨u, x⟩
    exact congrFun (sumSupplies_congr hP hpq children h.2) x
  | product children random, h => by
    funext ⟨w, x⟩
    show (if random then sumSupplies p children x else multiplySupplies p children x) =
      if random then sumSupplies q children x else multiplySupplies q children x
    rw [sumSupplies_congr hP hpq children h, multiplySupplies_congr hP hpq children h]
  | filter child _, h => supply_congr hP hpq child h.2

theorem sumSupplies_congr (hP : Plan.SharesEntities like) (hpq : like p q) : (ts : List (Tree S V)) →
    AsksAlikeAll like ts → sumSupplies p ts = sumSupplies q ts
  | [], _ => rfl
  | t :: ts, h => by
    funext ⟨x, xs⟩
    rw [sumSupplies, sumSupplies, supply_congr hP hpq t h.1, sumSupplies_congr hP hpq ts h.2]

theorem multiplySupplies_congr (hP : Plan.SharesEntities like) (hpq : like p q) :
    (ts : List (Tree S V)) → AsksAlikeAll like ts → multiplySupplies p ts = multiplySupplies q ts
  | [], _ => rfl
  | t :: ts, h => by
    funext ⟨x, xs⟩
    rw [multiplySupplies, multiplySupplies, supply_congr hP hpq t h.1,
      multiplySupplies_congr hP hpq ts h.2]

end

mutual

/-- A walk draws the same on plans that are alike. -/
theorem next_congr (hP : Plan.SharesEntities like) (hpq : like p q) : (t : Tree S V) →
    t.AsksAlike like → t.next p = t.next q
  | change d _, h => by
    funext w
    exact congrFun (congrFun (ChangeWalk.next_congr (hP.entityCount hpq) (hP.movable hpq)
      (Definition.choices_congr h hpq)) _) w
  | swap x order, _ => congrFun (congrFun (SwapWalk.next_congr (hP.movable hpq)) x) order
  | union children random weights, h => by
    funext ⟨u, x⟩ s
    rw [Tree.next, Tree.next, stepAt_congr hP hpq children h.2]
    dsimp only
    rw [UnionWalk.next_congr h.1 hpq]
  | product children random, h => by
    funext ⟨w, x⟩ s
    rw [Tree.next, Tree.next, stepAt_congr hP hpq children h]
  | filter child keep, h => by
    funext x s
    rw [Tree.next, Tree.next, next_congr hP hpq child h.2, supply_congr hP hpq child h.2, h.1 p q hpq]

theorem stepAt_congr (hP : Plan.SharesEntities like) (hpq : like p q) : (ts : List (Tree S V)) →
    AsksAlikeAll like ts → stepAt p ts = stepAt q ts
  | [], _ => rfl
  | t :: ts, h => by
    funext i ⟨x, xs⟩ s
    cases i with
    | zero => rw [stepAt, stepAt, next_congr hP hpq t h.1]
    | succ i => rw [stepAt, stepAt, stepAt_congr hP hpq ts h.2]

end

mutual

/-- A walk takes events the same way on plans that are alike. -/
theorem hear_congr (hpq : like p q) (e : Event) : (t : Tree S V) → t.AsksAlike like →
    t.hear p e = t.hear q e
  | change _ _, _ => rfl
  | swap _ _, _ => rfl
  | union children random weights, h => by
    funext ⟨u, x⟩
    rw [hear, hear, hearAll_congr hpq e children h.2, UnionWalk.hear_congr h.1 hpq]
  | product children _, h => by
    funext ⟨w, x⟩
    rw [hear, hear, hearAll_congr hpq e children h]
  | filter child _, h => hear_congr hpq e child h.2

theorem hearAll_congr (hpq : like p q) (e : Event) : (ts : List (Tree S V)) →
    AsksAlikeAll like ts → hearAll p e ts = hearAll q e ts
  | [], _ => rfl
  | t :: ts, h => by
    funext ⟨x, xs⟩
    rw [hearAll, hearAll, hear_congr hpq e t h.1, hearAll_congr hpq e ts h.2]

end

end Tree

end PlanSearch
