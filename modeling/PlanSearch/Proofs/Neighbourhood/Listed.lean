import PlanSearch.Proofs.Neighbourhood.Draws

/-!
# Where the leaves of drawn moves come from

A walk remembers entities and values that were listed on some plan since it was started over. If all
those plans are `good`, a change that it draws assigns to an entity that was movable on a good plan a
value that was to choose from on a good plan, and a swap exchanges two entities of that kind. Where
such leaves are `fine`, so are all leaves of the moves that a tree yields.

    t.Suits fine good → t.Listed fine good x → t.next plan x s yields a move of fine leaves
                                                                             (Tree.Listed.next)
-/

namespace PlanSearch

variable {S V : Type} {sh : Shape} [Plan S sh]

/-- All leaves of the move are `fine`. -/
def Move.All (fine : Leaf S V → Prop) (m : Move S V) : Prop := ∀ leaf ∈ m.leaves, fine leaf

omit [Plan S sh] in
theorem Move.all_leaf {fine : Leaf S V → Prop} {leaf : Leaf S V} (h : fine leaf) :
    (Move.leaf leaf).All fine :=
  List.forall_mem_singleton.2 h

omit [Plan S sh] in
theorem Move.all_composite {fine : Leaf S V → Prop} {ms : List (Move S V)}
    (h : ∀ m ∈ ms, m.All fine) : (composite ms).All fine := by
  intro leaf hleaf
  obtain ⟨m, hm, hleaf⟩ := mem_leavesOf.1 hleaf
  exact h m hm leaf hleaf

/-- The slot is one of an entity that is movable on a good plan. -/
def Slot.Known (good : S → Prop) (a : Slot S V) : Prop :=
  ∃ p, good p ∧ a.entity ∈ Plan.movable p a.cell.family

/-- The value is to choose from on a good plan: for the entity if the range is one for each entity,
and for any entity if not. -/
def Definition.Offers (good : S → Prop) (d : Definition S V) (entity : Nat) (v : Option V) : Prop :=
  ∃ p e, good p ∧ (d.range.isPerEntity → e = entity) ∧ v ∈ d.choices p e

/-! ## Values -/

namespace ValueWalk

variable {good : S → Prop} {d : Definition S V} {entity : Nat} {w : ValueWalk V} {plan : S}

/-- The values at hand were listed on a good plan, for an entity whose values are those of
`entity`. -/
structure Turned (good : S → Prop) (d : Definition S V) (entity : Nat) (w : ValueWalk V) : Prop where
  stale : w.stale = false
  source : ∃ p e, good p ∧ (d.range.isPerEntity → e = entity) ∧ w.entity = some e ∧
    (∀ v ∈ w.all, v ∈ d.choices p e) ∧ ∀ v ∈ w.upcoming, v ∈ d.choices p e

/-- Unless they are to be listed anew, the values at hand were listed on a good plan. -/
def Listed (good : S → Prop) (d : Definition S V) (w : ValueWalk V) : Prop :=
  w.stale = false → ∃ entity, w.Turned good d entity

omit [Plan S sh] in
theorem Turned.toListed (h : w.Turned good d entity) : w.Listed good d := fun _ => ⟨entity, h⟩

omit [Plan S sh] in
theorem listed_restart (good : S → Prop) (d : Definition S V) (w : ValueWalk V) :
    w.restart.Listed good d := nofun

omit [Plan S sh] in
theorem listed_hear (good : S → Prop) (d : Definition S V) (w : ValueWalk V) {e : Event}
    (he : e.restarts) : (w.hear e).Listed good d := by
  unfold hear
  dsimp only
  rw [if_pos he]
  exact listed_restart good d _

omit [Plan S sh] in
/-- Values that are not outdated are those of the entity. -/
theorem Listed.turned (h : w.Listed good d) (hw : ¬w.isOutdated d entity) :
    w.Turned good d entity := by
  unfold isOutdated at hw
  simp only [Bool.or_eq_true, Bool.and_eq_true, bne_iff_ne, not_or, not_and,
    Classical.not_not, Bool.not_eq_true] at hw
  obtain ⟨_, hstale, p, e, hp, _, he, hall, hupcoming⟩ := h hw.1
  refine ⟨hstale, p, e, hp, fun hper => ?_, he, hall, hupcoming⟩
  exact Option.some.inj (he.symm.trans (hw.2 hper))

omit [Plan S sh] in
theorem Listed.start (h : w.Listed good d) (hp : good plan) (order : Order) (entity : Nat)
    (s : Source) :
    (w.start plan d order entity s).1.Turned good d entity := by
  -- A shuffle leaves the values that are at hand as they are.
  have hdeal : ∀ {w' : ValueWalk V} {p : S} {e : Nat}, good p → (d.range.isPerEntity → e = entity) →
      w'.stale = false → w'.entity = some e → (∀ v ∈ w'.all, v ∈ d.choices p e) →
      Turned good d entity
        { w' with
          all := (if order = .shuffled then s.shuffle w'.all else (w'.all, s)).1
          upcoming := (if order = .shuffled then s.shuffle w'.all else (w'.all, s)).1 } := by
    intro w' p e hp hper hstale he hall
    have hdealt : ∀ v ∈ (if order = .shuffled then s.shuffle w'.all else (w'.all, s)).1,
        v ∈ d.choices p e := by
      split
      · exact fun v hv => hall v ((Source.shuffle_perm _ s).mem_iff.1 hv)
      · exact hall
    exact ⟨hstale, p, e, hp, hper, he, hdealt, hdealt⟩
  unfold ValueWalk.start
  split
  · exact hdeal hp (fun _ => rfl) rfl rfl fun _ => id
  · next hw =>
    obtain ⟨hstale, p, e, hp, hper, he, hall, -⟩ := h.turned hw
    exact hdeal hp hper hstale he hall

omit [Plan S sh] in
theorem Listed.next (h : w.Listed good d) (hp : good plan) (order : Order) (entity : Nat)
    (s : Source) :
    (w.next plan d order entity s).2.1.Listed good d ∧
      ∀ v, (w.next plan d order entity s).1 = some v → d.Offers good entity v := by
  have hturned : (if w.isOutdated d entity then w.start plan d order entity s
      else (w, s)).1.Turned good d entity := by
    split
    · exact h.start hp order entity s
    · next hw => exact h.turned hw
  unfold ValueWalk.next
  generalize (if w.isOutdated d entity then w.start plan d order entity s else (w, s)) = q
    at hturned ⊢
  obtain ⟨w', s'⟩ := q
  obtain ⟨hstale, p, e, hp, hper, he, hall, hupcoming⟩ := hturned
  have hlisted : w'.Listed good d := fun _ => ⟨entity, hstale, p, e, hp, hper, he, hall, hupcoming⟩
  dsimp only at hall hupcoming ⊢
  split
  · split
    · exact ⟨hlisted, nofun⟩
    · exact ⟨hlisted, fun v hv => ⟨p, e, hp, hper, hall v (List.mem_of_getElem? hv)⟩⟩
  · split
    · exact ⟨hlisted, nofun⟩
    · next v rest hcons =>
      rw [hcons] at hupcoming
      refine ⟨fun _ => ⟨entity, hstale, p, e, hp, hper, he, hall, fun v hv =>
        hupcoming v (List.mem_cons_of_mem _ hv)⟩, fun v' hv' => ?_⟩
      cases hv'
      exact ⟨p, e, hp, hper, hupcoming v List.mem_cons_self⟩

end ValueWalk

/-! ## Changes and swaps -/

namespace ChangeWalk

variable {good : S → Prop} {d : Definition S V} {w : ChangeWalk V} {plan : S} {order : Order}
  {s : Source}

/-- The move assigns a value to the variable of `d` that was to choose from. -/
def Offered (good : S → Prop) (d : Definition S V) (m : Move S V) : Prop :=
  ∃ e v, m = .leaf (.change d.cell e v) ∧ d.Offers good e v

theorem nextRandom_offered {attempts : Nat} (h : w.values.Listed good d) (hp : good plan) :
    (w.nextRandom plan d attempts s).2.1.values.Listed good d ∧
      ∀ m, (w.nextRandom plan d attempts s).1 = some m → Offered good d m := by
  induction attempts generalizing w s with
  | zero => exact ⟨h, fun m hm => absurd hm.symm (Option.some_ne_none m)⟩
  | succ attempts ih =>
    unfold nextRandom
    generalize w.entities.next plan d.cell.family .random s = q
    obtain ⟨e?, entities, s'⟩ := q
    cases e? with
    | none => exact ⟨h, fun m hm => absurd hm.symm (Option.some_ne_none m)⟩
    | some e =>
      dsimp only
      have hnext := h.next hp .random e s'
      generalize w.values.next plan d .random e s' = r at hnext ⊢
      obtain ⟨v?, values, s''⟩ := r
      cases v? with
      | none => exact ih hnext.1
      | some v =>
        refine ⟨hnext.1, fun m hm => ?_⟩
        cases hm
        exact ⟨e, v, rfl, hnext.2 v rfl⟩

omit [Plan S sh] in
theorem advance_offered {values : ValueWalk V} (hp : good plan) (h : values.Listed good d)
    (order : Order) (es : List Nat) (s : Source) :
    (advance plan d order es values s).2.2.1.Listed good d ∧
      ∀ q, (advance plan d order es values s).1 = some q → d.Offers good q.1 q.2 := by
  induction es generalizing values s with
  | nil => exact ⟨h, nofun⟩
  | cons e es ih =>
    unfold advance
    have hstart := (h.start hp order e s).toListed
    generalize values.start plan d order e s = q at hstart ⊢
    obtain ⟨values', s'⟩ := q
    dsimp only at hstart ⊢
    have hnext := hstart.next hp order e s'
    generalize values'.next plan d order e s' = r at hnext ⊢
    obtain ⟨v?, values'', s''⟩ := r
    cases v? with
    | none => exact ih hnext.1 s''
    | some v =>
      refine ⟨hnext.1, fun q hq => ?_⟩
      cases hq
      exact hnext.2 v rfl

theorem nextEntity_offered (h : w.values.Listed good d) (hp : good plan) :
    (w.nextEntity plan d order s).2.1.values.Listed good d ∧
      ∀ m, (w.nextEntity plan d order s).1 = some m → Offered good d m := by
  unfold nextEntity
  generalize w.entities.prepare plan d.cell.family order s = q
  obtain ⟨entities, s'⟩ := q
  dsimp only
  have hadvance := advance_offered hp h order entities.candidates s'
  generalize advance plan d order entities.candidates w.values s' = r at hadvance ⊢
  obtain ⟨ev?, rest, values, s''⟩ := r
  cases ev? with
  | none => exact ⟨hadvance.1, nofun⟩
  | some ev =>
    refine ⟨hadvance.1, fun m hm => ?_⟩
    cases hm
    exact ⟨ev.1, ev.2, rfl, hadvance.2 ev rfl⟩

theorem next_offered (h : w.values.Listed good d) (hp : good plan) :
    (w.next plan d order s).2.1.values.Listed good d ∧
      ∀ m, (w.next plan d order s).1 = some m → Offered good d m := by
  unfold ChangeWalk.next
  split
  · exact nextRandom_offered h hp
  · unfold nextOrderly
    split
    · exact nextEntity_offered h hp
    · next e _ =>
      have hnext := h.next hp order e s
      generalize w.values.next plan d order e s = q at hnext ⊢
      obtain ⟨v?, values, s'⟩ := q
      cases v? with
      | none => exact nextEntity_offered (w := { w with values }) hnext.1 hp
      | some v =>
        refine ⟨hnext.1, fun m hm => ?_⟩
        cases hm
        exact ⟨e, v, rfl, hnext.2 v rfl⟩

end ChangeWalk

theorem SwapWalk.next_eq_some {w : SwapWalk} {plan : S} {x : Variable S V} {order : Order}
    {s : Source} {m : Move S V} (e : (w.next plan x order s).1 = some m) :
    ∃ left right, m = .leaf (.swap x left right) := by
  unfold SwapWalk.next at e
  split at e
  · unfold nextRandom at e
    generalize w.entities.next plan x.family .random s = q at e
    obtain ⟨left?, entities, s'⟩ := q
    cases left? with
    | none => cases e
    | some left =>
      dsimp only at e
      generalize entities.next plan x.family .random s' = r at e
      obtain ⟨right?, entities', s''⟩ := r
      cases right? with
      | none => cases e
      | some right =>
        cases e
        exact ⟨left, right, rfl⟩
  · unfold nextOrderly at e
    generalize w.prepare plan x order s = q at e
    obtain ⟨w', s'⟩ := q
    dsimp only at e
    generalize nextPair w'.lefts w'.rights = r at e
    obtain ⟨pair?, lefts, rights⟩ := r
    cases pair? with
    | none => cases e
    | some pair =>
      cases e
      exact ⟨pair.1, pair.2, rfl⟩

/-! ## Trees -/

/-- What may be assigned to entities that are movable on good plans is `fine`. -/
def Definition.Suits (fine : Leaf S V → Prop) (good : S → Prop) (d : Definition S V) : Prop :=
  ∀ e v, Slot.Known good ⟨d.cell, e⟩ → d.Offers good e v → fine (.change d.cell e v)

/-- A change suits if its slot is all that counts. -/
theorem Definition.suits_of_slots {X : Variable S V → Prop} {fine : Leaf S V → Prop}
    {good : S → Prop} {d : Definition S V} (hd : X d.cell)
    (hfine : ∀ m : Leaf S V, (∀ a ∈ m.slots, X a.cell ∧ a.Known good) → fine m) :
    d.Suits fine good := fun _ _ he _ =>
  hfine _ fun _ ha => List.mem_singleton.1 ha ▸ ⟨hd, he⟩

namespace Tree

mutual

/-- The leaves that a tree yields on good plans are `fine`. -/
def Suits (fine : Leaf S V → Prop) (good : S → Prop) : Tree S V → Prop
  | change d _ => d.Suits fine good
  | swap x _ => ∀ left right, Slot.Known good ⟨x, left⟩ → Slot.Known good ⟨x, right⟩ →
      fine (.swap x left right)
  | union children _ _ => SuitsAll fine good children
  | product children _ => SuitsAll fine good children
  | filter child _ => Suits fine good child

def SuitsAll (fine : Leaf S V → Prop) (good : S → Prop) : List (Tree S V) → Prop
  | [] => True
  | t :: ts => Suits fine good t ∧ SuitsAll fine good ts

end

mutual

/-- What the walk remembers was listed on good plans, or is a move of `fine` leaves. -/
def Listed (fine : Leaf S V → Prop) (good : S → Prop) : (t : Tree S V) → State t → Prop
  | change d _, (w : ChangeWalk V) => w.Within (Slot.Known good) d ∧ w.values.Listed good d
  | swap x _, (w : SwapWalk) => w.Within (Slot.Known good) x
  | union children _ _, (_, x) => ListedAll fine good children x
  | product children _, (w, x) => (∀ m ∈ w.current, m.All fine) ∧ ListedAll fine good children x
  | filter child _, x => Listed fine good child x

def ListedAll (fine : Leaf S V → Prop) (good : S → Prop) : (ts : List (Tree S V)) → States ts → Prop
  | [], _ => True
  | t :: ts, (x, xs) => Listed fine good t x ∧ ListedAll fine good ts xs

end

variable {fine : Leaf S V → Prop} {good : S → Prop} {plan : S}

mutual

/-- A tree over `X` suits if the slots of a leaf are all that counts. -/
theorem suits_of_slots {X : Variable S V → Prop}
    (hfine : ∀ m : Leaf S V, (∀ a ∈ m.slots, X a.cell ∧ a.Known good) → fine m) :
    (t : Tree S V) → t.Over X → t.Suits fine good
  | change _ _, ht => Definition.suits_of_slots ht hfine
  | swap x _, ht => fun left right hleft hright => hfine _ fun a ha => by
    rcases List.mem_cons.1 ha with rfl | ha
    · exact ⟨ht, hleft⟩
    · rw [List.mem_singleton.1 ha]
      exact ⟨ht, hright⟩
  | union children _ _, ht => suitsAll_of_slots hfine children ht
  | product children _, ht => suitsAll_of_slots hfine children ht
  | filter child _, ht => suits_of_slots hfine child ht

theorem suitsAll_of_slots {X : Variable S V → Prop}
    (hfine : ∀ m : Leaf S V, (∀ a ∈ m.slots, X a.cell ∧ a.Known good) → fine m) :
    (ts : List (Tree S V)) → OverAll X ts → SuitsAll fine good ts
  | [], _ => trivial
  | t :: ts, hts => ⟨suits_of_slots hfine t hts.1, suitsAll_of_slots hfine ts hts.2⟩

end

mutual

theorem listed_restart : (t : Tree S V) → (x : State t) → t.Listed fine good (t.restart x)
  | change d _, (w : ChangeWalk V) =>
    ⟨w.within_restart _ d, ValueWalk.listed_restart good d w.values⟩
  | swap x _, (w : SwapWalk) => w.within_restart _ x
  | union children _ _, (_, x) => listedAll_restartAll children x
  | product children _, (_, x) => ⟨nofun, listedAll_restartAll children x⟩
  | filter child _, x => listed_restart child x

theorem listedAll_restartAll : (ts : List (Tree S V)) → (x : States ts) →
    ListedAll fine good ts (restartAll ts x)
  | [], _ => trivial
  | t :: ts, (x, xs) => ⟨listed_restart t x, listedAll_restartAll ts xs⟩

end

theorem listedAll_restartAt : (ts : List (Tree S V)) → (i : Nat) → (x : States ts) →
    ListedAll fine good ts x → ListedAll fine good ts (restartAt ts i x)
  | [], _, _, h => h
  | t :: _, 0, (x, _), h => ⟨listed_restart t x, h.2⟩
  | _ :: ts, i + 1, (_, xs), h => ⟨h.1, listedAll_restartAt ts i xs h.2⟩

mutual

theorem listed_hear (plan : S) {e : Event} (he : e.restarts) :
    (t : Tree S V) → (x : State t) → t.Listed fine good (t.hear plan e x)
  | change d _, (w : ChangeWalk V) =>
    ⟨w.within_hear _ d he, ValueWalk.listed_hear good d w.values he⟩
  | swap x _, (w : SwapWalk) => w.within_hear _ x he
  | union children _ _, (_, x) => listedAll_hearAll plan he children x
  | product children _, (w, x) => by
    refine ⟨?_, listedAll_hearAll plan he children x⟩
    show ∀ m ∈ (if e.restarts then ({} : ProductWalk S V) else w).current, m.All fine
    rw [if_pos he]
    exact nofun
  | filter child _, x => listed_hear plan he child x

theorem listedAll_hearAll (plan : S) {e : Event} (he : e.restarts) :
    (ts : List (Tree S V)) → (x : States ts) → ListedAll fine good ts (hearAll plan e ts x)
  | [], _ => trivial
  | t :: ts, (x, xs) => ⟨listed_hear plan he t x, listedAll_hearAll plan he ts xs⟩

end

mutual

theorem Listed.next (hp : good plan) : (t : Tree S V) → (x : State t) → t.Suits fine good →
    t.Listed fine good x → (s : Source) →
      t.Listed fine good (t.next plan x s).2.1 ∧ ∀ m, (t.next plan x s).1 = some m → m.All fine
  | change d order, (w : ChangeWalk V), ht, h, s => by
    refine ⟨⟨(h.1.next fun e he => ⟨plan, hp, he⟩).1, (ChangeWalk.next_offered h.2 hp).1⟩,
      fun m hm => ?_⟩
    have hknown := (h.1.next fun e he => ⟨plan, hp, he⟩).2 m hm
    obtain ⟨e, v, rfl, hv⟩ := (ChangeWalk.next_offered h.2 hp).2 m hm
    exact Move.all_leaf (ht e v (hknown ⟨d.cell, e⟩ List.mem_cons_self) hv)
  | swap y order, (w : SwapWalk), ht, h, s => by
    refine ⟨(SwapWalk.Within.next h fun e he => ⟨plan, hp, he⟩).1, fun m hm => ?_⟩
    have hknown := (SwapWalk.Within.next h fun e he => ⟨plan, hp, he⟩).2 m hm
    obtain ⟨left, right, rfl⟩ := SwapWalk.next_eq_some hm
    exact Move.all_leaf (ht left right (hknown ⟨y, left⟩ List.mem_cons_self)
      (hknown ⟨y, right⟩ (List.mem_cons_of_mem _ List.mem_cons_self)))
  | union children random weights, (u, _), ht, h, _ =>
    UnionWalk.next_within (P := ListedAll fine good children)
      ⟨fun hx => ListedAll.stepAt hp children _ _ ht hx _, listedAll_restartAt children _ _⟩ h
      random weights plan u
  | product children random, (_, _), ht, h, _ =>
    ProductWalk.next_within (P := ListedAll fine good children) (fun _ => Move.all_composite) h.1
      ⟨fun hx => ListedAll.stepAt hp children _ _ ht hx _, listedAll_restartAt children _ _⟩ h.2
      random
  | filter child keep, _, ht, h, _ =>
    nextKept_within (P := Listed fine good child) (fun hx => Listed.next hp child _ ht hx _) h
      (keep plan) _

theorem ListedAll.stepAt (hp : good plan) : (ts : List (Tree S V)) → (i : Nat) →
    (x : States ts) → SuitsAll fine good ts → ListedAll fine good ts x → (s : Source) →
      ListedAll fine good ts (stepAt plan ts i x s).2.1 ∧
        ∀ m, (stepAt plan ts i x s).1 = some m → m.All fine
  | [], _, _, _, h, _ => ⟨h, nofun⟩
  | t :: _, 0, (x, _), ht, h, s =>
    have hnext := Listed.next hp t x ht.1 h.1 s
    ⟨⟨hnext.1, h.2⟩, hnext.2⟩
  | _ :: ts, i + 1, (_, xs), ht, h, s =>
    have hstep := ListedAll.stepAt hp ts i xs ht.2 h.2 s
    ⟨⟨h.1, hstep.1⟩, hstep.2⟩

end

end Tree

end PlanSearch
