import PlanSearch.Neighbourhood.Tree
import PlanSearch.Proofs.Random.Source

/-!
# The slots of drawn moves

What a walk remembers of entities it has listed since it was started over. Hence the slots of the
moves that it draws are slots of entities that were movable at some time since then: if all of those
are `ok`, so are the slots of all moves.

    t.Within ok (t.restart x), t.Within ok (t.hear plan .stepStarted x)  (within_restart, within_hear)
    t.Within ok x → the walk after a draw is Within ok, and so is the move             (Within.next)
-/

namespace PlanSearch

variable {S V : Type} {sh : Shape} [Plan S sh]

/-- The slots of the move are `ok`. -/
def Move.Within (ok : Slot S V → Prop) (m : Move S V) : Prop := ∀ a ∈ m.slots, ok a

/-! ## Entities -/

namespace EntityWalk

variable {ok : Nat → Prop} {plan : S} {family : Nat} {w : EntityWalk}

/-- The entities that are listed are `ok`. -/
def Within (ok : Nat → Prop) (w : EntityWalk) : Prop := w.stale = false → ∀ e ∈ w.candidates, ok e

theorem within_restart (ok : Nat → Prop) (w : EntityWalk) : w.restart.Within ok := nofun

theorem within_hear (ok : Nat → Prop) (w : EntityWalk) {e : Event} (he : e.restarts) :
    (w.hear e).Within ok := by
  unfold hear
  dsimp only
  rw [if_pos he]
  exact within_restart ok _

theorem Within.prepare (h : w.Within ok) (hm : ∀ e ∈ Plan.movable plan family, ok e) (order : Order)
    (s : Source) :
    ∀ e ∈ (w.prepare plan family order s).1.candidates, ok e := by
  unfold EntityWalk.prepare
  split
  · unfold refresh
    dsimp only
    split
    · exact fun e he => hm e ((Source.shuffle_perm _ s).mem_iff.1 he)
    · exact hm
  · next hstale => exact h (Bool.not_eq_true _ ▸ hstale)

theorem Within.next (h : w.Within ok) (hm : ∀ e ∈ Plan.movable plan family, ok e) (order : Order)
    (s : Source) :
    (w.next plan family order s).2.1.Within ok ∧
      ∀ e, (w.next plan family order s).1 = some e → ok e := by
  have hcandidates := h.prepare hm order s
  unfold EntityWalk.next
  generalize w.prepare plan family order s = q at hcandidates ⊢
  obtain ⟨w', s'⟩ := q
  dsimp only at hcandidates ⊢
  split
  · exact ⟨fun _ => hcandidates, nofun⟩
  · next e rest hcons =>
    split
    · refine ⟨fun _ => hcandidates, fun e he => hcandidates e (List.mem_of_getElem? he)⟩
    · rw [hcons] at hcandidates
      refine ⟨fun _ e' he' => hcandidates e' (List.mem_cons_of_mem _ he'), fun e' he' => ?_⟩
      cases he'
      exact hcandidates e List.mem_cons_self

end EntityWalk

/-! ## Changes and swaps -/

namespace ChangeWalk

variable {ok : Slot S V → Prop} {plan : S} {d : Definition S V} {order : Order}
  {w : ChangeWalk V} {s : Source}

/-- The entities that the walk remembers are `ok`. -/
def Within (ok : Slot S V → Prop) (d : Definition S V) (w : ChangeWalk V) : Prop :=
  w.entities.Within (fun e => ok ⟨d.cell, e⟩) ∧ ∀ e, w.current = some e → ok ⟨d.cell, e⟩

theorem within_restart (ok : Slot S V → Prop) (d : Definition S V) (w : ChangeWalk V) :
    w.restart.Within ok d :=
  ⟨w.entities.within_restart _, nofun⟩

theorem within_hear (ok : Slot S V → Prop) (d : Definition S V) (w : ChangeWalk V) {e : Event}
    (he : e.restarts) : (w.hear e).Within ok d := by
  refine ⟨w.entities.within_hear _ he, fun e' he' => ?_⟩
  change (if e.restarts then none else w.current) = some e' at he'
  rw [if_pos he] at he'
  cases he'

theorem within_change {e : Nat} {v : Option V} (h : ok ⟨d.cell, e⟩) :
    (Move.leaf (.change d.cell e v)).Within ok := by
  intro a ha
  rw [List.mem_singleton.1 ha]
  exact h

theorem Within.nextRandom {attempts : Nat} (h : w.Within ok d)
    (hm : ∀ e ∈ Plan.movable plan d.cell.family, ok ⟨d.cell, e⟩) :
    (w.nextRandom plan d attempts s).2.1.Within ok d ∧
      ∀ m, (w.nextRandom plan d attempts s).1 = some m → m.Within ok := by
  induction attempts generalizing w s with
  | zero => exact ⟨h, nofun⟩
  | succ attempts ih =>
    have hnext := h.1.next hm .random s
    unfold ChangeWalk.nextRandom
    generalize w.entities.next plan d.cell.family .random s = q at hnext ⊢
    obtain ⟨e?, entities, s'⟩ := q
    cases e? with
    | none => exact ⟨⟨hnext.1, h.2⟩, nofun⟩
    | some e =>
      dsimp only
      generalize w.values.next plan d .random e s' = r
      obtain ⟨v?, values, s''⟩ := r
      cases v? with
      | none => exact ih ⟨hnext.1, h.2⟩
      | some v =>
        refine ⟨⟨hnext.1, h.2⟩, fun m hm' => ?_⟩
        cases hm'
        exact within_change (hnext.2 e rfl)

theorem advance_within {ok : Nat → Prop} (plan : S) (d : Definition S V) (order : Order)
    {es : List Nat} (values : ValueWalk V) (s : Source) (h : ∀ e ∈ es, ok e) :
    (∀ e ∈ (advance plan d order es values s).2.1, ok e) ∧
      ∀ q, (advance plan d order es values s).1 = some q → ok q.1 := by
  induction es generalizing values s with
  | nil => exact ⟨nofun, nofun⟩
  | cons e es ih =>
    have hes : ∀ e ∈ es, ok e := fun e' he' => h e' (List.mem_cons_of_mem _ he')
    unfold advance
    generalize values.start plan d order e s = q
    obtain ⟨values', s'⟩ := q
    dsimp only
    generalize values'.next plan d order e s' = r
    obtain ⟨v?, values'', s''⟩ := r
    cases v? with
    | none => exact ih values'' s'' hes
    | some v =>
      refine ⟨hes, fun q hq => ?_⟩
      cases hq
      exact h e List.mem_cons_self

theorem Within.nextEntity (h : w.Within ok d)
    (hm : ∀ e ∈ Plan.movable plan d.cell.family, ok ⟨d.cell, e⟩) :
    (w.nextEntity plan d order s).2.1.Within ok d ∧
      ∀ m, (w.nextEntity plan d order s).1 = some m → m.Within ok := by
  have hprepare := h.1.prepare hm order s
  unfold ChangeWalk.nextEntity
  generalize w.entities.prepare plan d.cell.family order s = q at hprepare ⊢
  obtain ⟨entities, s'⟩ := q
  dsimp only at hprepare ⊢
  have hadvance := advance_within plan d order w.values s' hprepare
  generalize advance plan d order entities.candidates w.values s' = r at hadvance ⊢
  obtain ⟨ev?, rest, values, s''⟩ := r
  cases ev? with
  | none => exact ⟨⟨fun _ => hadvance.1, nofun⟩, nofun⟩
  | some ev =>
    have hev := hadvance.2 ev rfl
    refine ⟨⟨fun _ => hadvance.1, fun e he => ?_⟩, fun m hm' => ?_⟩
    · cases he
      exact hev
    · cases hm'
      exact within_change hev

theorem Within.next (h : w.Within ok d)
    (hm : ∀ e ∈ Plan.movable plan d.cell.family, ok ⟨d.cell, e⟩) :
    (w.next plan d order s).2.1.Within ok d ∧
      ∀ m, (w.next plan d order s).1 = some m → m.Within ok := by
  unfold ChangeWalk.next
  split
  · exact h.nextRandom hm
  · unfold nextOrderly
    split
    · exact h.nextEntity hm
    · next e he =>
      generalize w.values.next plan d order e s = q
      obtain ⟨v?, values, s'⟩ := q
      cases v? with
      | none => exact Within.nextEntity (w := { w with values }) h hm
      | some v =>
        refine ⟨h, fun m hm' => ?_⟩
        cases hm'
        exact within_change (h.2 e he)

end ChangeWalk

namespace SwapWalk

variable {ok : Slot S V → Prop} {plan : S} {x : Variable S V} {order : Order} {w : SwapWalk}
  {s : Source}

/-- The entities that the walk remembers are `ok`. -/
def Within (ok : Slot S V → Prop) (x : Variable S V) (w : SwapWalk) : Prop :=
  w.entities.Within (fun e => ok ⟨x, e⟩) ∧
    (w.stale = false → (∀ e ∈ w.lefts, ok ⟨x, e⟩) ∧ ∀ e ∈ w.rights, ok ⟨x, e⟩)

theorem within_restart (ok : Slot S V → Prop) (x : Variable S V) (w : SwapWalk) :
    w.restart.Within ok x :=
  ⟨w.entities.within_restart _, nofun⟩

theorem within_hear (ok : Slot S V → Prop) (x : Variable S V) (w : SwapWalk) {e : Event}
    (he : e.restarts) : (w.hear e).Within ok x := by
  refine ⟨w.entities.within_hear _ he, fun hstale => ?_⟩
  change (w.stale || e.restarts) = false at hstale
  rw [he, Bool.or_true] at hstale
  cases hstale

theorem within_swap {left right : Nat} (hl : ok ⟨x, left⟩) (hr : ok ⟨x, right⟩) :
    (Move.leaf (.swap x left right)).Within ok := by
  intro a ha
  have ha : a ∈ [(⟨x, left⟩ : Slot S V), ⟨x, right⟩] := ha
  simp only [List.mem_cons, List.not_mem_nil, or_false] at ha
  rcases ha with rfl | rfl
  · exact hl
  · exact hr

theorem Within.nextRandom (h : w.Within ok x)
    (hm : ∀ e ∈ Plan.movable plan x.family, ok ⟨x, e⟩) :
    (w.nextRandom plan x s).2.1.Within ok x ∧
      ∀ m, (w.nextRandom plan x s).1 = some m → m.Within ok := by
  have hleft := h.1.next hm .random s
  unfold SwapWalk.nextRandom
  generalize w.entities.next plan x.family .random s = q at hleft ⊢
  obtain ⟨left?, entities, s'⟩ := q
  cases left? with
  | none => exact ⟨⟨hleft.1, h.2⟩, nofun⟩
  | some left =>
    dsimp only at hleft ⊢
    have hright := hleft.1.next hm .random s'
    generalize entities.next plan x.family .random s' = r at hright ⊢
    obtain ⟨right?, entities', s''⟩ := r
    cases right? with
    | none => exact ⟨⟨hright.1, h.2⟩, nofun⟩
    | some right =>
      refine ⟨⟨hright.1, h.2⟩, fun m hm' => ?_⟩
      cases hm'
      exact within_swap (hleft.2 left rfl) (hright.2 right rfl)

theorem Within.prepare (h : w.Within ok x)
    (hm : ∀ e ∈ Plan.movable plan x.family, ok ⟨x, e⟩) (order : Order) (s : Source) :
    (w.prepare plan x order s).1.Within ok x ∧
      (∀ e ∈ (w.prepare plan x order s).1.lefts, ok ⟨x, e⟩) ∧
        ∀ e ∈ (w.prepare plan x order s).1.rights, ok ⟨x, e⟩ := by
  unfold SwapWalk.prepare
  split
  · have hlisted : ∀ e ∈ (if order = .shuffled then s.shuffle (Plan.movable plan x.family)
        else (Plan.movable plan x.family, s)).1, ok ⟨x, e⟩ := by
      split
      · exact fun e he => hm e ((Source.shuffle_perm _ s).mem_iff.1 he)
      · exact hm
    have htail := fun e he => hlisted e (List.mem_of_mem_tail he)
    exact ⟨⟨h.1, fun _ => ⟨hlisted, htail⟩⟩, hlisted, htail⟩
  · next hstale =>
    have hlisted := h.2 (Bool.not_eq_true _ ▸ hstale)
    exact ⟨h, hlisted⟩

theorem nextPair_within {ok : Nat → Prop} {lefts rights : List Nat} (hl : ∀ e ∈ lefts, ok e)
    (hr : ∀ e ∈ rights, ok e) :
    (∀ e ∈ (nextPair lefts rights).2.1, ok e) ∧ (∀ e ∈ (nextPair lefts rights).2.2, ok e) ∧
      ∀ q, (nextPair lefts rights).1 = some q → ok q.1 ∧ ok q.2 := by
  unfold nextPair
  split
  · next left lefts right rights =>
    refine ⟨hl, fun e he => hr e (List.mem_cons_of_mem _ he), fun q hq => ?_⟩
    cases hq
    exact ⟨hl left List.mem_cons_self, hr right List.mem_cons_self⟩
  · next first left lefts =>
    split
    · exact ⟨fun e he => hl e (List.mem_cons_of_mem _ he), nofun, nofun⟩
    · next right rights =>
      refine ⟨fun e he => hl e (List.mem_cons_of_mem _ he), fun e he => hl e ?_, fun q hq => ?_⟩
      · exact List.mem_cons_of_mem _ (List.mem_cons_of_mem _ (List.mem_cons_of_mem _ he))
      · cases hq
        exact ⟨hl left (by simp), hl right (by simp)⟩
  · exact ⟨nofun, nofun, nofun⟩

theorem Within.next (h : w.Within ok x) (hm : ∀ e ∈ Plan.movable plan x.family, ok ⟨x, e⟩) :
    (w.next plan x order s).2.1.Within ok x ∧
      ∀ m, (w.next plan x order s).1 = some m → m.Within ok := by
  unfold SwapWalk.next
  split
  · exact h.nextRandom hm
  · obtain ⟨hw, hl, hr⟩ := h.prepare hm order s
    unfold nextOrderly
    generalize w.prepare plan x order s = q at hw hl hr ⊢
    obtain ⟨w', s'⟩ := q
    dsimp only at hw hl hr ⊢
    have hpair := nextPair_within hl hr
    generalize nextPair w'.lefts w'.rights = r at hpair ⊢
    obtain ⟨pair?, lefts, rights⟩ := r
    cases pair? with
    | none => exact ⟨⟨hw.1, fun _ => ⟨hpair.1, hpair.2.1⟩⟩, nofun⟩
    | some pair =>
      refine ⟨⟨hw.1, fun _ => ⟨hpair.1, hpair.2.1⟩⟩, fun m hm' => ?_⟩
      cases hm'
      have hslots := hpair.2.2 pair rfl
      exact within_swap hslots.1 hslots.2

end SwapWalk

end PlanSearch
