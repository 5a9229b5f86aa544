import PlanSearch.Proofs.Lifecycle.Tracker
import PlanSearch.Proofs.Neighbourhood.Draws

/-!
# What the leaves of a tree hear

Every event that a tree hears reaches each of its leaves once, whatever unions, products and filters
are in between, and nothing but events reaches their trackers: draws and restarts leave them alone.

    (t.hear plan e x).trackers = x.trackers.map (·.record e)             (Tree.trackers_hear)
    the walk after a draw has the same trackers                          (Tree.trackers_next)
-/

namespace PlanSearch

variable {S V : Type} {sh : Shape}

/-! ## Walks over entities and values -/

theorem EntityWalk.tracker_hear (w : EntityWalk) (e : Event) :
    (w.hear e).tracker = w.tracker.record e := by
  unfold hear
  dsimp only
  split <;> rfl

theorem ValueWalk.tracker_hear (w : ValueWalk V) (e : Event) :
    (w.hear e).tracker = w.tracker.record e := by
  unfold hear
  dsimp only
  split <;> rfl

theorem ValueWalk.tracker_start (w : ValueWalk V) (plan : S) (d : Definition S V) (order : Order)
    (entity : Nat) (s : Source) : (w.start plan d order entity s).1.tracker = w.tracker := by
  unfold start
  dsimp only
  split <;> rfl

theorem ValueWalk.tracker_next (w : ValueWalk V) (plan : S) (d : Definition S V) (order : Order)
    (entity : Nat) (s : Source) : (w.next plan d order entity s).2.1.tracker = w.tracker := by
  have hready : (if w.isOutdated d entity then w.start plan d order entity s
      else (w, s)).1.tracker = w.tracker := by
    split
    · exact w.tracker_start plan d order entity s
    · rfl
  unfold next
  generalize (if w.isOutdated d entity then _ else _) = q at hready ⊢
  obtain ⟨w', s'⟩ := q
  dsimp only at hready ⊢
  split
  · split <;> exact hready
  · split <;> exact hready

variable [Plan S sh]

theorem EntityWalk.tracker_prepare (w : EntityWalk) (plan : S) (family : Nat) (order : Order)
    (s : Source) : (w.prepare plan family order s).1.tracker = w.tracker := by
  unfold prepare
  split <;> rfl

theorem EntityWalk.tracker_next (w : EntityWalk) (plan : S) (family : Nat) (order : Order)
    (s : Source) : (w.next plan family order s).2.1.tracker = w.tracker := by
  have hready := w.tracker_prepare plan family order s
  unfold next
  generalize w.prepare plan family order s = q at hready ⊢
  obtain ⟨w', s'⟩ := q
  dsimp only at hready ⊢
  split
  · exact hready
  · split <;> exact hready

/-! ## Changes and swaps -/

namespace ChangeWalk

variable {w : ChangeWalk V} {plan : S} {d : Definition S V} {order : Order} {s : Source}
  {a b : Tracker}

/-- The trackers of the walk are `a` and `b`. -/
def Tracks (a b : Tracker) (w : ChangeWalk V) : Prop :=
  w.entities.tracker = a ∧ w.values.tracker = b

theorem Tracks.nextRandom {attempts : Nat} (h : w.Tracks a b) :
    (w.nextRandom plan d attempts s).2.1.Tracks a b := by
  induction attempts generalizing w s with
  | zero => exact h
  | succ attempts ih =>
    have hentities := w.entities.tracker_next plan d.cell.family .random s
    unfold ChangeWalk.nextRandom
    generalize w.entities.next plan d.cell.family .random s = q at hentities ⊢
    obtain ⟨e?, entities, s'⟩ := q
    have h₁ : entities.tracker = a := hentities.trans h.1
    cases e? with
    | none => exact ⟨h₁, h.2⟩
    | some e =>
      have hvalues := w.values.tracker_next plan d .random e s'
      dsimp only
      generalize w.values.next plan d .random e s' = q at hvalues ⊢
      obtain ⟨v?, values, s''⟩ := q
      have h₂ : values.tracker = b := hvalues.trans h.2
      cases v? with
      | none => exact ih ⟨h₁, h₂⟩
      | some v => exact ⟨h₁, h₂⟩

theorem tracker_advance (es : List Nat) (values : ValueWalk V) (s : Source) :
    (advance plan d order es values s).2.2.1.tracker = values.tracker := by
  induction es generalizing values s with
  | nil => rfl
  | cons e rest ih =>
    have hstart := values.tracker_start plan d order e s
    unfold advance
    generalize values.start plan d order e s = q at hstart ⊢
    obtain ⟨values', s'⟩ := q
    have hnext := values'.tracker_next plan d order e s'
    dsimp only at hstart ⊢
    generalize values'.next plan d order e s' = q at hnext ⊢
    obtain ⟨v?, values'', s''⟩ := q
    cases v? with
    | none => exact (ih values'' s'').trans (hnext.trans hstart)
    | some v => exact hnext.trans hstart

theorem Tracks.nextEntity (h : w.Tracks a b) : (w.nextEntity plan d order s).2.1.Tracks a b := by
  have hprepare := w.entities.tracker_prepare plan d.cell.family order s
  unfold ChangeWalk.nextEntity
  generalize w.entities.prepare plan d.cell.family order s = q at hprepare ⊢
  obtain ⟨entities, s'⟩ := q
  have hadvance : (advance plan d order entities.candidates w.values s').2.2.1.tracker =
      w.values.tracker := tracker_advance _ _ _
  dsimp only at hprepare ⊢
  generalize advance plan d order entities.candidates w.values s' = q at hadvance ⊢
  obtain ⟨found, rest, values, s''⟩ := q
  cases found with
  | none => exact ⟨hprepare.trans h.1, hadvance.trans h.2⟩
  | some ev => exact ⟨hprepare.trans h.1, hadvance.trans h.2⟩

theorem Tracks.nextOrderly (h : w.Tracks a b) :
    (w.nextOrderly plan d order s).2.1.Tracks a b := by
  unfold ChangeWalk.nextOrderly
  split
  · exact h.nextEntity
  · next e _ =>
    have hvalues := w.values.tracker_next plan d order e s
    generalize w.values.next plan d order e s = q at hvalues ⊢
    obtain ⟨v?, values, s'⟩ := q
    have h₁ : Tracks a b { w with values } := ⟨h.1, hvalues.trans h.2⟩
    cases v? with
    | none => exact h₁.nextEntity
    | some v => exact h₁

theorem Tracks.next (h : w.Tracks a b) : (w.next plan d order s).2.1.Tracks a b := by
  unfold ChangeWalk.next
  split
  · exact h.nextRandom
  · exact h.nextOrderly

end ChangeWalk

namespace SwapWalk

variable (w : SwapWalk) (plan : S) (x : Variable S V) (order : Order) (s : Source)

theorem tracker_nextRandom :
    (w.nextRandom plan x s).2.1.entities.tracker = w.entities.tracker := by
  have hleft := w.entities.tracker_next plan x.family .random s
  unfold nextRandom
  generalize w.entities.next plan x.family .random s = q at hleft ⊢
  obtain ⟨left?, entities, s'⟩ := q
  cases left? with
  | none => exact hleft
  | some left =>
    have hright := entities.tracker_next plan x.family .random s'
    dsimp only at hleft ⊢
    generalize entities.next plan x.family .random s' = q at hright ⊢
    obtain ⟨right?, entities', s''⟩ := q
    cases right? <;> exact hright.trans hleft

theorem tracker_prepare : (w.prepare plan x order s).1.entities.tracker = w.entities.tracker := by
  unfold prepare
  split <;> rfl

theorem tracker_nextOrderly :
    (w.nextOrderly plan x order s).2.1.entities.tracker = w.entities.tracker := by
  have hprepare := w.tracker_prepare plan x order s
  unfold nextOrderly
  generalize w.prepare plan x order s = q at hprepare ⊢
  obtain ⟨w', s'⟩ := q
  dsimp only at hprepare ⊢
  split <;> exact hprepare

theorem tracker_next : (w.next plan x order s).2.1.entities.tracker = w.entities.tracker := by
  unfold next
  split
  · exact w.tracker_nextRandom plan x s
  · exact w.tracker_nextOrderly plan x order s

end SwapWalk

/-! ## Trees -/

namespace Tree

mutual

theorem trackers_hear (plan : S) (e : Event) : (t : Tree S V) → (x : State t) →
    t.trackers (t.hear plan e x) = (t.trackers x).map (·.record e)
  | change _ _, (w : ChangeWalk V) => by
    show [(w.entities.hear e).tracker, (w.values.hear e).tracker] = _
    rw [w.entities.tracker_hear, w.values.tracker_hear]
    rfl
  | swap _ _, (w : SwapWalk) => congrArg (fun t => [t]) (w.entities.tracker_hear e)
  | union children _ _, (_, x) => trackersOf_hearAll plan e children x
  | product children _, (_, x) => trackersOf_hearAll plan e children x
  | filter child _, x => trackers_hear plan e child x

theorem trackersOf_hearAll (plan : S) (e : Event) : (ts : List (Tree S V)) → (x : States ts) →
    trackersOf ts (hearAll plan e ts x) = (trackersOf ts x).map (·.record e)
  | [], _ => rfl
  | t :: ts, (x, xs) => by
    show t.trackers (t.hear plan e x) ++ trackersOf ts (hearAll plan e ts xs) =
      (t.trackers x ++ trackersOf ts xs).map _
    rw [trackers_hear plan e t x, trackersOf_hearAll plan e ts xs, List.map_append]

end

omit [Plan S sh] in
mutual

theorem trackers_restart : (t : Tree S V) → (x : State t) →
    t.trackers (t.restart x) = t.trackers x
  | change _ _, _ => rfl
  | swap _ _, _ => rfl
  | union children _ _, (_, x) => trackersOf_restartAll children x
  | product children _, (_, x) => trackersOf_restartAll children x
  | filter child _, x => trackers_restart child x

theorem trackersOf_restartAll : (ts : List (Tree S V)) → (x : States ts) →
    trackersOf ts (restartAll ts x) = trackersOf ts x
  | [], _ => rfl
  | t :: ts, (x, xs) => by
    show t.trackers (t.restart x) ++ trackersOf ts (restartAll ts xs) = _
    rw [trackers_restart t x, trackersOf_restartAll ts xs]
    rfl

end

omit [Plan S sh] in
theorem trackersOf_restartAt : (ts : List (Tree S V)) → (i : Nat) → (x : States ts) →
    trackersOf ts (restartAt ts i x) = trackersOf ts x
  | [], _, _ => rfl
  | t :: ts, 0, (x, xs) => congrArg (· ++ trackersOf ts xs) (trackers_restart t x)
  | t :: ts, i + 1, (x, xs) => congrArg (t.trackers x ++ ·) (trackersOf_restartAt ts i xs)

mutual

theorem trackers_next (plan : S) : (t : Tree S V) → (x : State t) → (s : Source) →
    t.trackers (t.next plan x s).2.1 = t.trackers x
  | change d order, (w : ChangeWalk V), s => by
    have htracks : ChangeWalk.Tracks w.entities.tracker w.values.tracker w := ⟨rfl, rfl⟩
    obtain ⟨hentities, hvalues⟩ : ChangeWalk.Tracks _ _ (w.next plan d order s).2.1 := htracks.next
    exact congrArg₂ (fun a b => [a, b]) hentities hvalues
  | swap y order, (w : SwapWalk), s => congrArg (fun t => [t]) (w.tracker_next plan y order s)
  | union children random weights, (u, x), s =>
    (UnionWalk.next_keeps (P := fun x' => trackersOf children x' = trackersOf children x)
      (keeps_trackersOf plan children _) rfl random weights plan u (s := s)).1
  | product children random, (w, x), s =>
    (ProductWalk.Within.next (P := fun x' => trackersOf children x' = trackersOf children x)
      (w := w) (fun _ _ _ _ => trivial) (keeps_trackersOf plan children _) rfl random (s := s)).1.2
  | filter child keep, x, s =>
    have hnext : ∀ {x' : State child} {s' : Source}, child.trackers x' = child.trackers x →
        child.trackers (child.next plan x' s').2.1 = child.trackers x ∧
          ∀ m, (child.next plan x' s').1 = some m → m.Within fun _ => True := fun {x'} {s'} hx =>
      ⟨(trackers_next plan child x' s').trans hx, fun _ _ _ _ => trivial⟩
    (nextKept_keeps (P := fun x' => child.trackers x' = child.trackers x) hnext rfl (keep plan) _
      (s := s)).1

theorem keeps_trackersOf (plan : S) : (ts : List (Tree S V)) → (l : List Tracker) →
    Children.Keeps (V := V) ⟨ts.length, stepAt plan ts, restartAt ts⟩
      (fun x : States ts => trackersOf ts x = l) fun _ => True
  | ts, l =>
    { step := fun {i} {x} {s} hx =>
        ⟨(trackersOf_stepAt plan ts i x s).trans hx, fun _ _ _ _ => trivial⟩
      restart := fun {i} {x} hx => (trackersOf_restartAt ts i x).trans hx }

theorem trackersOf_stepAt (plan : S) : (ts : List (Tree S V)) → (i : Nat) → (x : States ts) →
    (s : Source) → trackersOf ts (stepAt plan ts i x s).2.1 = trackersOf ts x
  | [], _, _, _ => rfl
  | t :: ts, 0, (x, xs), s => congrArg (· ++ trackersOf ts xs) (trackers_next plan t x s)
  | t :: ts, i + 1, (x, xs), s => congrArg (t.trackers x ++ ·) (trackersOf_stepAt plan ts i xs s)

end

end Tree

namespace Neighbourhood

theorem trackers_hear (n : Neighbourhood S V) (plan : S) (e : Event) :
    (n.hear plan e).trackers = n.trackers.map (·.record e) :=
  n.tree.trackers_hear plan e n.walk

theorem trackers_next (n : Neighbourhood S V) (plan : S) (s : Source) :
    (n.next plan s).2.1.trackers = n.trackers :=
  n.tree.trackers_next plan n.walk s

end Neighbourhood

end PlanSearch
