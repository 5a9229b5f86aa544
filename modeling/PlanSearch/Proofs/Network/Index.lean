import PlanSearch.Proofs.Network.Messages

/-!
# Indexes of joins

A side of a join remembers its tuples twice: by id, with the key that was answered last, and by key.
The two agree after any messages, whatever the keys are answered: an id is listed under the key of
its entry and under no other one, and a key that has lost its last id is no longer listed. So the
lookup of a key finds each live tuple whose latest key it is, once.

    hearAll origin (.join leftKey rightKey {}) xs = .join leftKey rightKey m, where the two maps of
      each side of m agree and its partners are those that were Answered            (join_indexed)
-/

namespace PlanSearch

variable {S α : Type} {sh : Shape}

open Std (HashMap HashSet)
open Message

/-! ## One side -/

namespace JoinIndex

variable {x : JoinIndex} {k : Key} {t : Tuple} {i : TupleId}

/-- No key is listed without ids. -/
def Occupied (x : JoinIndex) : Prop :=
  ∀ (k : Key) (ids : HashSet TupleId), x.byKey[k]? = some ids → ids.isEmpty = false

theorem indexed_empty : Indexed {} where
  listed k i := by simp [JoinIndex.key?]
  named i k t h := by simp at h

theorem occupied_empty : Occupied {} := fun k ids h => by simp at h

theorem Occupied.add (h : x.Occupied) (k : Key) (t : Tuple) : (x.add k t).Occupied := by
  intro k' ids e
  have e : (x.byKey.alter k fun ids => some ((ids.getD ∅).insert t.id))[k']? = some ids := e
  rw [HashMap.getElem?_alter] at e
  split at e
  · cases e
    exact HashSet.isEmpty_insert
  · exact h k' ids e

theorem Occupied.erase (h : x.Occupied) (j : TupleId) : (x.erase j).Occupied := by
  unfold JoinIndex.erase
  split
  · exact h
  · next k _ =>
    intro k' ids e
    have e : (x.byKey.alter k fun ids =>
        if ((ids.getD ∅).erase j).isEmpty then none else some ((ids.getD ∅).erase j))[k']? =
          some ids := e
    rw [HashMap.getElem?_alter] at e
    split at e
    · split at e
      · cases e
      · next hrest =>
        cases e
        exact eq_false_of_ne_true hrest
    · exact h k' ids e

/-- A tuple is held under the key it is added with, and all others as before, even if it was taken
from its old key first. -/
theorem holds_moved {y : JoinIndex} (hy : y = x ∨ y = x.erase t.id) (k k' : Key) (u : Tuple) :
    (y.add k t).Holds k' u ↔ if u.id = t.id then u = t ∧ k' = k else x.Holds k' u := by
  rw [holds_add]
  split
  · next hid => rw [or_iff_left fun e => e.1 hid]
  · next hid =>
    have hheld : y.Holds k' u ↔ x.Holds k' u := by
      rcases hy with rfl | rfl
      · rfl
      · rw [holds_erase]
        exact and_iff_right hid
    rw [or_iff_right fun e => hid (congrArg Tuple.id e.1), hheld]
    exact and_iff_right hid

end JoinIndex

/-! ## Both sides -/

namespace JoinMemory

variable {m : JoinMemory} {s : Side} {k : Key} {t : Tuple}

theorem setSide_setSide (m : JoinMemory) (s : Side) (x y : JoinIndex) :
    (m.setSide s x).setSide s y = m.setSide s y := by
  cases s <;> rfl

/-- A tuple that is placed is added on its side, where no other key is listed for it any more. -/
theorem place_eq (m : JoinMemory) (s : Side) (origin : Nat) (k : Key) (t : Tuple) :
    ∃ x, (m.place s origin k t).1 = m.setSide s (x.add k t) ∧
      (∀ k', x.key? t.id = some k' → k' = k) ∧ (x = m.side s ∨ x = (m.side s).erase t.id) := by
  unfold place
  split
  · next hnone =>
    refine ⟨m.side s, rfl, fun k' e => ?_, .inl rfl⟩
    rw [hnone] at e
    cases e
  · next old hold =>
    split
    · next hsame =>
      refine ⟨m.side s, rfl, fun k' e => ?_, .inl rfl⟩
      rw [hold] at e
      cases e
      exact hsame
    · refine ⟨(m.side s).erase t.id, ?_, fun k' e => ?_, .inr rfl⟩
      · show ((m.retract s t.id).1.setSide s (((m.retract s t.id).1.side s).add k t)) = _
        rw [side_retract]
        unfold retract
        rw [hold]
        exact setSide_setSide ..
      · rw [JoinIndex.key?_erase, if_pos rfl] at e
        cases e

theorem retract_eq (m : JoinMemory) (s : Side) (j : TupleId) :
    (m.retract s j).1 = m.setSide s ((m.side s).erase j) := by
  unfold retract JoinIndex.erase
  split
  · exact (setSide_side m s).symm
  · rfl

/-- What a join remembers after one more message. A tuple without a key leaves all as it was. -/
def take (keys : Side → S → Tuple → Checked Key) (origin : Nat) (m : JoinMemory) (x : Message S) :
    JoinMemory :=
  match x.delta.tuple? with
  | none => (m.retract x.side x.delta.id).1
  | some t =>
    match keys x.side x.plan t with
    | .error _ => m
    | .ok k => (m.place x.side origin k t).1

end JoinMemory

/-! ## Messages -/

namespace Message

variable {keys : Side → S → Tuple → Checked Key} {xs : List (Message S)} {x : Message S} {s : Side}
  {t : Tuple} {fn : S → Tuple → Checked α} {a : α}

/-- The message takes a tuple back or says that one is live which is answered a key. -/
def heeds (keys : Side → S → Tuple → Checked Key) (x : Message S) : Bool :=
  x.delta.tuple?.all fun t => (keys x.side x.plan t).toBool

theorem heeds_of_none (h : x.delta.tuple? = none) : x.heeds keys := by
  unfold heeds
  rw [h]
  rfl

theorem heeds_of_ok {k : Key} (h : x.delta.tuple? = some t) (hk : keys x.side x.plan t = .ok k) :
    x.heeds keys := by
  unfold heeds
  rw [h, Option.all_some, hk]
  rfl

theorem not_heeds_of_error {f : Fault} (h : x.delta.tuple? = some t)
    (hf : keys x.side x.plan t = .error f) : ¬x.heeds keys := by
  unfold heeds
  rw [h, Option.all_some, hf]
  exact Bool.false_ne_true

/-- The messages but for those that a join could not calculate a key for. -/
def heeded (keys : Side → S → Tuple → Checked Key) (xs : List (Message S)) : List (Message S) :=
  xs.filter (heeds keys)

theorem answered_concat : Answered fn (xs ++ [x]) s t a ↔
    if x.side = s ∧ x.delta.id = t.id then x.delta.tuple? = some t ∧ fn x.plan t = .ok a
    else Answered fn xs s t a := by
  unfold Answered
  rw [latest_concat]
  split
  · constructor
    · rintro ⟨plan, hlatest, ha⟩
      obtain ⟨u, hu, hpair⟩ := Option.map_eq_some_iff.1 hlatest
      cases hpair
      exact ⟨hu, ha⟩
    · rintro ⟨ht, ha⟩
      exact ⟨x.plan, by rw [ht]; rfl, ha⟩
  · rfl

end Message

namespace JoinMemory

variable {keys : Side → S → Tuple → Checked Key} {m : JoinMemory} {xs : List (Message S)}
  {origin : Nat}

/-- Each side files the tuples that are live, after the messages, under the latest answers. -/
structure Files (keys : Side → S → Tuple → Checked Key) (xs : List (Message S)) (m : JoinMemory) :
    Prop where
  indexed : ∀ s, (m.side s).Indexed
  occupied : ∀ s, (m.side s).Occupied
  holds : ∀ s k t, (m.side s).Holds k t ↔ Answered (keys s) (heeded keys xs) s t k

theorem files_nil (keys : Side → S → Tuple → Checked Key) : Files keys [] {} where
  indexed s := by cases s <;> exact JoinIndex.indexed_empty
  occupied s := by cases s <;> exact JoinIndex.occupied_empty
  holds s k t := by
    constructor
    · intro h
      cases s <;> simp [JoinIndex.Holds, side] at h
    · rintro ⟨plan, hlatest, -⟩
      cases hlatest

/-- A message that is heeded moves one side. -/
theorem Files.move (h : Files keys xs m) {x : Message S} (hx : x.heeds keys) {y : JoinIndex}
    (indexed : y.Indexed) (occupied : y.Occupied)
    (holds : ∀ k t, y.Holds k t ↔ Answered (keys x.side) (heeded keys xs ++ [x]) x.side t k) :
    Files keys (xs ++ [x]) (m.setSide x.side y) := by
  have hother : (m.setSide x.side y).side x.side.opposite = m.side x.side.opposite := by
    rw [side_opposite, side_opposite, other_setSide]
  have hheeded : heeded keys (xs ++ [x]) = heeded keys xs ++ [x] := by
    unfold heeded
    rw [List.filter_append, List.filter_cons_of_pos hx, List.filter_nil]
  refine ⟨forall_side (s := x.side) ?_ ?_, forall_side (s := x.side) ?_ ?_,
    forall_side (s := x.side) ?_ ?_⟩
  · rwa [side_setSide]
  · rw [hother]
    exact h.indexed _
  · rwa [side_setSide]
  · rw [hother]
    exact h.occupied _
  · rwa [side_setSide, hheeded]
  · intro k t
    rw [hother, hheeded, answered_concat, if_neg fun e => opposite_ne x.side e.1.symm]
    exact h.holds _ k t

theorem Files.take (h : Files keys xs m) (origin : Nat) (x : Message S) :
    Files keys (xs ++ [x]) (m.take keys origin x) := by
  unfold JoinMemory.take
  split
  · next hnone =>
    rw [retract_eq]
    refine h.move (heeds_of_none hnone) ((h.indexed _).erase _) ((h.occupied _).erase _) fun k t => ?_
    rw [JoinIndex.holds_erase, answered_concat, h.holds, hnone]
    by_cases hid : t.id = x.delta.id
    · rw [if_pos ⟨rfl, hid.symm⟩]
      exact iff_of_false (fun e => e.1 hid) nofun
    · rw [if_neg fun e => hid e.2.symm]
      exact and_iff_right hid
  · next t ht =>
    have hid : x.delta.id = t.id := (Delta.id_eq_of_tuple? ht).symm
    split
    · next f hf =>
      have hheeded : heeded keys (xs ++ [x]) = heeded keys xs := by
        unfold heeded
        rw [List.filter_append, List.filter_cons_of_neg (not_heeds_of_error ht hf),
          List.filter_nil, List.append_nil]
      exact ⟨h.indexed, h.occupied, by rw [hheeded]; exact h.holds⟩
    · next k hk =>
      obtain ⟨y, hplace, hkey, hy⟩ := m.place_eq x.side origin k t
      have hindexed : y.Indexed := by
        rcases hy with rfl | rfl
        · exact h.indexed _
        · exact (h.indexed _).erase _
      have hoccupied : y.Occupied := by
        rcases hy with rfl | rfl
        · exact h.occupied _
        · exact (h.occupied _).erase _
      rw [hplace]
      refine h.move (heeds_of_ok ht hk) (hindexed.add hkey) (hoccupied.add k t) fun k' u => ?_
      rw [JoinIndex.holds_moved hy, answered_concat, hid, ht]
      by_cases hu : u.id = t.id
      · rw [if_pos hu, if_pos ⟨rfl, hu.symm⟩, Option.some.injEq]
        constructor
        · rintro ⟨rfl, rfl⟩
          exact ⟨rfl, hk⟩
        · rintro ⟨rfl, hk'⟩
          rw [hk] at hk'
          cases hk'
          exact ⟨rfl, rfl⟩
      · rw [if_neg hu, if_neg fun e => hu e.2.symm]
        exact h.holds _ k' u

end JoinMemory

/-! ## Whole streams -/

namespace Station

/-- The station after the messages, one after another. A message that makes it fail leaves it as far
as it came. -/
def hearAll (origin : Nat) (station : Station S sh) (xs : List (Message S)) : Station S sh :=
  xs.foldl (fun station x => Step.finalState (receive x.plan origin x.side x.delta) station) station

theorem finalState_join (leftKey rightKey : S → Tuple → Checked Key) (origin : Nat) (m : JoinMemory)
    (x : Message S) :
    Step.finalState (receive x.plan origin x.side x.delta)
        (.join leftKey rightKey m : Station S sh) =
      .join leftKey rightKey (m.take (joinKeys leftKey rightKey) origin x) := by
  obtain ⟨plan, s, d⟩ := x
  have hplace : ∀ t, Step.finalState (receive plan origin s (.insert t))
      (.join leftKey rightKey m : Station S sh) =
        .join leftKey rightKey
          (m.take (joinKeys leftKey rightKey) origin ⟨plan, s, .insert t⟩) := by
    intro t
    have hreceive : receive plan origin s (.insert t) (.join leftKey rightKey m : Station S sh) =
        conclude (.join leftKey rightKey) .pass
          (joinTuple plan origin s (joinKeys leftKey rightKey s) t m) := by
      cases s <;> rfl
    unfold Step.finalState
    rw [hreceive]
    unfold joinTuple JoinMemory.take
    dsimp only [Delta.tuple?]
    cases joinKeys leftKey rightKey s plan t <;> rfl
  cases d with
  | insert t => exact hplace t
  | update t =>
    have hupdate : receive plan origin s (.update t) (.join leftKey rightKey m : Station S sh) =
        receive plan origin s (.insert t) (.join leftKey rightKey m) := by
      cases s <;> rfl
    refine Eq.trans ?_ (hplace t)
    unfold Step.finalState
    rw [hupdate]
  | retract j => rfl

/-- The two maps of each side agree after any messages, whatever the keys are answered: an id is
listed under the key of its entry and under no other one, and no key is listed without ids. Looking
up a key finds the live tuples whose latest key it is, each of them once. -/
theorem join_indexed (leftKey rightKey : S → Tuple → Checked Key) (origin : Nat)
    (xs : List (Message S)) :
    ∃ m : JoinMemory,
      hearAll origin (.join leftKey rightKey {} : Station S sh) xs = .join leftKey rightKey m ∧
      ∀ s, (∀ k i, i ∈ (m.side s).byKey.getD k ∅ ↔ ∃ t, (m.side s).entries[i]? = some (k, t)) ∧
        (∀ k k' i, i ∈ (m.side s).byKey.getD k ∅ → i ∈ (m.side s).byKey.getD k' ∅ → k = k') ∧
        (m.side s).Occupied ∧
        ∀ k, ((m.side s).partners k).Pairwise (fun p q => p.id ≠ q.id) ∧
          ∀ t, t ∈ (m.side s).partners k ↔
            Answered (joinKeys leftKey rightKey s) (heeded (joinKeys leftKey rightKey) xs) s t k := by
  have hfiles : ∃ m : JoinMemory,
      hearAll origin (.join leftKey rightKey {} : Station S sh) xs = .join leftKey rightKey m ∧
        m.Files (joinKeys leftKey rightKey) xs := by
    induction xs using List.reverseRecOn with
    | nil => exact ⟨{}, rfl, JoinMemory.files_nil _⟩
    | append_singleton xs x ih =>
      obtain ⟨m, hm, hfiles⟩ := ih
      refine ⟨m.take (joinKeys leftKey rightKey) origin x, ?_, hfiles.take origin x⟩
      unfold hearAll at hm ⊢
      rw [List.foldl_append, hm]
      exact finalState_join leftKey rightKey origin m x
  obtain ⟨m, hm, hfiles⟩ := hfiles
  refine ⟨m, hm, fun s => ⟨fun k i => ?_, fun k k' i hk hk' => ?_, hfiles.occupied s,
    fun k => ⟨(hfiles.indexed s).pairwise_partners k, fun t => ?_⟩⟩⟩
  · rw [(hfiles.indexed s).listed, JoinIndex.key?_eq_some]
  · rw [(hfiles.indexed s).listed] at hk hk'
    exact Option.some.inj (hk.symm.trans hk')
  · rw [(hfiles.indexed s).mem_partners, hfiles.holds]

end Station

end PlanSearch
