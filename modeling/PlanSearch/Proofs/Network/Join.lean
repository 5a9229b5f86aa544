import PlanSearch.Proofs.Data.HashMap
import PlanSearch.Proofs.Network.Feed

/-!
# Joins as views

Each side of a join keeps an index from keys to the tuples that have them. The output consists of
the pairs that are held under one key, whatever the order in which the two sides moved, and a pair
is named as soon as one of its parts is.

    t ∈ x.partners k ↔ x.Holds k t                                           (mem_partners)

Both sides are treated alike: `s` is the side that moves, and a pair is written with the tuple of
that side first.
-/

namespace PlanSearch

open Std (HashMap HashSet)

variable {S : Type} {before now : S}

def Side.opposite : Side → Side
  | .left => .right
  | .right => .left

/-! ## One side -/

namespace JoinIndex

/-- The tuple is live under this key. -/
def Holds (x : JoinIndex) (k : Key) (t : Tuple) : Prop := x.entries[t.id]? = some (k, t)

/-- Ids are listed under the keys of their entries, and entries are found under their own ids. -/
structure Indexed (x : JoinIndex) : Prop where
  listed : ∀ k i, i ∈ x.byKey.getD k ∅ ↔ x.key? i = some k
  named : ∀ i k (t : Tuple), x.entries[i]? = some (k, t) → t.id = i

/-- The index holds each tuple of its input under the latest key. -/
structure Tracks (key : S → Tuple → Checked Key) (before now : S) (x : JoinIndex)
    (input : Feed) : Prop where
  recalls : Recalls key before now x.key? input
  entry : ∀ i k t, x.entries[i]? = some (k, t) → input.live i = some t
  indexed : ∀ k i, i ∈ x.byKey.getD k ∅ ↔ x.key? i = some k

variable {key : S → Tuple → Checked Key} {x : JoinIndex} {input : Feed} {k : Key} {t u : Tuple}
  {i : TupleId}

theorem key?_eq_some : x.key? i = some k ↔ ∃ u, x.entries[i]? = some (k, u) := by
  unfold key?
  rw [Option.map_eq_some_iff]
  constructor
  · rintro ⟨⟨a, u⟩, h, rfl⟩
    exact ⟨u, h⟩
  · rintro ⟨u, h⟩
    exact ⟨(k, u), h, rfl⟩

theorem Holds.key? (h : x.Holds k t) : x.key? t.id = some k := key?_eq_some.2 ⟨t, h⟩

theorem Indexed.holds_of_entry (h : x.Indexed) (e : x.entries[i]? = some (k, t)) :
    x.Holds k t := by
  unfold Holds
  rw [h.named i k t e]
  exact e

/-- Looking up a key finds the tuples that are held under it. -/
theorem Indexed.mem_partners (h : x.Indexed) : t ∈ x.partners k ↔ x.Holds k t := by
  unfold partners
  rw [List.mem_filterMap]
  constructor
  · rintro ⟨i, hi, hm⟩
    rw [Std.HashSet.mem_toList, h.listed, key?_eq_some] at hi
    obtain ⟨u, hu⟩ := hi
    rw [hu] at hm
    cases hm
    exact h.holds_of_entry hu
  · intro ht
    refine ⟨t.id, ?_, by rw [show x.entries[t.id]? = _ from ht]; rfl⟩
    rw [Std.HashSet.mem_toList, h.listed]
    exact ht.key?

/-- The tuples that are held under one key differ in their identities. -/
theorem Indexed.pairwise_partners (h : x.Indexed) (k : Key) :
    (x.partners k).Pairwise fun p q => p.id ≠ q.id := by
  have hid : ∀ (i : TupleId) (u : Tuple), (x.entries[i]?).map (·.2) = some u → u.id = i :=
      fun i u hu => by
    obtain ⟨⟨k', u⟩, hk, rfl⟩ := Option.map_eq_some_iff.1 hu
    exact h.named i k' u hk
  unfold partners
  rw [List.pairwise_filterMap]
  refine Std.HashSet.distinct_toList.imp fun {i j} hij u hu v hv e => ?_
  rw [hid i u hu, hid j v hv] at e
  simp [e] at hij

theorem Holds.unique {k' : Key} (h : x.Holds k t) (h' : x.Holds k' u) (e : t.id = u.id) :
    k = k' ∧ t = u := by
  unfold Holds at h h'
  rw [e, h'] at h
  cases h
  exact ⟨rfl, rfl⟩

theorem tracks_empty (key : S → Tuple → Checked Key) (before now : S) :
    Tracks key before now {} Feed.empty where
  recalls := by
    have h := Recalls.empty key before now
    rwa [show (fun _ => none) = JoinIndex.key? {} from funext fun i => by simp [JoinIndex.key?]] at h
  entry i k t h := by simp at h
  indexed k i := by simp [JoinIndex.key?]

theorem Tracks.toIndexed (h : Tracks key before now x input) : x.Indexed where
  listed := h.indexed
  named i k t e := h.recalls.keyed i t (h.entry i k t e)

theorem Tracks.holds_of_entry (h : Tracks key before now x input)
    (e : x.entries[i]? = some (k, t)) : x.Holds k t := h.toIndexed.holds_of_entry e

theorem Tracks.live_of_holds (h : Tracks key before now x input) (e : x.Holds k t) :
    input.live t.id = some t := h.entry t.id k t e

theorem Tracks.holds_iff_live (h : Tracks key before now x input) :
    x.Holds k t ↔ input.live t.id = some t ∧ x.key? t.id = some k := by
  refine ⟨fun ht => ⟨h.live_of_holds ht, ht.key?⟩, fun ⟨hlive, hk⟩ => ?_⟩
  obtain ⟨u, hu⟩ := key?_eq_some.1 hk
  have hsame := h.entry t.id k u hu
  rw [hlive] at hsame
  cases hsame
  exact hu

/-- Live tuples are held under the key that is remembered of them. -/
theorem Tracks.holds_of_live (h : Tracks key before now x input) (e : input.live i = some t) :
    ∃ k, x.Holds k t ∧ Answers key before now input t k := by
  obtain ⟨k, hk, ha⟩ := h.recalls.present i t e
  obtain rfl := h.recalls.keyed i t e
  exact ⟨k, h.holds_iff_live.2 ⟨e, hk⟩, ha⟩

theorem Tracks.mem_partners (h : Tracks key before now x input) :
    t ∈ x.partners k ↔ x.Holds k t := h.toIndexed.mem_partners

theorem entries_add (x : JoinIndex) (k : Key) (t : Tuple) (i : TupleId) :
    (x.add k t).entries[i]? = if i = t.id then some (k, t) else x.entries[i]? :=
  getElem?_insert_ite ..

theorem key?_add (x : JoinIndex) (k : Key) (t : Tuple) (i : TupleId) :
    (x.add k t).key? i = if i = t.id then some k else x.key? i := by
  unfold key?
  rw [entries_add]
  split <;> rfl

theorem holds_add {k' : Key} :
    (x.add k t).Holds k' u ↔ (u = t ∧ k' = k) ∨ (u.id ≠ t.id ∧ x.Holds k' u) := by
  unfold Holds
  rw [entries_add]
  by_cases h : u.id = t.id
  · rw [if_pos h]
    constructor
    · intro e
      cases e
      exact .inl ⟨rfl, rfl⟩
    · rintro (⟨rfl, rfl⟩ | ⟨hu, -⟩)
      · rfl
      · exact absurd h hu
  · rw [if_neg h]
    constructor
    · exact fun e => .inr ⟨h, e⟩
    · rintro (⟨rfl, -⟩ | ⟨-, e⟩)
      · exact absurd rfl h
      · exact e

theorem mem_byKey_add {k' : Key} : i ∈ (x.add k t).byKey.getD k' ∅ ↔
    (k' = k ∧ i = t.id) ∨ i ∈ x.byKey.getD k' ∅ := by
  show i ∈ (x.byKey.alter k fun ids => some ((ids.getD ∅).insert t.id)).getD k' ∅ ↔ _
  rw [HashMap.getD_alter]
  by_cases hk : k = k'
  · subst hk
    rw [if_pos (beq_self_eq_true k)]
    show i ∈ (x.byKey[k]?.getD ∅).insert t.id ↔ _
    rw [Std.HashSet.mem_insert, ← HashMap.getD_eq_getD_getElem?, beq_iff_eq, eq_comm]
    exact or_congr_left (and_iff_right rfl).symm
  · rw [if_neg (by simpa using hk)]
    exact (or_iff_right fun h => hk h.1.symm).symm

/-- A tuple that is new or keeps its key is added. -/
theorem Indexed.add (h : x.Indexed) (hold : ∀ k', x.key? t.id = some k' → k' = k) :
    (x.add k t).Indexed where
  listed k' i := by
    rw [key?_add, mem_byKey_add, h.listed]
    by_cases hi : i = t.id
    · subst hi
      rw [if_pos rfl, Option.some.injEq]
      constructor
      · rintro (⟨rfl, -⟩ | e)
        · rfl
        · exact (hold k' e).symm
      · rintro rfl
        exact .inl ⟨rfl, rfl⟩
    · rw [if_neg hi]
      exact or_iff_right fun e => hi e.2
  named i k' u e := by
    rw [entries_add] at e
    split at e
    · next hi =>
      cases e
      exact hi.symm
    · exact h.named i k' u e

theorem Tracks.add (h : Tracks key before now x input) (hk : key now t = .ok k)
    (hold : ∀ k', x.key? t.id = some k' → k' = k) :
    Tracks key before now (x.add k t) (input.hear (.insert t)) where
  recalls := h.recalls.put hk (key?_add x k t)
  entry i k' u e := by
    rw [entries_add] at e
    split at e
    · next hi =>
      cases e
      rw [hi, Feed.live_hear_insert]
    · next hi =>
      rw [Feed.live_hear_of_ne hi]
      exact h.entry i k' u e
  indexed := (h.toIndexed.add hold).listed

theorem entries_erase (x : JoinIndex) (j i : TupleId) :
    (x.erase j).entries[i]? = if i = j then none else x.entries[i]? := by
  unfold erase
  split
  · next hj =>
    unfold key? at hj
    rw [Option.map_eq_none_iff] at hj
    split
    · next e => rw [e, hj]
    · rfl
  · exact getElem?_erase_ite ..

theorem key?_erase (x : JoinIndex) (j i : TupleId) :
    (x.erase j).key? i = if i = j then none else x.key? i := by
  unfold key?
  rw [entries_erase]
  split <;> rfl

theorem holds_erase {j : TupleId} : (x.erase j).Holds k u ↔ u.id ≠ j ∧ x.Holds k u := by
  unfold Holds
  rw [entries_erase]
  by_cases h : u.id = j
  · simp [h]
  · simp [h]

theorem mem_byKey_erase {j : TupleId} : i ∈ (x.erase j).byKey.getD k ∅ ↔
    i ∈ x.byKey.getD k ∅ ∧ (i = j → x.key? j ≠ some k) := by
  unfold erase
  split
  · next hj =>
    rw [hj]
    exact (and_iff_left fun _ => nofun).symm
  · next k' hj =>
    show i ∈ (x.byKey.alter k' _).getD k ∅ ↔ _
    rw [HashMap.getD_alter, hj]
    by_cases hk : k' = k
    · subst hk
      rw [if_pos (beq_self_eq_true k')]
      have hrest : i ∈ (x.byKey[k']?.getD ∅).erase j ↔
          i ∈ x.byKey.getD k' ∅ ∧ (i = j → some k' ≠ some k') := by
        rw [Std.HashSet.mem_erase, ← HashMap.getD_eq_getD_getElem?, and_comm, beq_eq_false_iff_ne]
        refine and_congr_right fun _ => ⟨fun h e => absurd e.symm h, fun h e => h e.symm rfl⟩
      rw [← hrest]
      dsimp only
      split
      · next he =>
        have := Std.HashSet.isEmpty_iff_forall_not_mem.1 he i
        simp [this]
      · rfl
    · rw [if_neg (by simpa using hk)]
      exact (and_iff_left fun _ e => hk (Option.some.inj e)).symm

theorem Indexed.erase (h : x.Indexed) (j : TupleId) : (x.erase j).Indexed where
  listed k' i := by
    rw [key?_erase, mem_byKey_erase, h.listed]
    by_cases hi : i = j
    · subst hi
      rw [if_pos rfl]
      exact iff_of_false (fun e => e.2 rfl e.1) nofun
    · rw [if_neg hi]
      exact and_iff_left fun e => absurd e hi
  named i k' u e := by
    rw [entries_erase] at e
    split at e
    · cases e
    · exact h.named i k' u e

theorem Tracks.erase (h : Tracks key before now x input) (j : TupleId) :
    Tracks key before now (x.erase j) (input.hear (.retract j)) where
  recalls := h.recalls.drop j (key?_erase x j)
  entry i k' u e := by
    rw [entries_erase] at e
    split at e
    · cases e
    · next hi =>
      rw [Feed.live_hear_of_ne hi]
      exact h.entry i k' u e
  indexed := (h.toIndexed.erase j).listed

end JoinIndex

/-! ## Both sides -/

namespace JoinMemory

/-- `own`, which lives on side `s`, and `partner` are held under one key. -/
def Joins (m : JoinMemory) (s : Side) (own partner : Tuple) : Prop :=
  ∃ k, (m.side s).Holds k own ∧ (m.other s).Holds k partner

/-- The output consists of the joined pairs, and names a pair whenever one of its parts is named. -/
structure Tracks (keys : Side → S → Tuple → Checked Key) (before now : S) (origin : Nat)
    (m : JoinMemory) (input : Side → Feed) (output : Feed) : Prop where
  index : ∀ s, (m.side s).Tracks (keys s) before now (input s)
  live : ∀ s i t, output.live i = some t ↔
    ∃ own p, m.Joins s own p ∧ i = combineIds s own.id p.id ∧ t = combine s own p origin
  touched : ∀ s own p, m.Joins s own p →
    own.id ∈ (input s).touched ∨ p.id ∈ (input s.opposite).touched →
      combineIds s own.id p.id ∈ output.touched

variable {keys : Side → S → Tuple → Checked Key} {m : JoinMemory} {input : Side → Feed}
  {output : Feed} {origin : Nat} {s : Side} {k : Key} {t own p : Tuple}

theorem combine_id (s : Side) (own p : Tuple) (origin : Nat) :
    (combine s own p origin).id = combineIds s own.id p.id := by
  cases s <;> rfl

theorem combine_opposite (s : Side) (own p : Tuple) (origin : Nat) :
    combine s.opposite p own origin = combine s own p origin := by
  cases s <;> rfl

theorem combineIds_opposite (s : Side) (own p : TupleId) :
    combineIds s.opposite p own = combineIds s own p := by
  cases s <;> rfl

theorem combineIds_inj {i j p q : TupleId} (h : i.length = j.length)
    (e : combineIds s i p = combineIds s j q) : i = j ∧ p = q := by
  cases s with
  | left => exact List.append_inj e h
  | right => exact (List.append_inj' e h).symm

theorem joins_opposite : m.Joins s.opposite p own ↔ m.Joins s own p := by
  cases s <;> exact ⟨fun ⟨k, a, b⟩ => ⟨k, b, a⟩, fun ⟨k, a, b⟩ => ⟨k, b, a⟩⟩

theorem side_opposite (m : JoinMemory) (s : Side) : m.side s.opposite = m.other s := by
  cases s <;> rfl

theorem side_setSide (m : JoinMemory) (s : Side) (x : JoinIndex) : (m.setSide s x).side s = x := by
  cases s <;> rfl

theorem setSide_side (m : JoinMemory) (s : Side) : m.setSide s (m.side s) = m := by
  cases s <;> rfl

theorem other_setSide (m : JoinMemory) (s : Side) (x : JoinIndex) :
    (m.setSide s x).other s = m.other s := by
  cases s <;> rfl

theorem forall_side {P : Side → Prop} (h : P s) (h' : P s.opposite) (s' : Side) : P s' := by
  cases s <;> cases s' <;> assumption

theorem opposite_ne (s : Side) : s.opposite ≠ s := by
  cases s <;> exact nofun

/-- It is enough to look at a join from one side. -/
theorem Tracks.of_side (s : Side) (own : (m.side s).Tracks (keys s) before now (input s))
    (other : (m.other s).Tracks (keys s.opposite) before now (input s.opposite))
    (live : ∀ i t, output.live i = some t ↔
      ∃ own p, m.Joins s own p ∧ i = combineIds s own.id p.id ∧ t = combine s own p origin)
    (touched : ∀ own p, m.Joins s own p →
      own.id ∈ (input s).touched ∨ p.id ∈ (input s.opposite).touched →
        combineIds s own.id p.id ∈ output.touched) :
    Tracks keys before now origin m input output where
  index := forall_side own (by rw [side_opposite]; exact other)
  live := by
    refine forall_side live fun i t => ?_
    rw [live]
    constructor
    · rintro ⟨own, p, hj, hi, ht⟩
      exact ⟨p, own, joins_opposite.2 hj, by rw [combineIds_opposite, hi],
        by rw [combine_opposite, ht]⟩
    · rintro ⟨p, own, hj, hi, ht⟩
      rw [joins_opposite] at hj
      rw [combineIds_opposite] at hi
      rw [combine_opposite] at ht
      exact ⟨own, p, hj, hi, ht⟩
  touched := by
    refine forall_side touched fun p own hj hx => ?_
    rw [combineIds_opposite]
    refine touched own p (joins_opposite.1 hj) ?_
    rcases hx with hx | hx
    · exact .inr hx
    · refine .inl ?_
      cases s <;> exact hx

theorem tracks_empty (keys : Side → S → Tuple → Checked Key) (before now : S) (origin : Nat) :
    Tracks keys before now origin {} (fun _ => Feed.empty) Feed.empty := by
  have hnone : ∀ own p, ¬ ({} : JoinMemory).Joins .left own p := by
    rintro own p ⟨k, ho, -⟩
    simp [JoinIndex.Holds, side] at ho
  refine .of_side .left (JoinIndex.tracks_empty ..) (JoinIndex.tracks_empty ..) (fun i t => ?_)
    fun own p hj => absurd hj (hnone own p)
  constructor
  · intro h
    cases h
  · rintro ⟨own, p, hj, -, -⟩
    exact absurd hj (hnone own p)

/-! ## Moves of one side -/

/-- The tuples that the output gains or refreshes when `t` is held under `k`. -/
def arrivals (m : JoinMemory) (s : Side) (origin : Nat) (k : Key) (t : Tuple) : List Delta :=
  ((m.other s).partners k).map fun p => .insert (combine s t p origin)

theorem hearAll_refresh (m : JoinMemory) (s : Side) (origin : Nat) (k : Key) (t : Tuple) :
    output.hearAll (m.refresh s origin k t).2 = output.hearAll (m.arrivals s origin k t) := by
  unfold refresh arrivals Feed.hearAll
  rw [List.foldl_map, List.foldl_map]
  rfl

/-- The tuples that the output loses when the one that was held under `k` leaves. -/
def departures (m : JoinMemory) (s : Side) (k : Key) (j : TupleId) : List Delta :=
  ((m.other s).partners k).map fun p => .retract (combineIds s j p.id)

theorem joins_add :
    (m.setSide s ((m.side s).add k t)).Joins s own p ↔
      (own = t ∧ (m.other s).Holds k p) ∨ (own.id ≠ t.id ∧ m.Joins s own p) := by
  unfold Joins
  simp only [side_setSide, other_setSide, JoinIndex.holds_add]
  constructor
  · rintro ⟨k', ⟨rfl, rfl⟩ | ⟨hne, ho⟩, hp⟩
    · exact .inl ⟨rfl, hp⟩
    · exact .inr ⟨hne, k', ho, hp⟩
  · rintro (⟨rfl, hp⟩ | ⟨hne, k', ho, hp⟩)
    · exact ⟨k, .inl ⟨rfl, rfl⟩, hp⟩
    · exact ⟨k', .inr ⟨hne, ho⟩, hp⟩

theorem joins_erase {j : TupleId} :
    (m.setSide s ((m.side s).erase j)).Joins s own p ↔ own.id ≠ j ∧ m.Joins s own p := by
  unfold Joins
  simp only [side_setSide, other_setSide, JoinIndex.holds_erase]
  constructor
  · rintro ⟨k, ⟨hne, ho⟩, hp⟩
    exact ⟨hne, k, ho, hp⟩
  · rintro ⟨hne, k, ho, hp⟩
    exact ⟨k, ⟨hne, ho⟩, hp⟩

theorem Tracks.mem_other_partners (h : Tracks keys before now origin m input output) :
    p ∈ (m.other s).partners k ↔ (m.other s).Holds k p := by
  have := h.index s.opposite
  rw [side_opposite] at this
  exact this.mem_partners

theorem Tracks.mem_map_partners (h : Tracks keys before now origin m input output)
    {f : Tuple → Delta} {d : Delta} :
    d ∈ ((m.other s).partners k).map f ↔ ∃ p, (m.other s).Holds k p ∧ d = f p := by
  rw [List.mem_map]
  constructor
  · rintro ⟨p, hp, rfl⟩
    exact ⟨p, h.mem_other_partners.1 hp, rfl⟩
  · rintro ⟨p, hp, rfl⟩
    exact ⟨p, h.mem_other_partners.2 hp, rfl⟩

/-- A pair with a part that the moving side did not name was named before. -/
theorem Tracks.touched_of_hear (h : Tracks keys before now origin m input output) {d : Delta}
    (hj : m.Joins s own p) (hne : own.id ≠ d.id)
    (hx : own.id ∈ ((input s).hear d).touched ∨ p.id ∈ (input s.opposite).touched) :
    combineIds s own.id p.id ∈ output.touched :=
  h.touched s own p hj (hx.imp_left fun e => Feed.touched_of_hear e hne)

/-- One side moves and the other one stays as it is. -/
theorem Tracks.move (h : Tracks keys before now origin m input output) {x : JoinIndex} {y z : Feed}
    (own : x.Tracks (keys s) before now y)
    (live : ∀ i t, z.live i = some t ↔ ∃ own p, (m.setSide s x).Joins s own p ∧
      i = combineIds s own.id p.id ∧ t = combine s own p origin)
    (touched : ∀ own p, (m.setSide s x).Joins s own p →
      own.id ∈ y.touched ∨ p.id ∈ (input s.opposite).touched →
        combineIds s own.id p.id ∈ z.touched) :
    Tracks keys before now origin (m.setSide s x) (Function.update input s y) z := by
  have hself : Function.update input s y s = y := Function.update_self ..
  have hopp : Function.update input s y s.opposite = input s.opposite :=
    Function.update_of_ne (opposite_ne s) ..
  have hother := h.index s.opposite
  rw [side_opposite] at hother
  refine .of_side s ?_ ?_ live fun own p hj hx => touched own p hj ?_
  · rw [side_setSide, hself]
    exact own
  · rw [other_setSide, hopp]
    exact hother
  · rwa [hself, hopp] at hx

/-! ### Arrivals -/

theorem Tracks.live_arrivals (h : Tracks keys before now origin m input output)
    (hp : (m.other s).Holds k p) :
    (output.hearAll (m.arrivals s origin k t)).live (combineIds s t.id p.id) =
      some (combine s t p origin) := by
  refine Feed.live_hearAll_of_exists ⟨_, h.mem_map_partners.2 ⟨p, hp, rfl⟩, combine_id ..⟩
    fun d hd hid => ?_
  obtain ⟨q, hq, rfl⟩ := h.mem_map_partners.1 hd
  have hids : combineIds s t.id q.id = combineIds s t.id p.id := (combine_id ..).symm.trans hid
  rw [(hq.unique hp (combineIds_inj rfl hids).2).2]
  rfl

theorem Tracks.live_arrivals_of_forall_ne (h : Tracks keys before now origin m input output)
    {i : TupleId} (hne : ∀ q, (m.other s).Holds k q → combineIds s t.id q.id ≠ i) :
    (output.hearAll (m.arrivals s origin k t)).live i = output.live i := by
  refine Feed.live_hearAll_of_forall_ne fun d hd hid => ?_
  obtain ⟨q, hq, rfl⟩ := h.mem_map_partners.1 hd
  exact hne q hq ((combine_id ..).symm.trans hid)

/-- A tuple arrives that is new on its side or keeps its key. -/
theorem Tracks.arrive (h : Tracks keys before now origin m input output)
    (hk : keys s now t = .ok k) (hold : ∀ k', (m.side s).key? t.id = some k' → k' = k)
    (hlen : ∀ k' u, (m.side s).Holds k' u → u.id.length = t.id.length) :
    Tracks keys before now origin (m.setSide s ((m.side s).add k t))
      (Function.update input s ((input s).hear (.insert t)))
      (output.hearAll (m.arrivals s origin k t)) := by
  refine h.move ((h.index s).add hk hold) (fun i u => ?_) fun own p hj hx => ?_
  · by_cases hi : ∃ q, (m.other s).Holds k q ∧ combineIds s t.id q.id = i
    · obtain ⟨q, hq, rfl⟩ := hi
      rw [h.live_arrivals hq]
      constructor
      · intro e
        cases e
        exact ⟨t, q, joins_add.2 (.inl ⟨rfl, hq⟩), rfl, rfl⟩
      · rintro ⟨own, p, hj, hid, rfl⟩
        rcases joins_add.1 hj with ⟨rfl, hp⟩ | ⟨hne, k', ho, -⟩
        · rw [(hq.unique hp (combineIds_inj rfl hid).2).2]
        · exact absurd (combineIds_inj (hlen k' own ho) hid.symm).1 hne
    · have hnot : ∀ q, (m.other s).Holds k q → combineIds s t.id q.id ≠ i := fun q hq e =>
        hi ⟨q, hq, e⟩
      rw [h.live_arrivals_of_forall_ne hnot, h.live s]
      constructor
      · rintro ⟨own, p, hj, rfl, rfl⟩
        refine ⟨own, p, joins_add.2 (.inr ⟨fun e => ?_, hj⟩), rfl, rfl⟩
        obtain ⟨k', ho, hp⟩ := hj
        have hk' := hold k' (by rw [← e]; exact ho.key?)
        rw [hk'] at hp
        exact hnot p hp (by rw [e])
      · rintro ⟨own, p, hj, rfl, rfl⟩
        rcases joins_add.1 hj with ⟨rfl, hp⟩ | ⟨-, hj⟩
        · exact absurd rfl (hnot p hp)
        · exact ⟨own, p, hj, rfl, rfl⟩
  · rw [Feed.mem_touched_hearAll]
    rcases joins_add.1 hj with ⟨rfl, hp⟩ | ⟨hne, hj⟩
    · exact .inr ⟨_, h.mem_map_partners.2 ⟨p, hp, rfl⟩, combine_id ..⟩
    · exact .inl (h.touched_of_hear (d := .insert t) hj hne hx)

/-! ### Departures -/

/-- A tuple leaves that was held under `k`. -/
theorem Tracks.depart (h : Tracks keys before now origin m input output) {j : TupleId}
    (hj : (m.side s).key? j = some k)
    (hlen : ∀ k k' u v, (m.side s).Holds k u → (m.side s).Holds k' v → u.id.length = v.id.length) :
    Tracks keys before now origin (m.setSide s ((m.side s).erase j))
      (Function.update input s ((input s).hear (.retract j)))
      (output.hearAll (m.departures s k j)) := by
  obtain ⟨v, hv⟩ := JoinIndex.key?_eq_some.1 hj
  have hvj := (h.index s).holds_of_entry hv
  have hvid : v.id = j := (h.index s).recalls.keyed j v ((h.index s).entry j k v hv)
  refine h.move ((h.index s).erase j) (fun i u => ?_) fun own p hjo hx => ?_
  · by_cases hi : ∃ d ∈ m.departures s k j, d.id = i
    · have hgone : (output.hearAll (m.departures s k j)).live i = none :=
        Feed.live_hearAll_of_exists hi fun d hd _ => by
          obtain ⟨q, -, rfl⟩ := h.mem_map_partners.1 hd
          rfl
      rw [hgone]
      constructor
      · intro e
        cases e
      · rintro ⟨own, p, hjo, rfl, -⟩
        obtain ⟨d, hd, hid⟩ := hi
        obtain ⟨q, -, rfl⟩ := h.mem_map_partners.1 hd
        obtain ⟨hne, k', ho, -⟩ := joins_erase.1 hjo
        have hl : j.length = own.id.length := by rw [← hvid, hlen k k' v own hvj ho]
        exact absurd (combineIds_inj hl hid).1.symm hne
    · rw [Feed.live_hearAll_of_forall_ne fun d hd e => hi ⟨d, hd, e⟩, h.live s]
      constructor
      · rintro ⟨own, p, hjo, rfl, rfl⟩
        refine ⟨own, p, joins_erase.2 ⟨fun e => ?_, hjo⟩, rfl, rfl⟩
        obtain ⟨k', ho, hp⟩ := hjo
        rw [(ho.unique hvj (e.trans hvid.symm)).1] at hp
        exact hi ⟨_, h.mem_map_partners.2 ⟨p, hp, rfl⟩, by rw [← e]; rfl⟩
      · rintro ⟨own, p, hjo, rfl, rfl⟩
        exact ⟨own, p, (joins_erase.1 hjo).2, rfl, rfl⟩
  · rw [Feed.mem_touched_hearAll]
    obtain ⟨hne, hjo⟩ := joins_erase.1 hjo
    exact .inl (h.touched_of_hear (d := .retract j) hjo hne hx)

/-- A tuple leaves its side, if it was there. -/
theorem Tracks.retract (h : Tracks keys before now origin m input output) (j : TupleId)
    (hlen : ∀ k k' u v, (m.side s).Holds k u → (m.side s).Holds k' v → u.id.length = v.id.length) :
    Tracks keys before now origin (m.retract s j).1
      (Function.update input s ((input s).hear (.retract j)))
      (output.hearAll (m.retract s j).2) := by
  unfold JoinMemory.retract
  cases hj : (m.side s).key? j with
  | none =>
    have hne : ∀ own p, m.Joins s own p → own.id ≠ j := by
      rintro own p ⟨k, ho, -⟩ rfl
      rw [ho.key?] at hj
      cases hj
    have hown := (h.index s).erase j
    rw [show (m.side s).erase j = m.side s by unfold JoinIndex.erase; rw [hj]] at hown
    have hmoved := h.move hown (z := output) ?_ ?_
    · rwa [setSide_side] at hmoved
    · rw [setSide_side]
      exact h.live s
    · rw [setSide_side]
      exact fun own p hjo hx => h.touched_of_hear (d := .retract j) hjo (hne own p hjo) hx
  | some k => exact h.depart hj hlen

theorem side_retract (m : JoinMemory) (s : Side) (j : TupleId) :
    (m.retract s j).1.side s = (m.side s).erase j := by
  unfold JoinMemory.retract
  cases hj : (m.side s).key? j with
  | none =>
    unfold JoinIndex.erase
    rw [hj]
  | some k => exact side_setSide ..

/-- A tuple is live and its key is what was just answered. -/
theorem Tracks.place (h : Tracks keys before now origin m input output)
    (hk : keys s now t = .ok k)
    (hlen : ∀ k' u, (m.side s).Holds k' u → u.id.length = t.id.length) :
    Tracks keys before now origin (m.place s origin k t).1
      (Function.update input s ((input s).hear (.insert t)))
      (output.hearAll (m.place s origin k t).2) := by
  unfold JoinMemory.place
  cases hold : (m.side s).key? t.id with
  | none => exact h.arrive hk (fun k' e => by rw [hold] at e; cases e) hlen
  | some old =>
    dsimp only
    by_cases he : old = k
    · rw [if_pos he, hearAll_refresh]
      exact h.arrive hk (fun k' e => by rw [hold] at e; cases e; exact he) hlen
    · rw [if_neg he, Feed.hearAll_append]
      have hgone := h.retract (s := s) t.id fun k₁ k₂ u v hu hv =>
        (hlen k₁ u hu).trans (hlen k₂ v hv).symm
      have harrive := hgone.arrive hk (fun k' e => ?_) fun k' u hu => ?_
      · rw [Function.update_self, Function.update_idem,
          Feed.hear_hear_of_id_eq (d := .retract t.id) (e := .insert t) rfl] at harrive
        exact harrive
      · rw [side_retract, JoinIndex.key?_erase, if_pos rfl] at e
        cases e
      · rw [side_retract, JoinIndex.holds_erase] at hu
        exact hlen k' u hu.2

/-! ## Emitted tuples -/

theorem retract_tuple? {j : TupleId} {d : Delta} (hd : d ∈ (m.retract s j).2) :
    d.tuple? = none := by
  unfold JoinMemory.retract at hd
  split at hd
  · cases hd
  · obtain ⟨p, -, rfl⟩ := List.mem_map.1 hd
    rfl

/-- What is emitted when `t` is placed joins `t` with a tuple of the other side. -/
theorem Tracks.mem_place (h : Tracks keys before now origin m input output) {d : Delta} {u : Tuple}
    (hd : d ∈ (m.place s origin k t).2) (hu : d.tuple? = some u) :
    ∃ p, (input s.opposite).live p.id = some p ∧ u = combine s t p origin := by
  have hpartner : ∀ p ∈ (m.other s).partners k, (input s.opposite).live p.id = some p :=
    fun p hp => by
      have hindex := h.index s.opposite
      rw [side_opposite] at hindex
      exact hindex.live_of_holds (h.mem_other_partners.1 hp)
  have hnew : ∀ (m' : JoinMemory), m'.other s = m.other s → d ∈ (m'.insert s origin k t).2 →
      ∃ p, (input s.opposite).live p.id = some p ∧ u = combine s t p origin :=
    fun m' hm' hd => by
      obtain ⟨p, hp, rfl⟩ := List.mem_map.1 hd
      cases hu
      exact ⟨p, hpartner p (hm' ▸ hp), rfl⟩
  unfold JoinMemory.place at hd
  split at hd
  · exact hnew m rfl hd
  · split at hd
    · obtain ⟨p, hp, rfl⟩ := List.mem_map.1 hd
      cases hu
      exact ⟨p, hpartner p hp, rfl⟩
    · rcases List.mem_append.1 hd with hd | hd
      · rw [retract_tuple? hd] at hu
        cases hu
      · refine hnew _ ?_ hd
        unfold JoinMemory.retract
        split
        · rfl
        · exact other_setSide ..

end JoinMemory

end PlanSearch
