import PlanSearch.Proofs.Network.Station

/-!
# Disciplined streams

A stream of deltas is disciplined if it inserts only what is absent, and updates and retracts only
what is present. Every station that is the view of its input replies with a disciplined stream,
whatever its own input was: what it remembers tells it which tuples of its output are live.

    x.Disciplined (ds ++ es) ↔ x.Disciplined ds ∧ (x.hearAll ds).Disciplined es
                                                                          (disciplined_append)
    station.Tracks before now i input output → receive … = .ok reply station' →
      output.Disciplined reply.deltas                                     (Tracks.disciplined)
-/

namespace PlanSearch

variable {S : Type} {sh : Shape} {before now : S} {origin : Nat}

/-! ## Discipline -/

namespace Feed

/-- What is inserted is absent, and what is updated or retracted is present. -/
def Permits (x : Feed) : Delta → Prop
  | .insert t => x.live t.id = none
  | .update t => x.live t.id ≠ none
  | .retract i => x.live i ≠ none

/-- Every delta is permitted by what those before it amount to. -/
def Disciplined : Feed → List Delta → Prop
  | _, [] => True
  | x, d :: ds => x.Permits d ∧ Disciplined (x.hear d) ds

variable {x y : Feed} {d e : Delta} {ds es : List Delta}

theorem permits_congr (h : x.live d.id = y.live d.id) : x.Permits d ↔ y.Permits d := by
  cases d with
  | insert t => exact Eq.congr_left h
  | update t => exact not_congr (Eq.congr_left h)
  | retract i => exact not_congr (Eq.congr_left h)

theorem disciplined_congr (h : x.live = y.live) : x.Disciplined ds ↔ y.Disciplined ds := by
  induction ds generalizing x y with
  | nil => exact Iff.rfl
  | cons d ds ih =>
    have hd : (x.hear d).live = (y.hear d).live := by
      unfold hear
      rw [h]
    exact and_congr (permits_congr (congrFun h d.id)) (ih hd)

theorem disciplined_append :
    x.Disciplined (ds ++ es) ↔ x.Disciplined ds ∧ (x.hearAll ds).Disciplined es := by
  induction ds generalizing x with
  | nil => exact (iff_of_eq (true_and _)).symm
  | cons d ds ih =>
    show _ ∧ (x.hear d).Disciplined (ds ++ es) ↔ _
    rw [ih, hearAll_cons, ← and_assoc]
    exact Iff.rfl

theorem disciplined_singleton (h : x.Permits d) : x.Disciplined [d] := ⟨h, trivial⟩

/-- Deltas on different identities do not depend on each other. -/
theorem disciplined_of_pairwise (hne : ds.Pairwise fun d e => d.id ≠ e.id)
    (h : ∀ d ∈ ds, x.Permits d) : x.Disciplined ds := by
  induction ds generalizing x with
  | nil => trivial
  | cons d ds ih =>
    obtain ⟨hd, hds⟩ := List.pairwise_cons.1 hne
    obtain ⟨hpermits, hrest⟩ := List.forall_mem_cons.1 h
    refine ⟨hpermits, ih hds fun e he => ?_⟩
    have hlive : (x.hear d).live e.id = x.live e.id := live_hear_of_ne (hd e he).symm
    exact (permits_congr hlive).2 (hrest e he)

end Feed

/-! ## Filters -/

namespace FilterMemory

variable {test : S → Tuple → Checked Bool} {m : FilterMemory} {input output : Feed} {t : Tuple}
  {i : TupleId}

theorem Tracks.live_ne_none (h : Tracks test before now origin m input output) :
    output.live i ≠ none ↔ m[i]? = some true := by
  rw [h.live]
  constructor
  · intro hne
    by_contra hi
    exact hne (if_neg hi)
  · intro hi
    obtain ⟨t, ht⟩ := h.recalls.live_isSome hi
    rw [if_pos hi, ht]
    exact nofun

theorem Tracks.disciplined_judge (h : Tracks test before now origin m input output) (t : Tuple)
    (b : Bool) : output.Disciplined (m.judge origin t b).2 := by
  have hlive := h.live_ne_none (i := t.id)
  unfold FilterMemory.judge
  dsimp only
  split
  · next hm => exact Feed.disciplined_singleton (hlive.2 hm)
  · next hm => exact Feed.disciplined_singleton (hlive.2 hm)
  · next hm => exact Feed.disciplined_singleton (not_not.1 fun hne => hm (hlive.1 hne))
  · exact trivial

theorem Tracks.disciplined_retract (h : Tracks test before now origin m input output)
    (j : TupleId) : output.Disciplined (m.retract j).2 := by
  unfold FilterMemory.retract
  dsimp only
  split
  · next hm => exact Feed.disciplined_singleton (h.live_ne_none.2 hm)
  · exact trivial

end FilterMemory

/-! ## Joins -/

namespace JoinMemory

variable {keys : Side → S → Tuple → Checked Key} {m : JoinMemory} {input : Side → Feed}
  {output : Feed} {s : Side} {k : Key} {t p : Tuple} {j : TupleId}

theorem Tracks.live_of_key? (h : Tracks keys before now origin m input output)
    (hj : (m.side s).key? j = some k) (hp : (m.other s).Holds k p) :
    output.live (combineIds s j p.id) ≠ none := by
  obtain ⟨own, hown⟩ := JoinIndex.key?_eq_some.1 hj
  have hid : own.id = j := (h.index s).recalls.keyed j own ((h.index s).entry j k own hown)
  have hheld : (m.side s).Holds k own := (h.index s).holds_of_entry hown
  rw [(h.live s _ (combine s own p origin)).2 ⟨own, p, ⟨k, hheld, hp⟩, by rw [hid], rfl⟩]
  exact nofun

theorem Tracks.live_of_key?_eq_none (h : Tracks keys before now origin m input output)
    (hj : (m.side s).key? j = none)
    (hlen : ∀ k u, (m.side s).Holds k u → u.id.length = j.length) (q : TupleId) :
    output.live (combineIds s j q) = none := by
  cases hu : output.live (combineIds s j q) with
  | none => rfl
  | some u =>
    obtain ⟨own, p, ⟨k, hown, -⟩, hid, -⟩ := (h.live s _ u).1 hu
    obtain ⟨rfl, -⟩ := combineIds_inj (hlen k own hown).symm hid
    rw [hown.key?] at hj
    cases hj

/-- Deltas on the pairs of one tuple with those that have its key. -/
theorem Tracks.disciplined_map (h : Tracks keys before now origin m input output)
    {f : Tuple → Delta} (hf : ∀ p, (f p).id = combineIds s j p.id)
    (hp : ∀ p, (m.other s).Holds k p → output.Permits (f p)) :
    output.Disciplined (((m.other s).partners k).map f) := by
  have hindex := h.index s.opposite
  rw [side_opposite] at hindex
  refine Feed.disciplined_of_pairwise ?_ (List.forall_mem_map.2 fun p hm => ?_)
  · rw [List.pairwise_map]
    refine (hindex.toIndexed.pairwise_partners k).imp fun {p q} hne e => hne ?_
    rw [hf, hf] at e
    exact (combineIds_inj rfl e).2
  · exact hp p (h.mem_other_partners.1 hm)

theorem Tracks.disciplined_insert (h : Tracks keys before now origin m input output)
    (ht : (m.side s).key? t.id = none)
    (hlen : ∀ k u, (m.side s).Holds k u → u.id.length = t.id.length) (k : Key) :
    output.Disciplined (m.insert s origin k t).2 := by
  refine h.disciplined_map (j := t.id) (fun p => combine_id ..) fun p _ => ?_
  show output.live (combine s t p origin).id = none
  rw [combine_id]
  exact h.live_of_key?_eq_none ht hlen p.id

theorem Tracks.disciplined_retract (h : Tracks keys before now origin m input output)
    (j : TupleId) : output.Disciplined (m.retract s j).2 := by
  unfold JoinMemory.retract
  split
  · exact trivial
  · next k hj => exact h.disciplined_map (fun p => rfl) fun p hp => h.live_of_key? hj hp

theorem Tracks.disciplined_place (h : Tracks keys before now origin m input output)
    (hlen : ∀ k u, (m.side s).Holds k u → u.id.length = t.id.length) (k : Key) :
    output.Disciplined (m.place s origin k t).2 := by
  unfold JoinMemory.place
  cases hold : (m.side s).key? t.id with
  | none => exact h.disciplined_insert hold hlen k
  | some old =>
    dsimp only
    split
    · next hk =>
      subst hk
      refine h.disciplined_map (j := t.id) (fun p => combine_id ..) fun p hp => ?_
      show output.live (combine s t p origin).id ≠ none
      rw [combine_id]
      exact h.live_of_key? hold hp
    · -- The tuple leaves its old partners before it meets the new ones.
      refine Feed.disciplined_append.2 ⟨h.disciplined_retract t.id, ?_⟩
      have hgone := h.retract (s := s) t.id fun k₁ k₂ u v hu hv =>
        (hlen k₁ u hu).trans (hlen k₂ v hv).symm
      refine hgone.disciplined_insert ?_ (fun k' u hu => ?_) k
      · rw [side_retract, JoinIndex.key?_erase, if_pos rfl]
      · rw [side_retract, JoinIndex.holds_erase] at hu
        exact hlen k' u hu.2

end JoinMemory

/-! ## Groups -/

namespace GroupMemory

variable {answer : S → Tuple → Checked (Key × Int64)} {c : Collector} {m m' : GroupMemory}
  {input output : Feed} {k : Key} {v : Int64} {i : TupleId} {g : Group} {out : List Delta}

theorem Tracks.live_eq_none (h : Tracks answer c before now origin m input output)
    (hk : m.groups[k]? = none) : output.live [.group k] = none := by
  cases hu : output.live [.group k] with
  | none => rfl
  | some u =>
    obtain ⟨k', g, hg, hid, -⟩ := (h.live _ u).1 hu
    cases hid
    rw [hk] at hg
    cases hg

/-- A group that is there may be updated, or left alone. -/
theorem Tracks.disciplined_moved (h : Tracks answer c before now origin m input output)
    (hg : m.groups[k]? = some g) (g' : Group) :
    output.Disciplined (if g.result = g'.result then []
      else [.update (Tuple.ofGroup k g'.result origin)]) := by
  split
  · exact trivial
  · refine Feed.disciplined_singleton ?_
    show output.live [.group k] ≠ none
    rw [h.live_self hg]
    exact nofun

theorem Tracks.disciplined_within (h : Tracks answer c before now origin m input output)
    (hg : m.groups[k]? = some g) {change : Step Group Unit} {m₁ : GroupMemory}
    (e : within origin k g change m₁ = .ok out m') : output.Disciplined out := by
  obtain ⟨g', -, -, rfl⟩ := within_eq_ok e
  exact h.disciplined_moved hg g'

theorem Tracks.disciplined_insert (h : Tracks answer c before now origin m input output)
    (e : GroupMemory.insert c origin i k v m = .ok out m') : output.Disciplined out := by
  unfold GroupMemory.insert at e
  dsimp only at e
  split at e
  · next g hg => exact h.disciplined_within hg e
  · next hk =>
    split at e
    · cases e
    · cases e
      exact Feed.disciplined_singleton (h.live_eq_none hk)

theorem Tracks.disciplined_revalue (h : Tracks answer c before now origin m input output)
    (e : GroupMemory.revalue c origin i k v m = .ok out m') : output.Disciplined out := by
  unfold GroupMemory.revalue at e
  split at e
  · cases e
    exact trivial
  · next g hg =>
    split at e
    · cases e
      exact trivial
    · exact h.disciplined_within hg e

theorem Tracks.disciplined_retract (h : Tracks answer c before now origin m input output)
    (e : GroupMemory.retract c origin i m = .ok out m') : output.Disciplined out := by
  unfold GroupMemory.retract at e
  split at e
  · cases e
    exact trivial
  · next k _ =>
    dsimp only at e
    split at e
    · cases e
      exact trivial
    · next g hg =>
      split at e
      · cases e
      · next g' _ =>
        split at e
        · cases e
          refine Feed.disciplined_singleton ?_
          show output.live [.group k] ≠ none
          rw [h.live_self hg]
          exact nofun
        · cases e
          exact h.disciplined_moved hg g'

theorem Tracks.disciplined_place (h : Tracks answer c before now origin m input output)
    (e : GroupMemory.place c origin i k v m = .ok out m') : output.Disciplined out := by
  unfold GroupMemory.place at e
  rw [Step.get_bind] at e
  cases hmem : m.members[i]? with
  | none =>
    rw [hmem] at e
    exact h.disciplined_insert e
  | some old =>
    rw [hmem] at e
    dsimp only at e
    split at e
    · exact h.disciplined_revalue e
    · -- The member leaves its old group before it joins the new one.
      obtain ⟨gone, m₁, hgone, e⟩ := Step.bind_eq_ok e
      obtain ⟨new, m₂, hnew, e⟩ := Step.bind_eq_ok e
      cases e
      obtain ⟨h₁, -⟩ := h.retract i hgone
      exact Feed.disciplined_append.2 ⟨h.disciplined_retract hgone, h₁.disciplined_insert hnew⟩

end GroupMemory

/-! ## Stations -/

namespace Station

variable {input : Side → Feed} {output : Feed} {s : Side} {d : Delta}
  {station station' : Station S sh} {reply : Reply sh}

theorem Tracks.disciplined_insert {t : Tuple} (h : station.Tracks before now origin input output)
    (hs : s ∈ station.stage.inputs)
    (hlen : ∀ lk rk, station.stage = .join lk rk →
      ∀ i u, (input s).live i = some u → u.id.length = t.id.length)
    (e : Station.receive now origin s (.insert t) station = .ok reply station') :
    output.Disciplined reply.deltas := by
  cases takes hs e with
  | filter => exact FilterMemory.Tracks.disciplined_judge h t _
  | join =>
    exact JoinMemory.Tracks.disciplined_place h (fun k u hu =>
      hlen _ _ rfl u.id u ((JoinMemory.Tracks.index h s).live_of_holds hu)) _
  | group _ placed => exact GroupMemory.Tracks.disciplined_place h placed
  | scorer => exact trivial

theorem Tracks.disciplined_retract {j : TupleId}
    (h : station.Tracks before now origin input output) (hs : s ∈ station.stage.inputs)
    (e : Station.receive now origin s (.retract j) station = .ok reply station') :
    output.Disciplined reply.deltas := by
  cases drops hs e with
  | filter => exact FilterMemory.Tracks.disciplined_retract h j
  | join => exact JoinMemory.Tracks.disciplined_retract h j
  | group retracted => exact GroupMemory.Tracks.disciplined_retract h retracted
  | scorer => exact trivial

/-- A station inserts only what is absent from its output, and updates and retracts only what is
present there. -/
theorem Tracks.disciplined (h : station.Tracks before now origin input output)
    (hs : s ∈ station.stage.inputs)
    (hlen : ∀ lk rk, station.stage = .join lk rk → ∀ i u t, (input s).live i = some u →
      d.tuple? = some t → u.id.length = t.id.length)
    (e : Station.receive now origin s d station = .ok reply station') :
    output.Disciplined reply.deltas := by
  have hinsert : ∀ t, d.tuple? = some t →
      Station.receive now origin s (.insert t) station = .ok reply station' →
        output.Disciplined reply.deltas := fun t ht e =>
    h.disciplined_insert hs (fun lk rk hj i u hu => hlen lk rk hj i u t hu ht) e
  cases d with
  | insert t => exact hinsert t rfl e
  | update t =>
    rw [receive_update hs] at e
    exact hinsert t rfl e
  | retract j => exact h.disciplined_retract hs e

end Station

end PlanSearch
