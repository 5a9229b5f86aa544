import PlanSearch.Proofs.Network.Requests

/-!
# Streams that feed no constraint

Building leaves out of the propagation what feeds no constraint, and nothing else: an edge is left if
a scorer can be reached through it, and a source is read if a scorer can be reached from it. A session
of the network that was built does what a session does in which all declared nodes take part, apart
from the deltas on their way to nodes that feed no constraint. As these change no score, both answer
the same, whatever they are asked for and whatever the problem's functions are; a function that is
asked in vain can only keep the session that asks it from answering.

    Live nodes i ↔ ReachesScorer nodes i                                       (live_iff_reaches)
    Prunes s t → t.Delivers plan t' → s keeps up with it                           (Prunes.delivers)
    converse qs (new b.unpruned) = .ok answers t → ∃ s, converse qs (new n) = .ok answers s
                                                                               (build_prunes)
-/

namespace PlanSearch

open NetworkBuilder (Live liveNodes liveSources WellFormed)

variable {S : Type} {sh : Shape}

/-! ## Reaching scorers -/

/-- The output of node `p` goes to node `q`. -/
def FlowsTo (nodes : Array (Node S sh)) (p q : Nat) : Prop := ∃ side, Feeds nodes p ⟨q, side⟩

/-- A scorer can be reached from node `i`. -/
def ReachesScorer (nodes : Array (Node S sh)) (i : Nat) : Prop :=
  ∃ j stage, Relation.ReflTransGen (FlowsTo nodes) i j ∧ stage? nodes j = some stage ∧ stage.isScorer

variable {nodes : Array (Node S sh)} {i : Nat}

theorem NetworkBuilder.Live.lt_size (h : Live nodes i) : i < nodes.size := by
  by_contra hi
  have hsize : ∀ k (live : Array Bool), (markLive nodes k live).size = live.size := by
    intro k
    induction k with
    | zero => exact fun _ => rfl
    | succ k ih =>
      intro live
      unfold markLive
      rw [ih, Array.size_setIfInBounds]
  unfold Live liveNodes at h
  rw [Array.getD_eq_getD_getElem?, Array.getElem?_eq_none (by rw [hsize]; simpa using hi)] at h
  cases h

/-- The marks say from which nodes a scorer can be reached. -/
theorem live_iff_reaches (hw : Wired nodes) : Live nodes i ↔ ReachesScorer nodes i := by
  constructor
  · intro h
    -- A live node that is no scorer has a live child, which is closer to the end.
    induction hd : nodes.size - i using Nat.strong_induction_on generalizing i with
    | _ d ih =>
      have hsize := h.lt_size
      have hn : nodes[i]? = some nodes[i] := Array.getElem?_eq_getElem hsize
      rcases (NetworkBuilder.live_iff hw hn).1 h with hscorer | ⟨e, he, hlive⟩
      · refine ⟨i, nodes[i].stage, .refl, ?_, hscorer⟩
        unfold stage?
        rw [hn]
        rfl
      · have hfeeds : Feeds nodes i e := ⟨_, hn, he⟩
        have hlt := hw.forward i e hfeeds
        obtain ⟨j, stage, hpath, hstage⟩ := ih (nodes.size - e.target) (by omega) hlive rfl
        exact ⟨j, stage, .head ⟨e.side, hfeeds⟩ hpath, hstage⟩
  · rintro ⟨j, stage, hpath, hstage, hscorer⟩
    induction hpath using Relation.ReflTransGen.head_induction_on with
    | refl =>
      obtain ⟨m, hm, rfl⟩ := Option.map_eq_some_iff.1 hstage
      exact (NetworkBuilder.live_iff hw hm).2 (.inl hscorer)
    | head hstep _ ih =>
      obtain ⟨side, m, hm, hmem⟩ := hstep
      exact (NetworkBuilder.live_iff hw hm).2 (.inr ⟨_, hmem, ih⟩)

/-- The delta is on its way to a node that feeds a constraint. -/
def Pending.isForLive (nodes : Array (Node S sh)) (q : Pending) : Bool :=
  (liveNodes nodes).getD q.target false

open Pending (isForLive)

/-! ## The network with all nodes -/

namespace NetworkBuilder

/-- All sources, each with its family. -/
def sources (nodes : List (Node S sh)) (k : Nat) : List (Nat × Nat) :=
  (nodes.zipIdx k).filterMap fun (n, i) =>
    match n.stage with
    | .source family => some (family, i)
    | _ => none

/-- The network of the declared constraints in which all nodes take part. -/
def unpruned (b : NetworkBuilder S sh) : Network S sh where
  nodes := b.nodes
  sources := sources b.nodes.toList 0
  constraints := b.constraints

theorem liveSources_eq (live : Array Bool) (list : List (Node S sh)) (k : Nat) :
    liveSources live k list = (sources list k).filter fun q => live.getD q.2 false := by
  induction list generalizing k with
  | nil => rfl
  | cons n list ih =>
    have hrest := ih (k + 1)
    unfold sources at hrest ⊢
    unfold liveSources
    rw [List.zipIdx_cons]
    cases hs : n.stage <;> simp [hs, hrest, List.filter_cons]

theorem mem_sources {list : List (Node S sh)} {family : Nat} :
    (family, i) ∈ sources list 0 ↔ ∃ n, list[i]? = some n ∧ n.stage = .source family := by
  unfold sources
  rw [List.mem_filterMap]
  constructor
  · rintro ⟨⟨n, j⟩, hmem, hsource⟩
    rw [List.mem_zipIdx_iff_getElem?] at hmem
    dsimp only at hsource hmem
    split at hsource
    · next hstage =>
      cases hsource
      exact ⟨n, hmem, hstage⟩
    · cases hsource
  · rintro ⟨n, hn, hstage⟩
    refine ⟨(n, i), List.mem_zipIdx_iff_getElem?.2 hn, ?_⟩
    dsimp only
    rw [hstage]

variable {b : NetworkBuilder S sh} {n : Network S sh}

theorem build_eq_ok (e : b.build = .ok n) :
    n = { nodes := b.nodes.map fun m =>
            { m with children := m.children.filter fun e => (liveNodes b.nodes).getD e.target false }
          sources := liveSources (liveNodes b.nodes) 0 b.nodes.toList
          constraints := b.constraints } := by
  unfold build at e
  split at e
  · cases e
  · exact (Except.ok.inj e).symm

theorem WellFormed.source?_unpruned (h : WellFormed b) {family : Nat} :
    b.unpruned.source? family = some i ↔ stage? b.nodes i = some (.source family) := by
  have hmem : ∀ family i, (family, i) ∈ sources b.nodes.toList 0 ↔
      stage? b.nodes i = some (.source family) := fun family i => by
    rw [mem_sources, Array.getElem?_toList]
    exact Option.map_eq_some_iff.symm
  rw [← hmem]
  refine (mem_iff_lookup_eq_some fun family i j hi hj => ?_).symm
  have hi := (hmem family i).1 hi
  have hj := (hmem family j).1 hj
  rw [h.source] at hi hj
  exact Option.some.inj (hi.symm.trans hj)

theorem WellFormed.routed_unpruned (h : WellFormed b) : b.unpruned.Routed where
  ascends p e he := by
    obtain ⟨stage, hst, -⟩ := h.wired.listened p e he
    exact ⟨h.wired.forward p e he, lt_size_of_stage? hst⟩
  sources q hq := by
    obtain ⟨n, hn, -⟩ := mem_sources.1 (show (q.1, q.2) ∈ sources b.nodes.toList 0 from hq)
    rw [Array.getElem?_toList] at hn
    exact (Array.getElem?_eq_some_iff.1 hn).1

/-- Of what a node emits, the network that is built passes on what leads to live nodes. -/
theorem emitted_build (e : b.build = .ok n) (node : Nat) (out : List Delta) :
    Session.emitted n node out =
      (Session.emitted b.unpruned node out).filter (isForLive b.nodes) := by
  rw [build_eq_ok e]
  unfold Session.emitted unpruned
  dsimp only
  rw [Array.getElem?_map]
  cases b.nodes[node]? with
  | none => rfl
  | some m =>
    dsimp only [Option.map_some]
    rw [List.filter_flatMap]
    congr 1
    funext d
    rw [List.filter_map]
    rfl

end NetworkBuilder

namespace Session

/-! ## Sessions of both networks -/

/-- A session `s` of the network that was built goes along with a session `t` of the network with
all nodes. -/
structure Prunes (b : NetworkBuilder S sh) (n : Network S sh) (s t : Session S sh) : Prop where
  network : s.network = n
  unpruned : t.network = b.unpruned
  stage : ∀ i, (t.stations[i]?).map Station.stage = stage? b.nodes i
  stations : ∀ i : Nat, Live b.nodes i → s.stations[i]? = t.stations[i]?
  queue : s.queue.toList = t.queue.toList.filter (isForLive b.nodes)
  score : s.score = t.score

variable {b : NetworkBuilder S sh} {n : Network S sh} {s s' t t' : Session S sh} {plan : S}
  {p : Pending}

theorem prunes_new (e : b.build = .ok n) : Prunes b n (new n) (new b.unpruned) := by
  refine ⟨rfl, rfl, fun i => stage_new b.unpruned i, fun i _ => ?_, rfl, rfl⟩
  rw [NetworkBuilder.build_eq_ok e]
  unfold new NetworkBuilder.unpruned
  rw [Array.getElem?_map, Array.getElem?_map, Array.getElem?_map, Option.map_map]
  rfl

namespace Prunes

/-- The same station is put back into both sessions. -/
theorem put (h : Prunes b n s t) {i : Nat} {x y : Station S sh} (hlive : Live b.nodes i)
    (hx : t.stations[i]? = some x) (hy : y.stage = x.stage) :
    Prunes b n { s with stations := s.stations.setIfInBounds i y }
      { t with stations := t.stations.setIfInBounds i y } := by
  have hx' : s.stations[i]? = some x := (h.stations i hlive).trans hx
  refine ⟨h.network, h.unpruned, fun j => (stage_replaced hx rfl hy j).trans (h.stage j),
    fun j hj => ?_, h.queue, h.score⟩
  have hothers : (if j = i then some y else s.stations[j]?) =
      if j = i then some y else t.stations[j]? := by rw [h.stations j hj]
  exact ((getElem?_replaced hx' rfl j).trans hothers).trans (getElem?_replaced hx rfl j).symm

/-- A station that feeds no constraint has changed. -/
theorem put_idle (h : Prunes b n s t) {i : Nat} {x y : Station S sh} (hdead : ¬ Live b.nodes i)
    (hx : t.stations[i]? = some x) (hy : y.stage = x.stage) :
    Prunes b n s { t with stations := t.stations.setIfInBounds i y } := by
  refine ⟨h.network, h.unpruned, fun j => (stage_replaced hx rfl hy j).trans (h.stage j),
    fun j hj => ?_, h.queue, h.score⟩
  have hother : (if j = i then some y else t.stations[j]?) = t.stations[j]? :=
    if_neg fun e : j = i => hdead (e ▸ hj)
  exact (h.stations j hj).trans ((getElem?_replaced hx rfl j).trans hother).symm

theorem forward (h : Prunes b n s t) (e : b.build = .ok n) (node : Nat) (out : List Delta) :
    Prunes b n (s.forward node out) (t.forward node out) := by
  obtain ⟨hn, hst, hsc⟩ := forward_eq s node out
  obtain ⟨hn', hst', hsc'⟩ := forward_eq t node out
  refine ⟨hn.trans h.network, hn'.trans h.unpruned, fun i => hst' ▸ h.stage i, fun i hi => ?_, ?_, ?_⟩
  · rw [hst, hst']
    exact h.stations i hi
  · rw [forward_queue, forward_queue, List.filter_append, h.queue, h.network, h.unpruned,
      NetworkBuilder.emitted_build e]
  · rw [hsc, hsc', h.score]

/-- What a node that feeds no constraint emits is not for a node that feeds one. -/
theorem forward_idle (h : Prunes b n s t) (hw : Wired b.nodes) {node : Nat}
    (hdead : ¬ Live b.nodes node) (out : List Delta) : Prunes b n s (t.forward node out) := by
  obtain ⟨hn', hst', hsc'⟩ := forward_eq t node out
  refine ⟨h.network, hn'.trans h.unpruned, fun i => hst' ▸ h.stage i, fun i hi => ?_, ?_, ?_⟩
  · rw [hst']
    exact h.stations i hi
  · have hnone : (emitted b.unpruned node out).filter (isForLive b.nodes) = [] := by
      rw [List.filter_eq_nil_iff]
      intro q hq hlive
      obtain ⟨⟨m, hm, hmem⟩, -⟩ := mem_emitted.1 hq
      exact hdead ((NetworkBuilder.live_iff hw hm).2 (.inr ⟨_, hmem, hlive⟩))
    rw [forward_queue, List.filter_append, h.unpruned, hnone, List.append_nil, h.queue]
  · rw [hsc', h.score]

theorem process_live (h : Prunes b n s t) (e : b.build = .ok n) (hlive : Live b.nodes p.target)
    (hp : process plan p t = .ok () t') :
    ∃ s', process plan p s = .ok () s' ∧ Prunes b n s' t' := by
  have hstation := h.stations p.target hlive
  unfold process at hp ⊢
  rw [hstation]
  cases hx : t.stations[p.target]? with
  | none =>
    rw [hx] at hp
    cases hp
    exact ⟨s, rfl, h⟩
  | some x =>
    rw [hx] at hp
    dsimp only at hp ⊢
    cases hr : x.receive plan p.target p.side p.delta with
    | error f y =>
      rw [hr] at hp
      cases hp
    | ok reply y =>
      rw [hr] at hp
      dsimp only at hp ⊢
      rw [Array.setIfInBounds_setIfInBounds] at hp ⊢
      have hput := h.put hlive hx (Station.receive_eq_ok hr).1
      unfold absorb at hp ⊢
      cases reply with
      | pass out =>
        cases hp
        exact ⟨_, rfl, hput.forward e p.target out⟩
      | change d =>
        dsimp only at hp ⊢
        rw [h.score]
        cases hscore : t.score.add d with
        | error f =>
          rw [hscore] at hp
          cases hp
        | ok score =>
          rw [hscore] at hp
          cases hp
          exact ⟨_, rfl, hput.network, hput.unpruned, hput.stage, hput.stations, hput.queue, rfl⟩

theorem process_idle (h : Prunes b n s t) (hw : Wired b.nodes) (hdead : ¬ Live b.nodes p.target)
    (hp : process plan p t = .ok () t') : Prunes b n s t' := by
  unfold process at hp
  cases hx : t.stations[p.target]? with
  | none =>
    rw [hx] at hp
    cases hp
    exact h
  | some x =>
    rw [hx] at hp
    dsimp only at hp
    cases hr : x.receive plan p.target p.side p.delta with
    | error f y =>
      rw [hr] at hp
      cases hp
    | ok reply y =>
      rw [hr] at hp
      dsimp only at hp
      rw [Array.setIfInBounds_setIfInBounds] at hp
      obtain ⟨hstage, hpass⟩ := Station.receive_eq_ok hr
      -- A scorer would be live.
      have hscorer : ¬ x.stage.isScorer := fun hs => by
        have hst := h.stage p.target
        rw [hx] at hst
        obtain ⟨m, hm, hms⟩ := Option.map_eq_some_iff.1 hst.symm
        exact hdead ((NetworkBuilder.live_iff hw hm).2 (.inl (hms ▸ hs)))
      obtain ⟨out, rfl⟩ := hpass hscorer
      cases hp
      exact (h.put_idle hdead hx hstage).forward_idle hw hdead out

/-! ## Settling -/

/-- A delivery to a node that feeds no constraint is passed over. -/
theorem delivers (h : Prunes b n s t) (e : b.build = .ok n) (hw : Wired b.nodes)
    (hd : t.Delivers plan t') :
    Prunes b n s t' ∨ ∃ s', s.Delivers plan s' ∧ Prunes b n s' t' := by
  obtain ⟨p, rest, hq, hp⟩ := hd.head
  have hqueue := h.queue
  rw [hq] at hqueue
  by_cases hlive : Live b.nodes p.target
  · right
    rw [List.filter_cons_of_pos (p := isForLive b.nodes) hlive] at hqueue
    have hrest : Prunes b n
        { s with queue := (rest.filter (isForLive b.nodes)).toArray }
        { t with queue := rest.toArray } :=
      ⟨h.network, h.unpruned, h.stage, h.stations, rfl, h.score⟩
    obtain ⟨s', hs', hprunes⟩ := hrest.process_live e hlive hp
    refine ⟨s', ⟨fun hne => ?_, ?_⟩, hprunes⟩
    · rw [hne] at hqueue
      cases hqueue
    · unfold deliver
      rw [hqueue]
      exact hs'
  · left
    rw [List.filter_cons_of_neg (p := isForLive b.nodes) hlive] at hqueue
    have hrest : Prunes b n s { t with queue := rest.toArray } :=
      ⟨h.network, h.unpruned, h.stage, h.stations, hqueue, h.score⟩
    exact hrest.process_idle hw hlive hp

theorem deliveries (h : Prunes b n s t) (e : b.build = .ok n) (hw : Wired b.nodes) {k : Nat}
    (hd : Deliveries plan k t t') :
    ∃ j s', Deliveries plan j s s' ∧ Prunes b n s' t' := by
  induction hd generalizing s with
  | nil t => exact ⟨0, s, .nil s, h⟩
  | cons hd _ ih =>
    rcases h.delivers e hw hd with hprunes | ⟨s₁, hs₁, hprunes⟩
    · exact ih hprunes
    · obtain ⟨j, s', hs', hprunes'⟩ := ih hprunes
      exact ⟨j + 1, s', .cons hs₁ hs', hprunes'⟩

theorem settle (h : Prunes b n s t) (e : b.build = .ok n) (hw : WellFormed b) (hs : s.Heads n)
    (ht : t.Heads b.unpruned) {k : Nat} (hk : Session.settle plan t = .ok k t') :
    ∃ j s', Session.settle plan s = .ok j s' ∧ Prunes b n s' t' := by
  have hn := hw.carries e
  obtain ⟨j, s', hd, hprunes⟩ := h.deliveries e hw.wired (settleRounds_deliveries hk)
  have hempty : s'.queue = #[] := by
    rw [← Array.toList_eq_nil_iff, hprunes.queue, settle_queue ht hw.routed_unpruned.ascends hk]
    rfl
  exact ⟨j, s', hd.settle hempty hs hn.ascends, hprunes⟩

/-! ## Requests -/

theorem push (h : Prunes b n s t) (hlive : Live b.nodes p.target) :
    Prunes b n { s with queue := s.queue.push p } { t with queue := t.queue.push p } := by
  refine ⟨h.network, h.unpruned, h.stage, h.stations, ?_, h.score⟩
  rw [Array.toList_push, Array.toList_push, List.filter_append, h.queue,
    List.filter_cons_of_pos (p := isForLive b.nodes) hlive]
  rfl

theorem push_idle (h : Prunes b n s t) (hdead : ¬ Live b.nodes p.target) :
    Prunes b n s { t with queue := t.queue.push p } := by
  refine ⟨h.network, h.unpruned, h.stage, h.stations, ?_, h.score⟩
  rw [Array.toList_push, List.filter_append, h.queue, List.filter_cons_of_neg (p := isForLive b.nodes) hdead]
  simp

theorem tell (h : Prunes b n s t) (e : b.build = .ok n) (hw : WellFormed b) (r : Report) :
    Prunes b n (s.tell r) (t.tell r) := by
  have hn := hw.carries e
  cases ht : t.network.source? r.fact.family with
  | none =>
    have hs : ¬ s.network.Reads r.fact := fun hreads => by
      obtain ⟨i, hi⟩ := Option.isSome_iff_exists.1 hreads
      rw [h.network] at hi
      rw [h.unpruned, hw.source?_unpruned.2 ((hn.source _ _).1 hi).1] at ht
      cases ht
    rw [tell_of_not_reads hs, tell_eq, ht]
    exact h
  | some i =>
    have hstage := hw.source?_unpruned.1 (h.unpruned ▸ ht)
    rw [tell_of_source ht]
    by_cases hlive : Live b.nodes i
    · have hs : s.network.source? r.fact.family = some i :=
        h.network ▸ (hn.source _ _).2 ⟨hstage, hlive⟩
      rw [tell_of_source hs]
      exact h.push hlive
    · have hs : ¬ s.network.Reads r.fact := fun hreads => by
        obtain ⟨j, hj⟩ := Option.isSome_iff_exists.1 hreads
        rw [h.network] at hj
        obtain ⟨hj, hjlive⟩ := (hn.source _ _).1 hj
        rw [h.unpruned, hw.source?_unpruned.2 hj] at ht
        cases ht
        exact hlive hjlive
      rw [tell_of_not_reads hs]
      exact h.push_idle hlive

/-- The facts of a family whose source is read are inserted into both sessions. -/
theorem foldl_push (h : Prunes b n s t) (family : Nat) {i : Nat} (hlive : Live b.nodes i)
    (is : List Nat) :
    let insert := fun (s : Session S sh) k =>
      { s with queue := s.queue.push ⟨i, .left, .insert (Tuple.ofFact ⟨family, k⟩ i)⟩ }
    Prunes b n (is.foldl insert s) (is.foldl insert t) := by
  induction is generalizing s t with
  | nil => exact h
  | cons k is ih => exact ih (h.push (p := ⟨i, .left, .insert (Tuple.ofFact ⟨family, k⟩ i)⟩) hlive)

theorem foldl_push_idle (h : Prunes b n s t) (family : Nat) {i : Nat} (hdead : ¬ Live b.nodes i)
    (is : List Nat) :
    Prunes b n s (is.foldl (fun s k =>
      { s with queue := s.queue.push ⟨i, .left, .insert (Tuple.ofFact ⟨family, k⟩ i)⟩ }) t) := by
  induction is generalizing t with
  | nil => exact h
  | cons k is ih =>
    exact ih (h.push_idle (p := ⟨i, .left, .insert (Tuple.ofFact ⟨family, k⟩ i)⟩) hdead)

theorem totalOf (h : Prunes b n s t) (e : b.build = .ok n) (hw : WellFormed b)
    {c : Constraint sh} (hc : c ∈ b.constraints) : s.totalOf c = t.totalOf c := by
  obtain ⟨signed, matchWeight, watched, -, hstage⟩ := hw.weight c hc
  have hlive : Live b.nodes c.scorer := (hw.carries e).live_of_scorer hstage rfl
  unfold Session.totalOf
  rw [h.stations c.scorer hlive]

variable [Plan S sh]

theorem insertAll (h : Prunes b n s t) (e : b.build = .ok n) (plan : S) :
    Prunes b n (s.insertAll plan) (t.insertAll plan) := by
  have hsources : n.sources = b.unpruned.sources.filter fun q =>
      (liveNodes b.nodes).getD q.2 false := by
    rw [NetworkBuilder.build_eq_ok e]
    exact NetworkBuilder.liveSources_eq ..
  unfold Session.insertAll
  rw [h.network, h.unpruned, hsources]
  generalize b.unpruned.sources = sources
  induction sources generalizing s t with
  | nil => exact h
  | cons q sources ih =>
    obtain ⟨family, i⟩ := q
    rw [List.filter_cons, List.foldl_cons]
    by_cases hlive : Live b.nodes i
    · rw [if_pos (show (liveNodes b.nodes).getD i false = true from hlive)]
      exact ih (h.foldl_push family hlive _)
    · rw [if_neg (show ¬ (liveNodes b.nodes).getD i false = true from hlive)]
      exact ih (h.foldl_push_idle family hlive _)

/-- Both sessions answer the same. -/
theorem respond (h : Prunes b n s t) (e : b.build = .ok n) (hw : WellFormed b) (hs : s.Heads n)
    (ht : t.Heads b.unpruned) {q : Request S} {answer : Answer sh}
    (hq : Session.respond q t = .ok answer t') :
    ∃ s', Session.respond q s = .ok answer s' ∧ Prunes b n s' t' := by
  cases q with
  | tell r =>
    cases hq
    exact ⟨_, rfl, h.tell e hw r⟩
  | insertAll plan =>
    cases hq
    exact ⟨_, rfl, h.insertAll e plan⟩
  | settle plan =>
    obtain ⟨k, t₁, hk, hdone⟩ := Step.bind_eq_ok hq
    cases hdone
    obtain ⟨j, s', hj, hprunes⟩ := h.settle e hw hs ht hk
    exact ⟨s', Step.bind_ok hj, hprunes⟩
  | score plan =>
    obtain ⟨a, t₁, ha, hdone⟩ := Step.bind_eq_ok hq
    obtain ⟨k, t₂, hk, hget⟩ := Step.bind_eq_ok ha
    cases hget
    cases hdone
    obtain ⟨j, s', hj, hprunes⟩ := h.settle e hw hs ht hk
    refine ⟨s', ?_, hprunes⟩
    have hscore : settledScore plan s = .ok s'.score s' := Step.bind_ok hj
    rw [← hprunes.score]
    exact Step.bind_ok hscore
  | totals plan =>
    obtain ⟨a, t₁, ha, hdone⟩ := Step.bind_eq_ok hq
    obtain ⟨k, t₂, hk, hget⟩ := Step.bind_eq_ok ha
    cases hget
    cases hdone
    obtain ⟨j, s', hj, hprunes⟩ := h.settle e hw hs ht hk
    refine ⟨s', ?_, hprunes⟩
    have htotals : constraintTotals plan s = .ok (s'.network.constraints.map s'.totalOf) s' :=
      Step.bind_ok hj
    have hsame : s'.network.constraints.map s'.totalOf = t'.network.constraints.map t'.totalOf := by
      have hconstraints : n.constraints = b.constraints := by
        rw [NetworkBuilder.build_eq_ok e]
      rw [hprunes.network, hprunes.unpruned, hconstraints]
      exact List.map_congr_left fun c hc => hprunes.totalOf e hw hc
    rw [← hsame]
    exact Step.bind_ok htotals

theorem converse (h : Prunes b n s t) (e : b.build = .ok n) (hw : WellFormed b) (hs : s.Heads n)
    (ht : t.Heads b.unpruned) {qs : List (Request S)} {answers : List (Answer sh)}
    (hq : Session.converse qs t = .ok answers t') :
    ∃ s', Session.converse qs s = .ok answers s' ∧ Prunes b n s' t' := by
  unfold Session.converse at hq ⊢
  induction qs generalizing s t answers with
  | nil =>
    cases hq
    exact ⟨s, rfl, h⟩
  | cons q qs ih =>
    rw [List.mapM_cons] at hq ⊢
    obtain ⟨a, t₁, hfirst, hrest⟩ := Step.bind_eq_ok hq
    obtain ⟨as, t₂, hothers, hdone⟩ := Step.bind_eq_ok hrest
    cases hdone
    obtain ⟨s₁, hs₁, hprunes⟩ := h.respond e hw hs ht hfirst
    have hheads := hs.respond (hw.carries e).routed q
    have hheads' := ht.respond hw.routed_unpruned q
    unfold Step.finalState at hheads hheads'
    rw [hs₁] at hheads
    rw [hfirst] at hheads'
    obtain ⟨s', hs', hprunes'⟩ := ih hprunes hheads hheads' hothers
    refine ⟨s', ?_, hprunes'⟩
    rw [Step.bind_ok hs₁, Step.bind_ok hs']
    rfl

end Prunes

end Session

/-- Building cuts off what feeds no constraint: an edge is left if a scorer can be reached through
it, and a source is read if a scorer can be reached from it. Whatever a session is asked for, in
whatever order, and whatever the problem's functions do, a session of the network that was built
answers what a session of the network with all nodes answers. -/
theorem NetworkBuilder.build_prunes [Plan S sh] {b : NetworkBuilder S sh} (hb : b.Declared)
    {n : Network S sh} (e : b.build = .ok n) :
    (∀ i, stage? n.nodes i = stage? b.nodes i) ∧
      (∀ p e, Feeds n.nodes p e ↔ Feeds b.nodes p e ∧ ReachesScorer b.nodes e.target) ∧
      (∀ family i, (family, i) ∈ n.sources ↔
        stage? b.nodes i = some (.source family) ∧ ReachesScorer b.nodes i) ∧
      ∀ (qs : List (Session.Request S)) answers t,
        Session.converse qs (Session.new b.unpruned) = .ok answers t →
          ∃ s, Session.converse qs (Session.new n) = .ok answers s := by
  have hw := hb.wellFormed
  have hn := hw.carries e
  refine ⟨hn.stage, fun p edge => ?_, fun family i => ?_, fun qs answers t hq => ?_⟩
  · rw [hn.feeds, live_iff_reaches hw.wired]
  · rw [hn.mem_sources, hn.source, live_iff_reaches hw.wired]
  · obtain ⟨s, hs, -⟩ := (Session.prunes_new e).converse e hw ⟨rfl, nofun⟩ ⟨rfl, nofun⟩ hq
    exact ⟨s, hs⟩

/-! ## A row of cells -/

namespace Row

/-- Asked about a cell without a value, the test has no answer. -/
def insists (row : Row) (t : Tuple) : Checked Bool :=
  if ((t.fact? 0).bind row.entry).join.isSome then .ok true else .error .undefined

/-- Cells are rewarded; a filter on them and the facts of another family are declared in vain. -/
def idling : List (Declaration Row .simple) :=
  [.forEach 0, .filter 0 ⟨none, insists⟩, .forEach 1,
    .constrain "cells" 0 .reward (.single 0 1) (fun _ _ => .ok 1) false]

def idlingNetwork : Network Row .simple where
  nodes := #[⟨.source 0, [⟨1, .left⟩, ⟨3, .left⟩]⟩, ⟨.filter insists, []⟩, ⟨.source 1, []⟩,
    ⟨.scorer (.single 0 1) (fun _ _ => .ok 1) false, []⟩]
  sources := [(0, 0), (1, 2)]
  constraints := [⟨⟨"", "cells"⟩, 3, .single 0 1, .reward⟩]

theorem performAll_idling : ∃ x, Declaration.performAll idling ⟨{}, []⟩ = .ok x ∧
    x.builder.unpruned = idlingNetwork := by
  have hscaled : (Score.single 0 1 : Score .simple).scaled Impact.reward.sign =
      .ok (Score.single 0 1) := by decide
  have hlevel : (Score.single 0 1 : Score .simple).singleLevel? = some 0 := by decide
  simp [Declaration.performAll, idling, Declaration.perform, Declaration.carryOut,
    Blueprint.enter, Blueprint.stream, NetworkBuilder.forEach, NetworkBuilder.request,
    NetworkBuilder.append, NetworkBuilder.filter, NetworkBuilder.check, NetworkBuilder.connect,
    NetworkBuilder.constrain, hscaled, hlevel, bind, Except.bind, pure, Except.pure,
    NetworkBuilder.unpruned, NetworkBuilder.sources, idlingNetwork]

theorem converse_idling : ∃ t,
    Session.converse [.insertAll (⟨[some 7], none⟩ : Row), .score ⟨[some 7], none⟩]
      (Session.new idlingNetwork) = .ok [.done, .score (.single 0 1)] t := by
  have hscaled : (Score.single 0 1 : Score .simple).scaled 1 = .ok (Score.single 0 1) := by decide
  have hsub : (Score.single 0 1 : Score .simple).sub .zero = .ok (Score.single 0 1) := by decide
  have hadd : (Score.zero : Score .simple).add (Score.single 0 1) = .ok (Score.single 0 1) := by
    decide
  have hget (s : Session Row .simple) : (get : Step (Session Row .simple) _) s = .ok s s := rfl
  simp [Session.converse, Session.respond, bind, EStateM.bind, pure, EStateM.pure, hget,
    Session.insertAll, Plan.entityCount, List.range_succ, Session.new, idlingNetwork, Station.ofStage, Session.settledScore, Session.settle,
    Session.settleRounds, Session.drain, Session.process, Session.absorb, Session.forward,
    Station.receive, Station.conclude, SourceMemory.receive, Tuple.ofFact, Tuple.fact?,
    Tuple.withOrigin, Station.filterTuple, insists, entry, FilterMemory.judge, Station.scoreTuple,
    ScorerMemory.place, ScorerMemory.shift, hscaled, hsub, hadd]

theorem not_reaches_idling {i : Nat} (hi : i = 1 ∨ i = 2) :
    ¬ ReachesScorer idlingNetwork.nodes i := by
  rintro ⟨j, stage, hpath, hstage, hscorer⟩
  rcases hpath.cases_head with rfl | ⟨k, ⟨side, m, hm, hmem⟩, -⟩
  · rcases hi with rfl | rfl <;> cases hstage <;> cases hscorer
  · rcases hi with rfl | rfl <;> cases hm <;> cases hmem

/-- A cell is inserted and scored, while a filter that feeds no constraint insists on values. -/
theorem build_prunes_idling :
    ∃ (x : Blueprint Row .simple) (n : Network Row .simple),
      Declaration.performAll idling ⟨{}, []⟩ = .ok x ∧ x.builder.build = .ok n ∧
      ¬ Feeds n.nodes 0 ⟨1, .left⟩ ∧ (1, 2) ∉ n.sources ∧
      ∃ s, Session.converse [.insertAll (⟨[some 7], none⟩ : Row), .score ⟨[some 7], none⟩]
        (Session.new n) = .ok [.done, .score (.single 0 1)] s := by
  obtain ⟨x, e, hunpruned⟩ := performAll_idling
  have hnodes : x.builder.nodes = idlingNetwork.nodes := congrArg Network.nodes hunpruned
  have hconstraints : x.builder.constraints = idlingNetwork.constraints :=
    congrArg Network.constraints hunpruned
  obtain ⟨n, hbuild⟩ : ∃ n, x.builder.build = .ok n := ⟨_, if_neg (by rw [hconstraints]; nofun)⟩
  have hdeclared := Declaration.declared_performAll (.start 0 "") e
  obtain ⟨-, hfeeds, hsources, hconverse⟩ := NetworkBuilder.build_prunes hdeclared hbuild
  obtain ⟨t, ht⟩ := converse_idling
  rw [← hunpruned] at ht
  refine ⟨x, n, e, hbuild, fun h => ?_, fun h => ?_, hconverse _ _ t ht⟩
  · exact not_reaches_idling (.inl rfl) (hnodes ▸ ((hfeeds _ _).1 h).2)
  · exact not_reaches_idling (.inr rfl) (hnodes ▸ ((hsources _ _).1 h).2)

end Row

end PlanSearch
