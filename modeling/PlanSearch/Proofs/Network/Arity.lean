import PlanSearch.Proofs.Network.Index
import PlanSearch.Proofs.Network.Requests

/-!
# Arities of streams

What travels along an edge of a network has one number of elements, and tuples have one number of
aggregates, whatever the session was asked for and even if requests failed in the middle. It is one
element behind sources and groups, as many as before behind a filter, and those of both inputs
behind a join. So the identity of a joined tuple tells which pair it was made of.

    b.build = .ok n → (Feeds n.nodes q e → ∃ a g, n.Behind q a g and every delta that is ever
      conveyed along e has a elements, g of them groups, and as many aggregates as groups) and
      pairs that a join ever combines differ in their identities          (conveys_uniformly)
-/

namespace PlanSearch

variable {S : Type} {sh : Shape}

/-! ## Deltas of one layout -/

namespace Tuple

variable {t u : Tuple} {a b : Layout}

theorem Fits.join (ht : t.Fits a) (hu : u.Fits b) (origin : Nat) :
    (t.join u origin).Fits (a ++ b) := by
  have hjoin : (t.join u origin).Over (a ++ b) fun _ => True :=
    Over.join ⟨ht, fun _ _ => trivial⟩ ⟨hu, fun _ _ => trivial⟩ origin
  exact hjoin.1

end Tuple

namespace Delta

variable {t : Tuple} {l : Layout} {i : TupleId}

/-- The delta names an identity of the layout and leaves no tuple live that does not fit it. -/
def Fits (d : Delta) (l : Layout) : Prop :=
  d.id.map Element.family? = l ∧ ∀ t, d.tuple? = some t → t.Fits l

theorem fits_insert (h : t.Fits l) : (insert t).Fits l :=
  ⟨h.1, fun _ e => Option.some.inj e ▸ h⟩

theorem fits_update (h : t.Fits l) : (update t).Fits l :=
  ⟨h.1, fun _ e => Option.some.inj e ▸ h⟩

theorem fits_retract (h : i.map Element.family? = l) : (retract i).Fits l := ⟨h, nofun⟩

end Delta

/-! ## Joins -/

namespace JoinIndex

variable {x : JoinIndex} {l : Layout} {k : Key} {t : Tuple}

/-- All tuples of the index fit the layout. -/
def Fitting (l : Layout) (x : JoinIndex) : Prop :=
  ∀ (i : TupleId) k (t : Tuple), x.entries[i]? = some (k, t) → t.Fits l

theorem fitting_empty (l : Layout) : Fitting l {} := fun i k t e => by simp at e

theorem Fitting.add (h : x.Fitting l) (k : Key) (ht : t.Fits l) : (x.add k t).Fitting l := by
  intro i k' u e
  rw [entries_add] at e
  split at e
  · cases e
    exact ht
  · exact h i k' u e

theorem Fitting.erase (h : x.Fitting l) (j : TupleId) : (x.erase j).Fitting l := by
  intro i k' u e
  rw [entries_erase] at e
  split at e
  · cases e
  · exact h i k' u e

theorem Fitting.fits_partner (h : x.Fitting l) (ht : t ∈ x.partners k) : t.Fits l := by
  obtain ⟨i, -, hi⟩ := List.mem_filterMap.1 ht
  obtain ⟨⟨k', u⟩, hentry, rfl⟩ := Option.map_eq_some_iff.1 hi
  exact h i k' u hentry

end JoinIndex

namespace JoinMemory

variable {m : JoinMemory} {lay : Side → Layout} {s : Side} {t p : Tuple} {j : TupleId} {d : Delta}

/-- The tuples of each side fit the layout of that side. -/
def Fitting (lay : Side → Layout) (m : JoinMemory) : Prop := ∀ s, (m.side s).Fitting (lay s)

theorem fitting_empty (lay : Side → Layout) : Fitting lay {} := fun s => by
  cases s <;> exact JoinIndex.fitting_empty _

theorem Fitting.other (h : m.Fitting lay) (s : Side) : (m.other s).Fitting (lay s.opposite) :=
  side_opposite m s ▸ h s.opposite

theorem Fitting.setSide (h : m.Fitting lay) {x : JoinIndex} (hx : x.Fitting (lay s)) :
    (m.setSide s x).Fitting lay := by
  refine forall_side (s := s) ?_ ?_
  · rwa [side_setSide]
  · rw [side_opposite, other_setSide]
    exact h.other s

theorem Fitting.retract (h : m.Fitting lay) (s : Side) (j : TupleId) :
    (m.retract s j).1.Fitting lay := by
  rw [retract_eq]
  exact h.setSide ((h s).erase j)

theorem Fitting.place (h : m.Fitting lay) (origin : Nat) (k : Key) (ht : t.Fits (lay s)) :
    (m.place s origin k t).1.Fitting lay := by
  obtain ⟨x, hplace, -, hx⟩ := m.place_eq s origin k t
  rw [hplace]
  refine h.setSide (JoinIndex.Fitting.add ?_ k ht)
  rcases hx with rfl | rfl
  · exact h s
  · exact (h s).erase _

theorem fits_combine (ht : t.Fits (lay s)) (hp : p.Fits (lay s.opposite)) (origin : Nat) :
    (combine s t p origin).Fits (lay .left ++ lay .right) := by
  cases s with
  | left => exact ht.join hp origin
  | right => exact hp.join ht origin

theorem map_combineIds (hj : j.map Element.family? = lay s) (hp : p.Fits (lay s.opposite)) :
    (combineIds s j p.id).map Element.family? = lay .left ++ lay .right := by
  cases s with
  | left => exact List.map_append.trans (congrArg₂ _ hj hp.1)
  | right => exact List.map_append.trans (congrArg₂ _ hp.1 hj)

theorem Fitting.fits_of_retract (h : m.Fitting lay) (hj : j.map Element.family? = lay s)
    (hd : d ∈ (m.retract s j).2) : d.Fits (lay .left ++ lay .right) := by
  unfold JoinMemory.retract at hd
  split at hd
  · cases hd
  · obtain ⟨p, hp, rfl⟩ := List.mem_map.1 hd
    exact Delta.fits_retract (map_combineIds hj ((h.other s).fits_partner hp))

theorem Fitting.fits_of_insert (h : m.Fitting lay) (ht : t.Fits (lay s)) {origin : Nat} {k : Key}
    (hd : d ∈ (m.insert s origin k t).2) : d.Fits (lay .left ++ lay .right) := by
  obtain ⟨p, hp, rfl⟩ := List.mem_map.1 hd
  exact Delta.fits_insert (fits_combine ht ((h.other s).fits_partner hp) origin)

theorem Fitting.fits_of_place (h : m.Fitting lay) (ht : t.Fits (lay s)) {origin : Nat} {k : Key}
    (hd : d ∈ (m.place s origin k t).2) : d.Fits (lay .left ++ lay .right) := by
  unfold JoinMemory.place at hd
  split at hd
  · exact h.fits_of_insert ht hd
  · split at hd
    · obtain ⟨p, hp, rfl⟩ := List.mem_map.1 hd
      exact Delta.fits_update (fits_combine ht ((h.other s).fits_partner hp) origin)
    · rcases List.mem_append.1 hd with hd | hd
      · exact h.fits_of_retract ht.1 hd
      · exact (h.retract s t.id).fits_of_insert ht hd

end JoinMemory

/-! ## Stations -/

/-- What a stage of these inputs may hear of: a source hears reports on its family. -/
def Stage.Admits (lay : Side → Layout) (s : Side) (d : Delta) : Stage S sh → Prop
  | source family => d.Fits [some family]
  | stage => s ∈ stage.inputs ∧ d.Fits (lay s)

theorem Stage.admits_of_mem_inputs {lay : Side → Layout} {s : Side} {d : Delta}
    {stage : Stage S sh} (hs : s ∈ stage.inputs) (hd : d.Fits (lay s)) : stage.Admits lay s d := by
  cases stage with
  | source family => cases hs
  | _ => exact ⟨hs, hd⟩

namespace SourceMemory

variable {m : SourceMemory} {origin family : Nat} {d e : Delta}

/-- A source passes on what it hears of, and nothing else. -/
theorem fits_of_receive (hd : d.Fits [some family]) (he : e ∈ (m.receive origin d).2) :
    e.Fits [some family] := by
  cases d with
  | insert t =>
    have ht := hd.2 t rfl
    unfold receive at he
    dsimp only at he
    split at he
    · cases he
    · split at he <;> obtain rfl := List.mem_singleton.1 he
      · exact Delta.fits_update ht
      · exact Delta.fits_insert ht
  | update t =>
    have ht := hd.2 t rfl
    unfold receive at he
    dsimp only at he
    split at he
    · cases he
    · split at he
      · obtain rfl := List.mem_singleton.1 he
        exact Delta.fits_update ht
      · cases he
  | retract i =>
    unfold receive at he
    dsimp only at he
    split at he
    · split at he
      · obtain rfl := List.mem_singleton.1 he
        exact hd
      · cases he
    · cases he

end SourceMemory

theorem GroupMemory.Speaks.fits {origin : Nat} {out : List Delta}
    (h : GroupMemory.Speaks origin out) : ∀ d ∈ out, d.Fits [none] := by
  intro d hd
  obtain ⟨k, hid, hgroup⟩ := h d hd
  refine ⟨by rw [hid]; rfl, fun t ht => ?_⟩
  obtain ⟨n, rfl⟩ := hgroup t ht
  exact ⟨rfl, rfl⟩

namespace Station

variable {lay : Side → Layout} {s : Side} {d : Delta} {plan : S} {origin : Nat}
  {station station' : Station S sh} {reply : Reply sh}

/-- What the station remembers of tuples fits the layouts of its inputs. -/
def Fitting (lay : Side → Layout) : Station S sh → Prop
  | join _ _ m => m.Fitting lay
  | _ => True

theorem fitting_ofStage (lay : Side → Layout) (stage : Stage S sh) :
    (ofStage stage).Fitting lay := by
  cases stage with
  | join leftKey rightKey => exact JoinMemory.fitting_empty lay
  | _ => trivial

theorem Fitting.receive_insert {t : Tuple} (h : station.Fitting lay) (hs : s ∈ station.stage.inputs)
    (ht : t.Fits (lay s))
    (e : Station.receive plan origin s (.insert t) station = .ok reply station') :
    station'.Fitting lay ∧ ∀ d ∈ reply.deltas, d.Fits (station.stage.layout lay) := by
  cases takes hs e with
  | @filter _ m b _ =>
    refine ⟨trivial, fun d hd => ?_⟩
    have hd : d ∈ (m.judge origin t b).2 := hd
    unfold FilterMemory.judge at hd
    dsimp only at hd
    split at hd
    · obtain rfl := List.mem_singleton.1 hd
      exact Delta.fits_update ht
    · obtain rfl := List.mem_singleton.1 hd
      exact Delta.fits_retract ht.1
    · obtain rfl := List.mem_singleton.1 hd
      exact Delta.fits_insert ht
    · cases hd
  | @join _ _ _ _ k _ =>
    exact ⟨JoinMemory.Fitting.place h origin k ht,
      fun d hd => JoinMemory.Fitting.fits_of_place h ht hd⟩
  | group _ placed => exact ⟨trivial, (GroupMemory.place_speaks placed).fits⟩
  | scorer => exact ⟨trivial, nofun⟩

theorem Fitting.receive_retract {j : TupleId} (h : station.Fitting lay)
    (hs : s ∈ station.stage.inputs) (hj : j.map Element.family? = lay s)
    (e : Station.receive plan origin s (.retract j) station = .ok reply station') :
    station'.Fitting lay ∧ ∀ d ∈ reply.deltas, d.Fits (station.stage.layout lay) := by
  cases drops hs e with
  | @filter _ m =>
    refine ⟨trivial, fun d hd => ?_⟩
    have hd : d ∈ (m.retract j).2 := hd
    unfold FilterMemory.retract at hd
    dsimp only at hd
    split at hd
    · obtain rfl := List.mem_singleton.1 hd
      exact Delta.fits_retract hj
    · cases hd
  | join =>
    exact ⟨JoinMemory.Fitting.retract h s j, fun d hd => JoinMemory.Fitting.fits_of_retract h hj hd⟩
  | group retracted => exact ⟨trivial, (GroupMemory.retract_speaks retracted).fits⟩
  | scorer => exact ⟨trivial, nofun⟩

/-- What a station emits has the layout of its stage. -/
theorem Fitting.receive (h : station.Fitting lay) (hd : station.stage.Admits lay s d)
    (e : Station.receive plan origin s d station = .ok reply station') :
    station'.Fitting lay ∧ ∀ d' ∈ reply.deltas, d'.Fits (station.stage.layout lay) := by
  by_cases hs : s ∈ station.stage.inputs
  · have hd : d.Fits (lay s) := by
      cases station with
      | source family m => cases hs
      | _ => exact hd.2
    cases d with
    | insert t => exact h.receive_insert hs (hd.2 t rfl) e
    | update t =>
      rw [receive_update hs] at e
      exact h.receive_insert hs (hd.2 t rfl) e
    | retract j => exact h.receive_retract hs hd.1 e
  · cases station with
    | source family m =>
      cases e
      exact ⟨trivial, fun d' hd' => SourceMemory.fits_of_receive hd hd'⟩
    | _ => exact absurd hd.1 hs

/-- A station that fails has changed none of the tuples that a join remembers. -/
theorem Fitting.receive_error {f : Fault} (h : station.Fitting lay)
    (e : Station.receive plan origin s d station = .error f station') :
    station'.Fitting lay := by
  have hstage := receive_eq_error e
  cases station with
  | join leftKey rightKey m =>
    cases d with
    | retract j => cases e
    | _ =>
      obtain ⟨m', hm, rfl⟩ := conclude_eq_error e
      unfold joinTuple at hm
      split at hm
      · cases hm
        exact h
      · cases hm
  | _ =>
    cases station' with
    | join leftKey rightKey m' => cases hstage
    | _ => trivial

end Station

/-! ## Sessions -/

namespace Session

variable {nodes : Array (Node S sh)} {n : Network S sh} {s t : Session S sh} {plan : S} {f : Fault}

/-- The delta is on its way to a node that may hear of it. -/
def Addressed (nodes : Array (Node S sh)) (p : Pending) : Prop :=
  ∃ stage, stage? nodes p.target = some stage ∧
    stage.Admits (inputLayout nodes p.target) p.side p.delta

/-- What is queued and what joins remember fits the layouts of the network. -/
structure Fitting (n : Network S sh) (nodes : Array (Node S sh)) (s : Session S sh) : Prop where
  network : s.network = n
  stage : ∀ i, (s.stations[i]?).map Station.stage = stage? nodes i
  station : ∀ i (station : Station S sh), s.stations[i]? = some station →
    station.Fitting (inputLayout nodes i)
  pending : ∀ p ∈ s.queue.toList, Addressed nodes p

theorem addressed_report (hn : n.Carries nodes) {r : Report} {node : Nat}
    (hnode : (r.fact.family, node) ∈ n.sources) : Addressed nodes ⟨node, .left, r.delta node⟩ := by
  refine ⟨_, ((hn.source _ _).1 ((hn.mem_sources _ _).1 hnode)).1, ?_⟩
  cases r with
  | insert f => exact Delta.fits_insert ⟨rfl, rfl⟩
  | update f => exact Delta.fits_update ⟨rfl, rfl⟩
  | retract f => exact Delta.fits_retract rfl

theorem addressed_emitted (hn : n.Carries nodes) {i : Nat} {ds : List Delta}
    (hds : ∀ d ∈ ds, d.Fits (layout nodes i)) {p : Pending} (hp : p ∈ emitted n i ds) :
    Addressed nodes p := by
  obtain ⟨he, hd⟩ := mem_emitted.1 hp
  obtain ⟨hfeeds, -⟩ := (hn.feeds _ _).1 he
  obtain ⟨stage, hstage, hside⟩ := hn.wired.listened _ _ hfeeds
  refine ⟨stage, hstage, Stage.admits_of_mem_inputs hside ?_⟩
  rw [inputLayout_eq hn.wired hfeeds]
  exact hds _ hd

theorem fitting_new (hn : n.Carries nodes) : Fitting n nodes (new n) where
  network := rfl
  stage i := (stage_new n i).trans (hn.stage i)
  station i station hs := by
    rw [stations_new] at hs
    obtain ⟨stage, -, rfl⟩ := Option.map_eq_some_iff.1 hs
    exact Station.fitting_ofStage _ stage
  pending := nofun

namespace Fitting

/-- A station is replaced by one of the same stage. -/
theorem replace (h : s.Fitting n nodes) {i : Nat} {station station' : Station S sh}
    (hs : s.stations[i]? = some station) (hnetwork : t.network = s.network)
    (hstations : t.stations = s.stations.setIfInBounds i station')
    (hstage : station'.stage = station.stage) (hfits : station'.Fitting (inputLayout nodes i))
    (hpending : ∀ p ∈ t.queue.toList, Addressed nodes p) : t.Fitting n nodes where
  network := hnetwork.trans h.network
  stage j := (stage_replaced hs hstations hstage j).trans (h.stage j)
  station j x hx := by
    rw [getElem?_replaced hs hstations] at hx
    split at hx
    · next hj =>
      cases hx
      exact hj ▸ hfits
    · exact h.station j x hx
  pending := hpending

/-- A pending delta has a station that may hear of it. -/
theorem exists_station (h : s.Fitting n nodes) {p : Pending} (hp : Addressed nodes p) :
    ∃ station, s.stations[p.target]? = some station ∧ stage? nodes p.target = some station.stage ∧
      station.stage.Admits (inputLayout nodes p.target) p.side p.delta := by
  obtain ⟨stage, hstage, hadmits⟩ := hp
  rw [← h.stage] at hstage
  obtain ⟨station, hs, rfl⟩ := Option.map_eq_some_iff.1 hstage
  refine ⟨station, hs, ?_, hadmits⟩
  rw [← h.stage, hs]
  rfl

theorem process_ok (h : s.Fitting n nodes) (hn : n.Carries nodes) {p : Pending}
    (hp : Addressed nodes p) (e : process plan p s = .ok () t) : t.Fitting n nodes := by
  obtain ⟨station, hs, hnode, hadmits⟩ := h.exists_station hp
  obtain ⟨reply, station', hr, hnetwork, hstations, hqueue, -⟩ := process_eq_ok e hs
  obtain ⟨hfits, hreply⟩ := (h.station _ _ hs).receive hadmits hr
  rw [← layout_eq hnode] at hreply
  refine h.replace hs hnetwork hstations (Station.receive_eq_ok hr).1 hfits fun q hq => ?_
  rw [hqueue, h.network] at hq
  rcases List.mem_append.1 hq with hq | hq
  · exact h.pending q hq
  · exact addressed_emitted hn hreply hq

theorem process_error (h : s.Fitting n nodes) {p : Pending} (hp : Addressed nodes p)
    (e : process plan p s = .error f t) : t.Fitting n nodes := by
  obtain ⟨station, hs, -, hadmits⟩ := h.exists_station hp
  obtain ⟨station', hnetwork, hqueue, -, hstations, hr | ⟨-, reply, hr⟩⟩ := process_eq_error e hs
  · exact h.replace hs hnetwork hstations (Station.receive_eq_error hr)
      ((h.station _ _ hs).receive_error hr) (hqueue ▸ h.pending)
  · exact h.replace hs hnetwork hstations (Station.receive_eq_ok hr).1
      ((h.station _ _ hs).receive hadmits hr).1 (hqueue ▸ h.pending)

/-- The oldest delta is taken from the queue. -/
theorem tail (h : s.Fitting n nodes) {p : Pending} {rest : List Pending}
    (hq : s.queue.toList = p :: rest) :
    Addressed nodes p ∧ Fitting n nodes { s with queue := rest.toArray } :=
  ⟨h.pending p (hq ▸ List.mem_cons_self), h.network, h.stage, h.station,
    fun q hmem => h.pending q (hq ▸ List.mem_cons_of_mem _ hmem)⟩

end Fitting

theorem kept_fitting (hn : n.Carries nodes) : Kept n (fun _ => True) (Fitting n nodes) where
  network _ h := h.network
  queued s r node h hnode := by
    refine ⟨h.network, h.stage, h.station, fun p hp => ?_⟩
    rw [Array.toList_push, List.mem_append, List.mem_singleton] at hp
    rcases hp with hp | rfl
    · exact h.pending p hp
    · exact addressed_report hn hnode
  delivered _ _ _ h hd := by
    obtain ⟨p, rest, hq, e⟩ := hd.head
    obtain ⟨hp, hrest⟩ := h.tail hq
    exact hrest.process_ok hn hp e
  stopped _ _ _ _ h _ hf := by
    obtain ⟨p, rest, hq, e⟩ := hf.head
    obtain ⟨hp, hrest⟩ := h.tail hq
    exact hrest.process_error hp e

end Session

/-! ## Networks -/

def Element.isGroup : Element → Bool
  | .fact _ => false
  | .group _ => true

theorem countP_isGroup (id : TupleId) :
    id.countP Element.isGroup = (id.map Element.family?).count none := by
  rw [List.count_eq_countP, List.countP_map]
  refine List.countP_congr fun e _ => ?_
  cases e <;> simp [Element.isGroup, Element.family?]

open NetworkBuilder (Live)

namespace Network

variable {n : Network S sh} {nodes : Array (Node S sh)} {b : NetworkBuilder S sh}

/-- Behind node `i` tuples have `a` elements, `g` of them groups. Nothing leaves a scorer. -/
inductive Behind (n : Network S sh) : Nat → Nat → Nat → Prop
  | source {i family : Nat} (stage : stage? n.nodes i = some (.source family)) : Behind n i 1 0
  | filter {i p a g : Nat} {test : S → Tuple → Checked Bool}
    (stage : stage? n.nodes i = some (.filter test)) (feeds : Feeds n.nodes p ⟨i, .left⟩)
    (input : Behind n p a g) : Behind n i a g
  | join {i p q a g a' g' : Nat} {leftKey rightKey : S → Tuple → Checked Key}
    (stage : stage? n.nodes i = some (.join leftKey rightKey))
    (left : Feeds n.nodes p ⟨i, .left⟩) (right : Feeds n.nodes q ⟨i, .right⟩)
    (leftInput : Behind n p a g) (rightInput : Behind n q a' g') : Behind n i (a + a') (g + g')
  | group {i : Nat} {key : S → Tuple → Checked Key} {value : S → Tuple → Checked Int64}
    {c : Collector} (stage : stage? n.nodes i = some (.group key value c)) : Behind n i 1 1
  | scorer {i : Nat} {weight : Score sh} {matchWeight : S → Tuple → Checked Int64} {watched : Bool}
    (stage : stage? n.nodes i = some (.scorer weight matchWeight watched)) : Behind n i 0 0

/-- The layouts of live nodes have as many positions as tuples have elements behind them. -/
theorem Carries.behind (hn : n.Carries nodes) {i : Nat} {stage : Stage S sh}
    (hs : stage? nodes i = some stage) (hl : Live nodes i) :
    n.Behind i (layout nodes i).length ((layout nodes i).count none) := by
  induction i using Nat.strongRecOn generalizing stage with
  | _ i ih =>
    have hstage : stage? n.nodes i = some stage := (hn.stage i).trans hs
    have hinput : ∀ s ∈ stage.inputs, ∃ p, Feeds n.nodes p ⟨i, s⟩ ∧
        n.Behind p (inputLayout nodes i s).length ((inputLayout nodes i s).count none) := by
      intro s hside
      obtain ⟨p, hf⟩ := hn.wired.fed i stage s hs hside
      obtain ⟨m, hm, -⟩ := id hf
      have hp : stage? nodes p = some m.stage := Option.map_eq_some_iff.2 ⟨m, hm, rfl⟩
      refine ⟨p, (hn.feeds _ _).2 ⟨hf, hl⟩, ?_⟩
      rw [inputLayout_eq hn.wired hf]
      exact ih p (hn.wired.forward p _ hf) hp (hn.live_of_feeds hf hl)
    rw [layout_eq hs]
    cases stage with
    | source family => exact .source hstage
    | filter test =>
      obtain ⟨p, hf, hp⟩ := hinput .left List.mem_cons_self
      exact .filter hstage hf hp
    | join leftKey rightKey =>
      obtain ⟨p, hf, hp⟩ := hinput .left List.mem_cons_self
      obtain ⟨q, hf', hq⟩ := hinput .right (List.mem_cons_of_mem _ List.mem_cons_self)
      show n.Behind i (inputLayout nodes i .left ++ inputLayout nodes i .right).length
        ((inputLayout nodes i .left ++ inputLayout nodes i .right).count none)
      rw [List.length_append, List.count_append]
      exact .join hstage hf hf' hp hq
    | group key value c => exact .group hstage
    | scorer weight matchWeight watched => exact .scorer hstage

variable [Plan S sh]

/-- A session of the network comes to be `t`, after some requests and perhaps in the middle of
settling. -/
def Passes (n : Network S sh) (t : Session S sh) : Prop :=
  ∃ s plan k, s.Reachable n ∧ Session.Deliveries plan k s t

/-- The delta is on its way along the edge at some time. -/
def Conveys (n : Network S sh) (e : Edge) (d : Delta) : Prop :=
  ∃ t, n.Passes t ∧ ⟨e.target, e.side, d⟩ ∈ t.queue.toList

/-- The join at node `i` holds the two tuples under one key at some time. -/
def Pairs (n : Network S sh) (i : Nat) (l r : Tuple) : Prop :=
  ∃ t leftKey rightKey m, n.Passes t ∧ t.stations[i]? = some (.join leftKey rightKey m) ∧
    m.Joins .left l r

theorem Passes.fitting (hn : n.Carries nodes) {t : Session S sh} (h : n.Passes t) :
    t.Fitting n nodes := by
  obtain ⟨s, plan, k, hs, hrun⟩ := h
  have hkept := Session.kept_fitting hn
  exact hkept.deliveries hrun (hkept.reachable (Session.fitting_new hn) hs)

theorem Conveys.fits (hn : n.Carries nodes) {q : Nat} {e : Edge} {d : Delta}
    (hf : Feeds n.nodes q e) (h : n.Conveys e d) : d.Fits (layout nodes q) := by
  obtain ⟨t, ht, hd⟩ := h
  obtain ⟨stage, hs, hadmits⟩ := (ht.fitting hn).pending _ hd
  obtain ⟨hfeeds, -⟩ := (hn.feeds _ _).1 hf
  obtain ⟨stage', hs', hside⟩ := hn.wired.listened _ _ hfeeds
  obtain rfl : stage = stage' := Option.some.inj (hs.symm.trans hs')
  rw [← inputLayout_eq hn.wired hfeeds]
  cases stage with
  | source family => cases hside
  | _ => exact hadmits.2

theorem Pairs.fits (hn : n.Carries nodes) {i : Nat} {l r : Tuple} (h : n.Pairs i l r) :
    l.Fits (inputLayout nodes i .left) := by
  obtain ⟨t, leftKey, rightKey, m, ht, hs, k, hl, -⟩ := h
  exact (ht.fitting hn).station i _ hs .left _ k l hl

/-- Whatever sessions of a declared network are asked for, all that ever travels along an edge has
one number of elements and of groups, and tuples have an aggregate for each of these. It is one
element behind sources and groups, as many as before behind a filter, and those of the left and the
right input behind a join. So no two pairs that a join ever combines share an identity. -/
theorem conveys_uniformly (hb : b.Declared) (hbuild : b.build = .ok n) :
    (∀ q e, Feeds n.nodes q e → ∃ a g, n.Behind q a g ∧
      ∀ d, n.Conveys e d → d.id.length = a ∧ d.id.countP Element.isGroup = g ∧
        ∀ t, d.tuple? = some t → t.aggregates.length = g) ∧
    ∀ i l r l' r', n.Pairs i l r → n.Pairs i l' r' →
      JoinMemory.combineIds .left l.id r.id = JoinMemory.combineIds .left l'.id r'.id →
        l.id = l'.id ∧ r.id = r'.id := by
  have hn := hb.wellFormed.carries hbuild
  refine ⟨fun q e hf => ?_, fun i l r l' r' h h' hid => ?_⟩
  · obtain ⟨hfeeds, hlive⟩ := (hn.feeds _ _).1 hf
    obtain ⟨m, hm, -⟩ := id hfeeds
    have hq : stage? b.nodes q = some m.stage := Option.map_eq_some_iff.2 ⟨m, hm, rfl⟩
    refine ⟨_, _, hn.behind hq (hn.live_of_feeds hfeeds hlive), fun d hd => ?_⟩
    have hfits := hd.fits hn hf
    refine ⟨?_, ?_, fun t ht => (hfits.2 t ht).2⟩
    · rw [← hfits.1, List.length_map]
    · rw [countP_isGroup, hfits.1]
  · exact JoinMemory.combineIds_inj ((h.fits hn).length.trans (h'.fits hn).length.symm) hid

end Network

/-! ## A row of cells -/

namespace Row

/-- In the network of pairs, from the join to the scorer. -/
theorem conveys_uniformly_pairing :
    ∃ (x : Blueprint Row .simple) (n : Network Row .simple),
      Declaration.performAll pairing ⟨{}, []⟩ = .ok x ∧ x.builder.build = .ok n ∧
      ∃ a g, n.Behind 2 a g ∧ ∀ d, n.Conveys ⟨3, .left⟩ d →
        d.id.length = a ∧ d.id.countP Element.isGroup = g ∧
          ∀ t, d.tuple? = some t → t.aggregates.length = g := by
  obtain ⟨⟨x, e, hnodes, hconstraints⟩, -⟩ := performAll_pairing
  obtain ⟨n, hbuild⟩ : ∃ n, x.builder.build = .ok n :=
    ⟨_, if_neg fun h => hconstraints (List.isEmpty_iff.1 h)⟩
  have hdeclared := Declaration.declared_performAll (.start 0 "") e
  have hn := hdeclared.wellFormed.carries hbuild
  have hfeeds : Feeds n.nodes 2 ⟨3, .left⟩ := by
    have hscorer : stage? x.builder.nodes 3 =
        some (.scorer (.single 0 (-1)) (fun _ _ => .ok 1) false) := hnodes ▸ rfl
    exact (hn.feeds _ _).2
      ⟨hnodes ▸ ⟨_, rfl, List.mem_cons_self⟩, hn.live_of_scorer hscorer rfl⟩
  exact ⟨x, n, e, hbuild, (Network.conveys_uniformly hdeclared hbuild).1 2 _ hfeeds⟩

end Row

end PlanSearch
