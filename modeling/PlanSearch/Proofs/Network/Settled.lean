import PlanSearch.Proofs.Network.Settling

/-!
# Settled sessions

Once the queue is empty, every input is up to date. A tuple with a fact that was reported on has been
named all the way down, so whatever is remembered about it was answered on the present plan; all
other answers would be the same today. Hence the outputs list what the reference derives from the
facts that are present.

    Tracks … [] s → s.queue = #[] →
      Reference.evaluate nodes n.constraints now facts = .ok (s.score, n.constraints.map s.totalOf)
                                                                                  (Tracks.evaluate)
-/

namespace PlanSearch

open NetworkBuilder (Live)

variable {S : Type} {sh : Shape} {γ : Type}

/-- Facts that were not reported on have the contents they had before. -/
def Faithful (contents : S → Fact → γ) (roll : Roll) (before now : S) : Prop :=
  ∀ f ∈ roll.present, ¬ roll.Told f → contents before f = contents now f

theorem LocalTo.keyAndValue {contents : S → Fact → γ} {key : S → Tuple → Checked Key}
    {value : S → Tuple → Checked Int64} (hk : LocalTo contents key) (hv : LocalTo contents value) :
    LocalTo contents (keyAndValue key value) := by
  intro p q t ht
  unfold PlanSearch.keyAndValue
  rw [hk p q t ht, hv p q t ht]

theorem LocalTo.matchScore {contents : S → Fact → γ} {matchWeight : S → Tuple → Checked Int64}
    (h : LocalTo contents matchWeight) (weight : Score sh) :
    LocalTo contents (matchScore weight matchWeight) := by
  intro p q t ht
  unfold PlanSearch.matchScore
  rw [h p q t ht]

namespace Session

variable {n : Network S sh} {nodes : Array (Node S sh)} {before now : S} {held known : Fact → Prop}
  {roll : Roll} {input : Nat → Side → Feed} {output : Nat → Feed} {s : Session S sh} {i : Nat}
  {side : Side} {station : Station S sh} {contents : S → Fact → γ} {facts : List Fact}

/-- A live input is up to date with the node that feeds it. -/
theorem Tracks.fed (h : Tracks n nodes before now held known roll input output [] s)
    (hn : n.Carries nodes) (hq : s.queue = #[]) (hl : Live nodes i) (hs : s.stations[i]? = some station)
    (hside : side ∈ station.stage.inputs) :
    ∃ q < i, Live nodes q ∧ (∃ st, s.stations[q]? = some st) ∧ input i side = output q ∧
      Reference.parent? nodes i side = some q := by
  obtain ⟨q, hf⟩ := hn.wired.fed i station.stage side (by rw [← h.stage, hs]; rfl) hside
  have hfn : Feeds n.nodes q ⟨i, side⟩ := (hn.feeds _ _).2 ⟨hf, hl⟩
  refine ⟨q, hn.wired.forward _ _ hf, hn.live_of_feeds hf hl, ?_, ?_,
    Reference.parent?_eq hn.wired hf⟩
  · obtain ⟨m, hm, -⟩ := hf
    have hst : stage? nodes q = some m.stage := by
      unfold stage?
      rw [hm]
      rfl
    rw [← h.stage] at hst
    obtain ⟨st, hst, -⟩ := Option.map_eq_some_iff.1 hst
    exact ⟨st, hst⟩
  · rw [h.edge q _ hfn, hq]
    rfl

theorem Tracks.source_settled {family : Nat} {m : SourceMemory}
    (h : Tracks n nodes before now held known roll input output [] s) (hq : s.queue = #[])
    (hl : Live nodes i) (hs : s.stations[i]? = some (.source family m)) {f : Fact}
    (hf : f.family = family) :
    (f ∈ roll.present ↔ f ∈ m) ∧ (roll.Told f → f ∈ m → [.fact f] ∈ (output i).touched) := by
  have hawaits := h.source i family m hs hl
  rw [hq] at hawaits
  exact SourceMemory.awaits_of_eq_nil hawaits hf

/-- The facts of a live tuple are present, and the tuple is named if one of them was reported on. -/
theorem Tracks.live_facts (h : Tracks n nodes before now held known roll input output [] s)
    (hn : n.Carries nodes) (hq : s.queue = #[]) (hl : Live nodes i)
    (hs : s.stations[i]? = some station) {id : TupleId} {t : Tuple}
    (ht : (output i).live id = some t) {f : Fact} (hf : f ∈ TupleId.facts id) :
    f ∈ roll.present ∧ (roll.Told f → id ∈ (output i).touched) := by
  induction i using Nat.strongRecOn generalizing station id t f with
  | ind i ih =>
    have htracks := h.station i station hs hl
    have hinput : ∀ side ∈ station.stage.inputs, ∀ id t, (input i side).live id = some t →
        ∀ f ∈ TupleId.facts id, f ∈ roll.present ∧ (roll.Told f → id ∈ (input i side).touched) := by
      intro side hside id t ht f hf
      obtain ⟨q, hlt, hql, ⟨st, hst⟩, hiq, -⟩ := h.fed hn hq hl hs hside
      rw [hiq] at ht ⊢
      exact ih q hlt hql hst ht hf
    cases station with
    | source family m =>
      obtain ⟨g, hg, rfl, -⟩ := (SourceMemory.Tracks.live htracks id t).1 ht
      rw [Tuple.mem_facts, List.mem_singleton, Element.fact.injEq] at hf
      subst hf
      obtain ⟨hpresent, htold⟩ := h.source_settled hq hl hs (htracks.family f hg)
      exact ⟨hpresent.2 hg, fun hf => htold hf hg⟩
    | filter test m =>
      rw [FilterMemory.Tracks.live htracks] at ht
      split at ht
      · next hm =>
        obtain ⟨u, hu, -⟩ := Option.map_eq_some_iff.1 ht
        obtain ⟨hp, htouched⟩ := hinput .left (List.mem_singleton.2 rfl) id u hu f hf
        exact ⟨hp, fun hf => htracks.touched id hm (htouched hf)⟩
      · cases ht
    | join leftKey rightKey m =>
      obtain ⟨l, r, hj, rfl, -⟩ := (JoinMemory.Tracks.live htracks .left id t).1 ht
      obtain ⟨k, hlk, hrk⟩ := hj
      have hll := (JoinMemory.Tracks.index htracks .left).live_of_holds hlk
      have hrl := (JoinMemory.Tracks.index htracks .right).live_of_holds hrk
      have htouched := JoinMemory.Tracks.touched htracks .left l r ⟨k, hlk, hrk⟩
      rw [JoinMemory.combineIds, Tuple.facts_append, List.mem_append] at hf
      rcases hf with hf | hf
      · obtain ⟨hp, ht'⟩ := hinput .left (by simp [Station.stage, Stage.inputs]) _ l hll f hf
        exact ⟨hp, fun hf => htouched (.inl (ht' hf))⟩
      · obtain ⟨hp, ht'⟩ := hinput .right (by simp [Station.stage, Stage.inputs]) _ r hrl f hf
        exact ⟨hp, fun hf => htouched (.inr (ht' hf))⟩
    | group key value c m =>
      obtain ⟨k, g, -, rfl, -⟩ := (GroupMemory.Tracks.live htracks id t).1 ht
      rw [Tuple.mem_facts, List.mem_singleton] at hf
      cases hf
    | scorer weight matchWeight watched m =>
      rw [htracks.2] at ht
      cases ht

/-- Whatever was not named since is answered as it was. -/
theorem Tracks.steady {α : Type} {fn : S → Tuple → Checked α}
    (h : Tracks n nodes before now held known roll input output [] s) (hn : n.Carries nodes)
    (hq : s.queue = #[]) (hfaith : Faithful contents roll before now) (hfn : LocalTo contents fn)
    (hl : Live nodes i) (hs : s.stations[i]? = some station) (hside : side ∈ station.stage.inputs) :
    Steady fn before now (input i side) := by
  intro id t ht hnot
  obtain ⟨q, -, hql, ⟨st, hst⟩, hiq, -⟩ := h.fed hn hq hl hs hside
  have hid : t.id = id := (h.inputOver i _ side (by rw [← h.stage, hs]; rfl) hside hl id t ht).1
  rw [hiq] at ht hnot
  refine hfn before now t fun f hf => ?_
  rw [hid] at hf
  obtain ⟨hp, htold⟩ := h.live_facts hn hq hql hst ht hf
  exact hfaith f hp fun ht => hnot (htold ht)

/-- The output of every live node lists what the reference derives. -/
theorem Tracks.lists (h : Tracks n nodes before now held known roll input output [] s)
    (hn : n.Carries nodes) (hq : s.queue = #[])
    (hloc : ∀ i stage, stage? nodes i = some stage → stage.Local contents)
    (hfaith : Faithful contents roll before now) (hnodup : facts.Nodup)
    (hfacts : ∀ f, f ∈ facts ↔ f ∈ roll.present) (hl : Live nodes i)
    (hs : s.stations[i]? = some station) :
    ∃ ts, Reference.stream nodes now facts i = .ok ts ∧ (output i).Lists ts := by
  induction i using Nat.strongRecOn generalizing station with
  | ind i ih =>
    have htracks := h.station i station hs hl
    have hstage : stage? nodes i = some station.stage := by rw [← h.stage, hs]; rfl
    have hlocal := hloc i _ hstage
    have hinput : ∀ side ∈ station.stage.inputs, ∃ ts,
        Reference.inputOf nodes now facts i side = .ok ts ∧ (input i side).Lists ts := by
      intro side hside
      obtain ⟨q, hlt, hql, ⟨st, hst⟩, hiq, hparent⟩ := h.fed hn hq hl hs hside
      unfold Reference.inputOf
      rw [hparent, hiq]
      exact ih q hlt hql hst
    rw [Reference.stream_eq, hstage]
    cases station with
    | source family m =>
      refine SourceMemory.Tracks.lists sh htracks (fun f => ?_) hnodup
      rw [hfacts]
      constructor
      · intro hf
        have hfamily := htracks.family f hf
        exact ⟨(h.source_settled hq hl hs hfamily).1.2 hf, hfamily⟩
      · exact fun ⟨hf, hfamily⟩ => (h.source_settled hq hl hs hfamily).1.1 hf
    | filter test m =>
      have hleft : Side.left ∈ (Station.filter test m : Station S sh).stage.inputs :=
        List.mem_singleton.2 rfl
      obtain ⟨ts, hts, hlists⟩ := hinput .left hleft
      exact FilterMemory.Tracks.lists sh htracks (h.steady hn hq hfaith hlocal hl hs hleft) hlists hts
    | join leftKey rightKey m =>
      have hside : ∀ side, side ∈ (Station.join leftKey rightKey m : Station S sh).stage.inputs :=
        fun side => by cases side <;> simp [Station.stage, Stage.inputs]
      obtain ⟨ls, hls, hll⟩ := hinput .left (hside .left)
      obtain ⟨rs, hrs, hrl⟩ := hinput .right (hside .right)
      refine JoinMemory.Tracks.lists sh htracks (fun side => ?_) hll hrl hls hrs fun t ht u hu => ?_
      · cases side with
        | left => exact h.steady hn hq hfaith hlocal.1 hl hs (hside .left)
        | right => exact h.steady hn hq hfaith hlocal.2 hl hs (hside .right)
      · have hlen := fun {t} ht =>
          (h.inputOver i _ .left hstage (hside .left) hl _ t (hll.live_id ht)).2.1.length
        rw [hlen ht, hlen hu]
    | group key value c m =>
      have hleft : Side.left ∈ (Station.group key value c m : Station S sh).stage.inputs :=
        List.mem_singleton.2 rfl
      obtain ⟨ts, hts, hlists⟩ := hinput .left hleft
      exact GroupMemory.Tracks.lists sh htracks
        (h.steady hn hq hfaith (hlocal.1.keyAndValue hlocal.2) hl hs hleft) hlists hts
    | scorer weight matchWeight watched m =>
      refine ⟨[], rfl, List.nodup_nil, fun id t => ?_⟩
      rw [htracks.2]
      simp [Feed.empty]

/-- A scorer has entered exactly the tuples that the reference derives for it. -/
theorem Tracks.scored (h : Tracks n nodes before now held known roll input output [] s)
    (hn : n.Carries nodes) (hq : s.queue = #[])
    (hloc : ∀ i stage, stage? nodes i = some stage → stage.Local contents)
    (hfaith : Faithful contents roll before now) (hnodup : facts.Nodup)
    (hfacts : ∀ f, f ∈ facts ↔ f ∈ roll.present) {c : Constraint sh} (hc : c ∈ n.constraints) :
    ∃ signed matchWeight watched m x ts,
      stage? nodes c.scorer = some (.scorer signed matchWeight watched) ∧
      c.weight.scaled c.impact.sign = .ok signed ∧
      s.stations[c.scorer]? = some (.scorer signed matchWeight watched m) ∧
      Reference.inputOf nodes now facts c.scorer .left = .ok ts ∧
      m.Tracks (matchScore signed matchWeight) before now x ∧
      Steady (matchScore signed matchWeight) before now x ∧ x.Lists ts := by
  obtain ⟨signed, matchWeight, watched, hsigned, hstage⟩ := hn.weight c hc
  have hl := hn.live_of_scorer hstage rfl
  have hst := hstage
  rw [← h.stage] at hst
  obtain ⟨station, hs, hst⟩ := Option.map_eq_some_iff.1 hst
  cases station with
  | scorer weight' matchWeight' watched' m =>
    cases hst
    have hleft : Side.left ∈ (Station.scorer signed matchWeight watched m).stage.inputs :=
      List.mem_singleton.2 rfl
    obtain ⟨q, -, hql, ⟨st, hqs⟩, hiq, hparent⟩ := h.fed hn hq hl hs hleft
    obtain ⟨ts, hts, hlists⟩ := h.lists hn hq hloc hfaith hnodup hfacts hql hqs
    have hinput : Reference.inputOf nodes now facts c.scorer .left = .ok ts := by
      unfold Reference.inputOf
      rw [hparent]
      exact hts
    have hsteady := h.steady hn hq hfaith ((hloc _ _ hstage).matchScore signed) hl hs hleft
    refine ⟨signed, matchWeight, watched, m, input c.scorer .left, ts, hstage, hsigned, hs, hinput,
      (h.station c.scorer _ hs hl).1, hsteady, ?_⟩
    rw [hiq]
    exact hlists
  | _ => cases hst

/-- The total of every constraint is that of the reference. -/
theorem Tracks.total_eq (h : Tracks n nodes before now held known roll input output [] s)
    (hn : n.Carries nodes) (hq : s.queue = #[])
    (hloc : ∀ i stage, stage? nodes i = some stage → stage.Local contents)
    (hfaith : Faithful contents roll before now) (hnodup : facts.Nodup)
    (hfacts : ∀ f, f ∈ facts ↔ f ∈ roll.present) {c : Constraint sh} (hc : c ∈ n.constraints) :
    Reference.total nodes now facts c = .ok (s.totalOf c) ∧
      (s.totalOf c).score = s.totalAt c.scorer := by
  obtain ⟨signed, matchWeight, watched, m, x, ts, hstage, hsigned, hs, hts, htracks, hsteady,
    hlists⟩ := h.scored hn hq hloc hfaith hnodup hfacts hc
  obtain ⟨ps, hps, htotal, hcount⟩ := htracks.total_eq hsteady hlists
  have htotalOf : s.totalOf c = ⟨c.name, c.impact, c.weight, m.total, m.matched.size⟩ := by
    unfold totalOf
    rw [hs]
    rfl
  constructor
  · unfold Reference.total
    rw [hstage, htotalOf]
    dsimp only
    rw [hsigned, hts]
    show (Reference.ask _ ts >>= _) = _
    rw [hps]
    show (Score.total (ps.map (·.1)) >>= _) = _
    rw [htotal, hcount]
    rfl
  · rw [htotalOf]
    unfold totalAt
    rw [hs]
    rfl

/-- The score and all totals are those of the reference. -/
theorem Tracks.evaluate (h : Tracks n nodes before now held known roll input output [] s)
    (hn : n.Carries nodes) (hq : s.queue = #[])
    (hloc : ∀ i stage, stage? nodes i = some stage → stage.Local contents)
    (hfaith : Faithful contents roll before now) (hnodup : facts.Nodup)
    (hfacts : ∀ f, f ∈ facts ↔ f ∈ roll.present) :
    Reference.evaluate nodes n.constraints now facts =
      .ok (s.score, n.constraints.map s.totalOf) := by
  have htotal := fun c hc => h.total_eq hn hq hloc hfaith hnodup hfacts (c := c) hc
  have hsum : Score.total ((n.constraints.map s.totalOf).map (·.score)) = .ok s.score := by
    rw [Score.total_eq_ok_iff]
    intro l
    rw [h.score, List.map_map, List.map_map]
    congr 1
    refine List.map_congr_left fun c hc => ?_
    show _ = (s.totalOf c).score.level l
    rw [(htotal c hc).2]
  unfold Reference.evaluate
  rw [Checked.mapM_eq_map fun c hc => (htotal c hc).1]
  show (Score.total _ >>= _) = _
  rw [hsum]
  rfl

end Session

end PlanSearch
