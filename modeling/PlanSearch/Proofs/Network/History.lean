import PlanSearch.Proofs.Network.Settled

/-!
# Histories of a session

A session is told of facts that come, change and go, in any order and any batches, and is settled
now and then, each time on another plan. As long as it is told of every fact that changed, it agrees
with the reference whenever it is settled: the score, and the score and the number of matches of
every constraint, are those of the facts that are present.

    Session.History contents n roll plan s → Faithful contents roll plan plan' →
      the score and the totals that s settles to on plan' are those of Reference.evaluate
                                                                              (settle_agrees)
-/

namespace PlanSearch

open NetworkBuilder (Live)

variable {S : Type} {sh : Shape} {γ : Type} {before now : S} {origin : Nat}

/-! ## Rest -/

theorem Station.Tracks.rested {contents : S → Fact → γ} {station : Station S sh}
    {input : Side → Feed} {output : Feed} (h : station.Tracks before now origin input output)
    (hloc : station.stage.Local contents)
    (hx : ∀ (α : Type) (fn : S → Tuple → Checked α), LocalTo contents fn →
      ∀ side ∈ station.stage.inputs, Steady fn before now (input side)) (next : S) :
    station.Tracks now next origin (fun s => (input s).rested) output.rested := by
  refine h.rested_of_steady ?_ next
  cases station with
  | source family m => exact trivial
  | filter test m => exact hx _ test hloc .left (List.mem_singleton.2 rfl)
  | join leftKey rightKey m =>
    intro s
    cases s with
    | left => exact hx _ leftKey hloc.1 .left (by simp [Station.stage, Stage.inputs])
    | right => exact hx _ rightKey hloc.2 .right (by simp [Station.stage, Stage.inputs])
  | group key value c m =>
    exact hx _ _ (hloc.1.keyAndValue hloc.2) .left (List.mem_singleton.2 rfl)
  | scorer weight matchWeight watched m =>
    exact hx _ _ (LocalTo.matchScore hloc weight) .left (List.mem_singleton.2 rfl)

namespace Session

variable {n : Network S sh} {nodes : Array (Node S sh)} {held known : Fact → Prop}
  {roll : Roll} {input : Nat → Side → Feed} {output : Nat → Feed} {s s' : Session S sh}
  {contents : S → Fact → γ} {plan plan' : S}

theorem Tracks.mono {held' known' : Fact → Prop} {rest : List Pending}
    (h : Tracks n nodes before now held known roll input output rest s)
    (hh : ∀ f, held f → held' f) (hk : ∀ f, known f → known' f) :
    Tracks n nodes before now held' known' roll input output rest s where
  network := h.network
  stage := h.stage
  station := h.station
  edge := h.edge
  inputOver i stage side hst hside hl id t ht :=
    have ho := h.inputOver i stage side hst hside hl id t ht
    ⟨ho.1, ho.2.1, fun f hf => hh f (ho.2.2 f hf)⟩
  source i family m hi hl := by
    obtain ⟨rs, hrs, hknown, hf⟩ := h.source i family m hi hl
    exact ⟨rs, hrs, fun r hr => ⟨(hknown r hr).1, fun ha => hk _ ((hknown r hr).2 ha)⟩, hf⟩
  pending p hp := by
    obtain ⟨hl, stage, hst, hp⟩ := h.pending p hp
    refine ⟨hl, stage, hst, hp.imp_right fun ⟨hside, ho⟩ => ⟨hside, fun t ht => ?_⟩⟩
    exact ⟨(ho t ht).1, fun f hf => hk f ((ho t ht).2 f hf)⟩
  score := h.score

/-- After settling, nothing is named any more, and what is remembered can be relied on. -/
theorem Tracks.rested (h : Tracks n nodes before now held known roll input output [] s)
    (hn : n.Carries nodes) (hq : s.queue = #[])
    (hloc : ∀ i stage, stage? nodes i = some stage → stage.Local contents)
    (hfaith : Faithful contents roll before now) (next : S) :
    Tracks n nodes now next roll.settled.Known roll.settled.Asked roll.settled
      (fun i side => (input i side).rested) (fun i => (output i).rested) [] s where
  network := h.network
  stage := h.stage
  station i station hs hl :=
    (h.station i station hs hl).rested (hloc i _ (by rw [← h.stage, hs]; rfl))
      (fun α fn hfn side hside => h.steady hn hq hfaith hfn hl hs hside) next
  edge q e he := by
    have hold := h.edge q e he
    rw [hq] at hold ⊢
    have hfeed : output q = input e.target e.side := hold
    rw [hfeed]
    rfl
  inputOver i stage side hst hside hl id t ht := by
    obtain ⟨station, hs, rfl⟩ := Option.map_eq_some_iff.1 ((h.stage i).trans hst)
    obtain ⟨hid, hfits, -⟩ := h.inputOver i _ side hst hside hl id t ht
    obtain ⟨q, -, hql, ⟨st, hqs⟩, hiq, -⟩ := h.fed hn hq hl hs hside
    have hlive : (output q).live id = some t := by
      rw [← hiq]
      exact ht
    exact ⟨hid, hfits, fun f hf => .inl (h.live_facts hn hq hql hqs hlive (hid ▸ hf)).1⟩
  source i family m hi hl := by
    refine ⟨[], by rw [hq]; rfl, nofun, fun f hf => ⟨?_, fun ht => ?_⟩⟩
    · exact (h.source_settled hq hl hi hf).1
    · obtain ⟨r, hr, -⟩ := ht
      cases hr
  pending p hp := by
    rw [hq] at hp
    cases hp
  score := h.score

/-- A session that knows nothing yet. -/
theorem tracks_new (hn : n.Carries nodes) (before now : S) :
    Tracks n nodes before now (Roll.Known {}) (Roll.Asked {}) {} (fun _ _ => Feed.empty)
      (fun _ => Feed.empty) [] (new n) := by
  have hstations : ∀ i : Nat, (new n).stations[i]? = (stage? nodes i).map Station.ofStage :=
    fun i => hn.stage i ▸ stations_new n i
  refine ⟨rfl, fun i => ?_, fun i station hs hl => ?_, fun q e he => rfl, ?_, fun i family m hi hl => ?_,
    nofun, fun l => ?_⟩
  · exact (stage_new n i).trans (hn.stage i)
  · rw [hstations] at hs
    obtain ⟨stage, -, rfl⟩ := Option.map_eq_some_iff.1 hs
    exact Station.tracks_ofStage before now i stage
  · exact fun i stage side _ _ _ => Feed.over_empty _ _
  · rw [hstations] at hi
    obtain ⟨stage, -, hst⟩ := Option.map_eq_some_iff.1 hi
    cases stage with
    | source family' =>
      cases hst
      refine ⟨[], rfl, nofun, fun f _ => ⟨?_, fun ht => ?_⟩⟩
      · simp
      · obtain ⟨r, hr, -⟩ := ht
        cases hr
    | _ => cases hst
  · have htotal : ∀ i, ((new n).totalAt i).level l = 0 := fun i => by
      unfold totalAt
      rw [hstations]
      cases stage? nodes i with
      | none => exact Score.level_zero l
      | some stage => cases stage <;> exact Score.level_zero l
    rw [List.map_congr_left fun c _ => htotal c.scorer]
    show (Score.zero : Score sh).level l = _
    rw [Score.level_zero]
    simp

/-! ## Reports -/

/-- The session is told of a fact. -/
def tell (s : Session S sh) : Report → Session S sh
  | .insert f => s.insert f
  | .update f => s.update f
  | .retract f => s.retract f

theorem tell_eq (s : Session S sh) (r : Report) :
    s.tell r = match s.network.source? r.fact.family with
      | none => s
      | some node => { s with queue := s.queue.push ⟨node, .left, r.delta node⟩ } := by
  cases r <;> rfl

/-- A live source is the one that delivers its family. -/
theorem Tracks.source?_eq {held : Fact → Prop} {rest : List Pending} {i family : Nat}
    {m : SourceMemory} (h : Tracks n nodes before now held known roll input output rest s)
    (hn : n.Carries nodes) (hi : s.stations[i]? = some (.source family m)) (hl : Live nodes i) :
    n.source? family = some i :=
  (hn.source family i).2 ⟨by rw [← h.stage, hi]; rfl, hl⟩

theorem Tracks.tell (h : Tracks n nodes before now roll.Known roll.Asked roll input output [] s)
    (hn : n.Carries nodes) (r : Report) :
    Tracks n nodes before now (roll.hear r).Known (roll.hear r).Asked (roll.hear r) input output []
      (s.tell r) := by
  have hknown : ∀ f, roll.Known f → (roll.hear r).Known f := fun f => Roll.known_hear r
  have hasked : ∀ f, roll.Asked f → (roll.hear r).Asked f := fun f ⟨q, hq, hf⟩ =>
    ⟨q, List.mem_cons_of_mem _ hq, hf⟩
  have hrasked : r.asks → (roll.hear r).Asked r.fact := fun ha => ⟨r, List.mem_cons_self, ha, rfl⟩
  have hm := h.mono hknown hasked
  -- A source is concerned exactly if it delivers the family of the fact.
  have hignore : ∀ (i : Nat) family m, s.stations[i]? = some (.source family m) → Live nodes i →
      n.source? r.fact.family ≠ some i →
        m.Awaits i family (output i) (arriving ([] ++ s.queue.toList) i .left) (roll.hear r)
          (roll.hear r).Asked := fun i family m hi hl hne =>
    (h.source i family m hi hl).ignore (fun hf => hne (hf ▸ h.source?_eq hn hi hl)) hasked
  rw [tell_eq, h.network]
  cases hs : n.source? r.fact.family with
  | none =>
    have hconcerns : ∀ i, n.source? r.fact.family ≠ some i := fun i => by
      rw [hs]
      exact nofun
    exact ⟨h.network, h.stage, h.station, h.edge, hm.inputOver,
      fun i family m hi hl => hignore i family m hi hl (hconcerns i), hm.pending, h.score⟩
  | some node =>
    obtain ⟨hstage, hlive⟩ := (hn.source _ _).1 hs
    have hpush := arriving_push [] s.queue ⟨node, .left, r.delta node⟩
    dsimp only at hpush
    refine ⟨rfl, h.stage, h.station, fun q e he => ?_, hm.inputOver, fun i family m hi hl => ?_,
      fun p hp => ?_, h.score⟩
    · have hne : ¬ (node = e.target ∧ Side.left = e.side) := by
        rintro ⟨ht, -⟩
        obtain ⟨stage, hst, hside⟩ := hn.wired.listened q e ((hn.feeds q e).1 he).1
        rw [← ht, hstage] at hst
        cases hst
        cases hside
      rw [hpush, if_neg hne, List.append_nil]
      exact h.edge q e he
    · rw [hpush]
      by_cases hi' : node = i
      · subst hi'
        rw [if_pos ⟨rfl, rfl⟩]
        have hfamily := h.stage node
        rw [hi, hstage] at hfamily
        cases hfamily
        exact (h.source node _ m hi hl).tell rfl hasked hrasked
      · rw [if_neg fun e => hi' e.1, List.append_nil]
        refine hignore i family m hi hl fun hconcerned => hi' ?_
        rw [hs] at hconcerned
        exact Option.some.inj hconcerned
    · rw [Array.toList_push, ← List.append_assoc] at hp
      rcases List.mem_append.1 hp with hp | hp
      · exact hm.pending p hp
      · rw [List.mem_singleton] at hp
        subst hp
        exact ⟨hlive, _, hstage, .inl ⟨rfl, _, rfl⟩⟩

end Session

/-! ## Histories -/

/-- What can happen to a session of the network: it is told of facts, and it is settled on plans on
which all facts but those it was told of are as they were. `roll` is what it was told so far, and
`plan` the plan it was settled on last. -/
inductive Session.History (contents : S → Fact → γ) (n : Network S sh) :
    Roll → S → Session S sh → Prop where
  | start (plan : S) : Session.History contents n {} plan (Session.new n)
  | tell {roll : Roll} {plan : S} {s : Session S sh} (h : Session.History contents n roll plan s)
    (r : Report) : Session.History contents n (roll.hear r) plan (s.tell r)
  | settle {roll : Roll} {plan plan' : S} {s s' : Session S sh} {count : Nat}
    (h : Session.History contents n roll plan s) (hf : Faithful contents roll plan plan')
    (e : Session.settle plan' s = .ok count s') : Session.History contents n roll.settled plan' s'

namespace Session.History

variable {n : Network S sh} {nodes : Array (Node S sh)} {contents : S → Fact → γ} {roll : Roll}
  {plan plan' : S} {s s' : Session S sh}

theorem joinsKnown_of_imp {held known : Fact → Prop} (h : ∀ f, held f → known f) :
    Session.JoinsKnown nodes held known :=
  fun _ _ _ _ _ _ _ _ hp => ⟨hp.1, fun f hf => h f (hp.2 f hf)⟩

/-- Whichever facts a session has heard of, settling keeps the invariant. -/
theorem settle_any {before : S} {held known : Fact → Prop} {input : Nat → Side → Feed}
    {output : Nat → Feed} {count : Nat}
    (h : Session.Tracks n nodes before plan' held known roll input output [] s) (hn : n.Carries nodes)
    (e : Session.settle plan' s = .ok count s') :
    s'.queue = #[] ∧ ∃ input' output', Session.Tracks n nodes before plan' (fun _ => True)
      (fun _ => True) roll input' output' [] s' := by
  have hall : Session.Tracks n nodes before plan' (fun _ => True) (fun _ => True) roll input output
    [] s := h.mono (fun _ _ => trivial) fun _ _ => trivial
  exact hall.settle hn (fun _ _ => trivial) (joinsKnown_of_imp fun _ _ => trivial) e

/-- Every history keeps the invariant, whatever plan comes next. -/
theorem tracks (h : Session.History contents n roll plan s) (hn : n.Carries nodes)
    (hloc : ∀ i stage, stage? nodes i = some stage → stage.Local contents) (now : S) :
    ∃ input output,
      Session.Tracks n nodes plan now roll.Known roll.Asked roll input output [] s := by
  induction h generalizing now with
  | start plan => exact ⟨_, _, Session.tracks_new hn plan now⟩
  | tell h r ih =>
    obtain ⟨input, output, ht⟩ := ih now
    exact ⟨input, output, ht.tell hn r⟩
  | @settle roll plan plan' s s' count h hf e ih =>
    obtain ⟨input, output, ht⟩ := ih plan'
    obtain ⟨hq, input', output', ht'⟩ := settle_any ht hn e
    exact ⟨_, _, ht'.rested hn hq hloc hf now⟩

theorem nodup_present (h : Session.History contents n roll plan s) : roll.present.Nodup := by
  induction h with
  | start plan => exact List.nodup_nil
  | tell h r ih => exact Roll.nodup_hear ih r
  | settle h hf e ih => exact ih

/-- Settling fails by overflow only, as long as the functions are defined on tuples of the facts
that the network is made to ask about and joins bring no others in. -/
theorem settle_error {held known : Fact → Prop} {f : Fault}
    (h : Session.History contents n roll plan s) (hn : n.Carries nodes)
    (hloc : ∀ i stage, stage? nodes i = some stage → stage.Local contents)
    (hheld : ∀ f, roll.Known f → held f) (hknown : ∀ f, roll.Asked f → known f)
    (hk : ∀ f, known f → held f) (hj : Session.JoinsKnown nodes held known)
    (hd : Session.DefinedOn nodes known plan') (e : Session.settle plan' s = .error f s') :
    f = .overflow := by
  obtain ⟨input, output, ht⟩ := h.tracks hn hloc plan'
  exact (ht.mono hheld hknown).settleRounds_error hn hk hj hd e

/-- Once a session has settled, it agrees with the reference on any list of the facts that are
present. -/
theorem settle_eq {count : Nat} {facts : List Fact} (h : Session.History contents n roll plan s)
    (hn : n.Carries nodes) (hloc : ∀ i stage, stage? nodes i = some stage → stage.Local contents)
    (hf : Faithful contents roll plan plan') (e : Session.settle plan' s = .ok count s')
    (hnodup : facts.Nodup) (hfacts : ∀ f, f ∈ facts ↔ f ∈ roll.present) :
    s'.queue = #[] ∧ s'.network = n ∧ Reference.evaluate nodes n.constraints plan' facts =
      .ok (s'.score, n.constraints.map s'.totalOf) := by
  obtain ⟨input, output, ht⟩ := h.tracks hn hloc plan'
  obtain ⟨hq, input', output', ht'⟩ := settle_any ht hn e
  exact ⟨hq, ht'.network, ht'.evaluate hn hq hloc hf hnodup hfacts⟩

/-- A session of total functions overflows or settles. In the latter case it answers what the
reference evaluates to. -/
theorem settle_cases (h : Session.History contents n roll plan s) (hn : n.Carries nodes)
    (hloc : ∀ i stage, stage? nodes i = some stage → stage.Local contents)
    (hf : Faithful contents roll plan plan')
    (htotal : Session.DefinedOn nodes (fun _ => True) plan') :
    (∃ s', Session.settle plan' s = .error .overflow s') ∨
      ∃ count s' score totals, Session.settle plan' s = .ok count s' ∧ s'.isSettled ∧
        Session.settledScore plan' s = .ok score s' ∧
        Session.constraintTotals plan' s = .ok totals s' ∧
        Reference.evaluate nodes n.constraints plan' roll.present = .ok (score, totals) := by
  cases e : Session.settle plan' s with
  | error f s' =>
    have hover := h.settle_error hn hloc (fun _ _ => trivial) (fun _ _ => trivial)
      (fun _ _ => trivial) (joinsKnown_of_imp fun _ _ => trivial) htotal e
    subst hover
    exact .inl ⟨s', rfl⟩
  | ok count s' =>
    obtain ⟨hq, hnetwork, heval⟩ := h.settle_eq hn hloc hf e h.nodup_present fun _ => Iff.rfl
    refine .inr ⟨count, s', s'.score, n.constraints.map s'.totalOf, rfl, ?_, ?_, ?_, heval⟩
    · unfold Session.isSettled
      rw [hq]
      rfl
    · show EStateM.bind (Session.settle plan') _ s = _
      unfold EStateM.bind
      rw [e]
      rfl
    · show EStateM.bind (Session.settle plan') _ s = _
      unfold EStateM.bind
      rw [e]
      show EStateM.Result.ok (s'.network.constraints.map s'.totalOf) s' = _
      rw [hnetwork]

/-- Whatever a network of local and total functions is told, in whatever order and batches: when it
is settled, its score and the totals of its constraints are those of the reference on the facts that
are present, unless a sum overflows on the way. -/
theorem settle_agrees {b : NetworkBuilder S sh} (hb : b.Declared) (hbuild : b.build = .ok n)
    (hloc : ∀ i stage, stage? b.nodes i = some stage → stage.Local contents)
    (h : Session.History contents n roll plan s) (hf : Faithful contents roll plan plan')
    (htotal : Session.DefinedOn b.nodes (fun _ => True) plan') :
    (∃ s', Session.settle plan' s = .error .overflow s') ∨
      ∃ count s' score totals, Session.settle plan' s = .ok count s' ∧ s'.isSettled ∧
        Session.settledScore plan' s = .ok score s' ∧
        Session.constraintTotals plan' s = .ok totals s' ∧
        Reference.evaluate b.nodes b.constraints plan' roll.present = .ok (score, totals) := by
  rw [← NetworkBuilder.constraints_of_build hbuild]
  exact h.settle_cases (hb.wellFormed.carries hbuild) hloc hf htotal

end Session.History

/-! ## A tally -/

theorem Tuple.mem_facts_of_fact? {t : Tuple} {p : Nat} {f : Fact} (h : t.fact? p = some f) :
    f ∈ TupleId.facts t.id := by
  unfold Tuple.fact? at h
  split at h
  · next g hg =>
    cases h
    exact Tuple.mem_facts.2 (List.mem_of_getElem? hg)
  · cases h

namespace Tally

section

variable (weigh : S → Tuple → Checked Int64)

/-- A builder that knows the facts of one family. -/
def facts (S : Type) : NetworkBuilder S .simple := (NetworkBuilder.forEach {} 0).2

/-- A network that rewards each fact by what `weigh` says of it. -/
def builder : NetworkBuilder S .simple :=
  { facts S with
    nodes := #[⟨.source 0, [⟨1, .left⟩]⟩, ⟨.scorer (Score.single 0 1) weigh false, []⟩]
    constraints := [⟨⟨"", "tally"⟩, 1, Score.single 0 1, .reward⟩] }

def network : Network S .simple where
  nodes := (builder weigh).nodes
  sources := [(0, 0)]
  constraints := (builder weigh).constraints

theorem build_builder : (builder weigh).build = .ok (network weigh) := by
  simp [NetworkBuilder.build, builder, network, NetworkBuilder.liveNodes, NetworkBuilder.markLive,
    NetworkBuilder.liveSources, Stage.isScorer]

theorem builder_declared : (builder weigh).Declared := by
  have hfacts : (facts S).nodes = #[{ stage := .source 0 }] ∧ (facts S).constraints = [] ∧
      (facts S).id = 0 ∧ (facts S).package = "" := by
    unfold facts NetworkBuilder.forEach NetworkBuilder.request
    simp [NetworkBuilder.append]
  obtain ⟨hnodes, hconstraints, hid, hpackage⟩ := hfacts
  have hscaled : (Score.single 0 1 : Score .simple).scaled Impact.reward.sign =
      .ok (Score.single 0 1) := by decide
  have hlevel : (Score.single 0 1 : Score .simple).singleLevel? = some 0 := by decide
  have e : (facts S).constrain "tally" ⟨0, 0⟩ .reward (Score.single 0 1) weigh =
      .ok (builder weigh) := by
    simp [NetworkBuilder.constrain, NetworkBuilder.check, NetworkBuilder.append,
      NetworkBuilder.connect, builder, hnodes, hconstraints, hid, hpackage, hscaled, hlevel]
  exact ((NetworkBuilder.Declared.start 0 "").forEach 0).constrain e

theorem stage?_builder {i : Nat} {stage : Stage S .simple}
    (h : stage? (builder weigh).nodes i = some stage) :
    stage = .source 0 ∨ stage = .scorer (Score.single 0 1) weigh false := by
  match i, h with
  | 0, h => exact .inl (Option.some.inj h).symm
  | 1, h => exact .inr (Option.some.inj h).symm
  | _ + 2, h => cases h

end

/-- What the plan says of a fact. -/
def said (plan : List Int64) (f : Fact) : Int64 := plan.getD f.index 0

/-- What the plan says of the first fact of a tuple. -/
def weigh (plan : List Int64) (t : Tuple) : Checked Int64 :=
  .ok ((t.fact? 0).elim 0 (said plan))

theorem weigh_local : LocalTo said weigh := by
  intro p q t ht
  unfold weigh
  cases hf : t.fact? 0 with
  | none => rfl
  | some f => exact congrArg Except.ok (ht f (Tuple.mem_facts_of_fact? hf))

end Tally

/-- One fact is inserted, and the session is settled. -/
theorem Session.History.settle_agrees_tally :
    (∃ s', Session.settle [5] ((Session.new (Tally.network Tally.weigh)).tell (.insert ⟨0, 0⟩)) =
      .error .overflow s') ∨
      ∃ count s' score totals,
        Session.settle [5] ((Session.new (Tally.network Tally.weigh)).tell (.insert ⟨0, 0⟩)) =
          .ok count s' ∧ s'.isSettled ∧
        Session.settledScore [5] ((Session.new (Tally.network Tally.weigh)).tell (.insert ⟨0, 0⟩)) =
          .ok score s' ∧
        Session.constraintTotals [5]
          ((Session.new (Tally.network Tally.weigh)).tell (.insert ⟨0, 0⟩)) = .ok totals s' ∧
        Reference.evaluate (Tally.builder Tally.weigh).nodes (Tally.builder Tally.weigh).constraints
          [5] [⟨0, 0⟩] = .ok (score, totals) := by
  have h : Session.History Tally.said (Tally.network Tally.weigh) _ [] _ :=
    (Session.History.start []).tell (.insert ⟨0, 0⟩)
  refine Session.History.settle_agrees (Tally.builder_declared _) (Tally.build_builder _)
    (fun i stage hs => ?_) h (fun f hf ht => ?_) fun i stage side hs _ t _ => ?_
  · rcases Tally.stage?_builder _ hs with rfl | rfl
    · trivial
    · exact Tally.weigh_local
  · -- The only fact has just been reported.
    have hf' : f = ⟨0, 0⟩ := List.mem_singleton.1 hf
    exact absurd ⟨.insert ⟨0, 0⟩, List.mem_singleton.2 rfl, hf'.symm⟩ ht
  · rcases Tally.stage?_builder _ hs with rfl | rfl
    · trivial
    · exact nofun

end PlanSearch
