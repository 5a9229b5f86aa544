import PlanSearch.Proofs.Network.Delivery

/-!
# Settling

The invariant of a session and what each delivered delta does to it. An input has heard some of what
the output that feeds it has emitted, and the rest is on its way to it; a source has heard some of
what was reported. Hence a session with an empty queue has every input up to date.

    process now p s = .ok () s' → Tracks … (p :: rest) s → Tracks … rest s'         (Tracks.process)
    settle now s = .ok n s' → Tracks … [] s → s'.queue = #[] ∧ Tracks … [] s'        (Tracks.settle)
-/

namespace PlanSearch

open NetworkBuilder (Live)

variable {S : Type} {sh : Shape}

namespace Session

/-- The total of the scorer `i`. -/
def totalAt (s : Session S sh) (i : Nat) : Score sh := (s.stations[i]?).elim .zero Station.total

/-- How far a session has come, with `rest` still to be delivered before its queue. Answers are
those of `now`, or those of `before` on tuples that were not named since; what the inputs hold
consists of facts in `held`, and what is on its way of facts in `known`. -/
structure Tracks (n : Network S sh) (nodes : Array (Node S sh)) (before now : S)
    (held known : Fact → Prop) (roll : Roll) (input : Nat → Side → Feed) (output : Nat → Feed)
    (rest : List Pending) (s : Session S sh) : Prop where
  network : s.network = n
  stage : ∀ i, (s.stations[i]?).map Station.stage = stage? nodes i
  station : ∀ (i : Nat) station, s.stations[i]? = some station → Live nodes i →
    station.Tracks before now i (input i) (output i)
  edge : ∀ q e, Feeds n.nodes q e → output q =
    (input e.target e.side).hearAll (arriving (rest ++ s.queue.toList) e.target e.side)
  inputOver : ∀ i stage side, stage? nodes i = some stage → side ∈ stage.inputs → Live nodes i →
    (input i side).Over (inputLayout nodes i side) held
  source : ∀ (i : Nat) family m, s.stations[i]? = some (.source family m) → Live nodes i →
    m.Awaits i family (output i) (arriving (rest ++ s.queue.toList) i .left) roll known
  pending : ∀ p ∈ rest ++ s.queue.toList, Live nodes p.target ∧
    ∃ stage, stage? nodes p.target = some stage ∧
      ((p.side = .left ∧ ∃ family, stage = .source family) ∨
        (p.side ∈ stage.inputs ∧
          ∀ t, p.delta.tuple? = some t → t.Over (inputLayout nodes p.target p.side) known))
  score : ∀ l, s.score.level l = (n.constraints.map fun c => (s.totalAt c.scorer).level l).sum

/-- What joins combine stays among the known facts, whichever of the two sides moves. -/
def JoinsKnown (nodes : Array (Node S sh)) (held known : Fact → Prop) : Prop :=
  ∀ i leftKey rightKey, stage? nodes i = some (.join leftKey rightKey) → ∀ (side : Side) (t p : Tuple),
    t.Over (inputLayout nodes i side) known → p.Over (inputLayout nodes i side.opposite) held →
      p.Over (inputLayout nodes i side.opposite) known

variable {n : Network S sh} {nodes : Array (Node S sh)} {before now : S} {held known : Fact → Prop}
  {roll : Roll} {input : Nat → Side → Feed} {output : Nat → Feed} {rest : List Pending}
  {s s' : Session S sh} {p : Pending} {station station' : Station S sh} {reply : Reply sh}

/-! ## Scores -/

theorem sum_update {is : List Nat} (h : is.Nodup) {f g : Nat → Int} {i : Nat}
    (hfg : ∀ j, j ≠ i → g j = f j) (hi : i ∈ is ∨ g i = f i) :
    (is.map g).sum = (is.map f).sum + (g i - f i) := by
  by_cases hm : i ∈ is
  · have hp := List.perm_cons_erase hm
    rw [(hp.map g).sum_eq, (hp.map f).sum_eq, List.map_cons, List.map_cons, List.sum_cons,
      List.sum_cons]
    have hrest : (is.erase i).map g = (is.erase i).map f :=
      List.map_congr_left fun j hj => hfg j (h.mem_erase_iff.1 hj).1
    rw [hrest]
    omega
  · have hrest : is.map g = is.map f :=
      List.map_congr_left fun j hj => hfg j fun e => hm (e ▸ hj)
    rw [hrest, hi.resolve_left hm]
    omega

theorem total_eq_zero (station : Station S sh) (h : ¬ station.stage.isScorer) :
    station.total = .zero := by
  cases station with
  | scorer weight matchWeight watched m => exact absurd rfl h
  | _ => rfl

/-! ## What a delivery replaces -/

section

variable {i : Nat}

theorem getElem?_replaced (hs : s.stations[i]? = some station)
    (hstations : s'.stations = s.stations.setIfInBounds i station') (j : Nat) :
    s'.stations[j]? = if j = i then some station' else s.stations[j]? := by
  have hlt : i < s.stations.size := (Array.getElem?_eq_some_iff.1 hs).1
  rw [hstations, Array.getElem?_setIfInBounds]
  by_cases hj : j = i
  · simp [hj, hlt]
  · have hj' : i ≠ j := fun e => hj e.symm
    simp [hj, hj']

theorem stage_replaced (hs : s.stations[i]? = some station)
    (hstations : s'.stations = s.stations.setIfInBounds i station')
    (hstage : station'.stage = station.stage) (j : Nat) :
    (s'.stations[j]?).map Station.stage = (s.stations[j]?).map Station.stage := by
  rw [getElem?_replaced hs hstations]
  split
  · next hj =>
    rw [hj, hs]
    exact congrArg some hstage
  · rfl

/-- The totals of all constraints grow by as much as that of the station does. -/
theorem sum_totals_replaced (hn : n.Carries nodes) (hs : s.stations[i]? = some station)
    (hstations : s'.stations = s.stations.setIfInBounds i station')
    (hnode : stage? nodes i = some station.stage) (hstage : station'.stage = station.stage)
    {l : Nat} {gain : Int} (hgain : station'.total.level l = station.total.level l + gain) :
    (n.constraints.map fun c => (s'.totalAt c.scorer).level l).sum =
      (n.constraints.map fun c => (s.totalAt c.scorer).level l).sum + gain := by
  have htotal : ∀ j, (s'.totalAt j).level l =
      if j = i then station'.total.level l else (s.totalAt j).level l := fun j => by
    unfold totalAt
    rw [getElem?_replaced hs hstations]
    split <;> rfl
  have hold : (s.totalAt i).level l = station.total.level l := by
    unfold totalAt
    rw [hs]
    rfl
  have hnew : (s'.totalAt i).level l = station'.total.level l := by rw [htotal, if_pos rfl]
  have hchanges : i ∈ n.constraints.map (·.scorer) ∨
      (s'.totalAt i).level l = (s.totalAt i).level l := by
    by_cases hsc : station.stage.isScorer
    · exact .inl ((hn.scorer _).2 ⟨station.stage, hnode, hsc⟩)
    · right
      rw [hnew, hold, total_eq_zero station hsc, total_eq_zero station' (by rw [hstage]; exact hsc)]
  have hdiff : (s'.totalAt i).level l - (s.totalAt i).level l = gain := by
    rw [hnew, hold, hgain]
    omega
  have hsum := sum_update hn.scorers (f := fun j => (s.totalAt j).level l)
    (g := fun j => (s'.totalAt j).level l) (fun j hj => by rw [htotal, if_neg hj]) hchanges
  rw [List.map_map, List.map_map, hdiff] at hsum
  exact hsum

/-- What a node emits is never on its way to a source. -/
theorem arriving_emitted_source (hn : n.Carries nodes) {j family : Nat}
    (hj : stage? nodes j = some (.source family)) (ds : List Delta) :
    arriving (emitted n i ds) j .left = [] := by
  refine arriving_emitted_of_not _ fun he => ?_
  obtain ⟨stage, hst, hside⟩ := hn.wired.listened _ _ ((hn.feeds _ _).1 he).1
  rw [hj] at hst
  cases hst
  cases hside

/-- What a node emits is on its way to inputs that hold tuples of its layout. -/
theorem emitted_over (hn : n.Carries nodes) {ds : List Delta}
    (hds : ∀ d ∈ ds, ∀ t, d.tuple? = some t → t.Over (layout nodes i) known) {q : Pending}
    (hq : q ∈ emitted n i ds) :
    Live nodes q.target ∧ ∃ stage, stage? nodes q.target = some stage ∧ q.side ∈ stage.inputs ∧
      ∀ t, q.delta.tuple? = some t → t.Over (inputLayout nodes q.target q.side) known := by
  obtain ⟨he, hd⟩ := mem_emitted.1 hq
  obtain ⟨hfeeds, hlive⟩ := (hn.feeds _ _).1 he
  obtain ⟨stage, hst, hside⟩ := hn.wired.listened _ _ hfeeds
  refine ⟨hlive, stage, hst, hside, fun t ht => ?_⟩
  rw [inputLayout_eq hn.wired hfeeds]
  exact hds q.delta hd t ht

end

/-! ## One delivery -/

section

variable (h : Tracks n nodes before now held known roll input output (p :: rest) s)
  (hn : n.Carries nodes) {input' : Nat → Side → Feed} (hs : s.stations[p.target]? = some station)

include h hn hs

/-- An edge still brings what its node emits, be it the node that the delivery reaches or not. -/
theorem Tracks.edge_deliver
    (hinput : ∀ i, i ≠ p.target → input' i = input i)
    (hheard : ∀ side ∈ station.stage.inputs, ∀ ds,
      (input' p.target side).hearAll (arriving rest p.target side ++ ds) =
        (input p.target side).hearAll (arriving (p :: rest) p.target side ++ ds))
    {q : Nat} {e : Edge} (he : Feeds n.nodes q e) (ds : List Delta) :
    Function.update output p.target ((output p.target).hearAll ds) q =
      (input' e.target e.side).hearAll
        (arriving (rest ++ s.queue.toList ++ emitted n p.target ds) e.target e.side) := by
  have hfeeds : ∀ q e, Feeds n.nodes q e → Feeds nodes q e := fun q e he => ((hn.feeds q e).1 he).1
  have hforward := hn.wired.forward q e (hfeeds q e he)
  have hold := h.edge q e he
  rw [arriving_append]
  by_cases hq : q = p.target
  · -- The target of the delta emits: its children have what it emits on their way.
    subst hq
    have hne : e.target ≠ p.target := by omega
    rw [Function.update_self, arriving_emitted ds he (hn.nodup _), hinput _ hne, hold,
      List.cons_append, arriving_cons_of_ne _ fun e' => hne e'.1.symm, Feed.hearAll_append]
  · have hnot : ¬ Feeds n.nodes p.target e := fun he' =>
      hq (hn.wired.unique q p.target e (hfeeds q e he) (hfeeds _ e he'))
    rw [Function.update_of_ne hq, arriving_emitted_of_not ds hnot, List.append_nil, hold]
    by_cases ht : e.target = p.target
    · obtain ⟨stage, hst, hside⟩ := hn.wired.listened q e (hfeeds q e he)
      rw [ht, ← h.stage, hs] at hst
      cases hst
      rw [ht, List.cons_append, ← List.cons_append, arriving_append, arriving_append]
      exact (hheard e.side hside _).symm
    · rw [hinput _ ht, List.cons_append, arriving_cons_of_ne _ fun e' => ht e'.1.symm]

/-- A delivery keeps the invariant if the target has heard its delta and replied to it. -/
theorem Tracks.deliver (hstage : station'.stage = station.stage)
    (hnetwork : s'.network = s.network)
    (hstations : s'.stations = s.stations.setIfInBounds p.target station')
    (hqueue : s'.queue.toList = s.queue.toList ++ emitted s.network p.target reply.deltas)
    (hscore : ∀ l, s'.score.level l = s.score.level l + reply.gain l)
    (hgain : ∀ l, station'.total.level l = station.total.level l + reply.gain l)
    (htracks : station'.Tracks before now p.target (input' p.target)
      ((output p.target).hearAll reply.deltas))
    (hinput : ∀ i, i ≠ p.target → input' i = input i)
    (hheard : ∀ side ∈ station.stage.inputs, ∀ ds,
      (input' p.target side).hearAll (arriving rest p.target side ++ ds) =
        (input p.target side).hearAll (arriving (p :: rest) p.target side ++ ds))
    (hover : ∀ side ∈ station.stage.inputs,
      (input' p.target side).Over (inputLayout nodes p.target side) held)
    (hsource : ∀ family m, station' = .source family m →
      m.Awaits p.target family ((output p.target).hearAll reply.deltas)
        (arriving (rest ++ s.queue.toList) p.target .left) roll known)
    (hemitted : ∀ d ∈ reply.deltas, ∀ t, d.tuple? = some t → t.Over (layout nodes p.target) known) :
    Tracks n nodes before now held known roll input'
      (Function.update output p.target ((output p.target).hearAll reply.deltas)) rest s' := by
  have hget := getElem?_replaced hs hstations
  have hnode : stage? nodes p.target = some station.stage := by rw [← h.stage, hs]; rfl
  have hpending : rest ++ s'.queue.toList =
      rest ++ s.queue.toList ++ emitted n p.target reply.deltas := by
    rw [hqueue, h.network, List.append_assoc]
  refine ⟨hnetwork.trans h.network, fun i => ?_, fun i st hi hl => ?_, fun q e he => ?_,
    fun i stage side hst hside hl => ?_, fun i family m hi hl => ?_, fun q hq => ?_, fun l => ?_⟩
  · exact (stage_replaced hs hstations hstage i).trans (h.stage i)
  · rw [hget] at hi
    split at hi
    · next hit =>
      cases hi
      subst hit
      rw [Function.update_self]
      exact htracks
    · next hit =>
      rw [Function.update_of_ne hit, hinput i hit]
      exact h.station i st hi hl
  · rw [hpending]
    exact h.edge_deliver hn hs hinput hheard he reply.deltas
  · by_cases hi : i = p.target
    · subst hi
      cases hnode.symm.trans hst
      exact hover side hside
    · rw [hinput i hi]
      exact h.inputOver i stage side hst hside hl
  · rw [hget] at hi
    rw [hpending, arriving_append]
    split at hi
    · next hit =>
      cases hi
      subst hit
      rw [Function.update_self, arriving_emitted_source hn (by rw [hnode, ← hstage]; rfl),
        List.append_nil]
      exact hsource family m rfl
    · next hit =>
      rw [Function.update_of_ne hit, arriving_emitted_source hn (by rw [← h.stage, hi]; rfl),
        List.append_nil]
      have hold := h.source i family m hi hl
      rwa [List.cons_append, arriving_cons_of_ne _ fun e' => hit e'.1.symm] at hold
  · rw [hpending] at hq
    rcases List.mem_append.1 hq with hq | hq
    · exact h.pending q (List.mem_cons_of_mem _ hq)
    · obtain ⟨hlive, stage, hst, hside, hover⟩ := emitted_over hn hemitted hq
      exact ⟨hlive, stage, hst, .inr ⟨hside, hover⟩⟩
  · rw [hscore, h.score, sum_totals_replaced hn hs hstations hnode hstage (hgain l)]

end

theorem Tracks.station_of_pending
    (h : Tracks n nodes before now held known roll input output (p :: rest) s) :
    ∃ station, s.stations[p.target]? = some station := by
  obtain ⟨-, stage, hst, -⟩ := h.pending p (by simp)
  rw [← h.stage] at hst
  obtain ⟨station, hs, -⟩ := Option.map_eq_some_iff.1 hst
  exact ⟨station, hs⟩

theorem Tracks.process_source {family : Nat} {m : SourceMemory}
    (h : Tracks n nodes before now held known roll input output (p :: rest) s)
    (hn : n.Carries nodes) (hs : s.stations[p.target]? = some (.source family m))
    (hside : p.side = .left) (e : process now p s = .ok () s') :
    ∃ output', Tracks n nodes before now held known roll input output' rest s' := by
  obtain ⟨reply, station', hr, hnetwork, hstations, hqueue, hscore⟩ := process_eq_ok e hs
  have hlive : Live nodes p.target := (h.pending p (by simp)).1
  have htracks : SourceMemory.Tracks family p.target m (output p.target) :=
    h.station p.target _ hs hlive
  have hawaits := h.source p.target family m hs hlive
  rw [List.cons_append, ← hside, arriving_cons_self] at hawaits
  obtain ⟨htracks', hawaits', hout⟩ := hawaits.receive htracks
  obtain ⟨rfl, rfl⟩ : reply = .pass (m.receive p.target p.delta).2 ∧
      station' = .source family (m.receive p.target p.delta).1 := by
    cases hr
    exact ⟨rfl, rfl⟩
  have hst : (Station.source family (m.receive p.target p.delta).1 : Station S sh).stage =
      (Station.source family m : Station S sh).stage := rfl
  refine ⟨_, h.deliver hn hs hst hnetwork hstations hqueue hscore
    (fun l => (Int.add_zero _).symm) htracks' (fun _ _ => rfl) nofun nofun
    (fun family' m' em => ?_) ?_⟩
  · cases em
    rw [hside] at hawaits'
    exact hawaits'
  · intro d hd t ht
    rw [layout_eq (by rw [← h.stage, hs]; rfl)]
    exact hout d hd t ht

theorem Tracks.process_other {stage : Stage S sh}
    (h : Tracks n nodes before now held known roll input output (p :: rest) s)
    (hn : n.Carries nodes) (hk : ∀ f, known f → held f) (hj : JoinsKnown nodes held known)
    (hs : s.stations[p.target]? = some station) (hstage : station.stage = stage)
    (hside : p.side ∈ stage.inputs)
    (hover : ∀ t, p.delta.tuple? = some t → t.Over (inputLayout nodes p.target p.side) known)
    (e : process now p s = .ok () s') :
    ∃ input' output', Tracks n nodes before now held known roll input' output' rest s' := by
  obtain ⟨reply, station', hr, hnetwork, hstations, hqueue, hscore⟩ := process_eq_ok e hs
  have hlive : Live nodes p.target := (h.pending p (by simp)).1
  have htracks := h.station p.target station hs hlive
  subst hstage
  have hstage : stage? nodes p.target = some station.stage := by rw [← h.stage, hs]; rfl
  have hheard : ∀ side, (Function.update input p.target (Function.update (input p.target) p.side
      ((input p.target p.side).hear p.delta))) p.target side =
        if side = p.side then (input p.target p.side).hear p.delta else input p.target side :=
    fun side => by rw [Function.update_self, Function.update_apply]
  have hoverHeld : ∀ t, p.delta.tuple? = some t →
      t.Over (inputLayout nodes p.target p.side) held := fun t ht =>
    ⟨(hover t ht).1, fun f hf => hk f ((hover t ht).2 f hf)⟩
  have hin := h.inputOver p.target station.stage
  obtain ⟨hst, htracks', hgain⟩ := htracks.receive hside
    (fun i t ht => (hin p.side hstage hside hlive i t ht).2.1.length)
    (fun t ht => (hover t ht).1.length) hr
  refine ⟨Function.update input p.target (Function.update (input p.target) p.side
    ((input p.target p.side).hear p.delta)), _, h.deliver hn hs hst hnetwork hstations hqueue hscore
    hgain ?_ (fun i hi => Function.update_of_ne hi ..) (fun side _ ds => ?_) (fun side hs' => ?_)
    (fun family m em => ?_) ?_⟩
  · rw [Function.update_self]
    exact htracks'
  · rw [hheard]
    split
    · next hs' =>
      rw [hs', arriving_cons_self, List.cons_append, Feed.hearAll_cons]
    · next hs' => rw [arriving_cons_of_ne _ fun e' => hs' e'.2.symm]
  · rw [hheard]
    split
    · next hs'' =>
      rw [hs'']
      exact (hin p.side hstage hside hlive).hear hoverHeld
    · exact hin side hstage hs' hlive
  · rw [em] at hst
    rw [← hst] at hside
    cases hside
  · rw [layout_eq hstage]
    refine htracks.over hside hover (fun t ht leftKey rightKey hj' i q hq => ?_) hr
    have hopposite : p.side.opposite ∈ station.stage.inputs := by
      rw [hj']
      cases p.side <;> simp [Stage.inputs, Side.opposite]
    have hqo := (hin _ hstage hopposite hlive i q hq).2
    rw [hj'] at hstage
    exact hj _ _ _ hstage p.side t q (hover t ht) hqo

/-- The invariant is kept by the delivery of one delta. -/
theorem Tracks.process (h : Tracks n nodes before now held known roll input output (p :: rest) s)
    (hn : n.Carries nodes) (hk : ∀ f, known f → held f) (hj : JoinsKnown nodes held known)
    (e : Session.process now p s = .ok () s') :
    ∃ input' output', Tracks n nodes before now held known roll input' output' rest s' := by
  obtain ⟨station, hs⟩ := h.station_of_pending
  obtain ⟨-, stage, hst, hp⟩ := h.pending p (by simp)
  rw [← h.stage, hs, Option.map_some, Option.some.injEq] at hst
  rcases hp with ⟨hside, family, rfl⟩ | ⟨hside, hover⟩
  · cases station with
    | source family' m =>
      obtain ⟨output', h'⟩ := h.process_source hn hs hside e
      exact ⟨input, output', h'⟩
    | _ => cases hst
  · exact h.process_other hn hk hj hs hst hside hover e

/-- All functions that are asked on an input are defined on tuples of known facts. -/
def DefinedOn (nodes : Array (Node S sh)) (known : Fact → Prop) (plan : S) : Prop :=
  ∀ i stage side, stage? nodes i = some stage → side ∈ stage.inputs →
    ∀ t, t.Over (inputLayout nodes i side) known → stage.DefinedAt plan side t

theorem Tracks.process_error {f : Fault}
    (h : Tracks n nodes before now held known roll input output (p :: rest) s)
    (hd : DefinedOn nodes known now) (e : Session.process now p s = .error f s') :
    f = .overflow := by
  obtain ⟨station, hs⟩ := h.station_of_pending
  obtain ⟨-, stage, hst, hp⟩ := h.pending p (by simp)
  have hst' := hst
  rw [← h.stage, hs, Option.map_some, Option.some.injEq] at hst'
  obtain ⟨station', -, -, -, -, hr | ⟨hf, -⟩⟩ := process_eq_error e hs
  · rcases hp with ⟨-, family, rfl⟩ | ⟨hside, hover⟩
    · cases station with
      | source family' m => cases hr
      | _ => cases hst'
    · subst hst'
      exact Station.receive_error hside (fun t ht => hd _ _ _ hst hside t (hover t ht)) hr
  · exact hf

/-! ## Runs -/

theorem Tracks.drain (h : Tracks n nodes before now held known roll input output rest s)
    (hn : n.Carries nodes) (hk : ∀ f, known f → held f) (hj : JoinsKnown nodes held known)
    (e : Session.drain now rest s = .ok () s') :
    ∃ input' output', Tracks n nodes before now held known roll input' output' [] s' := by
  induction rest generalizing s input output with
  | nil =>
    cases e
    exact ⟨input, output, h⟩
  | cons p rest ih =>
    unfold Session.drain at e
    split at e
    · next s₁ hp =>
      obtain ⟨input₁, output₁, h₁⟩ := h.process hn hk hj hp
      exact ih h₁ e
    · cases e

theorem Tracks.drain_error {f : Fault}
    (h : Tracks n nodes before now held known roll input output rest s)
    (hn : n.Carries nodes) (hk : ∀ f, known f → held f) (hj : JoinsKnown nodes held known)
    (hd : DefinedOn nodes known now) (e : Session.drain now rest s = .error f s') :
    f = .overflow := by
  induction rest generalizing s input output with
  | nil => cases e
  | cons p rest ih =>
    unfold Session.drain at e
    split at e
    · next s₁ hp =>
      obtain ⟨input₁, output₁, h₁⟩ := h.process hn hk hj hp
      exact ih h₁ e
    · next hp =>
      cases e
      exact h.process_error hd hp

theorem Tracks.take_queue (h : Tracks n nodes before now held known roll input output [] s) :
    Tracks n nodes before now held known roll input output s.queue.toList { s with queue := #[] } := by
  have hq : s.queue.toList ++ (#[] : Array Pending).toList = [] ++ s.queue.toList := by simp
  exact ⟨h.network, h.stage, h.station, fun q e he => by rw [hq]; exact h.edge q e he, h.inputOver,
    fun i family m hi hl => by rw [hq]; exact h.source i family m hi hl,
    fun p hp => h.pending p (by rw [hq] at hp; exact hp), h.score⟩

theorem Tracks.settleRounds {k count : Nat}
    (h : Tracks n nodes before now held known roll input output [] s)
    (hn : n.Carries nodes) (hk : ∀ f, known f → held f) (hj : JoinsKnown nodes held known)
    (e : Session.settleRounds now k s = .ok count s') :
    ∃ input' output', Tracks n nodes before now held known roll input' output' [] s' := by
  induction k generalizing s input output count with
  | zero =>
    cases e
    exact ⟨input, output, h⟩
  | succ k ih =>
    unfold Session.settleRounds at e
    split at e
    · cases e
      exact ⟨input, output, h⟩
    · split at e
      · cases e
      · next s₁ hd =>
        obtain ⟨input₁, output₁, h₁⟩ := h.take_queue.drain hn hk hj hd
        split at e
        · cases e
        · next he =>
          cases e
          exact ih h₁ he

theorem Tracks.settleRounds_error {k : Nat} {f : Fault}
    (h : Tracks n nodes before now held known roll input output [] s)
    (hn : n.Carries nodes) (hk : ∀ f, known f → held f) (hj : JoinsKnown nodes held known)
    (hd : DefinedOn nodes known now) (e : Session.settleRounds now k s = .error f s') :
    f = .overflow := by
  induction k generalizing s input output with
  | zero => cases e
  | succ k ih =>
    unfold Session.settleRounds at e
    split at e
    · cases e
    · split at e
      · next hdr =>
        cases e
        exact h.take_queue.drain_error hn hk hj hd hdr
      · next s₁ hdr =>
        obtain ⟨input₁, output₁, h₁⟩ := h.take_queue.drain hn hk hj hdr
        split at e
        · next he =>
          cases e
          exact ih h₁ he
        · cases e

/-! ## The queue runs empty -/

theorem Tracks.heads (h : Tracks n nodes before now held known roll input output [] s)
    (hn : n.Carries nodes) : s.Heads n where
  network := h.network
  target q hq := by
    obtain ⟨-, stage, hst, -⟩ := h.pending q hq
    exact hn.size ▸ lt_size_of_stage? hst

/-- Settling delivers everything that is queued and everything that follows from it. -/
theorem Tracks.settle {count : Nat} (h : Tracks n nodes before now held known roll input output [] s)
    (hn : n.Carries nodes) (hk : ∀ f, known f → held f) (hj : JoinsKnown nodes held known)
    (e : Session.settle now s = .ok count s') :
    s'.queue = #[] ∧
      ∃ input' output', Tracks n nodes before now held known roll input' output' [] s' := by
  exact ⟨settle_queue (h.heads hn) hn.ascends e, h.settleRounds hn hk hj e⟩

end Session

end PlanSearch
