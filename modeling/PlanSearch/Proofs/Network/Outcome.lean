import PlanSearch.Proofs.Network.Strains
import PlanSearch.Proofs.Workspace.Incremental

/-!
# Settled or overflowed

Settling delivers one delta after another, and each delivery succeeds unless its station strains.
Where the problem's functions answer and the score from scratch fits, a session settles to that
score unless a delivery on the way strains, in which case it overflows. It can overflow where the
score from scratch fits: a debt of one point that turns into the greatest value is a difference that
does not fit.

    (∃ f t, s.Stops now f t) ↔ s.Strained now                                    (Tracks.stops_iff)
    Fails (settle now) s ↔ ∃ k r, Deliveries now k s r ∧ r.Strained now   (Tracks.settle_fails_iff)
    (∃ s', settledScore plan s = .ok full s' ∧ …) ↔ ∀ k r, Deliveries plan k s r → ¬ r.Strained plan
                                                                   (settledScore_eq_fullScore_iff)
-/

namespace PlanSearch

open Std (HashMap)
open Step (Fails)

variable {S : Type} {sh : Shape} {γ : Type} {before now : S}

/-! ## Sessions -/

namespace Session

variable {n : Network S sh} {nodes : Array (Node S sh)} {held known : Fact → Prop} {roll : Roll}
  {input : Nat → Side → Feed} {output : Nat → Feed} {rest : List Pending} {s t : Session S sh}
  {p : Pending} {station : Station S sh}

/-- All functions that are asked on an input answer, on any tuples that can arrive there. -/
def AnswersOn (nodes : Array (Node S sh)) (plan : S) : Prop :=
  ∀ i stage side, stage? nodes i = some stage → side ∈ stage.inputs →
    ∀ t, t.Fits (inputLayout nodes i side) → stage.AnswersAt plan side t

/-- All functions that are asked on an input answer, on any tuples of known facts that can arrive
there. -/
def AnswersOver (nodes : Array (Node S sh)) (known : Fact → Prop) (plan : S) : Prop :=
  ∀ i stage side, stage? nodes i = some stage → side ∈ stage.inputs →
    ∀ t, t.Over (inputLayout nodes i side) known → stage.AnswersAt plan side t

theorem AnswersOn.over {plan : S} (h : AnswersOn nodes plan) (known : Fact → Prop) :
    AnswersOver nodes known plan :=
  fun i stage side hst hside t ht => h i stage side hst hside t ht.1

theorem AnswersOver.definedOn {plan : S} (h : AnswersOver nodes known plan) :
    DefinedOn nodes known plan :=
  fun i stage side hst hside t ht => (h i stage side hst hside t ht).definedAt

/-- The station that the oldest delta leads to strains. -/
def Strained (plan : S) (s : Session S sh) : Prop :=
  ∃ p rest station, s.queue.toList = p :: rest ∧ s.stations[p.target]? = some station ∧
    station.Strains plan s.score p.delta

theorem process_fails_iff (hs : s.stations[p.target]? = some station) :
    Fails (process now p) s ↔ Fails (Station.step now p.target p.side p.delta s.score) station := by
  cases hr : Station.receive now p.target p.side p.delta station with
  | error f station' =>
    have hprocess : Fails (process now p) s := by
      unfold Fails process
      simp [hs, hr]
    exact iff_of_true hprocess ⟨f, station', Step.bind_error hr⟩
  | ok reply station' =>
    have hstep : Station.step now p.target p.side p.delta s.score station =
        Step.ofChecked (reply.enter s.score) station' := Step.bind_ok hr
    unfold Fails
    rw [hstep]
    refine Iff.trans ?_ Step.ofChecked_fails_iff.symm
    unfold process absorb
    simp only [hs, hr]
    cases reply with
    | pass out => simp [Reply.enter]
    | change d =>
      dsimp only [Reply.enter]
      cases s.score.add d <;> simp

theorem Tracks.process_fails_iff_strains
    (h : Tracks n nodes before now held known roll input output (p :: rest) s)
    (ha : AnswersOver nodes known now) (hs : s.stations[p.target]? = some station) :
    Fails (Session.process now p) s ↔ station.Strains now s.score p.delta := by
  obtain ⟨hlive, stage, hst, hp⟩ := h.pending p (by simp)
  have hstage := hst
  rw [← h.stage, hs, Option.map_some, Option.some.injEq] at hst
  rw [Session.process_fails_iff hs]
  rcases hp with ⟨-, family, rfl⟩ | ⟨hside, hover⟩
  · cases station with
    | source family' m => exact iff_of_false (Station.not_fails_of_pass rfl) id
    | _ => cases hst
  · subst hst
    exact (h.station p.target station hs hlive).step_fails_iff_strains hside fun t ht =>
      ha _ _ _ hstage hside t (hover t ht)

/-- The oldest delta is taken from the queue. -/
theorem Tracks.take_head (h : Tracks n nodes before now held known roll input output [] s)
    (hq : s.queue.toList = p :: rest) :
    Tracks n nodes before now held known roll input output [p]
      { s with queue := rest.toArray } := by
  have hq' : [p] ++ rest.toArray.toList = [] ++ s.queue.toList := by simp [hq]
  exact ⟨h.network, h.stage, h.station, fun q e he => by rw [hq']; exact h.edge q e he, h.inputOver,
    fun i family m hi hl => by rw [hq']; exact h.source i family m hi hl,
    fun q hmem => h.pending q (by rwa [hq'] at hmem), h.score⟩

/-- A delivery fails exactly if it strains. -/
theorem Tracks.stops_iff (h : Tracks n nodes before now held known roll input output [] s)
    (ha : AnswersOver nodes known now) : (∃ f t, s.Stops now f t) ↔ s.Strained now := by
  constructor
  · rintro ⟨f, t, hstops⟩
    obtain ⟨p, rest, hq, e⟩ := hstops.head
    have hp := h.take_head hq
    obtain ⟨station, hs⟩ := hp.station_of_pending
    exact ⟨p, rest, station, hq, hs, (hp.process_fails_iff_strains ha hs).1 ⟨f, t, e⟩⟩
  · rintro ⟨p, rest, station, hq, hs, hstrains⟩
    obtain ⟨f, t, e⟩ := ((h.take_head hq).process_fails_iff_strains ha hs).2 hstrains
    have hne : s.queue ≠ #[] := fun hempty => by
      rw [hempty] at hq
      cases hq
    refine ⟨f, t, hne, ?_⟩
    unfold Session.deliver
    rw [hq]
    exact e

theorem Tracks.delivers (h : Tracks n nodes before now held known roll input output [] s)
    (hn : n.Carries nodes) (hk : ∀ f, known f → held f) (hj : JoinsKnown nodes held known)
    (e : s.Delivers now t) :
    ∃ input' output', Tracks n nodes before now held known roll input' output' [] t := by
  obtain ⟨p, rest, hq, e⟩ := e.head
  exact (h.take_head hq).process hn hk hj e

theorem Tracks.deliveries {k : Nat}
    (h : Tracks n nodes before now held known roll input output [] s) (hn : n.Carries nodes)
    (hk : ∀ f, known f → held f) (hj : JoinsKnown nodes held known)
    (e : Deliveries now k s t) :
    ∃ input' output', Tracks n nodes before now held known roll input' output' [] t := by
  induction e generalizing input output with
  | nil s => exact ⟨input, output, h⟩
  | cons hd _ ih =>
    obtain ⟨input₁, output₁, h₁⟩ := h.delivers hn hk hj hd
    exact ih h₁

/-- Settling fails exactly if a delivery fails on the way, as all runs are parts of one. -/
theorem settle_fails_iff (h : s.Heads n) (hn : n.Ascends) (plan : S) :
    Fails (settle plan) s ↔ ∃ k r, Deliveries plan k s r ∧ ∃ f t, r.Stops plan f t := by
  constructor
  · rintro ⟨f, t, e⟩
    rcases settle_ends h hn plan with ⟨k, u, hok, -⟩ | ⟨f', u, -, k, r, hr, hstops⟩
    · rw [hok] at e
      cases e
    · exact ⟨k, r, hr, f', u, hstops⟩
  · rintro ⟨j, r, hr, f, u, hstops⟩
    rcases settle_ends h hn plan with ⟨k, t, -, ht, hq⟩ | ⟨f', t, e, -⟩
    · obtain ⟨i, -, hi⟩ := ht.rest hq hr
      cases hi with
      | nil => exact absurd hq hstops.1
      | cons hd _ =>
        have heq := hstops.2.symm.trans hd.2
        cases heq
    · exact ⟨f', t, e⟩

/-- Settling fails exactly if a delivery strains on the way. -/
theorem Tracks.settle_fails_iff (h : Tracks n nodes before now held known roll input output [] s)
    (hn : n.Carries nodes) (hk : ∀ f, known f → held f) (hj : JoinsKnown nodes held known)
    (ha : AnswersOver nodes known now) :
    Fails (Session.settle now) s ↔ ∃ k r, Deliveries now k s r ∧ r.Strained now := by
  rw [Session.settle_fails_iff (h.heads hn) hn.ascends]
  refine exists_congr fun k => exists_congr fun r => and_congr_right fun hr => ?_
  obtain ⟨input', output', h'⟩ := h.deliveries hn hk hj hr
  exact h'.stops_iff ha

/-- Where no state that the invariant allows strains, settling succeeds. -/
theorem Tracks.settles (h : Tracks n nodes before now held known roll input output [] s)
    (hn : n.Carries nodes) (hk : ∀ f, known f → held f) (hj : JoinsKnown nodes held known)
    (ha : AnswersOver nodes known now)
    (hr : ∀ input output r, Tracks n nodes before now held known roll input output [] r →
      ¬ r.Strained now) : ∃ count t, Session.settle now s = .ok count t := by
  cases e : Session.settle now s with
  | ok count t => exact ⟨count, t, rfl⟩
  | error f t =>
    obtain ⟨k, r, hrun, hstrained⟩ := (h.settle_fails_iff hn hk hj ha).1 ⟨f, t, e⟩
    obtain ⟨input', output', h'⟩ := h.deliveries hn hk hj hrun
    exact absurd hstrained (hr _ _ r h')

/-! ## Histories -/

variable {contents : S → Fact → γ} {plan plan' : S}

/-- What is faithful to what was told is faithful to what was told of the families that are read. -/
theorem Heard.faithful {roll' : Roll} (h : Heard contents n roll' plan s)
    (hsame : ∀ f, n.Reads f → (f ∈ roll'.present ↔ f ∈ roll.present) ∧
      (roll'.Told f ↔ roll.Told f)) (hfaith : Faithful contents roll plan plan') :
    Faithful contents roll' plan plan' := fun f hf ht => by
  have hread := h.reads f (.inl hf)
  exact hfaith f ((hsame f hread).1.1 hf) fun htold => ht ((hsame f hread).2.2 htold)

/-- Reports on families that are not read leave no trace. -/
theorem History.heard (h : History contents n roll plan s) (hn : n.Carries nodes)
    (hloc : ∀ i stage, stage? nodes i = some stage → stage.Local contents) :
    ∃ roll', Heard contents n roll' plan s ∧ ∀ f, n.Reads f →
      (f ∈ roll'.present ↔ f ∈ roll.present) ∧ (roll'.Told f ↔ roll.Told f) := by
  induction h with
  | start plan => exact ⟨{}, Heard.new contents n plan, fun f _ => ⟨Iff.rfl, Iff.rfl⟩⟩
  | @tell roll plan s h r ih =>
    obtain ⟨roll₁, hheard, hsame⟩ := ih
    obtain ⟨roll₂, hheard₂, htold⟩ := hheard.tell r
    refine ⟨roll₂, hheard₂, fun f hf => ?_⟩
    rw [(htold f hf).1, (htold f hf).2, Roll.mem_present_hear, Roll.told_hear,
      propext (hsame f hf).1, (hsame f hf).2]
    exact ⟨Iff.rfl, Iff.rfl⟩
  | @settle roll plan plan' s s' count h hfaith e ih =>
    obtain ⟨roll₁, hheard, hsame⟩ := ih
    refine ⟨roll₁.settled, hheard.settle hn hloc (hheard.faithful hsame hfaith) e,
      fun f hf => ⟨(hsame f hf).1, ?_⟩⟩
    exact iff_of_false (fun ⟨r, hr, _⟩ => List.not_mem_nil hr) fun ⟨r, hr, _⟩ =>
      List.not_mem_nil hr

/-- Whatever a network of local functions is told, in whatever order and batches: if its functions
answer and the score from scratch fits, the session settles to that score exactly if no delivery
strains on the way, and it overflows exactly if one does. -/
theorem History.settledScore_eq_fullScore_iff [Plan S sh] {b : NetworkBuilder S sh}
    {full : Score sh} (hb : b.Declared) (hbuild : b.build = .ok n)
    (hloc : ∀ i stage, stage? b.nodes i = some stage → stage.Local contents)
    (h : History contents n roll plan s) (hfaith : Faithful contents roll plan plan')
    (ha : AnswersOn b.nodes plan')
    (hpresent : ∀ f, n.Reads f → (f ∈ roll.present ↔ Plan.Has plan' f))
    (hfull : n.fullScore plan' = .ok full) :
    ((∃ s', Session.settledScore plan' s = .ok full s' ∧ s'.isSettled) ↔
        ∀ k r, Deliveries plan' k s r → ¬ r.Strained plan') ∧
      ((∃ s', Session.settledScore plan' s = .error .overflow s') ↔
        ∃ k r, Deliveries plan' k s r ∧ r.Strained plan') := by
  have hn := hb.wellFormed.carries hbuild
  obtain ⟨input, output, ht⟩ := h.tracks hn hloc plan'
  have hall : Tracks n b.nodes plan plan' (fun _ => True) (fun _ => True) roll input output [] s :=
    ht.mono (fun _ _ => trivial) fun _ _ => trivial
  have hjoins : JoinsKnown b.nodes (fun _ => True) fun _ => True :=
    History.joinsKnown_of_imp fun _ _ => trivial
  have hfails := hall.settle_fails_iff hn (fun _ _ => trivial) hjoins (ha.over _)
  cases e : Session.settle plan' s with
  | ok count s' =>
    obtain ⟨roll₁, hheard, hsame⟩ := h.heard hn hloc
    obtain ⟨hq, rfl⟩ := hheard.score_of_settle hn hloc (hheard.faithful hsame hfaith)
      (fun f hf => (hsame f hf).1.trans (hpresent f hf)) hfull e
    have hscore : Session.settledScore plan' s = .ok s'.score s' := Step.bind_ok e
    have hnot : ¬ ∃ k r, Deliveries plan' k s r ∧ r.Strained plan' := by
      rw [← hfails]
      rintro ⟨f, t, e'⟩
      rw [e] at e'
      cases e'
    have hsettled : s'.isSettled := by
      unfold Session.isSettled
      rw [hq]
      rfl
    refine ⟨iff_of_true ⟨s', hscore, hsettled⟩ fun k r hr hs => hnot ⟨k, r, hr, hs⟩,
      iff_of_false ?_ hnot⟩
    rintro ⟨t, e'⟩
    rw [hscore] at e'
    cases e'
  | error f s' =>
    obtain rfl := hall.settleRounds_error hn (fun _ _ => trivial) hjoins (ha.over _).definedOn e
    have hscore : Session.settledScore plan' s = .error .overflow s' := Step.bind_error e
    obtain ⟨k, r, hr, hs⟩ := hfails.1 ⟨_, s', e⟩
    refine ⟨iff_of_false ?_ fun hnot => hnot k r hr hs, iff_of_true ⟨s', hscore⟩ ⟨k, r, hr, hs⟩⟩
    rintro ⟨t, e', -⟩
    rw [hscore] at e'
    cases e'

end Session

/-! ## A row with a debt -/

namespace Row

/-- The value of the first fact of a tuple; an empty cell costs a point. -/
def worth (row : Row) (t : Tuple) : Checked Int64 :=
  .ok ((t.fact? 0).elim 0 fun f => ((row.entry f).getD none).elim (-1) Int64.ofNat)

theorem local_worth (i : Nat) (stage : Stage Row .simple)
    (h : stage? (Tally.builder worth).nodes i = some stage) : stage.Local entry := by
  rcases Tally.stage?_builder _ h with rfl | rfl
  · trivial
  · intro row row' t ht
    unfold worth
    cases hf : t.fact? 0 with
    | none => rfl
    | some f =>
      dsimp only [Option.elim_some]
      rw [ht f (Tuple.mem_facts_of_fact? hf)]

theorem answersOn_worth (row : Row) : Session.AnswersOn (Tally.builder worth).nodes row := by
  intro i stage side h _ t _
  rcases Tally.stage?_builder _ h with rfl | rfl
  · trivial
  · exact ⟨_, rfl⟩

/-- A session with one match, which is worth `w`. -/
def counted (w : Int64) : Session Row .simple where
  network := Tally.network worth
  stations := #[.source 0 ((∅ : SourceMemory).insert ⟨0, 0⟩),
    .scorer (Score.single 0 1) worth false
      { matched := (∅ : HashMap TupleId (Score .simple)).insert [.fact ⟨0, 0⟩] (Score.single 0 w)
        total := Score.single 0 w }]
  score := Score.single 0 w

theorem scaled_one (w : Int64) :
    (Score.single 0 1 : Score .simple).scaled w = .ok (Score.single 0 w) :=
  Score.scaled_eq_ok_iff.2 (by simp [Score.exact, Score.single, Shape.size, Shape.levels])

/-- The first fact of a session is counted for what it is worth. -/
theorem settle_first {row : Row} {w : Int64}
    (hw : worth row (Tuple.ofFact ⟨0, 0⟩ 0) = .ok w) :
    Session.settle row ((Session.new (Tally.network worth)).tell (.insert ⟨0, 0⟩)) =
      .ok 2 (counted w) := by
  have hsub : (Score.single 0 w : Score .simple).sub .zero = .ok (Score.single 0 w) :=
    Score.sub_eq_ok_iff.2
      (by simp [Score.exact, Score.single, Score.zero, Shape.size, Shape.levels])
  have hadd : (Score.zero : Score .simple).add (Score.single 0 w) = .ok (Score.single 0 w) :=
    Score.add_eq_ok_iff.2
      (by simp [Score.exact, Score.single, Score.zero, Shape.size, Shape.levels])
  have hsession : (Session.new (Tally.network worth)).tell (.insert ⟨0, 0⟩) =
      { network := Tally.network worth
        stations := (Tally.network worth).nodes.map (fun n => Station.ofStage n.stage)
        queue := #[⟨0, .left, .insert (Tuple.ofFact ⟨0, 0⟩ 0)⟩] } := rfl
  rw [hsession]
  rw [Tuple.ofFact] at hw
  simp [Session.settle, Tally.network, Tally.builder, Station.ofStage, Session.settleRounds,
    Session.drain, Session.process, Station.receive, SourceMemory.receive, Session.absorb,
    Session.forward, Tuple.ofFact, Tuple.fact?, Tuple.withOrigin, Station.scoreTuple, hw,
    Station.conclude, pure, EStateM.pure, ScorerMemory.place, ScorerMemory.shift, scaled_one, hsub,
    hadd, counted]

/-- The row of a single cell with the greatest value. -/
def wealthy : Row := ⟨[some 0x7fffffffffffffff], none⟩

theorem fullScore_wealthy : (Tally.network worth).fullScore wealthy =
    .ok (Score.single 0 0x7fffffffffffffff) := by
  have hsession : (Tally.network worth).sessionFor wealthy =
      (Session.new (Tally.network worth)).tell (.insert ⟨0, 0⟩) := rfl
  have hscore : Session.settledScore wealthy ((Tally.network worth).sessionFor wealthy) =
      .ok (Score.single 0 0x7fffffffffffffff) (counted 0x7fffffffffffffff) :=
    hsession ▸ Step.bind_ok (settle_first rfl)
  unfold Network.fullScore Step.answer
  rw [hscore]

/-- The session that was settled while the cell was empty, and is told that it changed. -/
def repaid : Session Row .simple := (counted (-1)).tell (.update ⟨0, 0⟩)

/-- What that session was told. -/
def repayment : Roll := (({} : Roll).hear (.insert ⟨0, 0⟩)).settled.hear (.update ⟨0, 0⟩)

theorem repaid_history :
    Session.History entry (Tally.network worth) repayment ⟨[none], none⟩ repaid := by
  have hstart : Session.History entry (Tally.network worth) {} ⟨[none], none⟩ _ := .start _
  have hsettle := (hstart.tell (.insert ⟨0, 0⟩)).settle (fun _ _ _ => rfl) (settle_first rfl)
  exact hsettle.tell (.update ⟨0, 0⟩)

theorem repaid_faithful : Faithful entry repayment ⟨[none], none⟩ wealthy := by
  intro f hf htold
  obtain rfl := List.mem_singleton.1 hf
  refine absurd ?_ htold
  exact ⟨.update ⟨0, 0⟩, List.mem_singleton.2 rfl, rfl⟩

theorem repaid_present (f : Fact) : f ∈ repayment.present ↔ Plan.Has wealthy f :=
  List.mem_singleton.trans has_single.symm

/-- The difference between the greatest value and the debt does not fit. -/
theorem settle_repaid : ∃ s', Session.settle wealthy repaid = .error .overflow s' := by
  have hworth : worth wealthy ⟨[.fact ⟨0, 0⟩], [], 0⟩ = .ok 0x7fffffffffffffff := rfl
  have hsub : (Score.single 0 0x7fffffffffffffff : Score .simple).sub (Score.single 0 (-1)) =
      .error .overflow := by decide +kernel
  have hsession : repaid =
      { counted (-1) with queue := #[⟨0, .left, .update (Tuple.ofFact ⟨0, 0⟩ 0)⟩] } := rfl
  rw [hsession]
  simp [Session.settle, Tally.network, Tally.builder, Session.settleRounds, Session.drain,
    Session.process, Station.receive, SourceMemory.receive, Session.absorb, Session.forward,
    Tuple.ofFact, Tuple.fact?, Tuple.withOrigin, Station.scoreTuple, hworth, Station.conclude, pure,
    EStateM.pure, ScorerMemory.place, ScorerMemory.shift, scaled_one, hsub, counted]

end Row

namespace Session

/-- A debt is settled, and then it is paid back. -/
theorem History.settledScore_eq_fullScore_iff_repaid :
    ((∃ s', Session.settledScore Row.wealthy Row.repaid =
          .ok (Score.single 0 0x7fffffffffffffff) s' ∧ s'.isSettled) ↔
        ∀ k r, Deliveries Row.wealthy k Row.repaid r → ¬ r.Strained Row.wealthy) ∧
      ((∃ s', Session.settledScore Row.wealthy Row.repaid = .error .overflow s') ↔
        ∃ k r, Deliveries Row.wealthy k Row.repaid r ∧ r.Strained Row.wealthy) :=
  History.settledScore_eq_fullScore_iff (Tally.builder_declared _) (Tally.build_builder _)
    Row.local_worth Row.repaid_history Row.repaid_faithful (Row.answersOn_worth _)
    (fun f _ => Row.repaid_present f) Row.fullScore_wealthy

/-- A session can overflow where the score from scratch fits. -/
theorem History.overflow_where_fullScore_fits :
    (Tally.builder Row.worth).Declared ∧
      (Tally.builder Row.worth).build = .ok (Tally.network Row.worth) ∧
      (∀ i stage, stage? (Tally.builder Row.worth).nodes i = some stage → stage.Local Row.entry) ∧
      AnswersOn (Tally.builder Row.worth).nodes Row.wealthy ∧
      (Row.counted (-1)).isSettled ∧
      Row.repaid = (Row.counted (-1)).tell (.update ⟨0, 0⟩) ∧
      History Row.entry (Tally.network Row.worth) Row.repayment ⟨[none], none⟩ Row.repaid ∧
      Faithful Row.entry Row.repayment ⟨[none], none⟩ Row.wealthy ∧
      (∀ f, f ∈ Row.repayment.present ↔ Plan.Has Row.wealthy f) ∧
      (Tally.network Row.worth).fullScore Row.wealthy = .ok (Score.single 0 0x7fffffffffffffff) ∧
      ∃ s', Session.settledScore Row.wealthy Row.repaid = .error .overflow s' := by
  obtain ⟨s', hs⟩ := Row.settle_repaid
  exact ⟨Tally.builder_declared _, Tally.build_builder _, Row.local_worth, Row.answersOn_worth _,
    rfl, rfl, Row.repaid_history, Row.repaid_faithful, Row.repaid_present, Row.fullScore_wealthy,
    s', Step.bind_error hs⟩

end Session

end PlanSearch
