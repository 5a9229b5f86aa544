import Mathlib.Algebra.BigOperators.Group.List.Lemmas
import PlanSearch.Proofs.Network.Sharing
import PlanSearch.Proofs.Network.Requests

/-!
# Balanced sessions

A session keeps its score in three places: in one sum, in one total for each scorer, and match by
match. Deltas move all three by differences. As long as no sum overflows they agree, after every
single delta and whatever the functions of the problem answer.

    s.Books n → process plan p s = .ok () t → t.Books n                          (Books.process)
    s.Books n → t is what some deliveries make of s → t.Books n                 (Books.deliveries)
    s.Exact n → t is what some deliveries make of s → t.Balanced
                                                                    (Exact.balanced_deliveries)
-/

namespace PlanSearch

open Std (HashMap)

variable {S : Type} {sh : Shape}

/-! ## Scorers -/

namespace ScorerMemory

variable {weight a d : Score sh} {m m' : ScorerMemory sh} {i : TupleId}

/-- The total is the sum of the matches, and each of them counts a multiple of the weight. -/
structure Balanced (weight : Score sh) (m : ScorerMemory sh) : Prop where
  sums : m.Sums
  scaled : ∀ (i : TupleId) a, m.matched[i]? = some a → ∃ w, weight.scaled w = .ok a

theorem balanced_empty (weight : Score sh) : Balanced weight {} where
  sums l := by simp [Score.level_zero]
  scaled i a h := by simp at h

theorem Balanced.place (h : m.Balanced weight) (ha : ∃ w, weight.scaled w = .ok a)
    (e : place i a m = .ok d m') : m'.Balanced weight := by
  obtain ⟨hsums, hm, -⟩ := h.sums.place e
  refine ⟨hsums, fun j b hj => ?_⟩
  rw [hm, getElem?_insert_ite] at hj
  split at hj
  · cases hj
    exact ha
  · exact h.scaled j b hj

theorem Balanced.retract (h : m.Balanced weight) (e : retract i m = .ok d m') :
    m'.Balanced weight := by
  obtain ⟨hsums, hm, -⟩ := h.sums.retract e
  refine ⟨hsums, fun j b hj => ?_⟩
  rw [hm] at hj
  split at hj
  · cases hj
  · exact h.scaled j b hj

/-- Where the weight has no level, the total has none. -/
theorem Balanced.level_eq_zero (h : m.Balanced weight) {l : Nat} (hl : weight.level l = 0) :
    m.total.level l = 0 := by
  rw [h.sums l]
  refine List.sum_eq_zero fun x hx => ?_
  obtain ⟨⟨i, a⟩, hi, rfl⟩ := List.mem_map.1 hx
  obtain ⟨w, hw⟩ := h.scaled i a (HashMap.mem_toList_iff_getElem?_eq_some.1 hi)
  rw [Score.level_scaled hw, hl, zero_mul]

end ScorerMemory

namespace Station

variable {plan : S} {origin : Nat} {s : Side} {d : Delta} {station station' : Station S sh}
  {reply : Reply sh} {f : Fault}

def Balanced : Station S sh → Prop
  | scorer weight _ _ m => m.Balanced weight
  | _ => True

theorem balanced_ofStage (stage : Stage S sh) : (ofStage stage).Balanced := by
  cases stage with
  | scorer weight matchWeight watched => exact ScorerMemory.balanced_empty weight
  | _ => trivial

theorem total_ofStage (stage : Stage S sh) : (ofStage stage).total = .zero := by
  cases stage <;> rfl

theorem balanced_of_not_scorer (h : ¬ station.stage.isScorer) : station.Balanced := by
  cases station with
  | scorer weight matchWeight watched m => exact absurd rfl h
  | _ => trivial

/-- A station that replies stays balanced, and its total moves by what it reports. -/
theorem Balanced.receive (h : station.Balanced)
    (e : Station.receive plan origin s d station = .ok reply station') :
    station'.Balanced ∧ ∀ l, station'.total.level l = station.total.level l + reply.gain l := by
  by_cases hscorer : station.stage.isScorer
  · cases station with
    | scorer weight matchWeight watched m =>
      have hplace : ∀ t, Station.receive plan origin s (.insert t)
          (scorer weight matchWeight watched m) = .ok reply station' →
          station'.Balanced ∧ ∀ l, station'.total.level l = m.total.level l + reply.gain l := by
        intro t e
        obtain ⟨change, m', hm, rfl, rfl⟩ := conclude_eq_ok e
        obtain ⟨a, m₁, ha, hmatched, htotal, hplace⟩ := scoreTuple_eq_ok hm
        obtain ⟨w, -, hw⟩ := Checked.bind_eq_ok ha
        have h₁ : m₁.Balanced weight := by
          refine ⟨fun l => ?_, fun i a hi => h.scaled i a (hmatched ▸ hi)⟩
          rw [htotal, hmatched]
          exact h.sums l
        obtain ⟨-, -, hgain⟩ := h₁.sums.place hplace
        rw [htotal] at hgain
        exact ⟨h₁.place ⟨w, hw⟩ hplace, hgain⟩
      cases d with
      | insert t => exact hplace t e
      | update t => exact hplace t e
      | retract j =>
        obtain ⟨change, m', hm, rfl, rfl⟩ := conclude_eq_ok e
        exact ⟨ScorerMemory.Balanced.retract h hm, (h.sums.retract hm).2.2⟩
    | _ => cases hscorer
  · obtain ⟨hstage, hpass⟩ := receive_eq_ok e
    obtain ⟨out, rfl⟩ := hpass hscorer
    have hscorer' : ¬ station'.stage.isScorer := hstage ▸ hscorer
    refine ⟨balanced_of_not_scorer hscorer', fun l => ?_⟩
    rw [Session.total_eq_zero station hscorer, Session.total_eq_zero station' hscorer']
    exact (Int.add_zero _).symm

/-- A station that fails without overflow is as balanced as it was. -/
theorem Balanced.receive_error (h : station.Balanced) (hf : f ≠ .overflow)
    (e : Station.receive plan origin s d station = .error f station') :
    station'.Balanced ∧ station'.total = station.total := by
  by_cases hscorer : station.stage.isScorer
  · cases station with
    | scorer weight matchWeight watched m =>
      have hplace : ∀ t, Station.receive plan origin s (.insert t)
          (scorer weight matchWeight watched m) = .error f station' →
          station'.Balanced ∧ station'.total = m.total := by
        intro t e
        obtain ⟨m', hm, rfl⟩ := conclude_eq_error e
        unfold scoreTuple at hm
        split at hm
        · cases hm
          exact ⟨h, rfl⟩
        · dsimp only at hm
          split at hm
          · next hoverflow =>
            cases hm
            exact absurd (Score.ofExact_error hoverflow) hf
          · exact absurd (ScorerMemory.shift_error (fun g hg => Score.ofExact_error hg) hm) hf
      cases d with
      | insert t => exact hplace t e
      | update t => exact hplace t e
      | retract j => exact absurd (receive_retract_error e) hf
    | _ => cases hscorer
  · have hscorer' : ¬ station'.stage.isScorer := receive_eq_error e ▸ hscorer
    refine ⟨balanced_of_not_scorer hscorer', ?_⟩
    rw [Session.total_eq_zero station hscorer, Session.total_eq_zero station' hscorer']

end Station

namespace Session

variable {n : Network S sh} {plan : S} {s t : Session S sh} {p : Pending} {f : Fault} {i : Nat}
  {station station' : Station S sh}

/-! ## Sessions -/

/-- The books of a session: every station is balanced, and the score is the sum of their totals. -/
structure Books (n : Network S sh) (s : Session S sh) : Prop where
  network : s.network = n
  stage : ∀ i, (s.stations[i]?).map Station.stage = stage? n.nodes i
  station : ∀ station ∈ s.stations.toList, station.Balanced
  score : ∀ l, s.score.level l = (s.stations.toList.map (·.total.level l)).sum

theorem books_new (n : Network S sh) : (new n).Books n where
  network := rfl
  stage := stage_new n
  station station h := by
    obtain ⟨m, -, rfl⟩ := Array.mem_map.1 (Array.mem_toList_iff.1 h)
    exact Station.balanced_ofStage m.stage
  score l := by
    refine Eq.trans (Score.level_zero l) (List.sum_eq_zero fun x hx => ?_).symm
    obtain ⟨station, hstation, rfl⟩ := List.mem_map.1 hx
    obtain ⟨m, -, rfl⟩ := Array.mem_map.1 (Array.mem_toList_iff.1 hstation)
    rw [Station.total_ofStage, Score.level_zero]

/-- The books are about the stations and the score alone. -/
theorem Books.congr (h : s.Books n) (hnetwork : t.network = s.network)
    (hstations : t.stations = s.stations) (hscore : t.score = s.score) : t.Books n where
  network := hnetwork.trans h.network
  stage := hstations ▸ h.stage
  station := hstations ▸ h.station
  score := hscore ▸ hstations ▸ h.score

/-- A station is replaced by another one of its kind, and the score follows its total. -/
theorem Books.replace (h : s.Books n) (hs : s.stations[i]? = some station)
    (hstations : t.stations = s.stations.setIfInBounds i station')
    (hnetwork : t.network = s.network) (hstage : station'.stage = station.stage)
    (hbalanced : station'.Balanced)
    (hscore : ∀ l, t.score.level l =
      s.score.level l + (station'.total.level l - station.total.level l)) : t.Books n where
  network := hnetwork.trans h.network
  stage j := (stage_replaced hs hstations hstage j).trans (h.stage j)
  station x hx := by
    rw [hstations, Array.toList_setIfInBounds] at hx
    rcases List.mem_or_eq_of_mem_set hx with hx | rfl
    · exact h.station x hx
    · exact hbalanced
  score l := by
    obtain ⟨hi, rfl⟩ := Array.getElem?_eq_some_iff.1 hs
    rw [hscore, h.score, hstations, Array.toList_setIfInBounds, List.map_set, List.sum_set',
      dif_pos (by simpa using hi), List.getElem_map, Array.getElem_toList]
    omega

theorem Books.process (h : s.Books n) (e : process plan p s = .ok () t) : t.Books n := by
  cases hs : s.stations[p.target]? with
  | none =>
    rw [process_of_none hs] at e
    cases e
    exact h
  | some station =>
    obtain ⟨reply, station', hr, hnetwork, hstations, -, hscore⟩ := process_eq_ok e hs
    obtain ⟨hbalanced, hgain⟩ :=
      (h.station station (Array.mem_toList_iff.2 (Array.mem_of_getElem? hs))).receive hr
    refine h.replace hs hstations hnetwork (Station.receive_eq_ok hr).1 hbalanced fun l => ?_
    rw [hscore, hgain]
    omega

/-- A delivery that fails without overflow leaves the books as they were. -/
theorem Books.process_error (h : s.Books n) (hf : f ≠ .overflow)
    (e : Session.process plan p s = .error f t) : t.Books n := by
  cases hs : s.stations[p.target]? with
  | none =>
    rw [process_of_none hs] at e
    cases e
  | some station =>
    obtain ⟨station', hnetwork, -, hscore, hstations, hr | ⟨hoverflow, -⟩⟩ :=
      process_eq_error e hs
    · obtain ⟨hbalanced, htotal⟩ :=
        (h.station station (Array.mem_toList_iff.2 (Array.mem_of_getElem? hs))).receive_error hf hr
      refine h.replace hs hstations hnetwork (Station.receive_eq_error hr) hbalanced fun l => ?_
      rw [hscore, htotal]
      omega
    · exact absurd hoverflow hf

/-- An overflow is the only thing that unbalances the books. -/
theorem kept_books : Kept n (· ≠ .overflow) (Books n) where
  network _ h := h.network
  queued _ _ _ h _ := h.congr rfl rfl rfl
  delivered s _ _ h hd := by
    obtain ⟨p, rest, -, e⟩ := hd.head
    exact (h.congr (t := { s with queue := rest.toArray }) rfl rfl rfl).process e
  stopped s _ _ _ h hfault hf := by
    obtain ⟨p, rest, -, e⟩ := hf.head
    exact (h.congr (t := { s with queue := rest.toArray }) rfl rfl rfl).process_error hfault e

theorem Books.deliveries {k : Nat} (h : s.Books n) (e : Deliveries plan k s t) : t.Books n :=
  kept_books.deliveries e h

/-! ## Requests -/

section

variable [Plan S sh]

/-- The session is what some requests made of a new one of the network, none of which overflowed.
They may have failed otherwise. -/
inductive Exact (n : Network S sh) : Session S sh → Prop
  | new : Exact n (new n)
  | respond {s : Session S sh} (h : Exact n s) (q : Request S)
    (hfits : ∀ t, Session.respond q s ≠ .error .overflow t) :
    Exact n (Step.finalState (Session.respond q) s)

theorem Exact.books (h : s.Exact n) : s.Books n := by
  induction h with
  | new => exact books_new n
  | respond h q hfits ih => exact kept_books.respond ih q fun f t e hf => hfits t (hf ▸ e)

end

/-! ## Constraints -/

/-- What the scorers remember. -/
def scorers (s : Session S sh) : List (ScorerMemory sh) :=
  s.stations.toList.filterMap Station.scorerMemory?

/-- The score, the totals of the scorers and the matches agree, and each constraint counts on the
one level of its weight only. -/
structure Balanced (s : Session S sh) : Prop where
  score : Score.total (s.scorers.map (·.total)) = .ok s.score
  total : ∀ m ∈ s.scorers, Score.total (m.matched.toList.map (·.2)) = .ok m.total
  constraint : ∀ c ∈ s.network.constraints, ∃ m ∈ s.scorers,
    s.totalOf c = ⟨c.name, c.impact, c.weight, m.total, m.matched.toList.length⟩ ∧
      ∃ level, ∀ l, (c.weight.level l ≠ 0 ↔ l = level) ∧ (l ≠ level → m.total.level l = 0)

end Session

namespace NetworkBuilder

variable {b b' : NetworkBuilder S sh}

/-- A request for a node declares no constraint. -/
theorem constraints_request {signature? : Option Signature} {stage : Stage S sh}
    {parents : List (Nat × Side)} {stream : Stream}
    (e : (Except.ok (b.request signature? stage parents) : Except SolverError _) =
      .ok (stream, b')) : b'.constraints = b.constraints := by
  have hsame : (b.request signature? stage parents).2.constraints = b.constraints := by
    unfold request
    split
    · rfl
    · split <;> rfl
  rwa [Except.ok.inj e] at hsame

/-- Every constraint has a weight with exactly one level. -/
theorem Declared.singleLevel (h : Declared b) :
    ∀ c ∈ b.constraints, ∃ level, c.weight.singleLevel? = some level := by
  induction h with
  | start id package => exact nofun
  | @forEach b _ family ih =>
    have e : (Except.ok (b.forEach family) : Except SolverError _) =
        .ok ((b.forEach family).1, (b.forEach family).2) := rfl
    rw [constraints_request e]
    exact ih
  | filter _ e ih =>
    obtain ⟨input, -, e⟩ := Checked.bind_eq_ok e
    rw [constraints_request e]
    exact ih
  | join _ e ih =>
    obtain ⟨l, -, e⟩ := Checked.bind_eq_ok e
    obtain ⟨r, -, e⟩ := Checked.bind_eq_ok e
    rw [constraints_request e]
    exact ih
  | groupBy _ e ih =>
    obtain ⟨input, -, e⟩ := Checked.bind_eq_ok e
    rw [constraints_request e]
    exact ih
  | constrain _ e ih =>
    obtain ⟨input, signed, -, hlevel, -, rfl⟩ := constrain_eq_ok e
    refine fun c hc => (List.mem_append.1 hc).elim (ih c) fun hc => ?_
    rw [List.mem_singleton.1 hc]
    exact Option.isSome_iff_exists.1 (Option.isNone_eq_false_iff.1 hlevel)

end NetworkBuilder

namespace Session

variable {n : Network S sh} {b : NetworkBuilder S sh} {plan : S} {s t : Session S sh}

theorem sum_scorers (stations : List (Station S sh)) (l : Nat) :
    ((stations.filterMap Station.scorerMemory?).map (·.total.level l)).sum =
      (stations.map (·.total.level l)).sum := by
  induction stations with
  | nil => rfl
  | cons station stations ih =>
    cases station with
    | scorer weight matchWeight watched m => exact congrArg (m.total.level l + ·) ih
    | _ =>
      show _ = Score.zero.level l + (stations.map (·.total.level l)).sum
      rw [Score.level_zero, zero_add]
      exact ih

theorem Books.balanced (h : s.Books n) (hb : b.Declared) (hbuild : b.build = .ok n) :
    s.Balanced := by
  have hn := hb.wellFormed.carries hbuild
  have hscorer : ∀ (i : Nat) m, (s.stations[i]?).bind Station.scorerMemory? = some m →
      m ∈ s.scorers := fun i m hm => by
    obtain ⟨station, hs, hm⟩ := Option.bind_eq_some_iff.1 hm
    exact List.mem_filterMap.2 ⟨station, Array.mem_toList_iff.2 (Array.mem_of_getElem? hs), hm⟩
  refine ⟨Score.total_eq_ok_iff.2 fun l => ?_, fun m hm => Score.total_eq_ok_iff.2 fun l => ?_,
    fun c hc => ?_⟩
  · rw [h.score, ← sum_scorers, List.map_map]
    rfl
  · obtain ⟨station, hs, hm⟩ := List.mem_filterMap.1 hm
    cases station with
    | scorer weight matchWeight watched m' =>
      cases hm
      have hbalanced : m.Balanced weight := h.station _ hs
      rw [hbalanced.sums, List.map_map]
      rfl
    | _ => cases hm
  · rw [h.network] at hc
    obtain ⟨signed, matchWeight, watched, hsigned, hstage⟩ := hn.weight c hc
    rw [← hn.stage, ← h.stage] at hstage
    obtain ⟨station, hs, hstage⟩ := Option.map_eq_some_iff.1 hstage
    cases station with
    | scorer weight matchWeight' watched' m =>
      cases hstage
      have hbalanced : m.Balanced signed :=
        h.station _ (Array.mem_toList_iff.2 (Array.mem_of_getElem? hs))
      obtain ⟨level, hlevel⟩ : ∃ level, c.weight.singleLevel? = some level := by
        rw [NetworkBuilder.constraints_of_build hbuild] at hc
        exact hb.singleLevel c hc
      refine ⟨m, hscorer c.scorer m (by rw [hs]; rfl), ?_, level, fun l =>
        ⟨Score.level_ne_zero_iff hlevel l, fun hl => hbalanced.level_eq_zero ?_⟩⟩
      · unfold totalOf
        rw [hs, HashMap.length_toList]
        rfl
      · have hzero : c.weight.level l = 0 := by
          by_contra hne
          exact hl ((Score.level_ne_zero_iff hlevel l).1 hne)
        rw [Score.level_scaled hsigned, hzero, zero_mul]
    | _ => cases hstage

/-- As long as no request overflowed, a session of a declared network keeps its score, the totals of
its scorers and their matches in agreement, after every single delta. This asks nothing of the
functions of the problem, which may look at whatever they like. -/
theorem Exact.balanced_deliveries [Plan S sh] (hb : b.Declared) (hbuild : b.build = .ok n)
    (h : s.Exact n) {k : Nat} (hrun : Deliveries plan k s t) : t.Balanced :=
  (h.books.deliveries hrun).balanced hb hbuild

end Session

/-! ## A row of cells -/

namespace Row

/-- In the network of pairs two cells are inserted, and delivery goes on for as long as it can. -/
theorem balanced_pairing :
    ∃ (x : Blueprint Row .simple) (n : Network Row .simple),
      Declaration.performAll pairing ⟨{}, []⟩ = .ok x ∧ x.builder.Declared ∧
      x.builder.build = .ok n ∧
      let row : Row := ⟨[some 7, some 7], none⟩
      let s := (Session.new n).insertAll row
      s.Exact n ∧ ∃ k t, Session.Deliveries row k s t ∧
        (t.queue = #[] ∨ ∃ f u, t.Stops row f u) ∧ t.Balanced := by
  obtain ⟨⟨x, e, hnodes, hconstraints⟩, -⟩ := performAll_pairing
  obtain ⟨n, hbuild⟩ : ∃ n, x.builder.build = .ok n :=
    ⟨_, if_neg fun h => hconstraints (List.isEmpty_iff.1 h)⟩
  have hdeclared := Declaration.declared_performAll (.start 0 "") e
  have hn := (hdeclared.wellFormed.carries hbuild).routed
  have hexact : Session.Exact n ((Session.new n).insertAll (⟨[some 7, some 7], none⟩ : Row)) :=
    Session.Exact.new.respond (.insertAll _) nofun
  have hheads := (Session.Reachable.new.respond
    (.insertAll (⟨[some 7, some 7], none⟩ : Row))).heads hn
  refine ⟨x, n, e, hdeclared, hbuild, hexact, ?_⟩
  rcases Session.settle_ends hheads hn.ascends (⟨[some 7, some 7], none⟩ : Row) with
    ⟨k, t, -, hrun, hq⟩ | ⟨f, u, -, k, t, hrun, hstops⟩
  · exact ⟨k, t, hrun, .inl hq, hexact.balanced_deliveries hdeclared hbuild hrun⟩
  · exact ⟨k, t, hrun, .inr ⟨f, u, hstops⟩, hexact.balanced_deliveries hdeclared hbuild hrun⟩

end Row

end PlanSearch
