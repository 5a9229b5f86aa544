import PlanSearch.Proofs.Network.History

/-!
# Matches

What the reference derives, tuple by tuple: a source has the facts of its family, a filter the tuples
that pass, a join the pairs that are answered one key. Once a session has settled, the matches that a
constraint has entered are the tuples that the reference derives for its scorer.

    derive plan facts origin input (.join …) = .ok us →
      u ∈ us ↔ u joins two input tuples that are answered one key                  (mem_of_join)
    settle plan' s = .ok count s' →
      id ∈ s'.matchIds c ↔ a tuple of the reference has this identity             (settle_matches)
-/

namespace PlanSearch

variable {S : Type} {sh : Shape} {γ : Type}

/-! ## What is derived -/

namespace Reference

variable {plan : S} {facts : List Fact} {origin : Nat} {inputs : Side → Checked (List Tuple)}
  {us : List Tuple}

/-- All tuples that were asked about are answered. -/
theorem exists_of_ask {α : Type} {fn : Tuple → Checked α} {ts : List Tuple} {ps : List (α × Tuple)}
    (e : ask fn ts = .ok ps) {t : Tuple} (ht : t ∈ ts) : ∃ a, fn t = .ok a := by
  rw [← map_snd_of_ask e, List.mem_map] at ht
  obtain ⟨⟨a, u⟩, hp, rfl⟩ := ht
  exact ⟨a, ((mem_of_ask e).1 hp).2⟩

theorem mem_of_source {family : Nat}
    (e : derive plan facts origin inputs (.source family : Stage S sh) = .ok us) (u : Tuple) :
    u ∈ us ↔ ∃ f ∈ facts, f.family = family ∧ u = Tuple.ofFact f origin := by
  cases e
  simp only [List.mem_map, List.mem_filter, decide_eq_true_eq, and_assoc, eq_comm (a := u)]

theorem mem_of_filter {test : S → Tuple → Checked Bool}
    (e : derive plan facts origin inputs (.filter test : Stage S sh) = .ok us) :
    ∃ ts, inputs .left = .ok ts ∧
      ∀ u, u ∈ us ↔ ∃ t ∈ ts, test plan t = .ok true ∧ u = t.withOrigin origin := by
  obtain ⟨ts, hts, e⟩ := Checked.bind_eq_ok e
  obtain ⟨ps, hps, e⟩ := Checked.bind_eq_ok e
  cases e
  refine ⟨ts, hts, fun u => ?_⟩
  rw [List.mem_map]
  constructor
  · rintro ⟨⟨passes, t⟩, hp, rfl⟩
    obtain ⟨hp, hpasses⟩ := List.mem_filter.1 hp
    obtain rfl : passes = true := hpasses
    obtain ⟨ht, htest⟩ := (mem_of_ask hps).1 hp
    exact ⟨t, ht, htest, rfl⟩
  · rintro ⟨t, ht, htest, rfl⟩
    exact ⟨(true, t), List.mem_filter.2 ⟨(mem_of_ask hps).2 ⟨ht, htest⟩, rfl⟩, rfl⟩

theorem mem_of_join {leftKey rightKey : S → Tuple → Checked Key}
    (e : derive plan facts origin inputs (.join leftKey rightKey : Stage S sh) = .ok us) :
    ∃ ls rs, inputs .left = .ok ls ∧ inputs .right = .ok rs ∧
      (∀ l ∈ ls, ∃ k, leftKey plan l = .ok k) ∧ (∀ r ∈ rs, ∃ k, rightKey plan r = .ok k) ∧
      ∀ u, u ∈ us ↔ ∃ l ∈ ls, ∃ r ∈ rs, ∃ k, leftKey plan l = .ok k ∧ rightKey plan r = .ok k ∧
        u = l.join r origin := by
  obtain ⟨ls, hls, e⟩ := Checked.bind_eq_ok e
  obtain ⟨ps, hps, e⟩ := Checked.bind_eq_ok e
  obtain ⟨rs, hrs, e⟩ := Checked.bind_eq_ok e
  obtain ⟨qs, hqs, e⟩ := Checked.bind_eq_ok e
  cases e
  refine ⟨ls, rs, hls, hrs, fun l hl => exists_of_ask hps hl, fun r hr => exists_of_ask hqs hr,
    fun u => ?_⟩
  rw [List.mem_flatMap]
  constructor
  · rintro ⟨⟨k, l⟩, hl, hu⟩
    obtain ⟨⟨k', r⟩, hq, rfl⟩ := List.mem_map.1 hu
    obtain ⟨hr, hk⟩ := List.mem_filter.1 hq
    obtain rfl : k' = k := of_decide_eq_true hk
    obtain ⟨hl, hleft⟩ := (mem_of_ask hps).1 hl
    obtain ⟨hr, hright⟩ := (mem_of_ask hqs).1 hr
    exact ⟨l, hl, r, hr, k', hleft, hright, rfl⟩
  · rintro ⟨l, hl, r, hr, k, hleft, hright, rfl⟩
    refine ⟨(k, l), (mem_of_ask hps).2 ⟨hl, hleft⟩, List.mem_map.2 ⟨(k, r), ?_, rfl⟩⟩
    exact List.mem_filter.2 ⟨(mem_of_ask hqs).2 ⟨hr, hright⟩, decide_eq_true rfl⟩

/-- Where every match counts once, a constraint scores its weight for each of them. -/
theorem level_of_total {nodes : Array (Node S sh)} {c : Constraint sh} {signed : Score sh}
    {matchWeight : S → Tuple → Checked Int64} {watched : Bool} {answer : ConstraintTotal sh}
    (hstage : stage? nodes c.scorer = some (.scorer signed matchWeight watched))
    (hsigned : c.weight.scaled c.impact.sign = .ok signed) (hw : ∀ t, matchWeight plan t = .ok 1)
    (e : total nodes plan facts c = .ok answer) (l : Nat) :
    answer.score.level l = answer.matchCount * signed.level l := by
  unfold total at e
  rw [hstage] at e
  dsimp only at e
  obtain ⟨weight, hweight, e⟩ := Checked.bind_eq_ok e
  obtain rfl : signed = weight := Except.ok.inj (hsigned.symm.trans hweight)
  obtain ⟨ts, -, e⟩ := Checked.bind_eq_ok e
  obtain ⟨ps, hps, e⟩ := Checked.bind_eq_ok e
  obtain ⟨sum, hsum, e⟩ := Checked.bind_eq_ok e
  cases e
  have hlevel : ∀ a ∈ ps.map (·.1), a.level l = signed.level l := fun a ha => by
    obtain ⟨p, hp, rfl⟩ := List.mem_map.1 ha
    have hscaled : matchScore signed matchWeight plan p.2 = .ok p.1 := ((mem_of_ask hps).1 hp).2
    unfold matchScore at hscaled
    rw [hw] at hscaled
    rw [Score.level_scaled hscaled]
    exact Int.mul_one _
  show sum.level l = ps.length * signed.level l
  rw [Score.total_eq_ok_iff.1 hsum l, List.map_congr_left hlevel, List.map_const', List.length_map,
    List.sum_replicate, nsmul_eq_mul]

/-- The parts of an evaluation, given that it has an answer for each constraint. -/
theorem of_evaluate {nodes : Array (Node S sh)} {constraints : List (Constraint sh)} {score : Score sh}
    {answers : Constraint sh → ConstraintTotal sh}
    (e : evaluate nodes constraints plan facts = .ok (score, constraints.map answers)) :
    (∀ c ∈ constraints, total nodes plan facts c = .ok (answers c)) ∧
      ∀ l, score.level l = (constraints.map fun c => (answers c).score.level l).sum := by
  obtain ⟨totals, htotals, e⟩ := Checked.bind_eq_ok e
  obtain ⟨sum, hsum, e⟩ := Checked.bind_eq_ok e
  cases e
  refine ⟨List.forall₂_same.1 (List.forall₂_map_right_iff.1 (Checked.mapM_eq_ok htotals)),
    fun l => ?_⟩
  rw [Score.total_eq_ok_iff.1 hsum l, List.map_map, List.map_map]
  rfl

end Reference

/-! ## What a constraint has entered -/

namespace Session

/-- The identities of the matches of a constraint, as far as they are settled. -/
def matchIds (s : Session S sh) (c : Constraint sh) : List TupleId :=
  ((s.stations[c.scorer]?).bind Station.scorerMemory?).elim [] fun m => m.matched.keys

theorem nodup_matchIds (s : Session S sh) (c : Constraint sh) : (s.matchIds c).Nodup := by
  unfold matchIds
  cases (s.stations[c.scorer]?).bind Station.scorerMemory? with
  | none => exact List.nodup_nil
  | some m => exact Std.HashMap.nodup_keys

theorem length_matchIds (s : Session S sh) (c : Constraint sh) :
    (s.matchIds c).length = (s.totalOf c).matchCount := by
  unfold matchIds totalOf
  cases (s.stations[c.scorer]?).bind Station.scorerMemory? with
  | none => rfl
  | some m => exact Std.HashMap.length_keys

variable {n : Network S sh} {nodes : Array (Node S sh)} {contents : S → Fact → γ} {roll : Roll}
  {plan plan' : S} {s s' : Session S sh} {count : Nat} {facts : List Fact}

/-- Once a session has settled, the matches of a constraint are the tuples that the reference
derives for its scorer. -/
theorem History.settle_matches (h : Session.History contents n roll plan s) (hn : n.Carries nodes)
    (hloc : ∀ i stage, stage? nodes i = some stage → stage.Local contents)
    (hf : Faithful contents roll plan plan') (e : Session.settle plan' s = .ok count s')
    (hnodup : facts.Nodup) (hfacts : ∀ f, f ∈ facts ↔ f ∈ roll.present) {c : Constraint sh}
    (hc : c ∈ n.constraints) :
    ∃ ts, Reference.inputOf nodes plan' facts c.scorer .left = .ok ts ∧
      ∀ id, id ∈ s'.matchIds c ↔ ∃ t ∈ ts, t.id = id := by
  obtain ⟨input, output, ht⟩ := h.tracks hn hloc plan'
  obtain ⟨hq, input', output', ht'⟩ := settle_any ht hn e
  obtain ⟨signed, matchWeight, watched, m, x, ts, -, -, hs, hts, htracks, hsteady, hlists⟩ :=
    ht'.scored hn hq hloc hf hnodup hfacts hc
  obtain ⟨ps, hps, -⟩ := htracks.total_eq hsteady hlists
  refine ⟨ts, hts, fun id => ?_⟩
  have hids : s'.matchIds c = m.matched.keys := by
    unfold matchIds
    rw [hs]
    rfl
  rw [hids, Std.HashMap.mem_keys, Std.HashMap.mem_iff_isSome_getElem?, Option.isSome_iff_exists]
  constructor
  · rintro ⟨a, ha⟩
    obtain ⟨t, ht, hid⟩ := (htracks.recalls.memo_iff hsteady hlists hps).1 ha
    exact ⟨t, ((Reference.mem_of_ask hps).1 ht).1, hid⟩
  · rintro ⟨t, ht, rfl⟩
    obtain ⟨a, ha, -⟩ := htracks.recalls.current hsteady (hlists.live_id ht)
    exact ⟨a, ha⟩

end Session

end PlanSearch
