import PlanSearch.Proofs.Problem.Joins

/-!
# Boards under assignments

A workspace keeps the score of a board while queens are placed, moved and taken off. Two more ways
of scoring start over each time: the network on all queens, and the comparison of rows and their
distance. The three agree, and the matches of the network are the conflicts, in which no queen takes
part that is not placed.

    Assigned n w → score w = .ok a w' →
      a.exact = [-conflictCount w.plan.rows] ∧ Tallies w.plan.rows w'.session
    Assigned n w → InRange w.plan.rows →
      ∃ a w', score w = .ok a w' ∧ fullScore w = .ok a ∧ conflictScore w.plan = .ok a
                                                                       (scores_count_conflicts)
-/

namespace PlanSearch.Queens

open Checked (Fits)
open IncrementalWorkspace (Follows)

variable {n : Network Board .simple} {w : IncrementalWorkspace Board .simple} {b : Board}

/-! ## Histories -/

/-- What can become of a workspace for the network: queens are placed, moved and taken off the
board, one after another, and now and then the score or the totals of the constraints are asked
for. -/
inductive Assigned (n : Network Board .simple) : IncrementalWorkspace Board .simple → Prop where
  | start (b : Board) : Assigned n (.new n b)
  | assign {w : IncrementalWorkspace Board .simple} (h : Assigned n w) {column : Nat}
    (hcolumn : column < w.plan.rows.length) (r : Option Int64) : Assigned n (row.assign column r w)
  | score {w w' : IncrementalWorkspace Board .simple} (h : Assigned n w) {a : Score .simple}
    (e : Workspace.score w = .ok a w') : Assigned n w'
  | totals {w w' : IncrementalWorkspace Board .simple} (h : Assigned n w)
    {ts : List (ConstraintTotal .simple)} (e : w.totals = .ok ts w') : Assigned n w'

theorem has_place {column : Nat} {r : Option Int64} {f : Fact} :
    Plan.Has (b.place column r) f ↔ Plan.Has b f := by
  rw [has_iff, has_iff]
  show _ ∧ f.index < (b.rows.set column r).length ↔ _
  rw [List.length_set]

/-- The session of a workspace is told of every assignment, and of queens of the board only. -/
theorem Assigned.history (hn : network = .ok n) (h : Assigned n w) :
    IncrementalWorkspace.History contents n [] w ∧ ∀ f, w.Names f → Plan.Has w.plan f := by
  obtain ⟨hcarries, -⟩ := network_spec hn
  induction h with
  | start b => exact ⟨.start b, fun f hf => IncrementalWorkspace.names_sessionFor hcarries hf⟩
  | @assign w h column hcolumn r ih =>
    obtain ⟨hhistory, hnamed⟩ := ih
    refine ⟨?_, fun f hf => has_place.2 ?_⟩
    · refine hhistory.assign (fun f => has_place) fun f hf hhas =>
        List.getElem?_set_ne fun e => hf ?_
      obtain ⟨hfamily, -⟩ := has_iff.1 hhas
      obtain ⟨family, index⟩ := f
      exact congrArg₂ Fact.mk hfamily e.symm
    · rcases IncrementalWorkspace.names_tell (.update ⟨Board.queens, column⟩) hf with hf | rfl
      · exact hnamed f hf
      · exact has_iff.2 ⟨rfl, hcolumn⟩
  | score h e ih =>
    obtain ⟨hhistory, -⟩ := ih
    obtain ⟨hq, -, -⟩ := hhistory.score_settled hcarries local_nodes scoreApart e
    refine ⟨hhistory.score e, fun f ⟨p, hp, _⟩ => ?_⟩
    rw [hq] at hp
    cases hp
  | @totals w w' h ts e ih =>
    obtain ⟨hhistory, -⟩ := ih
    obtain ⟨roll, before, hw⟩ := hhistory.follows hcarries local_nodes scoreApart
    obtain ⟨count, s', hsettle, -, rfl⟩ := IncrementalWorkspace.totals_eq_ok e
    obtain ⟨hq, -⟩ := hw.heard.history.settle_eq hcarries local_nodes hw.faithful hsettle
      hw.heard.history.nodup_present fun _ => Iff.rfl
    refine ⟨hhistory.totals e, fun f ⟨p, hp, _⟩ => ?_⟩
    dsimp only at hp
    rw [hq] at hp
    cases hp

/-! ## Settling -/

section

variable {roll : Roll} {before : Board} {count : Nat} {s' : Session Board .simple}

/-- The network reads the queens, as there are constraints on them. -/
theorem reads_iff (hn : network = .ok n) {f : Fact} : n.Reads f ↔ f.family = Board.queens := by
  obtain ⟨hcarries, -⟩ := network_spec hn
  unfold Network.Reads
  rw [Option.isSome_iff_exists]
  constructor
  · rintro ⟨i, hi⟩
    obtain ⟨hstage, -⟩ := (hcarries.source _ _).1 hi
    generalize f.family = family at hstage
    cases role_iff.1 hstage
    rfl
  · intro hfamily
    rw [hfamily]
    exact ⟨0, (hcarries.source _ _).2 ⟨role_iff.2 .source, rfl⟩⟩

theorem present_iff (hn : network = .ok n) (h : Follows contents n [] w roll before) (f : Fact) :
    f ∈ roll.present ↔ Plan.Has w.plan f := by
  rw [h.heard.mem_present_iff h.present, reads_iff hn]
  exact and_iff_right_of_imp fun hf => (has_iff.1 hf).1

theorem length_eq_card {ids : List TupleId} {ps : Finset (Nat × Nat)} (hnodup : ids.Nodup)
    (h : ∀ id, id ∈ ids ↔ ∃ p ∈ ps, id = pairId p) : ids.length = ps.card := by
  have himage : ids.toFinset = ps.image pairId := by
    ext id
    simp [h, eq_comm]
  rw [← List.toFinset_card_of_nodup hnodup, himage,
    Finset.card_image_of_injective _ pairId_injective]

theorem exact_eq (a : Score .simple) : a.exact = [a.level 0] := by
  obtain ⟨x, hx⟩ := List.length_eq_one_iff.1 a.length_exact
  unfold Score.level
  rw [hx]
  rfl

section

variable (hn : network = .ok n) (h : Follows contents n [] w roll before) (hb : w.plan.Addressable)
  (e : Session.settle w.plan w.session = .ok count s')

include hn

theorem constraint_mem (line : Line) : line.constraint ∈ n.constraints := by
  rw [(network_spec hn).2]
  exact List.mem_map_of_mem line.mem_all

include h e

theorem evaluate_settled : Reference.evaluate nodes n.constraints w.plan roll.present =
    .ok (s'.score, n.constraints.map s'.totalOf) := by
  obtain ⟨hcarries, -⟩ := network_spec hn
  obtain ⟨-, -, heval⟩ := h.heard.history.settle_eq hcarries local_nodes h.faithful e
    h.heard.history.nodup_present fun _ => Iff.rfl
  exact heval

include hb

theorem mem_matchIds (line : Line) (id : TupleId) :
    id ∈ s'.matchIds line.constraint ↔ ∃ p ∈ meetings w.plan.rows line, id = pairId p := by
  obtain ⟨hcarries, -⟩ := network_spec hn
  obtain ⟨ts, hts, hids⟩ := h.heard.history.settle_matches hcarries local_nodes h.faithful e
    h.heard.history.nodup_present (fun _ => Iff.rfl) (constraint_mem hn line)
  rw [hids, ← mem_inputOf_scorer (present_iff hn h) hb hts]

theorem matchCount_eq (line : Line) :
    (s'.totalOf line.constraint).matchCount = (meetings w.plan.rows line).card := by
  rw [← Session.length_matchIds]
  exact length_eq_card (Session.nodup_matchIds _ _) (mem_matchIds hn h hb e line)

theorem level_totalOf (line : Line) :
    (s'.totalOf line.constraint).score.level 0 = -((meetings w.plan.rows line).card : Int) := by
  obtain ⟨htotals, -⟩ := Reference.of_evaluate (evaluate_settled hn h e)
  have hpoint : (Score.single 0 (-1) : Score .simple).level 0 = -1 := rfl
  have hstage : stage? nodes line.constraint.scorer = some lostPoint := role_iff.2 (.scorer line)
  have hsigned : line.constraint.weight.scaled line.constraint.impact.sign =
      .ok (Score.single 0 (-1)) := scaled_point
  rw [Reference.level_of_total hstage hsigned (fun _ => rfl) (htotals _ (constraint_mem hn line)) 0,
    matchCount_eq hn h hb e, hpoint]
  omega

theorem level_score : s'.score.level 0 = -(conflictCount w.plan.rows : Int) := by
  obtain ⟨-, hconstraints⟩ := network_spec hn
  obtain ⟨-, hscore⟩ := Reference.of_evaluate (evaluate_settled hn h e)
  rw [hscore, hconstraints, conflictCount_eq]
  simp only [Line.all, List.map_cons, List.map_nil, List.sum_cons, List.sum_nil,
    level_totalOf hn h hb e]
  omega

end

/-- The matches are the conflicts: the pairs of placed queens in one row, and those on a diagonal,
of which there is just one for each pair. A point is lost for each of them. -/
structure Tallies (rows : List (Option Int64)) (s : Session Board .simple) : Prop where
  row : ∀ id, id ∈ s.matchIds Line.row.constraint ↔ ∃ p ∈ rowPairs rows, id = pairId p
  diagonal : ∀ id, (id ∈ s.matchIds Line.ascending.constraint ∨
    id ∈ s.matchIds Line.descending.constraint) ↔ ∃ p ∈ diagonalPairs rows, id = pairId p
  once : ∀ id, id ∈ s.matchIds Line.ascending.constraint →
    id ∉ s.matchIds Line.descending.constraint
  rowCount : (s.totalOf Line.row.constraint).matchCount = (rowPairs rows).card
  diagonalCount : (s.totalOf Line.ascending.constraint).matchCount +
    (s.totalOf Line.descending.constraint).matchCount = (diagonalPairs rows).card
  lost : ∀ line : Line, (s.totalOf line.constraint).score.exact =
    [-((s.totalOf line.constraint).matchCount : Int)]
  score : s.score.exact = [-(conflictCount rows : Int)]

theorem tallies_of_settle (hn : network = .ok n) (h : Follows contents n [] w roll before)
    (hb : w.plan.Addressable) (e : Session.settle w.plan w.session = .ok count s') :
    Tallies w.plan.rows s' where
  row id := by
    rw [mem_matchIds hn h hb e, meetings_row]
  diagonal id := by
    rw [mem_matchIds hn h hb e, mem_matchIds hn h hb e, ← meetings_diagonal, ← exists_or]
    simp only [Finset.mem_union, or_and_right]
  once id hascending hdescending := by
    obtain ⟨p, hp, rfl⟩ := (mem_matchIds hn h hb e _ _).1 hascending
    obtain ⟨q, hq, hpq⟩ := (mem_matchIds hn h hb e _ _).1 hdescending
    rw [← pairId_injective hpq] at hq
    exact Finset.disjoint_left.1 (disjoint_meetings w.plan.rows) hp hq
  rowCount := by
    rw [matchCount_eq hn h hb e, meetings_row]
  diagonalCount := by
    rw [matchCount_eq hn h hb e, matchCount_eq hn h hb e, card_diagonalPairs]
  lost line := by
    rw [exact_eq, level_totalOf hn h hb e, matchCount_eq hn h hb e]
  score := by
    rw [exact_eq, level_score hn h hb e]

/-- Nothing overflows on a board in range. -/
theorem exists_settle (hn : network = .ok n) (h : Follows contents n [] w roll before)
    (hnamed : ∀ f, w.Names f → Plan.Has w.plan f) (hr : InRange w.plan.rows) :
    ∃ count s', Session.settle w.plan w.session = .ok count s' := by
  obtain ⟨hcarries, hconstraints⟩ := network_spec hn
  have hknown : ∀ f, roll.Known f → Plan.Has w.plan f := fun f hf =>
    (h.has_or_names hf).elim id (hnamed f)
  obtain ⟨input, output, ht⟩ := h.heard.history.tracks hcarries local_nodes w.plan
  have hheld := ht.mono hknown fun f ⟨r, hr, _, hf⟩ => hknown f (.inr ⟨r, hr, hf⟩)
  refine hheld.settles hcarries (fun _ hf => hf) (Session.History.joinsKnown_of_imp fun _ hf => hf)
    (answersOver_nodes hr) fun input output r ht => ?_
  refine ht.not_strained hcarries countsPoints_nodes (limited_nodes w.plan) ?_
  rw [hconstraints]
  exact hr.pairs

end

/-! ## Scores -/

/-- Whatever was done to the board, the score that the session keeps, the score from scratch and
the one that compares rows and their distance count the same conflicts. Each of them is missing by
overflow only, and none of them is on a board in range. -/
theorem scores_count_conflicts (hn : network = .ok n) (h : Assigned n w) (hb : w.plan.Addressable) :
    (∀ a w', Workspace.score w = .ok a w' →
      a.exact = [-(conflictCount w.plan.rows : Int)] ∧ Tallies w.plan.rows w'.session) ∧
    (∀ ts w', w.totals = .ok ts w' →
      ts = n.constraints.map w'.session.totalOf ∧ Tallies w.plan.rows w'.session) ∧
    (∀ a, Workspace.fullScore w = .ok a → a.exact = [-(conflictCount w.plan.rows : Int)]) ∧
    (∀ a, conflictScore w.plan = .ok a → a.exact = [-(conflictCount w.plan.rows : Int)]) ∧
    (∀ f w', Workspace.score w = .error f w' → f = .overflow) ∧
    (∀ f, Workspace.fullScore w = .error f → f = .overflow) ∧
    (∀ f, conflictScore w.plan = .error f → f = .overflow) ∧
    (InRange w.plan.rows → ∃ a w', Workspace.score w = .ok a w' ∧ Workspace.fullScore w = .ok a ∧
      conflictScore w.plan = .ok a) := by
  obtain ⟨hcarries, -⟩ := network_spec hn
  obtain ⟨hhistory, hnamed⟩ := h.history hn
  obtain ⟨roll, before, hw⟩ := hhistory.follows hcarries local_nodes scoreApart
  obtain ⟨roll₀, h₀, -⟩ := Follows.sessionFor hcarries contents w.plan 0
  have hdefined := definedOn_nodes hb
  refine ⟨fun a w' e => ?_, fun ts w' e => ?_, fun a e => ?_,
    fun a e => (conflictScore_eq_ok_iff.1 e).2.2, fun f w' e => ?_, fun f e => ?_,
    fun f e => conflictScore_error e, fun hr => ?_⟩
  · obtain ⟨count, s', hsettle, rfl, rfl⟩ := IncrementalWorkspace.score_eq_ok e
    have htallies := tallies_of_settle hn hw hb hsettle
    exact ⟨htallies.score, htallies⟩
  · obtain ⟨count, s', hsettle, rfl, rfl⟩ := IncrementalWorkspace.totals_eq_ok e
    obtain ⟨-, hnetwork, -⟩ := hw.heard.history.settle_eq hcarries local_nodes hw.faithful hsettle
      hw.heard.history.nodup_present fun _ => Iff.rfl
    refine ⟨?_, tallies_of_settle hn hw hb hsettle⟩
    rw [hnetwork]
  · obtain ⟨count, s', hsettle, rfl⟩ := IncrementalWorkspace.fullScore_eq_ok (hw.fullScore_eq ▸ e)
    exact (tallies_of_settle hn h₀ hb hsettle).score
  · exact hhistory.score_error hcarries local_nodes scoreApart hdefined
      (IncrementalWorkspace.settleable_of_has hnamed) e
  · exact IncrementalWorkspace.fullScore_error hcarries local_nodes hdefined (hw.fullScore_eq ▸ e)
  · obtain ⟨a, ha⟩ := hr.exists_conflictScore
    obtain ⟨count, s', hsettle⟩ := exists_settle hn hw hnamed hr
    obtain ⟨count₀, s₀, hsettle₀⟩ := exists_settle hn h₀
      (fun f hf => IncrementalWorkspace.names_sessionFor hcarries hf) hr
    -- All three have the same exact value.
    have hexact := (conflictScore_eq_ok_iff.1 ha).2.2
    have hkept : s'.score = a :=
      Score.exact_inj.1 ((tallies_of_settle hn hw hb hsettle).score.trans hexact.symm)
    have hfresh : s₀.score = a :=
      Score.exact_inj.1 ((tallies_of_settle hn h₀ hb hsettle₀).score.trans hexact.symm)
    refine ⟨a, _, hkept ▸ IncrementalWorkspace.score_of_settle hsettle, ?_, ha⟩
    rw [hw.fullScore_eq, ← hfresh]
    exact IncrementalWorkspace.fullScore_of_settle hsettle₀

/-- Three queens stand on a diagonal, and the middle one is taken off the board. -/
def thinned (n : Network Board .simple) : IncrementalWorkspace Board .simple :=
  row.assign 1 none (.new n ⟨[some 0, some 1, some 2], none⟩)

theorem thinned_inRange (n : Network Board .simple) : InRange (thinned n).plan.rows := by
  show InRange [some 0, none, some 2]
  refine ⟨by decide, by simp [GapFits, Fits], fun line i r hr => ?_⟩
  have hi : i < 3 := lt_length_of_rowAt hr
  interval_cases i
  · cases hr
    cases line <;> decide
  · cases hr
  · cases hr
    cases line <;> decide

/-- The queens that are left are still on one diagonal. -/
theorem scores_count_conflicts_thinned :
    ∃ n, network = .ok n ∧ Assigned n (thinned n) ∧ (thinned n).plan.Addressable ∧
      InRange (thinned n).plan.rows ∧
      ∃ a w', Workspace.score (thinned n) = .ok a w' ∧ Workspace.fullScore (thinned n) = .ok a ∧
        conflictScore (thinned n).plan = .ok a ∧ a.exact = [-1] ∧
        ∀ id, (id ∈ w'.session.matchIds Line.ascending.constraint ∨
          id ∈ w'.session.matchIds Line.descending.constraint) ↔ id = pairId (0, 2) := by
  obtain ⟨n, hn⟩ := exists_network
  have h : Assigned n (thinned n) := (Assigned.start _).assign (show 1 < 3 by decide) none
  have hb : (thinned n).plan.Addressable := show 3 ≤ 2 ^ 63 by decide
  obtain ⟨hscore, -, -, -, -, -, -, hrange⟩ := scores_count_conflicts hn h hb
  obtain ⟨a, w', e, efull, econflicts⟩ := hrange (thinned_inRange n)
  obtain ⟨hexact, htallies⟩ := hscore a w' e
  refine ⟨n, hn, h, hb, thinned_inRange n, a, w', e, efull, econflicts, hexact, fun id => ?_⟩
  have hpairs : diagonalPairs (thinned n).plan.rows = {(0, 2)} := by
    show diagonalPairs [some 0, none, some 2] = _
    decide
  rw [htallies.diagonal id, hpairs]
  simp

end PlanSearch.Queens
