import PlanSearch.Proofs.Phase.Construction
import PlanSearch.Proofs.Search.Visits
import PlanSearch.Proofs.Solver.Walk

/-!
# The best plan of a solve

A solve answers the earliest of the plans that it visited with the highest rank, with its full
score; what it published on the way ranks higher and higher, ends with the answer, and is counted in
the statistics.

    solver.solve fuel w = .ok x (ps, r) → solver.Champion full r x       (solve_champion)
-/

namespace PlanSearch

variable {S V W : Type} {sh : Shape}

/-! ## Phases -/

namespace SearchPhase

/-- The phase assigns to no variables but `X`. -/
def Over (X : Variable S V → Prop) : SearchPhase S V sh → Prop
  | construction p => p.Over X
  | localSearch p => p.neighbourhood.tree.Over X

variable {X : Variable S V → Prop} {ok : Slot S V → Prop} {good : W → Prop}
  {full : S → Checked (Score sh)} {p p' : SearchPhase S V sh} {isSearch : Nat → Bool} {fuel : Nat}
  {r r' : Run W S sh}

theorem over_of_forall₂ {ps ps' : List (SearchPhase S V sh)}
    (h : List.Forall₂ (fun p p' => p.Over X → p'.Over X) ps ps') (hX : ∀ p ∈ ps, p.Over X) :
    ∀ p ∈ ps', p.Over X := by
  induction h with
  | nil => exact nofun
  | cons hp _ ih =>
    obtain ⟨hfirst, hrest⟩ := List.forall_mem_cons.1 hX
    exact List.forall_mem_cons.2 ⟨hp hfirst, ih hrest⟩

variable [Plan S sh]

theorem Over.hear (h : p.Over X) (e : Event) (plan : S) (a : Option (Score sh)) :
    (p.hear e plan a).Over X := by
  cases p with
  | construction p =>
    intro placer hplacer
    obtain ⟨placer', hplacer', rfl⟩ := List.mem_map.1 hplacer
    exact h placer' hplacer'
  | localSearch p => exact h

variable [Workspace W S sh] [DecidableEq V] [ToString V]

theorem solve_books (hg : Workspace.Honest X ok good full) (hp : p.Over X)
    (hsearch : isSearch r.phases = p.isSearch) (h : r.Books good full (visits isSearch r.trace))
    {outcome : Outcome} (e : solve fuel (p, r) = .ok outcome (p', r')) :
    r'.Books good full (visits isSearch r'.trace) ∧ r'.phases = r.phases + 1 ∧
      visits isSearch r'.trace ≠ [] := by
  cases p with
  | construction p =>
    change wrap construction (Construction.solve (p, r)) = _ at e
    cases hsolve : Construction.solve (p, r) with
    | error _ _ =>
      rw [hsolve] at e
      cases e
    | ok outcome s =>
      rw [hsolve] at e
      cases e
      exact Construction.solve_books hg hp (by rw [hsearch]; exact Bool.false_ne_true) h hsolve
  | localSearch p =>
    change wrap localSearch (LocalSearch.solve fuel (p, r)) = _ at e
    cases hsolve : LocalSearch.solve fuel (p, r) with
    | error _ _ =>
      rw [hsolve] at e
      cases e
    | ok outcome s =>
      rw [hsolve] at e
      cases e
      exact LocalSearch.solve_books hg hp hsearch h hsolve

theorem validate_ok {p : SearchPhase S V sh} (h : p.validate = .ok ())
    (r : Run W S sh) : SolvingPhase.validate (p, r) = .ok () (p, r) := by
  simp only [SolvingPhase.validate, h]

theorem validate_failed {p : SearchPhase S V sh} {error : SolverError}
    (h : p.validate = .error error) (r : Run W S sh) :
    SolvingPhase.validate (p, r) = .error (.error error) (p, r) := by
  simp only [SolvingPhase.validate, h]

end SearchPhase

namespace Solver

/-- Whether the phase at a place is a local search. -/
def searches (solver : Solver (SearchPhase S V sh) S sh) (i : Nat) : Bool :=
  solver.phases[i]?.any SearchPhase.isSearch

theorem searches_of_forall₂ {solver : Solver (SearchPhase S V sh) S sh}
    {ps : List (SearchPhase S V sh)}
    (h : List.Forall₂ (fun p p' => p'.isSearch = p.isSearch) solver.phases ps) {i : Nat}
    {p : SearchPhase S V sh} (hi : ps[i]? = some p) : solver.searches i = p.isSearch := by
  obtain ⟨hlt, rfl⟩ := List.getElem?_eq_some_iff.1 hi
  have hlt' : i < solver.phases.length := h.length_eq ▸ hlt
  unfold searches
  rw [List.getElem?_eq_getElem hlt']
  exact ((List.forall₂_iff_get.1 h).2 i hlt' hlt).symm

variable [Plan S sh] {X : Variable S V → Prop} {ok : Slot S V → Prop} {good : W → Prop}
  {full : S → Checked (Score sh)} {ps ps' : List (SearchPhase S V sh)} {r r' : Run W S sh}
  {fuel : Nat} {solver : Solver (SearchPhase S V sh) S sh} {w : W} {x : Solved S sh}

theorem start_books (full : S → Checked (Score sh)) (hw : good w) :
    (solver.newRun w).start.Books good full [] where
  good := hw
  ledger := .empty full
  count := rfl

variable [Workspace W S sh]

/-- The plans that a run visited, newest first: if no phase ran, the one that it ended with. -/
def visited (solver : Solver (SearchPhase S V sh) S sh) (r : Run W S sh) : List S :=
  if r.phases = 0 then [r.plan] else visits solver.searches r.trace

/-- What a solve answers is the earliest of the visited plans of the highest rank, with its full
score, and the last of those that were published. -/
structure Champion (full : S → Checked (Score sh)) (solver : Solver (SearchPhase S V sh) S sh)
    (r : Run W S sh) (x : Solved S sh) : Prop where
  /-- Every visited plan has a rank. -/
  ranked : ∀ q ∈ solver.visited r, ∃ k, Plan.Ranks full q k
  leader : ∃ (p : S) (later earlier : List S), solver.visited r = later ++ p :: earlier ∧
    x.plan = Plan.setScore (some x.score) p ∧
    (∀ q ∈ earlier, ∀ k, Plan.Ranks full q k → (rankOf (p, x.score)).beats k) ∧
    (∀ q ∈ later, ∀ k, Plan.Ranks full q k → ¬k.beats (rankOf (p, x.score))) ∧
    (published r.trace).head? = some (p, x.score)
  full_plan : full x.plan = .ok x.score
  score_plan : Plan.score x.plan = some x.score
  /-- What was published later ranks higher. -/
  increasing : (published r.trace).Pairwise fun a b => (rankOf a).beats (rankOf b)
  counted : (published r.trace).length = x.stats.improvements

theorem champion_of_books (hg : Workspace.Honest X ok good full)
    (hscore : ∀ (a : Option (Score sh)) (p : S), Plan.score (Plan.setScore a p) = a)
    (h : r.Books good full (solver.visited r)) {b : Best S sh} (hb : r.best = some b)
    (hplan : x.plan = Plan.setScore (some b.rank.score) b.plan) (hx : x.score = b.rank.score)
    (hstats : x.stats.improvements = r.stats.improvements) : solver.Champion full r x := by
  obtain ⟨⟨later, earlier, hlead⟩, older, hpublished⟩ := h.ledger.leader b hb
  have hrank : rankOf (b.plan, x.score) = b.rank := by
    unfold rankOf
    rw [← hlead.ranks.1, hx]
  rw [← hx] at hplan hpublished
  refine ⟨fun q hq => ?_, ⟨b.plan, later, earlier, hlead.eq, hplan, ?_, ?_, ?_⟩, ?_, ?_,
    h.ledger.increasing, h.count.symm.trans hstats.symm⟩
  · obtain ⟨a, ha⟩ := h.ledger.scored q hq
    exact ⟨rankOf (q, a), rfl, ha⟩
  · rw [hrank]
    exact hlead.earlier
  · rw [hrank]
    exact hlead.later
  · rw [hpublished]
    rfl
  · rw [hplan, hg.full_setScore, hx]
    exact hlead.ranks.2
  · rw [hplan, hscore]

theorem conclude_champion (hg : Workspace.Honest X ok good full)
    (hscore : ∀ (a : Option (Score sh)) (p : S), Plan.score (Plan.setScore a p) = a)
    (e : conclude r = .ok x r') (h : r.Books good full (visits solver.searches r.trace))
    (hphases : r.phases = 0 ↔ visits solver.searches r.trace = []) :
    solver.Champion full r' x := by
  unfold conclude at e
  rw [Step.get_bind] at e
  cases hbest : r.best with
  | some b =>
    rw [hbest, if_neg (by exact Bool.false_ne_true)] at e
    dsimp only at e
    rw [Step.get_bind] at e
    unfold Run.bestScore at e
    rw [hbest] at e
    cases e
    have hran : r.phases ≠ 0 := fun hzero => by
      obtain ⟨⟨later, earlier, hlead⟩, -⟩ := h.ledger.leader b hbest
      rw [hphases.1 hzero] at hlead
      exact List.append_ne_nil_of_right_ne_nil later (List.cons_ne_nil _ _) hlead.eq.symm
    have hvisited : solver.visited r = visits solver.searches r.trace := if_neg hran
    refine champion_of_books hg hscore (hvisited ▸ h) hbest ?_ rfl rfl
    unfold Run.result
    rw [hbest]
  | none =>
    rw [hbest, if_pos (by rfl)] at e
    obtain ⟨improved, r₁, hupdate, e⟩ := Step.bind_eq_ok e
    obtain ⟨h₁, hwithin⟩ := h.updateBest hg hupdate
    have hnil := (h.ledger.blank hbest).1
    have hvisited : solver.visited r₁ = r₁.plan :: visits solver.searches r.trace := by
      rw [hnil]
      exact if_pos (hwithin.phases.trans (hphases.2 hnil))
    dsimp only at e
    rw [Step.get_bind] at e
    unfold Run.bestScore at e
    cases hbest₁ : r₁.best with
    | none => cases (h₁.ledger.blank hbest₁).1
    | some b =>
      rw [hbest₁] at e
      cases e
      refine champion_of_books hg hscore (hvisited ▸ h₁) hbest₁ ?_ rfl rfl
      unfold Run.result
      rw [hbest₁]

variable [DecidableEq V] [ToString V]

theorem solvePhase_eq_ok {p p' : SearchPhase S V sh}
    (e : solvePhase fuel (p, r) = .ok () (p', r')) :
    r.isTerminated ∧ r' = r ∨ ∃ outcome, SearchPhase.solve fuel (p, r) = .ok outcome (p', r') := by
  unfold solvePhase at e
  rw [Step.get_bind] at e
  dsimp only at e
  cases hterm : r.isTerminated with
  | true =>
    rw [hterm] at e
    cases e
    exact .inl ⟨rfl, rfl⟩
  | false =>
    rw [hterm] at e
    obtain ⟨outcome, s, hsolve, e⟩ := Step.bind_eq_ok e
    cases e
    exact .inr ⟨outcome, hsolve⟩

/-- Once the run is over, no phase works any more. -/
theorem solvePhases_terminated (h : r.isTerminated)
    (e : forEachPhase (solvePhase fuel) (ps, r) = .ok () (ps', r')) : r' = r := by
  induction ps generalizing ps' with
  | nil =>
    rw [forEachPhase] at e
    cases e
    rfl
  | cons p ps ih =>
    obtain ⟨p', r₁, ps'', hp, hrest, rfl⟩ := forEachPhase_cons_eq_ok e
    unfold solvePhase at hp
    rw [Step.get_bind] at hp
    dsimp only at hp
    rw [h] at hp
    cases hp
    exact ih hrest

/-- The phases are worked off in order, and the plan was visited if one was. -/
theorem solvePhases_books {isSearch : Nat → Bool} (hg : Workspace.Honest X ok good full)
    (e : forEachPhase (solvePhase fuel) (ps, r) = .ok () (ps', r')) (hX : ∀ p ∈ ps, p.Over X)
    (hkinds : ∀ j p, ps[j]? = some p → isSearch (r.phases + j) = p.isSearch)
    (h : r.Books good full (visits isSearch r.trace))
    (hphases : r.phases = 0 ↔ visits isSearch r.trace = []) :
    r'.Books good full (visits isSearch r'.trace) ∧
      (r'.phases = 0 ↔ visits isSearch r'.trace = []) := by
  induction ps generalizing r ps' with
  | nil =>
    rw [forEachPhase] at e
    cases e
    exact ⟨h, hphases⟩
  | cons p ps ih =>
    obtain ⟨hp, hrest⟩ := List.forall_mem_cons.1 hX
    obtain ⟨p', r₁, ps'', hsolve, hwalk, rfl⟩ := forEachPhase_cons_eq_ok e
    rcases solvePhase_eq_ok hsolve with ⟨hterm, rfl⟩ | ⟨outcome, hsolve⟩
    · obtain rfl := solvePhases_terminated hterm hwalk
      exact ⟨h, hphases⟩
    · obtain ⟨h₁, hcount, hvisits⟩ := SearchPhase.solve_books hg hp (hkinds 0 p rfl) h hsolve
      refine ih hwalk hrest (fun j q hq => ?_) h₁ ?_
      · rw [hcount, Nat.add_assoc, Nat.add_comm 1 j]
        exact hkinds (j + 1) q hq
      · rw [hcount]
        exact ⟨fun h => absurd h (Nat.succ_ne_zero _), fun h => absurd h hvisits⟩

/-! ## Solving -/

theorem checkPhase_eq_ok {p p' : SearchPhase S V sh} (e : checkPhase (p, r) = .ok () (p', r')) :
    p = p' ∧ r' = r := by
  unfold checkPhase at e
  obtain ⟨_, s, hvalidate, e⟩ := Step.bind_eq_ok e
  have hs : s = (p, r) := by
    cases hvalid : p.validate with
    | ok =>
      rw [p.validate_ok hvalid] at hvalidate
      cases hvalidate
      rfl
    | error =>
      rw [p.validate_failed hvalid] at hvalidate
      cases hvalidate
  rw [hs, Step.get_bind] at e
  dsimp only at e
  split at e
  · obtain ⟨needs, t, hneeds, e⟩ := Step.bind_eq_ok e
    cases hneeds
    split at e
    · cases e
    · cases e
      exact ⟨rfl, rfl⟩
  · cases e
    exact ⟨rfl, rfl⟩

/-- The phases are told of the start, which changes neither their kinds nor their variables. -/
theorem solvingStarted_eq_ok {p p' : SearchPhase S V sh}
    (e : SolvingPhase.solvingStarted (p, r) = .ok () (p', r')) :
    (p'.isSearch = p.isSearch ∧ (p.Over X → p'.Over X)) ∧ r' = r := by
  cases e
  exact ⟨⟨p.isSearch_hear _ _ _, fun h => h.hear _ _ _⟩, rfl⟩

theorem solvingEnded_eq_ok {p p' : SearchPhase S V sh}
    (e : SolvingPhase.solvingEnded (p, r) = .ok () (p', r')) : True ∧ r' = r := by
  cases e
  exact ⟨trivial, rfl⟩

theorem solve_champion (hg : Workspace.Honest X ok good full)
    (hX : ∀ p ∈ solver.phases, p.Over X) (hw : good w)
    (hscore : ∀ (a : Option (Score sh)) (p : S), Plan.score (Plan.setScore a p) = a)
    (e : solver.solve fuel w = .ok x (ps, r)) : solver.Champion full r x := by
  unfold solve work at e
  rw [Step.get_bind] at e
  dsimp only at e
  split at e
  · cases e
  obtain ⟨_, ⟨ps₁, r₁⟩, hcheck, e⟩ := Step.bind_eq_ok e
  rw [Step.modify_bind] at e
  obtain ⟨_, ⟨ps₂, r₂⟩, hannounce, e⟩ := Step.bind_eq_ok e
  obtain ⟨_, ⟨ps₃, r₃⟩, hstarted, e⟩ := Step.bind_eq_ok e
  obtain ⟨failure, ⟨ps₄, r₄⟩, hattempt, e⟩ := Step.bind_eq_ok e
  obtain ⟨_, ⟨ps₅, r₅⟩, hended, e⟩ := Step.bind_eq_ok e
  obtain ⟨_, ⟨ps₆, r₆⟩, hannounced, e⟩ := Step.bind_eq_ok e
  cases failure with
  | some error => cases e
  | none =>
    obtain ⟨r₇, hconclude, hr₇⟩ := Action.onPart_eq_ok e
    obtain ⟨-, rfl⟩ := Prod.mk.inj hr₇
    -- Nothing but the walk through the phases works on the run.
    obtain ⟨hps₁, rfl⟩ := forEachPhase_run checkPhase_eq_ok hcheck
    rw [List.forall₂_eq_eq_eq] at hps₁
    cases hannounce
    obtain ⟨hps₃, rfl⟩ := forEachPhase_run (solvingStarted_eq_ok (X := X)) hstarted
    obtain ⟨-, rfl⟩ := forEachPhaseBackward_run solvingEnded_eq_ok hended
    cases hannounced
    subst hps₁
    have hover : ∀ p ∈ ps₃, p.Over X := SearchPhase.over_of_forall₂ (hps₃.imp fun _ _ h => h.2) hX
    have hkinds : ∀ j p, ps₃[j]? = some p → solver.searches (0 + j) = p.isSearch := by
      intro j p hj
      rw [Nat.zero_add]
      exact searches_of_forall₂ (hps₃.imp fun _ _ h => h.1) hj
    obtain ⟨h₅, hphases⟩ := solvePhases_books hg (attempt_eq_ok_none hattempt) hover hkinds
      ((start_books full hw).announce _ _) ⟨fun _ => rfl, fun _ => rfl⟩
    exact conclude_champion hg hscore hconclude (h₅.announce _ _) hphases

end Solver

/-! ## A row -/

namespace Row

/-- Places sevens from the left and goes on with a local search. -/
def solver : Solver (SearchPhase Row Nat .simple) Row .simple where
  phases :=
    [.construction (.firstFit [{ entityClass := "Row", cell := cell, range := .listed [7] }]),
      .localSearch search]

/-- Two cells are filled, and each time a plan is published. -/
theorem solve_champion_solver : ∃ (x : Solved Row .simple)
    (ps : List (SearchPhase Row Nat .simple))
    (r : Run (RecomputingWorkspace Row .simple) Row .simple),
    solver.solve 5 (workspace [none, none, some 7]) = .ok x (ps, r) ∧
      (published r.trace).length = 2 ∧ solver.Champion rate r x := by
  have hover : ∀ p ∈ solver.phases, p.Over (· = cell) := by
    refine List.forall_mem_cons.2 ⟨fun placer hplacer => ?_, List.forall_mem_singleton.2 rfl⟩
    rw [List.mem_singleton.1 hplacer]
    rfl
  have hgood : RecomputingWorkspace.Keeps rate (workspace [none, none, some 7]) := ⟨rfl, nofun⟩
  have hok : (match solver.solve 5 (workspace [none, none, some 7]) with
      | .ok _ (_, r) => decide ((published r.trace).length = 2)
      | .error _ _ => false) = true := by decide +kernel
  cases e : solver.solve 5 (workspace [none, none, some 7]) with
  | error f s =>
    rw [e] at hok
    cases hok
  | ok x s =>
    rw [e] at hok
    obtain ⟨ps, r⟩ := s
    exact ⟨x, ps, r, rfl, of_decide_eq_true hok, Solver.solve_champion
      (RecomputingWorkspace.honest _ fun _ _ => rfl) hover hgood (fun _ _ => rfl) e⟩

end Row

end PlanSearch
