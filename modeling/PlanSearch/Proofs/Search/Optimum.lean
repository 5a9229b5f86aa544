import PlanSearch.Proofs.Mirror.Peers
import PlanSearch.Proofs.Neighbourhood.Upright
import PlanSearch.Proofs.Phase.Convergence
import PlanSearch.Proofs.Search.Climbing
import PlanSearch.Proofs.Search.Exhaustion

/-!
# Hill climbing ends on a strict optimum

A search that climbs hills through an orderly neighbourhood gives up after a step that accepted no
candidate. Nothing but the end of the neighbourhood can have ended that step, so every move that can
be applied was considered, and each was refused: it leads to a plan with a score below that of the
last step, which is the score of the plan that the phase ends with.

    x.answer = none → t.StrictOptimum x.after.2.run.workspace             (Seeker.optimum)
    solve … = .ok .noAcceptedMove (p', run') → t.StrictOptimum run'.workspace    (solve_optimum)
-/

namespace PlanSearch

variable {W S V : Type} {sh : Shape}

/-! ## Strict optima -/

section

variable [Workspace W S sh]

/-- The score of the plan is below `a`. -/
def Workspace.ScoresBelow (a : Score sh) (w : W) : Prop := ∃ b, fullScore w = .ok b ∧ b < a

instance (a : Score sh) (w : W) : Decidable (Workspace.ScoresBelow a w) :=
  match h : Workspace.fullScore w with
  | .ok b => decidable_of_iff (b < a) (by simp [Workspace.ScoresBelow, h])
  | .error _ => isFalse (by simp [Workspace.ScoresBelow, h])

variable [Plan S sh] [DecidableEq V]

/-- Every move of the tree that can be applied leads to a plan with a score below that of the plan. -/
def Tree.StrictOptimum (t : Tree S V) (w : W) : Prop :=
  ∃ a, Workspace.fullScore w = .ok a ∧
    ∀ m ∈ t.moves (Workspace.plan w),
      m.isDoable (Workspace.plan w) = false ∨ Workspace.ScoresBelow a (m.apply w)

instance (t : Tree S V) (w : W) : Decidable (t.StrictOptimum w) :=
  match h : Workspace.fullScore w with
  | .ok a =>
    decidable_of_iff (∀ m ∈ t.moves (Workspace.plan w),
      m.isDoable (Workspace.plan w) = false ∨ Workspace.ScoresBelow a (m.apply w))
      (by simp [Tree.StrictOptimum, h])
  | .error _ => isFalse (by simp [Tree.StrictOptimum, h])

end

namespace LocalSearch

/-! ## Searches that leave no candidate out -/

/-- Nothing ends a step but the end of the neighbourhood and candidates that were accepted. -/
structure Thorough (p : LocalSearch S V sh) : Prop where
  leavesIn : p.neighbourhood.tree.LeavesIn (· ≠ .random)
  candidateLimit : p.candidateLimit = none
  forager : p.forager.limit ≠ some 0
  threads : p.threads ≠ some 0

namespace Thorough

variable {p p' : LocalSearch S V sh}

theorem congr (h : p.Thorough) (hsetup : p'.setup = p.setup)
    (hforager : p'.forager.clear = p.forager.clear) : p'.Thorough := by
  have htree : p'.neighbourhood.tree = p.neighbourhood.tree := congrArg Setup.tree hsetup
  constructor
  · rw [htree]
    exact h.leavesIn
  · exact (congrArg Setup.candidateLimit hsetup).trans h.candidateLimit
  · rw [← p'.forager.limit_clear, hforager, p.forager.limit_clear]
    exact h.forager
  · rw [show p'.threads = p.threads from congrArg Setup.threads hsetup]
    exact h.threads

theorem mayDraw (h : p.Thorough) (hsetup : p'.setup = p.setup) (d : Draws) :
    p'.mayDraw d = true := by
  have htree : p'.neighbourhood.tree = p.neighbourhood.tree := congrArg Setup.tree hsetup
  have hlimit : p'.candidateLimit = none :=
    (congrArg Setup.candidateLimit hsetup).trans h.candidateLimit
  unfold LocalSearch.mayDraw
  rw [hlimit, htree, Tree.isNeverEnding_eq_false _ h.leavesIn]
  rfl

end Thorough

/-! ## The settings of the forager -/

theorem onScope_keeps_forager {α : Type} (x : Action (Scope W S sh) α) :
    Keeps (fun s : Searching W S V sh => s.1.forager.clear) (onScope x) := fun s => by
  unfold onScope Action.onPart
  cases x s.2 with
  | ok a sc => exact .ok rfl
  | error f sc => exact .error rfl

variable [Workspace W S sh]

theorem fire_keeps_forager (e : Event) (a : Score sh) :
    Keeps (fun s : Searching W S V sh => s.1.forager.clear) (fire e a) := fun s =>
  .ok (s.1.forager.clear_hear e)

variable [Plan S sh]

theorem overlooks_forager : Overlooks fun s : Searching W S V sh => s.1.forager.clear where
  drawn _ := rfl
  record _ _ := rfl
  workspace _ _ := rfl
  forager _ _ _ h := h
  source _ _ := rfl

theorem opening_keeps_forager :
    Keeps (fun s : Searching W S V sh => s.1.forager.clear) opening := by
  unfold opening
  refine .bind (.modify fun _ => rfl) fun _ => .bind (onScope_keeps_forager _) fun start => ?_
  refine .bind (.modify fun _ => rfl) fun _ => .bind (onScope_keeps_forager _) fun _ => ?_
  exact .bind (fire_keeps_forager _ _) fun _ => .pure _

variable [DecidableEq V] [ToString V]

theorem step_keeps_forager (fuel : Nat) (last : Score sh) :
    Keeps (fun s : Searching W S V sh => s.1.forager.clear) (step fuel last) := by
  unfold step
  refine .bind (fire_keeps_forager _ _) fun _ => .bind (.modify fun _ => rfl) fun _ => ?_
  refine .bind (overlooks_forager.forage_keeps fuel last) fun m? => ?_
  cases m? with
  | none => exact .bind (fire_keeps_forager _ _) fun _ => .pure _
  | some m =>
    refine .bind .get fun s => .bind (onScope_keeps_forager _) fun a => ?_
    exact .bind (onScope_keeps_forager _) fun _ => .bind (fire_keeps_forager _ _) fun _ => .pure _

/-! ## Steps without an accepted candidate -/

variable [Workspace.Lawful W] {X : Variable S V → Prop} {same : S → S → Prop} {good : W → Prop}
  {p : S} {tree : Tree S V} {last : Score sh} {s t g : Searching W S V sh} {fuel : Nat}

omit [ToString V] [Workspace.Lawful W] in
/-- If nothing was accepted, the forager is as it was when the step began. -/
theorem Collecting.forager_eq {seen : List (Move S V × Score sh)}
    (h : Collecting X same good (LocalSearch.begun last s) last seen g)
    (hrefused : s.1.accepted last seen = []) : g.1.forager = s.1.forager.clear := by
  have hkept := h.kept
  rw [accepted_begun, hrefused] at hkept
  exact (Prod.mk.inj hkept).1

omit [ToString V] in
/-- A candidate leads to the score that it was considered with, whichever end of a swap is named
first. -/
theorem Scored.fullScore_apply {n : Neighbourhood S V} {m m' : Move S V} {a : Score sh} {w : W}
    (hl : Lenses X same) (hg : Workspace.Exact X same good) (h : Scored X same good n p m' a)
    (hw : Workspace.Holds same good p w) (hupright : m'.upright = m.upright) :
    Workspace.fullScore (m.apply w) = .ok a := by
  have hm' := h.of.congr hl hw.same
  have hm : m.Of X (Workspace.plan w) := by
    rw [← Move.of_upright, ← hupright, Move.of_upright]
    exact hm'
  have hsame : same (Workspace.plan (m.apply w)) (Workspace.plan (m'.apply w)) := by
    rw [Move.plan_apply, Move.plan_apply]
    exact Move.on_of_upright_eq hl hm hupright
  rw [hg.fullScore_congr (hg.apply hl hm hw.good) (hg.apply hl hm' hw.good) hsame]
  exact h.leadsTo _ hw

/-- If nothing was accepted, a thorough search has considered all that can be applied. -/
theorem Ready.exhausts (hl : Lenses X same) (hg : Workspace.Exact X same good)
    (hP : Plan.SharesEntities same) (h : Ready X good s) (hthorough : s.1.Thorough)
    (hasks : s.1.neighbourhood.tree.AsksAlike same)
    (hfilters : s.1.neighbourhood.tree.FiltersIgnoreEnds p) (hp : same p s.2.run.plan)
    (e : gather fuel last (LocalSearch.begun last s) = .ok () g)
    (hforager : g.1.forager = s.1.forager.clear) :
    ∃ seen, Surveying X same good p (LocalSearch.begun last s) last seen true [] g := by
  obtain ⟨horderly, hleft⟩ := Neighbourhood.orderly_hear (n := s.1.neighbourhood)
    hthorough.leavesIn hfilters (hasks.blind hP) s.2.run.plan
    (show Event.stepStarted.restarts from rfl)
  have hbegin : Surveying X same good p (LocalSearch.begun last s) last [] false [] (LocalSearch.begun last s) := by
    refine ⟨h.begun hl last, horderly, List.forall_mem_nil _,
      fun hd => absurd hd Bool.false_ne_true, fun m hm => ⟨m, rfl, .left ?_⟩⟩
    rw [show (LocalSearch.begun last s).1.neighbourhood.left p = s.1.neighbourhood.tree.moves p from hleft]
    exact hm
  have hrounds := Surveying.rounds hl hg hP (b := LocalSearch.begun last s) h.treeOver hp last
  have htried : Tried (LocalSearch.begun last s) g := (Tried.loop _ last).gather ⟨rfl, rfl, .refl _⟩ e
  have hsetup : g.1.setup = s.1.setup :=
    htried.setup.trans (setup_hear .stepStarted s.2.run.plan (some last) s.1)
  have hthreads : (LocalSearch.begun last s).1.threads ≠ some 0 := hthorough.threads
  have hended := hrounds.gather (fun hidle => absurd hidle hthreads) ⟨[], hbegin⟩ e
  cases hended with
  | done _ hdone =>
    rw [hforager, Forager.isDone_clear hthorough.forager] at hdone
    cases hdone
  | dry h => exact h
  | limit _ hd =>
    rw [hthorough.mayDraw hsetup] at hd
    cases hd

/-- A climber that searches the neighbourhood `tree` thoroughly. -/
structure Seeker (X : Variable S V → Prop) (good : W → Prop) (tree : Tree S V)
    (told : List (Option (Score sh))) (last : Score sh) (s : Searching W S V sh) : Prop extends
    Climber X good told last s where
  thorough : s.1.Thorough
  tree : s.1.neighbourhood.tree = tree

namespace Seeker

variable {told : List (Option (Score sh))}

theorem step (hl : Lenses X same) (hg : Workspace.Exact X same good)
    (h : Seeker X good tree told last s) {answer : Option (Score sh)}
    (e : LocalSearch.step fuel last s = .ok answer t) :
    ∃ told, Seeker X good tree told (answer.getD last) t := by
  have hclimbs := h.toClimber.step hl hg fuel
  have hkept := step_keeps_forager fuel last s
  rw [e] at hclimbs hkept
  obtain ⟨-, hclimber⟩ | _ := hclimbs
  obtain ⟨hforager⟩ | _ := hkept
  have hsetup := (step_frame e).1
  exact ⟨_, hclimber, h.thorough.congr hsetup hforager, (congrArg Setup.tree hsetup).trans h.tree⟩

/-- A phase gives up after a step without an accepted candidate. -/
theorem steps_gaveUp (hl : Lenses X same) (hg : Workspace.Exact X same good) {rounds : Nat}
    (h : Seeker X good tree told last s) {a : Score sh}
    (e : steps fuel rounds last s = .ok (.noAcceptedMove, a) t) :
    ∃ (x : StepMade W S V sh fuel) (told : List (Option (Score sh))),
      Seeker X good tree told x.last x.before ∧ x.answer = none ∧ x.after = t := by
  induction rounds generalizing told last s with
  | zero => cases e
  | succ rounds ih =>
    rw [steps, Step.get_bind] at e
    dsimp only at e
    split at e
    · cases e
    obtain ⟨answer, s₁, hstep, e⟩ := Step.bind_eq_ok e
    obtain ⟨told₁, h₁⟩ := h.step hl hg hstep
    cases answer with
    | some b => exact ih h₁ e
    | none =>
      dsimp only at e
      cases hpolicy : s.1.noAcceptedMove with
      | terminate =>
        rw [hpolicy] at e
        cases e
        exact ⟨⟨_, s, none, t, hstep⟩, told, h, rfl, rfl⟩
      | proceed =>
        rw [hpolicy] at e
        dsimp only at e
        rw [mapScope_bind] at e
        have hcounted : Seeker X good tree told₁ last (s₁.1, s₁.2.countStep) :=
          ⟨⟨⟨h₁.good, h₁.treeOver⟩, h₁.full, h₁.outlook⟩, h₁.thorough, h₁.tree⟩
        exact ih hcounted e

/-- A step without an accepted candidate ends on a strict optimum. -/
theorem optimum (hl : Lenses X same) (hg : Workspace.Exact X same good) (hP : Plan.SharesEntities same)
    (hasks : tree.AsksAlike same) {x : StepMade W S V sh fuel}
    (h : Seeker X good tree told x.last x.before) (hanswer : x.answer = none)
    (hfilters : tree.FiltersIgnoreEnds (Workspace.plan x.after.2.run.workspace)) :
    tree.StrictOptimum x.after.2.run.workspace := by
  obtain rfl := h.tree
  obtain ⟨-, hready, hfull⟩ := h.toClimber.made hl hg x.made
  rw [hanswer] at hfull
  obtain ⟨hatomic, -⟩ := x.atomic hl hg h.toReady
  cases hatomic with
  | applied _ _ _ _ _ _ _ _ _ _ _ hsome =>
    rw [hanswer] at hsome
    cases hsome
  | unchanged seen₀ g gathered collected refused _ hplan =>
    have hforager : g.1.forager = x.before.1.forager.clear := collected.forager_eq refused
    obtain ⟨seen, hsurvey⟩ := h.toReady.exhausts hl hg hP h.thorough hasks hfilters
      (hl.equivalence.symm hplan) gathered hforager
    have hrefused : x.before.1.accepted x.last seen = [] := by
      refine hsurvey.held.eq_nil ?_
      show g.1.forager.picks = []
      rw [hforager, Forager.picks_clear]
    refine ⟨x.last, hfull, fun m hm => ?_⟩
    obtain ⟨m', hupright, hfate⟩ := hsurvey.covered m hm
    cases hfate with
    | left hmem =>
      rw [hsurvey.dry rfl] at hmem
      cases hmem
    | pending hmem => cases hmem
    | illegal hdo =>
      left
      rw [← Move.isDoable_upright, ← hupright, Move.isDoable_upright]
      exact hdo
    | @considered b hmem =>
      right
      have hscored := hsurvey.scored _ hmem
      refine ⟨b, hscored.fullScore_apply hl hg ⟨hready.good, hplan⟩ hupright, ?_⟩
      have hnot := List.filter_eq_nil_iff.1 hrefused _ hmem
      rw [show x.before.1.acceptance = .hillClimbing from congrArg Prod.fst h.outlook] at hnot
      rw [← Score.not_le]
      exact fun hle => hnot (decide_eq_true hle)

end Seeker

/-! ## Phases -/

/-- If a thorough search that climbs hills gives up, no move of its neighbourhood leads from the plan
that it ends with to one that is as good. Its neighbourhood may be searched in any order, by any
number of workers, and the accepted candidates be foraged in any way. -/
theorem solve_optimum (hl : Lenses X same) (hg : Workspace.Exact X same good)
    (hP : Plan.SharesEntities same) {p p' : LocalSearch S V sh} {run run' : Run W S sh}
    (hover : p.neighbourhood.tree.Over X) (hw : good run.workspace)
    (ha : p.acceptance = .hillClimbing) (hp : p.Thorough)
    (hasks : p.neighbourhood.tree.AsksAlike same)
    (hfilters : p.neighbourhood.tree.FiltersIgnoreEnds run'.plan)
    (e : solve fuel (p, run) = .ok .noAcceptedMove (p', run')) :
    p.neighbourhood.tree.StrictOptimum run'.workspace := by
  obtain ⟨sc', hwork, rfl⟩ := solve_eq_ok e
  rw [work_eq] at hwork
  obtain ⟨start, s, hopening, hwork⟩ := Step.bind_eq_ok hwork
  have hclimbs := opening_climbs hl hg
    (s := (p, (⟨{ index := run.beginPhase.1 }, run.beginPhase.2⟩ : Scope W S sh)))
    ⟨hw, hover⟩ (Prod.ext ha rfl)
  have hkept := opening_keeps_forager
    (p, (⟨{ index := run.beginPhase.1 }, run.beginPhase.2⟩ : Scope W S sh))
  rw [hopening] at hclimbs hkept
  obtain ⟨-, hclimber⟩ | _ := hclimbs
  obtain ⟨hforager⟩ | _ := hkept
  have hsetup := (opening_frame hopening).1
  obtain ⟨⟨outcome, last⟩, t, hsteps, hend⟩ := Step.bind_eq_ok hwork
  dsimp only at hend
  rw [fire_bind] at hend
  cases hend
  have hseeker : Seeker X good p.neighbourhood.tree _ start s :=
    ⟨hclimber, hp.congr hsetup hforager, congrArg Setup.tree hsetup⟩
  obtain ⟨x, told, hx, hanswer, rfl⟩ := hseeker.steps_gaveUp hl hg hsteps
  exact hx.optimum hl hg hP hasks hanswer hfilters

end LocalSearch

/-! ## Searches on a row -/

namespace Row

/-- Changes to seven, and swaps that spare the cell in the middle, in no particular order. -/
def sevensAndSwaps : Tree Row Nat :=
  .union
    [.change { entityClass := "Row", cell := cell, range := .listed [7] } .shuffled,
      .filter (.swap cell .shuffled) fun _ m => m.slots.all fun a => a.entity ≠ 1]
    false .equal

/-- Whether the search gives up in a run that `good` holds of. -/
def givesUp (fuel : Nat) (p : LocalSearch Row Nat .simple)
    (r : Run (RecomputingWorkspace Row .simple) Row .simple)
    (good : Run (RecomputingWorkspace Row .simple) Row .simple → Bool) : Bool :=
  match LocalSearch.solve fuel (p, r) with
  | .ok .noAcceptedMove (_, r') => good r'
  | _ => false

theorem gaveUp_of_givesUp {fuel : Nat} {p : LocalSearch Row Nat .simple}
    {r : Run (RecomputingWorkspace Row .simple) Row .simple}
    {good : Run (RecomputingWorkspace Row .simple) Row .simple → Bool}
    (h : givesUp fuel p r good) :
    ∃ p' r', LocalSearch.solve fuel (p, r) = .ok .noAcceptedMove (p', r') ∧ good r' := by
  unfold givesUp at h
  split at h
  · next p' r' e => exact ⟨p', r', e, h⟩
  · cases h

/-- Two cells are filled, and then no move can be applied. -/
theorem solve_optimum_sevens :
    let p : LocalSearch Row Nat .simple := { neighbourhood := .ofTree sevensAndSwaps }
    let r : Run (RecomputingWorkspace Row .simple) Row .simple :=
      { run with workspace := workspace [none, some 7, none], source := .given (fun _ => 0) 0 }
    ∃ p' r', LocalSearch.solve 9 (p, r) = .ok .noAcceptedMove (p', r') ∧ r'.steps = 2 ∧
      sevensAndSwaps.StrictOptimum r'.workspace := by
  intro p r
  have hthorough : p.Thorough :=
    ⟨⟨rfl, Order.noConfusion, Order.noConfusion, trivial⟩, rfl, (Option.some_ne_none 0).symm,
      (Option.some_ne_none 0).symm⟩
  have hasks : sevensAndSwaps.AsksAlike (Agree (· = cell)) :=
    ⟨fun hrandom => absurd hrandom Bool.false_ne_true, trivial, ⟨fun _ _ _ => rfl, trivial⟩, trivial⟩
  have hfilters : ∀ row, sevensAndSwaps.FiltersIgnoreEnds row := by
    intro row
    refine ⟨trivial, ⟨trivial, fun _ m => ?_⟩, trivial⟩
    rw [Bool.eq_iff_iff, List.all_eq_true, List.all_eq_true]
    simp only [Move.mem_slots_upright]
  have hsteps : givesUp 9 p r fun r' => decide (r'.steps = 2) := by decide +kernel
  have hover : p.neighbourhood.tree.Over (· = cell) := ⟨rfl, rfl, trivial⟩
  have hgood : RecomputingWorkspace.Keeps rate r.workspace :=
    ⟨rfl, fun a hcached => absurd hcached.symm (Option.some_ne_none a)⟩
  obtain ⟨p', r', e, hcount⟩ := gaveUp_of_givesUp hsteps
  exact ⟨p', r', e, of_decide_eq_true hcount, LocalSearch.solve_optimum lawful.lenses exact
    respects.sharesEntities hover hgood rfl hthorough hasks (hfilters _) e⟩

/-! ### Searches that give up too early -/

/-- The value of the first cell. -/
def lead (row : Row) : Checked (Score .simple) :=
  .ok (Score.single 0 (Int64.ofNat (row.cells.head?.join.getD 0)))

theorem exact_lead :
    Workspace.Exact (· = cell) (Agree (· = cell)) (RecomputingWorkspace.Keeps lead) :=
  RecomputingWorkspace.exact agree_setScore fun p q h => by
    unfold lead
    rw [cells_eq_of_agree h]

def leading (cells : List (Option Nat)) : Run (RecomputingWorkspace Row .simple) Row .simple where
  workspace := { plan := ⟨cells, none⟩, calculate := lead }
  source := .given (fun _ => 0) 0

/-- A search through an orderly neighbourhood without a limit of candidates climbs hills and gives
up, though not on a strict optimum. -/
structure GivesUpEarly (p : LocalSearch Row Nat .simple)
    (r : Run (RecomputingWorkspace Row .simple) Row .simple) : Prop where
  treeOver : p.neighbourhood.tree.Over (· = cell)
  leavesIn : p.neighbourhood.tree.LeavesIn (· ≠ .random)
  acceptance : p.acceptance = .hillClimbing
  candidateLimit : p.candidateLimit = none
  good : RecomputingWorkspace.Keeps lead r.workspace
  gaveUp : ∃ p' r', LocalSearch.solve 5 (p, r) = .ok .noAcceptedMove (p', r') ∧
    ¬ p.neighbourhood.tree.StrictOptimum r'.workspace

theorem gaveUp {p : LocalSearch Row Nat .simple}
    {r : Run (RecomputingWorkspace Row .simple) Row .simple}
    (h : givesUp 5 p r fun r' => !decide (p.neighbourhood.tree.StrictOptimum r'.workspace)) :
    ∃ p' r', LocalSearch.solve 5 (p, r) = .ok .noAcceptedMove (p', r') ∧
      ¬ p.neighbourhood.tree.StrictOptimum r'.workspace := by
  obtain ⟨p', r', e, hnot⟩ := gaveUp_of_givesUp h
  exact ⟨p', r', e, by simpa using hnot⟩

/-- A forager that is done after no accepted candidate, a filter that tells the ends of a swap apart
and a range that depends on the score in the plan each make a search give up early. -/
theorem gives_up_early :
    Lenses (· = cell) (Agree (S := Row) (· = cell)) ∧
    Workspace.Exact (· = cell) (Agree (· = cell)) (RecomputingWorkspace.Keeps lead) ∧
    GivesUpEarly
      { neighbourhood := .ofTree (.change
          { entityClass := "Row", cell := cell, range := .listed [3, 9] } .original)
        forager := .best (some 0) 0 none }
      (leading [some 5]) ∧
    GivesUpEarly
      { neighbourhood := .ofTree (.filter (.swap cell .shuffled) fun _ m =>
          m.slots.head?.any fun a => a.entity = 0) }
      (leading [some 5, some 9]) ∧
    GivesUpEarly
      { neighbourhood := .ofTree (.change
          { entityClass := "Row", cell := cell,
            range := .computed fun row => if row.score = some (Score.single 0 5) then [3] else [9] }
          .original) }
      (leading [some 5]) := by
  refine ⟨lawful.lenses, exact_lead, ?_, ?_, ?_⟩
  · exact ⟨rfl, nofun, rfl, rfl, ⟨rfl, nofun⟩, gaveUp (by decide +kernel)⟩
  · exact ⟨rfl, nofun, rfl, rfl, ⟨rfl, nofun⟩, gaveUp (by decide +kernel)⟩
  · exact ⟨rfl, nofun, rfl, rfl, ⟨rfl, nofun⟩, gaveUp (by decide +kernel)⟩

end Row

end PlanSearch
