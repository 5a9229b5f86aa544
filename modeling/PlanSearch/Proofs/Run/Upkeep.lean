import PlanSearch.Proofs.Lifecycle.Quiet
import PlanSearch.Proofs.Neighbourhood.Listed

/-!
# Keeping plans good

A plan is kept good by moves whose leaves are `fine`, if each such leaf keeps it good, and if the
values that it overwrites may be written back. Two workspaces are linked if, as long as all leaves
are `fine`, they hold the same plan and answer the same, be it a score or a failure. Then runs on
them go the same way, be they cut short in the middle, and all plans that they had at hand or told of
are good.

    Upkeep sh fine good → workspaces with one and the same good plan are linked      (Upkeep.linked)
    Linked fine good R → m.All fine → scoring m goes the same way          (Linked.scoreCandidate)
    Linked fine good R → updating the best plan goes the same way            (Run.updateBest_upkept)
-/

namespace PlanSearch

variable {σ τ σ' τ' α β P W W' S V : Type} {sh : Shape}

/-! ## Computations in step -/

/-- Two computations end in the same way: with the same answer, one within `Q`, or with the same
failure. What they leave is within `I`. -/
inductive InStep (I : σ → τ → Prop) (Q : α → Prop) :
    EStateM.Result Failure σ α → EStateM.Result Failure τ α → Prop
  | ok {a : α} {s : σ} {t : τ} (ha : Q a) (h : I s t) : InStep I Q (.ok a s) (.ok a t)
  | error {f : Failure} {s : σ} {t : τ} (h : I s t) : InStep I Q (.error f s) (.error f t)

/-- From states within `I` on, the actions end in the same way. -/
def Maintains (I : σ → τ → Prop) (Q : α → Prop) (x : Action σ α) (y : Action τ α) : Prop :=
  ∀ s t, I s t → InStep I Q (x s) (y t)

namespace InStep

variable {I J : σ → τ → Prop} {Q : α → Prop} {R : β → Prop}

/-- What is left by the first computation is put up with if it fails. -/
theorem bind {x : Action σ α} {y : Action τ α} {f : α → Action σ β} {g : α → Action τ β} {s : σ}
    {t : τ} (h : InStep I Q (x s) (y t)) (hf : ∀ a s t, Q a → I s t → InStep J R (f a s) (g a t))
    (hJ : ∀ s t, I s t → J s t) : InStep J R ((x >>= f) s) ((y >>= g) t) := by
  show InStep J R (EStateM.bind x f s) (EStateM.bind y g t)
  unfold EStateM.bind
  generalize x s = u at h
  generalize y t = v at h
  cases h with
  | ok ha h => exact hf _ _ _ ha h
  | error h => exact .error (hJ _ _ h)

theorem imp {Q' : α → Prop} {x : EStateM.Result Failure σ α} {y : EStateM.Result Failure τ α}
    (h : InStep I Q x y) (hI : ∀ s t, I s t → J s t) (hQ : ∀ a, Q a → Q' a) : InStep J Q' x y := by
  cases h with
  | ok ha h => exact .ok (hQ _ ha) (hI _ _ h)
  | error h => exact .error (hI _ _ h)

end InStep

namespace Maintains

variable {I : σ → τ → Prop} {J : σ' → τ' → Prop} {Q : α → Prop} {R : β → Prop} {x x' : Action σ α}
  {y y' : Action τ α}

theorem pure {a : α} (h : Q a) : Maintains I Q (pure a : Action σ α) (pure a) :=
  fun _ _ hst => .ok h hst

theorem throw (f : Failure) : Maintains I Q (throw f : Action σ α) (throw f) :=
  fun _ _ hst => .error hst

theorem modify {f : σ → σ} {g : τ → τ} (h : ∀ s t, I s t → I (f s) (g t)) :
    Maintains I (fun _ => True) (modify f : Action σ PUnit) (modify g) :=
  fun s t hst => .ok trivial (h s t hst)

theorem bind {f : α → Action σ β} {g : α → Action τ β} (hx : Maintains I Q x y)
    (hf : ∀ a, Q a → Maintains I R (f a) (g a)) : Maintains I R (x >>= f) (y >>= g) :=
  fun s t hst => (hx s t hst).bind (fun a s t ha hst => hf a ha s t hst) fun _ _ => id

theorem get_bind {f : σ → Action σ β} {g : τ → Action τ β}
    (h : ∀ s t, I s t → Maintains I R (f s) (g t)) : Maintains I R (get >>= f) (get >>= g) :=
  fun s t hst => h s t hst s t hst

theorem ite {c : Prop} [Decidable c] (hx : Maintains I Q x y) (hx' : Maintains I Q x' y') :
    Maintains I Q (if c then x else x') (if c then y else y') := by
  split
  · exact hx
  · exact hx'

theorem onPart {get : σ' → σ} {set : σ → σ' → σ'} {get' : τ' → τ} {set' : τ → τ' → τ'}
    (hx : Maintains I Q x y) (hget : ∀ s t, J s t → I (get s) (get' t))
    (hset : ∀ u v s t, J s t → I u v → J (set u s) (set' v t)) :
    Maintains J Q (Action.onPart get set x) (Action.onPart get' set' y) := fun s t hst => by
  have hstep := hx _ _ (hget s t hst)
  unfold Action.onPart
  generalize x (get s) = u at hstep
  generalize y (get' t) = v at hstep
  cases hstep with
  | ok ha h => exact .ok ha (hset _ _ s t hst h)
  | error h => exact .error (hset _ _ s t hst h)

theorem ofExcept (z : Except Failure α) :
    Maintains I (fun _ => True) (ofExcept z : Action σ α) (ofExcept z) := by
  cases z with
  | error f => exact throw f
  | ok a => exact pure trivial

theorem ofChecked (z : Checked α) :
    Maintains I (fun _ => True) (Action.ofChecked z : Action σ α) (Action.ofChecked z) :=
  fun s t hst => by
    unfold Action.ofChecked
    split
    · exact .ok trivial hst
    · exact .error hst

end Maintains

/-! ## Plans and workspaces -/

section

variable [Plan S sh]

/-- Leaves that are `fine` keep plans good, as does what may be written back to their slots and a
score that is stored. -/
structure Upkeep (sh : Shape) [Plan S sh] (fine : Leaf S V → Prop) (good : S → Prop) : Prop where
  leaf : ∀ {p : S} {leaf : Leaf S V}, good p → fine leaf → good (leaf.on p)
  restore : ∀ {p : S} {leaf : Leaf S V} {a : Slot S V}, good p → fine leaf → a ∈ leaf.slots →
    fine (.change a.cell a.entity (a.get p))
  setScore : ∀ {p : S} (a : Option (Score sh)), good p → good (Plan.setScore a p)

variable [Workspace W S sh] [Workspace W' S sh]

/-- Workspaces within `R` hold the same plan, which is good, and answer the same; leaves that are
`fine` leave them within `R`. -/
structure Linked (fine : Leaf S V → Prop) (good : S → Prop) (R : W → W' → Prop) : Prop
    extends Upkeep sh fine good where
  plan : ∀ {w : W} {v : W'}, R w v → Workspace.plan v = Workspace.plan w
  good : ∀ {w : W} {v : W'}, R w v → good (Workspace.plan w)
  calculations : ∀ {w : W} {v : W'}, R w v → Workspace.calculations v = Workspace.calculations w
  fullScore : ∀ {w : W} {v : W'}, R w v → Workspace.fullScore v = Workspace.fullScore w
  applyLeaf : ∀ {w : W} {v : W'} {leaf : Leaf S V}, R w v → fine leaf →
    R (leaf.apply w) (leaf.apply v)
  restart : ∀ {w : W} {v : W'}, R w v → R (Workspace.restart w) (Workspace.restart v)
  scoreNow : Maintains R (fun _ => True) Workspace.scoreNow Workspace.scoreNow

variable {fine : Leaf S V → Prop} {good : S → Prop} {R : W → W' → Prop} {m : Move S V} {w : W}
  {v : W'} {p : S}

theorem Upkeep.undo (h : Upkeep sh fine good) (hm : m.All fine) (hp : good p) :
    (m.undo p).All fine := by
  cases m with
  | leaf m =>
    have hleaf : fine m := hm m List.mem_cons_self
    cases m with
    | change x entity value => exact Move.all_leaf (h.restore hp hleaf List.mem_cons_self)
    | swap x left right => exact Move.all_leaf hleaf
  | composite parts =>
    intro leaf hleaf
    rw [Move.leaves_undo_composite] at hleaf
    obtain ⟨a, ha, rfl⟩ := List.mem_map.1 hleaf
    obtain ⟨part, hpart, ha⟩ := Move.mem_slots.1 (Slot.mem_of_mem_distinct ha)
    exact h.restore hp (hm part hpart) ha

section

variable [Workspace.Lawful W]

theorem Upkeep.good_restart (hw : good (Workspace.plan w)) :
    good (Workspace.plan (Workspace.restart w)) := by
  unfold Workspace.restart
  rw [Workspace.Lawful.plan_reset]
  exact hw

theorem Upkeep.good_score (h : Upkeep sh fine good) (hw : good (Workspace.plan w)) {a : Score sh}
    {w' : W} (e : Workspace.score w = .ok a w') : good (Workspace.plan w') := by
  rcases Workspace.Lawful.plan_score e with hplan | hplan
  · rwa [hplan]
  · rw [hplan]
    exact h.setScore _ hw

/-- One and the same workspace, with a good plan. -/
def Workspace.Good (good : S → Prop) (w v : W) : Prop := v = w ∧ good (plan w)

/-- The plan is all that matters of a workspace if what happens to one is compared with itself. -/
theorem Upkeep.linked (h : Upkeep sh fine good) :
    Linked fine good (Workspace.Good good : W → W → Prop) where
  toUpkeep := h
  plan hw := congrArg _ hw.1
  good hw := hw.2
  calculations hw := congrArg _ hw.1
  fullScore hw := congrArg _ hw.1
  applyLeaf {w v leaf} hw hleaf := by
    refine ⟨congrArg _ hw.1, ?_⟩
    rw [leaf.plan_apply]
    exact h.leaf hw.2 hleaf
  restart hw := ⟨congrArg _ hw.1, good_restart hw.2⟩
  scoreNow := by
    rintro _ w ⟨rfl, hgood⟩
    unfold Workspace.scoreNow
    cases e : Workspace.score w with
    | ok a w' => exact .ok trivial ⟨rfl, h.good_score hgood e⟩
    | error f w' =>
      refine .error ⟨rfl, ?_⟩
      rwa [Workspace.Lawful.plan_score_error e]

end

namespace Linked

theorem apply (h : Linked fine good R) (hm : m.All fine) (hwv : R w v) :
    R (m.apply w) (m.apply v) := by
  unfold Move.apply
  unfold Move.All at hm
  generalize m.leaves = leaves at hm
  induction leaves generalizing w v with
  | nil => exact hwv
  | cons leaf leaves ih =>
    obtain ⟨hleaf, hrest⟩ := List.forall_mem_cons.1 hm
    exact ih (h.applyLeaf hwv hleaf) hrest

theorem checkedScore (h : Linked fine good R) (context : String) :
    Maintains R (fun _ => True) (Workspace.checkedScore context)
      (Workspace.checkedScore context) := by
  refine .bind h.scoreNow fun a _ => .get_bind fun w v hwv => ?_
  rw [h.fullScore hwv]
  exact .bind (.ofChecked _) fun full _ => .ite (.pure trivial) (.throw _)

variable [ToString V]

/-- A candidate that is scored is taken back by leaves that are `fine`. -/
theorem scoreCandidate (h : Linked fine good R) (hm : m.All fine) (mode : Mode) :
    Maintains R (fun _ => True) (PlanSearch.scoreCandidate mode m)
      (PlanSearch.scoreCandidate mode m) := by
  have hdo : Maintains R (fun _ => True) (modify m.apply) (modify m.apply) :=
    .modify fun _ _ => h.apply hm
  have hundo : ∀ p, good p →
      Maintains R (fun _ => True) (modify (m.undo p).apply) (modify (m.undo p).apply) :=
    fun p hp => .modify fun _ _ => h.apply (h.undo hm hp)
  unfold PlanSearch.scoreCandidate
  refine .ite ?_ ?_
  · refine .bind h.scoreNow fun before _ => .get_bind fun w v hwv => ?_
    rw [h.plan hwv]
    refine .bind hdo fun _ _ => .bind (h.checkedScore _) fun score _ => ?_
    refine .bind (hundo _ (h.good hwv)) fun _ _ => .bind h.scoreNow fun after _ => ?_
    exact .ite (.bind (h.checkedScore _) fun _ _ => .pure trivial) (.throw _)
  · refine .get_bind fun w v hwv => ?_
    rw [h.plan hwv]
    refine .bind hdo fun _ _ => .bind h.scoreNow fun score _ => ?_
    exact .bind (hundo _ (h.good hwv)) fun _ _ => .pure trivial

theorem scoreEach_eq (h : Linked fine good R) (mode : Mode) {ms : List (Move S V)}
    (hms : ∀ m ∈ ms, m.All fine) (hwv : R w v) : scoreEach mode ms v = scoreEach mode ms w := by
  induction ms generalizing w v with
  | nil => rfl
  | cons m ms ih =>
    obtain ⟨hm, hrest⟩ := List.forall_mem_cons.1 hms
    have hstep := h.scoreCandidate hm mode w v hwv
    unfold scoreEach
    generalize PlanSearch.scoreCandidate mode m w = x at hstep
    generalize PlanSearch.scoreCandidate mode m v = y at hstep
    cases hstep with
    | ok _ hwv =>
      dsimp only
      rw [ih hrest hwv]
    | @error f _ _ hwv =>
      cases f with
      | error e =>
        dsimp only
        rw [ih hrest hwv]
      | fault f => rfl
      | outOfFuel => rfl

/-- Workers on copies of linked workspaces answer the same. -/
theorem scoreBatch_eq (h : Linked fine good R) (mode : Mode) (threads : Nat)
    {batch : List (Move S V)} (hbatch : ∀ m ∈ batch, m.All fine) (hwv : R w v) :
    scoreBatch mode threads batch v = scoreBatch mode threads batch w := by
  unfold scoreBatch
  dsimp only
  rw [Checked.mapM_congr fun run hrun =>
    h.scoreEach_eq mode (fun m hm => hbatch m (mem_of_mem_runsOf hrun hm)) hwv]

end Linked

end

/-! ## Runs -/

/-- The plan that listeners are told of. -/
def Notice.plan : Notice S sh → S
  | .improved plan _ => plan
  | .event _ context => context.plan

/-- The plan at hand, the best one and all that listeners were told of are good. -/
structure Run.Sound [Workspace W S sh] (good : S → Prop) (r : Run W S sh) : Prop where
  plan : good r.plan
  best : ∀ b, r.best = some b → good b.plan
  trace : ∀ n ∈ r.trace, good n.plan

/-- The runs differ in their workspaces only, which are within `R`, and the best plan and all that
listeners were told of are good. -/
inductive Run.Upkept (R : W → W' → Prop) (good : S → Prop) : Run W S sh → Run W' S sh → Prop
  | intro {r : Run W S sh} {v : W'} (workspace : R r.workspace v)
    (best : ∀ b, r.best = some b → good b.plan) (trace : ∀ n ∈ r.trace, good n.plan) :
    Upkept R good r { r with workspace := v }

variable {fine : Leaf S V → Prop} {good : S → Prop} {R : W → W' → Prop}

namespace Run

variable {r : Run W S sh} {r' : Run W' S sh}

theorem onWorkspace_upkept {Q : α → Prop} {x : Action W α} {y : Action W' α}
    (hx : Maintains R Q x y) :
    Maintains (Upkept R good) Q (onWorkspace x : Action (Run W S sh) α) (onWorkspace y) := by
  rintro r _ ⟨hR, hbest, htrace⟩
  have hstep := hx _ _ hR
  unfold onWorkspace
  dsimp only
  generalize x r.workspace = u at hstep
  generalize y _ = v at hstep
  cases hstep with
  | @ok a w v ha hR => exact .ok ha (.intro (r := { r with workspace := w }) hR hbest htrace)
  | @error f w v hR => exact .error (.intro (r := { r with workspace := w }) hR hbest htrace)

theorem Upkept.announce (h : r.Upkept R good r') {n : Notice S sh} (hn : good n.plan) :
    (r.announce n).Upkept R good (r'.announce n) := by
  obtain ⟨hR, hbest, htrace⟩ := h
  exact .intro (r := r.announce n) hR hbest (List.forall_mem_cons.2 ⟨hn, htrace⟩)

theorem Upkept.source (h : r.Upkept R good r') : r'.source = r.source := by
  obtain ⟨-, -, -⟩ := h
  rfl

theorem Upkept.mode (h : r.Upkept R good r') : r'.mode = r.mode := by
  obtain ⟨-, -, -⟩ := h
  rfl

theorem Upkept.termination (h : r.Upkept R good r') : r'.termination = r.termination := by
  obtain ⟨-, -, -⟩ := h
  rfl

theorem Upkept.phases (h : r.Upkept R good r') : r'.phases = r.phases := by
  obtain ⟨-, -, -⟩ := h
  rfl

theorem Upkept.best_eq (h : r.Upkept R good r') : r'.best = r.best := by
  obtain ⟨-, -, -⟩ := h
  rfl

theorem Upkept.bestScore (h : r.Upkept R good r') : r'.bestScore = r.bestScore :=
  congrArg (Option.map _) h.best_eq

theorem Upkept.isTerminated (h : r.Upkept R good r') : r'.isTerminated = r.isTerminated := by
  obtain ⟨-, -, -⟩ := h
  rfl

theorem Upkept.workspace (h : r.Upkept R good r') : R r.workspace r'.workspace := by
  obtain ⟨hR, -, -⟩ := h
  exact hR

theorem Upkept.setSource (h : r.Upkept R good r') (source : Source) :
    Upkept R good { r with source } { r' with source } := by
  obtain ⟨hR, hbest, htrace⟩ := h
  exact .intro (r := { r with source }) hR hbest htrace

theorem Upkept.record (h : r.Upkept R good r') (f : Stats → Stats) :
    (r.record f).Upkept R good (r'.record f) := by
  obtain ⟨hR, hbest, htrace⟩ := h
  exact .intro (r := r.record f) hR hbest htrace

theorem Upkept.countStep (h : r.Upkept R good r') : r.countStep.Upkept R good r'.countStep := by
  obtain ⟨hR, hbest, htrace⟩ := h
  exact .intro (r := r.countStep) hR hbest htrace

theorem Upkept.start (h : r.Upkept R good r') : r.start.Upkept R good r'.start := by
  obtain ⟨hR, hbest, htrace⟩ := h
  exact .intro (r := r.start) hR hbest htrace

theorem Upkept.beginPhase (h : r.Upkept R good r') :
    r.beginPhase.2.Upkept R good r'.beginPhase.2 := by
  obtain ⟨hR, hbest, htrace⟩ := h
  exact .intro (r := r.beginPhase.2) hR hbest htrace

section

variable [Plan S sh] [Workspace W S sh] [Workspace W' S sh] (h : Linked fine good R)

include h

theorem Upkept.plan (hr : r.Upkept R good r') : r'.plan = r.plan := by
  obtain ⟨hR, -, -⟩ := hr
  exact h.plan hR

theorem Upkept.goodPlan (hr : r.Upkept R good r') : good r.plan := by
  obtain ⟨hR, -, -⟩ := hr
  exact h.good hR

theorem Upkept.result (hr : r.Upkept R good r') : r'.result = r.result := by
  have hplan := hr.plan h
  obtain ⟨hR, -, -⟩ := hr
  unfold Run.result
  rw [hplan]
  dsimp only
  rw [h.calculations hR]

theorem Upkept.goodResult (hr : r.Upkept R good r') : good r.result.1 := by
  have hplan := hr.goodPlan h
  obtain ⟨-, hbest, -⟩ := hr
  unfold Run.result
  cases hb : r.best with
  | none => exact hplan
  | some b => exact hbest b hb

theorem Upkept.sound (hr : r.Upkept R good r') : r.Sound good := by
  obtain ⟨hR, hbest, htrace⟩ := hr
  exact ⟨h.good hR, hbest, htrace⟩

theorem Upkept.event (hr : r.Upkept R good r') (e : Event) (i j : Nat) (a : Option (Score sh)) :
    (r.announce (.event e (r.context i j a))).Upkept R good
      (r'.announce (.event e (r'.context i j a))) := by
  have hcontext : r'.context i j a = r.context i j a := by
    have hplan := hr.plan h
    obtain ⟨hR, -, -⟩ := hr
    unfold context
    rw [hplan]
    rfl
  rw [hcontext]
  exact hr.announce (hr.goodPlan h)

theorem Upkept.restartWorkspace (hr : r.Upkept R good r') :
    r.restartWorkspace.Upkept R good r'.restartWorkspace := by
  obtain ⟨hR, hbest, htrace⟩ := hr
  exact .intro (r := r.restartWorkspace) (h.restart hR) hbest htrace

theorem scoreNow_upkept :
    Maintains (Upkept R good) (fun _ => True) (scoreNow : Action (Run W S sh) (Score sh)) scoreNow :=
  onWorkspace_upkept h.scoreNow

theorem Upkept.improve (hr : r.Upkept R good r') (k : Rank sh) :
    Upkept R good
      { r with
        best := some ⟨r.plan, k⟩
        lastImprovement := r.steps
        stats := r.stats.recordImprovement }
      { r' with
        best := some ⟨r'.plan, k⟩
        lastImprovement := r'.steps
        stats := r'.stats.recordImprovement } := by
  rw [hr.plan h]
  obtain ⟨hR, -, htrace⟩ := hr
  have hbest : ∀ b, some (Best.mk r.plan k) = some b → good b.plan := fun b hb => by
    cases hb
    exact h.good hR
  exact .intro (r := { r with
    best := some ⟨r.plan, k⟩
    lastImprovement := r.steps
    stats := r.stats.recordImprovement }) hR hbest htrace

theorem updateBest_upkept :
    Maintains (Upkept R good) (fun _ => True) (updateBest : Action (Run W S sh) Bool) updateBest := by
  refine .bind (scoreNow_upkept h) fun a _ => .get_bind fun r r' hr => ?_
  have hbest : r'.best = r.best := by
    obtain ⟨-, -, -⟩ := hr
    rfl
  have himproved := fun k => ((hr.announce (n := .improved r.plan a) (hr.goodPlan h))).improve h k
  dsimp only
  rw [hr.plan h, hbest]
  exact .ite (fun _ _ _ => .ok trivial (himproved _)) (.pure trivial)

end

end Run

/-! ## Scopes and phases -/

/-- The spans are the same, and the runs differ in their workspaces only. -/
inductive Scope.Upkept (R : W → W' → Prop) (good : S → Prop) : Scope W S sh → Scope W' S sh → Prop
  | intro {span : Span sh} {r : Run W S sh} {r' : Run W' S sh} (run : r.Upkept R good r') :
    Upkept R good ⟨span, r⟩ ⟨span, r'⟩

/-- The phases are the same and within `C`, and the scopes differ in their workspaces only. -/
inductive Phase.Upkept (C : P → Prop) (R : W → W' → Prop) (good : S → Prop) :
    P × Scope W S sh → P × Scope W' S sh → Prop
  | intro {p : P} {span : Span sh} {r : Run W S sh} {r' : Run W' S sh} (phase : C p)
    (run : r.Upkept R good r') : Upkept C R good (p, ⟨span, r⟩) (p, ⟨span, r'⟩)

theorem Scope.Upkept.countStep {sc : Scope W S sh} {sc' : Scope W' S sh}
    (h : sc.Upkept R good sc') : sc.countStep.Upkept R good sc'.countStep := by
  obtain ⟨hr⟩ := h
  exact .intro hr.countStep

namespace Phase.Upkept

variable {C C' : P → Prop} {s : P × Scope W S sh} {t : P × Scope W' S sh}

theorem of_scope {p : P} {sc : Scope W S sh} {sc' : Scope W' S sh} (hp : C p)
    (h : sc.Upkept R good sc') : Upkept C R good (p, sc) (p, sc') := by
  obtain ⟨hr⟩ := h
  exact .intro hp hr

theorem imp (h : Upkept C R good s t) (hC : ∀ p, C p → C' p) : Upkept C' R good s t := by
  obtain ⟨hp, hr⟩ := h
  exact .intro (hC _ hp) hr

theorem phase_eq (h : Upkept C R good s t) : t.1 = s.1 := by
  obtain ⟨-, -⟩ := h
  rfl

theorem span_eq (h : Upkept C R good s t) : t.2.span = s.2.span := by
  obtain ⟨-, -⟩ := h
  rfl

theorem phase (h : Upkept C R good s t) : C s.1 := by
  obtain ⟨hp, -⟩ := h
  exact hp

theorem run (h : Upkept C R good s t) : s.2.run.Upkept R good t.2.run := by
  obtain ⟨-, hr⟩ := h
  exact hr

theorem isTerminated (h : Upkept C R good s t) (own : Option (Termination sh)) :
    t.2.isTerminated own = s.2.isTerminated own := by
  obtain ⟨-, ⟨-, -, -⟩⟩ := h
  rfl

end Phase.Upkept

section

variable {C : P → Prop} {Q : α → Prop}

theorem onScope_upkept {x : Action (Scope W S sh) α} {y : Action (Scope W' S sh) α}
    (hx : Maintains (Scope.Upkept R good) Q x y) :
    Maintains (Phase.Upkept (P := P) C R good) Q (onScope x) (onScope y) := by
  refine hx.onPart ?_ ?_
  · rintro _ _ ⟨-, hr⟩
    exact .intro hr
  · rintro _ _ _ _ ⟨hp, -⟩ ⟨hr⟩
    exact .intro hp hr

theorem Scope.onRun_upkept {x : Action (Run W S sh) α} {y : Action (Run W' S sh) α}
    (hx : Maintains (Run.Upkept R good) Q x y) :
    Maintains (Scope.Upkept R good) Q (Scope.onRun x) (Scope.onRun y) := by
  refine hx.onPart ?_ ?_
  · rintro _ _ ⟨hr⟩
    exact hr
  · rintro _ _ _ _ ⟨-⟩ hr
    exact .intro hr

theorem onRun_upkept {x : Action (Run W S sh) α} {y : Action (Run W' S sh) α}
    (hx : Maintains (Run.Upkept R good) Q x y) :
    Maintains (Phase.Upkept (P := P) C R good) Q (onScope (Scope.onRun x))
      (onScope (Scope.onRun y)) :=
  onScope_upkept (Scope.onRun_upkept hx)

theorem mapScope_upkept {f : Scope W S sh → Scope W S sh} {g : Scope W' S sh → Scope W' S sh}
    (h : ∀ sc sc', sc.Upkept R good sc' → (f sc).Upkept R good (g sc')) :
    Maintains (Phase.Upkept (P := P) C R good) (fun _ => True) (mapScope f) (mapScope g) := by
  refine .modify ?_
  rintro _ _ ⟨hp, hr⟩
  exact .of_scope hp (h _ _ (.intro hr))

theorem mapRun_upkept {f : Run W S sh → Run W S sh} {g : Run W' S sh → Run W' S sh}
    (h : ∀ r r', r.Upkept R good r' → (f r).Upkept R good (g r')) :
    Maintains (Phase.Upkept (P := P) C R good) (fun _ => True) (mapScope fun sc => sc.mapRun f)
      (mapScope fun sc => sc.mapRun g) :=
  mapScope_upkept fun _ _ ⟨hr⟩ => .intro (h _ _ hr)

variable [Plan S sh] [Workspace W S sh] [Workspace W' S sh] (h : Linked fine good R)

include h

theorem Scope.updateBest_upkept :
    Maintains (Scope.Upkept R good) (fun _ => True) (updateBest : Action (Scope W S sh) Bool)
      updateBest := by
  refine .bind (Scope.onRun_upkept (Run.updateBest_upkept h)) fun improved _ => ?_
  dsimp only
  split
  · refine .bind (.modify ?_) fun _ _ => .pure trivial
    rintro _ _ ⟨hr⟩
    exact .intro hr
  · exact .pure trivial

theorem Scope.completeStep_upkept :
    Maintains (Scope.Upkept R good) (fun _ => True) (completeStep : Action (Scope W S sh) Bool)
      completeStep := by
  exact .bind (.modify fun _ _ h => h.countStep) fun _ _ => Scope.updateBest_upkept h

end

end PlanSearch
