import PlanSearch.Proofs.Run.Ledger
import PlanSearch.Proofs.Search.LocalSearch
import PlanSearch.Proofs.Search.Loop

/-!
# The plans that a local search visits

While a step collects candidates nothing is visited: candidates are applied and taken back, which
may or may not restore the plan. The plans visited are the one that the search starts with and the
one after each candidate that it commits, and the books of the run are kept on these.

    gather fuel last s = .ok () t → s.2.run.Tries t.2.run                (Foraging.gather)
    OnBooks … s → step fuel last s = .ok answer t → OnBooks … t          (step_onBooks)
    Books … → solve fuel (p, r) = .ok outcome (p', r') → Books …         (solve_books)
-/

namespace PlanSearch

variable {W S V : Type} {sh : Shape}

namespace LocalSearch

/-- The state `s` in the middle of collecting, which began at `b`, on an honest workspace. -/
structure Foraging (X : Variable S V → Prop) (ok : Slot S V → Prop) (good : W → Prop)
    (b s : Searching W S V sh) : Prop where
  good : good s.2.run.workspace
  assigns : s.1.neighbourhood.tree.Over X
  within : s.1.neighbourhood.Within ok
  stored : ∀ i m, s.1.arena.get? i = some m → m.Within ok
  span : s.2.span = b.2.span
  tries : b.2.run.Tries s.2.run

variable {X : Variable S V → Prop} {ok : Slot S V → Prop} {good : W → Prop}
  {full : S → Checked (Score sh)} {b s t : Searching W S V sh} {last : Score sh}
  {isSearch : Nat → Bool} {i n k fuel : Nat}

theorem stored_keep {x : Arena (Move S V)} (h : ∀ i m, x.get? i = some m → m.Within ok)
    {m : Move S V} (hm : m.Within ok) (a : Score sh) (f : Forager sh) :
    ∀ i m', (keep m a (f, x)).2.get? i = some m' → m'.Within ok := by
  intro i m' hi
  rcases Arena.get?_push hi with rfl | hi
  · exact hm
  · exact h i m' hi

namespace Foraging

theorem chosen (h : Foraging X ok good b s) {m : Move S V} (hm : chosen s = some m) :
    m.Within ok := by
  obtain ⟨p, -, hp⟩ := Option.bind_eq_some_iff.1 hm
  exact h.stored p.index m hp

variable [Workspace W S sh]

theorem begun (h : good s.2.run.workspace) (ht : s.1.neighbourhood.tree.Over X) (last : Score sh) :
    Foraging X ok good (begun last s) (begun last s) where
  good := h
  assigns := ht
  within := Neighbourhood.within_hear _ _ _ rfl
  stored i m hm := by
    rw [show (LocalSearch.begun last s).1.arena = .empty from rfl, Arena.get?_empty] at hm
    cases hm
  span := rfl
  tries := .refl _

variable [Plan S sh] [DecidableEq V] [ToString V]

/-- Collecting tries candidates and does nothing else. -/
theorem loop (hg : Workspace.Honest X ok good full) (b : Searching W S V sh) (last : Score sh) :
    Loop last (Foraging X ok good b) (Move.Within ok) (fun m _ => m.Within ok) where
  draw {s t m?} h e := by
    rw [draw_eq] at e
    cases e
    obtain ⟨hwithin, hm⟩ := h.within.next h.assigns (hg.movable h.good) s.2.run.source
    exact ⟨{ h with within := hwithin, tries := h.tries.trans ⟨rfl, rfl⟩ },
      fun m hdrawn _ => hm m hdrawn⟩
  illegal h := { h with tries := h.tries.trans ⟨rfl, rfl⟩ }
  score h hm e :=
    ⟨{ h with good := hg.scoreCandidate hm h.good e, tries := h.tries.trans ⟨rfl, rfl⟩ }, hm⟩
  scoreBatch h hm _ q hq a _ := hm q.1 (List.of_mem_zip hq).1
  consider {s t m a d d'} h hm e := by
    rw [consider_eq] at e
    cases e
    unfold considered
    dsimp only
    split
    · exact { h with stored := stored_keep h.stored hm a s.1.forager
                     tries := h.tries.trans ⟨rfl, rfl⟩ }
    · exact { h with tries := h.tries.trans ⟨rfl, rfl⟩ }

theorem gather (hg : Workspace.Honest X ok good full) {fuel : Nat}
    (hs : good s.2.run.workspace) (ht : s.1.neighbourhood.tree.Over X)
    (e : LocalSearch.gather fuel last (LocalSearch.begun last s) = .ok () t) :
    Foraging X ok good (LocalSearch.begun last s) t :=
  (loop hg _ last).gather (begun hs ht last) e

end Foraging

/-! ## Steps -/

variable [Workspace W S sh] [Plan S sh] [DecidableEq V] [ToString V]

theorem step_onBooks (hg : Workspace.Honest X ok good full) (ht : s.1.neighbourhood.tree.Over X)
    (h : s.2.OnBooks good full isSearch i n k) {answer : Option (Score sh)}
    (e : step fuel last s = .ok answer t) :
    t.1.neighbourhood.tree.Over X ∧ t.2.OnBooks good full isSearch i n k := by
  obtain ⟨g, forager, arena, source, hgather, hstep⟩ := step_eq_ok e
  have hf := Foraging.gather hg h.books.good ht hgather
  rcases hstep with ⟨-, -, rfl⟩ | ⟨m, a, w, improved, sc', hm, hscore, hcomplete, -, rfl⟩
  · have htrying : Scope.Trying last s.2 (g.2.mapRun fun r => { r with source }) :=
      ⟨hf.span, hf.tries.trans ⟨rfl, rfl⟩⟩
    exact ⟨hf.assigns, h.passStep htrying hf.good last⟩
  · have hgood := hg.score (hg.apply (hf.chosen hm) hf.good) hscore
    have htrying : Scope.Trying last s.2 (g.2.mapRun fun r => { r with source, workspace := w }) :=
      ⟨hf.span, hf.tries.trans ⟨rfl, rfl⟩⟩
    exact ⟨hf.assigns, h.completeStep hg htrying hgood hcomplete a⟩

theorem steps_onBooks (hg : Workspace.Honest X ok good full) {rounds : Nat}
    (ht : s.1.neighbourhood.tree.Over X) (h : s.2.OnBooks good full isSearch i n k)
    {x : Outcome × Score sh} (e : steps fuel rounds last s = .ok x t) :
    t.2.OnBooks good full isSearch i n k := by
  induction rounds generalizing last s with
  | zero => cases e
  | succ rounds ih =>
    rw [steps] at e
    rw [Step.get_bind] at e
    dsimp only at e
    split at e
    · cases e
      exact h
    obtain ⟨answer, s₁, hstep, e⟩ := Step.bind_eq_ok e
    obtain ⟨ht₁, h₁⟩ := step_onBooks hg ht h hstep
    cases answer with
    | some a => exact ih ht₁ h₁ e
    | none =>
      dsimp only at e
      cases hpolicy : s.1.noAcceptedMove with
      | terminate =>
        rw [hpolicy] at e
        cases e
        exact h₁
      | proceed =>
        rw [hpolicy] at e
        dsimp only at e
        rw [mapScope_bind] at e
        exact ih (s := (s₁.1, s₁.2.countStep)) ht₁ h₁.countStep e

/-! ## Phases -/

variable {p p' : LocalSearch S V sh} {r r' : Run W S sh} {sc : Scope W S sh} {outcome : Outcome}

/-- The plan is visited when the search starts; nothing is when it ends. -/
theorem work_onBooks (hg : Workspace.Honest X ok good full) (hp : p.neighbourhood.tree.Over X)
    (hsearch : isSearch i = true) (h : sc.OnBooks good full isSearch i n k)
    (e : work fuel (p, sc) = .ok outcome t) : t.2.OnBooks good full isSearch i n (k + 1) := by
  unfold work at e
  rw [mapScope_bind] at e
  obtain ⟨start, _, hstart, e⟩ := Step.bind_eq_ok e
  obtain ⟨_, hscore, rfl⟩ := onRun_eq_ok hstart
  obtain ⟨w, hw, rfl⟩ := Run.onWorkspace_eq_ok hscore
  have hgood := hg.scoreNow (hg.restart h.books.good) hw
  rw [mapScope_bind] at e
  obtain ⟨improved, _, honScope, hrest⟩ := Step.bind_eq_ok e
  obtain ⟨sc', hbest, rfl⟩ := Action.onPart_eq_ok honScope
  rw [fire_bind] at hrest
  have h₁ := (h.scored start hgood).visit hg
    (fun c hc trace => visits_phaseStarted (by rwa [hc]) trace) hbest start
  obtain ⟨⟨_, last⟩, s, hsteps, hend⟩ := Step.bind_eq_ok hrest
  dsimp only at hend
  rw [fire_bind] at hend
  cases hend
  exact (steps_onBooks hg hp h₁ hsteps).pass
    (fun c hc trace => visits_phaseEnded (by rwa [hc]) trace) last

theorem solve_books (hg : Workspace.Honest X ok good full) (hp : p.neighbourhood.tree.Over X)
    (hsearch : isSearch r.phases = true) (h : r.Books good full (visits isSearch r.trace))
    (e : solve fuel (p, r) = .ok outcome (p', r')) :
    r'.Books good full (visits isSearch r'.trace) ∧ r'.phases = r.phases + 1 ∧
      visits isSearch r'.trace ≠ [] := by
  obtain ⟨sc', hwork, rfl⟩ := solve_eq_ok e
  have h' := work_onBooks hg hp hsearch (Scope.OnBooks.begin h) hwork
  exact ⟨h'.books, h'.phases, List.length_pos_iff.1 h'.least⟩

end LocalSearch

end PlanSearch
