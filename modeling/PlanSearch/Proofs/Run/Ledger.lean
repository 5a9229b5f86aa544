import PlanSearch.Proofs.Phase.Scope
import PlanSearch.Proofs.Score.Order
import PlanSearch.Proofs.Workspace.Honest

/-!
# The best plan and the plans that were visited

A run visits plans at some boundaries of its scopes, and asks each time whether the plan is the best
so far. The ledger of a run says what its best plan is among those visited, and what listeners were
told of it. All lists are newest first, like the trace of a run.

    Ledger … → the best plan is the earliest visited one of the highest rank
    r.Books good full vs → updateBest r = .ok … r' → r'.Books good full (r'.plan :: vs)
-/

namespace PlanSearch

variable {S V W : Type} {sh : Shape}

/-! ## Traces -/

/-- The improvements that were published. -/
def published (trace : List (Notice S sh)) : List (S × Score sh) :=
  trace.filterMap fun
    | .improved plan score => some (plan, score)
    | .event _ _ => none

/-- The index that the last step started with. -/
def lastStarted : List (Notice S sh) → Nat
  | [] => 0
  | .event .stepStarted c :: _ => c.stepIndex
  | _ :: rest => lastStarted rest

/-- The plans that a run visited: those at the end of each step that was counted, at the start of
each local search and at the end of each other phase. -/
def visits (isSearch : Nat → Bool) : List (Notice S sh) → List S
  | [] => []
  | .event .phaseStarted c :: rest =>
    if isSearch c.phaseIndex then c.plan :: visits isSearch rest else visits isSearch rest
  | .event .stepEnded c :: rest =>
    if lastStarted rest < c.stepIndex then c.plan :: visits isSearch rest
    else visits isSearch rest
  | .event .phaseEnded c :: rest =>
    if isSearch c.phaseIndex then visits isSearch rest else c.plan :: visits isSearch rest
  | _ :: rest => visits isSearch rest

section

variable {isSearch : Nat → Bool} {c : Context S sh}

theorem visits_phaseStarted (h : isSearch c.phaseIndex = true) (trace : List (Notice S sh)) :
    visits isSearch (.event .phaseStarted c :: trace) = c.plan :: visits isSearch trace :=
  if_pos h

theorem visits_phaseEnded (h : isSearch c.phaseIndex = true) (trace : List (Notice S sh)) :
    visits isSearch (.event .phaseEnded c :: trace) = visits isSearch trace :=
  if_pos h

theorem visits_phaseStarted_of_not (h : ¬isSearch c.phaseIndex = true)
    (trace : List (Notice S sh)) :
    visits isSearch (.event .phaseStarted c :: trace) = visits isSearch trace :=
  if_neg h

theorem visits_phaseEnded_of_not (h : ¬isSearch c.phaseIndex = true)
    (trace : List (Notice S sh)) :
    visits isSearch (.event .phaseEnded c :: trace) = c.plan :: visits isSearch trace :=
  if_neg h

end

/-- No boundary of a scope lies between the two. -/
structure Run.Within (r r' : Run W S sh) : Prop where
  visits : ∀ isSearch, visits isSearch r'.trace = visits isSearch r.trace
  lastStarted : lastStarted r'.trace = lastStarted r.trace
  phases : r'.phases = r.phases

/-- `r'` is `r` after candidates were tried: these work on the workspace, move on the random source
and are counted. -/
structure Run.Tries (r r' : Run W S sh) : Prop where
  eq : r' = { r with workspace := r'.workspace, source := r'.source, stats := r'.stats }
  improvements : r'.stats.improvements = r.stats.improvements

namespace Run

variable {r r' r'' : Run W S sh}

theorem Tries.refl (r : Run W S sh) : r.Tries r := ⟨rfl, rfl⟩

theorem Tries.trans (h : r.Tries r') (h' : r'.Tries r'') : r.Tries r'' where
  eq := by
    have heq := h'.eq
    rw [h.eq] at heq
    exact heq
  improvements := h'.improvements.trans h.improvements

theorem Tries.within (h : r.Tries r') : r.Within r' := by
  rw [h.eq]
  exact ⟨fun _ => rfl, rfl, rfl⟩

end Run

/-! ## Ledgers -/

variable [Plan S sh]

/-- The plan has the rank `k`. -/
def Plan.Ranks (full : S → Checked (Score sh)) (p : S) (k : Rank sh) : Prop :=
  k.unassigned = Plan.unassignedCount p ∧ full p = .ok k.score

/-- The rank that was published. -/
def rankOf (x : S × Score sh) : Rank sh := ⟨Plan.unassignedCount x.1, x.2⟩

theorem Plan.Ranks.unique {full : S → Checked (Score sh)} {p : S} {k l : Rank sh}
    (hk : Plan.Ranks full p k) (hl : Plan.Ranks full p l) : k = l := by
  obtain ⟨_, a⟩ := k
  obtain ⟨_, b⟩ := l
  obtain ⟨rfl, ha⟩ := hk
  obtain ⟨rfl, hb⟩ := hl
  obtain rfl : a = b := Except.ok.inj (ha.symm.trans hb)
  rfl

/-- `b` is the earliest of the visited plans of the highest rank. -/
structure Leads (full : S → Checked (Score sh)) (vs : List S) (b : Best S sh)
    (later earlier : List S) : Prop where
  eq : vs = later ++ b.plan :: earlier
  ranks : Plan.Ranks full b.plan b.rank
  later : ∀ q ∈ later, ∀ k, Plan.Ranks full q k → ¬k.beats b.rank
  earlier : ∀ q ∈ earlier, ∀ k, Plan.Ranks full q k → b.rank.beats k

/-- The best plan among the visited ones, and what was published. -/
structure Ledger (full : S → Checked (Score sh)) (vs : List S) (best : Option (Best S sh))
    (pub : List (S × Score sh)) : Prop where
  scored : ∀ q ∈ vs, ∃ a, full q = .ok a
  increasing : pub.Pairwise fun x y => (rankOf x).beats (rankOf y)
  blank : best = none → vs = [] ∧ pub = []
  leader : ∀ b, best = some b → (∃ later earlier, Leads full vs b later earlier) ∧
    ∃ older, pub = (b.plan, b.rank.score) :: older

namespace Ledger

variable {full : S → Checked (Score sh)} {vs : List S} {best : Option (Best S sh)}
  {pub : List (S × Score sh)} {q : S} {a : Score sh}

theorem empty (full : S → Checked (Score sh)) : Ledger full [] none [] where
  scored := nofun
  increasing := .nil
  blank _ := ⟨rfl, rfl⟩
  leader := nofun

/-- What beats the best plan beats all that were visited. -/
theorem beats_all (h : Ledger full vs best pub) {k : Rank sh}
    (hk : best.all fun b => k.beats b.rank) {p : S} (hp : p ∈ vs) {l : Rank sh}
    (hl : Plan.Ranks full p l) : k.beats l := by
  cases best with
  | none =>
    rw [(h.blank rfl).1] at hp
    cases hp
  | some b =>
    obtain ⟨⟨later, earlier, hb⟩, -⟩ := h.leader b rfl
    rw [hb.eq] at hp
    rcases List.mem_append.1 hp with hp | hp
    · exact Rank.beats_of_not_beats hk (hb.later p hp l hl)
    · rcases List.mem_cons.1 hp with rfl | hp
      · rw [hl.unique hb.ranks]
        exact hk
      · exact Rank.beats_trans hk (hb.earlier p hp l hl)

theorem beats_published (h : Ledger full vs best pub) {k : Rank sh}
    (hk : best.all fun b => k.beats b.rank) : ∀ x ∈ pub, k.beats (rankOf x) := by
  cases best with
  | none =>
    rw [(h.blank rfl).2]
    exact nofun
  | some b =>
    obtain ⟨⟨later, earlier, hb⟩, older, hpub⟩ := h.leader b rfl
    have hrank : rankOf (b.plan, b.rank.score) = b.rank := by
      unfold rankOf
      rw [← hb.ranks.1]
    have hincreasing := h.increasing
    rw [hpub, List.pairwise_cons, hrank] at hincreasing
    rw [hpub]
    refine List.forall_mem_cons.2 ⟨?_, fun x hx => Rank.beats_trans hk (hincreasing.1 x hx)⟩
    rw [hrank]
    exact hk

/-- A plan is visited that beats the best so far. -/
theorem improve (h : Ledger full vs best pub) (hq : full q = .ok a)
    (hbeats : best.all fun b => (rankOf (q, a)).beats b.rank) :
    Ledger full (q :: vs) (some ⟨q, rankOf (q, a)⟩) ((q, a) :: pub) where
  scored := List.forall_mem_cons.2 ⟨⟨a, hq⟩, h.scored⟩
  increasing := List.pairwise_cons.2 ⟨h.beats_published hbeats, h.increasing⟩
  blank := nofun
  leader b hb := by
    cases hb
    exact ⟨⟨[], vs, rfl, ⟨rfl, hq⟩, nofun, fun p hp _ hl => h.beats_all hbeats hp hl⟩, pub, rfl⟩

/-- A plan is visited that does not. -/
theorem pass (h : Ledger full vs best pub) (hq : full q = .ok a)
    (hbeats : ¬best.all fun b => (rankOf (q, a)).beats b.rank) :
    Ledger full (q :: vs) best pub where
  scored := List.forall_mem_cons.2 ⟨⟨a, hq⟩, h.scored⟩
  increasing := h.increasing
  blank hb := by
    rw [hb] at hbeats
    exact absurd rfl hbeats
  leader b hb := by
    obtain ⟨⟨later, earlier, hlead⟩, hpub⟩ := h.leader b hb
    refine ⟨⟨q :: later, earlier, ⟨congrArg (q :: ·) hlead.eq, hlead.ranks, ?_, hlead.earlier⟩⟩,
      hpub⟩
    refine List.forall_mem_cons.2 ⟨fun k hk => ?_, hlead.later⟩
    rw [hk.unique (l := rankOf (q, a)) ⟨rfl, hq⟩]
    rw [hb] at hbeats
    exact hbeats

end Ledger

/-! ## Runs -/

/-- The run has visited the plans `vs` and keeps the books on them. -/
structure Run.Books (good : W → Prop) (full : S → Checked (Score sh)) (vs : List S)
    (r : Run W S sh) : Prop where
  good : good r.workspace
  ledger : Ledger full vs r.best (published r.trace)
  count : r.stats.improvements = (published r.trace).length

namespace Run

variable {X : Variable S V → Prop} {ok : Slot S V → Prop} {good : W → Prop}
  {full : S → Checked (Score sh)} {vs : List S} {r r' : Run W S sh}

theorem Tries.books (h : r.Tries r') (hr : r.Books good full vs) (hgood : good r'.workspace) :
    r'.Books good full vs where
  good := hgood
  ledger := by
    rw [h.eq]
    exact hr.ledger
  count := by
    rw [h.improvements, h.eq]
    exact hr.count

theorem Books.announce (h : r.Books good full vs) (e : Event) (c : Context S sh) :
    (r.announce (.event e c)).Books good full vs :=
  ⟨h.good, h.ledger, h.count⟩

variable [Workspace W S sh]

/-- The plan is visited, and becomes the best one if it ranks above all that were. -/
theorem Books.updateBest (hg : Workspace.Honest X ok good full) (h : r.Books good full vs)
    {improved : Bool} (e : Run.updateBest r = .ok improved r') :
    r'.Books good full (r'.plan :: vs) ∧ r.Within r' := by
  obtain ⟨a, r₁, hscore, e⟩ := Step.bind_eq_ok e
  obtain ⟨w, hw, rfl⟩ := onWorkspace_eq_ok hscore
  have hw := Workspace.scoreNow_eq_ok hw
  have hgood := hg.score h.good hw
  have hfull := hg.full_eq h.good hw
  rw [Step.get_bind] at e
  dsimp only at e
  split at e
  · next hbeats =>
    rw [Step.set_bind] at e
    cases e
    refine ⟨⟨hgood, h.ledger.improve hfull hbeats, ?_⟩, fun _ => rfl, rfl, rfl⟩
    exact congrArg (· + 1) h.count
  · next hbeats =>
    cases e
    exact ⟨⟨hgood, h.ledger.pass hfull hbeats, h.count⟩, fun _ => rfl, rfl, rfl⟩

end Run

/-! ## Scopes -/

namespace Scope

/-- The books are kept on all plans visited so far, which are `k` at least; the scope belongs to
phase `i` of the `n` phases begun. -/
structure OnBooks (good : W → Prop) (full : S → Checked (Score sh)) (isSearch : Nat → Bool)
    (i n k : Nat) (sc : Scope W S sh) : Prop where
  index : sc.span.index = i
  phases : sc.run.phases = n
  least : k ≤ (visits isSearch sc.run.trace).length
  books : sc.run.Books good full (visits isSearch sc.run.trace)

namespace OnBooks

variable {good : W → Prop} {full : S → Checked (Score sh)} {isSearch : Nat → Bool} {i n k : Nat}
  {sc : Scope W S sh}

theorem begin {r : Run W S sh} (h : r.Books good full (visits isSearch r.trace)) :
    OnBooks good full isSearch r.phases (r.phases + 1) 0 ⟨{ index := r.phases }, r.beginPhase.2⟩ :=
  ⟨rfl, rfl, Nat.zero_le _, h.good, h.ledger, h.count⟩

theorem countStep (h : sc.OnBooks good full isSearch i n k) :
    sc.countStep.OnBooks good full isSearch i n k :=
  ⟨h.index, h.phases, h.least, h.books.good, h.books.ledger, h.books.count⟩

/-- A phase begins with the score of its plan. -/
theorem scored (h : sc.OnBooks good full isSearch i n k) (a : Score sh) {w : W} (hw : good w) :
    OnBooks good full isSearch i n k
      ⟨{ sc.span with startingScore := some a }, { sc.run with workspace := w }⟩ :=
  ⟨h.index, h.phases, h.least, hw, h.books.ledger, h.books.count⟩

end OnBooks

variable [Workspace W S sh] {X : Variable S V → Prop} {ok : Slot S V → Prop} {good : W → Prop}
  {full : S → Checked (Score sh)} {vs : List S} {sc sc' : Scope W S sh} {improved : Bool}

theorem updateBest_books (hg : Workspace.Honest X ok good full) (h : sc.run.Books good full vs)
    (e : updateBest sc = .ok improved sc') :
    sc'.run.Books good full (sc'.run.plan :: vs) ∧ sc.run.Within sc'.run ∧
      sc'.span.index = sc.span.index ∧ sc'.span.steps = sc.span.steps := by
  obtain ⟨_, sc₁, honRun, e⟩ := Step.bind_eq_ok e
  obtain ⟨r, hbest, rfl⟩ := Action.onPart_eq_ok honRun
  obtain ⟨hbooks, hwithin⟩ := h.updateBest hg hbest
  dsimp only at e
  split at e
  · rw [Step.modify_bind] at e
    cases e
    exact ⟨hbooks, hwithin, rfl, rfl⟩
  · cases e
    exact ⟨hbooks, hwithin, rfl, rfl⟩

theorem completeStep_books (hg : Workspace.Honest X ok good full) (h : sc.run.Books good full vs)
    (e : completeStep sc = .ok improved sc') :
    sc'.run.Books good full (sc'.run.plan :: vs) ∧ sc.run.Within sc'.run ∧
      sc'.span.index = sc.span.index ∧ sc'.span.steps = sc.span.steps + 1 := by
  unfold completeStep at e
  rw [Step.modify_bind] at e
  have hcount : sc.countStep.run.Books good full vs := ⟨h.good, h.ledger, h.count⟩
  obtain ⟨hbooks, hwithin, hindex, hsteps⟩ := updateBest_books hg hcount e
  exact ⟨hbooks, ⟨hwithin.visits, hwithin.lastStarted, hwithin.phases⟩, hindex, hsteps⟩

/-- A step that began at `sc` has tried candidates. -/
structure Trying (last : Score sh) (sc sc₁ : Scope W S sh) : Prop where
  span : sc₁.span = sc.span
  tries : (sc.run.announce (.event .stepStarted (sc.context (some last)))).Tries sc₁.run

namespace OnBooks

variable {isSearch : Nat → Bool} {i n k : Nat} {sc₁ : Scope W S sh} {last : Score sh}

/-- A step that is not counted ends at the index that it started with. -/
theorem passStep (h : sc.OnBooks good full isSearch i n k) (ht : Trying last sc sc₁)
    (hgood : good sc₁.run.workspace) (a : Score sh) :
    (sc₁.mapRun (Run.announce (.event .stepEnded (sc₁.context (some a))))).OnBooks good full
      isSearch i n k := by
  have hwithin := ht.tries.within
  have hbooks := ht.tries.books (h.books.announce _ _) hgood
  have hvisits : visits isSearch (.event .stepEnded (sc₁.context (some a)) :: sc₁.run.trace) =
      visits isSearch sc.run.trace := by
    show (if lastStarted sc₁.run.trace < sc₁.span.steps then _ else _) = _
    rw [hwithin.lastStarted, ht.span]
    exact (if_neg (Nat.lt_irrefl _)).trans (hwithin.visits isSearch)
  refine ⟨ht.span ▸ h.index, hwithin.phases.trans h.phases, ?_, ?_⟩
  · exact hvisits ▸ h.least
  · exact hvisits ▸ hbooks.announce _ _

/-- The plan is visited when a step is counted. -/
theorem completeStep (hg : Workspace.Honest X ok good full)
    (h : sc.OnBooks good full isSearch i n k) (ht : Trying last sc sc₁)
    (hgood : good sc₁.run.workspace) (e : Scope.completeStep sc₁ = .ok improved sc')
    (a : Score sh) :
    (sc'.mapRun (Run.announce (.event .stepEnded (sc'.context (some a))))).OnBooks good full
      isSearch i n k := by
  have hwithin := ht.tries.within
  obtain ⟨hbooks, hwithin', hindex, hsteps⟩ :=
    completeStep_books hg (ht.tries.books (h.books.announce _ _) hgood) e
  have hvisits : visits isSearch (.event .stepEnded (sc'.context (some a)) :: sc'.run.trace) =
      sc'.run.plan :: visits isSearch sc.run.trace := by
    show (if lastStarted sc'.run.trace < sc'.span.steps then _ else _) = _
    rw [hwithin'.lastStarted, hwithin.lastStarted, hsteps, ht.span]
    refine (if_pos (Nat.lt_succ_self _)).trans (congrArg (sc'.run.plan :: ·) ?_)
    exact (hwithin'.visits isSearch).trans (hwithin.visits isSearch)
  refine ⟨hindex.trans (ht.span ▸ h.index), hwithin'.phases.trans (hwithin.phases.trans h.phases),
    ?_, ?_⟩
  · exact hvisits ▸ Nat.le_succ_of_le h.least
  · exact hvisits ▸ hbooks.announce _ _

/-- Nothing is visited at an event that is no boundary for visits. -/
theorem pass (h : sc.OnBooks good full isSearch i n k) {event : Event}
    (hpass : ∀ c : Context S sh, c.phaseIndex = i → ∀ trace,
      visits isSearch (.event event c :: trace) = visits isSearch trace) (a : Score sh) :
    (sc.mapRun (Run.announce (.event event (sc.context (some a))))).OnBooks good full
      isSearch i n k := by
  have hvisits := hpass (sc.context (some a)) h.index sc.run.trace
  exact ⟨h.index, h.phases, hvisits ▸ h.least, hvisits ▸ h.books.announce _ _⟩

/-- The plan is visited at an event that is one. -/
theorem visit (hg : Workspace.Honest X ok good full) (h : sc.OnBooks good full isSearch i n k)
    {event : Event}
    (hvisit : ∀ c : Context S sh, c.phaseIndex = i → ∀ trace,
      visits isSearch (.event event c :: trace) = c.plan :: visits isSearch trace)
    (e : Scope.updateBest sc = .ok improved sc') (a : Score sh) :
    (sc'.mapRun (Run.announce (.event event (sc'.context (some a))))).OnBooks good full
      isSearch i n (k + 1) := by
  obtain ⟨hbooks, hwithin, hindex, -⟩ := updateBest_books hg h.books e
  have hindex : sc'.span.index = i := hindex.trans h.index
  have hvisits := (hvisit (sc'.context (some a)) hindex sc'.run.trace).trans
    (congrArg (sc'.run.plan :: ·) (hwithin.visits isSearch))
  refine ⟨hindex, hwithin.phases.trans h.phases, ?_, hvisits ▸ hbooks.announce _ _⟩
  exact hvisits ▸ Nat.succ_le_succ h.least

end OnBooks

end Scope

end PlanSearch
