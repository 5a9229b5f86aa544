import PlanSearch.Proofs.Run.Progress

/-!
# Conditions that are heeded

A run has a condition, and so have its phases. They are asked at boundaries: the run's before each
phase, both before each step. Between two boundaries a run may not move on where a condition holds
of what was reached.

    sc.Heeding g i → ¬sc.isTerminated own → the step that begins is heeded            (Heeding.step)
    sc.Heeding g i → updateBest sc = .ok improved sc' → sc'.Heeding g i         (Heeding.updateBest)
-/

namespace PlanSearch

variable {S W : Type} {sh : Shape}

/-! ## Regimes -/

/-- The conditions that a run and its phases are under, who may ask the run to stop, and how the
phases end. -/
structure Regime (S : Type) (sh : Shape) where
  limit : Option (Termination sh)
  /-- The condition of each phase. -/
  own : List (Option (Termination sh))
  outcome : Nat → Option Outcome
  listeners : List (Listener S sh)
  stopRequested : Bool

namespace Regime

/-- The phase ends for want of an accepted move. -/
def idle (g : Regime S sh) (i : Nat) : Bool := g.outcome i = some .noAcceptedMove

/-- The run was asked to stop. -/
def asked (g : Regime S sh) : List (Notice S sh) → Bool
  | [] => g.stopRequested
  | n :: earlier => g.asked earlier || g.listeners.any (·.stops (n :: earlier))

/-- The condition of the run holds of what was reached since solving started. -/
def isOver (g : Regime S sh) (trace : List (Notice S sh)) : Bool :=
  g.limit.any (·.holds (reached .solvingStarted g.idle trace))

/-- The condition of phase `i` holds of what was reached since the phase started. -/
def isPhaseOver (g : Regime S sh) (i : Nat) (trace : List (Notice S sh)) : Bool :=
  g.own[i]?.join.any (·.holds (reached .phaseStarted g.idle trace))

/-- No phase and no step starts where a condition holds that is asked there, and a phase that was
terminated ends where one holds or the run was asked to stop. -/
def Heeded (g : Regime S sh) : Notice S sh → List (Notice S sh) → Prop
  | .event .phaseStarted _, earlier => ¬g.isOver (unpublished earlier)
  | .event .stepStarted c, earlier =>
    c.phaseIndex < g.own.length ∧ ¬g.isOver earlier ∧ ¬g.isPhaseOver c.phaseIndex earlier
  | .event .phaseEnded c, earlier =>
    g.outcome c.phaseIndex = some .terminated → g.asked (unpublished earlier) ∨
      g.isOver (unpublished earlier) ∨ g.isPhaseOver c.phaseIndex (unpublished earlier)
  | _, _ => True

/-- No one asked the run to stop if no one has by the end. -/
theorem not_asked_of_suffix {g : Regime S sh} {earlier trace : List (Notice S sh)}
    (h : earlier <:+ trace) (hasked : g.asked trace = false) : g.asked earlier = false := by
  induction trace with
  | nil => rwa [List.suffix_nil.1 h]
  | cons n trace ih =>
    rcases List.suffix_cons_iff.1 h with rfl | h
    · exact hasked
    · exact ih h (Bool.or_eq_false_iff.1 hasked).1

end Regime

/-- What `P` says of a notice and those before it is true of each. -/
def Throughout (P : Notice S sh → List (Notice S sh) → Prop) (trace : List (Notice S sh)) : Prop :=
  ∀ n earlier, n :: earlier <:+ trace → P n earlier

namespace Throughout

variable {P : Notice S sh → List (Notice S sh) → Prop} {trace : List (Notice S sh)}

theorem nil (P : Notice S sh → List (Notice S sh) → Prop) : Throughout P [] :=
  fun _ _ h => absurd (List.suffix_nil.1 h) (List.cons_ne_nil _ _)

theorem cons {n : Notice S sh} (hn : P n trace) (h : Throughout P trace) :
    Throughout P (n :: trace) := by
  intro n' earlier hsuffix
  rcases List.suffix_cons_iff.1 hsuffix with heq | hsuffix
  · cases heq
    exact hn
  · exact h n' earlier hsuffix

end Throughout

/-! ## Runs -/

namespace Run

/-- The run is under the conditions of `g`, has heeded them so far and counts right. -/
structure Heeding (g : Regime S sh) (r : Run W S sh) : Prop where
  limit : r.termination = g.limit
  listeners : r.listeners = g.listeners
  asked : r.stopRequested = g.asked r.trace
  tallied : r.Tallied g.idle
  heeded : Throughout g.Heeded r.trace

namespace Heeding

variable {g : Regime S sh} {r r' : Run W S sh}

theorem isTerminated (h : r.Heeding g) :
    r.isTerminated = (g.asked r.trace || g.isOver r.trace) := by
  unfold Run.isTerminated Regime.isOver
  rw [h.asked, h.limit, h.tallied.progress]

theorem tries (h : r.Heeding g) (ht : r.Tries r') : r'.Heeding g := by
  rw [ht.eq]
  exact ⟨h.limit, h.listeners, h.asked, ⟨h.tallied.tally, h.tallied.best, h.tallied.elapsed⟩,
    h.heeded⟩

/-- Listeners are told of something. -/
theorem asked_announce (h : r.Heeding g) (n : Notice S sh) :
    (r.announce n).stopRequested = g.asked (n :: r.trace) := by
  show (r.stopRequested || r.listeners.any _) = _
  rw [h.asked, h.listeners]
  rfl

theorem announce (h : r.Heeding g) {e : Event} {c : Context S sh}
    (hheeded : g.Heeded (.event e c) r.trace)
    (htally : Tally g.idle .solvingStarted (.event e c :: r.trace) r.steps r.lastImprovement) :
    (r.announce (.event e c)).Heeding g :=
  ⟨h.limit, h.listeners, h.asked_announce _, ⟨htally, h.tallied.best, h.tallied.elapsed⟩,
    .cons hheeded h.heeded⟩

variable [Workspace W S sh] [Plan S sh]

theorem updateBest (h : r.Heeding g) {improved : Bool} (e : Run.updateBest r = .ok improved r') :
    r'.Heeding g := by
  obtain ⟨w, ⟨-, rfl⟩ | ⟨plan, rank, stats, -, rfl⟩⟩ := updateBest_cases e
  · exact ⟨h.limit, h.listeners, h.asked, ⟨h.tallied.tally, h.tallied.best, h.tallied.elapsed⟩,
      h.heeded⟩
  · exact ⟨h.limit, h.listeners, h.asked_announce _,
      ⟨h.tallied.tally.improve plan rank.score, rfl, h.tallied.elapsed⟩, .cons trivial h.heeded⟩

end Heeding

end Run

/-! ## Scopes -/

namespace Scope

/-- The run heeds the conditions within phase `i`, the steps of which are counted right. -/
structure Heeding (g : Regime S sh) (i : Nat) (sc : Scope W S sh) : Prop where
  run : sc.run.Heeding g
  index : sc.span.index = i
  tally : Tally g.idle .phaseStarted sc.run.trace sc.span.steps sc.span.lastImprovement

namespace Heeding

variable {g : Regime S sh} {i : Nat} {sc sc' : Scope W S sh} {own : Option (Termination sh)}

theorem tallied (h : sc.Heeding g i) : sc.Tallied g.idle := ⟨h.run.tallied, h.tally⟩

theorem isTerminated (h : sc.Heeding g i) (hown : g.own[i]? = some own) :
    sc.isTerminated own =
      (g.asked sc.run.trace || g.isOver sc.run.trace || g.isPhaseOver i sc.run.trace) := by
  unfold Scope.isTerminated Regime.isPhaseOver
  rw [h.run.isTerminated, h.tallied.progress, hown]
  rfl

variable [Workspace W S sh]

/-- A step begins. Its count is due from then on. -/
theorem step (h : sc.Heeding g i) (hown : g.own[i]? = some own) (hpoll : ¬sc.isTerminated own)
    (last : Score sh) {r : Run W S sh}
    (ht : (sc.run.announce (.event .stepStarted (sc.context (some last)))).Tries r) :
    (countStep { sc with run := r }).Heeding g i := by
  rw [h.isTerminated hown, Bool.or_eq_true, Bool.or_eq_true, not_or, not_or] at hpoll
  obtain ⟨⟨-, hover⟩, hphase⟩ := hpoll
  have hheeded : g.Heeded (.event .stepStarted (sc.context (some last))) sc.run.trace := by
    refine ⟨?_, hover, ?_⟩
    · show sc.span.index < _
      rw [h.index]
      exact (List.getElem?_eq_some_iff.1 hown).1
    · show ¬g.isPhaseOver sc.span.index _
      rwa [h.index]
  rw [ht.eq]
  exact
    { run := ⟨h.run.limit, h.run.listeners, h.run.asked_announce _,
        ⟨h.run.tallied.tally.step nofun _, h.run.tallied.best, h.run.tallied.elapsed⟩,
        .cons hheeded h.run.heeded⟩
      index := h.index
      tally := h.tally.step nofun _ }

omit [Workspace W S sh] in
/-- A step ends. -/
theorem stepEnded (h : sc.Heeding g i) (c : Context S sh) :
    (sc.mapRun (Run.announce (.event .stepEnded c))).Heeding g i where
  run := h.run.announce trivial (h.run.tallied.tally.pass nofun fun _ => rfl)
  index := h.index
  tally := h.tally.pass nofun fun _ => rfl

variable [Plan S sh]

theorem updateBest (h : sc.Heeding g i) {improved : Bool}
    (e : Scope.updateBest sc = .ok improved sc') : sc'.Heeding g i := by
  obtain ⟨r, hbest, rfl⟩ := updateBest_cases e
  have hrun := h.run.updateBest hbest
  obtain ⟨w, ⟨rfl, rfl⟩ | ⟨plan, rank, stats, rfl, rfl⟩⟩ := Run.updateBest_cases hbest
  · exact ⟨hrun, h.index, h.tally⟩
  · exact ⟨hrun, h.index, h.tally.improve plan rank.score⟩

end Heeding

/-! ## Phases -/

/-- A phase is about to start: nothing was counted in its span, and the condition of the run did not
hold at the last boundary. -/
structure Entering (g : Regime S sh) (i : Nat) (sc : Scope W S sh) : Prop where
  run : sc.run.Heeding g
  index : sc.span.index = i
  steps : sc.span.steps = 0
  lastImprovement : sc.span.lastImprovement = 0
  ready : ¬g.isOver (unpublished sc.run.trace)

/-- The steps of a phase are over, and they ended with this outcome. -/
inductive Halted (g : Regime S sh) (i : Nat) (sc : Scope W S sh) : Outcome → Prop
  | whole (h : sc.Heeding g i) : Halted g i sc .completed
  | stopped (h : sc.Heeding g i)
    (stop : g.asked (unpublished sc.run.trace) ∨ g.isOver (unpublished sc.run.trace) ∨
      g.isPhaseOver i (unpublished sc.run.trace)) : Halted g i sc .terminated
  /-- The last step does not count. -/
  | gaveUp (h : sc.countStep.Heeding g i)
    (le : sc.run.lastImprovement ≤ sc.run.steps) : Halted g i sc .noAcceptedMove

section

variable {g : Regime S sh} {i : Nat} {sc sc' : Scope W S sh} {own : Option (Termination sh)}
  {o : Outcome} {c : Context S sh}

theorem Entering.tries (h : sc.Entering g i) {r : Run W S sh} (ht : sc.run.Tries r)
    (a : Option (Score sh)) :
    Entering g i ⟨{ sc.span with startingScore := a }, r⟩ where
  run := h.run.tries ht
  index := h.index
  steps := h.steps
  lastImprovement := h.lastImprovement
  ready := by
    show ¬g.isOver (unpublished r.trace)
    rw [ht.eq]
    exact h.ready

theorem Entering.started (h : sc.Entering g i) (c : Context S sh) :
    (sc.mapRun (Run.announce (.event .phaseStarted c))).Heeding g i where
  run := h.run.announce h.ready (h.run.tallied.tally.pass nofun fun _ => rfl)
  index := h.index
  tally := by
    show Tally g.idle .phaseStarted _ sc.span.steps sc.span.lastImprovement
    rw [h.steps, h.lastImprovement]
    exact .begin g.idle .phaseStarted c sc.run.trace

theorem Heeding.halted (h : sc.Heeding g i) (hown : g.own[i]? = some own)
    (hboundary : unpublished sc.run.trace = sc.run.trace) (hterm : sc.isTerminated own) :
    Halted g i sc .terminated := by
  refine .stopped h ?_
  rw [hboundary, ← or_assoc, ← Bool.or_eq_true, ← Bool.or_eq_true, ← h.isTerminated hown]
  exact hterm

theorem Halted.index (h : Halted g i sc o) : sc.span.index = i := by
  cases h with
  | whole h => exact h.index
  | stopped h _ => exact h.index
  | gaveUp h _ => exact h.index

theorem Halted.ended (h : Halted g i sc o) (ho : g.outcome i = some o) (hc : c.phaseIndex = i) :
    (sc.run.announce (.event .phaseEnded c)).Heeding g := by
  have hcompleted : o ≠ .noAcceptedMove →
      ∀ rest, completed g.idle (.event .phaseEnded c :: rest) = completed g.idle rest := by
    intro hne rest
    refine if_neg ?_
    unfold Regime.idle
    rw [hc, ho, decide_eq_true_iff]
    exact fun he => hne (Option.some.inj he)
  cases h with
  | whole h =>
    refine h.run.announce (fun hout => ?_) (h.run.tallied.tally.pass nofun (hcompleted nofun))
    rw [hc, ho] at hout
    cases hout
  | stopped h stop =>
    refine h.run.announce (fun _ => ?_) (h.run.tallied.tally.pass nofun (hcompleted nofun))
    rwa [hc]
  | gaveUp h le =>
    have hidle : g.idle c.phaseIndex := by
      unfold Regime.idle
      rw [hc, ho]
      rfl
    refine ⟨h.run.limit, h.run.listeners, h.run.asked_announce _,
      ⟨h.run.tallied.tally.giveUp nofun le hidle, h.run.tallied.best, h.run.tallied.elapsed⟩,
      .cons (fun hout => ?_) h.run.heeded⟩
    rw [hc, ho] at hout
    cases hout

variable [Workspace W S sh] [Plan S sh] {improved : Bool}

/-- To publish a plan is to stay at the last boundary. -/
theorem updateBest_unpublished (e : Scope.updateBest sc = .ok improved sc') :
    unpublished sc'.run.trace = unpublished sc.run.trace := by
  obtain ⟨r, hbest, rfl⟩ := updateBest_cases e
  obtain ⟨w, ⟨-, rfl⟩ | ⟨plan, rank, stats, -, rfl⟩⟩ := Run.updateBest_cases hbest
  · rfl
  · rfl

theorem Entering.updateBest (h : sc.Entering g i) (e : Scope.updateBest sc = .ok improved sc') :
    sc'.Entering g i := by
  have hready : ¬g.isOver (unpublished sc'.run.trace) := updateBest_unpublished e ▸ h.ready
  obtain ⟨r, hbest, rfl⟩ := updateBest_cases e
  have hrun := h.run.updateBest hbest
  cases improved with
  | false => exact ⟨hrun, h.index, h.steps, h.lastImprovement, hready⟩
  | true => exact ⟨hrun, h.index, h.steps, h.steps, hready⟩

theorem Halted.updateBest (h : Halted g i sc o) (ho : o ≠ .noAcceptedMove)
    (e : Scope.updateBest sc = .ok improved sc') : Halted g i sc' o := by
  cases h with
  | whole h => exact .whole (h.updateBest e)
  | stopped h stop => exact .stopped (h.updateBest e) (updateBest_unpublished e ▸ stop)
  | gaveUp => exact absurd rfl ho

end

end Scope

/-! ## Limits of steps -/

/-- The condition holds after so many steps, if not before. -/
def Termination.CapsSteps (limit : Nat) : Termination sh → Prop
  | steps n => n = limit
  | any children => .steps limit ∈ children
  | _ => False

theorem Termination.someHolds_iff {p : Progress sh} {ts : List (Termination sh)} :
    someHolds p ts ↔ ∃ t ∈ ts, t.holds p := by
  induction ts with
  | nil => exact ⟨nofun, nofun⟩
  | cons t ts ih => rw [someHolds, Bool.or_eq_true, ih, List.exists_mem_cons_iff]

theorem Termination.CapsSteps.holds {t : Termination sh} {limit : Nat} (h : t.CapsSteps limit)
    {p : Progress sh} (hp : limit ≤ p.steps) : t.holds p := by
  cases t with
  | steps n =>
    rw [Termination.holds, show n = limit from h]
    exact decide_eq_true hp
  | any children =>
    have hlimit : (Termination.steps limit).holds p := by
      rw [Termination.holds]
      exact decide_eq_true hp
    rw [Termination.holds]
    exact someHolds_iff.2 ⟨_, h, hlimit⟩
  | _ => exact h.elim

/-- A limit of steps bounds the steps of a run that heeds it. -/
theorem Regime.completed_le {g : Regime S sh} {t : Termination sh} {limit : Nat}
    (hg : g.limit = some t) (ht : t.CapsSteps limit) {trace : List (Notice S sh)}
    (h : Throughout g.Heeded trace) : completed g.idle (since .solvingStarted trace) ≤ limit := by
  induction trace with
  | nil => exact Nat.zero_le _
  | cons n trace ih =>
    have hn := h n trace (List.suffix_refl _)
    have hle := ih fun n' earlier hsuffix => h n' earlier (hsuffix.trans (List.suffix_cons _ _))
    cases n with
    | improved plan a => exact hle
    | event e c =>
      by_cases he : e = .solvingStarted
      · subst he
        exact (Tally.begin g.idle .solvingStarted c trace).steps ▸ Nat.zero_le _
      rw [Tally.since_event he]
      cases e with
      | stepStarted =>
        refine Nat.lt_of_not_le fun hge => hn.2.1 ?_
        unfold isOver
        rw [hg]
        exact ht.holds hge
      | phaseEnded =>
        show (if g.idle c.phaseIndex then _ - 1 else _) ≤ limit
        split
        · exact Nat.le_trans (Nat.sub_le _ _) hle
        · exact hle
      | _ => exact hle

end PlanSearch
