import PlanSearch.Proofs.Lifecycle.Quiet
import PlanSearch.Proofs.Search.LocalSearch

/-!
# The indices of steps

Listeners are told of the start of step `0`, `1`, `2` and so on, without gaps. At the end of a step
they hear how many steps have been counted by then. A step that applies a candidate is counted
before it tells of its end; a step without an accepted candidate is counted after that, so that its
end comes with the same index as its start. The distance between the two is therefore not the same
for all steps of a search that makes steps of both kinds.

    solve fuel (p, run) ends, well or not → Paced run xs k run' for the steps `xs` that it made and
      at most one more that it only began                                      (solve_indices)
-/

namespace PlanSearch

variable {S V W : Type} {sh : Shape}

/-- The indices that were told along with the event, in order; the newest tidings stand first. -/
def indicesAt (e : Event) (tidings : List (Event × Context S sh)) : List Nat :=
  (tidings.reverse.filter (·.1 = e)).map (·.2.stepIndex)

theorem indicesAt_cons (e e' : Event) (c : Context S sh) (tidings : List (Event × Context S sh)) :
    indicesAt e' ((e, c) :: tidings) =
      indicesAt e' tidings ++ if e = e' then [c.stepIndex] else [] := by
  unfold indicesAt
  rw [List.reverse_cons, List.filter_append, List.map_append, List.filter_singleton]
  by_cases he : e = e'
  · simp [he]
  · simp [he]

/-! ## What a scope shows of its steps -/

/-- How many steps of the phase were counted, and what listeners were told of steps. -/
def Scope.pace (sc : Scope W S sh) : Nat × List (Event × Context S sh) :=
  (sc.span.steps, stepEvents sc.run.trace)

variable [Plan S sh] [Workspace W S sh]

omit [Plan S sh] in
theorem Run.scoreNow_keeps : Keeps (fun r : Run W S sh => stepEvents r.trace) scoreNow :=
  fun r => by
  unfold scoreNow onWorkspace
  split
  · exact .ok rfl
  · exact .error rfl

theorem Run.updateBest_keeps : Keeps (fun r : Run W S sh => stepEvents r.trace) updateBest :=
  fun r => by
  unfold updateBest
  refine (Run.scoreNow_keeps r).bind fun a r' h => ?_
  rw [Step.get_bind]
  dsimp only
  split
  · rw [Step.set_bind]
    exact .ok h
  · exact .ok h

omit [Plan S sh] [Workspace W S sh] in
theorem Scope.onRun_keeps {α : Type} {x : Action (Run W S sh) α}
    (h : Keeps (fun r => stepEvents r.trace) x) : Keeps pace (onRun x) :=
  .onPart _ h fun _ sc hr => congrArg (sc.span.steps, ·) hr

theorem Scope.updateBest_keeps : Keeps (pace : Scope W S sh → _) updateBest :=
  .bind (onRun_keeps Run.updateBest_keeps) fun _ =>
    .ite (.bind (.modify fun _ => rfl) fun _ => .pure _) (.pure _)

namespace LocalSearch

theorem overlooks_pace : Overlooks fun s : Searching W S V sh => s.2.pace where
  drawn _ := rfl
  record _ _ := rfl
  workspace _ _ := rfl
  forager _ _ _ _ := rfl
  source _ _ := rfl

variable [DecidableEq V] [ToString V] {fuel : Nat}

/-! ## Steps -/

/-- A step is told of at its start with the number of steps that were counted so far. If it applies
a candidate, its end comes with the next index, and otherwise with the same one again. -/
theorem step_paced (fuel : Nat) (last : Score sh) (s : Searching W S V sh) :
    Finishes
      (fun answer t => ∃ c c', t.2.pace = (s.2.span.steps + answer.toList.length,
        (.stepEnded, c') :: (.stepStarted, c) :: stepEvents s.2.run.trace) ∧
          c.stepIndex = s.2.span.steps ∧ c'.stepIndex = s.2.span.steps + answer.toList.length)
      (fun _ t => ∃ c, stepEvents t.2.run.trace = (.stepStarted, c) :: stepEvents s.2.run.trace ∧
        c.stepIndex = s.2.span.steps) (step fuel last s) := by
  unfold step
  rw [fire_bind, mapPhase_bind]
  let c := s.2.context (some last)
  let begun := (.stepStarted, c) :: stepEvents s.2.run.trace
  have hfailed : ∀ t : Searching W S V sh, t.2.pace.2 = begun →
      ∃ c, stepEvents t.2.run.trace = (.stepStarted, c) :: stepEvents s.2.run.trace ∧
        c.stepIndex = s.2.span.steps := fun t ht => ⟨c, ht, rfl⟩
  refine Finishes.bind (Q := fun _ t => t.2.pace = (s.2.span.steps, begun))
    ((overlooks_pace.forage_keeps fuel last _).mono (fun _ _ h => h)
      fun _ t h => hfailed t (congrArg Prod.snd h)) fun m? t ht => ?_
  -- what listeners hear at the end is the number of steps that were counted by then
  have hended : ∀ {u : Searching W S V sh} {n : Nat} (a : Score sh), u.2.pace = (n, begun) →
      ∃ c c', (fired .stepEnded a u).2.pace =
        (n, (.stepEnded, c') :: (.stepStarted, c) :: stepEvents s.2.run.trace) ∧
          c.stepIndex = s.2.span.steps ∧ c'.stepIndex = n := by
    intro u n a hu
    obtain ⟨hsteps, hevents⟩ := Prod.mk.inj hu
    refine ⟨c, u.2.context (some a), ?_, rfl, hsteps⟩
    show (u.2.span.steps, (Event.stepEnded, _) :: stepEvents u.2.run.trace) = _
    rw [hsteps, hevents]
  cases m? with
  | none =>
    dsimp only
    rw [fire_bind]
    exact .ok (hended last ht)
  | some m =>
    dsimp only
    rw [Step.get_bind]
    refine Finishes.bind (Q := fun _ u => u.2.pace = (s.2.span.steps, begun))
      ((overlooks_pace.commit_keeps m _ t).mono (fun _ _ h => h.trans ht)
        fun _ u h => hfailed u (congrArg Prod.snd (h.trans ht))) fun a u hu => ?_
    have hcounted : u.2.countStep.pace = (s.2.span.steps + 1, begun) := by
      obtain ⟨hsteps, hevents⟩ := Prod.mk.inj hu
      show (u.2.span.steps + 1, stepEvents u.2.run.trace) = _
      rw [hsteps, hevents]
    have hcomplete := Finishes.onPart (·.2) (fun sc (s : Searching W S V sh) => (s.1, sc)) (s := u)
      (x := Scope.completeStep) (Scope.updateBest_keeps u.2.countStep)
    refine Finishes.bind (Q := fun _ v => v.2.pace = (s.2.span.steps + 1, begun))
      (hcomplete.mono (fun _ v h => ?_) fun _ v h => ?_) fun _ v hv => ?_
    · obtain ⟨sc, hsc, rfl⟩ := h
      exact hsc.trans hcounted
    · obtain ⟨sc, hsc, rfl⟩ := h
      exact hfailed _ (congrArg Prod.snd (hsc.trans hcounted))
    · rw [fire_bind]
      exact .ok (hended a hv)

/-- The number of steps that the step counts before it tells of its end. -/
def StepMade.counted (x : StepMade W S V sh fuel) : Nat := x.answer.toList.length

/-- The tidings `es'` add to the tidings `es` those of the steps `xs`, the first of which is step
`n`, and the start of `k` more. -/
structure Paced (es : List (Event × Context S sh)) (n : Nat) (xs : List (StepMade W S V sh fuel))
    (k : Nat) (es' : List (Event × Context S sh)) : Prop where
  started : indicesAt .stepStarted es' =
    indicesAt .stepStarted es ++ List.range' n (xs.length + k)
  ended : indicesAt .stepEnded es' =
    indicesAt .stepEnded es ++ xs.mapIdx fun i x => n + i + x.counted

namespace Paced

variable {es es' es'' : List (Event × Context S sh)} {n k : Nat}
  {x : StepMade W S V sh fuel} {xs : List (StepMade W S V sh fuel)}

theorem nil : Paced es n ([] : List (StepMade W S V sh fuel)) 0 es where
  started := (List.append_nil _).symm
  ended := (List.append_nil _).symm

/-- Only the start of a step was told of. -/
theorem begun {c : Context S sh} (hc : c.stepIndex = n) :
    Paced es n ([] : List (StepMade W S V sh fuel)) 1 ((.stepStarted, c) :: es) where
  started := by
    rw [indicesAt_cons, hc]
    rfl
  ended := indicesAt_cons _ _ _ _

/-- The tidings of a step come before those of the following ones. -/
theorem cons (hx : Paced es n [x] 0 es') (h : Paced es' (n + 1) xs k es'') :
    Paced es n (x :: xs) k es'' where
  started := by
    have hrange : List.range' n ((x :: xs).length + k) =
        n :: List.range' (n + 1) (xs.length + k) := by
      rw [List.length_cons, Nat.add_right_comm]
      exact List.range'_succ
    rw [h.started, hx.started, hrange, List.append_assoc]
    rfl
  ended := by
    have hshift : (fun i (y : StepMade W S V sh fuel) => n + 1 + i + y.counted) =
        fun i y => n + (i + 1) + y.counted := by
      funext i y
      omega
    rw [h.ended, hx.ended, hshift, List.append_assoc, List.mapIdx_cons (l := xs)]
    rfl

end Paced

/-- What listeners hear of a step that was made. -/
theorem StepMade.paced (x : StepMade W S V sh fuel) :
    Paced (stepEvents x.before.2.run.trace) x.before.2.span.steps [x] 0
        (stepEvents x.after.2.run.trace) ∧
      x.next.2.span.steps = x.before.2.span.steps + 1 := by
  have hstep := step_paced fuel x.last x.before
  rw [x.made] at hstep
  cases hstep with
  | ok h =>
    obtain ⟨c, c', hpace, hc, hc'⟩ := h
    obtain ⟨hsteps, hevents⟩ := Prod.mk.inj hpace
    refine ⟨⟨?_, ?_⟩, ?_⟩
    · rw [hevents, indicesAt_cons, indicesAt_cons, hc]
      exact List.append_nil _
    · rw [hevents, indicesAt_cons, indicesAt_cons, hc', if_neg nofun, List.append_nil]
      rfl
    · unfold next
      cases hanswer : x.answer with
      | some a =>
        rw [hanswer] at hsteps
        exact hsteps
      | none =>
        rw [hanswer] at hsteps
        exact congrArg (· + 1) hsteps

/-! ## Runs -/

/-- How a search that made its last step in the state `u` breaks off with a failure. -/
inductive BreaksOff (fuel : Nat) (f : Failure) (u : Searching W S V sh) :
    Nat → Searching W S V sh → Prop
  /-- The bound on the rounds is reached. -/
  | between (spent : f = .outOfFuel) : BreaksOff fuel f u 0 u
  /-- Another step was begun. -/
  | within {last : Score sh} {t : Searching W S V sh} (failed : step fuel last u = .error f t) :
    BreaksOff fuel f u 1 t

/-- The tidings of a step that was made come before those of what follows. -/
theorem Paced.step (x : StepMade W S V sh fuel) {xs : List (StepMade W S V sh fuel)} {k : Nat}
    {es : List (Event × Context S sh)}
    (h : Paced (stepEvents x.next.2.run.trace) x.next.2.span.steps xs k es) :
    Paced (stepEvents x.before.2.run.trace) x.before.2.span.steps (x :: xs) k es := by
  obtain ⟨hx, hnext⟩ := x.paced
  rw [x.trace_next, hnext] at h
  exact hx.cons h

/-- The search goes from `s` to `t` in steps that listeners were told of. -/
def Goes (fuel : Nat) (last : Score sh) (s t : Searching W S V sh) : Prop :=
  ∃ xs : List (StepMade W S V sh fuel), Course fuel last s xs t ∧
    Paced (stepEvents s.2.run.trace) s.2.span.steps xs 0 (stepEvents t.2.run.trace)

/-- The search goes on from `s` in steps that listeners were told of, and then breaks off with the
failure. -/
def Breaks (fuel : Nat) (last : Score sh) (s : Searching W S V sh) (f : Failure)
    (t : Searching W S V sh) : Prop :=
  ∃ (xs : List (StepMade W S V sh fuel)) (k : Nat) (u : Searching W S V sh),
    Course fuel last s xs u ∧ BreaksOff fuel f u k t ∧
      Paced (stepEvents s.2.run.trace) s.2.span.steps xs k (stepEvents t.2.run.trace)

theorem Goes.step (x : StepMade W S V sh fuel) {t : Searching W S V sh}
    (h : Goes fuel x.score x.next t) : Goes fuel x.last x.before t := by
  obtain ⟨xs, hcourse, hpaced⟩ := h
  exact ⟨x :: xs, .step x hcourse, .step x hpaced⟩

theorem Breaks.step (x : StepMade W S V sh fuel) {f : Failure} {t : Searching W S V sh}
    (h : Breaks fuel x.score x.next f t) : Breaks fuel x.last x.before f t := by
  obtain ⟨xs, k, u, hcourse, hbreaks, hpaced⟩ := h
  exact ⟨x :: xs, k, u, .step x hcourse, hbreaks, .step x hpaced⟩

theorem steps_paced (fuel rounds : Nat) (last : Score sh) (s : Searching W S V sh) :
    Finishes (fun _ => Goes fuel last s) (Breaks fuel last s) (steps fuel rounds last s) := by
  induction rounds generalizing last s with
  | zero => exact .error ⟨[], 0, s, .stop last s, .between rfl, .nil⟩
  | succ rounds ih =>
    rw [steps, Step.get_bind]
    dsimp only
    split
    · exact .ok ⟨[], .stop last s, .nil⟩
    cases hmade : step fuel last s with
    | error f t =>
      have hstep := step_paced fuel last s
      rw [hmade] at hstep
      rw [Step.bind_error hmade]
      cases hstep with
      | error h =>
        obtain ⟨c, hevents, hc⟩ := h
        exact .error ⟨[], 1, s, .stop last s, .within hmade, hevents ▸ .begun hc⟩
    | ok answer t =>
      let x : StepMade W S V sh fuel := ⟨last, s, answer, t, hmade⟩
      have hrest := (ih x.score x.next).mono (fun _ _ h => Goes.step x h)
        fun _ _ h => Breaks.step x h
      rw [Step.bind_ok hmade]
      cases answer with
      | some a => exact hrest
      | none =>
        dsimp only
        cases s.1.noAcceptedMove with
        | terminate => exact .ok ⟨[x], .halt x rfl, x.paced.1⟩
        | proceed => exact hrest

/-- A phase tells of its start and goes on in steps. -/
theorem work_paced (fuel : Nat) (p : LocalSearch S V sh) (sc : Scope W S sh) :
    Finishes
      (fun _ t => ∃ start last sc' u, sc'.pace = sc.pace ∧
        Goes fuel start (fired .phaseStarted start (p, sc')) u ∧ t = fired .phaseEnded last u)
      (fun f t => t.2.pace = sc.pace ∨ ∃ start sc', sc'.pace = sc.pace ∧
        Breaks fuel start (fired .phaseStarted start (p, sc')) f t)
      (work fuel (p, sc)) := by
  unfold work
  rw [mapScope_bind]
  have honScope : ∀ {α : Type} {x : Action (Scope W S sh) α} (_ : Keeps Scope.pace x)
      {s : Searching W S V sh} (_ : s.1 = p ∧ s.2.pace = sc.pace),
      Finishes (fun _ t => t.1 = p ∧ t.2.pace = sc.pace) (fun _ t => t.2.pace = sc.pace)
        (onScope x s) := by
    intro α x hx s hs
    refine (Finishes.onPart (·.2) (fun sc (s : Searching W S V sh) => (s.1, sc)) (hx s.2)).mono
      (fun _ t h => ?_) fun _ t h => ?_
    · obtain ⟨sc', hsc, rfl⟩ := h
      exact ⟨hs.1, hsc.trans hs.2⟩
    · obtain ⟨sc', hsc, rfl⟩ := h
      exact hsc.trans hs.2
  refine Finishes.bind ((honScope (Scope.onRun_keeps Run.scoreNow_keeps) ⟨rfl, rfl⟩).mono
    (fun _ _ h => h) fun _ _ h => .inl h) fun start s hs => ?_
  rw [mapScope_bind]
  have hbest := honScope Scope.updateBest_keeps
    (s := (s.1, { s.2 with span := { s.2.span with startingScore := some start } })) hs
  refine Finishes.bind (hbest.mono (fun _ _ h => h) fun _ _ h => .inl h) fun _ t ht => ?_
  obtain ⟨p', sc'⟩ := t
  obtain ⟨rfl, hpace⟩ := ht
  rw [fire_bind]
  refine Finishes.bind ((steps_paced fuel fuel start _).mono (fun _ _ h => h)
    fun _ _ h => .inr ⟨start, sc', hpace, h⟩) fun x u hu => ?_
  obtain ⟨outcome, last⟩ := x
  dsimp only
  rw [fire_bind]
  exact .ok ⟨start, last, sc', u, hpace, hu, rfl⟩

/-- However a search ends, listeners were told of the start of its steps `0`, `1`, `2` and so on
without gaps. Step `i` told of its end with the index `i + 1` if it applied a candidate, and with
`i` if it accepted none. One more step was perhaps begun before a failure. -/
theorem solve_indices (fuel : Nat) (p : LocalSearch S V sh) (run : Run W S sh) :
    Finishes
      (fun _ t => ∃ start last sc sc' u, ∃ xs : List (StepMade W S V sh fuel),
        Course fuel start (fired .phaseStarted start (p, sc)) xs u ∧
        fired .phaseEnded last u = (t.1, sc') ∧ sc'.run = t.2 ∧
        Paced (stepEvents run.trace) 0 xs 0 (stepEvents t.2.trace))
      (fun f t => stepEvents t.2.trace = stepEvents run.trace ∨
        ∃ start sc sc' u k, ∃ xs : List (StepMade W S V sh fuel),
          Course fuel start (fired .phaseStarted start (p, sc)) xs u ∧
          BreaksOff fuel f u k (t.1, sc') ∧ sc'.run = t.2 ∧
          Paced (stepEvents run.trace) 0 xs k (stepEvents t.2.trace))
      (solve fuel (p, run)) := by
  unfold solve
  dsimp only
  split
  · exact .error (.inl rfl)
  split
  · exact .error (.inl rfl)
  let opened : Scope W S sh := ⟨{ index := run.beginPhase.1 }, run.beginPhase.2⟩
  have hwork := work_paced fuel p opened
  -- no step has been counted before the first one
  have hfirst : ∀ (start : Score sh) {sc : Scope W S sh}, sc.pace = opened.pace →
      (fired .phaseStarted start (p, sc)).2.span.steps = 0 ∧
        stepEvents (fired .phaseStarted start (p, sc)).2.run.trace = stepEvents run.trace :=
    fun _ _ h => Prod.mk.inj h
  unfold inSpan
  dsimp only
  generalize work fuel (p, opened) = r at hwork
  cases hwork with
  | ok h =>
    obtain ⟨start, last, sc, u, hpace, ⟨xs, hcourse, hpaced⟩, rfl⟩ := h
    rw [(hfirst start hpace).1, (hfirst start hpace).2] at hpaced
    exact .ok ⟨start, last, sc, _, u, xs, hcourse, rfl, rfl, hpaced⟩
  | error h =>
    refine .error ?_
    rcases h with h | ⟨start, sc, hpace, xs, k, u, hcourse, hbreaks, hpaced⟩
    · exact .inl (congrArg Prod.snd h)
    · rw [(hfirst start hpace).1, (hfirst start hpace).2] at hpaced
      exact .inr ⟨start, sc, _, u, k, xs, hcourse, hbreaks, rfl, hpaced⟩

end LocalSearch

/-! ## A search on a row -/

namespace Row

/-- Goes on where no candidate is accepted, until it has counted two steps. -/
def persistent : LocalSearch Row Nat .simple :=
  { search with noAcceptedMove := .proceed, termination := some (.steps 2) }

/-- The first step fills a cell and the second one finds no candidate: the index grows from the
start to the end of the one and not of the other. -/
theorem indices_persistent :
    (match LocalSearch.solve 5 (persistent, run) with
      | .ok _ (_, run') => some (indicesAt .stepStarted (stepEvents run'.trace),
          indicesAt .stepEnded (stepEvents run'.trace))
      | .error _ _ => none) = some ([0, 1], [1, 1]) := by
  decide +kernel

end Row

end PlanSearch
