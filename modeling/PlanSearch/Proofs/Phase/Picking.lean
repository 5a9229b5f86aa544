import PlanSearch.Proofs.Neighbourhood.Respect
import PlanSearch.Proofs.Phase.Filling
import PlanSearch.Proofs.Search.Climbing

/-!
# The value that a construction picks

A placement takes the first of its values that leads to a score that is good enough, or, if there is
none, the first of those that lead to the highest score. To find out it tries one value after another
on the plan and takes each of them back, so that a step writes its slot and nothing else. Values that
cannot be assigned are passed over; for a gap that is to leave it as it is.

    q picked from vs, v does not do → what is picked from vs ++ [v]                (Leading.concat)
    tryValues … → the plan is what it was, and the move assigns what is picked  (tryValues_finishes)
    a step from a state with score `last` picks a value                         (StepMade.picks)
    every step of a phase does, and the phase fails only where a score does     (solve_picks)
-/

namespace PlanSearch

variable {S V W α : Type} {sh : Shape}

/-! ## Picking from a list -/

section Picking

/-- Of the values `vs`, none of which leads to a score that is good enough, this is the first of those
that lead to the highest one. -/
inductive Leading (leads : α → Score sh → Prop) (enough : Score sh → Bool) (vs : List α) :
    Option (α × Score sh) → Prop
  | nothing (empty : vs = []) : Leading leads enough vs none
  | best {before behind : List α} {v : α} {a : Score sh} (split : vs = before ++ v :: behind)
    (score : leads v a) (isNot : enough a = false)
    (lower : ∀ u ∈ before, ∃ b, leads u b ∧ enough b = false ∧ b < a)
    (noHigher : ∀ u ∈ behind, ∃ b, leads u b ∧ enough b = false ∧ b ≤ a) :
    Leading leads enough vs (some (v, a))

/-- Of the values `vs` this is the first one with a score that is good enough, or else the first of
those that lead to the highest one. -/
inductive Picked (leads : α → Score sh → Prop) (enough : Score sh → Bool) (vs : List α) :
    Option (α × Score sh) → Prop
  | early {before behind : List α} {v : α} {a : Score sh} (split : vs = before ++ v :: behind)
    (score : leads v a) (isEnough : enough a = true)
    (isNot : ∀ u ∈ before, ∃ b, leads u b ∧ enough b = false) :
    Picked leads enough vs (some (v, a))
  | late {q : Option (α × Score sh)} (leading : Leading leads enough vs q) :
    Picked leads enough vs q

variable {leads : α → Score sh → Prop} {enough : Score sh → Bool} {vs behind : List α}
  {q : Option (α × Score sh)} {v : α} {a : Score sh}

namespace Leading

theorem not_enough (h : Leading leads enough vs q) :
    ∀ u ∈ vs, ∃ b, leads u b ∧ enough b = false := by
  intro u hu
  cases h with
  | nothing empty =>
    rw [empty] at hu
    cases hu
  | best split score isNot lower noHigher =>
    rw [split] at hu
    rcases List.mem_append.1 hu with hu | hu
    · obtain ⟨b, hb, hnot, -⟩ := lower u hu
      exact ⟨b, hb, hnot⟩
    · rcases List.mem_cons.1 hu with rfl | hu
      · exact ⟨_, score, isNot⟩
      · obtain ⟨b, hb, hnot, -⟩ := noHigher u hu
        exact ⟨b, hb, hnot⟩

/-- A value with a higher score leads from then on, and any other one leaves the lead alone. -/
theorem concat (h : Leading leads enough vs q) (hv : leads v a) (hnot : enough a = false) :
    Leading leads enough (vs ++ [v]) (if q.all (fun r => r.2 < a) then some (v, a) else q) := by
  cases h with
  | nothing empty =>
    rw [empty]
    have hsplit : [] ++ [v] = [] ++ v :: [] := rfl
    exact .best hsplit hv hnot (List.forall_mem_nil _) (List.forall_mem_nil _)
  | @best before behind u b split score isNot lower noHigher =>
    rw [Option.all_some]
    by_cases hlt : b < a
    · rw [if_pos (decide_eq_true hlt)]
      refine .best rfl hv hnot (fun t ht => ?_) (List.forall_mem_nil _)
      rw [split] at ht
      rcases List.mem_append.1 ht with ht | ht
      · obtain ⟨c, hc, hcnot, hcb⟩ := lower t ht
        exact ⟨c, hc, hcnot, Score.lt_of_le_of_lt (Score.le_of_lt hcb) hlt⟩
      · rcases List.mem_cons.1 ht with rfl | ht
        · exact ⟨b, score, isNot, hlt⟩
        · obtain ⟨c, hc, hcnot, hcb⟩ := noHigher t ht
          exact ⟨c, hc, hcnot, Score.lt_of_le_of_lt hcb hlt⟩
    · rw [if_neg (by rwa [decide_eq_true_iff])]
      refine .best (by rw [split, List.append_assoc]; rfl) score isNot lower ?_
      exact List.forall_mem_append.2
        ⟨noHigher, List.forall_mem_singleton.2 ⟨a, hv, hnot, Score.not_lt.1 hlt⟩⟩

/-- The first value that is good enough is picked, whatever led before. -/
theorem early (h : Leading leads enough vs q) (hv : leads v a) (henough : enough a = true)
    (behind : List α) : Picked leads enough (vs ++ v :: behind) (some (v, a)) :=
  .early rfl hv henough h.not_enough

end Leading

/-- The picked value leads to the score that it was picked for. -/
theorem Picked.score (h : Picked leads enough vs (some (v, a))) : leads v a := by
  cases h with
  | early _ score => exact score
  | late leading =>
    cases leading with
    | best _ score => exact score

theorem Picked.mem (h : Picked leads enough vs (some (v, a))) : v ∈ vs := by
  cases h with
  | early split =>
    rw [split]
    exact List.mem_append_right _ List.mem_cons_self
  | late leading =>
    cases leading with
    | best split =>
      rw [split]
      exact List.mem_append_right _ List.mem_cons_self

end Picking

/-! ## Scores on the workspace of a run -/

section Scores

variable [Plan S sh] [Workspace W S sh] {X : Variable S V → Prop} {same : S → S → Prop}
  {good : W → Prop} {p : S} {w : W} {r : Run W S sh} {m : Move S V}

omit [Plan S sh] [Workspace W S sh] in
theorem Finishes.onWorkspace {Q : α → W → Prop} {E : Failure → W → Prop} {x : Action W α}
    (h : Finishes Q E (x r.workspace)) :
    Finishes (fun a r' => ∃ w, Q a w ∧ r' = { r with workspace := w })
      (fun f r' => ∃ w, E f w ∧ r' = { r with workspace := w }) (Run.onWorkspace x r) := by
  unfold Run.onWorkspace
  generalize x r.workspace = y at h
  cases h with
  | ok h => exact .ok ⟨_, h, rfl⟩
  | error h => exact .error ⟨_, h, rfl⟩

omit [Plan S sh] [Workspace W S sh] in
theorem Finishes.onScope {P : Type} {Q : α → Scope W S sh → Prop}
    {E : Failure → Scope W S sh → Prop} {x : Action (Scope W S sh) α} {s : P × Scope W S sh}
    (h : Finishes Q E (x s.2)) :
    Finishes (fun a t => ∃ sc, Q a sc ∧ t = (s.1, sc)) (fun f t => ∃ sc, E f sc ∧ t = (s.1, sc))
      (PlanSearch.onScope x s) :=
  Finishes.onPart (·.2) (fun sc s => (s.1, sc)) h

omit [Plan S sh] [Workspace W S sh] in
theorem Finishes.onRun {P : Type} {Q : α → Run W S sh → Prop} {E : Failure → Run W S sh → Prop}
    {x : Action (Run W S sh) α} {s : P × Scope W S sh} (h : Finishes Q E (x s.2.run)) :
    Finishes (fun a t => ∃ r, Q a r ∧ t = (s.1, { s.2 with run := r }))
      (fun f t => ∃ r, E f r ∧ t = (s.1, { s.2 with run := r }))
      (PlanSearch.onScope (Scope.onRun x) s) := by
  refine (Finishes.onScope (Finishes.onPart _ _ h)).mono ?_ ?_
  · rintro a _ ⟨_, ⟨r, hr, rfl⟩, rfl⟩
    exact ⟨r, hr, rfl⟩
  · rintro f _ ⟨_, ⟨r, hr, rfl⟩, rfl⟩
    exact ⟨r, hr, rfl⟩

open Workspace

omit [Plan S sh] in
theorem Workspace.scoreNow_finishes (hw : good w) :
    Finishes (fun a w' => Workspace.score w = .ok a w') (fun f _ => Fails good f)
      (scoreNow w) := by
  cases e : scoreNow w with
  | ok a w' => exact .ok (scoreNow_eq_ok e)
  | error f w' => exact .error (fails_of_scoreNow hw e)

/-- To update the best plan fails only where the score does. -/
theorem Scope.updateBest_fails {sc : Scope W S sh} (hw : good sc.run.workspace) :
    Finishes (fun _ _ => True) (fun f _ => Fails good f) (updateBest sc) := by
  have hrun : Finishes (fun _ _ => True) (fun f _ => Fails good f) (Run.updateBest sc.run) := by
    unfold Run.updateBest
    refine Finishes.bind ((Finishes.onWorkspace (scoreNow_finishes hw)).mono (fun _ _ h => h)
      fun _ _ ⟨_, hf, _⟩ => hf) fun a r _ => ?_
    rw [Step.get_bind]
    dsimp only
    split <;> exact .ok trivial
  unfold updateBest
  refine Finishes.bind ((Finishes.onPart _ _ hrun).mono (fun _ _ h => h)
    fun _ _ ⟨_, hf, _⟩ => hf) fun improved sc' _ => ?_
  split <;> exact .ok trivial

variable [Workspace.Lawful W]

theorem Workspace.Exact.checkedScore_finishes (hg : Exact X same good) (hl : Lenses X same)
    (hw : good w) (context : String) :
    Finishes (fun a w' => Workspace.score w = .ok a w') (fun f _ => Fails good f)
      (checkedScore context w) := by
  cases e : checkedScore context w with
  | ok a w' => exact .ok (checkedScore_eq_ok e)
  | error f w' => exact .error (hg.checkedScore_error hl hw e)

theorem scoreCandidate_finishes [ToString V] (hg : Exact X same good) (hl : Lenses X same)
    (hm : m.Of X p) (hw : Holds same good p w) (mode : Mode) :
    Finishes (fun a w' => Holds same good p w' ∧ m.LeadsTo same good p a)
      (fun f _ => Fails good f) (scoreCandidate mode m w) := by
  cases e : scoreCandidate mode m w with
  | ok a w' => exact .ok (scoreCandidate_eq_ok hg hl hm hw e)
  | error f w' => exact .error (scoreCandidate_error hg hl hm hw e)

end Scores

namespace Construction

open Workspace

variable [Plan S sh] [Workspace W S sh] {X : Variable S V → Prop} {same : S → S → Prop}
  {good : W → Prop} {b : Slot S V} {p : S}

/-! ## Trying values -/

/-- The move that gives the slot a value or takes its value away. -/
def assignment (b : Slot S V) (v : Option V) : Move S V := .leaf (.change b.cell b.entity v)

omit [Workspace W S sh] in
theorem assignment_of (hb : b.Of X p) (v : Option V) : (assignment b v).Of X p := fun _ ha =>
  List.mem_singleton.1 ha ▸ hb

/-- The full score of the plan `p` with the value in the slot. -/
def LeadsTo (same : S → S → Prop) (good : W → Prop) (p : S) (b : Slot S V) (v : Option V)
    (a : Score sh) : Prop := (assignment b v).LeadsTo same good p a

variable [DecidableEq V]

/-- The values that the slot can be given. -/
def doable (p : S) (b : Slot S V) (vs : List (Option V)) : List (Option V) :=
  vs.filter fun v => (assignment b v).isDoable p

omit [Workspace W S sh] in
theorem isDoable_assignment_congr (hl : Lenses X same) (hP : Plan.SharesEntities same) {q : S}
    (hb : b.Of X p) (hpq : same p q) (v : Option V) :
    (assignment b v).isDoable p = (assignment b v).isDoable q := by
  refine Move.isDoable_congr hP hpq fun a ha => ?_
  exact (hl.agree hpq).get a (assignment_of hb v a ha)

omit [Workspace W S sh] in
theorem doable_cons (p : S) (b : Slot S V) (v : Option V) (vs : List (Option V)) :
    doable p b (v :: vs) =
      if (assignment b v).isDoable p then v :: doable p b vs else doable p b vs :=
  List.filter_cons

variable [ToString V] {r : Run W S sh} {last : Score sh}

/-- A value that cannot be assigned is passed over. -/
theorem tryValues_cons_of_not_doable {v : Option V} (h : (assignment b v).isDoable r.plan = false)
    (pickEarly : PickEarly) (vs : List (Option V)) (best : Option (Candidate S V sh)) :
    tryValues pickEarly b.cell b.entity last best (v :: vs) r =
      tryValues pickEarly b.cell b.entity last best vs (r.record Stats.recordIllegal) := by
  rw [tryValues, Step.get_bind]
  dsimp only
  unfold assignment at h
  rw [h]
  rfl

/-- Any other one is scored, and the search for a value goes on unless the score is good enough. -/
theorem tryValues_cons_of_doable {v : Option V} (h : (assignment b v).isDoable r.plan = true)
    (pickEarly : PickEarly) (vs : List (Option V)) (best : Option (Candidate S V sh)) :
    tryValues pickEarly b.cell b.entity last best (v :: vs) r =
      (Run.onWorkspace (scoreCandidate r.mode (assignment b v)) >>= fun a r' =>
        if pickEarly.isGoodEnough last a then
          .ok (some (assignment b v)) (r'.record (Stats.recordMove (best.all fun c => c.2 < a)))
        else tryValues pickEarly b.cell b.entity last
          (if best.all (fun c => c.2 < a) then some (assignment b v, a) else best) vs
          (r'.record (Stats.recordMove (best.all fun c => c.2 < a)))) r := by
  rw [tryValues, Step.get_bind]
  dsimp only
  unfold assignment at h ⊢
  rw [h]
  refine congrArg (fun g => (Run.onWorkspace _ >>= g) r) ?_
  funext a r'
  rw [Step.modify_bind]
  cases pickEarly.isGoodEnough last a <;> rfl

variable [Workspace.Lawful W]

/-- While values are tried the plan stays what it is, and in the end the move assigns the picked one.
Nothing but a failing score gets in the way. -/
theorem tryValues_finishes (hl : Lenses X same) (hg : Exact X same good)
    (hP : Plan.SharesEntities same) (hb : b.Of X p) (pickEarly : PickEarly) (last : Score sh)
    {tried : List (Option V)} {q : Option (Option V × Score sh)}
    (hq : Leading (LeadsTo same good p b) (pickEarly.isGoodEnough last) tried q)
    (hr : Holds same good p r.workspace) (vs : List (Option V)) :
    Finishes
      (fun m? r' => Holds same good p r'.workspace ∧ ∃ q : Option (Option V × Score sh),
        m? = q.map (fun q => assignment b q.1) ∧
        Picked (LeadsTo same good p b) (pickEarly.isGoodEnough last) (tried ++ doable p b vs) q)
      (fun f _ => Fails good f)
      (tryValues pickEarly b.cell b.entity last (q.map fun q => (assignment b q.1, q.2)) vs r) := by
  induction vs generalizing tried q r with
  | nil =>
    refine .ok ⟨hr, q, ?_, ?_⟩
    · rw [Option.map_map]
      rfl
    · rw [doable, List.filter_nil, List.append_nil]
      exact .late hq
  | cons v vs ih =>
    have hdoable : (assignment b v).isDoable p = (assignment b v).isDoable r.plan :=
      isDoable_assignment_congr hl hP hb hr.same v
    rw [doable_cons]
    cases hdo : (assignment b v).isDoable p with
    | false =>
      rw [hdo] at hdoable
      rw [tryValues_cons_of_not_doable hdoable.symm, if_neg Bool.false_ne_true]
      exact ih (r := r.record Stats.recordIllegal) hq hr
    | true =>
      rw [hdo] at hdoable
      rw [tryValues_cons_of_doable hdoable.symm, if_pos rfl]
      have hscore := Finishes.onWorkspace
        (scoreCandidate_finishes hg hl (assignment_of hb v) hr r.mode)
      refine Finishes.bind (hscore.mono (fun _ _ h => h) fun f _ ⟨_, hf, _⟩ => hf) ?_
      rintro a _ ⟨w, ⟨hw, hleads⟩, rfl⟩
      cases henough : pickEarly.isGoodEnough last a with
      | true =>
        rw [if_pos rfl]
        exact .ok ⟨hw, some (v, a), rfl, hq.early hleads henough _⟩
      | false =>
        rw [if_neg Bool.false_ne_true, List.append_cons]
        -- What leads from here on is the same whether it is kept as a value or as a move.
        have hlead : (if (q.map fun q => (assignment b q.1, q.2)).all (fun c => c.2 < a)
              then some (assignment b v, a) else q.map fun q => (assignment b q.1, q.2)) =
            (if q.all (fun q => q.2 < a) then some (v, a) else q).map
              fun q => (assignment b q.1, q.2) := by
          rw [Option.all_map]
          show (if q.all (fun q => q.2 < a) then _ else _) = _
          split <;> rfl
        rw [hlead]
        exact ih (hq.concat hleads henough) hw

/-! ## Parts of a step -/

variable {s t : Construction S V sh × Scope W S sh} {place : Placement} {d : Definition S V}

theorem choose_finishes (hl : Lenses X same) (hg : Exact X same good)
    (hP : Plan.SharesEntities same) (last : Score sh) (hplaced : s.1.definitions[place.placer]? = some d)
    (hb : Slot.Of X s.2.run.plan ⟨d.cell, place.entity⟩) (hw : good s.2.run.workspace) :
    Finishes
      (fun m? t => t.1.pickEarly = s.1.pickEarly ∧
        Holds same good s.2.run.plan t.2.run.workspace ∧ ∃ q : Option (Option V × Score sh),
          m? = q.map (fun q => assignment ⟨d.cell, place.entity⟩ q.1) ∧
          Picked (LeadsTo same good s.2.run.plan ⟨d.cell, place.entity⟩)
            (s.1.pickEarly.isGoodEnough last)
            (doable s.2.run.plan ⟨d.cell, place.entity⟩ (d.choices s.2.run.plan place.entity)) q)
      (fun f _ => Fails good f) (choose place last (fired .stepStarted last s)) := by
  obtain ⟨placers, source, hchoose⟩ := choose_fired last hplaced
  rw [hchoose]
  have hholds : Holds same good s.2.run.plan s.2.run.workspace := ⟨hw, hl.equivalence.refl _⟩
  have htry := tryValues_finishes (r := { (fired .stepStarted last s).2.run with source })
    hl hg hP hb s.1.pickEarly last (.nothing rfl) hholds (d.choices s.2.run.plan place.entity)
  refine (Finishes.onRun htry).mono ?_ ?_
  · rintro m? _ ⟨r, ⟨hr, q, hm, hq⟩, rfl⟩
    exact ⟨rfl, hr, q, hm, hq⟩
  · rintro f _ ⟨r, hf, -⟩
    exact hf

omit [DecidableEq V] [ToString V] in
/-- Making a move fails only where its score does. -/
theorem commit_finishes (hl : Lenses X same) (hg : Exact X same good) {m? : Option (Move S V)}
    (hw : good (m?.elim r.workspace fun m => m.apply r.workspace)) (stepIndex : Nat) :
    Finishes (fun a r' => ∃ w,
        Workspace.score (m?.elim r.workspace fun m => m.apply r.workspace) = .ok a w ∧
          r' = { r with workspace := w })
      (fun f _ => Fails good f) (commit m? stepIndex r) := by
  have hscore : Finishes (fun a w =>
        Workspace.score (m?.elim r.workspace fun m => m.apply r.workspace) = .ok a w)
      (fun f _ => Fails good f)
      ((if r.mode.isAsserted then checkedScore s!"after construction step {stepIndex}"
        else scoreNow) (m?.elim r.workspace fun m => m.apply r.workspace)) := by
    split
    · exact hg.checkedScore_finishes hl hw _
    · exact scoreNow_finishes hw
  unfold commit
  rw [Step.get_bind]
  refine (Finishes.onWorkspace (Q := fun a w =>
    Workspace.score (m?.elim r.workspace fun m => m.apply r.workspace) = .ok a w)
    (E := fun f _ => Fails good f) ?_).mono (fun _ _ h => h) fun _ _ ⟨_, hf, _⟩ => hf
  cases m? with
  | none => exact hscore
  | some m => exact hscore

/-! ## Steps -/

namespace StepMade

/-- The values that can be assigned, in the order in which they are tried. -/
def candidates (x : StepMade W S V sh) : List (Option V) :=
  doable x.started.plan x.slot (x.definition.choices x.started.plan x.place.entity)

/-- What the step does: it picks a candidate by the scores that they lead to, having taken back all
that it tried, and writes it to its slot. Without a candidate it does nothing. -/
structure Picks (X : Variable S V → Prop) (same : S → S → Prop) (good : W → Prop)
    (pickEarly : PickEarly) (x : StepMade W S V sh) : Prop where
  /-- The last score is that of the plan before the step. -/
  fullScore_before : fullScore x.before.2.run.workspace = .ok x.last
  picked : ∃ q : Option (Option V × Score sh),
    Picked (LeadsTo same good x.started.plan x.slot) (pickEarly.isGoodEnough x.last) x.candidates q ∧
    (∃ u, choose x.place x.last (fired .stepStarted x.last x.before) =
        .ok (q.map fun q => assignment x.slot q.1) u ∧ same x.started.plan u.2.run.plan) ∧
    same (q.elim x.started.plan fun q => x.slot.set x.started.plan q.1) x.ended.plan ∧
    x.score = q.elim x.last (·.2)
  others : ∀ a : Slot S V, a.Of X x.started.plan → ¬x.slot.sameAs a →
    a.get x.ended.plan = a.get x.started.plan
  /-- The score of the step is that of the plan after it. -/
  fullScore_after : fullScore x.after.2.run.workspace = .ok x.score

variable {x : StepMade W S V sh} {pickEarly : PickEarly}

omit [Workspace.Lawful W] in
/-- A gap can be given every value of the range, and nothing else. -/
theorem candidates_of_gap (hopen : x.slot.Open X x.started.plan)
    (hgap : x.slot.get x.started.plan = none) : x.candidates = x.values.map some := by
  have hdoable : ∀ v : Option V, (assignment x.slot v).isDoable x.started.plan = v.isSome :=
    isDoable_gap hopen hgap
  unfold candidates doable Definition.choices
  simp only [hdoable]
  rw [List.filter_append]
  have hleave : (if x.definition.allowsUnassigned then [none] else []).filter
      (fun v : Option V => v.isSome) = [] := by split <;> rfl
  rw [hleave, List.nil_append, List.filter_map]
  show (x.values.filter fun _ => true).map some = x.values.map some
  rw [List.filter_true]

/-- A step from a good workspace picks a value, and leaves a good workspace. -/
theorem picks (hl : Lenses X same) (hg : Exact X same good) (hP : Plan.SharesEntities same)
    (hb : x.slot.Of X x.started.plan) (hw : good x.before.2.run.workspace)
    (hfull : fullScore x.before.2.run.workspace = .ok x.last)
    (hpick : x.before.1.pickEarly = pickEarly) :
    x.Picks X same good pickEarly ∧ good x.after.2.run.workspace ∧
      x.after.1.pickEarly = pickEarly := by
  obtain ⟨place, d, last, s, a, t, placed, made⟩ := x
  obtain ⟨m?, u, w, improved, sc', hchoose, hscore, hcomplete, rfl⟩ := step_eq_ok made
  have hfinishes := choose_finishes hl hg hP last placed hb hw
  rw [hchoose] at hfinishes
  obtain ⟨hearly, hu, q, rfl, hq⟩ | _ := hfinishes
  rw [hpick] at hq hearly
  obtain ⟨⟨c, hbest⟩, -⟩ := Scope.completeStep_eq_ok hcomplete
  let b : Slot S V := ⟨d.cell, place.entity⟩
  -- The workspace on which the picked value was written, if there was one.
  have hwritten : Holds same good (q.elim s.2.run.plan fun q => b.set s.2.run.plan q.1)
      ((q.map fun q => assignment b q.1).elim u.2.run.workspace
        fun m => m.apply u.2.run.workspace) := by
    cases q with
    | none => exact hu
    | some q => exact hu.apply hg hl (assignment_of hb q.1)
  have hscored := hwritten.score hg hl hscore
  have hended := hscored.score hg hl hbest
  have hfullscore : fullScore ((q.map fun q => assignment b q.1).elim u.2.run.workspace
      fun m => m.apply u.2.run.workspace) = .ok a := hg.fullScore_eq hwritten.good hscore
  have hstepscore : a = q.elim last (·.2) := by
    cases q with
    | none =>
      have hback := hg.fullScore_congr hw hu.good hu.same
      rw [hfull, show fullScore u.2.run.workspace = .ok a from hfullscore] at hback
      exact (Except.ok.inj hback).symm
    | some q =>
      have hleads : fullScore ((assignment b q.1).apply u.2.run.workspace) = .ok q.2 := hq.score _ hu
      exact Except.ok.inj (hfullscore.symm.trans hleads)
  have hplan : same (q.elim s.2.run.plan fun q => b.set s.2.run.plan q.1) sc'.run.plan := hended.same
  refine ⟨⟨hfull, ⟨q, hq, ⟨u, hchoose, hu.same⟩, hplan, hstepscore⟩, fun c hc hbc => ?_, ?_⟩,
    hended.good, hearly⟩
  · show c.get sc'.run.plan = c.get s.2.run.plan
    cases q with
    | none => exact ((hl.agree hplan).get c hc).symm
    | some q =>
      have hother : c.get (b.set s.2.run.plan q.1) = c.get s.2.run.plan :=
        hl.get_set_of_ne q.1 hb hc hbc
      exact ((hl.agree hplan).get c ((hl.of_set q.1 hb c).2 hc)).symm.trans hother
  · rw [← hfullscore]
    exact hg.fullScore_congr hended.good hwritten.good
      (hl.equivalence.trans (hl.equivalence.symm hended.same) hwritten.same)

end StepMade

/-- A step fails only where a score does. -/
theorem step_fails (hl : Lenses X same) (hg : Exact X same good) (hP : Plan.SharesEntities same)
    (hplaced : s.1.definitions[place.placer]? = some d)
    (hb : Slot.Of X s.2.run.plan ⟨d.cell, place.entity⟩) (hw : good s.2.run.workspace) :
    Finishes (fun _ _ => True) (fun f _ => Fails good f) (step place last s) := by
  unfold step
  rw [fire_bind]
  refine Finishes.bind (choose_finishes hl hg hP last hplaced hb hw) ?_
  rintro m? u ⟨-, hu, q, rfl, -⟩
  rw [Step.get_bind]
  have hwritten : good ((q.map fun q => assignment ⟨d.cell, place.entity⟩ q.1).elim
      u.2.run.workspace fun m => m.apply u.2.run.workspace) := by
    cases q with
    | none => exact hu.good
    | some q => exact (hu.apply hg hl (assignment_of hb q.1)).good
  have hcommit := Finishes.onRun (s := u) (commit_finishes hl hg hwritten u.2.span.steps)
  refine Finishes.bind (hcommit.mono (fun _ _ h => h) fun f _ ⟨_, hf, _⟩ => hf) ?_
  rintro a _ ⟨_, ⟨w, hscore, rfl⟩, rfl⟩
  have hcomplete : Finishes (fun _ _ => True) (fun f _ => Fails good f)
      (Scope.completeStep { u.2 with run := { u.2.run with workspace := w } }) :=
    Scope.updateBest_fails (hg.score hwritten hscore)
  refine Finishes.bind ((Finishes.onScope (s := (u.1, _)) hcomplete).mono (fun _ _ h => h)
    fun _ _ ⟨_, hf, _⟩ => hf) fun improved v _ => ?_
  rw [fire_bind]
  exact .ok trivial

/-! ## Runs -/

variable {xs : List (StepMade W S V sh)} {pickEarly : PickEarly}

omit [Workspace.Lawful W] in
/-- What is assigned to a slot does not keep other slots from existing. -/
theorem StepMade.Picks.of_iff {x : StepMade W S V sh} (h : x.Picks X same good pickEarly)
    (hl : Lenses X same) (hb : x.slot.Of X x.started.plan) (a : Slot S V) :
    a.Of X x.ended.plan ↔ a.Of X x.started.plan := by
  obtain ⟨q, -, -, hplan, -⟩ := h.picked
  rw [← hl.of_iff hplan a]
  cases q with
  | none => exact Iff.rfl
  | some q => exact hl.of_set q.1 hb a

/-- Each step picks a value by the score that the one before it left. -/
theorem Course.picks (hl : Lenses X same) (hg : Exact X same good) (hP : Plan.SharesEntities same)
    (h : Course last s xs t) (hslots : ∀ x ∈ xs, x.slot.Of X s.2.run.plan)
    (hw : good s.2.run.workspace) (hfull : fullScore s.2.run.workspace = .ok last)
    (hpick : s.1.pickEarly = pickEarly) :
    (∀ x ∈ xs, x.Picks X same good pickEarly) ∧ good t.2.run.workspace := by
  induction h with
  | stop last s => exact ⟨List.forall_mem_nil _, hw⟩
  | step x rest ih =>
    obtain ⟨hx, hslots⟩ := List.forall_mem_cons.1 hslots
    obtain ⟨hpicks, hgood, hearly⟩ := x.picks hl hg hP hx hw hfull hpick
    obtain ⟨hall, hend⟩ := ih (fun y hy => (hpicks.of_iff hl hx y.slot).2 (hslots y hy)) hgood
      hpicks.fullScore_after hearly
    exact ⟨List.forall_mem_cons.2 ⟨hpicks, hall⟩, hend⟩

/-- The steps of a phase fail only where a score does. -/
theorem steps_fails (hl : Lenses X same) (hg : Exact X same good) (hP : Plan.SharesEntities same)
    {places : List Placement}
    (hplaces : ∀ place ∈ places, ∃ d, s.1.definitions[place.placer]? = some d ∧
      Slot.Of X s.2.run.plan ⟨d.cell, place.entity⟩)
    (hw : good s.2.run.workspace) (hfull : fullScore s.2.run.workspace = .ok last) :
    Finishes (fun _ t => good t.2.run.workspace) (fun f _ => Fails good f) (steps places last s) := by
  induction places generalizing last s with
  | nil => exact .ok hw
  | cons place places ih =>
    obtain ⟨⟨d, hd, hb⟩, hplaces⟩ := List.forall_mem_cons.1 hplaces
    rw [steps, Step.get_bind]
    dsimp only
    split
    · exact .ok hw
    refine Finishes.bind ((step_fails hl hg hP hd hb hw).and fun _ _ e => e) ?_
    rintro a u ⟨-, hstep⟩
    let x : StepMade W S V sh := ⟨place, d, last, s, a, u, hd, hstep⟩
    obtain ⟨hpicks, hgood, -⟩ := x.picks hl hg hP hb hw hfull rfl
    refine ih (fun place' hplace' => ?_) hgood hpicks.fullScore_after
    obtain ⟨d', hd', hb'⟩ := hplaces place' hplace'
    exact ⟨d', (step_definitions hstep).symm ▸ hd', (hpicks.of_iff hl hb _).2 hb'⟩

/-! ## Phases -/

variable {c : Construction S V sh} {sc : Scope W S sh} {run : Run W S sh}

/-- The steps `xs` lead from the start of the phase to `t`. Their placements are the first ones of
those that the phase lists. -/
def Led (c : Construction S V sh) (sc : Scope W S sh) (xs : List (StepMade W S V sh))
    (t : Construction S V sh × Scope W S sh) : Prop :=
  ∃ (start : Score sh) (w : W) (rest : List Placement),
    Workspace.score (restart sc.run.workspace) = .ok start w ∧
    (c.hear .phaseStarted).placements (Workspace.plan w) = xs.map StepMade.place ++ rest ∧
    Course start (begun c sc start w) xs t

omit [DecidableEq V] [ToString V] in
/-- The slots of the placements belong to entities that exist. -/
theorem slot_of_placement (hc : c.Over X) {e : Event} {place : Placement}
    (h : place ∈ (c.hear e).placements p) (hd : c.definitions[place.placer]? = some d) :
    Slot.Of X p ⟨d.cell, place.entity⟩ := by
  rw [over_iff, ← definitions_hear c e, ← over_iff] at hc
  rw [← definitions_hear c e] at hd
  have hplaces : ∀ place ∈ (c.hear e).placements p, Places (Slot.Of X p) _ place :=
    places hc fun y hy f hf => ⟨hy, List.mem_range.1 (List.mem_filter.1 hf).1⟩
  exact hplaces place h d hd

namespace Led

/-- Every step of a phase picks a value. -/
theorem picks (hl : Lenses X same) (hg : Exact X same good) (hP : Plan.SharesEntities same)
    (hc : c.Over X) (hw : good sc.run.workspace) (h : Led c sc xs t) :
    (∀ x ∈ xs, x.Picks X same good c.pickEarly) ∧ good t.2.run.workspace := by
  obtain ⟨start, w, rest, hscore, hlisted, hcourse⟩ := h
  refine hcourse.picks hl hg hP (fun x hx => ?_) (hg.score (hg.restart hw) hscore)
    (hg.fullScore_score hl (hg.restart hw) hscore) rfl
  have hplace : x.place ∈ (c.hear .phaseStarted).placements (Workspace.plan w) :=
    hlisted ▸ List.mem_append_left _ (List.mem_map_of_mem hx)
  refine slot_of_placement hc hplace ?_
  rw [← definitions_hear c .phaseStarted]
  exact hcourse.definition_mem x hx

/-- Placements of different variables are gaps when their turn comes. -/
theorem gap (hX : Anchored X) (hc : c.Over X)
    (hdistinct : c.definitions.Pairwise fun d d' => ¬d.cell.sameAs d'.cell) (h : Led c sc xs t) :
    ∀ x ∈ xs, x.Fills X := by
  obtain ⟨start, w, rest, hscore, hlisted, hcourse⟩ := h
  have horder := inOrder_placements (c.hear .phaseStarted) (Workspace.plan w)
  rw [definitions_hear, hlisted, slotsOf_append,
    hcourse.slotsOf_eq (definitions_hear c .phaseStarted)] at horder
  refine hcourse.fills hX (fun x hx => ?_) (List.nodup_append.1 (horder.nodup hdistinct)).1
  exact horder.gap (over_iff.1 hc) (List.mem_append_left _ (List.mem_map_of_mem hx))

end Led

omit [DecidableEq V] [ToString V] [Workspace.Lawful W] in
/-- A phase opens unless the plan has no score. -/
theorem opening_fails (hg : Exact X same good) (hw : good sc.run.workspace) :
    Finishes (fun _ _ => True) (fun f _ => Fails good f) (opening (c, sc)) := by
  unfold opening
  rw [mapScope_bind]
  have hstart := Finishes.onRun (s := (c, sc.mapRun Run.restartWorkspace))
    (Finishes.onWorkspace (scoreNow_finishes (hg.restart hw)))
  refine Finishes.bind (hstart.mono (fun _ _ h => h) fun f _ ⟨_, ⟨_, hf, _⟩, _⟩ => hf)
    fun start t _ => ?_
  rw [mapScope_bind, fire_bind]
  exact .ok trivial

theorem work_fails (hl : Lenses X same) (hg : Exact X same good) (hP : Plan.SharesEntities same)
    (hc : c.Over X) (hw : good sc.run.workspace) :
    Finishes (fun _ _ => True) (fun f _ => Fails good f) (work (c, sc)) := by
  rw [work_eq]
  refine Finishes.bind ((opening_fails hg hw).and fun _ _ e => opening_eq_ok e) ?_
  rintro start _ ⟨-, w, hscore, rfl⟩
  rw [Step.get_bind]
  have hplaces : ∀ place ∈ (c.hear .phaseStarted).placements (Workspace.plan w),
      ∃ d, (c.hear .phaseStarted).definitions[place.placer]? = some d ∧
        Slot.Of X (Workspace.plan w) ⟨d.cell, place.entity⟩ := fun place hplace => by
    have hd := definition_of_placer (List.getElem?_eq_getElem (placer_lt hplace))
    exact ⟨_, hd, slot_of_placement hc hplace (definitions_hear c .phaseStarted ▸ hd)⟩
  refine Finishes.bind (steps_fails hl hg hP hplaces (hg.score (hg.restart hw) hscore)
    (hg.fullScore_score hl (hg.restart hw) hscore)) ?_
  rintro ⟨outcome, last⟩ u hu
  refine Finishes.bind ((Finishes.onScope (Scope.updateBest_fails hu)).mono (fun _ _ h => h)
    fun _ _ ⟨_, hf, _⟩ => hf) fun improved v _ => ?_
  rw [fire_bind]
  exact .ok trivial

/-- Whatever phase it is, each step that it makes picks one of its values by the scores that they
lead to, changes the slot of this placement and nothing else, and has the score of the picked value.
Placements of different variables can be given every value in the range. Such a phase fails only if
it has no variables or if a score fails. -/
theorem solve_picks (hl : Lenses X same) (hg : Exact X same good) (hP : Plan.SharesEntities same)
    (hc : c.Over X) (hw : good run.workspace) :
    (∀ (xs : List (StepMade W S V sh)) (t : Construction S V sh × Scope W S sh),
      Led c ⟨{ index := run.beginPhase.1 }, run.beginPhase.2⟩ xs t → ∀ x ∈ xs,
        x.Picks X same good c.pickEarly ∧
        (x.slot.Open X x.started.plan → x.slot.get x.started.plan = none →
          x.candidates = x.values.map some) ∧
        (Anchored X → (c.definitions.Pairwise fun d d' => ¬d.cell.sameAs d'.cell) →
          x.slot.Open X x.started.plan ∧ x.slot.get x.started.plan = none)) ∧
    Finishes
      (fun _ t => ∃ (xs : List (StepMade W S V sh)) (u : Construction S V sh × Scope W S sh),
        Led c ⟨{ index := run.beginPhase.1 }, run.beginPhase.2⟩ xs u ∧
        stepEvents t.2.trace = xs.reverse.flatMap StepMade.events ++ stepEvents run.trace ∧
        t.2.steps = run.steps + xs.length)
      (fun f _ => (∃ e, c.validate = .error e ∧ f = .error e) ∨ Fails good f)
      (solve (c, run)) := by
  refine ⟨fun xs t hled x hx => ⟨(hled.picks hl hg hP hc hw).1 x hx, x.candidates_of_gap, ?_⟩, ?_⟩
  · intro hX hdistinct
    have hfills := hled.gap hX hc hdistinct x hx
    exact ⟨hfills.isOpen, hfills.gap⟩
  unfold solve
  dsimp only
  cases hvalid : c.validate with
  | error e => exact .error (.inl ⟨e, rfl, rfl⟩)
  | ok =>
    dsimp only
    unfold inSpan
    dsimp only
    let sc : Scope W S sh := ⟨{ index := run.beginPhase.1 }, run.beginPhase.2⟩
    have hfails : Finishes (fun _ _ => True) (fun f _ => Fails good f) (work (c, sc)) :=
      work_fails hl hg hP hc hw
    cases hwork : work (c, sc) with
    | ok outcome t =>
      obtain ⟨start, w, xs, rest, u, hscore, hlisted, hcourse, -, hevents, hcount, -⟩ :=
        work_course hwork
      exact .ok ⟨xs, u, ⟨start, w, rest, hscore, hlisted, hcourse⟩, hevents, hcount⟩
    | error f t =>
      rw [hwork] at hfails
      cases hfails with
      | error hf => exact .error (.inr hf)

end Construction

/-! ## Filling a row with sevens -/

namespace Row

/-- A row gets a point for every seven. -/
def sevens (row : Row) : Checked (Score .simple) :=
  .ok (Score.single 0 (Int64.ofNat (row.cells.count (some 7))))

theorem exact_sevens :
    Workspace.Exact (· = cell) (Agree (· = cell)) (RecomputingWorkspace.Keeps sevens) :=
  RecomputingWorkspace.exact agree_setScore fun p q h => by
    unfold sevens
    rw [cells_eq_of_agree h]

/-- Places an eight or a seven, and looks at both. -/
def eightOrSeven : Construction Row Nat .simple :=
  .firstFit [{ entityClass := "Row", cell := cell, range := .listed [8, 7], allowsUnassigned := true }]

def unfilled : Run (RecomputingWorkspace Row .simple) Row .simple where
  workspace := { plan := ⟨[none, some 3], none⟩, calculate := sevens }
  source := .ofSeed 0

/-- The first cell becomes a seven, though an eight is tried before it. -/
theorem solve_picks_seven : ∃ (c : Construction Row Nat .simple)
    (r : Run (RecomputingWorkspace Row .simple) Row .simple)
    (xs : List (Construction.StepMade (RecomputingWorkspace Row .simple) Row Nat .simple)),
    Construction.solve (eightOrSeven, unfilled) = .ok .completed (c, r) ∧
      r.plan.cells = [some 7, some 3] ∧ xs.length = 1 ∧ ∀ x ∈ xs,
        x.Picks (· = cell) (Agree (· = cell)) (RecomputingWorkspace.Keeps sevens) .never := by
  have hover : eightOrSeven.Over (· = cell) := fun placer hplacer => by
    rw [List.mem_singleton.1 hplacer]
    rfl
  have hgood : RecomputingWorkspace.Keeps sevens unfilled.workspace := ⟨rfl, nofun⟩
  have hP : Plan.SharesEntities (Agree (S := Row) (· = cell)) :=
    ⟨fun h => funext h.entityCount, fun _ => rfl⟩
  obtain ⟨hpicks, hends⟩ := Construction.solve_picks lawful.lenses exact_sevens hP hover hgood
  have hok : (match Construction.solve (eightOrSeven, unfilled) with
      | .ok outcome (_, r) => decide (outcome = .completed ∧ r.steps = 1 ∧
          r.plan.cells = [some 7, some 3])
      | .error _ _ => false) = true := by decide +kernel
  cases e : Construction.solve (eightOrSeven, unfilled) with
  | error f s =>
    rw [e] at hok
    cases hok
  | ok outcome s =>
    rw [e] at hok hends
    obtain ⟨c, r⟩ := s
    obtain ⟨rfl, hsteps, hcells⟩ := of_decide_eq_true hok
    obtain ⟨xs, u, hled, -, hcount⟩ | _ := hends
    refine ⟨c, r, xs, rfl, hcells, ?_, fun x hx => (hpicks xs u hled x hx).1⟩
    have hstart : unfilled.steps = 0 := rfl
    have hend : r.steps = unfilled.steps + xs.length := hcount
    omega

end Row

end PlanSearch
