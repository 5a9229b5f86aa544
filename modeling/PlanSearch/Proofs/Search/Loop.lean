import PlanSearch.Proofs.Search.Gather

/-!
# Invariants of collecting

Whatever holds when a step begins to collect, and is kept by a draw, by a count, by scoring a
candidate and by considering it, holds when the candidates are collected, be it one by one or in
batches. Where an invariant also speaks of the candidates that were drawn and not yet considered,
there are none of them in the end, unless the forager has had enough.

    Rounds last I C → I false [] s → gather fuel last s = .ok () t → Ended I t     (Rounds.gather)
    Loop last I D C → I s → gather fuel last s = .ok () t → I t                    (Loop.gather)
    Collecting … b last [] b → gather fuel last b = .ok () s →
      ∃ seen, Collecting … b last seen s                                     (Collecting.gather)
-/

namespace PlanSearch

variable {W S V : Type} {sh : Shape}

namespace LocalSearch

variable [Plan S sh] [Workspace W S sh] [DecidableEq V]

/-! ## With the candidates that are still to be considered -/

/-- `I dry ps s` holds while the candidates of a step are collected, where `ps` are those which were
drawn and are still to be considered, and `dry` says whether there are no more to draw. `C` holds of
each one and the score that it gets. -/
structure Rounds [ToString V] (last : Score sh)
    (I : Bool → List (Move S V) → Searching W S V sh → Prop)
    (C : Move S V → Score sh → Prop) : Prop where
  dry : ∀ {ps : List (Move S V)} {s : Searching W S V sh}, I false ps s → nextMove s = none →
    I true ps (drawn s)
  draw : ∀ {ps : List (Move S V)} {s : Searching W S V sh} {m : Move S V}, I false ps s →
    nextMove s = some m → m.isDoable s.2.run.plan → I false (ps ++ [m]) (drawn s)
  illegal : ∀ {ps : List (Move S V)} {s : Searching W S V sh} {m : Move S V}, I false ps s →
    nextMove s = some m → m.isDoable s.2.run.plan = false →
      I false ps ((drawn s).1, (drawn s).2.mapRun (Run.record Stats.recordIllegal))
  score : ∀ {s : Searching W S V sh} {m : Move S V} {a : Score sh} {w : W}, I false [m] s →
    scoreCandidate s.2.run.mode m s.2.run.workspace = .ok a w →
      I false [m] (s.1, { s.2 with run := { s.2.run with workspace := w } }) ∧ C m a
  scoreBatch : ∀ {dry : Bool} {ps : List (Move S V)} {s : Searching W S V sh} {threads : Nat}
    {answers : List (Except SolverError (Score sh))}, I dry ps s →
      scoreBatch s.2.run.mode threads ps s.2.run.workspace = .ok answers →
      ∀ q ∈ ps.zip answers, ∀ a, q.2 = .ok a → C q.1 a
  consider : ∀ {dry : Bool} {ps : List (Move S V)} {s : Searching W S V sh} {m : Move S V}
    {a : Score sh}, I dry (m :: ps) s → C m a → I dry ps (considered last m a s)

/-- How collecting comes to its end. -/
inductive Ended (I : Bool → List (Move S V) → Searching W S V sh → Prop)
    (s : Searching W S V sh) : Prop
  /-- The forager has had enough. -/
  | done {dry : Bool} {ps : List (Move S V)} (h : I dry ps s) (done : s.1.forager.isDone)
  /-- There are no more candidates. -/
  | dry (h : I true [] s)
  /-- No more candidates may be drawn. -/
  | limit {d : Draws} (h : I false [] s) (hd : s.1.mayDraw d = false)

namespace Rounds

variable [ToString V] {last : Score sh} {I : Bool → List (Move S V) → Searching W S V sh → Prop}
  {C : Move S V → Score sh → Prop} {s t : Searching W S V sh} {d d' : Draws} {dry : Bool}
  {ps ms : List (Move S V)} {fuel : Nat}

theorem drawBatch (h : Rounds last I C) {k : Nat} (hs : I false ps s)
    (e : LocalSearch.drawBatch fuel k d s = .ok (ms, d', dry) t) : I dry (ps ++ ms) t := by
  induction fuel generalizing k d s ps ms d' dry t with
  | zero => cases e
  | succ fuel ih =>
    cases k with
    | zero =>
      cases e
      rwa [List.append_nil]
    | succ k =>
      rw [LocalSearch.drawBatch, Step.get_bind] at e
      split at e
      · cases e
        rwa [List.append_nil]
      change (LocalSearch.draw >>= _) s = _ at e
      rw [draw_bind] at e
      cases hm : nextMove s with
      | none =>
        rw [hm] at e
        cases e
        rw [List.append_nil]
        exact h.dry hs hm
      | some m =>
        rw [hm] at e
        dsimp only at e
        rw [isDoable_bind] at e
        split at e
        · next hdo =>
          obtain ⟨⟨rest, d₂, dry₂⟩, s₂, hrest, e⟩ := Step.bind_eq_ok e
          cases e
          have hall := ih (h.draw hs hm hdo) hrest
          rwa [List.append_assoc] at hall
        · next hdo =>
          rw [record_bind] at e
          exact ih (h.illegal hs hm (Bool.eq_false_iff.2 hdo)) e

theorem considerEach (h : Rounds last I C) {done : Bool}
    {qs : List (Move S V × Except SolverError (Score sh))}
    (hq : ∀ q ∈ qs, ∀ a, q.2 = .ok a → C q.1 a) (hs : I dry (qs.map (·.1)) s)
    (e : LocalSearch.considerEach last qs d s = .ok (d', done) t) :
    if done then t.1.forager.isDone ∧ ∃ ps, I dry ps t else I dry [] t := by
  induction qs generalizing d s with
  | nil =>
    cases e
    exact hs
  | cons q qs ih =>
    obtain ⟨hfirst, hrest⟩ := List.forall_mem_cons.1 hq
    obtain ⟨m, _ | a⟩ := q
    · cases e
    · rw [LocalSearch.considerEach, consider_bind, Step.get_bind] at e
      have h₁ := h.consider hs (hfirst a rfl)
      split at e
      · next hdone =>
        cases e
        exact ⟨hdone, _, h₁⟩
      · exact ih hrest h₁ e

theorem collect (h : Rounds last I C) (hs : I false [] s)
    (e : LocalSearch.collect last fuel d s = .ok () t) : Ended I t := by
  induction fuel generalizing d s with
  | zero => cases e
  | succ fuel ih =>
    rw [LocalSearch.collect, Step.get_bind] at e
    split at e
    · next hd =>
      cases e
      exact .limit hs (by simpa using hd)
    change (LocalSearch.draw >>= _) s = _ at e
    rw [draw_bind] at e
    cases hm : nextMove s with
    | none =>
      rw [hm] at e
      cases e
      exact .dry (h.dry hs hm)
    | some m =>
      rw [hm] at e
      dsimp only at e
      rw [isDoable_bind] at e
      split at e
      · next hdo =>
        rw [Bool.not_eq_true'] at hdo
        rw [record_bind] at e
        exact ih (h.illegal hs hm hdo) e
      · next hdo =>
        rw [Bool.not_eq_true', Bool.not_eq_false] at hdo
        have h₁ := h.draw hs hm hdo
        rw [Step.get_bind] at e
        obtain ⟨a, s₂, hscore, e⟩ := Step.bind_eq_ok e
        obtain ⟨r, hrun, rfl⟩ := onRun_eq_ok hscore
        obtain ⟨w, hcandidate, rfl⟩ := Run.onWorkspace_eq_ok hrun
        obtain ⟨h₂, ha⟩ := h.score h₁ hcandidate
        rw [consider_bind, Step.get_bind] at e
        have h₃ := h.consider h₂ ha
        split at e
        · next hdone =>
          cases e
          exact .done h₃ hdone
        · exact ih h₃ e

theorem collectBatches (h : Rounds last I C) {threads size : Nat}
    (hidle : threads = 0 → ∀ {dry ps} {s : Searching W S V sh}, I dry ps s → I dry [] s)
    (hs : I false [] s)
    (e : LocalSearch.collectBatches threads size last fuel d s = .ok () t) : Ended I t := by
  induction fuel generalizing d s with
  | zero => cases e
  | succ fuel ih =>
    rw [LocalSearch.collectBatches, Step.get_bind] at e
    split at e
    · next hd =>
      cases e
      exact .limit hs (by simpa using hd)
    obtain ⟨⟨batch, d₁, dry⟩, s₁, hbatch, e⟩ := Step.bind_eq_ok e
    have h₁ : I dry batch s₁ := h.drawBatch hs hbatch
    dsimp only at e
    rw [Step.get_bind] at e
    obtain ⟨answers, s₂, hanswers, hrest⟩ := Step.bind_eq_ok e
    obtain ⟨hscores, rfl⟩ := ofExcept_eq_ok hanswers
    obtain ⟨⟨d₂, done⟩, s₃, hconsider, e⟩ := Step.bind_eq_ok hrest
    -- Workers leave no candidate out, if there are any.
    have hzip : I dry ((batch.zip answers).map (·.1)) s₂ := by
      by_cases hthreads : threads = 0
      · subst hthreads
        rw [answers_of_no_workers hscores, List.zip_nil_right]
        exact hidle rfl h₁
      · rw [List.map_fst_zip (Nat.le_of_eq (length_scoreBatch hthreads hscores).symm)]
        exact h₁
    have h₂ := h.considerEach (h.scoreBatch h₁ hscores) hzip hconsider
    dsimp only at e
    cases done with
    | true =>
      obtain ⟨hdone, ps, hps⟩ := h₂
      cases e
      exact .done hps hdone
    | false =>
      cases dry with
      | true =>
        cases e
        exact .dry h₂
      | false => exact ih h₂ e

/-- The invariant holds when all candidates of a step were collected. -/
theorem gather (h : Rounds last I C)
    (hidle : s.1.threads = some 0 → ∀ {dry ps} {s : Searching W S V sh}, I dry ps s → I dry [] s)
    (hs : I false [] s) (e : LocalSearch.gather fuel last s = .ok () t) : Ended I t := by
  unfold LocalSearch.gather at e
  split at e
  · exact h.collect hs e
  · next threads hthreads =>
    exact h.collectBatches (fun h0 => hidle (h0 ▸ hthreads)) hs e

end Rounds

/-! ## Without them -/

/-- `I` holds while the candidates of a step are collected, `D` of each one that is drawn and can
be applied, and `C` of each one and the score that it gets. -/
structure Loop [ToString V] (last : Score sh) (I : Searching W S V sh → Prop) (D : Move S V → Prop)
    (C : Move S V → Score sh → Prop) : Prop where
  draw : ∀ {s t : Searching W S V sh} {m? : Option (Move S V)}, I s → draw s = .ok m? t →
    I t ∧ ∀ m, m? = some m → m.isDoable t.2.run.plan → D m
  illegal : ∀ {s : Searching W S V sh}, I s → I (s.1, s.2.mapRun (Run.record Stats.recordIllegal))
  score : ∀ {s : Searching W S V sh} {m : Move S V} {a : Score sh} {w : W}, I s → D m →
    scoreCandidate s.2.run.mode m s.2.run.workspace = .ok a w →
      I (s.1, { s.2 with run := { s.2.run with workspace := w } }) ∧ C m a
  scoreBatch : ∀ {s : Searching W S V sh} {ms : List (Move S V)} {threads : Nat}
    {answers : List (Except SolverError (Score sh))}, I s → (∀ m ∈ ms, D m) →
      scoreBatch s.2.run.mode threads ms s.2.run.workspace = .ok answers →
      ∀ q ∈ ms.zip answers, ∀ a, q.2 = .ok a → C q.1 a
  consider : ∀ {s t : Searching W S V sh} {m : Move S V} {a : Score sh} {d d' : Draws}, I s →
    C m a → consider last m a d s = .ok d' t → I t

namespace Loop

variable [ToString V] {last : Score sh} {I : Searching W S V sh → Prop} {D : Move S V → Prop}
  {C : Move S V → Score sh → Prop} {s t : Searching W S V sh} {d d' : Draws}

/-- The invariant holds, and `D` of the candidates that are still to be considered. -/
def Queued (I : Searching W S V sh → Prop) (D : Move S V → Prop) (_ : Bool) (ps : List (Move S V))
    (s : Searching W S V sh) : Prop :=
  I s ∧ ∀ m ∈ ps, D m

theorem rounds (h : Loop last I D C) : Rounds last (Queued I D) C where
  dry hs hm := ⟨(h.draw hs.1 (draw_eq _)).1, hs.2⟩
  draw hs hm hdo := by
    obtain ⟨hdrawn, hD⟩ := h.draw hs.1 (draw_eq _)
    exact ⟨hdrawn, List.forall_mem_append.2 ⟨hs.2, List.forall_mem_singleton.2 (hD _ hm hdo)⟩⟩
  illegal hs _ _ := ⟨h.illegal (h.draw hs.1 (draw_eq _)).1, hs.2⟩
  score hs e := by
    obtain ⟨hscored, hC⟩ := h.score hs.1 (hs.2 _ List.mem_cons_self) e
    exact ⟨⟨hscored, hs.2⟩, hC⟩
  scoreBatch hs e := h.scoreBatch hs.1 hs.2 e
  consider hs hC := ⟨h.consider hs.1 hC (consider_eq _ _ _ {} _), fun m hm =>
    hs.2 m (List.mem_cons_of_mem _ hm)⟩

theorem drawBatch (h : Loop last I D C) {fuel k : Nat} {ms : List (Move S V)} {dry : Bool}
    (hs : I s) (e : LocalSearch.drawBatch fuel k d s = .ok (ms, d', dry) t) :
    I t ∧ ∀ m ∈ ms, D m := by
  have hbegin : Queued I D false [] s := ⟨hs, nofun⟩
  exact h.rounds.drawBatch hbegin e

theorem considerEach (h : Loop last I D C) {done : Bool}
    {qs : List (Move S V × Except SolverError (Score sh))}
    (hq : ∀ q ∈ qs, D q.1 ∧ ∀ a, q.2 = .ok a → C q.1 a) (hs : I s)
    (e : LocalSearch.considerEach last qs d s = .ok (d', done) t) : I t := by
  have hD : ∀ m ∈ qs.map (·.1), D m := List.forall_mem_map.2 fun q hmem => (hq q hmem).1
  have hbegin : Queued I D false (qs.map (·.1)) s := ⟨hs, hD⟩
  have hended := h.rounds.considerEach (fun q hmem => (hq q hmem).2) hbegin e
  split at hended
  · obtain ⟨-, _, ht, -⟩ := hended
    exact ht
  · exact hended.1

/-- The invariant holds when all candidates of a step were collected. -/
theorem gather (h : Loop last I D C) {fuel : Nat} (hs : I s)
    (e : LocalSearch.gather fuel last s = .ok () t) : I t := by
  have hended := h.rounds.gather (fun _ _ _ _ hps => ⟨hps.1, nofun⟩) ⟨hs, nofun⟩ e
  obtain ⟨ht, -⟩ | ⟨ht⟩ | ⟨ht, -⟩ := hended
  · exact ht.1
  · exact ht.1
  · exact ht.1

end Loop

/-! ## What collecting keeps in every step -/

namespace Collecting

variable [Workspace.Lawful W] [ToString V] {X : Variable S V → Prop} {same : S → S → Prop}
  {good : W → Prop} {b s t : Searching W S V sh} {last : Score sh}
  {seen : List (Move S V × Score sh)}

theorem loop (hl : Lenses X same) (hg : Workspace.Exact X same good)
    (ht : b.1.neighbourhood.tree.Over X) (last : Score sh) :
    Loop last (fun s => ∃ seen, Collecting X same good b last seen s)
      (Drawn X same b.1.neighbourhood b.2.run.plan)
      (Scored X same good b.1.neighbourhood b.2.run.plan) where
  draw {s t m?} := by
    rintro ⟨seen, h⟩ e
    obtain ⟨h₁, hdrawn⟩ := h.draw hl ht e
    exact ⟨⟨seen, h₁⟩, hdrawn⟩
  illegal {s} := by
    rintro ⟨seen, h⟩
    exact ⟨seen, h.record _⟩
  score {s m a w} := by
    rintro ⟨seen, h⟩ hm e
    obtain ⟨hw, hleads⟩ := scoreCandidate_eq_ok hg hl hm.of h.holds e
    exact ⟨⟨seen, h.workspace hw⟩, hm, hleads⟩
  scoreBatch {s ms threads answers} := by
    rintro ⟨seen, h⟩ hms e q hq a ha
    obtain ⟨a', ha', hleads⟩ := scoreBatch_eq_ok hg hl (fun m hm => (hms m hm).of) h.holds e q hq
    rw [ha] at ha'
    cases ha'
    exact ⟨hms q.1 (List.of_mem_zip hq).1, hleads⟩
  consider {s t m a d d'} := by
    rintro ⟨seen, h⟩ hm e
    exact ⟨_, h.consider hm e⟩

theorem gather (hl : Lenses X same) (hg : Workspace.Exact X same good)
    (ht : b.1.neighbourhood.tree.Over X) {fuel : Nat} (h : Collecting X same good b last seen s)
    (e : LocalSearch.gather fuel last s = .ok () t) :
    ∃ seen, Collecting X same good b last seen t :=
  (loop hl hg ht last).gather ⟨seen, h⟩ e

end Collecting

end LocalSearch

end PlanSearch
