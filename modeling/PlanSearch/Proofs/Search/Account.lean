import PlanSearch.Proofs.Lifecycle.Quiet
import PlanSearch.Proofs.Mirror.Threads
import PlanSearch.Proofs.Phase.Heeding

/-!
# Accounts of a step

What a step draws and considers is gone when the step is over. The loops of a step are written down
once more, and keep an account of it as they go; but for the account they do what they did. So what
holds of every account is known of every step, of one that fails in the middle too.

    forget (gatherAccounted fuel last (s, k)) = gather fuel last s         (recounts_gather)
    Audit … I J → I {} [] (s, {}) → J holds however gatherAccounted fuel last (s, {}) ends
                                                                               (Audit.gather)
-/

namespace PlanSearch

variable {W S V α β : Type} {sh : Shape}

namespace LocalSearch

/-! ## Accounts -/

/-- What a step did so far. -/
structure Account (S V : Type) (sh : Shape) where
  /-- The candidates that were drawn, in order. -/
  drawn : List (Move S V) := []
  /-- The neighbourhood said that there are no more. -/
  dry : Bool := false
  /-- The candidates that were considered, in order, with their scores. -/
  seen : List (Move S V × Score sh) := []

namespace Account

def draw (m? : Option (Move S V)) (k : Account S V sh) : Account S V sh :=
  match m? with
  | none => { k with dry := true }
  | some m => { k with drawn := k.drawn ++ [m] }

def consider (m : Move S V) (a : Score sh) (k : Account S V sh) : Account S V sh :=
  { k with seen := k.seen ++ [(m, a)] }

end Account

/-- What the steps of a search act on, with an account. -/
abbrev Accounted (W S V : Type) (sh : Shape) : Type := Searching W S V sh × Account S V sh

/-- An action that leaves the account alone. -/
def plainly (x : Action (Searching W S V sh) α) : Action (Accounted W S V sh) α :=
  Action.onPart Prod.fst (fun s x => (s, x.2)) x

/-- Writes to the account. -/
def enter (f : Account S V sh → Account S V sh) : Action (Accounted W S V sh) Unit :=
  modify fun x => (x.1, f x.2)

/-- How a computation ends, but for its account. -/
def forget : EStateM.Result Failure (Accounted W S V sh) α →
    EStateM.Result Failure (Searching W S V sh) α
  | .ok a x => .ok a x.1
  | .error f x => .error f x.1

/-- But for the account, `x` does what `y` does. -/
def Recounts (x : Action (Accounted W S V sh) α) (y : Action (Searching W S V sh) α) : Prop :=
  ∀ s k, forget (x (s, k)) = y s

namespace Recounts

theorem pure (a : α) : Recounts (pure a : Action (Accounted W S V sh) α) (pure a) := fun _ _ => rfl

theorem throw (f : Failure) : Recounts (throw f : Action (Accounted W S V sh) α) (throw f) :=
  fun _ _ => rfl

theorem plainly (y : Action (Searching W S V sh) α) : Recounts (plainly y) y := fun s k => by
  unfold LocalSearch.plainly Action.onPart
  dsimp only
  cases y s <;> rfl

variable {x : Action (Accounted W S V sh) α} {y : Action (Searching W S V sh) α}

theorem bind {f : α → Action (Accounted W S V sh) β} {g : α → Action (Searching W S V sh) β}
    (hx : Recounts x y) (hf : ∀ a, Recounts (f a) (g a)) : Recounts (x >>= f) (y >>= g) :=
  fun s k => by
    have h := hx s k
    show forget (EStateM.bind x f (s, k)) = EStateM.bind y g s
    unfold EStateM.bind
    generalize x (s, k) = r at h
    cases r with
    | ok a t =>
      rw [← show EStateM.Result.ok a t.1 = y s from h]
      exact hf a t.1 t.2
    | error e t => rw [← show EStateM.Result.error e t.1 = y s from h]; rfl

/-- Entries are no matter. -/
theorem entered (y : Action (Searching W S V sh) α) (f : α → Account S V sh → Account S V sh) :
    Recounts (do let a ← LocalSearch.plainly y; enter (f a); return a) y := fun s k => by
  show forget (EStateM.bind (LocalSearch.plainly y) _ (s, k)) = y s
  unfold EStateM.bind LocalSearch.plainly Action.onPart
  dsimp only
  cases y s <;> rfl

theorem ite {c : Prop} [Decidable c] {x' : Action (Accounted W S V sh) α}
    {y' : Action (Searching W S V sh) α} (h : Recounts x y) (h' : Recounts x' y') :
    Recounts (if c then x else x') (if c then y else y') := by
  split
  · exact h
  · exact h'

end Recounts

/-! ## The loops of a step -/

def considerAccounted (last : Score sh) (m : Move S V) (score : Score sh) (d : Draws) :
    Action (Accounted W S V sh) Draws := do
  let d ← plainly (consider last m score d)
  enter (Account.consider m score)
  return d

def considerEachAccounted (last : Score sh) :
    List (Move S V × Except SolverError (Score sh)) → Draws →
      Action (Accounted W S V sh) (Draws × Bool)
  | [], d => return (d, false)
  | (_, .error e) :: _, _ => throw (.error e)
  | (m, .ok score) :: rest, d => do
    let d ← considerAccounted last m score d
    if (← plainly get).1.forager.isDone then return (d, true)
    else considerEachAccounted last rest d

variable [Plan S sh] [Workspace W S sh]

def drawAccounted : Action (Accounted W S V sh) (Option (Move S V)) := do
  let m? ← plainly draw
  enter (Account.draw m?)
  return m?

variable [DecidableEq V]

def drawBatchAccounted : Nat → Nat → Draws →
    Action (Accounted W S V sh) (List (Move S V) × Draws × Bool)
  | 0, _, _ => throw .outOfFuel
  | _ + 1, 0, d => return ([], d, false)
  | fuel + 1, k + 1, d => do
    if !(← plainly get).1.mayDraw d then return ([], d, false)
    match ← drawAccounted with
    | none => return ([], d, true)
    | some m =>
      let d := d.draw
      if ← plainly (isDoable m) then
        let (ms, d, dry) ← drawBatchAccounted fuel k d
        return (m :: ms, d, dry)
      else
        plainly (record Stats.recordIllegal)
        drawBatchAccounted fuel (k + 1) d.refuse

variable [ToString V]

def collectAccounted (last : Score sh) : Nat → Draws → Action (Accounted W S V sh) Unit
  | 0, _ => throw .outOfFuel
  | fuel + 1, d => do
    if !(← plainly get).1.mayDraw d then return
    match ← drawAccounted with
    | none => return
    | some m =>
      let d := d.draw
      if !(← plainly (isDoable m)) then
        plainly (record Stats.recordIllegal)
        collectAccounted last fuel d.refuse
      else
        let mode := (← plainly get).2.run.mode
        let score ← plainly (onScope (Scope.onRun (Run.onWorkspace (scoreCandidate mode m))))
        let d ← considerAccounted last m score d
        if (← plainly get).1.forager.isDone then return
        else collectAccounted last fuel d

def collectBatchesAccounted (threads batchSize : Nat) (last : Score sh) :
    Nat → Draws → Action (Accounted W S V sh) Unit
  | 0, _ => throw .outOfFuel
  | fuel + 1, d => do
    if !(← plainly get).1.mayDraw d then return
    let (batch, d, dry) ← drawBatchAccounted (fuel + 1) batchSize d
    let run := (← plainly get).2.run
    let scores ← plainly (ofExcept (scoreBatch run.mode threads batch run.workspace))
    let (d, done) ← considerEachAccounted last (batch.zip scores) d
    if done || dry then return
    else collectBatchesAccounted threads batchSize last fuel d

/-- The most candidates that are drawn before one of them is considered. -/
def batchSize (p : LocalSearch S V sh) : Nat :=
  match p.threads with
  | none => 1
  | some threads => if p.forager.canStopEarly then 1 else threads * batchPerThread

def gatherAccounted (fuel : Nat) (last : Score sh) : Action (Accounted W S V sh) Unit := fun x =>
  match x.1.1.threads with
  | none => collectAccounted last fuel {} x
  | some threads => collectBatchesAccounted threads x.1.1.batchSize last fuel {} x

/-- What the step that begins to collect in `s` draws and considers. -/
def account (fuel : Nat) (last : Score sh) (s : Searching W S V sh) : Account S V sh :=
  match gatherAccounted fuel last (s, {}) with
  | .ok _ x => x.2
  | .error _ x => x.2

/-! ## The same steps -/

omit [Plan S sh] [Workspace W S sh] [DecidableEq V] [ToString V] in
theorem recounts_consider (last : Score sh) (m : Move S V) (a : Score sh) (d : Draws) :
    Recounts (W := W) (considerAccounted last m a d) (consider last m a d) :=
  .entered _ fun _ => Account.consider m a

omit [Plan S sh] [Workspace W S sh] [DecidableEq V] [ToString V] in
theorem recounts_considerEach (last : Score sh)
    (qs : List (Move S V × Except SolverError (Score sh))) (d : Draws) :
    Recounts (W := W) (considerEachAccounted last qs d) (considerEach last qs d) := by
  induction qs generalizing d with
  | nil => exact .pure _
  | cons q qs ih =>
    obtain ⟨m, e | a⟩ := q
    · exact .throw _
    · refine .bind (recounts_consider last m a d) fun d => .bind (.plainly _) fun _ => ?_
      exact .ite (.pure _) (ih d)

omit [DecidableEq V] [ToString V] in
theorem recounts_draw :
    Recounts drawAccounted (draw : Action (Searching W S V sh) (Option (Move S V))) :=
  .entered _ Account.draw

omit [ToString V] in
theorem recounts_drawBatch (fuel k : Nat) (d : Draws) :
    Recounts (drawBatchAccounted fuel k d)
      (drawBatch fuel k d : Action (Searching W S V sh) _) := by
  induction fuel generalizing k d with
  | zero => exact .throw _
  | succ fuel ih =>
    cases k with
    | zero => exact .pure _
    | succ k =>
      refine .bind (.plainly _) fun _ => .ite (.pure _) (.bind recounts_draw fun m? => ?_)
      cases m? with
      | none => exact .pure _
      | some m =>
        refine .bind (.plainly _) fun _ => .ite ?_ ?_
        · exact .bind (ih _ _) fun _ => .pure _
        · exact .bind (.plainly _) fun _ => ih _ _

theorem recounts_collect (last : Score sh) (fuel : Nat) (d : Draws) :
    Recounts (W := W) (S := S) (V := V) (collectAccounted last fuel d) (collect last fuel d) := by
  induction fuel generalizing d with
  | zero => exact .throw _
  | succ fuel ih =>
    refine .bind (.plainly _) fun _ => .ite (.pure _) (.bind recounts_draw fun m? => ?_)
    cases m? with
    | none => exact .pure _
    | some m =>
      refine .bind (.plainly _) fun _ => .ite (.bind (.plainly _) fun _ => ih _) ?_
      refine .bind (.plainly _) fun _ => .bind (.plainly _) fun a => ?_
      refine .bind (recounts_consider last m a _) fun d => .bind (.plainly _) fun _ => ?_
      exact .ite (.pure _) (ih d)

theorem recounts_collectBatches (threads size : Nat) (last : Score sh) (fuel : Nat) (d : Draws) :
    Recounts (W := W) (S := S) (V := V) (collectBatchesAccounted threads size last fuel d)
      (collectBatches threads size last fuel d) := by
  induction fuel generalizing d with
  | zero => exact .throw _
  | succ fuel ih =>
    refine .bind (.plainly _) fun _ => .ite (.pure _) (.bind (recounts_drawBatch _ _ _) fun _ => ?_)
    refine .bind (.plainly _) fun _ => .bind (.plainly _) fun _ => ?_
    exact .bind (recounts_considerEach _ _ _) fun _ => .ite (.pure _) (ih _)

theorem recounts_gather (fuel : Nat) (last : Score sh) :
    Recounts (W := W) (S := S) (V := V) (gatherAccounted fuel last) (gather fuel last) :=
  fun s k => by
    unfold gatherAccounted gather batchSize
    dsimp only
    cases s.1.threads with
    | none => exact recounts_collect last fuel {} s k
    | some threads => exact recounts_collectBatches threads _ last fuel {} s k

/-! ## What the actions do to an account -/

section

variable (s : Searching W S V sh) (k : Account S V sh)

omit [Plan S sh] [Workspace W S sh] [DecidableEq V] [ToString V] in
theorem get_bindAccounted (g : Searching W S V sh → Action (Accounted W S V sh) β) :
    (plainly get >>= g) (s, k) = g s (s, k) := rfl

omit [DecidableEq V] [ToString V] in
theorem draw_bindAccounted (g : Option (Move S V) → Action (Accounted W S V sh) β) :
    (drawAccounted >>= g) (s, k) = g (nextMove s) (drawn s, k.draw (nextMove s)) := rfl

omit [ToString V] in
theorem isDoable_bindAccounted (m : Move S V) (g : Bool → Action (Accounted W S V sh) β) :
    (plainly (isDoable m) >>= g) (s, k) = g (m.isDoable s.2.run.plan) (s, k) := rfl

omit [Plan S sh] [Workspace W S sh] [DecidableEq V] [ToString V] in
theorem illegal_bindAccounted (g : Unit → Action (Accounted W S V sh) β) :
    (plainly (record Stats.recordIllegal) >>= g) (s, k) = g () (illegal s, k) := rfl

omit [Plan S sh] [Workspace W S sh] [DecidableEq V] [ToString V] in
theorem consider_bindAccounted (last : Score sh) (m : Move S V) (a : Score sh) (d : Draws)
    (g : Draws → Action (Accounted W S V sh) β) :
    (considerAccounted last m a d >>= g) (s, k) =
      g (s.1.judged last a d) (considered last m a s, k.consider m a) := by
  refine Step.bind_ok (a := s.1.judged last a d) ?_
  unfold considerAccounted
  refine Step.bind_ok (a := s.1.judged last a d) (t := (considered last m a s, k)) ?_
  unfold plainly Action.onPart
  rw [consider_eq]

omit [Plan S sh] [DecidableEq V] in
theorem score_bindAccounted (mode : Mode) (m : Move S V)
    (g : Score sh → Action (Accounted W S V sh) β) :
    (plainly (onScope (Scope.onRun (Run.onWorkspace (scoreCandidate mode m)))) >>= g) (s, k) =
      match scoreCandidate mode m s.2.run.workspace with
      | .ok a w => g a (withWorkspace w s, k)
      | .error f w => .error f (withWorkspace w s, k) := by
  show EStateM.bind _ g (s, k) = _
  unfold EStateM.bind plainly onScope Scope.onRun Run.onWorkspace Action.onPart
  dsimp only
  cases scoreCandidate mode m s.2.run.workspace <;> rfl

end

/-! ## What holds of every account -/

section

variable (last : Score sh) (size : Nat)

/-- `I d ps x` holds in the middle of a step that goes on to draw from there or to consider `ps`,
which were drawn before; `J` holds wherever it ends. No more than `size` candidates are drawn before
one of them is considered. -/
structure Audit (I : Draws → List (Move S V) → Accounted W S V sh → Prop)
    (J : Accounted W S V sh → Prop) : Prop where
  upheld : ∀ {d : Draws} {ps : List (Move S V)} {x : Accounted W S V sh}, I d ps x → J x
  dry : ∀ {d : Draws} {ps : List (Move S V)} {s : Searching W S V sh} {k : Account S V sh},
    I d ps (s, k) → k.dry = false → nextMove s = none → I d ps (drawn s, k.draw none)
  draw : ∀ {d : Draws} {ps : List (Move S V)} {s : Searching W S V sh} {k : Account S V sh}
    {m : Move S V}, I d ps (s, k) → k.dry = false → s.1.mayDraw d → ps.length < size →
      nextMove s = some m → m.isDoable s.2.run.plan →
        I d.draw (ps ++ [m]) (drawn s, k.draw (some m))
  illegal : ∀ {d : Draws} {ps : List (Move S V)} {s : Searching W S V sh} {k : Account S V sh}
    {m : Move S V}, I d ps (s, k) → k.dry = false → s.1.mayDraw d → ps.length < size →
      nextMove s = some m → m.isDoable s.2.run.plan = false →
        I d.draw.refuse ps (illegal (drawn s), k.draw (some m))
  score : ∀ {d : Draws} {s : Searching W S V sh} {k : Account S V sh} {m : Move S V} {a : Score sh}
    {w : W}, I d [m] (s, k) → scoreCandidate s.2.run.mode m s.2.run.workspace = .ok a w →
      I d [m] (withWorkspace w s, k)
  fail : ∀ {d : Draws} {s : Searching W S V sh} {k : Account S V sh} {m : Move S V} {f : Failure}
    {w : W}, I d [m] (s, k) → scoreCandidate s.2.run.mode m s.2.run.workspace = .error f w →
      J (withWorkspace w s, k)
  consider : ∀ {d : Draws} {ps : List (Move S V)} {s : Searching W S V sh} {k : Account S V sh}
    {m : Move S V} {a : Score sh}, I d (m :: ps) (s, k) →
      J (considered last m a s, k.consider m a) ∧
        ((considered last m a s).1.forager.isDone = false →
          I (s.1.judged last a d) ps (considered last m a s, k.consider m a))

end

/-- How collecting comes to its end, unless it fails. -/
inductive Closed (I : Draws → List (Move S V) → Accounted W S V sh → Prop)
    (J : Accounted W S V sh → Prop) (x : Accounted W S V sh) : Prop
  /-- The forager has had enough. -/
  | done (h : J x) (done : x.1.1.forager.isDone)
  /-- There are no more candidates. -/
  | dry {d : Draws} (h : I d [] x) (dry : x.2.dry)
  /-- No more candidates may be drawn. -/
  | limit {d : Draws} (h : I d [] x) (hd : x.1.1.mayDraw d = false)

namespace Audit

variable {last : Score sh} {size fuel : Nat}
  {I : Draws → List (Move S V) → Accounted W S V sh → Prop} {J : Accounted W S V sh → Prop}
  {d : Draws} {ps : List (Move S V)} {s : Searching W S V sh} {k : Account S V sh}

theorem drawBatch (h : Audit last size I J) {n : Nat} (hs : I d ps (s, k)) (hk : k.dry = false)
    (hn : ps.length + n ≤ size) :
    Finishes (fun r y => I r.2.1 (ps ++ r.1) y ∧ y.2.dry = r.2.2) (fun _ => J)
      (drawBatchAccounted fuel n d (s, k)) := by
  induction fuel generalizing n d ps s k with
  | zero => exact .error (h.upheld hs)
  | succ fuel ih =>
    cases n with
    | zero =>
      rw [← List.append_nil ps] at hs
      exact .ok ⟨hs, hk⟩
    | succ n =>
      have hlt : ps.length < size := Nat.lt_of_lt_of_le (Nat.lt_add_of_pos_right n.succ_pos) hn
      rw [drawBatchAccounted, get_bindAccounted]
      split
      · rw [← List.append_nil ps] at hs
        exact .ok ⟨hs, hk⟩
      next hd =>
      rw [Bool.not_eq_true', Bool.not_eq_false] at hd
      change Finishes _ _ ((drawAccounted >>= _) (s, k))
      rw [draw_bindAccounted]
      cases hm : nextMove s with
      | none =>
        have hdry := h.dry hs hk hm
        rw [← List.append_nil ps] at hdry
        exact .ok ⟨hdry, rfl⟩
      | some m =>
        dsimp only
        rw [isDoable_bindAccounted]
        split
        · next hdo =>
          have hdrawn := h.draw hs hk hd hlt hm hdo
          refine (ih hdrawn hk ?_).bind fun r y hy => .ok ?_
          · rw [List.length_append, List.length_singleton]
            omega
          · rw [List.append_assoc] at hy
            exact hy
        · next hdo =>
          rw [illegal_bindAccounted]
          exact ih (h.illegal hs hk hd hlt hm (Bool.eq_false_iff.2 hdo)) hk hn

theorem considerEach (h : Audit last size I J)
    {qs : List (Move S V × Except SolverError (Score sh))} (hs : I d (qs.map (·.1)) (s, k)) :
    Finishes (fun r y => y.2.dry = k.dry ∧
        if r.2 then J y ∧ y.1.1.forager.isDone else I r.1 [] y) (fun _ => J)
      (considerEachAccounted last qs d (s, k)) := by
  induction qs generalizing d s k with
  | nil => exact .ok ⟨rfl, hs⟩
  | cons q qs ih =>
    obtain ⟨m, e | a⟩ := q
    · exact .error (h.upheld hs)
    · obtain ⟨hJ, hI⟩ := h.consider (a := a) hs
      rw [considerEachAccounted, consider_bindAccounted, get_bindAccounted]
      split
      · next hdone => exact .ok ⟨rfl, hJ, hdone⟩
      · next hdone => exact ih (hI (Bool.eq_false_iff.2 hdone))

theorem collect (h : Audit last size I J) (hsize : 0 < size) (hs : I d [] (s, k))
    (hk : k.dry = false) :
    Finishes (fun _ => Closed I J) (fun _ => J) (collectAccounted last fuel d (s, k)) := by
  induction fuel generalizing d s k with
  | zero => exact .error (h.upheld hs)
  | succ fuel ih =>
    rw [collectAccounted, get_bindAccounted]
    split
    · next hd =>
      rw [Bool.not_eq_true'] at hd
      exact .ok (.limit hs hd)
    next hd =>
    rw [Bool.not_eq_true', Bool.not_eq_false] at hd
    rw [draw_bindAccounted]
    cases hm : nextMove s with
    | none => exact .ok (.dry (h.dry hs hk hm) rfl)
    | some m =>
      dsimp only
      rw [isDoable_bindAccounted]
      split
      · next hdo =>
        rw [Bool.not_eq_true'] at hdo
        rw [illegal_bindAccounted]
        exact ih (h.illegal hs hk hd hsize hm hdo) hk
      next hdo =>
      rw [Bool.not_eq_true', Bool.not_eq_false] at hdo
      have hdrawn := h.draw hs hk hd hsize hm hdo
      rw [get_bindAccounted, score_bindAccounted]
      cases hscore : scoreCandidate (drawn s).2.run.mode m (drawn s).2.run.workspace with
      | error f w => exact .error (h.fail hdrawn hscore)
      | ok a w =>
        obtain ⟨hJ, hI⟩ := h.consider (a := a) (h.score hdrawn hscore)
        dsimp only
        rw [consider_bindAccounted, get_bindAccounted]
        split
        · next hdone => exact .ok (.done hJ hdone)
        · next hdone => exact ih (hI (Bool.eq_false_iff.2 hdone)) hk

theorem collectBatches (h : Audit last size I J) {threads : Nat}
    (hidle : threads = 0 → ∀ {d ps} {x : Accounted W S V sh}, I d ps x → I d [] x)
    (hs : I d [] (s, k)) (hk : k.dry = false) :
    Finishes (fun _ => Closed I J) (fun _ => J)
      (collectBatchesAccounted threads size last fuel d (s, k)) := by
  induction fuel generalizing d s k with
  | zero => exact .error (h.upheld hs)
  | succ fuel ih =>
    rw [collectBatchesAccounted, get_bindAccounted]
    split
    · next hd =>
      rw [Bool.not_eq_true'] at hd
      exact .ok (.limit hs hd)
    refine (h.drawBatch hs hk (Nat.le_of_eq (Nat.zero_add size))).bind ?_
    rintro ⟨batch, d₁, dry⟩ ⟨s₁, k₁⟩ ⟨h₁, hdry⟩
    rw [List.nil_append] at h₁
    dsimp only
    rw [get_bindAccounted]
    cases hscores : scoreBatch s₁.2.run.mode threads batch s₁.2.run.workspace with
    | error f => exact .error (h.upheld h₁)
    | ok scores =>
      -- Workers leave no candidate out, if there are any.
      have hzip : I d₁ ((batch.zip scores).map (·.1)) (s₁, k₁) := by
        by_cases hthreads : threads = 0
        · subst hthreads
          rw [answers_of_no_workers hscores, List.zip_nil_right]
          exact hidle rfl h₁
        · rw [List.map_fst_zip (Nat.le_of_eq (length_scoreBatch hthreads hscores).symm)]
          exact h₁
      refine (h.considerEach hzip).bind ?_
      rintro ⟨d₂, done⟩ ⟨s₂, k₂⟩ ⟨hkept, hrest⟩
      cases done with
      | true => exact .ok (.done hrest.1 hrest.2)
      | false =>
        cases dry with
        | true => exact .ok (.dry hrest (hkept.trans hdry))
        | false => exact ih hrest (hkept.trans hdry)

/-- Whatever a step does, the audit holds. -/
theorem gather (h : Audit last s.1.batchSize I J) (fuel : Nat)
    (hidle : s.1.threads = some 0 → ∀ {d ps} {x : Accounted W S V sh}, I d ps x → I d [] x)
    (hs : I {} [] (s, {})) :
    Finishes (fun _ => Closed I J) (fun _ => J) (gatherAccounted fuel last (s, {})) := by
  unfold gatherAccounted
  dsimp only
  cases hthreads : s.1.threads with
  | none =>
    have hsize : s.1.batchSize = 1 := by
      unfold batchSize
      rw [hthreads]
    exact h.collect (hsize ▸ Nat.one_pos) hs rfl
  | some threads => exact h.collectBatches (fun h0 => hidle (h0 ▸ hthreads)) hs rfl

/-- The audit holds of the account, no matter how the step ends. -/
theorem account (h : Audit last s.1.batchSize I J) (fuel : Nat)
    (hidle : s.1.threads = some 0 → ∀ {d ps} {x : Accounted W S V sh}, I d ps x → I d [] x)
    (hs : I {} [] (s, {})) : ∃ t, J (t, account fuel last s) := by
  have hends := h.gather fuel hidle hs
  unfold LocalSearch.account
  generalize gatherAccounted fuel last (s, {}) = r at hends
  cases hends with
  | error hJ => exact ⟨_, hJ⟩
  | ok hclosed =>
    obtain ⟨hJ, -⟩ | ⟨hI, -⟩ | ⟨hI, -⟩ := hclosed
    · exact ⟨_, hJ⟩
    · exact ⟨_, h.upheld hI⟩
    · exact ⟨_, h.upheld hI⟩

theorem closed (h : Audit last s.1.batchSize I J)
    (hidle : s.1.threads = some 0 → ∀ {d ps} {x : Accounted W S V sh}, I d ps x → I d [] x)
    (hs : I {} [] (s, {})) {g : Searching W S V sh}
    (e : LocalSearch.gather fuel last s = .ok () g) :
    Closed I J (g, LocalSearch.account fuel last s) := by
  have hends := h.gather fuel hidle hs
  have hsame := recounts_gather fuel last s {}
  rw [e] at hsame
  unfold LocalSearch.account
  generalize gatherAccounted fuel last (s, {}) = r at hends hsame
  cases hends with
  | error => cases hsame
  | ok hclosed =>
    cases hsame
    exact hclosed

end Audit

/-! ## What the account says of the search -/

/-- The candidates that were considered since `b` and accepted, and no others, went to the forager
and the arena. -/
structure Kept (b : Searching W S V sh) (last : Score sh) (x : Accounted W S V sh) : Prop where
  setup : x.1.1.setup = b.1.setup
  acceptance : x.1.1.acceptance = b.1.acceptance
  kept : (x.1.1.forager, x.1.1.arena) =
    keepAll (b.1.accepted last x.2.seen) (b.1.forager, b.1.arena)

/-- Besides, the candidates that were drawn were counted. -/
structure Counted (b : Searching W S V sh) (last : Score sh) (d : Draws) (x : Accounted W S V sh) :
    Prop extends Kept b last x where
  drawn : x.2.drawn.length = d.drawn

section

omit [Plan S sh] [Workspace W S sh] [DecidableEq V] [ToString V]

variable {b s : Searching W S V sh} {last : Score sh} {d : Draws} {k : Account S V sh}

theorem Counted.begin (b : Searching W S V sh) (last : Score sh) : Counted b last {} (b, {}) :=
  ⟨⟨rfl, rfl, rfl⟩, rfl⟩

theorem Kept.consider (h : Kept b last (s, k)) (m : Move S V) (a : Score sh) :
    Kept b last (considered last m a s, k.consider m a) := by
  have hkept := h.kept
  have hconcat : b.1.accepted last (k.consider m a).seen = _ := b.1.accepted_concat last k.seen m a
  unfold considered
  dsimp only at hkept ⊢
  split
  · next hacc =>
    rw [h.acceptance] at hacc
    rw [if_pos hacc] at hconcat
    refine ⟨(setup_congr (Forager.canStopEarly_add _ _) _ rfl).trans h.setup, h.acceptance, ?_⟩
    rw [hconcat, keepAll_concat, ← hkept]
  · next hacc =>
    rw [h.acceptance] at hacc
    rw [if_neg hacc] at hconcat
    refine ⟨h.setup, h.acceptance, ?_⟩
    rw [hconcat]
    exact hkept

theorem Counted.consider (h : Counted b last d (s, k)) (m : Move S V) (a : Score sh) :
    Counted b last (s.1.judged last a d) (considered last m a s, k.consider m a) :=
  ⟨h.toKept.consider m a, h.drawn.trans (judged_drawn _ _ _ _).symm⟩

theorem Counted.refuse (h : Counted b last d (s, k)) : Counted b last d.refuse (illegal s, k) :=
  { h with }

end

omit [DecidableEq V] [ToString V] in
theorem Counted.draw {b s : Searching W S V sh} {last : Score sh} {d : Draws} {k : Account S V sh}
    (h : Counted b last d (s, k)) (m : Move S V) :
    Counted b last d.draw (LocalSearch.drawn s, k.draw (some m)) := by
  refine { h with drawn := ?_ }
  show (k.drawn ++ [m]).length = d.drawn + 1
  rw [List.length_append, show k.drawn.length = d.drawn from h.drawn]
  rfl

end LocalSearch

end PlanSearch
