import PlanSearch.Proofs.Convergence
import PlanSearch.Proofs.Neighbourhood.Descent
import PlanSearch.Proofs.Mirror.Threads
import PlanSearch.Proofs.Phase.Heeding

/-!
# Steps that come to an end

However many candidates a neighbourhood has, a step draws finitely many of them if its search passes
its own check: there is a limit of candidates, or the neighbourhood comes to an end, or the forager
has had enough before too many candidates in a row were not accepted. In each case a rank falls from
candidate to candidate, whatever the scores are and whatever scoring does to the plan.

    s.1.setup.Ends → Converges fun n => gather n last s                            (gather_converges)
-/

namespace PlanSearch

variable {W S V σ α : Type} {sh : Shape}

/-! ## Scoring -/

namespace Workspace

variable [Workspace W S sh]

theorem frugal_scoreNow : Frugal (fun _ => ()) (scoreNow : Action W (Score sh)) := fun w => by
  unfold scoreNow
  split
  · exact .ok rfl
  · exact .error nofun

theorem frugal_checkedScore (context : String) :
    Frugal (fun _ => ()) (checkedScore context : Action W (Score sh)) := by
  unfold checkedScore
  refine frugal_scoreNow.bind fun incremental => Frugal.get.bind fun w => ?_
  refine (Frugal.ofChecked _).bind fun full => ?_
  split
  · exact .ok _
  · exact .error _

end Workspace

section

variable [Workspace W S sh] [ToString V]

theorem frugal_scoreCandidate (mode : Mode) (m : Move S V) :
    Frugal (fun _ => ()) (scoreCandidate mode m : Action W (Score sh)) := by
  have happly : ∀ m : Move S V, Frugal (fun _ => ()) (modify m.apply : Action W PUnit) :=
    fun m => .modify fun _ => rfl
  unfold scoreCandidate
  split
  · refine Workspace.frugal_scoreNow.bind fun before => Frugal.get.bind fun w => ?_
    refine (happly m).bind fun _ => (Workspace.frugal_checkedScore _).bind fun a => ?_
    refine (happly _).bind fun _ => ?_
    refine Workspace.frugal_scoreNow.bind fun after => ?_
    split
    · exact (Workspace.frugal_checkedScore _).bind fun _ => .ok _
    · exact .error _
  · refine Frugal.get.bind fun w => (happly m).bind fun _ => ?_
    exact Workspace.frugal_scoreNow.bind fun a => (happly _).bind fun _ => .ok _

theorem scoreEach_ne_outOfFuel (mode : Mode) (ms : List (Move S V)) (w : W) :
    scoreEach mode ms w ≠ .error .outOfFuel := by
  induction ms generalizing w with
  | nil => exact nofun
  | cons m ms ih =>
    unfold scoreEach
    split
    · exact fun e => ih _ (Checked.map_eq_error e)
    · exact fun e => ih _ (Checked.map_eq_error e)
    · next hscore =>
      intro e
      cases e
      have hfrugal := frugal_scoreCandidate mode m w
      rw [hscore] at hfrugal
      cases hfrugal with
      | error h => exact h rfl

theorem scoreBatch_ne_outOfFuel (mode : Mode) (threads : Nat) (batch : List (Move S V)) (w : W) :
    scoreBatch mode threads batch w ≠ .error .outOfFuel := fun e => by
  unfold scoreBatch at e
  dsimp only at e
  cases hruns : (runsOf ((batch.length + threads - 1) / threads) batch).mapM
      fun run => scoreEach mode run w with
  | ok answers =>
    rw [hruns] at e
    cases e
  | error f =>
    rw [hruns] at e
    cases e
    obtain ⟨run, -, hrun⟩ := Checked.mapM_eq_error hruns
    exact scoreEach_ne_outOfFuel mode run w hrun

end

/-! ## Foragers that have had enough -/

namespace Forager

/-- The candidates that the forager still asks for before it is done, where it can be. -/
def quota : Forager sh → Nat
  | first accepted => if accepted.isSome then 0 else 1
  | best limit count _ => limit.getD 0 - count
  | uniform limit accepted => limit.getD 0 - accepted.length

theorem quota_add {f : Forager sh} (hearly : f.canStopEarly) {p : Pick sh}
    (hdone : (f.add p).isDone = false) : (f.add p).quota < f.quota := by
  cases f with
  | first accepted => cases accepted <;> cases hdone
  | best limit count leader =>
    obtain ⟨limit, rfl⟩ := Option.isSome_iff_exists.1 hearly
    have hlt : count + 1 < limit := by
      cases leader <;> exact Nat.lt_of_not_le (of_decide_eq_false hdone)
    have hquota : ((best (some limit) count leader).add p).quota = limit - (count + 1) := by
      cases leader <;> rfl
    rw [hquota]
    exact Nat.sub_lt_sub_left (Nat.lt_of_succ_lt hlt) (Nat.lt_succ_self count)
  | uniform limit accepted =>
    obtain ⟨limit, rfl⟩ := Option.isSome_iff_exists.1 hearly
    have hlt : (accepted ++ [p]).length < limit := Nat.lt_of_not_le (of_decide_eq_false hdone)
    show limit - (accepted ++ [p]).length < limit - accepted.length
    rw [List.length_append, List.length_singleton] at hlt ⊢
    omega

end Forager

namespace LocalSearch

/-! ## What is left of a step -/

/-- Nothing but the forager ends a step. -/
def Setup.isEager (b : Setup S V sh) : Bool := b.tree.isNeverEnding && b.candidateLimit.isNone

/-- Every step ends. -/
def Setup.Ends (b : Setup S V sh) : Prop := b.isEager → b.canStopEarly

theorem ends_of_validate {p : LocalSearch S V sh} (h : p.validate = .ok ()) : p.setup.Ends := by
  unfold validate at h
  split at h
  · cases h
  · next hends =>
    intro heager
    obtain ⟨hnever, hlimit⟩ := Bool.and_eq_true_iff.1 heager
    show p.forager.canStopEarly = true
    cases hearly : p.forager.canStopEarly with
    | true => rfl
    | false =>
      refine absurd ?_ hends
      rw [show p.neighbourhood.tree.isNeverEnding = true from hnever, hearly,
        show p.candidateLimit.isNone = true from hlimit]
      rfl

/-- The rank of a search within a step: what is left of the limit of candidates, or of the
neighbourhood, or of the patience with candidates that are not accepted. -/
noncomputable def rank (p : LocalSearch S V sh) (d : Draws) : Ordinal.{0} :=
  match p.candidateLimit with
  | some limit => (limit - d.drawn : Nat)
  | none =>
    if p.neighbourhood.tree.isNeverEnding then
      (p.forager.quota * (streakLimit + 1) + (streakLimit - d.streak) : Nat)
    else p.neighbourhood.tree.rank p.neighbourhood.walk

section

variable {p : LocalSearch S V sh} {d : Draws}

theorem rank_of_eager (h : p.setup.isEager) :
    p.rank d = (p.forager.quota * (streakLimit + 1) + (streakLimit - d.streak) : Nat) := by
  obtain ⟨hnever, hlimit⟩ := Bool.and_eq_true_iff.1 h
  unfold rank
  rw [show p.candidateLimit = none from Option.isNone_iff_eq_none.1 hlimit]
  dsimp only
  rw [show p.neighbourhood.tree.isNeverEnding = true from hnever, if_pos rfl]

/-- Only a search that is eager looks at what became of its candidates. -/
theorem rank_congr (h : p.setup.isEager = false) {p' : LocalSearch S V sh} {d' : Draws}
    (hlimit : p'.candidateLimit = p.candidateLimit) (hwalk : p'.neighbourhood = p.neighbourhood)
    (hdrawn : d'.drawn = d.drawn) : p'.rank d' = p.rank d := by
  unfold rank
  rw [hlimit, hwalk, hdrawn]
  cases hl : p.candidateLimit with
  | some limit => rfl
  | none =>
    have hends : p.neighbourhood.tree.isNeverEnding = false :=
      (Bool.and_eq_false_iff.1 h).resolve_right (by
        show ¬p.candidateLimit.isNone = false
        rw [hl]
        nofun)
    dsimp only
    rw [hends, if_neg Bool.false_ne_true, if_neg Bool.false_ne_true]

theorem streak_lt_of_mayDraw (h : p.setup.isEager) (hd : p.mayDraw d) : d.streak < streakLimit := by
  obtain ⟨hnever, hlimit⟩ := Bool.and_eq_true_iff.1 h
  unfold mayDraw at hd
  rw [show p.candidateLimit.isNone = true from hlimit,
    show p.neighbourhood.tree.isNeverEnding = true from hnever] at hd
  have hstreak := (Bool.and_eq_true_iff.1 hd).2
  exact Nat.lt_of_not_le fun hle => by
    rw [show decide (streakLimit ≤ d.streak) = true from decide_eq_true hle] at hstreak
    cases hstreak

theorem rank_refuse (p : LocalSearch S V sh) (d : Draws) : p.rank d.refuse ≤ p.rank d := by
  cases h : p.setup.isEager with
  | false => exact le_of_eq (rank_congr h rfl rfl rfl)
  | true =>
    rw [rank_of_eager h, rank_of_eager h]
    exact Nat.cast_le.2 (Nat.add_le_add_left (Nat.sub_le_sub_left (Nat.le_succ _) _) _)

theorem rank_refuse_lt (h : p.setup.isEager) (hd : d.streak < streakLimit) :
    p.rank d.refuse < p.rank d := by
  rw [rank_of_eager h, rank_of_eager h]
  exact Nat.cast_lt.2 (Nat.add_lt_add_left (Nat.sub_lt_sub_left hd (Nat.lt_succ_self _)) _)

variable [Plan S sh]

/-- A draw that yields a candidate lowers the rank, unless the search is eager. -/
theorem rank_draw (hd : p.mayDraw d) {plan : S} {s s' : Source} {m : Move S V}
    {n : Neighbourhood S V} (e : p.neighbourhood.next plan s = (some m, n, s')) :
    rank { p with neighbourhood := n } d.draw ≤ p.rank d ∧
      (p.setup.isEager = false → rank { p with neighbourhood := n } d.draw < p.rank d) := by
  obtain ⟨⟨tree, walk⟩, acceptance, forager, termination, policy, limit, threads, arena⟩ := p
  have hfalls := fun h => tree.rank_next plan h walk s
  unfold Neighbourhood.next at e
  dsimp only at e
  generalize tree.next plan walk s = q at e hfalls
  obtain ⟨m?, walk', s₁⟩ := q
  cases e
  cases limit with
  | some limit =>
    have hdrawn : d.drawn < limit := of_decide_eq_true (Bool.and_eq_true_iff.1 hd).1
    have hlt : ((limit - (d.drawn + 1) : Nat) : Ordinal.{0}) < (limit - d.drawn : Nat) :=
      Nat.cast_lt.2 (Nat.sub_lt_sub_left hdrawn (Nat.lt_succ_self _))
    exact ⟨le_of_lt hlt, fun _ => hlt⟩
  | none =>
    cases hnever : tree.isNeverEnding with
    | true =>
      refine ⟨le_of_eq ?_, fun h => ?_⟩
      · unfold rank
        dsimp only
        rw [hnever]
        rfl
      · rw [show Setup.isEager _ = (tree.isNeverEnding && true) from rfl, hnever] at h
        cases h
    | false =>
      have hlt : tree.rank walk' < tree.rank walk := hfalls hnever
      have hrank : rank ⟨⟨tree, walk'⟩, acceptance, forager, termination, policy, none, threads,
          arena⟩ d.draw < rank ⟨⟨tree, walk⟩, acceptance, forager, termination, policy, none,
          threads, arena⟩ d := by
        unfold rank
        dsimp only
        rw [hnever]
        exact hlt
      exact ⟨le_of_lt hrank, fun _ => hrank⟩

end

/-- A candidate that was considered, and was not the last that the forager asked for, does not raise
the rank, and lowers it where the search is eager. -/
theorem rank_considered {s : Searching W S V sh} (hends : s.1.setup.Ends) (last : Score sh)
    (m : Move S V) (a : Score sh) (d : Draws)
    (hdone : (considered last m a s).1.forager.isDone = false) :
    (considered last m a s).1.rank (s.1.judged last a d) ≤ s.1.rank d ∧
      (s.1.setup.isEager → d.streak < streakLimit →
        (considered last m a s).1.rank (s.1.judged last a d) < s.1.rank d) := by
  unfold considered at hdone ⊢
  unfold judged
  dsimp only at hdone ⊢
  split
  · next haccepts =>
    rw [if_pos haccepts] at hdone
    cases heager : s.1.setup.isEager with
    | false => exact ⟨le_of_eq (rank_congr heager rfl rfl rfl), nofun⟩
    | true =>
      have hquota := Forager.quota_add (hends heager) hdone
      have hsetup : LocalSearch.setup { s.1 with
          forager := (keep m a (s.1.forager, s.1.arena)).1
          arena := (keep m a (s.1.forager, s.1.arena)).2 } = s.1.setup :=
        setup_congr (Forager.canStopEarly_add _ _) _ rfl
      have hlt : LocalSearch.rank { s.1 with
          forager := (keep m a (s.1.forager, s.1.arena)).1
          arena := (keep m a (s.1.forager, s.1.arena)).2 } d.accept < s.1.rank d := by
        rw [rank_of_eager (hsetup ▸ heager), rank_of_eager heager]
        generalize streakLimit = k
        have hmul := Nat.mul_le_mul_right (k + 1) hquota
        rw [Nat.succ_mul] at hmul
        refine Nat.cast_lt.2 (Nat.lt_of_lt_of_le ?_ (Nat.le_trans hmul (Nat.le_add_right _ _)))
        exact Nat.add_lt_add_left (Nat.lt_succ_of_le (Nat.sub_le _ _)) _
      exact ⟨le_of_lt hlt, fun _ _ => hlt⟩
  · exact ⟨rank_refuse s.1 d, fun h hd => rank_refuse_lt h hd⟩

/-! ## Collecting -/

variable [Plan S sh] [Workspace W S sh] {s t : Searching W S V sh} {d d' : Draws} {m : Move S V}
  {last a : Score sh} {fuel : Nat}

theorem rank_drawn (hd : s.1.mayDraw d) (hm : nextMove s = some m) :
    (drawn s).1.rank d.draw ≤ s.1.rank d ∧
      (s.1.setup.isEager = false → (drawn s).1.rank d.draw < s.1.rank d) := by
  unfold nextMove at hm
  exact rank_draw hd (Prod.ext hm rfl)

/-- A candidate that cannot be applied is one candidate less. -/
theorem rank_illegal (hd : s.1.mayDraw d) (hm : nextMove s = some m) :
    (illegal (drawn s)).1.rank d.draw.refuse < s.1.rank d := by
  obtain ⟨hle, hlt⟩ := rank_drawn hd hm
  cases h : s.1.setup.isEager with
  | false => exact lt_of_le_of_lt (rank_refuse (drawn s).1 d.draw) (hlt h)
  | true =>
    have hstreak : d.streak < streakLimit := streak_lt_of_mayDraw h hd
    have hrefuse : (drawn s).1.rank d.draw.refuse < (drawn s).1.rank d.draw :=
      rank_refuse_lt h hstreak
    exact lt_of_lt_of_le hrefuse hle

/-- So is one that was considered, if the forager asks for more. -/
theorem rank_doable (hends : s.1.setup.Ends) (hd : s.1.mayDraw d) (hm : nextMove s = some m) (w : W)
    (hdone : (considered last m a (withWorkspace w (drawn s))).1.forager.isDone = false) :
    (considered last m a (withWorkspace w (drawn s))).1.rank (s.1.judged last a d.draw) <
      s.1.rank d := by
  obtain ⟨hle, hlt⟩ := rank_drawn hd hm
  obtain ⟨hle', hlt'⟩ := rank_considered (s := withWorkspace w (drawn s)) hends last m a d.draw hdone
  cases h : s.1.setup.isEager with
  | false => exact lt_of_le_of_lt hle' (hlt h)
  | true =>
    have hstreak : d.streak < streakLimit := streak_lt_of_mayDraw h hd
    exact lt_of_lt_of_le (hlt' h hstreak) hle

variable [DecidableEq V] [ToString V]

theorem considered_ends (hends : s.1.setup.Ends) : (considered last m a s).1.setup.Ends := by
  have ht := (Tried.loop s last).consider ⟨rfl, rfl, .refl _⟩ trivial
    (consider_eq last m a default s)
  rw [ht.setup]
  exact hends

/-- Candidates are scored one by one until there are no more, or the forager has had enough. -/
theorem collect_converges (last : Score sh) (s : Searching W S V sh) (d : Draws)
    (hends : s.1.setup.Ends) : Converges fun n => collect last n d s := by
  induction hrank : s.1.rank d using WellFoundedLT.induction generalizing s d with
  | ind o ih =>
    subst hrank
    refine .succ ?_
    cases hd : s.1.mayDraw d with
    | false =>
      simp only [collect_limit hd]
      exact .ok _ _
    | true =>
      cases hm : nextMove s with
      | none =>
        simp only [collect_dry hd hm]
        exact .ok _ _
      | some m =>
        cases hdo : m.isDoable s.2.run.plan with
        | false =>
          simp only [collect_illegal hd hm hdo]
          exact ih _ (rank_illegal hd hm) _ _ hends rfl
        | true =>
          simp only [collect_doable hd hm hdo]
          cases hscore : scoreCandidate s.2.run.mode m s.2.run.workspace with
          | error f w =>
            have hfrugal := frugal_scoreCandidate s.2.run.mode m s.2.run.workspace
            rw [hscore] at hfrugal
            cases hfrugal with
            | error h => exact .of_finishes (Q := fun _ _ => True) (.error h)
          | ok a w =>
            dsimp only
            cases hdone : (considered last m a (withWorkspace w (drawn s))).1.forager.isDone with
            | true => exact .ok _ _
            | false =>
              simp only [Bool.false_eq_true, if_false]
              exact ih _ (rank_doable hends hd hm w hdone) _ _
                (considered_ends (s := withWorkspace w (drawn s)) hends) rfl

/-! ## Batches -/

omit [ToString V] in
/-- A batch of candidates is drawn until it is full or there are no more. -/
theorem drawBatch_converges (k : Nat) (s : Searching W S V sh) (d : Draws) :
    Converges fun n => drawBatch n k d s := by
  induction k generalizing s d with
  | zero =>
    refine .succ ?_
    simp only [drawBatch]
    exact .ok _ _
  | succ k ihk =>
    induction hrank : s.1.rank d using WellFoundedLT.induction generalizing s d with
    | ind o ih =>
      subst hrank
      refine .succ ?_
      cases hd : s.1.mayDraw d with
      | false =>
        simp only [drawBatch_limit hd]
        exact .ok _ _
      | true =>
        cases hm : nextMove s with
        | none =>
          simp only [drawBatch_dry hd hm]
          exact .ok _ _
        | some m =>
          cases hdo : m.isDoable s.2.run.plan with
          | false =>
            simp only [drawBatch_illegal hd hm hdo]
            exact ih _ (rank_illegal hd hm) _ _ rfl
          | true =>
            simp only [drawBatch_doable hd hm hdo]
            exact (ihk _ _).bind fun _ _ _ _ => .ok _ _

omit [ToString V] in
/-- A batch brings the search forward: its draws do, or considering its only candidate will. -/
theorem drawBatch_rank {k : Nat} {ms : List (Move S V)}
    (e : drawBatch fuel k d s = .ok (ms, d', false) t) :
    t.1.rank d' ≤ s.1.rank d ∧ (s.1.mayDraw d → k ≠ 0 → (s.1.setup.isEager → k = 1) →
      t.1.rank d' < s.1.rank d ∨ s.1.setup.isEager ∧ ms ≠ [] ∧ d'.streak < streakLimit) := by
  induction fuel generalizing k d s ms with
  | zero => cases e
  | succ fuel ih =>
    cases k with
    | zero =>
      cases e
      exact ⟨le_refl _, fun _ hk => absurd rfl hk⟩
    | succ k =>
      cases hd : s.1.mayDraw d with
      | false =>
        rw [drawBatch_limit hd] at e
        cases e
        exact ⟨le_refl _, nofun⟩
      | true =>
        cases hm : nextMove s with
        | none =>
          rw [drawBatch_dry hd hm] at e
          cases e
        | some m =>
          obtain ⟨hle, hlt⟩ := rank_drawn hd hm
          cases hdo : m.isDoable s.2.run.plan with
          | false =>
            rw [drawBatch_illegal hd hm hdo] at e
            have hfalls := lt_of_le_of_lt (ih e).1 (rank_illegal hd hm)
            exact ⟨le_of_lt hfalls, fun _ _ _ => .inl hfalls⟩
          | true =>
            rw [drawBatch_doable hd hm hdo] at e
            obtain ⟨⟨rest, d₁, dry⟩, t₁, hrest, e⟩ := Step.bind_eq_ok e
            cases e
            have hrestle := (ih hrest).1
            refine ⟨hrestle.trans hle, fun _ _ hone => ?_⟩
            cases heager : s.1.setup.isEager with
            | false => exact .inl (lt_of_le_of_lt hrestle (hlt heager))
            | true =>
              obtain rfl : k = 0 := Nat.succ_inj.1 (hone heager)
              cases fuel with
              | zero => cases hrest
              | succ fuel =>
                have hstreak : d.streak < streakLimit := streak_lt_of_mayDraw heager hd
                cases hrest
                exact .inr ⟨rfl, List.cons_ne_nil _ _, hstreak⟩

/-- Considering a batch does not lead back, and leads forward where the search is eager. -/
theorem considerEach_rank {qs : List (Move S V × Except SolverError (Score sh))}
    (hends : s.1.setup.Ends) (e : considerEach last qs d s = .ok (d', false) t) :
    t.1.rank d' ≤ s.1.rank d ∧
      (s.1.setup.isEager → qs ≠ [] → d.streak < streakLimit → t.1.rank d' < s.1.rank d) := by
  induction qs generalizing d s with
  | nil =>
    cases e
    exact ⟨le_refl _, fun _ h => absurd rfl h⟩
  | cons q qs ih =>
    obtain ⟨m, _ | a⟩ := q
    · cases e
    rw [considerEach, consider_bind, Step.get_bind] at e
    split at e
    · cases e
    next hdone =>
    have hdone := Bool.eq_false_iff.2 hdone
    obtain ⟨hle, hlt⟩ := rank_considered hends last m a d hdone
    have hrest := (ih (considered_ends hends) e).1
    exact ⟨hrest.trans hle, fun h _ hd => lt_of_le_of_lt hrest (hlt h hd)⟩

omit [Plan S sh] [Workspace W S sh] [DecidableEq V] [ToString V] in
theorem frugal_considerEach (last : Score sh)
    (qs : List (Move S V × Except SolverError (Score sh))) (d : Draws) (s : Searching W S V sh) :
    Finishes (fun _ _ => True) (fun f _ => f ≠ .outOfFuel) (considerEach last qs d s) := by
  induction qs generalizing d s with
  | nil => exact .ok trivial
  | cons q qs ih =>
    obtain ⟨m, e | a⟩ := q
    · exact .error (Failure.error_ne_outOfFuel e)
    rw [considerEach, consider_bind, Step.get_bind]
    split
    · exact .ok trivial
    · exact ih _ _

theorem collectBatches_converges {threads size : Nat} (hthreads : threads ≠ 0) (hsize : size ≠ 0)
    (last : Score sh) (s : Searching W S V sh) (d : Draws) (hends : s.1.setup.Ends)
    (hone : s.1.setup.isEager → size = 1) :
    Converges fun n => collectBatches threads size last n d s := by
  induction hrank : s.1.rank d using WellFoundedLT.induction generalizing s d with
  | ind o ih =>
    subst hrank
    refine .succ ?_
    simp only [collectBatches, Step.get_bind]
    cases hd : s.1.mayDraw d with
    | false => exact .ok _ _
    | true =>
      refine Converges.bind ((drawBatch_converges size s d).comp Nat.le_succ) ?_
      rintro ⟨batch, d₁, dry⟩ t₁ n hbatch
      have h₁ : Tried s t₁ := ((Tried.loop s last).drawBatch ⟨rfl, rfl, .refl _⟩ hbatch).1
      simp only [Step.get_bind]
      have hscoring : Frugal (fun _ : Searching W S V sh => ())
          (ofExcept (scoreBatch t₁.2.run.mode threads batch t₁.2.run.workspace)) :=
        .ofExcept (scoreBatch_ne_outOfFuel _ _ _ _)
      refine Converges.bind_finishes (hscoring t₁) fun scores t₂ hscores _ => ?_
      obtain ⟨hscores, rfl⟩ := ofExcept_eq_ok hscores
      refine Converges.bind_finishes (frugal_considerEach last _ d₁ t₂) ?_
      rintro ⟨d₂, done⟩ t hconsider -
      have ht : Tried s t := (Tried.loop s last).considerEach (fun _ _ => ⟨trivial, fun _ _ => trivial⟩) h₁ hconsider
      have hends₁ : t₂.1.setup.Ends := h₁.setup ▸ hends
      dsimp only
      cases done with
      | true => exact .ok _ _
      | false =>
        cases dry with
        | true => exact .ok _ _
        | false =>
          obtain ⟨hle, hlt⟩ := considerEach_rank hends₁ hconsider
          have hfalls : t.1.rank d₂ < s.1.rank d := by
            rcases (drawBatch_rank hbatch).2 hd hsize hone with hfalls | ⟨heager, hne, hstreak⟩
            · exact lt_of_le_of_lt hle hfalls
            · have hscored : batch.zip scores ≠ [] := fun hnil => by
                rcases List.zip_eq_nil_iff.1 hnil with hnil | hnil
                · exact hne hnil
                · have hlength := length_scoreBatch hthreads hscores
                  rw [hnil] at hlength
                  exact hne (List.length_eq_zero_iff.1 hlength.symm)
              exact lt_of_lt_of_le (hlt (h₁.setup ▸ heager) hscored hstreak)
                (drawBatch_rank hbatch).1
          exact ih _ hfalls t d₂ (ht.setup ▸ hends) (ht.setup ▸ hone) rfl

/-- The candidates of a step are collected, one by one or by workers. -/
theorem gather_converges (last : Score sh) (s : Searching W S V sh) (hends : s.1.setup.Ends)
    (hthreads : s.1.threads ≠ some 0) : Converges fun n => gather n last s := by
  unfold gather
  cases h : s.1.threads with
  | none => exact collect_converges last s {} hends
  | some threads =>
    have hne : threads ≠ 0 := fun he => hthreads (h.trans (congrArg some he))
    refine collectBatches_converges hne ?_ last s {} hends fun heager => ?_
    · split
      · exact Nat.one_ne_zero
      · exact Nat.mul_ne_zero hne (Nat.succ_ne_zero _)
    · exact if_pos (hends heager)

end LocalSearch

end PlanSearch
