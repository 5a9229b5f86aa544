import PlanSearch.Proofs.Phase.Convergence
import PlanSearch.Proofs.Search.Winner

/-!
# Bounds on the candidates of a step

A search that passes its own check draws finitely many candidates in every step, and it is known how
many at most: as many as its limit says; or, if only the forager ends its steps, as many as may be
refused in a row, for each candidate that the forager waits for; or as many as the neighbourhood
yields until it comes to its end. It makes no difference to the bounds whether the step succeeds and
whether candidates are drawn in batches.

    mayDraw bounds the account by the limit                              (drawn_le_limit)
    refusals in a row bound the account of an eager search               (drawn_le_streaks)
    what was drawn begins what the neighbourhood yields                  (drawn_prefix)
-/

namespace PlanSearch

variable {W S V : Type} {sh : Shape} [Plan S sh]

/-! ## What a neighbourhood yields -/

namespace Neighbourhood

variable {P : S → Prop} {x y z : Neighbourhood S V × Source} {ms : List (Move S V)} {m : Move S V}

/-- From `x` on, draws on plans within `P` yield the moves `ms` one after another, and lead to
`y`. -/
inductive Yields (P : S → Prop) (x : Neighbourhood S V × Source) :
    List (Move S V) → Neighbourhood S V × Source → Prop
  | refl : Yields P x [] x
  | next {ms : List (Move S V)} {m : Move S V} {y z : Neighbourhood S V × Source} (p : S)
    (h : Yields P x ms y) (hp : P p) (hm : y.1.next p y.2 = (some m, z)) : Yields P x (ms ++ [m]) z

/-- Draws on plans within `P` yield the moves `ms` and then no more. -/
def Exhausts (P : S → Prop) (x : Neighbourhood S V × Source) (ms : List (Move S V)) : Prop :=
  ∃ y p, Yields P x ms y ∧ P p ∧ (y.1.next p y.2).1 = none

theorem Yields.tree_eq (h : Yields P x ms y) : y.1.tree = x.1.tree := by
  induction h with
  | refl => rfl
  | next p _ _ hm ih =>
    rw [← ih]
    exact congrArg (fun r => r.2.1.tree) hm.symm

/-- A neighbourhood that comes to an end yields finitely many moves, of which those that were drawn
are the first. -/
theorem Yields.exhausts (h : Yields P x ms y) (hends : x.1.tree.isNeverEnding = false) {p : S}
    (hp : P p) : ∃ all, ms <+: all ∧ Exhausts P x all := by
  induction hrank : y.1.tree.rank y.1.walk using WellFoundedLT.induction generalizing ms y with
  | ind o ih =>
    subst hrank
    have hfalls := y.1.tree.rank_next p (h.tree_eq ▸ hends) y.1.walk y.2
    rcases hm : y.1.next p y.2 with ⟨_ | m, z⟩
    · exact ⟨ms, List.prefix_refl ms, y, p, h, hp, congrArg Prod.fst hm⟩
    · have hz := h.next p hp hm
      unfold Neighbourhood.next at hm
      generalize y.1.tree.next p y.1.walk y.2 = q at hm hfalls
      obtain ⟨m', walk, source⟩ := q
      cases hm
      obtain ⟨all, hall, hexhausts⟩ := ih _ hfalls hz rfl
      exact ⟨all, (List.prefix_append ms [m]).trans hall, hexhausts⟩

end Neighbourhood

namespace LocalSearch

variable [Workspace W S sh] [DecidableEq V] [ToString V] {b s : Searching W S V sh}
  {last : Score sh} {fuel : Nat} {d : Draws} {ps : List (Move S V)} {x : Accounted W S V sh}

/-! ## The limit of candidates -/

section

variable (b : Searching W S V sh) (last : Score sh) (limit : Nat)

/-- The limit allows what was drawn so far. -/
structure Limited (d : Draws) (_ : List (Move S V)) (x : Accounted W S V sh) : Prop extends
    Counted b last d x where
  le : d.drawn ≤ limit

end

omit [Plan S sh] [Workspace W S sh] [DecidableEq V] [ToString V] in
theorem Counted.lt_of_mayDraw (h : Counted b last d x) {limit : Nat}
    (hlimit : b.1.candidateLimit = some limit) (hd : x.1.1.mayDraw d) : d.drawn < limit := by
  rw [mayDraw_congr h.setup] at hd
  unfold mayDraw at hd
  rw [hlimit] at hd
  exact of_decide_eq_true (Bool.and_eq_true_iff.1 hd).1

theorem Limited.audit {limit : Nat} (hlimit : b.1.candidateLimit = some limit) (last : Score sh) :
    Audit last b.1.batchSize (Limited b last limit) (fun x => x.2.drawn.length ≤ limit) where
  upheld h := h.drawn ▸ h.le
  dry h _ _ := { h with }
  draw {d ps s k m} h _ hd _ _ _ := ⟨h.toCounted.draw m, h.lt_of_mayDraw hlimit hd⟩
  illegal {d ps s k m} h _ hd _ _ _ :=
    ⟨(h.toCounted.draw m).refuse, h.lt_of_mayDraw hlimit hd⟩
  score h _ := { h with }
  fail h _ := h.drawn ▸ h.le
  consider {d ps s k m a} h := by
    refine ⟨?_, fun _ => ⟨h.toCounted.consider m a, ?_⟩⟩
    · show k.drawn.length ≤ limit
      rw [show k.drawn.length = d.drawn from h.drawn]
      exact h.le
    · rw [judged_drawn]
      exact h.le

/-! ## Refusals in a row -/

section

variable (b : Searching W S V sh) (last : Score sh) (n : Nat)

/-- No more than `streakLimit` candidates were drawn for each one that was accepted, and since
then. -/
structure Eager (d : Draws) (ps : List (Move S V)) (x : Accounted W S V sh) : Prop extends
    Counted b last d x where
  lt : (b.1.accepted last x.2.seen).length < max 1 n
  le : x.2.drawn.length ≤
    streakLimit * (b.1.accepted last x.2.seen).length + d.streak + ps.length
  streak : d.streak + ps.length ≤ streakLimit

end

namespace Eager

variable {n : Nat} {k : Account S V sh} {m : Move S V} {a : Score sh}

section

omit [Plan S sh] [Workspace W S sh] [DecidableEq V] [ToString V]

theorem bound (h : Eager b last n d ps x) : x.2.drawn.length ≤ streakLimit * max 1 n := by
  have hmul := Nat.mul_le_mul_left streakLimit (Nat.succ_le_of_lt h.lt)
  rw [Nat.mul_succ] at hmul
  have hle := h.le
  have hstreak := h.streak
  omega

/-- A candidate that is drawn is one more in a row, until it is accepted. -/
theorem succ_le (h : Eager b last n d [] (s, k)) (heager : b.1.setup.isEager)
    (hd : s.1.mayDraw d) (m : Move S V) :
    (k.draw (some m)).drawn.length ≤
        streakLimit * (b.1.accepted last k.seen).length + (d.streak + 1) ∧
      d.streak + 1 ≤ streakLimit := by
  refine ⟨?_, Nat.succ_le_of_lt (streak_lt_of_mayDraw (h.setup ▸ heager) hd)⟩
  have hle : k.drawn.length ≤ _ := h.le
  show (k.drawn ++ [m]).length ≤ _
  rw [List.length_append, List.length_singleton]
  exact Nat.succ_le_succ hle

/-- An accepted candidate makes room for as many refused ones. -/
theorem consider (h : Eager b last n d (m :: ps) (s, k))
    (hlt : (b.1.accepted last (k.consider m a).seen).length < max 1 n) :
    Eager b last n (s.1.judged last a d) ps (considered last m a s, k.consider m a) := by
  have hle : k.drawn.length ≤
      streakLimit * (b.1.accepted last k.seen).length + d.streak + (m :: ps).length := h.le
  have hstreak := h.streak
  rw [List.length_cons] at hle hstreak
  have hconcat := b.1.accepted_concat last k.seen m a
  refine ⟨h.toCounted.consider m a, hlt, ?_, ?_⟩
  · show k.drawn.length ≤ streakLimit * (b.1.accepted last (k.seen ++ [(m, a)])).length + _ + _
    rw [hconcat]
    unfold judged
    rw [h.acceptance]
    split
    · rw [List.length_append, List.length_singleton, Nat.mul_succ]
      show k.drawn.length ≤ _ + 0 + ps.length
      omega
    · show k.drawn.length ≤ _ + (d.streak + 1) + ps.length
      omega
  · unfold judged
    split
    · show 0 + ps.length ≤ streakLimit
      omega
    · show d.streak + 1 + ps.length ≤ streakLimit
      omega

end

theorem audit (hclear : b.1.forager.clear = b.1.forager) (hempty : b.1.arena = .empty)
    (heager : b.1.setup.isEager) (hsize : b.1.batchSize = 1) (hn : b.1.forager.limit = some n)
    (last : Score sh) :
    Audit last b.1.batchSize (Eager b last n)
      (fun x => x.2.drawn.length ≤ streakLimit * max 1 n) where
  upheld h := h.bound
  dry h _ _ := { h with }
  draw {d ps s k m} h _ hd hps _ _ := by
    rw [hsize, Nat.lt_one_iff, List.length_eq_zero_iff] at hps
    subst hps
    obtain ⟨hle, hstreak⟩ := h.succ_le heager hd m
    exact ⟨h.toCounted.draw m, h.lt, hle, hstreak⟩
  illegal {d ps s k m} h _ hd hps _ _ := by
    rw [hsize, Nat.lt_one_iff, List.length_eq_zero_iff] at hps
    subst hps
    obtain ⟨hle, hstreak⟩ := h.succ_le heager hd m
    exact ⟨(h.toCounted.draw m).refuse, h.lt, hle, hstreak⟩
  score h _ := { h with }
  fail h _ := h.bound
  consider {d ps s k m a} h := by
    refine ⟨h.bound, fun hdone => h.consider ?_⟩
    have hwaits : b.1.Waits last (k.consider m a).seen := Classical.not_not.1 fun hnot => by
      rw [((h.toCounted.consider m a).isDone_iff hclear hempty).2 hnot] at hdone
      cases hdone
    exact Nat.lt_of_lt_of_le (hwaits n hn) (Nat.le_max_right 1 n)

end Eager

/-! ## Neighbourhoods that come to an end -/

/-- Plans of workspaces within `P`. -/
def PlanOf (P : W → Prop) (p : S) : Prop := ∃ w, P w ∧ Workspace.plan w = p

/-- Scoring the moves that come from `x` keeps workspaces within `P`. -/
def Undisturbed (P : W → Prop) (x : Neighbourhood S V × Source) : Prop :=
  ∀ ms y, Neighbourhood.Yields (PlanOf P) x ms y → ∀ m ∈ ms,
    ∀ (mode : Mode) (a : Score sh) (w w' : W), P w → scoreCandidate mode m w = .ok a w' → P w'

section

variable (P : W → Prop) (b : Searching W S V sh)

/-- What was drawn is what the neighbourhood yields, on workspaces within `P`. -/
structure Yielding (_ : Draws) (ps : List (Move S V)) (x : Accounted W S V sh) : Prop where
  workspace : P x.1.2.run.workspace
  yields : ∃ y, Neighbourhood.Yields (PlanOf P) (b.1.neighbourhood, b.2.run.source) x.2.drawn y ∧
    (x.2.dry = false → y = (x.1.1.neighbourhood, x.1.2.run.source))
  pending : ∀ m ∈ ps, m ∈ x.2.drawn

end

namespace Yielding

variable {P : W → Prop} {k : Account S V sh} {m : Move S V}

omit [DecidableEq V] [ToString V]

theorem upheld (h : Yielding P b d ps x) :
    ∃ y, Neighbourhood.Yields (PlanOf P) (b.1.neighbourhood, b.2.run.source) x.2.drawn y := by
  obtain ⟨y, hy, -⟩ := h.yields
  exact ⟨y, hy⟩

theorem drawn (h : Yielding P b d ps (s, k)) (hk : k.dry = false) (hm : nextMove s = some m) :
    Yielding P b d.draw (ps ++ [m]) (LocalSearch.drawn s, k.draw (some m)) := by
  obtain ⟨y, hy, hcurrent⟩ := h.yields
  obtain rfl := hcurrent hk
  have hplan : PlanOf P s.2.run.plan := ⟨_, h.workspace, rfl⟩
  refine ⟨h.workspace, ⟨_, hy.next _ hplan (Prod.ext hm rfl), fun _ => rfl⟩, ?_⟩
  intro m' hm'
  rcases List.mem_append.1 hm' with hm' | hm'
  · exact List.mem_append_left _ (h.pending m' hm')
  · exact List.mem_append_right _ hm'

end Yielding

theorem Yielding.audit {P : W → Prop}
    (hP : Undisturbed P (b.1.neighbourhood, b.2.run.source)) (last : Score sh) (size : Nat) :
    Audit last size (Yielding P b) (fun x => ∃ y,
      Neighbourhood.Yields (PlanOf P) (b.1.neighbourhood, b.2.run.source) x.2.drawn y) where
  upheld h := h.upheld
  dry h _ _ := by
    obtain ⟨y, hy⟩ := h.upheld
    exact ⟨h.workspace, ⟨y, hy, nofun⟩, h.pending⟩
  draw h hk _ _ hm _ := h.drawn hk hm
  illegal {d ps s k m} h hk _ _ hm _ := by
    have hdrawn := h.drawn hk hm
    exact ⟨hdrawn.workspace, hdrawn.yields,
      fun m' hm' => hdrawn.pending m' (List.mem_append_left _ hm')⟩
  score {d s k m a w} h e := by
    obtain ⟨y, hy⟩ := h.upheld
    have hm := h.pending m (List.mem_singleton.2 rfl)
    exact ⟨hP _ _ hy m hm _ _ _ _ h.workspace e, h.yields, h.pending⟩
  fail h _ := h.upheld
  consider {d ps s k m a} h := by
    refine ⟨h.upheld, fun _ => ⟨h.workspace, ?_, fun m' hm' => ?_⟩⟩
    · rw [neighbourhood_considered]
      exact h.yields
    · exact h.pending m' (List.mem_cons_of_mem _ hm')

omit [DecidableEq V] in
/-- On a lawful workspace the plan counts as the same throughout. -/
theorem undisturbed_of_exact [Workspace.Lawful W] {X : Variable S V → Prop} {same : S → S → Prop}
    {good : W → Prop} {p : S} (hl : Lenses X same) (hg : Workspace.Exact X same good)
    {x : Neighbourhood S V × Source} (ht : x.1.tree.Over X) (hx : x.1.Within (Slot.Of X p)) :
    Undisturbed (Workspace.Holds same good p) x := by
  intro ms y hy m hm mode a w w' hw e
  have hof : y.1.Within (Slot.Of X p) ∧ ∀ m ∈ ms, m.Of X p := by
    clear hm
    induction hy with
    | refl => exact ⟨hx, List.forall_mem_nil _⟩
    | @next ms m y z q hy hq hm ih =>
      obtain ⟨w, hw, rfl⟩ := hq
      obtain ⟨hwithin, hof⟩ := ih.1.next (hy.tree_eq ▸ ht) (hl.of_movable hw.same) y.2
      rw [hm] at hwithin hof
      exact ⟨hwithin, List.forall_mem_append.2 ⟨ih.2, List.forall_mem_singleton.2 (hof m rfl)⟩⟩
  exact (scoreCandidate_eq_ok hg hl (hof.2 m hm) hw e).1

/-! ## Steps -/

/-- The bounds on what the step that begins in `s` draws. -/
structure Bounded (s : Searching W S V sh) (last : Score sh) (k : Account S V sh) : Prop where
  limited : ∀ limit, s.1.candidateLimit = some limit → k.drawn.length ≤ limit
  eager : s.1.candidateLimit = none → s.1.neighbourhood.tree.isNeverEnding →
    ∃ n, s.1.forager.limit = some n ∧ k.drawn.length ≤ streakLimit * max 1 n
  ending : s.1.neighbourhood.tree.isNeverEnding = false → ∀ P : W → Prop, P s.2.run.workspace →
    Undisturbed P ((begun last s).1.neighbourhood, s.2.run.source) → ∃ all, k.drawn <+: all ∧
      Neighbourhood.Exhausts (PlanOf P) ((begun last s).1.neighbourhood, s.2.run.source) all

/-- Every step of a search that passes its own check collects its candidates in finitely many
rounds, and draws no more of them than its bounds allow; and the search passes the check again when
the step was made. -/
theorem gather_bounded (last : Score sh) (s : Searching W S V sh) (hvalid : s.1.validate = .ok ())
    (hthreads : s.1.threads ≠ some 0) :
    Converges (fun fuel => gather fuel last (begun last s)) ∧
    (∀ fuel,
      forget (gatherAccounted fuel last (begun last s, {})) = gather fuel last (begun last s) ∧
      Bounded s last (account fuel last (begun last s))) ∧
    ∀ fuel answer t, step fuel last s = .ok answer t →
      t.1.validate = .ok () ∧ t.1.threads ≠ some 0 := by
  have hsetup : (begun last s).1.setup = s.1.setup :=
    setup_hear .stepStarted s.2.run.plan (some last) s.1
  refine ⟨?_, fun fuel => ⟨recounts_gather fuel last _ _, ?_⟩, fun fuel answer t e => ?_⟩
  · exact gather_converges last (begun last s) (hsetup ▸ ends_of_validate hvalid) hthreads
  · have hidle : ∀ {I : Draws → List (Move S V) → Accounted W S V sh → Prop},
        (begun last s).1.threads = some 0 →
          ∀ {d ps} {x : Accounted W S V sh}, I d ps x → I d [] x :=
      fun h0 => absurd h0 hthreads
    refine ⟨fun limit hlimit => ?_, fun hnone hnever => ?_, fun hends P hw hP => ?_⟩
    · obtain ⟨_, h⟩ := (Limited.audit (b := begun last s) hlimit last).account fuel hidle
        ⟨.begin _ last, Nat.zero_le _⟩
      exact h
    · have heager : s.1.setup.isEager := Bool.and_eq_true_iff.2
        ⟨hnever, Option.isNone_iff_eq_none.2 hnone⟩
      have hearly : s.1.forager.canStopEarly := ends_of_validate hvalid heager
      rw [Forager.canStopEarly_eq] at hearly
      obtain ⟨n, hn⟩ := Option.isSome_iff_exists.1 hearly
      have haudit := Eager.audit (b := begun last s) s.1.forager.clear_clear rfl (hsetup ▸ heager)
        (batchSize_begun hn) (s.1.forager.limit_clear.trans hn) last
      obtain ⟨_, h⟩ := haudit.account fuel hidle
        ⟨.begin _ last, Nat.lt_of_lt_of_le Nat.one_pos (Nat.le_max_left 1 n), Nat.zero_le _,
          Nat.zero_le _⟩
      exact ⟨n, hn, h⟩
    · obtain ⟨_, y, hy⟩ := (Yielding.audit (b := begun last s) hP last _).account fuel
        hidle ⟨hw, ⟨_, .refl, fun _ => rfl⟩, nofun⟩
      exact hy.exhausts hends ⟨_, hw, rfl⟩
  · have hkept := (step_frame e).1
    refine ⟨?_, fun h0 => hthreads ((congrArg Setup.threads hkept).symm.trans h0)⟩
    rw [← hvalid]
    exact validate_congr (congrArg Setup.tree hkept) (congrArg Setup.candidateLimit hkept)
      (congrArg Setup.canStopEarly hkept)

end LocalSearch

/-! ## Searches on a row -/

namespace Row

/-- Draws at random, with two workers, until a candidate is accepted. -/
def eager : LocalSearch.Searching (RecomputingWorkspace Row .simple) Row Nat .simple :=
  ({ search with
      neighbourhood := .ofTree (.change
        { entityClass := "Row", cell := cell, range := .listed [7] } .random)
      forager := .first none
      threads := some 2 },
    ⟨{ index := 0 }, run⟩)

/-- An eager search draws no more than may be refused in a row; one whose neighbourhood comes to an
end draws no more than that yields on plans with the same values. -/
theorem gather_bounded_search :
    (eager.1.validate = .ok () ∧ eager.1.threads ≠ some 0 ∧
      (LocalSearch.account 5 blank (LocalSearch.begun blank eager)).drawn.length ≤
        LocalSearch.streakLimit) ∧
    (reused.1.validate = .ok () ∧ reused.1.threads ≠ some 0 ∧
      ∃ all, (LocalSearch.account 5 blank (LocalSearch.begun blank reused)).drawn <+: all ∧
        Neighbourhood.Exhausts
          (LocalSearch.PlanOf (Workspace.Holds (Agree (· = cell)) (RecomputingWorkspace.Keeps rate)
            reused.2.run.plan))
          ((LocalSearch.begun blank reused).1.neighbourhood, reused.2.run.source) all) := by
  have heager : eager.1.validate = .ok () := rfl
  have hreused : reused.1.validate = .ok () := rfl
  refine ⟨⟨heager, by decide, ?_⟩, hreused, by decide, ?_⟩
  · obtain ⟨-, hbounds, -⟩ := LocalSearch.gather_bounded blank eager heager (by decide)
    obtain ⟨n, hn, hle⟩ := (hbounds 5).2.eager rfl rfl
    obtain rfl : 1 = n := Option.some.inj hn
    exact hle
  · obtain ⟨-, hbounds, -⟩ := LocalSearch.gather_bounded blank reused hreused (by decide)
    have hover : reused.1.neighbourhood.tree.Over (· = cell) := rfl
    have hholds : Workspace.Holds (Agree (· = cell)) (RecomputingWorkspace.Keeps rate)
        reused.2.run.plan reused.2.run.workspace :=
      ⟨⟨rfl, nofun⟩, lawful.lenses.equivalence.refl _⟩
    exact (hbounds 5).2.ending rfl _ hholds
      (LocalSearch.undisturbed_of_exact lawful.lenses exact hover
        (Neighbourhood.within_hear _ _ _ rfl))

end Row

end PlanSearch
