import PlanSearch.Proofs.Phase.Heeding
import PlanSearch.Proofs.Score.Order
import PlanSearch.Proofs.Search.Account

/-!
# Winners

A forager with a limit ends the step right after the last accepted candidate that it waits for, and
at no earlier one; a forager without a limit never does. The candidate that the step commits is told
by those of its own candidates that were accepted: it is the first of them, or the earliest of the
best, or the one that a random draw names. Nothing that an earlier step left in the forager or in
the arena makes a difference.

    Stocked l (keepAll l (f.clear, .empty))                              (Stocked.keepAll)
    Stocked l (f, x) → f.isDone ↔ ¬f.Awaits l.length                     (Stocked.isDone_iff)
    Stocked l (f, x) → Wins f source l (what f picks from x) …           (Stocked.wins)
-/

namespace PlanSearch

variable {W S V α : Type} {sh : Shape}

/-! ## The earliest of the best -/

/-- The candidates before `q` have lower scores, and those after it have no higher ones. -/
def FirstBest (l : List (α × Score sh)) (q : α × Score sh) : Prop :=
  ∃ before after, l = before ++ q :: after ∧ (∀ r ∈ before, r.2 < q.2) ∧ ∀ r ∈ after, r.2 ≤ q.2

namespace FirstBest

variable {l : List (α × Score sh)} {q r : α × Score sh}

theorem singleton (q : α × Score sh) : FirstBest [q] q := ⟨[], [], rfl, nofun, nofun⟩

theorem le (h : FirstBest l q) (hr : r ∈ l) : r.2 ≤ q.2 := by
  obtain ⟨before, after, rfl, hbefore, hafter⟩ := h
  rcases List.mem_append.1 hr with hr | hr
  · exact Score.le_of_lt (hbefore r hr)
  · rcases List.mem_cons.1 hr with rfl | hr
    · exact Score.le_refl _
    · exact hafter r hr

/-- A candidate that is better than the best so far is the best. -/
theorem concat_lt (h : FirstBest l q) (hr : q.2 < r.2) : FirstBest (l ++ [r]) r :=
  ⟨l, [], rfl, fun _ ht => Score.lt_of_le_of_lt (h.le ht) hr, nofun⟩

/-- A candidate that is no better changes nothing. -/
theorem concat_le (h : FirstBest l q) (hr : r.2 ≤ q.2) : FirstBest (l ++ [r]) q := by
  obtain ⟨before, after, rfl, hbefore, hafter⟩ := h
  refine ⟨before, after ++ [r], List.append_assoc _ _ _, hbefore, ?_⟩
  exact List.forall_mem_append.2 ⟨hafter, List.forall_mem_singleton.2 hr⟩

end FirstBest

/-! ## What foragers know -/

namespace Forager

/-- The forager waits for more than `n` accepted candidates. -/
def Awaits (f : Forager sh) (n : Nat) : Prop := ∀ k, f.limit = some k → n < k

theorem canStopEarly_eq (f : Forager sh) : f.canStopEarly = f.limit.isSome := by
  cases f <;> rfl

/-- A forager that does not wait has a limit. -/
theorem not_awaits {f : Forager sh} {n : Nat} (h : ¬f.Awaits n) :
    ∃ k, f.limit = some k ∧ k ≤ n := by
  unfold Awaits at h
  cases hlimit : f.limit with
  | none => exact absurd (fun k hk => by rw [hlimit] at hk; cases hk) h
  | some k =>
    refine ⟨k, rfl, Nat.le_of_not_lt fun hlt => h fun k' hk' => ?_⟩
    rw [hlimit] at hk'
    cases hk'
    exact hlt

end Forager

theorem clear_keepAll (l : List (α × Score sh)) (k : Forager sh × Arena α) :
    (keepAll l k).1.clear = k.1.clear := by
  induction l generalizing k with
  | nil => rfl
  | cons q l ih => exact (ih _).trans (k.1.clear_add _)

/-- The candidate that a pick stands for. -/
def Arena.find (x : Arena α) (p : Pick sh) : Option (α × Score sh) :=
  (x.get? p.index).map (·, p.score)

theorem Arena.find_push {x : Arena α} {p : Pick sh} {q : α × Score sh} (h : x.find p = some q)
    (m : α) : (x.push m).2.find p = some q := by
  obtain ⟨b, hb, rfl⟩ := Option.map_eq_some_iff.1 h
  unfold find
  rw [get?_push_of_get? hb m]
  rfl

theorem Arena.find_push_self (x : Arena α) (m : α) (a : Score sh) :
    (x.push m).2.find ⟨(x.push m).1, a⟩ = some (m, a) := by
  unfold find
  rw [get?_push_self]
  rfl

theorem Arena.getElem?_bind_find {x : Arena α} {ps : List (Pick sh)} {l : List (α × Score sh)}
    (h : ps.map x.find = l.map some) (i : Nat) : ps[i]?.bind x.find = l[i]? := by
  have hget : (ps.map x.find)[i]? = (l.map some)[i]? := congrArg (fun fs => fs[i]?) h
  rw [List.getElem?_map, List.getElem?_map] at hget
  generalize ps[i]? = p? at hget ⊢
  generalize l[i]? = q? at hget ⊢
  cases p? with
  | none =>
    cases q? with
    | none => rfl
    | some q => cases hget
  | some p =>
    cases q? with
    | none => cases hget
    | some q => exact Option.some.inj hget

/-- The forager and the arena were given the candidates `l`, and no others. -/
inductive Stocked (l : List (α × Score sh)) : Forager sh × Arena α → Prop
  | first {p? : Option (Pick sh)} {x : Arena α} (h : p?.map x.find = l.head?.map some) :
    Stocked l (.first p?, x)
  | best {limit : Option Nat} {p? : Option (Pick sh)} {x : Arena α}
    (none : p? = none → l = [])
    (some : ∀ p, p? = some p → ∃ q, x.find p = some q ∧ FirstBest l q) :
    Stocked l (.best limit l.length p?, x)
  | uniform {limit : Option Nat} {ps : List (Pick sh)} {x : Arena α}
    (h : ps.map x.find = l.map some) : Stocked l (.uniform limit ps, x)

namespace Stocked

variable {l : List (α × Score sh)} {k : Forager sh × Arena α}

theorem clear (f : Forager sh) (x : Arena α) : Stocked [] (f.clear, x) := by
  cases f with
  | first accepted => exact .first rfl
  | best limit count leader => exact .best (fun _ => rfl) nofun
  | uniform limit accepted => exact .uniform rfl

theorem keep (h : Stocked l k) (m : α) (a : Score sh) : Stocked (l ++ [(m, a)]) (keep m a k) := by
  cases h with
  | @first p? x h =>
    cases p? with
    | none =>
      obtain rfl : l = [] := by
        cases l with
        | nil => rfl
        | cons q l => cases h
      exact .first (congrArg some (x.find_push_self m a))
    | some p =>
      cases l with
      | nil => cases h
      | cons q l => exact .first (congrArg some (Arena.find_push (Option.some.inj h) m))
  | @best limit p? x hnone hsome =>
    have hlength : (l ++ [(m, a)]).length = l.length + 1 := List.length_append
    cases p? with
    | none =>
      obtain rfl := hnone rfl
      refine .best nofun fun p hp => ⟨(m, a), ?_, .singleton _⟩
      cases hp
      exact x.find_push_self m a
    | some p =>
      obtain ⟨q, hq, hbest⟩ := hsome p rfl
      have hscore : p.score = q.2 := by
        obtain ⟨b, -, rfl⟩ := Option.map_eq_some_iff.1 hq
        rfl
      show Stocked _ (.best limit (l.length + 1) (some (if p.score < a then _ else p)), _)
      rw [← hlength]
      refine .best nofun fun p' hp' => ?_
      rw [hscore] at hp'
      split at hp'
      · next hlt =>
        cases hp'
        exact ⟨(m, a), x.find_push_self m a, hbest.concat_lt hlt⟩
      · next hle =>
        cases hp'
        exact ⟨q, Arena.find_push hq m, hbest.concat_le (Score.not_lt.1 hle)⟩
  | @uniform limit ps x h =>
    refine .uniform ?_
    rw [List.map_append, List.map_append, ← h]
    refine congrArg₂ (· ++ ·) (List.map_congr_left fun p hp => ?_) ?_
    · obtain ⟨q, -, hq⟩ := List.mem_map.1 (h ▸ List.mem_map_of_mem hp)
      rw [← hq]
      exact Arena.find_push hq.symm m
    · exact congrArg (fun q => [q]) (x.find_push_self m a)

theorem keepAll (f : Forager sh) (l : List (α × Score sh)) :
    Stocked l (keepAll l (f.clear, .empty)) := by
  induction l using List.reverseRecOn with
  | nil => exact clear f .empty
  | append_singleton l q ih =>
    rw [keepAll_concat]
    exact ih.keep q.1 q.2

theorem isDone_iff (h : Stocked l k) : k.1.isDone ↔ ¬k.1.Awaits l.length := by
  have hany : ∀ limit : Option Nat, (limit.any fun n => n ≤ l.length) ↔
      ¬∀ n, limit = some n → l.length < n := by
    intro limit
    cases limit with
    | none => exact ⟨nofun, fun h => absurd nofun h⟩
    | some n => simp
  cases h with
  | @first p? x h =>
    have hsome : p?.isSome = l.head?.isSome := by
      rw [← Option.isSome_map (f := x.find), h, Option.isSome_map]
    show p?.isSome ↔ _
    rw [hsome]
    cases l with
    | nil => exact ⟨nofun, fun h => absurd (fun k hk => by cases hk; exact Nat.one_pos) h⟩
    | cons q l => exact ⟨fun _ h => absurd (h 1 rfl) (by simp), fun _ => rfl⟩
  | best => exact hany _
  | @uniform limit ps x h =>
    have hlength : ps.length = l.length := by
      rw [← List.length_map (f := x.find), h, List.length_map]
    show (limit.any fun n => n ≤ ps.length) ↔ _
    rw [hlength]
    exact hany _

end Stocked

/-! ## Winners -/

/-- A forager like `f` that was given the candidates `l` takes the winner `q?`, and leaves `source'`
of the random numbers. -/
def Wins (f : Forager sh) (source : Source) (l : List (α × Score sh)) (q? : Option (α × Score sh))
    (source' : Source) : Prop :=
  match f with
  | .first _ => q? = l.head? ∧ source' = source
  | .best _ _ _ => (q?.elim (l = []) (FirstBest l)) ∧ source' = source
  | .uniform _ _ => q? = l[(source.below l.length).1]? ∧
      source' = if l.isEmpty then source else (source.below l.length).2

theorem wins_clear {f : Forager sh} {source source' : Source} {l : List (α × Score sh)}
    {q? : Option (α × Score sh)} :
    Wins f.clear source l q? source' ↔ Wins f source l q? source' := by
  cases f <;> rfl

theorem Stocked.wins {l : List (α × Score sh)} {f : Forager sh} {x : Arena α} (h : Stocked l (f, x))
    (source : Source) :
    Wins f source l ((f.pick source).1.bind x.find) (f.pick source).2.2 := by
  cases h with
  | @first p? x h =>
    refine ⟨?_, rfl⟩
    show p?.bind x.find = l.head?
    cases p? with
    | none => cases l with
      | nil => rfl
      | cons q l => cases h
    | some p => cases l with
      | nil => cases h
      | cons q l => exact Option.some.inj h
  | @best limit p? x hnone hsome =>
    refine ⟨?_, rfl⟩
    show (p?.bind x.find).elim _ _
    cases p? with
    | none => exact hnone rfl
    | some p =>
      obtain ⟨q, hq, hbest⟩ := hsome p rfl
      show (x.find p).elim _ _
      rw [hq]
      exact hbest
  | @uniform limit ps x h =>
    cases ps with
    | nil =>
      obtain rfl := List.map_eq_nil_iff.1 h.symm
      exact ⟨rfl, rfl⟩
    | cons p ps =>
      cases l with
      | nil => cases h
      | cons q l =>
        have hlength : (q :: l).length = (p :: ps).length := by
          rw [← List.length_map (f := some), ← h, List.length_map]
        refine ⟨?_, ?_⟩
        · rw [hlength]
          exact Arena.getElem?_bind_find h _
        · rw [hlength]
          rfl

namespace LocalSearch

/-! ## What the forager has while candidates are collected -/

/-- The forager waits for more candidates than were accepted among `seen`. -/
def Waits (p : LocalSearch S V sh) (last : Score sh) (seen : List (Move S V × Score sh)) : Prop :=
  p.forager.Awaits (p.accepted last seen).length

/-- The forager has waited so far; `ps` were drawn and are still to be considered. -/
structure Waiting (b : Searching W S V sh) (last : Score sh) (d : Draws) (ps : List (Move S V))
    (x : Accounted W S V sh) : Prop extends Counted b last d x where
  waits : ∀ seen, seen <+: x.2.seen → b.1.Waits last seen
  latest : b.1.batchSize = 1 → ∀ m ∈ ps, ps = [m] ∧ ∃ ms, x.2.drawn = ms ++ [m]

/-- The forager waited up to the last candidate, and if it waits no more then it was done with that
one. -/
structure Waited (b : Searching W S V sh) (last : Score sh) (x : Accounted W S V sh) : Prop extends
    Kept b last x where
  waits : ∀ seen, seen <+: x.2.seen → seen ≠ x.2.seen → b.1.Waits last seen
  enough : ¬b.1.Waits last x.2.seen → ∃ ms seen m a,
    x.2.seen = seen ++ [(m, a)] ∧ (b.1.batchSize = 1 → x.2.drawn = ms ++ [m])

section

variable {b s : Searching W S V sh} {last a : Score sh} {k : Account S V sh} {m : Move S V}
  {d : Draws} {ps : List (Move S V)} {x : Accounted W S V sh}

theorem Waiting.waited (h : Waiting b last d ps x) : Waited b last x where
  toKept := h.toKept
  waits seen hseen _ := h.waits seen hseen
  enough hdone := absurd (h.waits _ (List.prefix_refl _)) hdone

theorem Kept.clear_forager (h : Kept b last x) : x.1.1.forager.clear = b.1.forager.clear := by
  rw [show x.1.1.forager = _ from congrArg Prod.fst h.kept, clear_keepAll]

/-- A forager that was clear when the step began has the accepted candidates of the step. -/
theorem Kept.stocked (h : Kept b last x) (hclear : b.1.forager.clear = b.1.forager)
    (hempty : b.1.arena = .empty) :
    Stocked (b.1.accepted last x.2.seen) (x.1.1.forager, x.1.1.arena) := by
  rw [h.kept, ← hclear, hempty]
  exact .keepAll _ _

theorem Kept.isDone_iff (h : Kept b last x) (hclear : b.1.forager.clear = b.1.forager)
    (hempty : b.1.arena = .empty) : x.1.1.forager.isDone ↔ ¬b.1.Waits last x.2.seen := by
  have hlimit : x.1.1.forager.limit = b.1.forager.limit := by
    rw [← x.1.1.forager.limit_clear, h.clear_forager, Forager.limit_clear]
  have hdone := (h.stocked hclear hempty).isDone_iff
  unfold Forager.Awaits at hdone
  dsimp only at hdone
  rw [hlimit] at hdone
  exact hdone

end

variable [Plan S sh] [Workspace W S sh] [DecidableEq V] [ToString V]

/-- Everything that a step does while it collects keeps the forager waiting, or is the last. -/
theorem Waiting.audit {b : Searching W S V sh} (hclear : b.1.forager.clear = b.1.forager)
    (hempty : b.1.arena = .empty) (last : Score sh) :
    Audit last b.1.batchSize (Waiting b last) (Waited b last) where
  upheld h := h.waited
  dry h _ _ := { h with }
  draw {d ps s k m} h _ _ hps _ _ := by
    refine ⟨h.toCounted.draw m, h.waits, fun hone m' hm' => ?_⟩
    rw [hone, Nat.lt_one_iff, List.length_eq_zero_iff] at hps
    subst hps
    obtain rfl : m' = m := List.mem_singleton.1 hm'
    exact ⟨rfl, k.drawn, rfl⟩
  illegal {d ps s k m} h _ _ hps _ _ := by
    refine ⟨(h.toCounted.draw m).refuse, h.waits, fun hone m' hm' => ?_⟩
    rw [hone, Nat.lt_one_iff, List.length_eq_zero_iff] at hps
    subst hps
    cases hm'
  score h _ := { h with }
  fail h _ := { h.waited with }
  consider {d ps s k m a} h := by
    have hcounted := h.toCounted.consider m a
    have hlatest := fun hone => h.latest hone m List.mem_cons_self
    have hwaits : ∀ seen, seen <+: k.seen → b.1.Waits last seen := h.waits
    refine ⟨⟨hcounted.toKept, fun seen hseen hne => ?_, fun _ => ?_⟩, fun hdone => ?_⟩
    · exact hwaits seen ((List.prefix_concat_iff.1 hseen).resolve_left hne)
    · by_cases hone : b.1.batchSize = 1
      · obtain ⟨-, ms, hms⟩ := hlatest hone
        exact ⟨ms, k.seen, m, a, rfl, fun _ => hms⟩
      · exact ⟨[], k.seen, m, a, rfl, fun h => absurd h hone⟩
    · refine ⟨hcounted, fun seen hseen => ?_, fun hone m' hm' => ?_⟩
      · rcases List.prefix_concat_iff.1 hseen with rfl | hseen
        · refine Classical.not_not.1 fun hnot => ?_
          rw [(hcounted.isDone_iff hclear hempty).2 hnot] at hdone
          cases hdone
        · exact hwaits seen hseen
      · obtain ⟨hps, -⟩ := hlatest hone
        rw [(List.cons.inj hps).2] at hm'
        cases hm'

/-! ## Steps -/

/-- The rest of a step, once its winner is known. -/
def carryOut (last : Score sh) (m? : Option (Move S V)) :
    Action (Searching W S V sh) (Option (Score sh)) := do
  match m? with
  | none =>
    fire .stepEnded last
    return none
  | some m =>
    let stepIndex := (← get).2.span.steps
    let score ← onScope (Scope.onRun (commit m stepIndex))
    let _ ← onScope Scope.completeStep
    fire .stepEnded score
    return some score

theorem step_eq (fuel : Nat) (last : Score sh) (s : Searching W S V sh) :
    step fuel last s = (forage fuel last >>= carryOut last) (begun last s) := by
  unfold step
  rw [fire_bind, mapPhase_bind]
  rfl

/-- How the step that began in `s` ends where nothing fails. -/
inductive Stops (s : Searching W S V sh) (last : Score sh) (k : Account S V sh) : Prop
  /-- The candidate that was drawn and considered last is the last that the forager waited for. -/
  | enough {limit : Nat} (hlimit : s.1.forager.limit = some limit)
    {ms : List (Move S V)} {seen : List (Move S V × Score sh)} {m : Move S V} {a : Score sh}
    (drawn : k.drawn = ms ++ [m]) (seen : k.seen = seen ++ [(m, a)])
    (accepts : s.1.acceptance.accepts last a) (full : (s.1.accepted last k.seen).length = limit)
  /-- The forager waits for more, but there are no more candidates or no more may be drawn. -/
  | over (waits : s.1.Waits last k.seen)
    (h : k.dry ∨ ∃ d : Draws, d.drawn = k.drawn.length ∧ s.1.mayDraw d = false)

section

omit [Plan S sh] [DecidableEq V] [ToString V]

variable {s g : Searching W S V sh} {last : Score sh} {k : Account S V sh} {fuel : Nat}

/-- Whether a candidate may be drawn is a matter of the setup. -/
theorem mayDraw_congr {p p' : LocalSearch S V sh} (h : p.setup = p'.setup) (d : Draws) :
    p.mayDraw d = p'.mayDraw d := by
  unfold mayDraw
  rw [show p.candidateLimit = p'.candidateLimit from congrArg Setup.candidateLimit h,
    show p.neighbourhood.tree = p'.neighbourhood.tree from congrArg Setup.tree h]

theorem waits_begun {seen : List (Move S V × Score sh)} :
    (begun last s).1.Waits last seen ↔ s.1.Waits last seen := by
  unfold Waits Forager.Awaits
  rw [accepted_begun, show (begun last s).1.forager = s.1.forager.clear from rfl,
    Forager.limit_clear]

/-- A forager that may stop early sees a candidate before the next one is drawn. -/
theorem batchSize_begun {limit : Nat} (h : s.1.forager.limit = some limit) :
    (begun last s).1.batchSize = 1 := by
  have hearly : (begun last s).1.forager.canStopEarly = true := by
    show (s.1.forager.hear .stepStarted).canStopEarly = true
    rw [Forager.canStopEarly_hear, Forager.canStopEarly_eq, h]
    rfl
  unfold batchSize
  rw [hearly]
  split <;> rfl

theorem Closed.stops
    (h : Closed (Waiting (begun last s) last) (Waited (begun last s) last) (g, k)) :
    Stops s last k := by
  have hclear : (begun last s).1.forager.clear = (begun last s).1.forager := s.1.forager.clear_clear
  obtain ⟨hwaited, hdone⟩ | @⟨d, hwaiting, hdry⟩ | @⟨d, hwaiting, hd⟩ := h
  · have hnot := (hwaited.isDone_iff hclear rfl).1 hdone
    obtain ⟨ms, seen, m, a, hseen, hdrawn⟩ := hwaited.enough hnot
    have hne : seen ≠ k.seen := fun h => by
      rw [hseen] at h
      exact List.cons_ne_nil _ _ (List.self_eq_append_right.1 h)
    have hbefore := waits_begun.1 (hwaited.waits seen (hseen ▸ List.prefix_append _ _) hne)
    obtain ⟨limit, hlimit, hle⟩ := Forager.not_awaits (mt waits_begun.2 hnot)
    have hlt : (s.1.accepted last seen).length < limit := hbefore limit hlimit
    have hconcat := s.1.accepted_concat last seen m a
    rw [← hseen] at hconcat
    rw [hconcat] at hle
    split at hle
    · next hacc =>
      refine .enough hlimit (hdrawn (batchSize_begun hlimit)) hseen hacc ?_
      rw [hconcat, if_pos hacc]
      rw [List.length_append, List.length_singleton] at hle ⊢
      exact Nat.le_antisymm (Nat.succ_le_of_lt hlt) hle
    · exact absurd hle (Nat.not_le_of_lt hlt)
  · exact .over (waits_begun.1 (hwaiting.waits _ (List.prefix_refl _))) (.inl hdry)
  · refine .over (waits_begun.1 (hwaiting.waits _ (List.prefix_refl _))) (.inr ⟨d, ?_, ?_⟩)
    · exact hwaiting.drawn.symm
    · rw [← hd]
      exact (mayDraw_congr hwaiting.setup d).symm

omit [Workspace W S sh] in
/-- The arena holds the candidate of the winner. -/
theorem map_fst_find (s : Searching W S V sh) :
    ((winner s).bind s.1.arena.find).map Prod.fst =
      (winner s).bind fun p => s.1.arena.get? p.index := by
  rw [Option.map_bind]
  refine congrArg (Option.bind (winner s)) (funext fun p => ?_)
  show ((s.1.arena.get? p.index).map _).map _ = _
  rw [Option.map_map]
  exact Option.map_id'

end

/-- A step collects candidates until one is the last that the forager waits for, and no earlier; or
until there are no more, or until no more may be drawn. Then it carries out the winner among the
accepted ones. -/
theorem step_takes_winner (fuel : Nat) (last : Score sh) (s : Searching W S V sh)
    (hlimit : s.1.forager.limit ≠ some 0) :
    let b := begun last s
    let k := account fuel last b
    forget (gatherAccounted fuel last (b, {})) = gather fuel last b ∧
    (∀ seen, seen <+: k.seen → seen ≠ k.seen → s.1.Waits last seen) ∧
    match gather fuel last b with
    | .error f g => step fuel last s = .error f g
    | .ok _ g => Stops s last k ∧ ∃ q? forager arena source,
        Wins s.1.forager g.2.run.source (s.1.accepted last k.seen) q? source ∧
        step fuel last s = carryOut last (q?.map Prod.fst)
          ({ g.1 with forager, arena }, g.2.mapRun fun r => { r with source }) := by
  have hclear : (begun last s).1.forager.clear = (begun last s).1.forager := s.1.forager.clear_clear
  have haudit := Waiting.audit (b := begun last s) hclear rfl last
  have hbegin : Waiting (begun last s) last {} [] (begun last s, {}) := by
    refine ⟨.begin _ last, fun seen hseen => ?_, nofun⟩
    obtain rfl := List.prefix_nil.1 hseen
    rw [waits_begun]
    intro k hk
    exact Nat.pos_of_ne_zero fun h0 => hlimit (h0 ▸ hk)
  have hidle : (begun last s).1.threads = some 0 → ∀ {d ps} {x : Accounted W S V sh},
      Waiting (begun last s) last d ps x → Waiting (begun last s) last d [] x :=
    fun _ _ _ _ h => { h with latest := nofun }
  refine ⟨recounts_gather fuel last _ _, fun seen hseen hne => ?_, ?_⟩
  · obtain ⟨_, hwaited⟩ := haudit.account fuel hidle hbegin
    exact waits_begun.1 (hwaited.waits seen hseen hne)
  · rw [step_eq]
    cases hgather : gather fuel last (begun last s) with
    | error f g =>
      refine Step.bind_error ?_
      rw [forage_eq]
      exact Step.bind_error hgather
    | ok _ g =>
      have hclosed := haudit.closed hidle hbegin hgather
      refine ⟨hclosed.stops, ?_⟩
      have hkept : Kept (begun last s) last (g, account fuel last (begun last s)) := by
        obtain ⟨h, -⟩ | ⟨h, -⟩ | ⟨h, -⟩ := hclosed
        · exact h.toKept
        · exact h.toKept
        · exact h.toKept
      have hstocked := hkept.stocked hclear rfl
      rw [accepted_begun] at hstocked
      have hwins := wins_clear.2 (hstocked.wins g.2.run.source)
      rw [hkept.clear_forager, hclear] at hwins
      obtain ⟨arena, htake⟩ := takeWinner_eq g
      refine ⟨(winner g).bind g.1.arena.find, (g.1.forager.pick g.2.run.source).2.1, arena, _,
        wins_clear.1 hwins, Step.bind_ok ?_⟩
      rw [forage_eq, Step.bind_ok hgather, map_fst_find]
      exact htake

end LocalSearch

/-! ## A step on a row -/

namespace Row

/-- Two cells to be filled, by a search with a forager that an earlier step left behind. -/
def reused : LocalSearch.Searching (RecomputingWorkspace Row .simple) Row Nat .simple :=
  ({ search with forager := .best (some 2) 2 (some ⟨1, default⟩) },
    ⟨{ index := 0 }, { run with workspace := workspace [none, none] }⟩)

/-- The score of the row without its values. -/
def blank : Score .simple := .single 0 (-2)

/-- The step sees both candidates and takes one of them. -/
theorem step_takes_winner_reused : reused.1.forager.limit ≠ some 0 ∧
    ∃ g q forager arena source,
      LocalSearch.gather 5 blank (LocalSearch.begun blank reused) = .ok () g ∧
      LocalSearch.Stops reused blank
        (LocalSearch.account 5 blank (LocalSearch.begun blank reused)) ∧
      Wins reused.1.forager g.2.run.source (reused.1.accepted blank
        (LocalSearch.account 5 blank (LocalSearch.begun blank reused)).seen) (some q) source ∧
      LocalSearch.step 5 blank reused = LocalSearch.carryOut blank (some q.1)
        ({ g.1 with forager, arena }, g.2.mapRun fun r => { r with source }) := by
  have hlimit : reused.1.forager.limit ≠ some 0 := by decide
  refine ⟨hlimit, ?_⟩
  have hlength : (reused.1.accepted blank
      (LocalSearch.account 5 blank (LocalSearch.begun blank reused)).seen).length = 2 := by
    decide +kernel
  have hok : (match LocalSearch.gather 5 blank (LocalSearch.begun blank reused) with
      | .ok _ _ => true
      | .error _ _ => false) = true := by decide +kernel
  obtain ⟨-, -, htakes⟩ := LocalSearch.step_takes_winner 5 blank reused hlimit
  cases e : LocalSearch.gather 5 blank (LocalSearch.begun blank reused) with
  | error f g =>
    rw [e] at hok
    cases hok
  | ok _ g =>
    rw [e] at htakes
    obtain ⟨hstops, q?, forager, arena, source, hwins, hstep⟩ := htakes
    cases q? with
    | none =>
      rw [show reused.1.accepted blank _ = [] from hwins.1] at hlength
      cases hlength
    | some q => exact ⟨g, q, forager, arena, source, rfl, hstops, hwins, hstep⟩

end Row

end PlanSearch
