import PlanSearch.Phase.LocalSearch
import PlanSearch.Proofs.Neighbourhood.Draws
import PlanSearch.Proofs.Phase.Scope
import PlanSearch.Proofs.Search.Evaluation
import PlanSearch.Proofs.Search.Forager

/-!
# Collecting the candidates of a step

While a step collects candidates, the plan stays what it was when the step began, and the forager and
the arena hold those of the candidates considered so far that the acceptance rule took. Every candidate
was considered with the score that it leads to.

    Collecting … b last seen s → draw s = .ok m? t → Collecting … b last seen t     (Collecting.draw)
    Collecting … b last seen s → consider last m a d s = .ok d' t →
      Collecting … b last (seen ++ [(m, a)]) t                                  (Collecting.consider)
-/

namespace PlanSearch

variable {W S V : Type} {sh : Shape}

namespace LocalSearch

/-- Those of the candidates that the acceptance rule takes. -/
def accepted (p : LocalSearch S V sh) (last : Score sh) (seen : List (Move S V × Score sh)) :
    List (Move S V × Score sh) :=
  seen.filter fun q => p.acceptance.accepts last q.2

theorem accepted_concat (p : LocalSearch S V sh) (last : Score sh)
    (seen : List (Move S V × Score sh)) (m : Move S V) (a : Score sh) :
    p.accepted last (seen ++ [(m, a)]) =
      if p.acceptance.accepts last a then p.accepted last seen ++ [(m, a)]
      else p.accepted last seen := by
  unfold accepted
  rw [List.filter_append]
  split
  · next h => rw [List.filter_cons_of_pos (by exact h), List.filter_nil]
  · next h => rw [List.filter_cons_of_neg (by exact h), List.filter_nil, List.append_nil]

theorem record_bind {α : Type} (f : Stats → Stats) (g : Unit → Action (Searching W S V sh) α)
    (s : Searching W S V sh) :
    (record f >>= g) s = g () (s.1, s.2.mapRun (Run.record f)) := rfl

/-- The state after a candidate was considered. -/
def considered (last : Score sh) (m : Move S V) (a : Score sh) (s : Searching W S V sh) :
    Searching W S V sh :=
  let accepted := s.1.acceptance.accepts last a
  (if accepted then
      { s.1 with
        forager := (keep m a (s.1.forager, s.1.arena)).1
        arena := (keep m a (s.1.forager, s.1.arena)).2 }
    else s.1, s.2.mapRun (Run.record (Stats.recordMove accepted)))

/-- The draws of a step after a candidate with the score `a` was considered. -/
def judged (p : LocalSearch S V sh) (last a : Score sh) (d : Draws) : Draws :=
  if p.acceptance.accepts last a then d.accept else d.refuse

theorem consider_eq (last : Score sh) (m : Move S V) (a : Score sh) (d : Draws)
    (s : Searching W S V sh) :
    consider last m a d s = .ok (s.1.judged last a d) (considered last m a s) := by
  unfold consider considered judged
  rw [Step.get_bind, record_bind]
  dsimp only
  split <;> rfl

/-- Considering a candidate draws none. -/
theorem neighbourhood_considered (last : Score sh) (m : Move S V) (a : Score sh)
    (s : Searching W S V sh) : (considered last m a s).1.neighbourhood = s.1.neighbourhood := by
  unfold considered
  dsimp only
  split <;> rfl

theorem consider_bind {α : Type} (last : Score sh) (m : Move S V) (a : Score sh) (d : Draws)
    (f : Draws → Action (Searching W S V sh) α) (s : Searching W S V sh) :
    (consider last m a d >>= f) s = f (s.1.judged last a d) (considered last m a s) := by
  show EStateM.bind _ f s = _
  unfold EStateM.bind
  rw [consider_eq]

/-- The forager's winner among the candidates that were collected. -/
def winner (s : Searching W S V sh) : Option (Pick sh) := (s.1.forager.pick s.2.run.source).1

/-- Takes the winner out of the arena. -/
def takeWinner : Action (Searching W S V sh) (Option (Move S V)) := fun s =>
  let (winner, forager, source) := s.1.forager.pick s.2.run.source
  let (m, arena) : Option (Move S V) × Arena (Move S V) :=
    match winner with
    | none => (none, s.1.arena)
    | some winner => s.1.arena.take winner.index
  .ok m ({ s.1 with forager, arena }, s.2.mapRun fun r => { r with source })

theorem takeWinner_eq (s : Searching W S V sh) : ∃ arena,
    takeWinner s = .ok ((winner s).bind fun p => s.1.arena.get? p.index)
      ({ s.1 with forager := (s.1.forager.pick s.2.run.source).2.1, arena },
        s.2.mapRun fun r => { r with source := (s.1.forager.pick s.2.run.source).2.2 }) := by
  unfold takeWinner winner
  generalize s.1.forager.pick s.2.run.source = q
  obtain ⟨winner, forager, source⟩ := q
  cases winner with
  | none => exact ⟨_, rfl⟩
  | some winner => exact ⟨_, rfl⟩

theorem takeWinner_eq_ok {s t : Searching W S V sh} {m? : Option (Move S V)}
    (e : takeWinner s = .ok m? t) :
    m? = (winner s).bind (fun p => s.1.arena.get? p.index) ∧ ∃ forager arena source,
      t = ({ s.1 with forager, arena }, s.2.mapRun fun r => { r with source }) := by
  obtain ⟨arena, h⟩ := takeWinner_eq s
  rw [h] at e
  cases e
  exact ⟨rfl, _, _, _, rfl⟩

end LocalSearch

variable [Plan S sh]

namespace Neighbourhood

/-- Draws on plans that count as `p` lead from the walk of `n` to another. -/
inductive Reaches (same : S → S → Prop) (p : S) (n : Neighbourhood S V) :
    Neighbourhood S V → Prop
  | refl : Reaches same p n n
  | next {n' : Neighbourhood S V} {q : S} (source : Source) :
    Reaches same p n n' → same p q → Reaches same p n (n'.next q source).2.1

theorem Reaches.tree_eq {same : S → S → Prop} {p : S} {n n' : Neighbourhood S V}
    (h : Reaches same p n n') : n'.tree = n.tree := by
  induction h with
  | refl => rfl
  | next _ _ _ ih => exact ih

end Neighbourhood

theorem Lenses.of_movable {X : Variable S V → Prop} {same : S → S → Prop} {p q : S}
    (h : Lenses X same) (hpq : same p q) (x : Variable S V) (hx : X x) :
    ∀ e ∈ Plan.movable q x.family, Slot.Of X p ⟨x, e⟩ := by
  intro e he
  refine ⟨hx, ?_⟩
  have hlt : e < Plan.entityCount q x.family := List.mem_range.1 (List.mem_filter.1 he).1
  rw [← (h.agree hpq).entityCount] at hlt
  exact hlt

namespace LocalSearch

variable [Workspace W S sh]

/-- A step that started with the walk of `n` and the plan `p` drew `m` and found it doable. -/
structure Drawn [DecidableEq V] (X : Variable S V → Prop) (same : S → S → Prop)
    (n : Neighbourhood S V) (p : S) (m : Move S V) : Prop where
  of : m.Of X p
  doable : ∃ n' q source, n.Reaches same p n' ∧ same p q ∧ (n'.next q source).1 = some m ∧
    m.isDoable q

/-- The drawn candidate leads to the score `a`. -/
structure Scored [DecidableEq V] (X : Variable S V → Prop) (same : S → S → Prop) (good : W → Prop)
    (n : Neighbourhood S V) (p : S) (m : Move S V) (a : Score sh) : Prop extends
    Drawn X same n p m where
  leadsTo : m.LeadsTo same good p a

/-- The state `s` in the middle of collecting, which began at `b`; the candidates `seen` were
considered so far. -/
structure Collecting [DecidableEq V] (X : Variable S V → Prop) (same : S → S → Prop)
    (good : W → Prop) (b : Searching W S V sh) (last : Score sh)
    (seen : List (Move S V × Score sh)) (s : Searching W S V sh) : Prop where
  holds : Workspace.Holds same good b.2.run.plan s.2.run.workspace
  reaches : b.1.neighbourhood.Reaches same b.2.run.plan s.1.neighbourhood
  within : s.1.neighbourhood.Within (Slot.Of X b.2.run.plan)
  acceptance : s.1.acceptance = b.1.acceptance
  trace : s.2.run.trace = b.2.run.trace
  scored : ∀ q ∈ seen, Scored X same good b.1.neighbourhood b.2.run.plan q.1 q.2
  kept : (s.1.forager, s.1.arena) = keepAll (b.1.accepted last seen) (b.1.forager, b.1.arena)

/-! ## What the actions do -/

/-- The candidate that is drawn next. -/
def nextMove (s : Searching W S V sh) : Option (Move S V) :=
  (s.1.neighbourhood.next s.2.run.plan s.2.run.source).1

/-- The state after a draw. -/
def drawn (s : Searching W S V sh) : Searching W S V sh :=
  ({ s.1 with neighbourhood := (s.1.neighbourhood.next s.2.run.plan s.2.run.source).2.1 },
    s.2.mapRun fun r =>
      { r with source := (s.1.neighbourhood.next s.2.run.plan s.2.run.source).2.2 })

theorem draw_eq (s : Searching W S V sh) : draw s = .ok (nextMove s) (drawn s) := rfl

theorem draw_bind {α : Type} (f : Option (Move S V) → Action (Searching W S V sh) α)
    (s : Searching W S V sh) : (draw >>= f) s = f (nextMove s) (drawn s) := rfl

theorem isDoable_eq [DecidableEq V] (m : Move S V) (s : Searching W S V sh) :
    isDoable m s = .ok (m.isDoable s.2.run.plan) s := rfl

theorem isDoable_bind [DecidableEq V] {α : Type} (m : Move S V)
    (f : Bool → Action (Searching W S V sh) α) (s : Searching W S V sh) :
    (isDoable m >>= f) s = f (m.isDoable s.2.run.plan) s := rfl

/-! ## Steps of collecting -/

variable [DecidableEq V] {X : Variable S V → Prop} {same : S → S → Prop} {good : W → Prop}
  {b s t : Searching W S V sh} {last a : Score sh} {seen : List (Move S V × Score sh)}
  {m : Move S V} {d d' : Draws}

namespace Collecting

theorem record (h : Collecting X same good b last seen s) (f : Stats → Stats) :
    Collecting X same good b last seen (s.1, s.2.mapRun (Run.record f)) := { h with }

theorem workspace (h : Collecting X same good b last seen s) {w : W}
    (hw : Workspace.Holds same good b.2.run.plan w) :
    Collecting X same good b last seen
      (s.1, { s.2 with run := { s.2.run with workspace := w } }) := { h with holds := hw }

theorem draw (h : Collecting X same good b last seen s) (hl : Lenses X same)
    (ht : b.1.neighbourhood.tree.Over X) {m? : Option (Move S V)}
    (e : LocalSearch.draw s = .ok m? t) :
    Collecting X same good b last seen t ∧
      ∀ m, m? = some m → m.isDoable t.2.run.plan →
        Drawn X same b.1.neighbourhood b.2.run.plan m := by
  rw [draw_eq] at e
  cases e
  have hsame : same b.2.run.plan s.2.run.plan := h.holds.same
  obtain ⟨hwithin, hof⟩ :=
    h.within.next (h.reaches.tree_eq ▸ ht) (hl.of_movable hsame) s.2.run.source
  exact ⟨{ h with within := hwithin, reaches := h.reaches.next s.2.run.source hsame },
    fun m hm hdo => ⟨hof m hm, _, s.2.run.plan, _, h.reaches, hsame, hm, hdo⟩⟩

theorem consider (h : Collecting X same good b last seen s)
    (hm : Scored X same good b.1.neighbourhood b.2.run.plan m a)
    (e : LocalSearch.consider last m a d s = .ok d' t) :
    Collecting X same good b last (seen ++ [(m, a)]) t := by
  rw [consider_eq] at e
  cases e
  unfold considered
  have hscored : ∀ q ∈ seen ++ [(m, a)],
      Scored X same good b.1.neighbourhood b.2.run.plan q.1 q.2 :=
    List.forall_mem_append.2 ⟨h.scored, List.forall_mem_singleton.2 hm⟩
  have hkept := h.kept
  have hconcat := b.1.accepted_concat last seen m a
  dsimp only
  split
  · next hacc =>
    rw [h.acceptance] at hacc
    rw [if_pos hacc] at hconcat
    refine { h with scored := hscored, kept := ?_ }
    rw [hconcat, keepAll_concat, ← hkept]
  · next hacc =>
    rw [h.acceptance] at hacc
    rw [if_neg hacc] at hconcat
    refine { h with scored := hscored, kept := ?_ }
    rw [hconcat]
    exact hkept

end Collecting

/-! ## The whole collection -/

variable [ToString V]

/-- Collects all candidates of a step, in the way that the search is set up for. -/
def gather (fuel : Nat) (last : Score sh) : Action (Searching W S V sh) Unit := fun s =>
  match s.1.threads with
  | none => collect last fuel {} s
  | some threads =>
    let size := if s.1.forager.canStopEarly then 1 else threads * batchPerThread
    collectBatches threads size last fuel {} s

/-- A step collects candidates and then takes the winner out of the arena. -/
theorem forage_eq (fuel : Nat) (last : Score sh) (s : Searching W S V sh) :
    forage fuel last s = (gather fuel last >>= fun _ => takeWinner) s := by
  unfold forage
  show EStateM.bind _ _ s = EStateM.bind _ _ s
  unfold EStateM.bind gather
  dsimp only [get, getThe, MonadStateOf.get, EStateM.get]
  cases s.1.threads with
  | none =>
    show EStateM.bind _ _ _ = _
    unfold EStateM.bind
    cases collect last fuel {} s <;> rfl
  | some threads =>
    show EStateM.bind _ _ _ = _
    unfold EStateM.bind
    dsimp only
    cases collectBatches threads _ last fuel {} s <;> rfl

end LocalSearch

end PlanSearch
