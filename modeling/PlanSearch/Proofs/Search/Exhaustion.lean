import PlanSearch.Proofs.Mirror.Search
import PlanSearch.Proofs.Neighbourhood.Enumeration
import PlanSearch.Proofs.Neighbourhood.Respect
import PlanSearch.Proofs.Search.Loop

/-!
# Steps that exhaust the neighbourhood

While a step collects candidates from an orderly neighbourhood, every move of the neighbourhood is
yet to be drawn, or it was drawn and is to be considered, or it cannot be applied, or it was
considered, the order of ends aside. So if there are no more candidates, every move that can be
applied was considered.

    n.Orderly same p → n.next q s yields a move of n.left p               (Orderly.next)
    Surveying … seen dry ps s is kept by all that collecting does         (Surveying.rounds)
-/

namespace PlanSearch

variable {W S V : Type} {sh : Shape}

/-! ## Orderly walks -/

/-- Nothing gets lost between lists that are arranged alike. -/
theorem Slack.Arranges.exists_mem {α β : Type} {k : Slack} {norm : α → β} {l l' : List α} {a : α}
    (h : k.Arranges norm l l') (ha : a ∈ l') : ∃ b ∈ l, norm b = norm a := by
  have hmem := h.perm_map.mem_iff.2 (List.mem_map_of_mem (f := norm) ha)
  obtain ⟨b, hb, hnorm⟩ := List.mem_map.1 hmem
  exact ⟨b, hb, hnorm⟩

namespace Neighbourhood

variable [Plan S sh] {same : S → S → Prop} {p q : S} {n : Neighbourhood S V}

/-- What the walk has yet to visit. -/
def left (p : S) (n : Neighbourhood S V) : List (Move S V) := n.tree.left p n.walk

/-- A walk that visits the neighbourhood of `p` in order, on whatever plans count as `p`. -/
structure Orderly (same : S → S → Prop) (p : S) (n : Neighbourhood S V) : Prop where
  leavesIn : n.tree.LeavesIn (· ≠ .random)
  filters : n.tree.FiltersIgnoreEnds p
  blind : n.tree.Blind same
  steady : n.tree.Steady p n.walk

/-- A walk that was started over has all moves of the neighbourhood left. -/
theorem orderly_hear (hleaves : n.tree.LeavesIn (· ≠ .random)) (hfilters : n.tree.FiltersIgnoreEnds p)
    (hblind : n.tree.Blind same) (q : S) {e : Event} (he : e.restarts) :
    (n.hear q e).Orderly same p ∧ (n.hear q e).left p = n.tree.moves p := by
  have hready : n.tree.Ready (n.hear q e).walk := Tree.ready_hear q he n.tree n.walk
  exact ⟨⟨hleaves, hfilters, hblind, Tree.Ready.steady n.tree _ hready⟩,
    Tree.left_eq_moves p n.tree _ hready⟩

namespace Orderly

theorem next (h : n.Orderly same p) (hpq : same p q) (s : Source) :
    (n.next q s).2.1.Orderly same p ∧
      n.tree.slack.Yields Move.upright (n.next q s).1 (n.left p) ((n.next q s).2.1.left p) := by
  rw [← next_congr h.blind hpq]
  have hnext := Tree.Steady.next n.tree n.walk h.leavesIn h.filters h.steady s
  exact ⟨⟨h.leavesIn, h.filters, h.blind, hnext.1⟩, hnext.2⟩

theorem next_none (h : n.Orderly same p) (hpq : same p q) {s : Source}
    (hm : (n.next q s).1 = none) : n.left p = [] ∧ (n.next q s).2.1.left p = [] := by
  have hyields := (h.next hpq s).2
  rw [hm] at hyields
  exact hyields

/-- What was left is the move that is drawn, or it still is. -/
theorem next_some (h : n.Orderly same p) (hpq : same p q) {s : Source} {m m' : Move S V}
    (hm : (n.next q s).1 = some m) (hm' : m' ∈ n.left p) :
    m.upright = m'.upright ∨ ∃ m'' ∈ (n.next q s).2.1.left p, m''.upright = m'.upright := by
  have hyields := (h.next hpq s).2
  rw [hm] at hyields
  obtain ⟨m'', hmem, hupright⟩ := hyields.cons.exists_mem hm'
  rcases List.mem_cons.1 hmem with rfl | hmem
  · exact .inl hupright
  · exact .inr ⟨m'', hmem, hupright⟩

end Orderly

end Neighbourhood

/-! ## Collecting -/

namespace LocalSearch

variable [Plan S sh] [Workspace W S sh] [DecidableEq V]

/-- `m` is yet to be drawn or to be considered, as one of `left` or `ps`; or it cannot be applied to
the plan `p`, or it was considered. -/
inductive Fate (p : S) (left ps : List (Move S V)) (seen : List (Move S V × Score sh))
    (m : Move S V) : Prop
  | left (h : m ∈ left)
  | pending (h : m ∈ ps)
  | illegal (h : m.isDoable p = false)
  | considered {a : Score sh} (h : (m, a) ∈ seen)

/-- The state `s` in the middle of collecting from the neighbourhood of `p`, which began at `b`: the
candidates `seen` were considered, `ps` are to be considered, and no move has been passed over. -/
structure Surveying (X : Variable S V → Prop) (same : S → S → Prop) (good : W → Prop) (p : S)
    (b : Searching W S V sh) (last : Score sh) (seen : List (Move S V × Score sh)) (dry : Bool)
    (ps : List (Move S V)) (s : Searching W S V sh) : Prop extends
    Collecting X same good b last seen s where
  orderly : s.1.neighbourhood.Orderly same p
  drawn : ∀ m ∈ ps, Drawn X same b.1.neighbourhood b.2.run.plan m
  dry : dry → s.1.neighbourhood.left p = []
  covered : ∀ m ∈ b.1.neighbourhood.tree.moves p, ∃ m' : Move S V, m'.upright = m.upright ∧
    Fate p (s.1.neighbourhood.left p) ps seen m'

variable {X : Variable S V → Prop} {same : S → S → Prop} {good : W → Prop} {p : S}
  {b s : Searching W S V sh} {last a : Score sh} {seen : List (Move S V × Score sh)} {dry : Bool}
  {ps : List (Move S V)} {m : Move S V}

/-- A candidate has slots of the plan, also where it cannot be applied. -/
theorem Collecting.of_nextMove (h : Collecting X same good b last seen s) (hl : Lenses X same)
    (ht : b.1.neighbourhood.tree.Over X) (hm : nextMove s = some m) : m.Of X b.2.run.plan := by
  have hmovable := hl.of_movable h.holds.same
  exact (h.within.next (h.reaches.tree_eq ▸ ht) hmovable s.2.run.source).2 m hm

namespace Surveying

/-- Only the fate of the moves that were left may change with a draw. -/
theorem cover (h : Surveying X same good p b last seen dry ps s) {left ps' : List (Move S V)}
    (hps : ∀ m ∈ ps, m ∈ ps')
    (hleft : ∀ m ∈ s.1.neighbourhood.left p, ∃ m' : Move S V, m'.upright = m.upright ∧
      Fate p left ps' seen m') :
    ∀ m ∈ b.1.neighbourhood.tree.moves p, ∃ m' : Move S V, m'.upright = m.upright ∧
      Fate p left ps' seen m' := by
  intro m hm
  obtain ⟨m', hupright, hfate⟩ := h.covered m hm
  cases hfate with
  | left hmem =>
    obtain ⟨m'', hupright', hfate'⟩ := hleft m' hmem
    exact ⟨m'', hupright'.trans hupright, hfate'⟩
  | pending hmem => exact ⟨m', hupright, .pending (hps m' hmem)⟩
  | illegal hdo => exact ⟨m', hupright, .illegal hdo⟩
  | considered hmem => exact ⟨m', hupright, .considered hmem⟩

/-- The survey goes on with the moves that are left after a draw. -/
theorem next (h : Surveying X same good p b last seen dry ps s) (hl : Lenses X same)
    (ht : b.1.neighbourhood.tree.Over X) (hp : same p b.2.run.plan) {ps' : List (Move S V)}
    {dry' : Bool} (hps : ∀ m ∈ ps, m ∈ ps')
    (hdrawn : ∀ m ∈ ps', Drawn X same b.1.neighbourhood b.2.run.plan m)
    (hdry : dry' → nextMove s = none)
    (hnext : ∀ m, nextMove s = some m → m ∈ ps' ∨ m.isDoable p = false) :
    Surveying X same good p b last seen dry' ps' (LocalSearch.drawn s) := by
  have hplan : same p s.2.run.plan := hl.equivalence.trans hp h.holds.same
  refine ⟨(h.draw hl ht (draw_eq s)).1, (h.orderly.next hplan _).1, hdrawn, ?_, ?_⟩
  · intro hd
    exact (h.orderly.next_none hplan (hdry hd)).2
  · refine h.cover hps fun m hm => ?_
    cases hmove : nextMove s with
    | none =>
      rw [(h.orderly.next_none hplan hmove).1] at hm
      cases hm
    | some m' =>
      rcases h.orderly.next_some hplan hmove hm with hupright | ⟨m'', hmem, hupright⟩
      · refine ⟨m', hupright, ?_⟩
        rcases hnext m' hmove with hmem | hdo
        · exact .pending hmem
        · exact .illegal hdo
      · exact ⟨m'', hupright, .left hmem⟩

theorem consider (h : Surveying X same good p b last seen dry (m :: ps) s)
    (hm : Scored X same good b.1.neighbourhood b.2.run.plan m a) :
    Surveying X same good p b last (seen ++ [(m, a)]) dry ps (considered last m a s) := by
  have hneighbourhood := neighbourhood_considered last m a s
  refine ⟨h.toCollecting.consider hm (consider_eq last m a {} s), ?_, ?_, ?_, ?_⟩
  · rw [hneighbourhood]
    exact h.orderly
  · intro m' hm'
    exact h.drawn m' (List.mem_cons_of_mem _ hm')
  · rw [hneighbourhood]
    exact h.dry
  · intro m' hm'
    obtain ⟨m'', hupright, hfate⟩ := h.covered m' hm'
    refine ⟨m'', hupright, ?_⟩
    rw [hneighbourhood]
    cases hfate with
    | left hmem => exact .left hmem
    | pending hmem =>
      rcases List.mem_cons.1 hmem with rfl | hmem
      · exact .considered (List.mem_append_right _ (List.mem_singleton.2 rfl))
      · exact .pending hmem
    | illegal hdo => exact .illegal hdo
    | considered hmem => exact .considered (List.mem_append_left _ hmem)

/-- Everything that collecting does keeps the survey. -/
theorem rounds [Workspace.Lawful W] [ToString V] (hl : Lenses X same)
    (hg : Workspace.Exact X same good) (hP : Plan.SharesEntities same)
    (ht : b.1.neighbourhood.tree.Over X) (hp : same p b.2.run.plan) (last : Score sh) :
    Rounds last (fun dry ps s => ∃ seen, Surveying X same good p b last seen dry ps s)
      (fun m a => Scored X same good b.1.neighbourhood b.2.run.plan m a) where
  dry {ps s} := by
    rintro ⟨seen, h⟩ hm
    refine ⟨seen, h.next hl ht hp (fun m hm => hm) h.drawn (fun _ => hm) ?_⟩
    intro m hsome
    rw [hm] at hsome
    cases hsome
  draw {ps s m} := by
    rintro ⟨seen, h⟩ hm hdo
    have hdrawn := (h.draw hl ht (draw_eq s)).2 m hm hdo
    refine ⟨seen, h.next hl ht hp (fun m hm => List.mem_append_left _ hm) ?_
      (fun hd => absurd hd Bool.false_ne_true) ?_⟩
    · exact List.forall_mem_append.2 ⟨h.drawn, List.forall_mem_singleton.2 hdrawn⟩
    · intro m' hm'
      obtain rfl : m = m' := Option.some.inj (hm.symm.trans hm')
      exact .inl (List.mem_append_right _ (List.mem_singleton.2 rfl))
  illegal {ps s m} := by
    rintro ⟨seen, h⟩ hm hdo
    have hof := h.of_nextMove hl ht hm
    have hplan : same p s.2.run.plan := hl.equivalence.trans hp h.holds.same
    have hundoable : m.isDoable p = false := by
      rw [Move.isDoable_congr hP hplan]
      · exact hdo
      · intro a ha
        exact (hl.agree hplan).get a ((hl.of_iff hp a).2 (hof a ha))
    have hnext : Surveying X same good p b last seen false ps (LocalSearch.drawn s) := by
      refine h.next hl ht hp (fun m hm => hm) h.drawn (fun hd => absurd hd Bool.false_ne_true) ?_
      intro m' hm'
      obtain rfl : m = m' := Option.some.inj (hm.symm.trans hm')
      exact .inr hundoable
    exact ⟨seen, { hnext with toCollecting := hnext.record Stats.recordIllegal }⟩
  score {s m a w} := by
    rintro ⟨seen, h⟩ e
    have hm := h.drawn m (List.mem_singleton.2 rfl)
    obtain ⟨hw, hleads⟩ := scoreCandidate_eq_ok hg hl hm.of h.holds e
    exact ⟨⟨seen, { h with toCollecting := h.workspace hw }⟩, hm, hleads⟩
  scoreBatch {dry ps s threads answers} := by
    rintro ⟨seen, h⟩ e q hq a ha
    obtain ⟨a', ha', hleads⟩ := scoreBatch_eq_ok hg hl (fun m hm => (h.drawn m hm).of) h.holds e q hq
    rw [ha] at ha'
    cases ha'
    exact ⟨h.drawn q.1 (List.of_mem_zip hq).1, hleads⟩
  consider {dry ps s m a} := by
    rintro ⟨seen, h⟩ hm
    exact ⟨_, h.consider hm⟩

end Surveying

end LocalSearch

end PlanSearch
