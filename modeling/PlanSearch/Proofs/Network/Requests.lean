import PlanSearch.Proofs.Network.Sharing

/-!
# Requests to a session

What a session can be asked for, one request after another. Whatever it was asked for so far, and
even if a request failed half-way, settling it comes to an end.

    Kept n bearable I → I s → I (s after a request that fails bearably if at all)     (Kept.respond)
    Kept n (fun _ => True) I → I (new n) → s.Reachable n → I s                      (Kept.reachable)
    s.Reachable n → s's deltas lead to nodes of n                                  (Reachable.heads)
    s.Reachable n → settle plan s runs until the queue is empty, or until a function of the problem
      or a sum fails                                                     (Reachable.settle_terminates)
-/

namespace PlanSearch

variable {S : Type} {sh : Shape}

/-- The state in which `x` ends is final if what follows only reads it. -/
theorem Step.finalState_bind {σ α β : Type} (x : Step σ α) {g : α → Step σ β}
    (hg : ∀ a t, Step.finalState (g a) t = t) (s : σ) :
    Step.finalState (x >>= g) s = Step.finalState x s := by
  show Step.finalState (EStateM.bind x g) s = _
  unfold Step.finalState EStateM.bind
  cases x s with
  | ok a t => exact hg a t
  | error f t => rfl

/-- Edges lead to later nodes, and facts are delivered to nodes that exist. -/
structure Network.Routed (n : Network S sh) : Prop where
  ascends : n.Ascends
  sources : ∀ q ∈ n.sources, q.2 < n.nodes.size

theorem Network.Carries.routed {n : Network S sh} {nodes : Array (Node S sh)}
    (h : n.Carries nodes) : n.Routed where
  ascends := h.ascends
  sources q hq := by
    have hsource := (h.source _ _).1 ((h.mem_sources q.1 q.2).1 hq)
    exact h.size ▸ lt_size_of_stage? hsource.1

namespace Session

/-- What a session can be asked for. -/
inductive Request (S : Type) where
  | tell (r : Report)
  | insertAll (plan : S)
  | settle (plan : S)
  | score (plan : S)
  | totals (plan : S)

/-- What a session answers, apart from how much it had to do for it. -/
inductive Answer (sh : Shape) where
  | done
  | score (a : Score sh)
  | totals (ts : List (ConstraintTotal sh))

section

variable [Plan S sh]

def respond : Request S → Step (Session S sh) (Answer sh)
  | .tell r => fun s => .ok .done (s.tell r)
  | .insertAll plan => fun s => .ok .done (s.insertAll plan)
  | .settle plan => do
    let _ ← Session.settle plan
    return .done
  | .score plan => do return .score (← settledScore plan)
  | .totals plan => do return .totals (← constraintTotals plan)

/-- Responds to requests one after another, until one fails. -/
def converse (qs : List (Request S)) : Step (Session S sh) (List (Answer sh)) := qs.mapM respond

/-- The session is what some requests made of a new one of the network; some may have failed. -/
inductive Reachable (n : Network S sh) : Session S sh → Prop
  | new : Reachable n (new n)
  | respond {s : Session S sh} (h : Reachable n s) (q : Request S) :
    Reachable n (Step.finalState (Session.respond q) s)

end

variable {n : Network S sh} {s : Session S sh}

/-! ## What every request keeps -/

/-- The property survives what happens in a session of the network: a report is queued for the
source of its family, a delta is delivered, or the delivery of one fails with a bearable fault. -/
structure Kept (n : Network S sh) (bearable : Fault → Prop) (I : Session S sh → Prop) :
    Prop where
  network : ∀ s, I s → s.network = n
  queued : ∀ s (r : Report) node, I s → (r.fact.family, node) ∈ n.sources →
    I { s with queue := s.queue.push ⟨node, .left, r.delta node⟩ }
  delivered : ∀ s t plan, I s → s.Delivers plan t → I t
  stopped : ∀ s t plan f, I s → bearable f → s.Stops plan f t → I t

namespace Kept

variable {bearable : Fault → Prop} {I : Session S sh → Prop}

theorem deliveries (h : Kept n bearable I) {plan : S} {k : Nat} {t : Session S sh}
    (e : Deliveries plan k s t) (hs : I s) : I t := by
  induction e with
  | nil s => exact hs
  | cons hd _ ih => exact ih (h.delivered _ _ _ hs hd)

theorem settle (h : Kept n bearable I) (hs : I s) (plan : S)
    (hf : ∀ f t, Session.settle plan s = .error f t → bearable f) :
    I (Step.finalState (Session.settle plan) s) := by
  unfold Step.finalState
  cases e : Session.settle plan s with
  | ok k t => exact h.deliveries (settleRounds_deliveries e) hs
  | error f t =>
    obtain ⟨k, r, hr, hstops⟩ := settleRounds_stops e
    exact h.stopped _ _ _ _ (h.deliveries hr hs) (hf f t e) hstops

theorem tell (h : Kept n bearable I) (hs : I s) (r : Report) : I (s.tell r) := by
  rw [tell_eq]
  split
  · exact hs
  · next node hnode =>
    rw [h.network s hs] at hnode
    obtain ⟨l₁, l₂, hl, -⟩ := List.lookup_eq_some_iff.1 hnode
    exact h.queued s r node hs (by rw [hl]; simp)

theorem bind {α β : Type} {x : Step (Session S sh) α} {g : α → Step (Session S sh) β}
    (h : I (Step.finalState x s)) (hg : ∀ a t, Step.finalState (g a) t = t) :
    I (Step.finalState (x >>= g) s) := by
  rw [Step.finalState_bind x hg]
  exact h

variable [Plan S sh]

theorem insertAll (h : Kept n bearable I) (hs : I s) (plan : S) : I (s.insertAll plan) := by
  unfold Session.insertAll
  rw [h.network s hs]
  refine List.foldlRecOn (motive := I) _ _ hs fun s hs q hq => ?_
  exact List.foldlRecOn (motive := I) _ _ hs fun s hs k _ =>
    h.queued s (.insert ⟨q.1, k⟩) q.2 hs hq

/-- All that a request does is to queue reports, or to settle and then to read. -/
theorem respond (h : Kept n bearable I) (hs : I s) (q : Request S)
    (hf : ∀ f t, Session.respond q s = .error f t → bearable f) :
    I (Step.finalState (Session.respond q) s) := by
  cases q with
  | tell r => exact h.tell hs r
  | insertAll plan => exact h.insertAll hs plan
  | settle plan =>
    have hsettle := h.settle hs plan fun f t e => hf f t (Step.bind_error e)
    exact bind hsettle fun _ _ => rfl
  | score plan =>
    have hsettle := h.settle hs plan fun f t e => hf f t (Step.bind_error (Step.bind_error e))
    have hscore : I (Step.finalState (settledScore plan) s) := bind hsettle fun _ _ => rfl
    exact bind hscore fun _ _ => rfl
  | totals plan =>
    have hsettle := h.settle hs plan fun f t e => hf f t (Step.bind_error (Step.bind_error e))
    have htotals : I (Step.finalState (constraintTotals plan) s) := bind hsettle fun _ _ => rfl
    exact bind htotals fun _ _ => rfl

theorem reachable (h : Kept n (fun _ => True) I) (hnew : I (new n)) (hs : s.Reachable n) : I s := by
  induction hs with
  | new => exact hnew
  | respond _ q ih => exact h.respond ih q fun _ _ _ => trivial

end Kept

/-! ## What is queued -/

theorem Heads.push (h : s.Heads n) {p : Pending} (hp : p.target < n.nodes.size) :
    Heads n { s with queue := s.queue.push p } where
  network := h.network
  target q hq := by
    rw [Array.toList_push, List.mem_append, List.mem_singleton] at hq
    rcases hq with hq | rfl
    · exact h.target q hq
    · exact hp

theorem kept_heads (hn : n.Routed) : Kept n (fun _ => True) (Heads n) where
  network _ h := h.network
  queued _ _ _ h hnode := h.push (hn.sources _ hnode)
  delivered _ _ _ h hd := h.delivers hn.ascends hd
  stopped _ _ _ _ h _ hf := h.stops hf

section

variable [Plan S sh]

theorem Heads.respond (h : s.Heads n) (hn : n.Routed) (q : Request S) :
    (Step.finalState (Session.respond q) s).Heads n :=
  (kept_heads hn).respond h q fun _ _ _ => trivial

theorem Reachable.heads (h : s.Reachable n) (hn : n.Routed) : s.Heads n :=
  (kept_heads hn).reachable ⟨rfl, nofun⟩ h

/-- Settling comes to an end in any session of a declared network, whatever the session was asked for
before and whatever the plan is. Edges lead to later nodes, no run of deliveries goes on for ever,
and the run in which the session is settled leaves an empty queue behind, unless one of its
deliveries fails: it asks a function outside its domain, or a sum overflows. -/
theorem Reachable.settle_terminates {b : NetworkBuilder S sh} (hb : b.Declared)
    (hbuild : b.build = .ok n) (h : s.Reachable n) (plan : S) :
    n.Ascends ∧ Acc (fun t s : Session S sh => s.Delivers plan t) s ∧
      ((∃ k t, Session.settle plan s = .ok k t ∧ Deliveries plan k s t ∧ t.queue = #[]) ∨
        ∃ f t, Session.settle plan s = .error f t ∧
          ∃ k r, Deliveries plan k s r ∧ r.Stops plan f t) := by
  have hn := hb.wellFormed.carries hbuild
  have hs := h.heads hn.routed
  exact ⟨hn.ascends, acc_delivers hn.ascends plan hs.network, settle_ends hs hn.ascends plan⟩

end

end Session

/-! ## A row of cells -/

namespace Row

/-- The network of pairs, after two cells were inserted and one of them was taken back while they
were still in the queue. -/
theorem settle_terminates_pairing :
    ∃ (x : Blueprint Row .simple) (n : Network Row .simple),
      Declaration.performAll pairing ⟨{}, []⟩ = .ok x ∧ x.builder.build = .ok n ∧
      let row : Row := ⟨[some 7, some 7], none⟩
      let s := ((Session.new n).insertAll row).tell (.retract ⟨0, 1⟩)
      n.Ascends ∧ Acc (fun t s : Session Row .simple => s.Delivers row t) s ∧
        ((∃ k t, Session.settle row s = .ok k t ∧ Session.Deliveries row k s t ∧ t.queue = #[]) ∨
          ∃ f t, Session.settle row s = .error f t ∧
            ∃ k r, Session.Deliveries row k s r ∧ r.Stops row f t) := by
  obtain ⟨⟨x, e, hnodes, hconstraints⟩, -⟩ := performAll_pairing
  obtain ⟨n, hbuild⟩ : ∃ n, x.builder.build = .ok n :=
    ⟨_, if_neg fun h => hconstraints (List.isEmpty_iff.1 h)⟩
  have hdeclared := Declaration.declared_performAll (.start 0 "") e
  have hreachable : Session.Reachable n
      (((Session.new n).insertAll (⟨[some 7, some 7], none⟩ : Row)).tell (.retract ⟨0, 1⟩)) :=
    (Session.Reachable.new.respond (.insertAll _)).respond (.tell (.retract ⟨0, 1⟩))
  exact ⟨x, n, e, hbuild, hreachable.settle_terminates hdeclared hbuild _⟩

end Row

end PlanSearch
