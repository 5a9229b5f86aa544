import Mathlib.Logic.Hydra
import PlanSearch.Proofs.Network.Queue

/-!
# Working off the queue

A session delivers what is queued one delta after another, oldest first, and whatever a delivery
emits joins the end of the queue. However many deltas a join or a group emits for a single one, all
of them lead to later nodes: in the queue a delta is traded for finitely many that have less far to
go. Hence the queue runs empty, unless a delivery fails.

    s.Delivers plan t → a delta is traded for deltas to later nodes           (Delivers.cutExpand)
    n.Ascends → s.network = n → no run of deliveries from s goes on for ever          (acc_delivers)
    settle plan s = .ok k t → t is what k deliveries make of s                  (settle_deliveries)
    settle plan s = .ok k t ↔ … and the queue of t is empty    (settle_queue, Deliveries.settle)
-/

namespace PlanSearch

variable {S : Type} {sh : Shape}

/-- Edges lead to later nodes. -/
def Network.Ascends (n : Network S sh) : Prop :=
  ∀ p e, Feeds n.nodes p e → p < e.target ∧ e.target < n.nodes.size

theorem Network.Carries.ascends {n : Network S sh} {nodes : Array (Node S sh)}
    (h : n.Carries nodes) : n.Ascends := by
  intro p e he
  obtain ⟨hf, -⟩ := (h.feeds p e).1 he
  obtain ⟨stage, hst, -⟩ := h.wired.listened p e hf
  exact ⟨h.wired.forward p e hf, h.size ▸ lt_size_of_stage? hst⟩

namespace Session

/-! ## One delta -/

/-- Delivers the oldest delta in the queue. -/
def deliver (plan : S) : Step (Session S sh) Unit := fun s =>
  match s.queue.toList with
  | [] => .ok () s
  | p :: rest => process plan p { s with queue := rest.toArray }

/-- There is a delta in the queue, and its delivery succeeds. -/
def Delivers (plan : S) (s t : Session S sh) : Prop := s.queue ≠ #[] ∧ deliver plan s = .ok () t

/-- There is a delta in the queue, and its delivery fails. -/
def Stops (plan : S) (s : Session S sh) (f : Fault) (t : Session S sh) : Prop :=
  s.queue ≠ #[] ∧ deliver plan s = .error f t

variable {plan : S} {p : Pending} {s t u : Session S sh} {f : Fault} {n : Network S sh}

theorem process_ok (e : process plan p s = .ok () t) : t.network = s.network ∧
    ∃ out, t.queue.toList = s.queue.toList ++ emitted s.network p.target out := by
  cases hs : s.stations[p.target]? with
  | none =>
    rw [process_of_none hs] at e
    cases e
    refine ⟨rfl, [], ?_⟩
    unfold emitted
    split <;> simp
  | some station =>
    obtain ⟨reply, -, -, hnetwork, -, hqueue, -⟩ := process_eq_ok e hs
    exact ⟨hnetwork, reply.deltas, hqueue⟩

theorem process_error (e : process plan p s = .error f t) :
    t.network = s.network ∧ t.queue = s.queue := by
  cases hs : s.stations[p.target]? with
  | none =>
    rw [process_of_none hs] at e
    cases e
  | some station =>
    obtain ⟨-, hnetwork, hqueue, -⟩ := process_eq_error e hs
    exact ⟨hnetwork, hqueue⟩

theorem deliver_of_ne (plan : S) (hne : s.queue ≠ #[]) : ∃ p rest, s.queue.toList = p :: rest ∧
    deliver plan s = process plan p { s with queue := rest.toArray } := by
  unfold deliver
  split
  · next hq => exact absurd (Array.toList_eq_nil_iff.1 hq) hne
  · next p rest hq => exact ⟨p, rest, hq, rfl⟩

theorem Delivers.head (h : s.Delivers plan t) : ∃ p rest, s.queue.toList = p :: rest ∧
    process plan p { s with queue := rest.toArray } = .ok () t := by
  obtain ⟨p, rest, hq, hdeliver⟩ := deliver_of_ne plan h.1
  exact ⟨p, rest, hq, hdeliver ▸ h.2⟩

theorem Stops.head (h : s.Stops plan f t) : ∃ p rest, s.queue.toList = p :: rest ∧
    process plan p { s with queue := rest.toArray } = .error f t := by
  obtain ⟨p, rest, hq, hdeliver⟩ := deliver_of_ne plan h.1
  exact ⟨p, rest, hq, hdeliver ▸ h.2⟩

/-- The oldest delta makes room for what its target emits. -/
theorem Delivers.queue (h : s.Delivers plan t) : t.network = s.network ∧
    ∃ p rest out, s.queue.toList = p :: rest ∧
      t.queue.toList = rest ++ emitted s.network p.target out := by
  obtain ⟨p, rest, hq, e⟩ := h.head
  obtain ⟨hnetwork, out, hout⟩ := process_ok e
  exact ⟨hnetwork, p, rest, out, hq, hout⟩

/-! ## How far deltas have to go -/

/-- For each delta in the queue, the nodes from its target on. -/
def distances (n : Network S sh) (s : Session S sh) : Multiset Nat :=
  (s.queue.toList.map fun p => n.nodes.size - p.target : List Nat)

theorem Delivers.cutExpand (h : s.Delivers plan t) (hs : s.network = n) (hn : n.Ascends) :
    Relation.CutExpand (· < ·) (t.distances n) (s.distances n) := by
  obtain ⟨-, p, rest, out, hq, ht⟩ := h.queue
  refine ⟨((emitted n p.target out).map fun q => n.nodes.size - q.target : List Nat),
    n.nodes.size - p.target, fun d hd => ?_, ?_⟩
  · obtain ⟨q, hmem, rfl⟩ := List.mem_map.1 (Multiset.mem_coe.1 hd)
    have hlt := hn _ _ (mem_emitted.1 hmem).1
    simp only at hlt
    omega
  · unfold distances
    rw [hq, ht, hs, List.map_append, List.map_cons, ← Multiset.cons_coe, ← Multiset.coe_add,
      ← Multiset.singleton_add, add_assoc {_}]
    exact Multiset.add_comm _ _

/-- No run of deliveries goes on for ever. -/
theorem acc_delivers (hn : n.Ascends) (plan : S) (hs : s.network = n) :
    Acc (fun t s : Session S sh => s.Delivers plan t) s := by
  have hwf : WellFounded (Relation.CutExpand ((· < ·) : Nat → Nat → Prop)) :=
    WellFounded.cutExpand wellFounded_lt
  induction hd : s.distances n using hwf.induction generalizing s with
  | _ d ih =>
    subst hd
    exact .intro s fun t ht => ih _ (ht.cutExpand hs hn) (ht.queue.1.trans hs) rfl

/-! ## Runs -/

/-- The session `t` is what `k` deliveries make of `s`. -/
inductive Deliveries (plan : S) : Nat → Session S sh → Session S sh → Prop
  | nil (s : Session S sh) : Deliveries plan 0 s s
  | cons {k : Nat} {s t u : Session S sh} (h : s.Delivers plan t) (hrest : Deliveries plan k t u) :
    Deliveries plan (k + 1) s u

theorem Deliveries.append {j k : Nat} (h : Deliveries plan j s t) (h' : Deliveries plan k t u) :
    Deliveries plan (j + k) s u := by
  induction h with
  | nil s => rwa [Nat.zero_add]
  | cons h _ ih =>
    rw [Nat.succ_add_eq_add_succ]
    exact .cons h (ih h')

/-- The session with `ps` in front of its queue. -/
def ahead (ps : List Pending) (s : Session S sh) : Session S sh :=
  { s with queue := ps.toArray ++ s.queue }

theorem forward_ahead (ps : List Pending) (s : Session S sh) (node : Nat) (out : List Delta) :
    (s.ahead ps).forward node out = (s.forward node out).ahead ps := by
  have hqueue : ((s.ahead ps).forward node out).queue = ((s.forward node out).ahead ps).queue := by
    rw [← Array.toList_inj, forward_queue]
    simp [ahead, forward_queue]
  unfold forward at hqueue ⊢
  cases hn : s.network.nodes[node]? with
  | none => simp [ahead, hn]
  | some m =>
    simp only [ahead, hn] at hqueue ⊢
    rw [hqueue]

/-- What lies before the deltas that are emitted makes no difference to a delivery. -/
theorem process_ahead (ps : List Pending) (p : Pending) (s : Session S sh) :
    process plan p (s.ahead ps) =
      match process plan p s with
      | .ok () t => .ok () (t.ahead ps)
      | .error f t => .error f (t.ahead ps) := by
  unfold process
  have hstations : (s.ahead ps).stations = s.stations := rfl
  rw [hstations]
  cases s.stations[p.target]? with
  | none => rfl
  | some station =>
    dsimp only
    cases station.receive plan p.target p.side p.delta with
    | error f station => rfl
    | ok reply station =>
      cases reply with
      | pass out =>
        refine congrArg (EStateM.Result.ok ()) ?_
        exact forward_ahead ps
          { s with stations := (s.stations.setIfInBounds p.target default).setIfInBounds p.target
                    station } p.target out
      | change d =>
        have hscore : (s.ahead ps).score = s.score := rfl
        simp only [absorb, hscore]
        cases s.score.add d <;> rfl

theorem deliver_ahead (plan : S) (p : Pending) (ps : List Pending) (s : Session S sh) :
    (s.ahead (p :: ps)).queue ≠ #[] ∧
      deliver plan (s.ahead (p :: ps)) = process plan p (s.ahead ps) := by
  have hq : (s.ahead (p :: ps)).queue.toList = p :: (ps ++ s.queue.toList) := by simp [ahead]
  refine ⟨fun e => ?_, ?_⟩
  · rw [e] at hq
    cases hq
  · unfold deliver
    rw [hq]
    have hrest : (ps ++ s.queue.toList).toArray = ps.toArray ++ s.queue := by
      rw [← Array.toList_inj]
      simp
    dsimp only
    rw [hrest]
    rfl

/-- A generation is delivered delta by delta. -/
theorem drain_deliveries {ps : List Pending} (e : drain plan ps s = .ok () t) :
    Deliveries plan ps.length (s.ahead ps) t := by
  induction ps generalizing s with
  | nil =>
    cases e
    simpa [ahead] using (Deliveries.nil t : Deliveries plan 0 t t)
  | cons p ps ih =>
    unfold drain at e
    split at e
    · next r hp =>
      obtain ⟨hne, hdeliver⟩ := deliver_ahead plan p ps s
      refine .cons ⟨hne, ?_⟩ (ih e)
      rw [hdeliver, process_ahead, hp]
    · cases e

theorem drain_stops {ps : List Pending} (e : drain plan ps s = .error f t) :
    ∃ k r, Deliveries plan k (s.ahead ps) r ∧ r.Stops plan f t := by
  induction ps generalizing s with
  | nil => cases e
  | cons p ps ih =>
    obtain ⟨hne, hdeliver⟩ := deliver_ahead plan p ps s
    rw [process_ahead] at hdeliver
    unfold drain at e
    split at e
    · next r hp =>
      rw [hp] at hdeliver
      obtain ⟨k, u, hu, hstops⟩ := ih e
      exact ⟨k + 1, u, .cons ⟨hne, hdeliver⟩ hu, hstops⟩
    · next f' r hp =>
      rw [hp] at hdeliver
      cases e
      exact ⟨0, _, .nil _, hne, hdeliver⟩

theorem ahead_queue (s : Session S sh) :
    ({ s with queue := #[] } : Session S sh).ahead s.queue.toList = s := by simp [ahead]

theorem settleRounds_deliveries {rounds k : Nat} (e : settleRounds plan rounds s = .ok k t) :
    Deliveries plan k s t := by
  induction rounds generalizing s k with
  | zero =>
    cases e
    exact .nil t
  | succ rounds ih =>
    unfold settleRounds at e
    split at e
    · cases e
      exact .nil t
    · split at e
      · cases e
      · next r hdrain =>
        split at e
        · cases e
        · next he =>
          cases e
          have hd := drain_deliveries hdrain
          rw [ahead_queue, Array.length_toList] at hd
          exact hd.append (ih he)

theorem settleRounds_stops {rounds : Nat} (e : settleRounds plan rounds s = .error f t) :
    ∃ k r, Deliveries plan k s r ∧ r.Stops plan f t := by
  induction rounds generalizing s with
  | zero => cases e
  | succ rounds ih =>
    unfold settleRounds at e
    split at e
    · cases e
    · split at e
      · next hdrain =>
        cases e
        obtain ⟨k, r, hr, hstops⟩ := drain_stops hdrain
        rw [ahead_queue] at hr
        exact ⟨k, r, hr, hstops⟩
      · next u hdrain =>
        split at e
        · next he =>
          cases e
          have hd := drain_deliveries hdrain
          rw [ahead_queue] at hd
          obtain ⟨k, r, hr, hstops⟩ := ih he
          exact ⟨_, r, hd.append hr, hstops⟩
        · cases e

/-! ## The queue runs empty -/

/-- The session is one of the network, and its deltas lead to nodes that exist. -/
structure Heads (n : Network S sh) (s : Session S sh) : Prop where
  network : s.network = n
  target : ∀ q ∈ s.queue.toList, q.target < n.nodes.size

theorem Heads.process (h : s.Heads n) (hn : n.Ascends) (e : process plan p s = .ok () t) :
    t.Heads n := by
  obtain ⟨hnetwork, out, hout⟩ := process_ok e
  refine ⟨hnetwork.trans h.network, fun q hq => ?_⟩
  rw [hout, h.network, List.mem_append] at hq
  rcases hq with hq | hq
  · exact h.target q hq
  · exact (hn _ _ (mem_emitted.1 hq).1).2

theorem Heads.delivers (h : s.Heads n) (hn : n.Ascends) (e : s.Delivers plan t) : t.Heads n := by
  obtain ⟨p, rest, hq, e⟩ := e.head
  refine Heads.process (s := { s with queue := rest.toArray })
    ⟨h.network, fun q hmem => h.target q ?_⟩ hn e
  exact hq ▸ List.mem_cons_of_mem _ hmem

theorem Heads.stops (h : s.Heads n) (e : s.Stops plan f t) : t.Heads n := by
  obtain ⟨p, rest, hq, e⟩ := e.head
  obtain ⟨hnetwork, hqueue⟩ := process_error e
  refine ⟨hnetwork.trans h.network, fun q hmem => h.target q ?_⟩
  rw [hqueue] at hmem
  exact hq ▸ List.mem_cons_of_mem _ hmem

/-- What is pending leads to node `k` or beyond. -/
def Beyond (k : Nat) (s : Session S sh) : Prop := ∀ q ∈ s.queue.toList, k ≤ q.target

/-- A generation that leads to node `k` or beyond is followed by one that leads beyond `k`. -/
theorem drain_beyond {k : Nat} {ps : List Pending} (h : s.Heads n) (hn : n.Ascends)
    (hps : ∀ q ∈ ps, k ≤ q.target) (hb : s.Beyond (k + 1)) (e : drain plan ps s = .ok () t) :
    t.Heads n ∧ t.Beyond (k + 1) := by
  induction ps generalizing s with
  | nil =>
    cases e
    exact ⟨h, hb⟩
  | cons p ps ih =>
    obtain ⟨hp, hrest⟩ := List.forall_mem_cons.1 hps
    unfold drain at e
    split at e
    · next r he =>
      refine ih (h.process hn he) hrest (fun q hq => ?_) e
      obtain ⟨-, out, hout⟩ := process_ok he
      rw [hout, List.mem_append] at hq
      rcases hq with hq | hq
      · exact hb q hq
      · rw [h.network] at hq
        have hlt := (hn _ _ (mem_emitted.1 hq).1).1
        simp only at hlt
        omega
    · cases e

/-- Each generation of deltas leads one node further, so there are no more generations than
nodes. -/
theorem settleRounds_queue {rounds k count : Nat} (h : s.Heads n) (hn : n.Ascends)
    (hb : s.Beyond k) (hk : n.nodes.size ≤ rounds + k)
    (e : settleRounds plan rounds s = .ok count t) : t.queue = #[] := by
  induction rounds generalizing s k count with
  | zero =>
    cases e
    rw [← Array.toList_eq_nil_iff, List.eq_nil_iff_forall_not_mem]
    intro q hq
    have hlt := h.target q hq
    have hle := hb q hq
    omega
  | succ rounds ih =>
    unfold settleRounds at e
    split at e
    · next hq =>
      cases e
      simpa using hq
    · split at e
      · cases e
      · next r hdrain =>
        obtain ⟨hr, hbr⟩ := drain_beyond (s := { s with queue := #[] }) ⟨h.network, nofun⟩ hn hb
          nofun hdrain
        split at e
        · cases e
        · next he =>
          cases e
          exact ih hr hbr (by omega) he

theorem settle_queue {k : Nat} (h : s.Heads n) (hn : n.Ascends)
    (e : settle plan s = .ok k t) : t.queue = #[] := by
  refine settleRounds_queue h hn (k := 0) (fun q _ => Nat.zero_le _) ?_ e
  rw [h.network]
  exact Nat.le_refl _

/-- To settle a session is to deliver until the queue is empty or a delivery fails. -/
theorem settle_ends (h : s.Heads n) (hn : n.Ascends) (plan : S) :
    (∃ k t, settle plan s = .ok k t ∧ Deliveries plan k s t ∧ t.queue = #[]) ∨
      ∃ f t, settle plan s = .error f t ∧ ∃ k r, Deliveries plan k s r ∧ r.Stops plan f t := by
  cases e : settle plan s with
  | ok k t => exact .inl ⟨k, t, rfl, settleRounds_deliveries e, settle_queue h hn e⟩
  | error f t => exact .inr ⟨f, t, rfl, settleRounds_stops e⟩

/-- All runs from a session are parts of one run. -/
theorem Deliveries.rest {j k : Nat} (h : Deliveries plan j s t) (hq : t.queue = #[])
    (h' : Deliveries plan k s u) : ∃ i, j = k + i ∧ Deliveries plan i u t := by
  induction h' generalizing j with
  | nil s => exact ⟨j, (Nat.zero_add j).symm, h⟩
  | cons hd _ ih =>
    cases h with
    | nil => exact absurd hq hd.1
    | cons hd' hrest =>
      have heq := hd.2.symm.trans hd'.2
      cases heq
      obtain ⟨i, rfl, hi⟩ := ih hrest
      exact ⟨i, by omega, hi⟩

/-- Once a run of deliveries has emptied the queue, settling comes to the same. -/
theorem Deliveries.settle {k : Nat} (h : Deliveries plan k s t) (hq : t.queue = #[])
    (hs : s.Heads n) (hn : n.Ascends) : settle plan s = .ok k t := by
  rcases settle_ends hs hn plan with ⟨j, u, e, hu, hqu⟩ | ⟨f, u, -, j, r, hr, hne, hstops⟩
  · obtain ⟨i, rfl, hi⟩ := h.rest hq hu
    cases hi with
    | nil => exact e
    | cons hd _ => exact absurd hqu hd.1
  · obtain ⟨i, -, hi⟩ := h.rest hq hr
    cases hi with
    | nil => exact absurd hq hne
    | cons hd _ =>
      have heq := hstops.symm.trans hd.2
      cases heq

end Session

end PlanSearch
