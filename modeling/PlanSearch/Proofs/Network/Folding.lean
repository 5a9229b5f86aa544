import PlanSearch.Proofs.Network.Settling

/-!
# Folding a network

A map of nodes folds one network onto another if it keeps the stage of each node and sends its
inputs to the inputs of its image. The image has the same tuples then, apart from the nodes that are
entered in them as their origins, so the constraints come to the same totals as long as no function
asks a tuple for its origin.

    Folds rep nodes' nodes → the tuples of j are those of rep j           (Folds.stream)
    Folds rep nodes' nodes → the totals are those of the images           (Folds.evaluate)
-/

namespace PlanSearch

variable {S : Type} {sh : Shape} {α : Type}

/-! ## Tuples without their origins -/

/-- The tuples differ in their origins only. -/
def Tuple.Like (t u : Tuple) : Prop := t.id = u.id ∧ t.aggregates = u.aggregates

/-- The answer does not depend on the node that produced the tuple. -/
def OriginFree (fn : S → Tuple → Checked α) : Prop :=
  ∀ plan t origin, fn plan (t.withOrigin origin) = fn plan t

/-- No function of the stage asks for origins. -/
def Stage.OriginFree : Stage S sh → Prop
  | source _ => True
  | filter test => PlanSearch.OriginFree test
  | join leftKey rightKey => PlanSearch.OriginFree leftKey ∧ PlanSearch.OriginFree rightKey
  | group key value _ => PlanSearch.OriginFree key ∧ PlanSearch.OriginFree value
  | scorer _ matchWeight _ => PlanSearch.OriginFree matchWeight

namespace OriginFree

variable {fn : S → Tuple → Checked α} {plan : S} {t u : Tuple}

theorem eq_of_like (h : OriginFree fn) (htu : t.Like u) : fn plan t = fn plan u := by
  obtain ⟨id, aggregates, origin⟩ := t
  obtain ⟨id', aggregates', origin'⟩ := u
  obtain ⟨hid, haggregates⟩ := htu
  dsimp only at hid haggregates
  rw [hid, haggregates]
  exact h plan ⟨id', aggregates', origin'⟩ origin

theorem keyAndValue {key : S → Tuple → Checked Key} {value : S → Tuple → Checked Int64}
    (hk : OriginFree key) (hv : OriginFree value) : OriginFree (keyAndValue key value) := by
  intro plan t origin
  unfold PlanSearch.keyAndValue
  rw [hk, hv]

theorem matchScore {matchWeight : S → Tuple → Checked Int64} (h : OriginFree matchWeight)
    (weight : Score sh) : OriginFree (matchScore weight matchWeight) := by
  intro plan t origin
  unfold PlanSearch.matchScore
  rw [h]

end OriginFree

namespace Reference

open Checked (Rel)

/-- The same tuples, apart from their origins, or the same fault. -/
abbrev LikeTuples : Checked (List Tuple) → Checked (List Tuple) → Prop := Rel (List.Forall₂ Tuple.Like)

/-- Answers about tuples that differ in their origins only. -/
abbrev Answered (p q : α × Tuple) : Prop := p.1 = q.1 ∧ p.2.Like q.2

variable {fn : S → Tuple → Checked α} {plan : S} {facts : List Fact} {ts us : List Tuple}
  {origin origin' : Nat} {input input' : Side → Checked (List Tuple)}

theorem ask_rel (h : OriginFree fn) (htu : List.Forall₂ Tuple.Like ts us) :
    Rel (List.Forall₂ Answered) (ask (fn plan) ts) (ask (fn plan) us) :=
  Rel.mapM htu fun _ _ hlike => (Rel.of_eq (h.eq_of_like hlike)).bind
    fun _ _ hab => .ok ⟨hab, hlike⟩

theorem map_fst_eq {ps qs : List (α × Tuple)} (h : List.Forall₂ Answered ps qs) :
    ps.map (·.1) = qs.map (·.1) := by
  induction h with
  | nil => rfl
  | cons hpq _ ih => rw [List.map_cons, List.map_cons, hpq.1, ih]

theorem filter_rel {ps qs : List (α × Tuple)} (h : List.Forall₂ Answered ps qs) (keep : α → Bool) :
    List.Forall₂ Answered (ps.filter fun p => keep p.1) (qs.filter fun q => keep q.1) :=
  List.rel_filter (fun _ _ hpq => Eq.to_iff (congrArg (fun a => keep a = true) hpq.1)) h

/-- What a stage derives depends on the origins of its input in the origins of its output only. -/
theorem derive_rel {stage : Stage S sh} (hfree : stage.OriginFree)
    (hinput : ∀ side ∈ stage.inputs, LikeTuples (input side) (input' side)) :
    LikeTuples (derive plan facts origin input stage) (derive plan facts origin' input' stage) := by
  cases stage with
  | source family =>
    refine .ok ?_
    rw [List.forall₂_map_left_iff, List.forall₂_map_right_iff, List.forall₂_same]
    exact fun f _ => ⟨rfl, rfl⟩
  | filter test =>
    refine (hinput .left (List.mem_singleton_self _)).bind fun ts us htu =>
      (ask_rel hfree htu).bind fun ps qs hpq => .ok ?_
    rw [List.forall₂_map_left_iff, List.forall₂_map_right_iff]
    exact (filter_rel hpq id).imp fun p q h => h.2
  | join leftKey rightKey =>
    refine (hinput .left List.mem_cons_self).bind fun ts us htu =>
      (ask_rel hfree.1 htu).bind fun ls ls' hls => ?_
    refine (hinput .right (List.mem_cons_of_mem _ (List.mem_singleton_self _))).bind fun ts us htu =>
      (ask_rel hfree.2 htu).bind fun rs rs' hrs => .ok ?_
    refine List.rel_flatMap hls fun l l' hl => ?_
    rw [List.forall₂_map_left_iff, List.forall₂_map_right_iff, hl.1]
    refine (filter_rel hrs fun k => k = l'.1).imp fun r r' hr => ⟨?_, ?_⟩
    · show l.2.id ++ r.2.id = l'.2.id ++ r'.2.id
      rw [hl.2.1, hr.2.1]
    · show l.2.aggregates ++ r.2.aggregates = l'.2.aggregates ++ r'.2.aggregates
      rw [hl.2.2, hr.2.2]
  | group key value c =>
    refine (hinput .left (List.mem_singleton_self _)).bind fun ts us htu =>
      (ask_rel (hfree.1.keyAndValue hfree.2) htu).bind fun ps qs hpq => ?_
    have hkeys : ps.map (·.1.1) = qs.map (·.1.1) := by
      have hmap := congrArg (List.map Prod.fst) (map_fst_eq hpq)
      rwa [List.map_map, List.map_map] at hmap
    have hvalues : ∀ k, (ps.filter (·.1.1 = k)).map (·.1.2) = (qs.filter (·.1.1 = k)).map (·.1.2) :=
      fun k => by
        have hfilter := map_fst_eq (filter_rel hpq fun a => a.1 = k)
        have hmap := congrArg (List.map Prod.snd) hfilter
        rwa [List.map_map, List.map_map] at hmap
    dsimp only
    rw [hkeys]
    refine Rel.mapM (List.forall₂_same.2 fun k _ => rfl) fun k k' hk => ?_
    subst hk
    rw [hvalues]
    exact (Rel.of_eq rfl).bind fun a b hab => .ok ⟨rfl, congrArg (fun x => [x]) hab⟩
  | scorer weight matchWeight watched => exact .ok .nil

end Reference

/-! ## Folding -/

/-- `rep` sends each node to one of the same stage, and its inputs to those of its image. -/
structure Folds (rep : Nat → Nat) (nodes' nodes : Array (Node S sh)) : Prop where
  stage : ∀ j stage, stage? nodes' j = some stage → stage? nodes (rep j) = some stage
  feeds : ∀ p e, Feeds nodes' p e → Feeds nodes (rep p) ⟨rep e.target, e.side⟩

namespace Folds

open Reference

variable {rep : Nat → Nat} {nodes' nodes : Array (Node S sh)} {j : Nat} {stage : Stage S sh}
  {plan : S} {facts : List Fact}

/-- What feeds a node feeds its image. -/
theorem parent (h : Folds rep nodes' nodes) (hw' : Wired nodes') (hw : Wired nodes)
    (hj : stage? nodes' j = some stage) {side : Side} (hside : side ∈ stage.inputs) :
    ∃ p < j, parent? nodes' j side = some p ∧ parent? nodes (rep j) side = some (rep p) ∧
      ∃ st, stage? nodes' p = some st := by
  obtain ⟨p, hp⟩ := hw'.fed j stage side hj hside
  refine ⟨p, hw'.forward p _ hp, parent?_eq hw' hp, parent?_eq hw (h.feeds p _ hp), ?_⟩
  obtain ⟨m, hm, -⟩ := hp
  exact ⟨m.stage, by unfold stage?; rw [hm]; rfl⟩

theorem stream (h : Folds rep nodes' nodes) (hw' : Wired nodes') (hw : Wired nodes)
    (hfree : ∀ i st, stage? nodes i = some st → st.OriginFree) (hj : stage? nodes' j = some stage) :
    LikeTuples (Reference.stream nodes' plan facts j) (Reference.stream nodes plan facts (rep j)) := by
  induction j using Nat.strongRecOn generalizing stage with
  | ind j ih =>
    have hrep := h.stage j stage hj
    rw [stream_eq, stream_eq, hj, hrep]
    refine derive_rel (hfree _ _ hrep) fun side hside => ?_
    obtain ⟨p, hlt, hp', hp, st, hst⟩ := h.parent hw' hw hj hside
    unfold inputOf
    rw [hp', hp]
    exact ih p hlt hst

/-- A constraint comes to the same total wherever its scorer is folded to. -/
theorem total (h : Folds rep nodes' nodes) (hw' : Wired nodes') (hw : Wired nodes)
    (hfree : ∀ i st, stage? nodes i = some st → st.OriginFree) {c : Constraint sh}
    (hc : stage? nodes' c.scorer = some stage) (hscorer : stage.isScorer) :
    Reference.total nodes' plan facts c =
      Reference.total nodes plan facts { c with scorer := rep c.scorer } := by
  cases stage with
  | scorer weight matchWeight watched =>
    have hrep := h.stage _ _ hc
    obtain ⟨p, -, hp', hp, st, hst⟩ := h.parent hw' hw hc (List.mem_singleton_self Side.left)
    unfold Reference.total inputOf
    dsimp only
    rw [hc, hrep, hp', hp]
    dsimp only
    refine Checked.Rel.eq ((Checked.Rel.of_eq rfl).bind fun w w' hww => ?_)
    refine (h.stream hw' hw hfree hst).bind fun ts us htu => ?_
    subst hww
    refine (ask_rel (OriginFree.matchScore (hfree _ _ hrep) w) htu).bind fun ps qs hpq => ?_
    rw [map_fst_eq hpq, hpq.length_eq]
    exact Checked.Rel.of_eq rfl
  | _ => cases hscorer

theorem evaluate (h : Folds rep nodes' nodes) (hw' : Wired nodes') (hw : Wired nodes)
    (hfree : ∀ i st, stage? nodes i = some st → st.OriginFree) {cs : List (Constraint sh)}
    (hcs : ∀ c ∈ cs, ∃ st, stage? nodes' c.scorer = some st ∧ st.isScorer) :
    Reference.evaluate nodes' cs plan facts =
      Reference.evaluate nodes (cs.map fun c => { c with scorer := rep c.scorer }) plan facts := by
  have htotals : cs.mapM (Reference.total nodes' plan facts) =
      (cs.map fun c => { c with scorer := rep c.scorer }).mapM
        (Reference.total nodes plan facts) := by
    rw [List.mapM_map]
    refine Checked.mapM_congr fun c hc => ?_
    obtain ⟨st, hst, hscorer⟩ := hcs c hc
    exact h.total hw' hw hfree hst hscorer
  unfold Reference.evaluate
  rw [htotals]

/-! ## Layouts -/

theorem layout (h : Folds rep nodes' nodes) (hw' : Wired nodes') (hw : Wired nodes)
    (hj : stage? nodes' j = some stage) : layout nodes' j = PlanSearch.layout nodes (rep j) := by
  induction j using Nat.strongRecOn generalizing stage with
  | ind j ih =>
    rw [layout_eq hj, layout_eq (h.stage j stage hj)]
    have hinput : ∀ side ∈ stage.inputs, inputLayout nodes' j side = inputLayout nodes (rep j) side :=
      fun side hside => by
        obtain ⟨p, hlt, hp', hp, st, hst⟩ := h.parent hw' hw hj hside
        unfold inputLayout
        rw [hp', hp]
        exact ih p hlt hst
    cases stage with
    | source family => rfl
    | filter test => exact hinput .left (List.mem_singleton_self _)
    | join leftKey rightKey =>
      show _ ++ _ = _ ++ _
      rw [hinput .left List.mem_cons_self,
        hinput .right (List.mem_cons_of_mem _ (List.mem_singleton_self _))]
    | group key value c => rfl
    | scorer weight matchWeight watched => rfl

/-- What is defined on the tuples of the images is defined on those that are folded. -/
theorem definedOn (h : Folds rep nodes' nodes) (hw' : Wired nodes') (hw : Wired nodes)
    {known : Fact → Prop} (hd : Session.DefinedOn nodes known plan) :
    Session.DefinedOn nodes' known plan := by
  intro j stage side hj hside t ht
  obtain ⟨p, -, hp', hp, st, hst⟩ := h.parent hw' hw hj hside
  refine hd (rep j) stage side (h.stage j stage hj) hside t ?_
  unfold inputLayout at ht ⊢
  rw [hp'] at ht
  rw [hp]
  dsimp only at ht ⊢
  rwa [← h.layout hw' hw hst]

end Folds

end PlanSearch
