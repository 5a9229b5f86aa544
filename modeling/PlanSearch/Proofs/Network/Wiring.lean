import Mathlib.Data.List.Nodup
import PlanSearch.Network.Builder
import PlanSearch.Proofs.Checked

/-!
# Wiring

How the nodes of a declared network hang together: edges lead to higher indices and to inputs that
their target listens on, and each such input is fed by exactly one node. Building cuts off the nodes
that no constraint depends on and leaves the wiring of the others as it is.

    Declared b → Wired b.nodes                                             (Declared.wellFormed)
    b.build = .ok n → the live nodes of n are fed as those of b            (build_serves)
-/

namespace PlanSearch

variable {S : Type} {sh : Shape}

/-- The inputs that a stage listens on. -/
def Stage.inputs : Stage S sh → List Side
  | source _ => []
  | join _ _ => [.left, .right]
  | _ => [.left]

/-- The stage of node `i`. -/
def stage? (nodes : Array (Node S sh)) (i : Nat) : Option (Stage S sh) := nodes[i]?.map (·.stage)

/-- The output of node `p` goes to `e`. -/
def Feeds (nodes : Array (Node S sh)) (p : Nat) (e : Edge) : Prop :=
  ∃ n, nodes[p]? = some n ∧ e ∈ n.children

/-- Each input of each node is fed by exactly one earlier node, and nothing else is. -/
structure Wired (nodes : Array (Node S sh)) : Prop where
  forward : ∀ p e, Feeds nodes p e → p < e.target
  listened : ∀ p e, Feeds nodes p e → ∃ stage, stage? nodes e.target = some stage ∧
    e.side ∈ stage.inputs
  fed : ∀ i stage side, stage? nodes i = some stage → side ∈ stage.inputs →
    ∃ p, Feeds nodes p ⟨i, side⟩
  unique : ∀ p q e, Feeds nodes p e → Feeds nodes q e → p = q
  nodup : ∀ (p : Nat) n, nodes[p]? = some n → n.children.Nodup

variable {nodes : Array (Node S sh)} {p i : Nat} {e : Edge} {stage : Stage S sh}

theorem Stage.nodup_inputs (stage : Stage S sh) : stage.inputs.Nodup := by
  cases stage <;> simp [Stage.inputs]

theorem lt_size_of_stage? (h : stage? nodes i = some stage) : i < nodes.size := by
  obtain ⟨n, hn, -⟩ := Option.map_eq_some_iff.1 h
  exact (Array.getElem?_eq_some_iff.1 hn).1

theorem Feeds.lt_size (h : Feeds nodes p e) : p < nodes.size := by
  obtain ⟨n, hn, -⟩ := h
  exact (Array.getElem?_eq_some_iff.1 hn).1

namespace NetworkBuilder

/-! ## Appending a node -/

theorem size_connect (nodes : Array (Node S sh)) (q : Nat) (e : Edge) :
    (connect nodes q e).size = nodes.size := Array.size_modify

theorem getElem?_connect (nodes : Array (Node S sh)) (q : Nat) (e : Edge) (i : Nat) :
    (connect nodes q e)[i]? =
      if q = i then (nodes[i]?).map fun n => { n with children := n.children ++ [e] }
      else nodes[i]? := Array.getElem?_modify

theorem stage?_connect (nodes : Array (Node S sh)) (q : Nat) (e : Edge) (i : Nat) :
    stage? (connect nodes q e) i = stage? nodes i := by
  unfold stage?
  rw [getElem?_connect]
  split
  · rw [Option.map_map]
    rfl
  · rfl

theorem feeds_connect {q : Nat} {e' : Edge} (hq : q < nodes.size) :
    Feeds (connect nodes q e') p e ↔ Feeds nodes p e ∨ (p = q ∧ e = e') := by
  unfold Feeds
  rw [getElem?_connect]
  by_cases h : q = p
  · subst h
    rw [if_pos rfl, Array.getElem?_eq_getElem hq]
    simp
  · have h' : p ≠ q := fun e => h e.symm
    simp [h, h']

/-- Edges from several parents to one node, one for each side. -/
theorem foldl_connect (id : Nat) (parents : List (Nat × Side)) (nodes : Array (Node S sh))
    (hp : ∀ q ∈ parents, q.1 < nodes.size) :
    let out := parents.foldl (fun nodes (q, side) => connect nodes q ⟨id, side⟩) nodes
    out.size = nodes.size ∧ (∀ i, stage? out i = stage? nodes i) ∧
      ∀ p e, Feeds out p e ↔ Feeds nodes p e ∨ (e.target = id ∧ (p, e.side) ∈ parents) := by
  induction parents generalizing nodes with
  | nil => simp
  | cons q parents ih =>
    obtain ⟨q, side⟩ := q
    have hq : q < nodes.size := hp (q, side) List.mem_cons_self
    obtain ⟨hsize, hstage, hfeeds⟩ := ih (connect nodes q ⟨id, side⟩) fun r hr => by
      rw [size_connect]
      exact hp r (List.mem_cons_of_mem _ hr)
    refine ⟨hsize.trans (size_connect ..), fun i => (hstage i).trans (stage?_connect ..),
      fun p e => ?_⟩
    rw [List.foldl_cons, hfeeds, feeds_connect hq]
    obtain ⟨target, side'⟩ := e
    simp only [Edge.mk.injEq, List.mem_cons, Prod.mk.injEq]
    tauto

/-- Children stay distinct as long as no edge is entered twice. -/
theorem nodup_foldl_connect (id : Nat) (parents : List (Nat × Side)) (nodes : Array (Node S sh))
    (hsides : (parents.map (·.2)).Nodup)
    (hnew : ∀ (p : Nat) n, nodes[p]? = some n → ∀ q ∈ parents, (⟨id, q.2⟩ : Edge) ∉ n.children)
    (hold : ∀ (p : Nat) n, nodes[p]? = some n → n.children.Nodup) :
    ∀ (p : Nat) n, (parents.foldl (fun nodes (q, side) => connect nodes q ⟨id, side⟩) nodes)[p]? = some n →
      n.children.Nodup := by
  induction parents generalizing nodes with
  | nil => exact hold
  | cons q parents ih =>
    obtain ⟨q, side⟩ := q
    rw [List.map_cons, List.nodup_cons] at hsides
    refine ih (connect nodes q ⟨id, side⟩) hsides.2 (fun p n hn r hr => ?_) fun p n hn => ?_
    · have hside : r.2 ≠ side := fun e => hsides.1 (List.mem_map.2 ⟨r, hr, e⟩)
      rw [getElem?_connect] at hn
      split at hn
      · obtain ⟨n', hn', rfl⟩ := Option.map_eq_some_iff.1 hn
        have := hnew p n' hn' r (List.mem_cons_of_mem _ hr)
        simp [this, hside]
      · exact hnew p n hn r (List.mem_cons_of_mem _ hr)
    · rw [getElem?_connect] at hn
      split at hn
      · obtain ⟨n', hn', rfl⟩ := Option.map_eq_some_iff.1 hn
        have := hnew p n' hn' (q, side) List.mem_cons_self
        rw [List.nodup_append]
        refine ⟨hold p n' hn', List.nodup_singleton _, fun a ha b hb => ?_⟩
        rw [List.mem_singleton] at hb
        subst hb
        exact fun hab => this (hab ▸ ha)
      · exact hold p n hn

variable {b b' : NetworkBuilder S sh} {parents : List (Nat × Side)}

theorem append_spec (b : NetworkBuilder S sh) (stage : Stage S sh)
    (hp : ∀ q ∈ parents, q.1 < b.nodes.size) :
    let out := (b.append stage parents).2
    out.nodes.size = b.nodes.size + 1 ∧
      (∀ i, stage? out.nodes i = if i = b.nodes.size then some stage else stage? b.nodes i) ∧
      ∀ p e, Feeds out.nodes p e ↔
        Feeds b.nodes p e ∨ (e.target = b.nodes.size ∧ (p, e.side) ∈ parents) := by
  obtain ⟨hsize, hstage, hfeeds⟩ := foldl_connect b.nodes.size parents
    (b.nodes.push { stage }) fun q hq => by
      rw [Array.size_push]
      exact Nat.lt_succ_of_lt (hp q hq)
  refine ⟨hsize.trans (Array.size_push ..), fun i => ?_, fun p e => ?_⟩
  · refine (hstage i).trans ?_
    unfold stage?
    rw [Array.getElem?_push]
    split <;> rfl
  · refine (hfeeds p e).trans ?_
    have hpush : Feeds (b.nodes.push { stage }) p e ↔ Feeds b.nodes p e := by
      unfold Feeds
      rw [Array.getElem?_push]
      by_cases h : p = b.nodes.size
      · simp [h]
      · simp [h]
    rw [hpush]

/-- A node that listens on one side for each of its parents keeps the nodes wired. -/
theorem wired_append (h : Wired b.nodes) (hp : ∀ q ∈ parents, q.1 < b.nodes.size)
    (hsides : parents.map (·.2) = stage.inputs) : Wired (b.append stage parents).2.nodes := by
  obtain ⟨hsize, hstage, hfeeds⟩ := append_spec b stage hp
  have hnodup : (parents.map (·.2)).Nodup := hsides ▸ stage.nodup_inputs
  have hold : ∀ p e, Feeds b.nodes p e → e.target ≠ b.nodes.size := fun p e he => by
    obtain ⟨stage', hs, -⟩ := h.listened p e he
    exact Nat.ne_of_lt (lt_size_of_stage? hs)
  refine ⟨fun p e he => ?_, fun p e he => ?_, fun i stage' side hi hside => ?_,
    fun p q e hpe hqe => ?_, ?_⟩
  · rcases (hfeeds p e).1 he with he | ⟨ht, he⟩
    · exact h.forward p e he
    · rw [ht]
      exact hp _ he
  · rw [hstage]
    rcases (hfeeds p e).1 he with he | ⟨ht, he⟩
    · rw [if_neg (hold p e he)]
      exact h.listened p e he
    · rw [if_pos ht]
      refine ⟨stage, rfl, ?_⟩
      rw [← hsides]
      exact List.mem_map_of_mem he
  · rw [hstage] at hi
    split at hi
    · next hid =>
      cases hi
      rw [← hsides] at hside
      obtain ⟨⟨q, _⟩, hq, rfl⟩ := List.mem_map.1 hside
      exact ⟨q, (hfeeds ..).2 (.inr ⟨hid, hq⟩)⟩
    · obtain ⟨q, hq⟩ := h.fed i stage' side hi hside
      exact ⟨q, (hfeeds ..).2 (.inl hq)⟩
  · rcases (hfeeds p e).1 hpe with hpe | ⟨ht, hpe⟩ <;> rcases (hfeeds q e).1 hqe with hqe | ⟨ht', hqe⟩
    · exact h.unique p q e hpe hqe
    · exact absurd ht' (hold p e hpe)
    · exact absurd ht (hold q e hqe)
    · have := List.inj_on_of_nodup_map hnodup hpe hqe rfl
      exact congrArg Prod.fst this
  · refine nodup_foldl_connect b.nodes.size parents _ hnodup (fun p n hn q hq hmem => ?_)
      fun p n hn => ?_
    · rw [Array.getElem?_push] at hn
      split at hn
      · cases hn
        simp at hmem
      · exact hold p _ ⟨n, hn, hmem⟩ rfl
    · rw [Array.getElem?_push] at hn
      split at hn
      · cases hn
        exact List.nodup_nil
      · exact h.nodup p n hn

/-! ## Declarations -/

/-- What can be declared: streams of any kind from streams of the builder, and constraints on
them. -/
inductive Declared : NetworkBuilder S sh → Prop where
  | start (id : Nat) (package : String) : Declared { id, package }
  | forEach {b : NetworkBuilder S sh} (h : Declared b) (family : Nat) :
    Declared (b.forEach family).2
  | filter {b b' : NetworkBuilder S sh} {stream stream' : Stream}
    {test : Named (S → Tuple → Checked Bool)} (h : Declared b)
    (e : b.filter stream test = .ok (stream', b')) : Declared b'
  | join {b b' : NetworkBuilder S sh} {left right stream' : Stream}
    {leftKey rightKey : Named (S → Tuple → Checked Key)} (h : Declared b)
    (e : b.join left right leftKey rightKey = .ok (stream', b')) : Declared b'
  | groupBy {b b' : NetworkBuilder S sh} {stream stream' : Stream}
    {key : Named (S → Tuple → Checked Key)} {c : Collector}
    {value : Named (S → Tuple → Checked Int64)} (h : Declared b)
    (e : b.groupBy stream key c value = .ok (stream', b')) : Declared b'
  | constrain {b b' : NetworkBuilder S sh} {name : String} {stream : Stream} {impact : Impact}
    {weight : Score sh} {matchWeight : S → Tuple → Checked Int64} {watched : Bool}
    (h : Declared b) (e : b.constrain name stream impact weight matchWeight watched = .ok b') :
    Declared b'

/-- The nodes are wired, each family has at most one source, and each constraint its own scorer. -/
structure WellFormed (b : NetworkBuilder S sh) : Prop where
  wired : Wired b.nodes
  source : ∀ i family, stage? b.nodes i = some (.source family) ↔
    b.signatures[Signature.source family]? = some i
  scorers : (b.constraints.map (·.scorer)).Nodup
  scorer : ∀ i, i ∈ b.constraints.map (·.scorer) ↔
    ∃ stage, stage? b.nodes i = some stage ∧ stage.isScorer
  weight : ∀ c ∈ b.constraints, ∃ signed matchWeight watched,
    c.weight.scaled c.impact.sign = .ok signed ∧
      stage? b.nodes c.scorer = some (.scorer signed matchWeight watched)

theorem wellFormed_start (id : Nat) (package : String) :
    WellFormed ({ id, package } : NetworkBuilder S sh) := by
  have hstage : ∀ i, stage? (#[] : Array (Node S sh)) i = none := fun i => by simp [stage?]
  have hfeeds : ∀ p e, ¬ Feeds (#[] : Array (Node S sh)) p e := fun p e h => by
    simpa using h.lt_size
  refine ⟨⟨?_, ?_, ?_, ?_, ?_⟩, ?_, List.nodup_nil, ?_, nofun⟩
  · exact fun p e h => absurd h (hfeeds p e)
  · exact fun p e h => absurd h (hfeeds p e)
  · exact fun i stage side h => by rw [hstage] at h; cases h
  · exact fun p q e h => absurd h (hfeeds p e)
  · exact fun p n h => by simp at h
  · exact fun i family => by simp [hstage]
  · exact fun i => by simp [hstage]

theorem check_eq_ok {stream : Stream} {node : Nat} (e : b.check stream = .ok node) :
    node < b.nodes.size := by
  unfold check at e
  split at e
  · next h =>
    cases e
    exact h.2
  · cases e

theorem WellFormed.weight_append (h : WellFormed b) (hp : ∀ q ∈ parents, q.1 < b.nodes.size)
    (c : Constraint sh) (hc : c ∈ b.constraints) : ∃ signed matchWeight watched,
      c.weight.scaled c.impact.sign = .ok signed ∧
        stage? (b.append stage parents).2.nodes c.scorer =
          some (.scorer signed matchWeight watched) := by
  obtain ⟨-, hstage, -⟩ := append_spec b stage hp
  obtain ⟨signed, matchWeight, watched, hw, hs⟩ := h.weight c hc
  refine ⟨signed, matchWeight, watched, hw, ?_⟩
  rw [hstage, if_neg (Nat.ne_of_lt (lt_size_of_stage? hs)), hs]

theorem wellFormed_append (h : WellFormed b) (hp : ∀ q ∈ parents, q.1 < b.nodes.size)
    (hsides : parents.map (·.2) = stage.inputs) (hscorer : stage.isScorer = false)
    (hsource : ∀ family, stage ≠ .source family) : WellFormed (b.append stage parents).2 := by
  obtain ⟨-, hstage, -⟩ := append_spec b stage hp
  have hnone : stage? b.nodes b.nodes.size = none := by simp [stage?]
  refine ⟨wired_append h.wired hp hsides, fun i family => ?_, h.scorers, fun i => ?_,
    h.weight_append hp⟩
  · refine Iff.trans ?_ (h.source i family)
    rw [hstage]
    split
    · next hi =>
      subst hi
      simp [hnone, hsource]
    · rfl
  · refine (h.scorer i).trans ?_
    rw [hstage]
    split
    · next hi =>
      subst hi
      simp [hnone, hscorer]
    · rfl

theorem wellFormed_signatures (h : WellFormed b) (signature : Signature) (node : Nat)
    (hs : ∀ family, signature ≠ .source family) :
    WellFormed { b with signatures := b.signatures.insert signature node } := by
  refine ⟨h.wired, fun i family => ?_, h.scorers, h.scorer, h.weight⟩
  refine (h.source i family).trans ?_
  rw [Std.HashMap.getElem?_insert, if_neg (by simpa using hs family)]

/-- Requesting a node that is no source keeps a builder well formed. -/
theorem wellFormed_request (h : WellFormed b) {signature? : Option Signature}
    (hp : ∀ q ∈ parents, q.1 < b.nodes.size) (hsides : parents.map (·.2) = stage.inputs)
    (hscorer : stage.isScorer = false) (hsource : ∀ family, stage ≠ .source family)
    (hs : ∀ family, signature? ≠ some (.source family)) :
    WellFormed (b.request signature? stage parents).2 := by
  have happend := wellFormed_append h hp hsides hscorer hsource
  unfold request
  split
  · exact happend
  · next signature =>
    split
    · exact ⟨h.wired, h.source, h.scorers, h.scorer, h.weight⟩
    · exact wellFormed_signatures happend signature _ fun family e => hs family (congrArg some e)

theorem wellFormed_forEach (h : WellFormed b) (family : Nat) : WellFormed (b.forEach family).2 := by
  unfold forEach request
  dsimp only
  split
  · exact ⟨h.wired, h.source, h.scorers, h.scorer, h.weight⟩
  · next hnew =>
    have hp : ∀ q ∈ ([] : List (Nat × Side)), q.1 < b.nodes.size := fun q hq => by cases hq
    obtain ⟨-, hstage, -⟩ := append_spec b (.source family) hp
    have hnone : stage? b.nodes b.nodes.size = none := by simp [stage?]
    refine ⟨wired_append h.wired hp rfl, fun i family' => ?_, h.scorers, fun i => ?_,
      h.weight_append hp⟩
    · rw [hstage]
      show _ ↔ (b.signatures.insert (Signature.source family) b.nodes.size)[_]? = some i
      rw [Std.HashMap.getElem?_insert]
      have hfresh : stage? b.nodes i ≠ some (.source family) := fun e => by
        rw [h.source, hnew] at e
        cases e
      have hsize : b.signatures[Signature.source family']? ≠ some b.nodes.size := fun e => by
        rw [← h.source, hnone] at e
        cases e
      by_cases hf : family' = family
      · subst hf
        by_cases hi : i = b.nodes.size
        · simp [hi]
        · have hi' : b.nodes.size ≠ i := fun e => hi e.symm
          simp [hi, hi', hfresh]
      · have hf' : family ≠ family' := fun e => hf e.symm
        by_cases hi : i = b.nodes.size
        · subst hi
          simp [hf', hsize]
        · simp [hf', hi, h.source]
    · refine (h.scorer i).trans ?_
      rw [hstage]
      split
      · next hi =>
        subst hi
        simp [hnone, Stage.isScorer]
      · rfl

/-- A constraint is declared with a scorer of its own. -/
theorem constrain_eq_ok {name : String} {stream : Stream} {impact : Impact} {weight : Score sh}
    {matchWeight : S → Tuple → Checked Int64} {watched : Bool}
    (e : b.constrain name stream impact weight matchWeight watched = .ok b') :
    ∃ input signed, b.check stream = .ok input ∧ weight.singleLevel?.isNone = false ∧
      weight.scaled impact.sign = .ok signed ∧
      b' = { (b.append (.scorer signed matchWeight watched) [(input, .left)]).2 with
        constraints := b.constraints ++ [⟨⟨b.package, name⟩, b.nodes.size, weight, impact⟩] } := by
  unfold constrain at e
  split at e
  · cases e
  next input hinput =>
  dsimp only at e
  split at e
  · cases e
  next hlevel =>
  split at e
  · cases e
  split at e
  · cases e
  next signed hsigned =>
  cases e
  exact ⟨input, signed, hinput, Bool.eq_false_iff.2 hlevel, hsigned, rfl⟩

theorem wellFormed_constrain {name : String} {stream : Stream} {impact : Impact}
    {weight : Score sh} {matchWeight : S → Tuple → Checked Int64} {watched : Bool}
    (h : WellFormed b) (e : b.constrain name stream impact weight matchWeight watched = .ok b') :
    WellFormed b' := by
  obtain ⟨input, signed, hinput, -, hsigned, rfl⟩ := constrain_eq_ok e
  have hp : ∀ q ∈ [(input, Side.left)], q.1 < b.nodes.size :=
    List.forall_mem_singleton.2 (check_eq_ok hinput)
  obtain ⟨-, hstage, -⟩ := append_spec b (.scorer signed matchWeight watched) hp
  have hnone : stage? b.nodes b.nodes.size = none := by simp [stage?]
  have hfresh : b.nodes.size ∉ b.constraints.map (·.scorer) := fun hm => by
    obtain ⟨stage, hs, -⟩ := (h.scorer _).1 hm
    rw [hnone] at hs
    cases hs
  refine ⟨wired_append h.wired hp rfl, fun i family => ?_, ?_, fun i => ?_, fun c hc => ?_⟩
  · refine Iff.trans ?_ (h.source i family)
    rw [hstage]
    split
    · next hi =>
      subst hi
      simp [hnone]
    · rfl
  · show ((b.constraints ++ [_]).map _).Nodup
    rw [List.map_append, List.nodup_append]
    refine ⟨h.scorers, List.nodup_singleton _, fun x hx y hy => ?_⟩
    rw [List.map_singleton, List.mem_singleton] at hy
    rintro rfl
    rw [hy] at hx
    exact hfresh hx
  · show i ∈ (b.constraints ++ [_]).map _ ↔ _
    rw [List.map_append, List.mem_append, hstage, h.scorer]
    show _ ∨ i ∈ [b.nodes.size] ↔ _
    rw [List.mem_singleton]
    by_cases hi : i = b.nodes.size
    · simp [hi, Stage.isScorer]
    · simp [hi]
  · rcases List.mem_append.1 hc with hc | hc
    · exact h.weight_append hp c hc
    · rw [List.mem_singleton] at hc
      subst hc
      exact ⟨signed, matchWeight, watched, hsigned, by rw [hstage]; exact if_pos rfl⟩

/-- Whatever is declared is well formed. -/
theorem Declared.wellFormed (h : Declared b) : WellFormed b := by
  induction h with
  | start id package => exact wellFormed_start id package
  | forEach _ family ih => exact wellFormed_forEach ih family
  | @filter b b' stream stream' test _ e ih =>
    obtain ⟨input, hinput, e⟩ := Checked.bind_eq_ok e
    have hb := congrArg Prod.snd (Except.ok.inj e)
    dsimp only at hb
    rw [← hb]
    refine wellFormed_request ih (by simpa using check_eq_ok hinput) rfl rfl nofun fun family => ?_
    cases test.name? <;> exact nofun
  | @join b b' left right stream' leftKey rightKey _ e ih =>
    obtain ⟨l, hl, e⟩ := Checked.bind_eq_ok e
    obtain ⟨r, hr, e⟩ := Checked.bind_eq_ok e
    have hb := congrArg Prod.snd (Except.ok.inj e)
    dsimp only at hb
    rw [← hb]
    refine wellFormed_request ih (by simpa using ⟨check_eq_ok hl, check_eq_ok hr⟩) rfl rfl nofun fun family => ?_
    cases leftKey.name? <;> cases rightKey.name? <;> exact nofun
  | @groupBy b b' stream stream' key c value _ e ih =>
    obtain ⟨input, hinput, e⟩ := Checked.bind_eq_ok e
    have hb := congrArg Prod.snd (Except.ok.inj e)
    dsimp only at hb
    rw [← hb]
    refine wellFormed_request ih (by simpa using check_eq_ok hinput) rfl rfl nofun fun family => ?_
    cases key.name? <;> cases value.name? <;> exact nofun
  | constrain _ e ih => exact wellFormed_constrain ih e

/-! ## Building -/

theorem markLive_spec (hf : ∀ p e, Feeds nodes p e → p < e.target) (k : Nat) (live : Array Bool)
    (hsize : live.size = nodes.size) (hk : k ≤ nodes.size) :
    let out := markLive nodes k live
    (∀ j, k ≤ j → out.getD j false = live.getD j false) ∧
      ∀ (j : Nat) n, j < k → nodes[j]? = some n → out.getD j false =
        (n.stage.isScorer || n.children.any fun e => out.getD e.target false) := by
  induction k generalizing live with
  | zero => exact ⟨fun _ _ => rfl, fun j n hj => absurd hj (Nat.not_lt_zero j)⟩
  | succ k ih =>
    have hget : ∀ (x : Bool) (j : Nat), (live.setIfInBounds k x).getD j false =
        if j = k then x else live.getD j false := fun x j => by
      rw [Array.getD_eq_getD_getElem?, Array.getElem?_setIfInBounds, Array.getD_eq_getD_getElem?]
      by_cases hj : j = k
      · subst hj
        have hlt : j < live.size := by omega
        simp [hlt]
      · have hj' : k ≠ j := fun e => hj e.symm
        simp [hj, hj']
    have hnode : nodes[k]? = some nodes[k] := Array.getElem?_eq_getElem (by omega)
    unfold markLive
    rw [hnode]
    dsimp only
    obtain ⟨hge, hlt⟩ := ih (live.setIfInBounds k (nodes[k].stage.isScorer ||
      nodes[k].children.any fun e => live.getD e.target false))
      (by rw [Array.size_setIfInBounds, hsize]) (by omega)
    refine ⟨fun j hj => ?_, fun j n hj hn => ?_⟩
    · rw [hge j (by omega), hget, if_neg (by omega)]
    · rcases Nat.lt_or_eq_of_le (Nat.le_of_lt_succ hj) with hj | rfl
      · exact hlt j n hj hn
      · rw [hnode] at hn
        cases hn
        rw [hge j (Nat.le_refl j), hget, if_pos rfl]
        congr 1
        -- The targets lie behind the node, so their marks are final already.
        rw [Bool.eq_iff_iff, List.any_eq_true, List.any_eq_true]
        refine exists_congr fun e => and_congr_right fun he => ?_
        have ht := hf j e ⟨_, hnode, he⟩
        rw [hge e.target (by omega), hget, if_neg (by omega)]

/-- A constraint depends on the node. -/
def Live (nodes : Array (Node S sh)) (i : Nat) : Prop := (liveNodes nodes).getD i false = true

theorem live_iff (h : Wired nodes) {n : Node S sh} (hn : nodes[i]? = some n) :
    Live nodes i ↔ n.stage.isScorer ∨ ∃ e ∈ n.children, Live nodes e.target := by
  have hspec := markLive_spec h.forward nodes.size (Array.replicate nodes.size false) (by simp)
    (Nat.le_refl _)
  have hlt := (Array.getElem?_eq_some_iff.1 hn).1
  unfold Live liveNodes
  rw [hspec.2 i n hlt hn, Bool.or_eq_true, List.any_eq_true]

/-- In a table with one entry for each key, an entry is what looking up its key finds. -/
theorem mem_iff_lookup_eq_some {l : List (Nat × Nat)} {family i : Nat}
    (h : ∀ family i j, (family, i) ∈ l → (family, j) ∈ l → i = j) :
    (family, i) ∈ l ↔ l.lookup family = some i := by
  constructor
  · intro hi
    cases hj : l.lookup family with
    | none =>
      have := List.lookup_eq_none_iff.1 hj _ hi
      simp at this
    | some j =>
      obtain ⟨l₁, l₂, hl, -⟩ := List.lookup_eq_some_iff.1 hj
      rw [h family i j hi (by rw [hl]; simp)]
  · intro hi
    obtain ⟨l₁, l₂, hl, -⟩ := List.lookup_eq_some_iff.1 hi
    rw [hl]
    simp

theorem mem_liveSources {live : Array Bool} {list : List (Node S sh)} {k j family : Nat} :
    (family, j) ∈ liveSources live k list ↔
      ∃ d n, list[d]? = some n ∧ j = k + d ∧ n.stage = .source family ∧ live.getD j false = true := by
  induction list generalizing k with
  | nil => simp [liveSources]
  | cons n list ih =>
    -- The head is at distance zero, and what lies behind it is one further away.
    have hsplit : (∃ d m, (n :: list)[d]? = some m ∧ j = k + d ∧ m.stage = .source family ∧
        live.getD j false = true) ↔
        (j = k ∧ n.stage = .source family ∧ live.getD j false = true) ∨
          (family, j) ∈ liveSources live (k + 1) list := by
      rw [ih]
      constructor
      · rintro ⟨d, m, hm, rfl, hs, hl⟩
        cases d with
        | zero => cases hm; exact .inl ⟨rfl, hs, hl⟩
        | succ d => exact .inr ⟨d, m, hm, by omega, hs, hl⟩
      · rintro (⟨rfl, hs, hl⟩ | ⟨d, m, hm, rfl, hs, hl⟩)
        · exact ⟨0, n, rfl, rfl, hs, hl⟩
        · exact ⟨d + 1, m, hm, by omega, hs, hl⟩
    rw [hsplit, liveSources]
    split
    · next family' hs =>
      split
      · next hl =>
        rw [List.mem_cons, Prod.mk.injEq, hs]
        constructor
        · rintro (⟨rfl, rfl⟩ | h)
          · exact .inl ⟨rfl, rfl, hl⟩
          · exact .inr h
        · rintro (⟨rfl, h, -⟩ | h)
          · cases h
            exact .inl ⟨rfl, rfl⟩
          · exact .inr h
      · next hl =>
        refine (or_iff_right ?_).symm
        rintro ⟨rfl, -, h⟩
        exact hl h
    · next hs =>
      refine (or_iff_right ?_).symm
      rintro ⟨-, h, -⟩
      exact hs family h

end NetworkBuilder

open NetworkBuilder (Live)

/-- The network has the live part of the wiring of `nodes`: where a constraint depends on a node,
it depends on all that feeds it, and those edges are there. -/
structure Network.Carries (n : Network S sh) (nodes : Array (Node S sh)) : Prop where
  wired : Wired nodes
  size : n.nodes.size = nodes.size
  stage : ∀ i, stage? n.nodes i = stage? nodes i
  feeds : ∀ p e, Feeds n.nodes p e ↔ Feeds nodes p e ∧ Live nodes e.target
  nodup : ∀ (p : Nat) m, n.nodes[p]? = some m → m.children.Nodup
  source : ∀ family i, n.source? family = some i ↔
    stage? nodes i = some (.source family) ∧ Live nodes i
  mem_sources : ∀ family i, (family, i) ∈ n.sources ↔ n.source? family = some i
  scorers : (n.constraints.map (·.scorer)).Nodup
  scorer : ∀ i, i ∈ n.constraints.map (·.scorer) ↔
    ∃ stage, stage? nodes i = some stage ∧ stage.isScorer
  weight : ∀ c ∈ n.constraints, ∃ signed matchWeight watched,
    c.weight.scaled c.impact.sign = .ok signed ∧
      stage? nodes c.scorer = some (.scorer signed matchWeight watched)

namespace Network.Carries

variable {n : Network S sh}

theorem live_of_feeds (h : n.Carries nodes) (hf : Feeds nodes p e) (he : Live nodes e.target) :
    Live nodes p := by
  obtain ⟨m, hm, hmem⟩ := hf
  exact (NetworkBuilder.live_iff h.wired hm).2 (.inr ⟨e, hmem, he⟩)

theorem live_of_scorer (h : n.Carries nodes) (hs : stage? nodes i = some stage)
    (hsc : stage.isScorer) : Live nodes i := by
  obtain ⟨m, hm, rfl⟩ := Option.map_eq_some_iff.1 hs
  exact (NetworkBuilder.live_iff h.wired hm).2 (.inl hsc)

end Network.Carries

theorem NetworkBuilder.constraints_of_build {b : NetworkBuilder S sh} {n : Network S sh}
    (e : b.build = .ok n) : n.constraints = b.constraints := by
  unfold build at e
  split at e
  · cases e
  · cases e
    rfl

/-- Building leaves out what no constraint depends on and keeps everything else. -/
theorem NetworkBuilder.WellFormed.carries {b : NetworkBuilder S sh} {n : Network S sh}
    (h : WellFormed b) (e : b.build = .ok n) : n.Carries b.nodes := by
  unfold build at e
  split at e
  · cases e
  · cases e
    have hmem : ∀ family i, (family, i) ∈ liveSources (liveNodes b.nodes) 0 b.nodes.toList ↔
        stage? b.nodes i = some (.source family) ∧ Live b.nodes i := fun family i => by
      rw [mem_liveSources]
      unfold stage? Live
      rw [Option.map_eq_some_iff]
      constructor
      · rintro ⟨d, n, hn, rfl, hs, hl⟩
        rw [Nat.zero_add] at hl ⊢
        exact ⟨⟨n, by rw [← Array.getElem?_toList]; exact hn, hs⟩, hl⟩
      · rintro ⟨⟨n, hn, hs⟩, hl⟩
        exact ⟨i, n, by rw [Array.getElem?_toList]; exact hn, (Nat.zero_add i).symm, hs, hl⟩
    have hlookup : ∀ family i, (family, i) ∈ liveSources (liveNodes b.nodes) 0 b.nodes.toList ↔
        (liveSources (liveNodes b.nodes) 0 b.nodes.toList).lookup family = some i := fun family i =>
      mem_iff_lookup_eq_some fun family i j hi hj => by
        have hi := ((hmem family i).1 hi).1
        have hj := ((hmem family j).1 hj).1
        rw [h.source] at hi hj
        exact Option.some.inj (hi.symm.trans hj)
    refine ⟨h.wired, by simp, fun i => ?_, fun p e => ?_, fun p m hm => ?_,
      fun family i => (hlookup family i).symm.trans (hmem family i), hlookup, h.scorers, h.scorer,
      h.weight⟩
    · unfold stage?
      rw [Array.getElem?_map, Option.map_map]
      rfl
    · unfold Feeds
      rw [Array.getElem?_map]
      cases b.nodes[p]? with
      | none => simp
      | some n => simp [Live]
    · rw [Array.getElem?_map] at hm
      obtain ⟨m', hm', rfl⟩ := Option.map_eq_some_iff.1 hm
      exact (h.wired.nodup p m' hm').filter _

end PlanSearch
