import PlanSearch.Proofs.Network.Calls
import PlanSearch.Proofs.Workspace.Incremental

/-!
# Shared nodes

A builder that makes two nodes one if they apply functions of the same names to the same inputs
declares a network that means what it would mean if each filter, join and group had a node of its
own, provided that equal names stand for equal functions. The calls are carried out on both builders
at once: what the unshared builder has declared folds onto what the shared one has, whatever the
calls.

    Shares x' x → each call is refused by both, or Shares again              (Shares.carryOut)
    b.build = .ok n → one source for a family, each fact is queued once      (deliversOnce)
    shared and unshared networks settle to the same totals                   (sharing_agrees)
-/

namespace PlanSearch

open Checked (Rel)

variable {S : Type} {sh : Shape} {γ : Type}

/-! ## Both builders at once -/

open NetworkBuilder (WellFormed)

/-- The nodes of `b'` fold onto those of `b`, and so do the constraints. -/
structure NetworkBuilder.Shares (naming : Naming S) (rep : Nat → Nat) (b' b : NetworkBuilder S sh) :
    Prop where
  wellFormed' : WellFormed b'
  wellFormed : WellFormed b
  id : b'.id = b.id
  package : b'.package = b.package
  folds : Folds rep b'.nodes b.nodes
  truthful : b.Truthful naming
  source : ∀ i family, stage? b.nodes i = some (.source family) →
    ∃ j, stage? b'.nodes j = some (.source family)
  constraints : b.constraints = b'.constraints.map fun c => { c with scorer := rep c.scorer }

/-- The streams of `x'` fold onto those of `x` as well. -/
structure Blueprint.Shares (naming : Naming S) (rep : Nat → Nat) (x' x : Blueprint S sh) : Prop where
  builder : x'.builder.Shares naming rep x.builder
  streams : x.streams = x'.streams.map fun s => { s with node := rep s.node }
  made : ∀ s ∈ x'.streams, s.owner = x'.builder.id ∧ s.node < x'.builder.nodes.size

variable {naming : Naming S} {rep : Nat → Nat}

namespace NetworkBuilder.Shares

variable {b' b c' c : NetworkBuilder S sh} {stage : Stage S sh} {parents : List (Nat × Side)}
  {i : Nat}

theorem lt_size (h : b'.Shares naming rep b) {j : Nat} (hj : j < b'.nodes.size) :
    rep j < b.nodes.size := by
  have hstage : stage? b'.nodes j = some b'.nodes[j].stage := by
    unfold stage?
    rw [Array.getElem?_eq_getElem hj]
    rfl
  exact lt_size_of_stage? (h.folds.stage j _ hstage)

theorem lt_parents (h : b'.Shares naming rep b) (hp : ∀ q ∈ parents, q.1 < b'.nodes.size) :
    ∀ q ∈ parents.map fun q => (rep q.1, q.2), q.1 < b.nodes.size := fun q hq => by
  obtain ⟨q', hq', rfl⟩ := List.mem_map.1 hq
  exact h.lt_size (hp q' hq')

/-- An appended node is folded onto a node that does the same on the images of its parents. -/
theorem grow (h : b'.Shares naming rep b) (hw' : WellFormed c') (hw : WellFormed c)
    (hp : ∀ q ∈ parents, q.1 < b'.nodes.size)
    (hnodes : c'.nodes = (b'.append stage parents).2.nodes) (hid' : c'.id = b'.id)
    (hpackage' : c'.package = b'.package)
    (hc : b.Provides stage (parents.map fun q => (rep q.1, q.2)) (⟨i, b.id⟩, c))
    (htruthful : c.Truthful naming)
    (hconstraints : c.constraints = c'.constraints.map fun k =>
      { k with scorer := Function.update rep b'.nodes.size i k.scorer }) :
    c'.Shares naming (Function.update rep b'.nodes.size i) c where
  wellFormed' := hw'
  wellFormed := hw
  id := by rw [hid', h.id, hc.id]
  package := by rw [hpackage', h.package, hc.package]
  folds := hnodes ▸ folds_append h.folds h.wellFormed'.wired hc.keeps hp hc.hosts
  truthful := htruthful
  source k family hk := by
    have happend : b'.Provides stage parents (b'.append stage parents) := append_provides hp
    rw [hnodes]
    rcases hc.only k _ hk with hk | hk
    · obtain ⟨j, hj⟩ := h.source k family hk
      exact ⟨j, happend.keeps.stage j _ hj⟩
    · exact ⟨b'.nodes.size, hk ▸ happend.hosts.stage⟩
  constraints := hconstraints

/-- The constraints there were are folded as before. -/
theorem constraints_update (h : b'.Shares naming rep b) (i : Nat) :
    b.constraints = b'.constraints.map fun k =>
      { k with scorer := Function.update rep b'.nodes.size i k.scorer } := by
  rw [h.constraints]
  refine List.map_congr_left fun k hk => ?_
  obtain ⟨st, hst, -⟩ := (h.wellFormed'.scorer _).1 (List.mem_map_of_mem hk)
  rw [Function.update_of_ne (Nat.ne_of_lt (lt_size_of_stage? hst))]

theorem enlist (h : b'.Shares naming rep b) {input : Nat} (hlt : input < b'.nodes.size)
    {name : ConstraintName} {impact : Impact} {weight signed : Score sh}
    {matchWeight : S → Tuple → Checked Int64} {watched : Bool}
    (hw' : WellFormed (b'.enlist input name impact weight signed matchWeight watched))
    (hw : WellFormed (b.enlist (rep input) name impact weight signed matchWeight watched)) :
    (b'.enlist input name impact weight signed matchWeight watched).Shares naming
      (Function.update rep b'.nodes.size b.nodes.size)
      (b.enlist (rep input) name impact weight signed matchWeight watched) := by
  have hp : ∀ q ∈ [(input, Side.left)], q.1 < b'.nodes.size := List.forall_mem_singleton.2 hlt
  have happend : b.Provides (.scorer signed matchWeight watched) _ _ :=
    append_provides (h.lt_parents hp)
  refine h.grow hw' hw hp rfl rfl rfl
    ⟨rfl, rfl, rfl, happend.keeps, happend.hosts, happend.only⟩
    (fun s i hi => (h.truthful s i hi).mono happend.keeps) ?_
  show b.constraints ++ _ = List.map _ (b'.constraints ++ _)
  rw [List.map_append, ← h.constraints_update, List.map_singleton]
  dsimp only
  rw [Function.update_self]

end NetworkBuilder.Shares

namespace Blueprint.Shares

variable {x' x : Blueprint S sh} {stage : Stage S sh} {parents : List (Nat × Side)}

/-- Both builders find the stream that was returned under this number, or neither does. -/
theorem check (h : x'.Shares naming rep x) (k : Nat) :
    Rel (fun p' p => p = rep p' ∧ p' < x'.builder.nodes.size)
      (x'.builder.check (x'.stream k)) (x.builder.check (x.stream k)) := by
  unfold stream
  rw [h.streams, List.getD_eq_getElem?_getD, List.getD_eq_getElem?_getD, List.getElem?_map,
    ← h.builder.id]
  cases hk : x'.streams[k]? with
  | none =>
    have hforeign : ∀ b : NetworkBuilder S sh, b.id = x'.builder.id →
        b.check ⟨0, x'.builder.id + 1⟩ = .error (.configuration
          s!"stream n{0} was not created by this constraint factory") := fun b hb => by
      unfold NetworkBuilder.check
      rw [if_neg fun e => Nat.succ_ne_self _ (e.1.trans hb)]
    show Rel _ (x'.builder.check ⟨0, x'.builder.id + 1⟩) (x.builder.check ⟨0, x'.builder.id + 1⟩)
    rw [hforeign _ rfl, hforeign _ h.builder.id.symm]
    exact .error _
  | some s =>
    obtain ⟨howner, hlt⟩ := h.made s (List.mem_of_getElem? hk)
    show Rel _ (x'.builder.check s) (x.builder.check { s with node := rep s.node })
    unfold NetworkBuilder.check
    rw [if_pos ⟨howner, hlt⟩, if_pos ⟨howner.trans h.builder.id, h.builder.lt_size hlt⟩]
    exact .ok ⟨rfl, hlt⟩

/-- A stream that both builders return joins the others. -/
theorem enter (h : x'.Shares naming rep x) {b' b : NetworkBuilder S sh} {i' i : Nat}
    {rep' : Nat → Nat} (hb : b'.Shares naming rep' b) (hid : b'.id = x'.builder.id)
    (hsize : x'.builder.nodes.size ≤ b'.nodes.size)
    (hrep : ∀ j < x'.builder.nodes.size, rep' j = rep j) (hi' : i' < b'.nodes.size)
    (hi : i = rep' i') :
    Blueprint.Shares naming rep' ⟨b', x'.streams ++ [⟨i', x'.builder.id⟩]⟩
      ⟨b, x.streams ++ [⟨i, x.builder.id⟩]⟩ where
  builder := hb
  streams := by
    have hstreams : x.streams = x'.streams.map fun s => { s with node := rep' s.node } := by
      rw [h.streams]
      exact List.map_congr_left fun s hs => by rw [hrep _ (h.made s hs).2]
    rw [List.map_append, List.map_singleton, ← hstreams, h.builder.id, hi]
  made s hs := by
    rcases List.mem_append.1 hs with hs | hs
    · obtain ⟨howner, hlt⟩ := h.made s hs
      exact ⟨howner.trans hid.symm, Nat.lt_of_lt_of_le hlt hsize⟩
    · rw [List.mem_singleton.1 hs]
      exact ⟨hid.symm, hi'⟩

/-- A node that was appended on one side joins the others together with its image. -/
theorem grow (h : x'.Shares naming rep x) {b' : NetworkBuilder S sh}
    {out : Stream × NetworkBuilder S sh} (hw' : WellFormed b') (hw : WellFormed out.2)
    (hp : ∀ q ∈ parents, q.1 < x'.builder.nodes.size)
    (hnodes : b'.nodes = (x'.builder.append stage parents).2.nodes)
    (hid : b'.id = x'.builder.id) (hpackage : b'.package = x'.builder.package)
    (hconstraints' : b'.constraints = x'.builder.constraints)
    (hprovides : x.builder.Provides stage (parents.map fun q => (rep q.1, q.2)) out)
    (htruthful : out.2.Truthful naming) (hconstraints : out.2.constraints = x.builder.constraints) :
    ∃ rep', Blueprint.Shares naming rep'
      ⟨b', x'.streams ++ [⟨x'.builder.nodes.size, x'.builder.id⟩]⟩
      ⟨out.2, x.streams ++ [out.1]⟩ := by
  obtain ⟨hsize, -⟩ := NetworkBuilder.append_spec x'.builder stage hp
  have hlt : x'.builder.nodes.size < b'.nodes.size := by
    rw [hnodes, hsize]
    exact Nat.lt_succ_self _
  obtain ⟨⟨i, owner⟩, b⟩ := out
  obtain rfl : owner = x.builder.id := hprovides.owner
  refine ⟨_, h.enter (h.builder.grow hw' hw hp hnodes hid hpackage hprovides htruthful ?_) hid
    (Nat.le_of_lt hlt) (fun j hj => Function.update_of_ne (Nat.ne_of_lt hj) _ _) hlt ?_⟩
  · rw [hconstraints, hconstraints']
    exact h.builder.constraints_update i
  · exact (Function.update_self x'.builder.nodes.size i rep).symm

/-- A node of its own here is a node on record or a new one there. -/
theorem request (h : x'.Shares naming rep x) {signature? : Option Signature} (stage : Stage S sh)
    (parents : List (Nat × Side)) (hp : ∀ q ∈ parents, q.1 < x'.builder.nodes.size)
    (hs : ∀ s, signature? = some s →
      s.stage naming = stage ∧ s.parents = parents.map fun q => (rep q.1, q.2))
    (hsides : parents.map (·.2) = stage.inputs) (hscorer : stage.isScorer = false)
    (hsource : ∀ family, stage ≠ .source family) :
    Rel (fun y' y => ∃ rep', Blueprint.Shares naming rep' y' y)
      (x'.enter (.ok (x'.builder.request none stage parents)))
      (x.enter (.ok (x.builder.request signature? stage (parents.map fun q => (rep q.1, q.2))))) := by
  have hp' := h.builder.lt_parents hp
  obtain ⟨hprovides, htruthful, hconstraints⟩ :=
    NetworkBuilder.request_provides h.builder.truthful hp' hs
  have hw : WellFormed
      (x.builder.request signature? stage (parents.map fun q => (rep q.1, q.2))).2 :=
    NetworkBuilder.wellFormed_request h.builder.wellFormed hp'
      (by rw [← hsides, List.map_map]; rfl) hscorer hsource
      fun family e => hsource family (hs _ e).1.symm
  have hw' := NetworkBuilder.wellFormed_append h.builder.wellFormed' hp hsides hscorer hsource
  exact .ok (h.grow hw' hw hp rfl rfl rfl rfl hprovides htruthful hconstraints)

theorem forEach (h : x'.Shares naming rep x) (family : Nat) :
    Rel (fun y' y => ∃ rep', Blueprint.Shares naming rep' y' y)
      (x'.enter (.ok (x'.builder.forEach family))) (x.enter (.ok (x.builder.forEach family))) := by
  have hw' := NetworkBuilder.wellFormed_forEach h.builder.wellFormed' family
  have hw := NetworkBuilder.wellFormed_forEach h.builder.wellFormed family
  unfold NetworkBuilder.forEach at hw' hw ⊢
  cases hj : x'.builder.signatures[Signature.source family]? with
  | some j =>
    -- The source is on record on both sides.
    have hstage := (h.builder.wellFormed'.source j family).2 hj
    have hi := (h.builder.wellFormed.source _ family).1 (h.builder.folds.stage j _ hstage)
    unfold NetworkBuilder.request at hw' hw ⊢
    dsimp only at hw' hw ⊢
    rw [hj] at hw' ⊢
    rw [hi] at hw ⊢
    exact .ok ⟨rep, h.enter ⟨hw', hw, h.builder.id, h.builder.package, h.builder.folds,
      h.builder.truthful, h.builder.source, h.builder.constraints⟩ rfl (Nat.le_refl _)
      (fun _ _ => rfl) (lt_size_of_stage? hstage) rfl⟩
  | none =>
    have hp : ∀ q ∈ ([] : List (Nat × Side)), q.1 < x'.builder.nodes.size := nofun
    have hs : ∀ s, some (Signature.source family) = some s →
        s.stage naming = (.source family : Stage S sh) ∧ s.parents = [] := fun s hs => by
      cases hs
      exact ⟨rfl, rfl⟩
    obtain ⟨hprovides, htruthful, hconstraints⟩ :=
      NetworkBuilder.request_provides h.builder.truthful (h.builder.lt_parents hp) hs
    unfold NetworkBuilder.request at hw' ⊢
    dsimp only at hw' ⊢
    rw [hj] at hw' ⊢
    refine .ok (h.grow hw' hw hp ?_ rfl rfl rfl hprovides htruthful hconstraints)
    rfl

theorem constrain (h : x'.Shares naming rep x) (name : String) (input : Nat) (impact : Impact)
    (weight : Score sh) (matchWeight : S → Tuple → Checked Int64) (watched : Bool) :
    Rel (fun y' y => ∃ rep', Blueprint.Shares naming rep' y' y)
      ((Declaration.constrain name input impact weight matchWeight watched).carryOut x')
      ((Declaration.constrain name input impact weight matchWeight watched).carryOut x) := by
  have hany : x.builder.constraints.any (·.name == (⟨x'.builder.package, name⟩ : ConstraintName)) =
      x'.builder.constraints.any (·.name == (⟨x'.builder.package, name⟩ : ConstraintName)) := by
    rw [h.builder.constraints, List.any_map]
    rfl
  have hcheck := h.check input
  have hwell' : ∀ b', x'.builder.constrain name (x'.stream input) impact weight matchWeight watched =
      .ok b' → WellFormed b' := fun _ =>
    NetworkBuilder.wellFormed_constrain h.builder.wellFormed'
  have hwell : ∀ b, x.builder.constrain name (x.stream input) impact weight matchWeight watched =
      .ok b → WellFormed b := fun _ => NetworkBuilder.wellFormed_constrain h.builder.wellFormed
  unfold Declaration.carryOut
  dsimp only
  rw [NetworkBuilder.constrain_eq] at hwell' hwell ⊢
  rw [NetworkBuilder.constrain_eq]
  generalize x'.builder.check (x'.stream input) = r', x.builder.check (x.stream input) = r
    at hcheck hwell' hwell ⊢
  cases hcheck with
  | error f => exact .error _
  | @ok p' p hpp =>
    obtain ⟨rfl, hlt⟩ := hpp
    dsimp only at hwell' hwell ⊢
    rw [← h.builder.package, hany] at hwell ⊢
    by_cases hlevel : weight.singleLevel?.isNone
    · rw [if_pos hlevel, if_pos hlevel]
      exact .error _
    rw [if_neg hlevel] at hwell' hwell ⊢
    rw [if_neg hlevel]
    by_cases htwice : x'.builder.constraints.any
        (·.name == (⟨x'.builder.package, name⟩ : ConstraintName))
    · rw [if_pos htwice, if_pos htwice]
      exact .error _
    rw [if_neg htwice] at hwell' hwell ⊢
    rw [if_neg htwice]
    cases hsigned : weight.scaled impact.sign with
    | error f => exact .error _
    | ok signed =>
      rw [hsigned] at hwell' hwell
      have hbuilder := h.builder.enlist hlt (hwell' _ rfl) (hwell _ rfl)
      have hp : ∀ q ∈ [(p', Side.left)], q.1 < x'.builder.nodes.size :=
        List.forall_mem_singleton.2 hlt
      obtain ⟨hsize, -⟩ :=
        NetworkBuilder.append_spec x'.builder (.scorer signed matchWeight watched) hp
      refine .ok ⟨_, hbuilder, ?_, fun s hs => ?_⟩
      · rw [h.streams]
        refine List.map_congr_left fun s hs => ?_
        rw [Function.update_of_ne (Nat.ne_of_lt (h.made s hs).2)]
      · exact ⟨(h.made s hs).1, Nat.lt_of_lt_of_le (h.made s hs).2
          (Nat.le_of_lt (hsize ▸ Nat.lt_succ_self _))⟩

theorem start (naming : Naming S) (id : Nat) (package : String) :
    Blueprint.Shares naming (fun j => j) ⟨({ id, package } : NetworkBuilder S sh), []⟩
      ⟨{ id, package }, []⟩ where
  builder :=
    { wellFormed' := NetworkBuilder.wellFormed_start id package
      wellFormed := NetworkBuilder.wellFormed_start id package
      id := rfl
      package := rfl
      folds := ⟨fun _ _ h => h, fun _ _ h => h⟩
      truthful := fun s i hi => by simp at hi
      source := fun i _ h => ⟨i, h⟩
      constraints := rfl }
  streams := rfl
  made := nofun

theorem filter (h : x'.Shares naming rep x) (input : Nat)
    {test : Named (S → Tuple → Checked Bool)} (htest : test.Means naming.test) :
    Rel (fun y' y => ∃ rep', Blueprint.Shares naming rep' y' y)
      (x'.enter (x'.builder.filter (x'.stream input) test.fresh))
      (x.enter (x.builder.filter (x.stream input) test)) := by
  have hcheck := h.check input
  unfold NetworkBuilder.filter
  generalize x'.builder.check (x'.stream input) = r', x.builder.check (x.stream input) = r
    at hcheck ⊢
  cases hcheck with
  | error f => exact .error _
  | ok hp =>
    obtain ⟨rfl, hlt⟩ := hp
    refine h.request (.filter test.run) [(_, .left)]
      (List.forall_mem_singleton.2 hlt) (fun s hs => ?_) rfl rfl nofun
    obtain ⟨name, hname, rfl⟩ := Option.map_eq_some_iff.1 hs
    exact ⟨congrArg Stage.filter (htest name hname).symm, rfl⟩

theorem join (h : x'.Shares naming rep x) (left right : Nat)
    {leftKey rightKey : Named (S → Tuple → Checked Key)} (hleftKey : leftKey.Means naming.key)
    (hrightKey : rightKey.Means naming.key) :
    Rel (fun y' y => ∃ rep', Blueprint.Shares naming rep' y' y)
      (x'.enter (x'.builder.join (x'.stream left) (x'.stream right) leftKey.fresh rightKey.fresh))
      (x.enter (x.builder.join (x.stream left) (x.stream right) leftKey rightKey)) := by
  have hleft := h.check left
  have hright := h.check right
  unfold NetworkBuilder.join
  generalize x'.builder.check (x'.stream left) = l', x.builder.check (x.stream left) = l
    at hleft ⊢
  generalize x'.builder.check (x'.stream right) = r', x.builder.check (x.stream right) = r
    at hright ⊢
  cases hleft with
  | error f => exact .error _
  | ok hl =>
    obtain ⟨rfl, hl⟩ := hl
    cases hright with
    | error f => exact .error _
    | ok hr =>
      obtain ⟨rfl, hr⟩ := hr
      refine h.request (.join leftKey.run rightKey.run) [(_, .left), (_, .right)]
        (List.forall_mem_cons.2 ⟨hl, List.forall_mem_singleton.2 hr⟩) (fun s hs => ?_) rfl rfl nofun
      obtain ⟨lk, hlk, hs⟩ := Option.bind_eq_some_iff.1 hs
      obtain ⟨rk, hrk, hs⟩ := Option.bind_eq_some_iff.1 hs
      cases hs
      exact ⟨by rw [hleftKey lk hlk, hrightKey rk hrk]; rfl, rfl⟩

theorem groupBy (h : x'.Shares naming rep x) (input : Nat)
    {key : Named (S → Tuple → Checked Key)} (c : Collector)
    {value : Named (S → Tuple → Checked Int64)} (hkey : key.Means naming.key)
    (hvalue : value.Means naming.value) :
    Rel (fun y' y => ∃ rep', Blueprint.Shares naming rep' y' y)
      (x'.enter (x'.builder.groupBy (x'.stream input) key.fresh c value.fresh))
      (x.enter (x.builder.groupBy (x.stream input) key c value)) := by
  have hcheck := h.check input
  unfold NetworkBuilder.groupBy
  generalize x'.builder.check (x'.stream input) = r', x.builder.check (x.stream input) = r
    at hcheck ⊢
  cases hcheck with
  | error f => exact .error _
  | ok hp =>
    obtain ⟨rfl, hlt⟩ := hp
    refine h.request (.group key.run value.run c) [(_, .left)]
      (List.forall_mem_singleton.2 hlt) (fun s hs => ?_) rfl rfl nofun
    obtain ⟨k, hk, hs⟩ := Option.bind_eq_some_iff.1 hs
    obtain ⟨v, hv, hs⟩ := Option.bind_eq_some_iff.1 hs
    cases hs
    exact ⟨by rw [hkey k hk, hvalue v hv]; rfl, rfl⟩

/-- Each call is refused by both builders, in the same words, or carried out by both. -/
theorem carryOut (h : x'.Shares naming rep x) {d : Declaration S sh} (hd : d.Follows naming) :
    Rel (fun y' y => ∃ rep', Blueprint.Shares naming rep' y' y) (d.fresh.carryOut x')
      (d.carryOut x) := by
  cases d with
  | forEach family => exact h.forEach family
  | filter input test => exact h.filter input hd
  | join left right leftKey rightKey => exact h.join left right hd.1 hd.2
  | groupBy input key c value => exact h.groupBy input c hd.1 hd.2
  | constrain name input impact weight matchWeight watched =>
    exact h.constrain name input impact weight matchWeight watched

theorem perform (h : x'.Shares naming rep x) {d : Declaration S sh} (hd : d.Follows naming) :
    Rel (fun y' y => ∃ rep', Blueprint.Shares naming rep' y' y) (Declaration.perform x' d.fresh)
      (Declaration.perform x d) := by
  have hcarry := h.carryOut hd
  unfold Declaration.perform
  generalize d.fresh.carryOut x' = r', d.carryOut x = r at hcarry ⊢
  cases hcarry with
  | ok hy => exact .ok hy
  | error f =>
    cases f with
    | fault f => exact .error f
    | error e => exact .ok ⟨rep, h⟩
    | outOfFuel => exact .ok ⟨rep, h⟩

theorem performAll (h : x'.Shares naming rep x) {ds : List (Declaration S sh)}
    (hds : ∀ d ∈ ds, d.Follows naming) :
    Rel (fun y' y => ∃ rep', Blueprint.Shares naming rep' y' y)
      (Declaration.performAll (ds.map Declaration.fresh) x') (Declaration.performAll ds x) := by
  induction ds generalizing rep x' x with
  | nil => exact .ok ⟨rep, h⟩
  | cons d ds ih =>
    obtain ⟨hd, hrest⟩ := List.forall_mem_cons.1 hds
    unfold Declaration.performAll
    rw [List.map_cons, List.foldlM_cons, List.foldlM_cons]
    exact (h.perform hd).bind fun y' y ⟨_, hy⟩ => ih hy hrest

end Blueprint.Shares

/-! ## Sources -/

/-- There is one source node for a family at most, and when a session hears of all facts of a plan,
each of them is queued once. -/
structure Network.DeliversOnce [Plan S sh] (n : Network S sh) : Prop where
  source : ∀ i j family, stage? n.nodes i = some (.source family) →
    stage? n.nodes j = some (.source family) → i = j
  queued : ∀ plan, ((n.sessionFor plan).queue.toList.map (·.delta.id)).Nodup

namespace NetworkBuilder

theorem liveSources_pairwise (live : Array Bool) (list : List (Node S sh)) (k : Nat) :
    (liveSources live k list).Pairwise fun a b => a.2 < b.2 := by
  induction list generalizing k with
  | nil => exact .nil
  | cons n list ih =>
    unfold liveSources
    split
    · split
      · refine List.pairwise_cons.2 ⟨fun ⟨family, j⟩ hj => ?_, ih _⟩
        obtain ⟨d, -, -, rfl, -⟩ := mem_liveSources.1 hj
        show k < k + 1 + d
        omega
      · exact ih _
    · exact ih _

variable {b : NetworkBuilder S sh} {n : Network S sh}

/-- The families of different sources differ. -/
theorem WellFormed.sources_pairwise (h : WellFormed b) (e : b.build = .ok n) :
    n.sources.Pairwise fun p q => p.1 ≠ q.1 := by
  have hn := h.carries e
  have hsorted : n.sources.Pairwise fun p q => p.2 < q.2 := by
    unfold build at e
    split at e
    · cases e
    · cases e
      exact liveSources_pairwise ..
  refine hsorted.imp_of_mem fun {p q} hp hq hlt heq => ?_
  have hp' := (hn.mem_sources p.1 p.2).1 hp
  have hq' := (hn.mem_sources q.1 q.2).1 hq
  rw [heq, hq'] at hp'
  rw [Option.some.inj hp'] at hlt
  exact Nat.lt_irrefl _ hlt

end NetworkBuilder

/-- Facts of families that are read are queued in the order in which they are reported. -/
theorem Session.queue_foldl_tell {s : Session S sh} {fs : List Fact}
    (hfs : ∀ f ∈ fs, s.network.Reads f) :
    ((fs.map Report.insert).foldl Session.tell s).queue.toList.map (·.delta.id) =
      s.queue.toList.map (·.delta.id) ++ fs.map fun f => [.fact f] := by
  induction fs generalizing s with
  | nil => exact (List.append_nil _).symm
  | cons f fs ih =>
    obtain ⟨hf, hrest⟩ := List.forall_mem_cons.1 hfs
    obtain ⟨node, hnode⟩ := Option.isSome_iff_exists.1 hf
    rw [List.map_cons, List.foldl_cons, ih fun g hg => by
      rw [Session.network_tell]
      exact hrest g hg]
    rw [Session.tell_of_source (r := .insert f) hnode, Array.toList_push, List.map_append,
      List.append_assoc]
    rfl

section

variable [Plan S sh] {b : NetworkBuilder S sh} {n : Network S sh}

theorem Network.nodup_arrivals (h : n.sources.Pairwise fun p q => p.1 ≠ q.1) (plan : S) :
    (n.arrivals plan).Nodup := by
  unfold arrivals
  refine List.nodup_flatMap.2 ⟨fun p _ => ?_, h.imp fun {p q} hpq => ?_⟩
  · exact List.nodup_range.map fun i j hij => congrArg Fact.index hij
  · refine List.disjoint_left.2 fun f hfp hfq => hpq ?_
    obtain ⟨i, -, rfl⟩ := List.mem_map.1 hfp
    obtain ⟨j, -, hj⟩ := List.mem_map.1 hfq
    exact (congrArg Fact.family hj).symm

theorem NetworkBuilder.WellFormed.deliversOnce (h : WellFormed b) (e : b.build = .ok n) :
    n.DeliversOnce where
  source i j family hi hj := by
    have hn := h.carries e
    rw [hn.stage, h.source] at hi hj
    exact Option.some.inj (hi.symm.trans hj)
  queued plan := by
    have hn := h.carries e
    rw [Network.sessionFor_eq hn, Session.queue_foldl_tell fun f hf => ?_]
    · refine List.Nodup.map (fun f g hfg => ?_) (Network.nodup_arrivals (h.sources_pairwise e) plan)
      cases hfg
      rfl
    · exact ((Network.mem_arrivals hn).1 hf).1

end

/-! ## Sessions -/

/-- Sharing has no influence on what a network means. A list of calls is carried out on two builders,
one of which makes a node of its own for each filter, join and group. Whatever sessions of the two
networks have been told and whichever plans they have been settled on, they settle to the same score
and to the same totals of all constraints if it was the same for both, unless a sum overflows. -/
theorem Declaration.sharing_agrees [Plan S sh] {naming : Naming S} {ds : List (Declaration S sh)}
    (hds : ∀ d ∈ ds, d.Follows naming) {id : Nat} {package : String} {x : Blueprint S sh}
    (e : performAll ds ⟨{ id, package }, []⟩ = .ok x) {n : Network S sh}
    (hbuild : x.builder.build = .ok n) {contents : S → Fact → γ}
    (hlocal : ∀ i stage, stage? x.builder.nodes i = some stage → stage.Local contents)
    (hfree : ∀ i stage, stage? x.builder.nodes i = some stage → stage.OriginFree) :
    ∃ (x' : Blueprint S sh) (n' : Network S sh),
      performAll (ds.map fresh) ⟨{ id, package }, []⟩ = .ok x' ∧ x'.builder.build = .ok n' ∧
      n.DeliversOnce ∧ n'.DeliversOnce ∧
      ∀ {roll : Roll} {plan plan' : S} {s s' : Session S sh},
        Session.History contents n roll plan s → Session.History contents n' roll plan s' →
        Faithful contents roll plan plan' →
        Session.DefinedOn x.builder.nodes (fun _ => True) plan' →
        (∃ t, Session.settle plan' s = .error .overflow t) ∨
        (∃ t, Session.settle plan' s' = .error .overflow t) ∨
        ∃ score totals t t',
          Session.settledScore plan' s = .ok score t ∧
          Session.settledScore plan' s' = .ok score t' ∧
          Session.constraintTotals plan' s = .ok totals t ∧
          Session.constraintTotals plan' s' = .ok totals t' := by
  have hperform := (Blueprint.Shares.start naming id package).performAll hds
  rw [e] at hperform
  obtain ⟨x', e', rep, hshares⟩ : ∃ x', performAll (ds.map fresh) ⟨{ id, package }, []⟩ = .ok x' ∧
      ∃ rep, Blueprint.Shares naming rep x' x := by
    generalize performAll (ds.map fresh) ⟨{ id, package }, []⟩ = r at hperform
    cases hperform with
    | ok h => exact ⟨_, rfl, h⟩
  have hb := hshares.builder
  obtain ⟨n', hbuild'⟩ : ∃ n', x'.builder.build = .ok n' := by
    have hempty : x.builder.constraints.isEmpty = x'.builder.constraints.isEmpty := by
      rw [hb.constraints, List.isEmpty_map]
    unfold NetworkBuilder.build at hbuild ⊢
    rw [hempty] at hbuild
    split at hbuild
    · cases hbuild
    · next h => exact ⟨_, by rw [if_neg h]⟩
  refine ⟨x', n', e', hbuild', hb.wellFormed.deliversOnce hbuild,
    hb.wellFormed'.deliversOnce hbuild', fun {roll plan plan' s s'} hs hs' hfaith hdefined => ?_⟩
  have hw' := hb.wellFormed'.wired
  have hw := hb.wellFormed.wired
  have hn := hb.wellFormed.carries hbuild
  have hn' := hb.wellFormed'.carries hbuild'
  rcases hs.settle_cases hn hlocal hfaith hdefined with hover | hagree
  · exact .inl hover
  rcases hs'.settle_cases hn' (fun j stage hj => hlocal _ _ (hb.folds.stage j stage hj)) hfaith
    (hb.folds.definedOn hw' hw hdefined) with hover' | hagree'
  · exact .inr (.inl hover')
  obtain ⟨-, t, score, totals, -, -, hscore, htotals, hevaluate⟩ := hagree
  obtain ⟨-, t', score', totals', -, -, hscore', htotals', hevaluate'⟩ := hagree'
  have hsame : Reference.evaluate x'.builder.nodes n'.constraints plan' roll.present =
      Reference.evaluate x.builder.nodes n.constraints plan' roll.present := by
    rw [NetworkBuilder.constraints_of_build hbuild, NetworkBuilder.constraints_of_build hbuild',
      hb.constraints]
    exact hb.folds.evaluate hw' hw hfree fun c hc =>
      (hb.wellFormed'.scorer _).1 (List.mem_map_of_mem hc)
  rw [hsame, hevaluate] at hevaluate'
  cases hevaluate'
  exact .inr (.inr ⟨score, totals, t, t', hscore, hscore', htotals, htotals'⟩)

/-! ## A row of cells -/

namespace Row

/-- Whether the first fact of a tuple has a value. -/
def valued (row : Row) (t : Tuple) : Checked Bool :=
  .ok ((t.fact? 0).bind row.entry).join.isSome

/-- The value of the first fact of a tuple. -/
def held (row : Row) (t : Tuple) : Checked Key :=
  .ok (((t.fact? 0).bind row.entry).join.elim .unit fun v => .int (Int64.ofNat v))

def meanings : Naming Row where
  test _ := valued
  key _ := held
  value _ := weigh

/-- The cells with values are declared twice, and joined where the values are equal. -/
def pairing : List (Declaration Row .simple) :=
  [.forEach 0, .filter 0 ⟨some "valued", valued⟩, .filter 0 ⟨some "valued", valued⟩,
    .join 1 2 ⟨some "held", held⟩ ⟨some "held", held⟩,
    .constrain "pairs" 3 .penalty (.single 0 1) (fun _ _ => .ok 1) false]

/-- The only filter feeds both sides of the join. -/
def pairingNodes : Array (Node Row .simple) :=
  #[⟨.source 0, [⟨1, .left⟩]⟩, ⟨.filter valued, [⟨2, .left⟩, ⟨2, .right⟩]⟩,
    ⟨.join held held, [⟨3, .left⟩]⟩, ⟨.scorer (.single 0 (-1)) (fun _ _ => .ok 1) false, []⟩]

theorem performAll_pairing :
    (∃ x, Declaration.performAll pairing ⟨{}, []⟩ = .ok x ∧ x.builder.nodes = pairingNodes ∧
      x.builder.constraints ≠ []) ∧
    ∃ x', Declaration.performAll (pairing.map Declaration.fresh) ⟨{}, []⟩ = .ok x' ∧
      x'.builder.nodes.size = 5 := by
  have hscaled : (Score.single 0 1 : Score .simple).scaled Impact.penalty.sign =
      .ok (Score.single 0 (-1)) := by decide
  have hlevel : (Score.single 0 1 : Score .simple).singleLevel? = some 0 := by decide
  constructor
  · simp [Declaration.performAll, pairing, Declaration.perform, Declaration.carryOut,
      Blueprint.enter, Blueprint.stream, NetworkBuilder.forEach, NetworkBuilder.request,
      NetworkBuilder.append, NetworkBuilder.filter, NetworkBuilder.join, NetworkBuilder.check,
      NetworkBuilder.connect, NetworkBuilder.constrain, hscaled, hlevel, bind, Except.bind, pure,
      Except.pure, pairingNodes]
  · simp [Declaration.performAll, pairing, Declaration.perform, Declaration.carryOut,
      Declaration.fresh, Named.fresh, Blueprint.enter, Blueprint.stream, NetworkBuilder.forEach,
      NetworkBuilder.request, NetworkBuilder.append, NetworkBuilder.filter, NetworkBuilder.join,
      NetworkBuilder.check, NetworkBuilder.connect, NetworkBuilder.constrain, hscaled, hlevel, bind,
      Except.bind, pure, Except.pure]

theorem stage?_pairingNodes {i : Nat} {stage : Stage Row .simple}
    (h : stage? pairingNodes i = some stage) : stage ∈ [.source 0, .filter valued, .join held held,
      .scorer (.single 0 (-1)) (fun _ _ => .ok 1) false] := by
  obtain ⟨node, hnode, rfl⟩ := Option.map_eq_some_iff.1 h
  have hmem := Array.mem_of_getElem? hnode
  simp only [pairingNodes, List.mem_toArray, List.mem_cons, List.not_mem_nil, or_false] at hmem ⊢
  rcases hmem with rfl | rfl | rfl | rfl
  · exact .inl rfl
  · exact .inr (.inl rfl)
  · exact .inr (.inr (.inl rfl))
  · exact .inr (.inr (.inr rfl))

theorem entry_congr {row row' : Row} {t : Tuple}
    (h : ∀ f ∈ TupleId.facts t.id, row.entry f = row'.entry f) :
    (t.fact? 0).bind row.entry = (t.fact? 0).bind row'.entry :=
  Option.bind_congr fun f hf => h f (Tuple.mem_facts_of_fact? hf)

theorem valued_local : LocalTo entry valued := fun p q t ht => by
  unfold valued
  rw [entry_congr ht]

theorem held_local : LocalTo entry held := fun p q t ht => by
  unfold held
  rw [entry_congr ht]

theorem local_pairingNodes {i : Nat} {stage : Stage Row .simple}
    (h : stage? pairingNodes i = some stage) : stage.Local entry := by
  have hmem := stage?_pairingNodes h
  simp only [List.mem_cons, List.not_mem_nil, or_false] at hmem
  rcases hmem with rfl | rfl | rfl | rfl
  · trivial
  · exact valued_local
  · exact ⟨held_local, held_local⟩
  · exact fun _ _ _ _ => rfl

theorem originFree_pairingNodes {i : Nat} {stage : Stage Row .simple}
    (h : stage? pairingNodes i = some stage) : stage.OriginFree := by
  have hmem := stage?_pairingNodes h
  simp only [List.mem_cons, List.not_mem_nil, or_false] at hmem
  rcases hmem with rfl | rfl | rfl | rfl
  · trivial
  · exact fun _ _ _ => rfl
  · exact ⟨fun _ _ _ => rfl, fun _ _ _ => rfl⟩
  · exact fun _ _ _ => rfl

theorem definedOn_pairingNodes (known : Fact → Prop) (row : Row) :
    Session.DefinedOn pairingNodes known row := by
  intro i stage side h _ t _
  have hmem := stage?_pairingNodes h
  simp only [List.mem_cons, List.not_mem_nil, or_false] at hmem
  rcases hmem with rfl | rfl | rfl | rfl
  · trivial
  · exact nofun
  · cases side <;> exact nofun
  · exact nofun

/-- Two cells are inserted into both networks, and the sessions are settled. -/
theorem sharing_agrees_pairing :
    ∃ (x x' : Blueprint Row .simple) (n n' : Network Row .simple),
      Declaration.performAll pairing ⟨{}, []⟩ = .ok x ∧ x.builder.nodes.size = 4 ∧
      Declaration.performAll (pairing.map Declaration.fresh) ⟨{}, []⟩ = .ok x' ∧
      x'.builder.nodes.size = 5 ∧ x.builder.build = .ok n ∧ x'.builder.build = .ok n' ∧
      n.DeliversOnce ∧ n'.DeliversOnce ∧
      let row : Row := ⟨[some 7, some 7], none⟩
      let told (m : Network Row .simple) : Session Row .simple :=
        ((Session.new m).tell (.insert ⟨0, 0⟩)).tell (.insert ⟨0, 1⟩)
      (∃ t, Session.settle row (told n) = .error .overflow t) ∨
      (∃ t, Session.settle row (told n') = .error .overflow t) ∨
      ∃ score totals t t', Session.settledScore row (told n) = .ok score t ∧
        Session.settledScore row (told n') = .ok score t' ∧
        Session.constraintTotals row (told n) = .ok totals t ∧
        Session.constraintTotals row (told n') = .ok totals t' := by
  obtain ⟨⟨x, e, hnodes, hconstraints⟩, x', e', hsize'⟩ := performAll_pairing
  have hfollows : ∀ d ∈ pairing, d.Follows meanings := by
    have hvalued : Named.Means meanings.test ⟨some "valued", valued⟩ := fun _ _ => rfl
    have hheld : Named.Means meanings.key ⟨some "held", held⟩ := fun _ _ => rfl
    simp only [pairing, List.forall_mem_cons, List.not_mem_nil, false_implies, implies_true,
      and_true]
    exact ⟨trivial, hvalued, hvalued, ⟨hheld, hheld⟩, trivial⟩
  obtain ⟨n, hbuild⟩ : ∃ n, x.builder.build = .ok n :=
    ⟨_, if_neg fun h => hconstraints (List.isEmpty_iff.1 h)⟩
  obtain ⟨y', n', hy', hbuild', honce, honce', hagree⟩ := Declaration.sharing_agrees hfollows e hbuild
    (fun i stage h => local_pairingNodes (hnodes ▸ h))
    fun i stage h => originFree_pairingNodes (hnodes ▸ h)
  obtain rfl : x' = y' := Except.ok.inj (e'.symm.trans hy')
  have htold (m : Network Row .simple) : Session.History entry m _ ⟨[], none⟩
      (((Session.new m).tell (.insert ⟨0, 0⟩)).tell (.insert ⟨0, 1⟩)) :=
    ((Session.History.start _).tell _).tell _
  refine ⟨x, x', n, n', e, by rw [hnodes]; rfl, e', hsize', hbuild, hbuild', honce, honce', ?_⟩
  refine hagree (htold n) (htold n') (fun f hf ht => ?_) (hnodes ▸ definedOn_pairingNodes _ _)
  -- Both facts have just been reported.
  refine absurd ?_ ht
  rcases List.mem_pair.1 hf with rfl | rfl
  · exact ⟨.insert ⟨0, 1⟩, List.mem_cons_self, rfl⟩
  · exact ⟨.insert ⟨0, 0⟩, List.mem_cons_of_mem _ (List.mem_singleton_self _), rfl⟩

end Row

end PlanSearch
