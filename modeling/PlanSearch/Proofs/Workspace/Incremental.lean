import PlanSearch.Proofs.Network.History
import PlanSearch.Proofs.Workspace.Lawful

/-!
# Incremental workspaces

An incremental workspace settles its session when the score is asked for, on a plan that has moved
on since the changes were announced. What it answers is the score from scratch. It can fail to
answer where a fact is gone by then: the network asks about the facts that were announced and about
those that joins bring in for them, and some of these may be gone.

    History contents n [] w → score w = .ok a w' → fullScore w = .ok full → a = full
    History contents n [] w → w.Settleable nodes → score w = .error f w' → f = .overflow
                                                                        (score_eq_fullScore)
-/

namespace PlanSearch

variable {S : Type} {sh : Shape} {γ : Type} {n : Network S sh} {nodes : Array (Node S sh)}
  {contents : S → Fact → γ} {roll : Roll} {plan before : S} {s : Session S sh}

/-- The network has a source for the family of the fact. -/
def Network.Reads (n : Network S sh) (f : Fact) : Prop := (n.source? f.family).isSome

/-- Only groups are left of a tuple without facts. -/
theorem Tuple.over_false_iff {t : Tuple} {l : Layout} (h : t.Fits l) :
    t.Over l (fun _ => False) ↔ ∀ e ∈ l, e = none := by
  constructor
  · rintro ⟨-, hfacts⟩ e he
    rw [← h.1] at he
    obtain ⟨x, hx, rfl⟩ := List.mem_map.1 he
    cases x with
    | fact f => exact (hfacts f (Tuple.mem_facts.2 hx)).elim
    | group k => rfl
  · refine fun hl => ⟨h, fun f hf => ?_⟩
    have hmem : some f.family ∈ l := h.1 ▸ List.mem_map.2 ⟨_, Tuple.mem_facts.1 hf, rfl⟩
    cases hl _ hmem

/-! ## All facts of a plan -/

namespace Session

theorem tell_of_source {node : Nat} {r : Report} (h : s.network.source? r.fact.family = some node) :
    s.tell r = { s with queue := s.queue.push ⟨node, .left, r.delta node⟩ } := by
  rw [tell_eq, h]

theorem tell_of_not_reads {r : Report} (h : ¬ s.network.Reads r.fact) : s.tell r = s := by
  rw [tell_eq, Option.not_isSome_iff_eq_none.1 h]

theorem network_tell (s : Session S sh) (r : Report) : (s.tell r).network = s.network := by
  rw [tell_eq]
  split <;> rfl

theorem network_foldl_tell (rs : List Report) (s : Session S sh) :
    (rs.foldl tell s).network = s.network := by
  induction rs generalizing s with
  | nil => rfl
  | cons r rs ih => rw [List.foldl_cons, ih, network_tell]

/-- All facts of one family are inserted. -/
theorem foldl_push_eq {family node : Nat} (is : List Nat) (hs : s.network.source? family = some node) :
    is.foldl (fun s i => { s with
        queue := s.queue.push ⟨node, .left, .insert (Tuple.ofFact ⟨family, i⟩ node)⟩ }) s =
      (is.map fun i => Report.insert ⟨family, i⟩).foldl tell s := by
  induction is generalizing s with
  | nil => rfl
  | cons i is ih =>
    have htell : s.tell (.insert ⟨family, i⟩) = _ := tell_of_source hs
    rw [List.map_cons, List.foldl_cons, List.foldl_cons, htell]
    exact ih hs

end Session

namespace Network

variable [Plan S sh]

/-- The facts of the families that are read. -/
def arrivals (n : Network S sh) (plan : S) : List Fact :=
  n.sources.flatMap fun (family, _) =>
    (List.range (Plan.entityCount plan family)).map fun i => ⟨family, i⟩

theorem mem_arrivals (hn : n.Carries nodes) {f : Fact} :
    f ∈ n.arrivals plan ↔ n.Reads f ∧ Plan.Has plan f := by
  unfold arrivals Reads
  rw [List.mem_flatMap]
  constructor
  · rintro ⟨⟨family, node⟩, hmem, hf⟩
    obtain ⟨i, hi, rfl⟩ := List.mem_map.1 hf
    rw [(hn.mem_sources family node).1 hmem]
    exact ⟨rfl, List.mem_range.1 hi⟩
  · rintro ⟨hread, hhas⟩
    obtain ⟨node, hnode⟩ := Option.isSome_iff_exists.1 hread
    exact ⟨⟨f.family, node⟩, (hn.mem_sources _ _).2 hnode,
      List.mem_map.2 ⟨f.index, List.mem_range.2 hhas, rfl⟩⟩

/-- To insert all facts is to tell of one after another. -/
theorem insertAll_eq (hn : n.Carries nodes) (hs : s.network = n) (plan : S) :
    s.insertAll plan = ((n.arrivals plan).map Report.insert).foldl Session.tell s := by
  unfold Session.insertAll arrivals
  rw [hs]
  have hsource : ∀ q ∈ n.sources, n.source? q.1 = some q.2 := fun q => (hn.mem_sources q.1 q.2).1
  generalize n.sources = sources at hsource ⊢
  induction sources generalizing s with
  | nil => rfl
  | cons q sources ih =>
    obtain ⟨family, node⟩ := q
    have hq : s.network.source? family = some node := hs.symm ▸ hsource _ List.mem_cons_self
    have hfamily := Session.foldl_push_eq (List.range (Plan.entityCount plan family)) hq
    rw [List.foldl_cons, List.flatMap_cons, List.map_append, List.foldl_append, List.map_map]
    dsimp only
    rw [hfamily]
    exact ih ((Session.network_foldl_tell _ s).trans hs)
      fun r hr => hsource r (List.mem_cons_of_mem _ hr)

/-- A session for a plan has been told of all its facts. -/
theorem sessionFor_eq (hn : n.Carries nodes) (plan : S) :
    n.sessionFor plan = ((n.arrivals plan).map Report.insert).foldl Session.tell (Session.new n) :=
  insertAll_eq hn rfl plan

end Network

/-! ## Sessions that hear of their facts -/

/-- The history of a session up to now: `roll` is what it was told of the families that are read,
and what it was told since it was settled last is still queued. -/
structure Session.Heard (contents : S → Fact → γ) (n : Network S sh) (roll : Roll) (before : S)
    (s : Session S sh) : Prop where
  history : Session.History contents n roll before s
  network : s.network = n
  reads : ∀ f, roll.Known f → n.Reads f
  queued : ∀ r ∈ roll.news, ∃ p ∈ s.queue.toList, p.delta = r.delta p.target

namespace Session.Heard

theorem new (contents : S → Fact → γ) (n : Network S sh) (plan : S) :
    Heard contents n {} plan (Session.new n) :=
  ⟨.start plan, rfl, fun _ hf => hf.elim nofun nofun, nofun⟩

/-- A report on a family that is read is queued; other reports change nothing. -/
theorem tell (h : Heard contents n roll before s) (r : Report) :
    ∃ roll', Heard contents n roll' before (s.tell r) ∧
      ∀ f, n.Reads f → (f ∈ roll'.present ↔ r.keeps f (f ∈ roll.present)) ∧
        (roll'.Told f ↔ r.fact = f ∨ roll.Told f) := by
  by_cases hread : n.Reads r.fact
  · obtain ⟨node, hnode⟩ := Option.isSome_iff_exists.1 hread
    have htell := tell_of_source (s := s) (r := r) (h.network.symm ▸ hnode)
    refine ⟨roll.hear r, ⟨h.history.tell r, (network_tell s r).trans h.network, fun f hf => ?_,
      fun q hq => ?_⟩, fun f _ => ⟨Roll.mem_present_hear roll r f, Roll.told_hear⟩⟩
    · by_cases hne : r.fact = f
      · exact hne ▸ hread
      · refine h.reads f (hf.imp (fun hp => ?_) fun ht => (Roll.told_hear.1 ht).resolve_left hne)
        have hkept := (Roll.mem_present_hear roll r f).1 hp
        cases r with
        | insert g => exact hkept.resolve_left fun e => hne e.symm
        | update g => exact hkept
        | retract g => exact hkept.2
    · rw [htell, Array.toList_push]
      rcases List.mem_cons.1 hq with rfl | hq
      · exact ⟨_, List.mem_append_right _ (List.mem_singleton.2 rfl), rfl⟩
      · obtain ⟨p, hp, hd⟩ := h.queued q hq
        exact ⟨p, List.mem_append_left _ hp, hd⟩
  · rw [tell_of_not_reads (h.network.symm ▸ hread)]
    refine ⟨roll, h, fun f hf => ?_⟩
    have hne : r.fact ≠ f := fun e => hread (e ▸ hf)
    refine ⟨?_, (or_iff_right hne).symm⟩
    cases r with
    | insert g => exact (or_iff_right fun e => hne e.symm).symm
    | update g => exact Iff.rfl
    | retract g => exact (and_iff_right fun e => hne e.symm).symm

theorem insertAll (h : Heard contents n roll before s) (fs : List Fact) :
    ∃ roll', Heard contents n roll' before ((fs.map Report.insert).foldl Session.tell s) ∧
      ∀ f, n.Reads f → (f ∈ roll'.present ↔ f ∈ fs ∨ f ∈ roll.present) ∧
        (roll'.Told f ↔ f ∈ fs ∨ roll.Told f) := by
  induction fs generalizing roll s with
  | nil => exact ⟨roll, h, fun f _ => by simp⟩
  | cons g fs ih =>
    obtain ⟨roll₁, h₁, hroll₁⟩ := h.tell (.insert g)
    obtain ⟨roll₂, h₂, hroll₂⟩ := ih h₁
    refine ⟨roll₂, h₂, fun f hf => ?_⟩
    have hpresent : f ∈ roll₁.present ↔ f = g ∨ f ∈ roll.present := (hroll₁ f hf).1
    have htold : roll₁.Told f ↔ g = f ∨ roll.Told f := (hroll₁ f hf).2
    rw [(hroll₂ f hf).1, (hroll₂ f hf).2, hpresent, htold, List.mem_cons, eq_comm (a := g)]
    constructor <;> tauto

theorem settle {plan : S} {count : Nat} {s' : Session S sh} (h : Heard contents n roll before s)
    (hn : n.Carries nodes) (hloc : ∀ i stage, stage? nodes i = some stage → stage.Local contents)
    (hf : Faithful contents roll before plan) (e : Session.settle plan s = .ok count s') :
    Heard contents n roll.settled plan s' :=
  ⟨h.history.settle hf e,
    (h.history.settle_eq hn hloc hf e h.history.nodup_present fun _ => Iff.rfl).2.1,
    fun f hf => h.reads f (hf.imp_right nofun), nofun⟩

/-- The facts that are present are those of the plan that are read. -/
theorem mem_present_iff [Plan S sh] {plan : S} (h : Heard contents n roll before s)
    (hpresent : ∀ f, n.Reads f → (f ∈ roll.present ↔ Plan.Has plan f)) (f : Fact) :
    f ∈ roll.present ↔ n.Reads f ∧ Plan.Has plan f := by
  constructor
  · intro hf
    have hread := h.reads f (.inl hf)
    exact ⟨hread, (hpresent f hread).1 hf⟩
  · rintro ⟨hread, hhas⟩
    exact (hpresent f hread).2 hhas

end Session.Heard

/-! ## Histories of a workspace -/

/-- Storing a score in a plan touches neither the facts nor their contents. -/
structure Plan.ScoreApart [Plan S sh] (contents : S → Fact → γ) : Prop where
  has : ∀ (score : Option (Score sh)) (plan : S) (f : Fact),
    Plan.Has (Plan.setScore score plan) f ↔ Plan.Has plan f
  contents : ∀ (score : Option (Score sh)) (plan : S) (f : Fact),
    contents (Plan.setScore score plan) f = contents plan f

namespace IncrementalWorkspace

variable {opened : List Fact} {w : IncrementalWorkspace S sh}

theorem totals_eq_ok {ts : List (ConstraintTotal sh)} {w' : IncrementalWorkspace S sh}
    (e : w.totals = .ok ts w') : ∃ count s', Session.settle w.plan w.session = .ok count s' ∧
      ts = s'.network.constraints.map s'.totalOf ∧ w' = ⟨w.plan, s', w.calculations⟩ := by
  obtain ⟨plan, session, calculations⟩ := w
  unfold IncrementalWorkspace.totals at e
  dsimp only at e
  split at e
  · cases e
  · next a s' hs =>
    obtain ⟨count, s'', hsettle, hget⟩ := Step.bind_eq_ok hs
    cases hget
    cases e
    exact ⟨count, _, hsettle, rfl, rfl⟩

variable [Plan S sh]

theorem score_of_settle_error {f : Fault} {s' : Session S sh}
    (e : Session.settle w.plan w.session = .error f s') :
    Workspace.score w = .error f { w with session := s' } := by
  obtain ⟨plan, session, calculations⟩ := w
  have hs : Session.settledScore plan session = .error f s' := by
    show EStateM.bind (Session.settle plan) _ session = _
    unfold EStateM.bind
    rw [e]
  show IncrementalWorkspace.score _ = _
  unfold IncrementalWorkspace.score
  dsimp only
  rw [hs]

/-- Settling is all that can go wrong when the score is asked for. -/
theorem score_of_settle {count : Nat} {s' : Session S sh}
    (e : Session.settle w.plan w.session = .ok count s') :
    Workspace.score w = .ok s'.score
      ⟨Plan.setScore (some s'.score) w.plan, s', w.calculations + 1⟩ := by
  obtain ⟨plan, session, calculations⟩ := w
  have hs : Session.settledScore plan session = .ok s'.score s' := by
    show EStateM.bind (Session.settle plan) _ session = _
    unfold EStateM.bind
    rw [e]
    rfl
  show IncrementalWorkspace.score _ = _
  unfold IncrementalWorkspace.score
  dsimp only
  rw [hs]

/-- What can happen to a workspace for the network: facts are announced, changed and announced
again, added and then announced, announced and then removed, and the score is asked for while all
that was changed has been announced. `opened` lists the facts of which only the first announcement
was made. -/
inductive History (contents : S → Fact → γ) (n : Network S sh) :
    List Fact → IncrementalWorkspace S sh → Prop where
  | start (plan : S) : History contents n [] (new n plan)
  | reset {opened : List Fact} {w : IncrementalWorkspace S sh} (h : History contents n opened w)
    (plan : S) : History contents n [] (Workspace.reset plan w)
  | before {opened : List Fact} {w : IncrementalWorkspace S sh} (h : History contents n opened w)
    (f : Fact) : History contents n (f :: opened) (Workspace.beforeChange f w)
  | change {opened : List Fact} {w : IncrementalWorkspace S sh} (h : History contents n opened w)
    {g : S → S} (hhas : ∀ f, Plan.Has (g w.plan) f ↔ Plan.Has w.plan f)
    (hg : ∀ f, f ∉ opened → Plan.Has w.plan f → contents (g w.plan) f = contents w.plan f) :
    History contents n opened (Workspace.modify g w)
  | after {opened : List Fact} {w : IncrementalWorkspace S sh} (h : History contents n opened w)
    (f : Fact) : History contents n (opened.erase f) (Workspace.afterChange f w)
  | add {opened : List Fact} {w : IncrementalWorkspace S sh} (h : History contents n opened w)
    {g : S → S} {f : Fact} (hhas : ∀ e, Plan.Has (g w.plan) e ↔ e = f ∨ Plan.Has w.plan e)
    (hg : ∀ e, e ≠ f → Plan.Has w.plan e → contents (g w.plan) e = contents w.plan e) :
    History contents n opened (Workspace.afterAdded f (Workspace.modify g w))
  | remove {opened : List Fact} {w : IncrementalWorkspace S sh} (h : History contents n opened w)
    {g : S → S} {f : Fact} (hhas : ∀ e, Plan.Has (g w.plan) e ↔ e ≠ f ∧ Plan.Has w.plan e)
    (hg : ∀ e, e ≠ f → Plan.Has w.plan e → contents (g w.plan) e = contents w.plan e) :
    History contents n opened (Workspace.modify g (Workspace.beforeRemoved f w))
  | score {w w' : IncrementalWorkspace S sh} (h : History contents n [] w) {a : Score sh}
    (e : Workspace.score w = .ok a w') : History contents n [] w'
  | totals {w w' : IncrementalWorkspace S sh} (h : History contents n [] w)
    {ts : List (ConstraintTotal sh)} (e : w.totals = .ok ts w') : History contents n [] w'

/-- The session has heard of exactly the facts that exist, and of all changes but those of the
facts that are still open. -/
structure Follows (contents : S → Fact → γ) (n : Network S sh) (opened : List Fact)
    (w : IncrementalWorkspace S sh) (roll : Roll) (before : S) : Prop where
  heard : Session.Heard contents n roll before w.session
  present : ∀ f, n.Reads f → (f ∈ roll.present ↔ Plan.Has w.plan f)
  unchanged : ∀ f, n.Reads f → Plan.Has w.plan f → f ∉ opened → ¬ roll.Told f →
    contents before f = contents w.plan f

namespace Follows

theorem sessionFor (hn : n.Carries nodes) (contents : S → Fact → γ) (plan : S)
    (calculations : Nat) :
    ∃ roll, Follows contents n [] ⟨plan, n.sessionFor plan, calculations⟩ roll plan ∧
      ∀ f, roll.Known f → Plan.Has plan f := by
  obtain ⟨roll, h, hroll⟩ := (Session.Heard.new contents n plan).insertAll (n.arrivals plan)
  have hempty : ∀ f, f ∉ ({} : Roll).present ∧ ¬ ({} : Roll).Told f := fun f => ⟨nofun, nofun⟩
  have hpresent : ∀ f, n.Reads f → (f ∈ roll.present ↔ Plan.Has plan f) ∧
      (roll.Told f ↔ Plan.Has plan f) := fun f hf => by
    rw [(hroll f hf).1, (hroll f hf).2, Network.mem_arrivals hn, or_iff_left (hempty f).1,
      or_iff_left (hempty f).2, and_iff_right hf, and_self]
  refine ⟨roll, ⟨Network.sessionFor_eq hn plan ▸ h, fun f hf => (hpresent f hf).1,
    fun _ _ _ _ _ => rfl⟩, fun f hf => ?_⟩
  have hf' := hpresent f (h.reads f hf)
  exact hf.elim hf'.1.1 hf'.2.1

theorem faithful (h : Follows contents n [] w roll before) :
    Faithful contents roll before w.plan := fun f hf =>
  have hread := h.heard.reads f (.inl hf)
  h.unchanged f hread ((h.present f hread).1 hf) List.not_mem_nil

theorem tell (h : Follows contents n opened w roll before) (r : Report) {opened' : List Fact}
    {plan : S} (hhas : ∀ f, Plan.Has plan f ↔ r.keeps f (Plan.Has w.plan f))
    (hg : ∀ f, f ∉ opened' → f ≠ r.fact → Plan.Has w.plan f →
      f ∉ opened ∧ contents plan f = contents w.plan f) :
    ∃ roll', Follows contents n opened' { w with plan, session := w.session.tell r } roll' before := by
  obtain ⟨roll', hheard, htold⟩ := h.heard.tell r
  refine ⟨roll', hheard, fun f hf => ?_, fun f hf hhas' hopened htold' => ?_⟩
  · rw [(htold f hf).1, h.present f hf, hhas f]
  · have hne : f ≠ r.fact := fun e => htold' ((htold f hf).2.2 (.inl e.symm))
    have hhad : Plan.Has w.plan f := by
      have hkept := (hhas f).1 hhas'
      cases r with
      | insert g => exact hkept.resolve_left hne
      | update g => exact hkept
      | retract g => exact hkept.2
    obtain ⟨hopened, hsame⟩ := hg f hopened hne hhad
    show contents before f = contents plan f
    rw [hsame]
    exact h.unchanged f hf hhad hopened fun ht => htold' ((htold f hf).2.2 (.inr ht))

theorem settle {count : Nat} {s' : Session S sh} (h : Follows contents n [] w roll before)
    (hn : n.Carries nodes) (hloc : ∀ i stage, stage? nodes i = some stage → stage.Local contents)
    (e : Session.settle w.plan w.session = .ok count s') {plan : S} {calculations : Nat}
    (hhas : ∀ f, Plan.Has plan f ↔ Plan.Has w.plan f)
    (hc : ∀ f, contents plan f = contents w.plan f) :
    Follows contents n [] ⟨plan, s', calculations⟩ roll.settled w.plan :=
  ⟨h.heard.settle hn hloc h.faithful e, fun f hf => (h.present f hf).trans (hhas f).symm,
    fun f _ _ _ _ => (hc f).symm⟩

end Follows

/-- A workspace is never behind what happened to it. -/
theorem History.follows (h : History contents n opened w) (hn : n.Carries nodes)
    (hloc : ∀ i stage, stage? nodes i = some stage → stage.Local contents)
    (hs : Plan.ScoreApart contents) : ∃ roll before, Follows contents n opened w roll before := by
  induction h with
  | start plan =>
    obtain ⟨roll, h, -⟩ := Follows.sessionFor hn contents plan 0
    exact ⟨roll, plan, h⟩
  | @reset opened w h plan ih =>
    obtain ⟨roll, before, ih⟩ := ih
    obtain ⟨roll, h, -⟩ := Follows.sessionFor hn contents plan w.calculations
    refine ⟨roll, plan, ?_⟩
    show Follows contents n [] ⟨plan, w.session.network.sessionFor plan, w.calculations⟩ roll plan
    rw [ih.heard.network]
    exact h
  | before h f ih =>
    obtain ⟨roll, before, ih⟩ := ih
    exact ⟨roll, before, ih.heard, ih.present, fun e he hhas hopened =>
      ih.unchanged e he hhas fun hm => hopened (List.mem_cons_of_mem _ hm)⟩
  | change h hhas hg ih =>
    obtain ⟨roll, before, ih⟩ := ih
    refine ⟨roll, before, ih.heard, fun f hf => (ih.present f hf).trans (hhas f).symm, ?_⟩
    intro f hf hf' hopened htold
    have hhad := (hhas f).1 hf'
    exact (ih.unchanged f hf hhad hopened htold).trans (hg f hopened hhad).symm
  | after h f ih =>
    obtain ⟨roll, before, ih⟩ := ih
    obtain ⟨roll', h'⟩ := ih.tell (.update f) (fun e => Iff.rfl) fun e he hne _ =>
      ⟨fun hm => he ((List.mem_erase_of_ne hne).2 hm), rfl⟩
    exact ⟨roll', before, h'⟩
  | @add opened w h g f hhas hg ih =>
    obtain ⟨roll, before, ih⟩ := ih
    obtain ⟨roll', h'⟩ := ih.tell (.insert f) hhas fun e he hne hhad =>
      ⟨he, hg e hne hhad⟩
    exact ⟨roll', before, h'⟩
  | @remove opened w h g f hhas hg ih =>
    obtain ⟨roll, before, ih⟩ := ih
    obtain ⟨roll', h'⟩ := ih.tell (.retract f) hhas fun e he hne hhad =>
      ⟨he, hg e hne hhad⟩
    exact ⟨roll', before, h'⟩
  | @score w w' h a e ih =>
    obtain ⟨roll, before, ih⟩ := ih
    obtain ⟨count, s', hsettle, -, rfl⟩ := score_eq_ok e
    exact ⟨_, _, ih.settle hn hloc hsettle (hs.has _ _) (hs.contents _ _)⟩
  | @totals w w' h ts e ih =>
    obtain ⟨roll, before, ih⟩ := ih
    obtain ⟨count, s', hsettle, -, rfl⟩ := totals_eq_ok e
    exact ⟨_, _, ih.settle hn hloc hsettle (fun _ => Iff.rfl) fun _ => rfl⟩

/-- A variable is assigned, and the change is announced. -/
theorem History.assign {V : Type} (h : History contents n [] w) {x : Variable S V} {entity : Nat}
    {value : Option V}
    (hhas : ∀ f, Plan.Has (x.set w.plan entity value) f ↔ Plan.Has w.plan f)
    (hset : ∀ f, f ≠ ⟨x.family, entity⟩ → Plan.Has w.plan f →
      contents (x.set w.plan entity value) f = contents w.plan f) :
    History contents n [] (x.assign entity value w) := by
  have hopened := h.before ⟨x.family, entity⟩
  have hassigned := (hopened.change (g := fun plan => x.set plan entity value) hhas fun f hf =>
    hset f fun e => hf (List.mem_singleton.2 e)).after ⟨x.family, entity⟩
  rw [List.erase_cons_head] at hassigned
  exact hassigned

/-- After the score was asked for, nothing is left to settle. -/
theorem History.score_settled {w' : IncrementalWorkspace S sh} {a : Score sh}
    (h : History contents n [] w) (hn : n.Carries nodes)
    (hloc : ∀ i stage, stage? nodes i = some stage → stage.Local contents)
    (hs : Plan.ScoreApart contents) (e : Workspace.score w = .ok a w') :
    w'.session.queue = #[] ∧ w'.session.score = a ∧ w'.plan = Plan.setScore (some a) w.plan := by
  obtain ⟨roll, before, hw⟩ := h.follows hn hloc hs
  obtain ⟨count, s', hsettle, rfl, rfl⟩ := score_eq_ok e
  obtain ⟨hq, -⟩ := hw.heard.history.settle_eq hn hloc hw.faithful hsettle
    hw.heard.history.nodup_present fun _ => Iff.rfl
  exact ⟨hq, rfl, rfl⟩

/-! ## Settling after removals -/

/-- A queued delta names the fact. -/
def Names (w : IncrementalWorkspace S sh) (f : Fact) : Prop :=
  ∃ p ∈ w.session.queue.toList, f ∈ TupleId.facts p.delta.id

omit [Plan S sh] in
theorem names_tell {f : Fact} {plan : S} {s : Session S sh} {calculations : Nat} (r : Report)
    (h : Names ⟨plan, s.tell r, calculations⟩ f) :
    Names ⟨plan, s, calculations⟩ f ∨ f = r.fact := by
  obtain ⟨p, hp, hf⟩ := h
  dsimp only at hp
  rw [Session.tell_eq] at hp
  split at hp
  · exact .inl ⟨p, hp, hf⟩
  · rw [Array.toList_push] at hp
    rcases List.mem_append.1 hp with hp | hp
    · exact .inl ⟨p, hp, hf⟩
    · rw [List.mem_singleton.1 hp] at hf
      have hid : f ∈ TupleId.facts [.fact r.fact] := by cases r <;> exact hf
      rw [Tuple.mem_facts, List.mem_singleton, Element.fact.injEq] at hid
      exact .inr hid

omit [Plan S sh] in
theorem names_foldl_tell {f : Fact} {plan : S} {s : Session S sh} {calculations : Nat} (rs : List Report)
    (h : Names ⟨plan, rs.foldl Session.tell s, calculations⟩ f) :
    Names ⟨plan, s, calculations⟩ f ∨ ∃ r ∈ rs, f = r.fact := by
  induction rs generalizing s with
  | nil => exact .inl h
  | cons r rs ih =>
    rcases ih h with h | ⟨q, hq, hf⟩
    · exact (names_tell r h).imp_right fun hf => ⟨r, List.mem_cons_self, hf⟩
    · exact .inr ⟨q, List.mem_cons_of_mem _ hq, hf⟩

/-- A new session has been told of facts that exist. -/
theorem names_sessionFor (hn : n.Carries nodes) {plan : S} {calculations : Nat}
    {f : Fact}
    (h : Names ⟨plan, n.sessionFor plan, calculations⟩ f) : Plan.Has plan f := by
  rw [Network.sessionFor_eq hn] at h
  rcases names_foldl_tell _ h with ⟨p, hp, -⟩ | ⟨r, hr, rfl⟩
  · cases hp
  · obtain ⟨g, hg, rfl⟩ := List.mem_map.1 hr
    exact ((Network.mem_arrivals hn).1 hg).2

/-- A queued delta makes the network ask about the fact. -/
def Asks (w : IncrementalWorkspace S sh) (f : Fact) : Prop :=
  ∃ p ∈ w.session.queue.toList, f ∈ TupleId.facts p.delta.id ∧ p.delta.tuple?.isSome

/-- Whatever was reported since the last settling is queued. -/
theorem Follows.names_of_news (h : Follows contents n opened w roll before) {r : Report}
    (hr : r ∈ roll.news) : w.Names r.fact ∧ (r.asks → w.Asks r.fact) := by
  obtain ⟨p, hp, hd⟩ := h.heard.queued r hr
  have hmem : r.fact ∈ TupleId.facts p.delta.id := by
    rw [hd, Tuple.mem_facts]
    cases r <;> exact List.mem_singleton.2 rfl
  refine ⟨⟨p, hp, hmem⟩, fun hasks => ⟨p, hp, hmem, ?_⟩⟩
  rw [hd]
  cases r with
  | retract g => exact hasks.elim
  | _ => rfl

theorem Follows.has_or_names (h : Follows contents n opened w roll before) {f : Fact}
    (hf : roll.Known f) : Plan.Has w.plan f ∨ w.Names f := by
  rcases hf with hf | ⟨r, hr, rfl⟩
  · exact .inl ((h.present f (h.heard.reads f (.inl hf))).1 hf)
  · exact .inr (h.names_of_news hr).1

/-- What is queued can be settled on the plan as it is: all facts that are asked about exist, and
so do those that joins bring in for them. -/
def Settleable (nodes : Array (Node S sh)) (w : IncrementalWorkspace S sh) : Prop :=
  ∃ known : Fact → Prop, (∀ f, w.Asks f → known f) ∧ (∀ f, known f → Plan.Has w.plan f) ∧
    Session.JoinsKnown nodes (fun f => Plan.Has w.plan f ∨ w.Names f) known

/-- Nothing that was announced is gone. -/
theorem settleable_of_has (h : ∀ f, w.Names f → Plan.Has w.plan f) : w.Settleable nodes :=
  ⟨Plan.Has w.plan, fun f ⟨p, hp, hf, _⟩ => h f ⟨p, hp, hf⟩, fun _ hf => hf,
    Session.History.joinsKnown_of_imp fun f hf => hf.elim id (h f)⟩

/-- No fact that is asked about is gone, and there are no joins. -/
theorem settleable_of_no_joins (h : ∀ f, w.Asks f → Plan.Has w.plan f)
    (hj : ∀ i leftKey rightKey, stage? nodes i ≠ some (.join leftKey rightKey)) :
    w.Settleable nodes :=
  ⟨Plan.Has w.plan, h, fun _ hf => hf, fun i leftKey rightKey hs => absurd hs (hj i leftKey rightKey)⟩

/-- Only removals were announced, and groups are joined with groups only. -/
theorem settleable_of_removals (h : ∀ f, ¬ w.Asks f)
    (hj : ∀ i leftKey rightKey, stage? nodes i = some (.join leftKey rightKey) → ∀ side : Side,
      (∀ e ∈ inputLayout nodes i side, e = none) → ∀ e ∈ inputLayout nodes i side.opposite, e = none) :
    w.Settleable nodes := by
  refine ⟨fun _ => False, h, fun _ hf => hf.elim, fun i leftKey rightKey hs side t p ht hp => ?_⟩
  rw [Tuple.over_false_iff hp.1]
  exact hj i leftKey rightKey hs side ((Tuple.over_false_iff ht.1).1 ht)

/-! ## The score -/

/-- All that a network asks about exists, and what it remembers has been kept up to date. -/
theorem History.score_error {f : Fault} {w' : IncrementalWorkspace S sh}
    (h : History contents n [] w) (hn : n.Carries nodes)
    (hloc : ∀ i stage, stage? nodes i = some stage → stage.Local contents)
    (hs : Plan.ScoreApart contents) (hd : Session.DefinedOn nodes (Plan.Has w.plan) w.plan)
    (hw : w.Settleable nodes) (e : Workspace.score w = .error f w') : f = .overflow := by
  obtain ⟨roll, before, h⟩ := h.follows hn hloc hs
  obtain ⟨s', hsettle, -⟩ := score_eq_error e
  obtain ⟨known, hasked, hhas, hj⟩ := hw
  refine h.heard.history.settle_error hn hloc (fun g => h.has_or_names) (fun g hg => ?_)
    (fun g hg => .inl (hhas g hg)) hj (fun i stage side hst hside t ht => ?_) hsettle
  · obtain ⟨r, hr, hasks, rfl⟩ := hg
    exact hasked _ ((h.names_of_news hr).2 hasks)
  · exact hd i stage side hst hside t ⟨ht.1, fun g hg => hhas g (ht.2 g hg)⟩

/-- From scratch, the network asks about facts that exist only. -/
theorem fullScore_error {f : Fault} (hn : n.Carries nodes)
    (hloc : ∀ i stage, stage? nodes i = some stage → stage.Local contents)
    (hd : Session.DefinedOn nodes (Plan.Has plan) plan) (e : n.fullScore plan = .error f) :
    f = .overflow := by
  obtain ⟨roll, h, hhas⟩ := Follows.sessionFor hn contents plan 0
  change Step.answer (Session.settledScore plan) _ = _ at e
  unfold Step.answer at e
  split at e
  · cases e
  · next f' s' hs =>
    cases e
    rcases Step.bind_eq_error hs with hsettle | ⟨count, s'', -, hget⟩
    · exact h.heard.history.settle_error hn hloc hhas
        (fun g ⟨r, hr, _, hg⟩ => hhas g (.inr ⟨r, hr, hg⟩)) (fun _ hg => hg)
        (Session.History.joinsKnown_of_imp fun _ hg => hg) hd hsettle
    · cases hget

theorem fullScore_eq_ok {a : Score sh} (e : n.fullScore plan = .ok a) :
    ∃ count s', Session.settle plan (n.sessionFor plan) = .ok count s' ∧ a = s'.score := by
  change Step.answer (Session.settledScore plan) _ = _ at e
  unfold Step.answer at e
  split at e
  · next a' s' hs =>
    cases e
    obtain ⟨count, s'', hsettle, hget⟩ := Step.bind_eq_ok hs
    cases hget
    exact ⟨count, _, hsettle, rfl⟩
  · cases e

theorem fullScore_of_settle {count : Nat} {s' : Session S sh}
    (e : Session.settle plan (n.sessionFor plan) = .ok count s') :
    n.fullScore plan = .ok s'.score := by
  have hscore : Session.settledScore plan (n.sessionFor plan) = .ok s'.score s' := Step.bind_ok e
  unfold Network.fullScore Step.answer
  rw [hscore]

end IncrementalWorkspace

/-- What a session settles to, if it does, is the score from scratch. -/
theorem Session.Heard.score_of_settle [Plan S sh] {count : Nat} {s' : Session S sh} {full : Score sh}
    (h : Heard contents n roll before s) (hn : n.Carries nodes)
    (hloc : ∀ i stage, stage? nodes i = some stage → stage.Local contents)
    (hfaith : Faithful contents roll before plan)
    (hpresent : ∀ f, n.Reads f → (f ∈ roll.present ↔ Plan.Has plan f))
    (hfull : n.fullScore plan = .ok full) (e : Session.settle plan s = .ok count s') :
    s'.queue = #[] ∧ s'.score = full := by
  obtain ⟨_, s₀, e₀, rfl⟩ := IncrementalWorkspace.fullScore_eq_ok hfull
  obtain ⟨roll₀, h₀, -⟩ := IncrementalWorkspace.Follows.sessionFor hn contents plan 0
  -- Both sessions know the facts that are present, and agree with the reference on them.
  have hsame : ∀ f, f ∈ roll.present ↔ f ∈ roll₀.present := fun f =>
    (h.mem_present_iff hpresent f).trans (h₀.heard.mem_present_iff h₀.present f).symm
  have hnodup := h.history.nodup_present
  obtain ⟨hq, -, heval⟩ := h.history.settle_eq hn hloc hfaith e hnodup fun _ => Iff.rfl
  obtain ⟨-, -, heval₀⟩ := h₀.heard.history.settle_eq hn hloc h₀.faithful e₀ hnodup hsame
  rw [heval] at heval₀
  exact ⟨hq, congrArg Prod.fst (Except.ok.inj heval₀)⟩

namespace IncrementalWorkspace

variable [Plan S sh] {w : IncrementalWorkspace S sh}

/-- A score that the workspace answers is the score from scratch. -/
theorem Follows.score_eq {a full : Score sh} {w' : IncrementalWorkspace S sh}
    (h : Follows contents n [] w roll before) (hn : n.Carries nodes)
    (hloc : ∀ i stage, stage? nodes i = some stage → stage.Local contents)
    (e : Workspace.score w = .ok a w') (hfull : n.fullScore w.plan = .ok full) : a = full := by
  obtain ⟨count, s', hsettle, rfl, -⟩ := score_eq_ok e
  exact (h.heard.score_of_settle hn hloc h.faithful h.present hfull hsettle).2

theorem Follows.fullScore_eq (h : Follows contents n [] w roll before) :
    Workspace.fullScore w = n.fullScore w.plan := by
  show w.session.network.fullScore w.plan = _
  rw [h.heard.network]

/-- Whatever happened to a workspace: its score is the score from scratch if both have one, the
score from scratch is missing by overflow only, and so is the score of the workspace as long as
what is queued can be settled. -/
theorem score_eq_fullScore {b : NetworkBuilder S sh} (hb : b.Declared) (hbuild : b.build = .ok n)
    (hloc : ∀ i stage, stage? b.nodes i = some stage → stage.Local contents)
    (hs : Plan.ScoreApart contents) (h : History contents n [] w)
    (hd : Session.DefinedOn b.nodes (Plan.Has w.plan) w.plan) :
    (∀ a w' full, Workspace.score w = .ok a w' → Workspace.fullScore w = .ok full → a = full) ∧
      (∀ f, Workspace.fullScore w = .error f → f = .overflow) ∧
      (w.Settleable b.nodes → ∀ f w', Workspace.score w = .error f w' → f = .overflow) := by
  have hn := hb.wellFormed.carries hbuild
  obtain ⟨roll, before, hw⟩ := h.follows hn hloc hs
  refine ⟨fun a w' full e hfull => ?_, fun f e => ?_, fun hset f w' e => ?_⟩
  · exact hw.score_eq hn hloc e (hw.fullScore_eq ▸ hfull)
  · exact fullScore_error hn hloc hd (hw.fullScore_eq ▸ e)
  · exact h.score_error hn hloc hs hd hset e

end IncrementalWorkspace

/-! ## A row of cells -/

namespace Row

def entry (row : Row) (f : Fact) : Option (Option Nat) :=
  if f.family = 0 then row.cells[f.index]? else none

/-- The value of the first fact of a tuple, which has to exist. -/
def weigh (row : Row) (t : Tuple) : Checked Int64 :=
  match t.fact? 0 with
  | none => .ok 0
  | some f =>
    match row.entry f with
    | none => .error .undefined
    | some value => .ok (Int64.ofNat (value.getD 0))

theorem has_iff {row : Row} {f : Fact} :
    Plan.Has row f ↔ f.family = 0 ∧ f.index < row.cells.length := by
  show f.index < (if f.family = 0 then row.cells.length else 0) ↔ _
  split
  · next h => simp [h]
  · next h => simp [h]

theorem scoreApart : Plan.ScoreApart entry := ⟨fun _ _ _ => Iff.rfl, fun _ _ _ => rfl⟩

theorem local_builder (i : Nat) (stage : Stage Row .simple)
    (h : stage? (Tally.builder weigh).nodes i = some stage) : stage.Local entry := by
  rcases Tally.stage?_builder _ h with rfl | rfl
  · trivial
  · intro row row' t ht
    unfold weigh
    cases hf : t.fact? 0 with
    | none => rfl
    | some f =>
      dsimp only
      rw [ht f (Tuple.mem_facts_of_fact? hf)]

theorem definedOn_builder (row : Row) :
    Session.DefinedOn (Tally.builder weigh).nodes (Plan.Has row) row := by
  intro i stage side h _ t ht
  rcases Tally.stage?_builder _ h with rfl | rfl
  · trivial
  · intro e
    unfold weigh at e
    split at e
    · cases e
    · next f hf =>
      obtain ⟨hfamily, hindex⟩ := has_iff.1 (ht.2 f (Tuple.mem_facts_of_fact? hf))
      unfold entry at e
      rw [if_pos hfamily, List.getElem?_eq_getElem hindex] at e
      cases e

theorem has_append {cells : List (Option Nat)} {value : Option Nat} {f : Fact} :
    Plan.Has (⟨cells ++ [value], none⟩ : Row) f ↔
      f = ⟨0, cells.length⟩ ∨ Plan.Has (⟨cells, none⟩ : Row) f := by
  obtain ⟨family, index⟩ := f
  rw [has_iff, has_iff, Fact.mk.injEq]
  show family = 0 ∧ index < (cells ++ [value]).length ↔
    family = 0 ∧ index = cells.length ∨ family = 0 ∧ index < cells.length
  rw [List.length_append, List.length_singleton]
  omega

theorem entry_append {cells : List (Option Nat)} {value : Option Nat} {f : Fact}
    (h : Plan.Has (⟨cells, none⟩ : Row) f) :
    entry ⟨cells ++ [value], none⟩ f = entry ⟨cells, none⟩ f := by
  obtain ⟨hfamily, hindex⟩ := has_iff.1 h
  unfold entry
  rw [if_pos hfamily, if_pos hfamily]
  exact List.getElem?_append_left hindex

theorem not_has_nil (f : Fact) : ¬ Plan.Has (⟨[], none⟩ : Row) f :=
  fun h => Nat.not_lt_zero _ (has_iff.1 h).2

theorem has_single {value : Option Nat} {f : Fact} :
    Plan.Has (⟨[value], none⟩ : Row) f ↔ f = ⟨0, 0⟩ := by
  have h : Plan.Has (⟨[] ++ [value], none⟩ : Row) f ↔ f = ⟨0, 0⟩ ∨ Plan.Has (⟨[], none⟩ : Row) f :=
    has_append
  exact h.trans (or_iff_left (not_has_nil f))

/-- One value is changed, and another one is added. -/
def growing : IncrementalWorkspace Row .simple :=
  Workspace.afterAdded ⟨0, 1⟩ <|
    Workspace.modify (fun row => { row with cells := [some 7] ++ [some 3] }) <|
    Workspace.afterChange ⟨0, 0⟩ <| Workspace.modify (fun row => { row with cells := [some 7] }) <|
      Workspace.beforeChange ⟨0, 0⟩ <|
        IncrementalWorkspace.new (Tally.network weigh) ⟨[some 5], none⟩

theorem growing_history :
    IncrementalWorkspace.History entry (Tally.network weigh) [] growing := by
  have hstart : IncrementalWorkspace.History entry (Tally.network weigh) [] _ :=
    .start ⟨[some 5], none⟩
  refine (((hstart.before ⟨0, 0⟩).change (fun _ => Iff.rfl) fun f hf hhas => ?_).after ⟨0, 0⟩).add
    (fun _ => has_append) fun _ _ hhas => entry_append hhas
  exact absurd (List.mem_singleton.2 (has_single.1 hhas)) hf

theorem growing_settleable : growing.Settleable (Tally.builder weigh).nodes := by
  refine IncrementalWorkspace.settleable_of_has fun f ⟨p, hp, hf⟩ => has_append.2 ?_
  have hqueue : growing.session.queue.toList = [⟨0, .left, .insert (Tuple.ofFact ⟨0, 0⟩ 0)⟩,
      ⟨0, .left, .update (Tuple.ofFact ⟨0, 0⟩ 0)⟩, ⟨0, .left, .insert (Tuple.ofFact ⟨0, 1⟩ 0)⟩] := rfl
  rw [hqueue] at hp
  have hid : p.delta.id = [.fact ⟨0, 0⟩] ∨ p.delta.id = [.fact ⟨0, 1⟩] := by
    simp only [List.mem_cons, List.not_mem_nil, or_false] at hp
    rcases hp with rfl | rfl | rfl
    · exact .inl rfl
    · exact .inl rfl
    · exact .inr rfl
  rw [Tuple.mem_facts] at hf
  rcases hid with hid | hid
  · rw [hid, List.mem_singleton, Element.fact.injEq] at hf
    exact .inr (has_single.2 hf)
  · rw [hid, List.mem_singleton, Element.fact.injEq] at hf
    exact .inl hf

/-- A fact is removed before the score was ever asked for. -/
def shrinking : IncrementalWorkspace Row .simple :=
  Workspace.modify (fun row => { row with cells := [] })
    (Workspace.beforeRemoved ⟨0, 0⟩ (IncrementalWorkspace.new (Tally.network weigh) ⟨[some 5], none⟩))

theorem shrinking_history :
    IncrementalWorkspace.History entry (Tally.network weigh) [] shrinking := by
  have hstart : IncrementalWorkspace.History entry (Tally.network weigh) [] _ :=
    .start ⟨[some 5], none⟩
  refine hstart.remove (fun f => ?_) fun f hne hhas => absurd (has_single.1 hhas) hne
  refine ⟨fun h => absurd h (not_has_nil f), fun ⟨hne, hhas⟩ => absurd (has_single.1 hhas) hne⟩

theorem shrinking_settle :
    ∃ s', Session.settle shrinking.plan shrinking.session = .error .undefined s' := by
  have hsession : shrinking.session =
      { network := Tally.network weigh
        stations := (Tally.network weigh).nodes.map (fun n => Station.ofStage n.stage)
        queue := #[⟨0, .left, .insert (Tuple.ofFact ⟨0, 0⟩ 0)⟩,
          ⟨0, .left, .retract [.fact ⟨0, 0⟩]⟩] } := rfl
  have hplan : shrinking.plan = ⟨[], none⟩ := rfl
  rw [hsession, hplan]
  simp [Session.settle, Tally.network, Tally.builder, Station.ofStage, Session.settleRounds,
    Session.drain, Session.process, Station.receive, SourceMemory.receive, Session.absorb,
    Session.forward, Tuple.ofFact, Tuple.fact?, Tuple.withOrigin, Station.scoreTuple, weigh, entry,
    Station.conclude, pure, EStateM.pure]

end Row

namespace IncrementalWorkspace

/-- A workspace that only grows and changes always has a score, up to overflow. -/
theorem score_eq_fullScore_growing :
    (∀ a w' full, Workspace.score Row.growing = .ok a w' →
      Workspace.fullScore Row.growing = .ok full → a = full) ∧
    (∀ f, Workspace.fullScore Row.growing = .error f → f = .overflow) ∧
    ∀ f w', Workspace.score Row.growing = .error f w' → f = .overflow := by
  have h := score_eq_fullScore (Tally.builder_declared _) (Tally.build_builder _)
    Row.local_builder Row.scoreApart Row.growing_history (Row.definedOn_builder _)
  exact ⟨h.1, h.2.1, h.2.2 Row.growing_settleable⟩

/-- A network asks about a fact that is gone if it was announced just before it was removed. -/
theorem score_undefined_shrinking :
    History Row.entry (Tally.network Row.weigh) [] Row.shrinking ∧
      Session.DefinedOn (Tally.builder Row.weigh).nodes (Plan.Has Row.shrinking.plan)
        Row.shrinking.plan ∧
      ∃ w', Workspace.score Row.shrinking = .error .undefined w' := by
  refine ⟨Row.shrinking_history, Row.definedOn_builder _, ?_⟩
  obtain ⟨s', hsettle⟩ := Row.shrinking_settle
  exact ⟨_, score_of_settle_error hsettle⟩

end IncrementalWorkspace

end PlanSearch
