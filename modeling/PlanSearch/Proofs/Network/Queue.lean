import PlanSearch.Proofs.Network.Station

/-!
# Queues and reports

What is on its way to a node, what the delivery of one delta does to a session, and what the reports
that are still queued for a source will make of it.

    Feeds n.nodes node ⟨i, s⟩ → arriving (emitted n node out) i s = out            (arriving_emitted)
    f ∈ (roll.hear r).present ↔ r.keeps f (f ∈ roll.present)                      (mem_present_hear)
-/

namespace PlanSearch

variable {S : Type} {sh : Shape}

/-! ## Layouts of streams -/

/-- The layout of the tuples of node `i`. -/
def layout (nodes : Array (Node S sh)) (i : Nat) : Layout :=
  match stage? nodes i with
  | none => []
  | some stage => stage.layout fun s =>
      match _h : Reference.parent? nodes i s with
      | none => []
      | some p => layout nodes p
termination_by i
decreasing_by exact Reference.parent?_lt _h

/-- The layout of the tuples that arrive on side `s` of node `i`. -/
def inputLayout (nodes : Array (Node S sh)) (i : Nat) (s : Side) : Layout :=
  match Reference.parent? nodes i s with
  | none => []
  | some p => layout nodes p

theorem layout_eq {nodes : Array (Node S sh)} {i : Nat} {stage : Stage S sh}
    (h : stage? nodes i = some stage) :
    layout nodes i = stage.layout (inputLayout nodes i) := by
  rw [layout, h]
  dsimp only
  congr 1
  funext s
  unfold inputLayout
  split
  · next hp => rw [hp]
  · next p hp => rw [hp]

theorem inputLayout_eq {nodes : Array (Node S sh)} {p i : Nat} {s : Side} (h : Wired nodes)
    (hf : Feeds nodes p ⟨i, s⟩) : inputLayout nodes i s = layout nodes p := by
  unfold inputLayout
  rw [Reference.parent?_eq h hf]

/-! ## Queues -/

/-- The deltas on their way to side `s` of node `i`, in order. -/
def arriving (pending : List Pending) (i : Nat) (s : Side) : List Delta :=
  (pending.filter fun p => p.target = i ∧ p.side = s).map (·.delta)

theorem arriving_append (ps qs : List Pending) (i : Nat) (s : Side) :
    arriving (ps ++ qs) i s = arriving ps i s ++ arriving qs i s := by
  unfold arriving
  rw [List.filter_append, List.map_append]

theorem arriving_cons_self (p : Pending) (ps : List Pending) :
    arriving (p :: ps) p.target p.side = p.delta :: arriving ps p.target p.side := by
  unfold arriving
  rw [List.filter_cons_of_pos (by simp), List.map_cons]

theorem arriving_cons_of_ne {p : Pending} {i : Nat} {s : Side} (ps : List Pending)
    (h : ¬ (p.target = i ∧ p.side = s)) : arriving (p :: ps) i s = arriving ps i s := by
  unfold arriving
  rw [List.filter_cons_of_neg (by simpa using h)]

theorem arriving_push (rest : List Pending) (queue : Array Pending) (p : Pending) (i : Nat)
    (s : Side) : arriving (rest ++ (queue.push p).toList) i s =
      arriving (rest ++ queue.toList) i s ++
        if p.target = i ∧ p.side = s then [p.delta] else [] := by
  rw [Array.toList_push, ← List.append_assoc, arriving_append]
  congr 1
  split
  · next h =>
    obtain ⟨rfl, rfl⟩ := h
    exact arriving_cons_self p []
  · next h => exact arriving_cons_of_ne [] h

namespace Session

theorem stations_new (n : Network S sh) (i : Nat) :
    (new n).stations[i]? = (stage? n.nodes i).map Station.ofStage := by
  unfold stage? new
  rw [Array.getElem?_map, Option.map_map]
  rfl

theorem stage_new (n : Network S sh) (i : Nat) :
    ((new n).stations[i]?).map Station.stage = stage? n.nodes i := by
  rw [stations_new, Option.map_map, show Station.stage ∘ Station.ofStage = id from
    funext Station.stage_ofStage, Option.map_id]
  rfl

/-- The deltas that are queued when `node` emits `out`. -/
def emitted (n : Network S sh) (node : Nat) (out : List Delta) : List Pending :=
  match n.nodes[node]? with
  | none => []
  | some m => out.flatMap fun d => m.children.map fun e => ⟨e.target, e.side, d⟩

theorem forward_queue (s : Session S sh) (node : Nat) (out : List Delta) :
    (s.forward node out).queue.toList = s.queue.toList ++ emitted s.network node out := by
  unfold forward emitted
  cases s.network.nodes[node]? with
  | none => simp
  | some m =>
    have hchildren : ∀ (d : Delta) (es : List Edge) (queue : Array Pending),
        (es.foldl (fun queue e => queue.push ⟨e.target, e.side, d⟩) queue).toList =
          queue.toList ++ es.map fun e => ⟨e.target, e.side, d⟩ := by
      intro d es
      induction es with
      | nil => simp
      | cons e es ih => intro queue; rw [List.foldl_cons, ih]; simp
    dsimp only
    generalize s.queue = queue
    induction out generalizing queue with
    | nil => simp
    | cons d out ih => rw [List.foldl_cons, ih, hchildren]; simp

theorem forward_eq (s : Session S sh) (node : Nat) (out : List Delta) :
    (s.forward node out).network = s.network ∧ (s.forward node out).stations = s.stations ∧
      (s.forward node out).score = s.score := by
  unfold forward
  split <;> exact ⟨rfl, rfl, rfl⟩

theorem mem_emitted {n : Network S sh} {node : Nat} {out : List Delta} {p : Pending} :
    p ∈ emitted n node out ↔ Feeds n.nodes node ⟨p.target, p.side⟩ ∧ p.delta ∈ out := by
  unfold emitted Feeds
  cases n.nodes[node]? with
  | none => simp
  | some m =>
    obtain ⟨target, side, delta⟩ := p
    simp only [List.mem_flatMap, List.mem_map, Pending.mk.injEq, Option.some.injEq]
    constructor
    · rintro ⟨d, hd, e, he, rfl, rfl, rfl⟩
      exact ⟨⟨m, rfl, he⟩, hd⟩
    · rintro ⟨⟨_, rfl, he⟩, hd⟩
      exact ⟨delta, hd, _, he, rfl, rfl, rfl⟩

/-- An edge carries what is emitted, once. -/
theorem arriving_emitted {n : Network S sh} {node i : Nat} {s : Side} (out : List Delta)
    (hf : Feeds n.nodes node ⟨i, s⟩)
    (hnodup : ∀ m, n.nodes[node]? = some m → m.children.Nodup) :
    arriving (emitted n node out) i s = out := by
  obtain ⟨m, hm, hmem⟩ := hf
  have hone : (m.children.filter fun e => e.target = i ∧ e.side = s) = [⟨i, s⟩] := by
    have heq : (fun e : Edge => decide (e.target = i ∧ e.side = s)) = (· == ⟨i, s⟩) := by
      funext e
      exact decide_eq_decide.2 (by rw [Edge.mk.injEq])
    rw [heq, List.filter_beq, List.count_eq_one_of_mem (hnodup m hm) hmem]
    rfl
  unfold emitted arriving
  rw [hm]
  dsimp only
  induction out with
  | nil => rfl
  | cons d out ih =>
    rw [List.flatMap_cons, List.filter_append, List.map_append, ih, List.filter_map, List.map_map]
    have hcomp : ((fun p : Pending => decide (p.target = i ∧ p.side = s)) ∘
        fun e : Edge => (⟨e.target, e.side, d⟩ : Pending)) =
          fun e => decide (e.target = i ∧ e.side = s) := rfl
    rw [hcomp, hone]
    rfl

theorem arriving_emitted_of_not {n : Network S sh} {node i : Nat} {s : Side} (out : List Delta)
    (hf : ¬ Feeds n.nodes node ⟨i, s⟩) : arriving (emitted n node out) i s = [] := by
  unfold arriving
  rw [List.map_eq_nil_iff, List.filter_eq_nil_iff]
  intro p hp
  rw [mem_emitted] at hp
  rw [decide_eq_true_eq]
  rintro ⟨rfl, rfl⟩
  exact hf hp.1

/-! ## One delivery -/

section

variable {now : S} {s s' : Session S sh} {p : Pending} {station : Station S sh}

/-- Delivering a delta replaces its station, queues what that emits and moves the score. -/
theorem process_of_none (hs : s.stations[p.target]? = none) : process now p s = .ok () s := by
  unfold process
  rw [hs]

theorem process_eq_ok (e : process now p s = .ok () s')
    (hs : s.stations[p.target]? = some station) :
    ∃ reply station', Station.receive now p.target p.side p.delta station = .ok reply station' ∧
      s'.network = s.network ∧ s'.stations = s.stations.setIfInBounds p.target station' ∧
      s'.queue.toList = s.queue.toList ++ emitted s.network p.target reply.deltas ∧
      ∀ l, s'.score.level l = s.score.level l + reply.gain l := by
  unfold process at e
  rw [hs] at e
  dsimp only at e
  split at e
  · cases e
  · next reply station' hr =>
    refine ⟨reply, station', hr, ?_⟩
    rw [Array.setIfInBounds_setIfInBounds] at e
    unfold absorb at e
    split at e
    · next out =>
      cases e
      obtain ⟨hn, hst, hsc⟩ := forward_eq
        { s with stations := s.stations.setIfInBounds p.target station' } p.target out
      exact ⟨hn, hst, forward_queue .., fun l => by rw [hsc]; exact (Int.add_zero _).symm⟩
    · next d =>
      split at e
      · cases e
      · next score hscore =>
        cases e
        refine ⟨rfl, rfl, ?_, fun l => Score.level_add hscore l⟩
        have : emitted s.network p.target (Reply.change d).deltas = [] := by
          unfold emitted
          split <;> rfl
        rw [this, List.append_nil]

/-- A delivery that fails replaces its station and does nothing else. Either the station fails, or
the score cannot take the change that it replied. -/
theorem process_eq_error {f : Fault} (e : process now p s = .error f s')
    (hs : s.stations[p.target]? = some station) :
    ∃ station', s'.network = s.network ∧ s'.queue = s.queue ∧ s'.score = s.score ∧
      s'.stations = s.stations.setIfInBounds p.target station' ∧
      (Station.receive now p.target p.side p.delta station = .error f station' ∨
        f = .overflow ∧
          ∃ reply, Station.receive now p.target p.side p.delta station = .ok reply station') := by
  unfold process at e
  rw [hs] at e
  dsimp only at e
  split at e
  · next f' station' hr =>
    cases e
    exact ⟨station', rfl, rfl, rfl, Array.setIfInBounds_setIfInBounds .., .inl hr⟩
  · next reply station' hr =>
    unfold absorb at e
    split at e
    · cases e
    · split at e
      · next hg =>
        cases e
        exact ⟨station', rfl, rfl, rfl, Array.setIfInBounds_setIfInBounds ..,
          .inr ⟨Score.ofExact_error hg, _, hr⟩⟩
      · cases e

end

end Session

/-! ## Reports -/

namespace Report

/-- The report makes the network ask about the fact. -/
def asks : Report → Prop
  | insert _ | update _ => True
  | retract _ => False

end Report

/-- The facts that are present, and what was reported since the session was settled last. -/
structure Roll where
  present : List Fact := []
  news : List Report := []

namespace Roll

def hear (roll : Roll) (r : Report) : Roll where
  present := match r with
    | .insert f => if f ∈ roll.present then roll.present else f :: roll.present
    | .update _ => roll.present
    | .retract f => roll.present.filter (· ≠ f)
  news := r :: roll.news

/-- The session has been settled. -/
def settled (roll : Roll) : Roll := { roll with news := [] }

/-- There was a report on the fact. -/
def Told (roll : Roll) (f : Fact) : Prop := ∃ r ∈ roll.news, r.fact = f

/-- The network was made to ask about the fact. -/
def Asked (roll : Roll) (f : Fact) : Prop := ∃ r ∈ roll.news, r.asks ∧ r.fact = f

/-- The fact is present, or there was a report on it. -/
def Known (roll : Roll) (f : Fact) : Prop := f ∈ roll.present ∨ roll.Told f

theorem mem_present_hear (roll : Roll) (r : Report) (f : Fact) :
    f ∈ (roll.hear r).present ↔ r.keeps f (f ∈ roll.present) := by
  cases r with
  | insert g =>
    show f ∈ (if g ∈ roll.present then roll.present else g :: roll.present) ↔ f = g ∨ _
    split
    · next hg => exact ⟨.inr, fun h => h.elim (fun e => e ▸ hg) id⟩
    · exact List.mem_cons
  | update g => exact Iff.rfl
  | retract g =>
    show f ∈ roll.present.filter (· ≠ g) ↔ f ≠ g ∧ _
    rw [List.mem_filter, decide_eq_true_eq, and_comm]

theorem nodup_hear {roll : Roll} (h : roll.present.Nodup) (r : Report) :
    (roll.hear r).present.Nodup := by
  cases r with
  | insert g =>
    show (if g ∈ roll.present then roll.present else g :: roll.present).Nodup
    split
    · exact h
    · next hg => exact List.nodup_cons.2 ⟨hg, h⟩
  | update g => exact h
  | retract g => exact h.filter _

theorem told_hear {roll : Roll} {r : Report} {f : Fact} :
    (roll.hear r).Told f ↔ r.fact = f ∨ roll.Told f := by
  unfold Told hear
  simp

theorem known_hear {roll : Roll} {f : Fact} (r : Report) (h : roll.Known f) :
    (roll.hear r).Known f := by
  by_cases hf : r.fact = f
  · exact .inr (told_hear.2 (.inl hf))
  · rcases h with h | h
    · refine .inl ((mem_present_hear roll r f).2 ?_)
      have hf' : f ≠ r.fact := fun e => hf e.symm
      cases r with
      | insert g => exact .inr h
      | update g => exact h
      | retract g => exact ⟨hf', h⟩
    · exact .inr (told_hear.2 (.inr h))

end Roll

namespace SourceMemory

/-- The source has taken in all reports on its family but those that are queued. -/
def Awaits (origin family : Nat) (m : SourceMemory) (output : Feed) (queued : List Delta)
    (roll : Roll) (known : Fact → Prop) : Prop :=
  ∃ rs : List Report, queued = rs.map (Report.delta origin) ∧
    (∀ r ∈ rs, r.fact.family = family ∧ (r.asks → known r.fact)) ∧
    ∀ f, f.family = family →
      (f ∈ roll.present ↔ rs.foldl (fun present r => r.keeps f present) (f ∈ m)) ∧
      (roll.Told f → (∃ r ∈ rs, r.fact = f) ∨ (f ∈ m → [.fact f] ∈ output.touched))

variable {origin family : Nat} {m : SourceMemory} {output : Feed} {queued : List Delta}
  {roll : Roll} {known : Fact → Prop}

theorem awaits_of_eq_nil (h : Awaits origin family m output [] roll known) {f : Fact}
    (hf : f.family = family) :
    (f ∈ roll.present ↔ f ∈ m) ∧ (roll.Told f → f ∈ m → [.fact f] ∈ output.touched) := by
  obtain ⟨rs, hrs, -, h⟩ := h
  cases rs with
  | cons r rs => cases hrs
  | nil =>
    refine ⟨(h f hf).1, fun ht => ?_⟩
    rcases (h f hf).2 ht with ⟨r, hr, -⟩ | h
    · cases hr
    · exact h

theorem foldl_keeps_congr {f : Fact} {P Q : Prop} (h : P ↔ Q) (rs : List Report) :
    rs.foldl (fun present r => r.keeps f present) P ↔
      rs.foldl (fun present r => r.keeps f present) Q := by
  rw [propext h]

/-- The next report is taken in. -/
theorem Awaits.receive {d : Delta} (h : Awaits origin family m output (d :: queued) roll known)
    (ht : Tracks family origin m output) :
    let out := (m.receive origin d).2
    let m' := (m.receive origin d).1
    Tracks family origin m' (output.hearAll out) ∧
      Awaits origin family m' (output.hearAll out) queued roll known ∧
      ∀ e ∈ out, ∀ t, e.tuple? = some t → t.Over [some family] known := by
  obtain ⟨rs, hrs, hknown, h⟩ := h
  cases rs with
  | nil => cases hrs
  | cons r rs =>
    obtain ⟨rfl, rfl⟩ := List.cons.inj hrs
    obtain ⟨hfamily, hasks⟩ := hknown r List.mem_cons_self
    obtain ⟨htracks, hkeeps, htouched, hout⟩ := ht.receive r hfamily
    refine ⟨htracks, ⟨rs, rfl, fun q hq => hknown q (List.mem_cons_of_mem _ hq), fun f hf => ?_⟩,
      fun e he t htuple => ?_⟩
    · refine ⟨(h f hf).1.trans (foldl_keeps_congr (hkeeps f).symm rs), fun htold => ?_⟩
      by_cases hrf : r.fact = f
      · exact .inr fun hm => hrf ▸ htouched (hrf.symm ▸ hm)
      · rcases (h f hf).2 htold with ⟨q, hq, hqf⟩ | hold
        · rcases List.mem_cons.1 hq with rfl | hq
          · exact absurd hqf hrf
          · exact .inl ⟨q, hq, hqf⟩
        · refine .inr fun hm => Feed.mem_touched_hearAll.2 (.inl (hold ?_))
          have hm := (hkeeps f).1 hm
          cases r with
          | insert g => exact hm.resolve_left fun e => hrf e.symm
          | update g => exact hm
          | retract g => exact hm.2
    · rw [hout e he t htuple, ← hfamily]
      refine Tuple.over_ofFact (hasks ?_) origin
      cases r with
      | insert g => trivial
      | update g => trivial
      | retract g =>
        -- A source emits nothing but the retraction for a fact that is gone.
        have he' : e ∈ (m.receive origin (.retract [.fact g])).2 := he
        simp only [SourceMemory.receive, List.head?_cons] at he'
        split at he'
        · rw [List.mem_singleton] at he'
          subst he'
          cases htuple
        · cases he'

/-- A report on the family is queued. -/
theorem Awaits.tell (h : Awaits origin family m output queued roll known) {r : Report}
    (hr : r.fact.family = family) {known' : Fact → Prop} (hk : ∀ f, known f → known' f)
    (hrk : r.asks → known' r.fact) :
    Awaits origin family m output (queued ++ [r.delta origin]) (roll.hear r) known' := by
  obtain ⟨rs, rfl, hknown, h⟩ := h
  refine ⟨rs ++ [r], by simp, fun q hq => ?_, fun f hf => ⟨?_, fun ht => ?_⟩⟩
  · rcases List.mem_append.1 hq with hq | hq
    · exact ⟨(hknown q hq).1, fun ha => hk _ ((hknown q hq).2 ha)⟩
    · rw [List.mem_singleton] at hq
      subst hq
      exact ⟨hr, hrk⟩
  · rw [Roll.mem_present_hear, List.foldl_append]
    show r.keeps f _ ↔ r.keeps f _
    rw [propext (h f hf).1]
  · rcases Roll.told_hear.1 ht with hrf | ht
    · exact .inl ⟨r, by simp, hrf⟩
    · rcases (h f hf).2 ht with ⟨q, hq, hqf⟩ | h
      · exact .inl ⟨q, by simp [hq], hqf⟩
      · exact .inr h

/-- A report on another family does not concern the source. -/
theorem Awaits.ignore (h : Awaits origin family m output queued roll known) {r : Report}
    (hr : r.fact.family ≠ family) {known' : Fact → Prop} (hk : ∀ f, known f → known' f) :
    Awaits origin family m output queued (roll.hear r) known' := by
  obtain ⟨rs, rfl, hknown, h⟩ := h
  refine ⟨rs, rfl, fun q hq => ⟨(hknown q hq).1, fun ha => hk _ ((hknown q hq).2 ha)⟩,
    fun f hf => ⟨?_, fun ht => ?_⟩⟩
  · have hrf : f ≠ r.fact := fun e => hr (e ▸ hf)
    rw [Roll.mem_present_hear, ← (h f hf).1]
    cases r with
    | insert g => exact or_iff_right hrf
    | update g => exact Iff.rfl
    | retract g => exact and_iff_right hrf
  · rcases Roll.told_hear.1 ht with hrf | ht
    · exact absurd (hrf ▸ hf) hr
    · exact (h f hf).2 ht

end SourceMemory

end PlanSearch
