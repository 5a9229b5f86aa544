import PlanSearch.Proofs.Network.Collector
import PlanSearch.Proofs.Network.Group
import PlanSearch.Proofs.Network.Join
import PlanSearch.Proofs.Network.View
import PlanSearch.Proofs.Network.Wiring

/-!
# The score from scratch

What a network says of a plan, computed from the bottom up without any memory: a source lists the
facts of its family, a filter keeps those that pass, a join pairs tuples with equal keys, a group has
one tuple for each key, and a constraint sums the scores of its matches. Sums are formed exactly, so
they fail only if they do not fit themselves.

A feed lists tuples if exactly those are live in it. When no answer is out of date, the output of
each kind of node lists what its stage makes of the lists of its inputs.
-/

namespace PlanSearch

variable {S : Type} {sh : Shape}

/-! ## Definitions -/

namespace Reference

/-- The tuples together with what they are answered. -/
def ask {α : Type} (fn : Tuple → Checked α) (ts : List Tuple) : Checked (List (α × Tuple)) :=
  ts.mapM fun t => do return (← fn t, t)

/-- The tuples that a stage, numbered `origin`, makes of those on its inputs. -/
def derive (plan : S) (facts : List Fact) (origin : Nat) (input : Side → Checked (List Tuple)) :
    Stage S sh → Checked (List Tuple)
  | .source family => .ok ((facts.filter (·.family = family)).map (Tuple.ofFact · origin))
  | .filter test => do
    let verdicts ← ask (test plan) (← input .left)
    return (verdicts.filter (·.1)).map (·.2.withOrigin origin)
  | .join leftKey rightKey => do
    let ls ← ask (leftKey plan) (← input .left)
    let rs ← ask (rightKey plan) (← input .right)
    return ls.flatMap fun l => (rs.filter (·.1 = l.1)).map fun r => l.2.join r.2 origin
  | .group key value c => do
    let members ← ask (keyAndValue key value plan) (← input .left)
    (members.map (·.1.1)).dedup.mapM fun k => do
      let values := (members.filter (·.1.1 = k)).map (·.1.2)
      return Tuple.ofGroup k (← c.collect values) origin
  | .scorer _ _ _ => .ok []

/-- The node that feeds side `s` of node `i`. -/
def parent? (nodes : Array (Node S sh)) (i : Nat) (s : Side) : Option Nat :=
  (List.range i).find? fun p => (nodes[p]?).any fun n => n.children.contains ⟨i, s⟩

theorem parent?_lt {nodes : Array (Node S sh)} {i p : Nat} {s : Side}
    (h : parent? nodes i s = some p) : p < i := by
  simpa using List.mem_of_find?_eq_some h

/-- The tuples of node `i`. -/
def stream (nodes : Array (Node S sh)) (plan : S) (facts : List Fact) (i : Nat) :
    Checked (List Tuple) :=
  match stage? nodes i with
  | none => .ok []
  | some stage => derive plan facts i (fun s =>
      match _h : parent? nodes i s with
      | none => .ok []
      | some p => stream nodes plan facts p) stage
termination_by i
decreasing_by exact parent?_lt _h

/-- The tuples that arrive on side `s` of node `i`. -/
def inputOf (nodes : Array (Node S sh)) (plan : S) (facts : List Fact) (i : Nat) (s : Side) :
    Checked (List Tuple) :=
  match parent? nodes i s with
  | none => .ok []
  | some p => stream nodes plan facts p

/-- The score and the number of matches of a constraint. -/
def total (nodes : Array (Node S sh)) (plan : S) (facts : List Fact) (c : Constraint sh) :
    Checked (ConstraintTotal sh) :=
  match stage? nodes c.scorer with
  | some (.scorer _ matchWeight _) => do
    let weight ← c.weight.scaled c.impact.sign
    let matched ← ask (matchScore weight matchWeight plan) (← inputOf nodes plan facts c.scorer .left)
    return ⟨c.name, c.impact, c.weight, ← Score.total (matched.map (·.1)), matched.length⟩
  | _ => .ok ⟨c.name, c.impact, c.weight, .zero, 0⟩

/-- The score of the plan and the totals of all constraints. -/
def evaluate (nodes : Array (Node S sh)) (constraints : List (Constraint sh)) (plan : S)
    (facts : List Fact) : Checked (Score sh × List (ConstraintTotal sh)) := do
  let totals ← constraints.mapM (total nodes plan facts)
  return (← Score.total (totals.map (·.score)), totals)

/-! ## Unfolding -/

theorem parent?_eq {nodes : Array (Node S sh)} {i p : Nat} {s : Side} (h : Wired nodes)
    (hf : Feeds nodes p ⟨i, s⟩) : parent? nodes i s = some p := by
  have hfeeds : ∀ q, ((nodes[q]?).any fun n => n.children.contains ⟨i, s⟩) = true ↔
      Feeds nodes q ⟨i, s⟩ := fun q => by
    unfold Feeds
    cases nodes[q]? <;> simp
  have hsome : (parent? nodes i s).isSome := by
    unfold parent?
    rw [List.find?_isSome]
    exact ⟨p, List.mem_range.2 (h.forward p _ hf), (hfeeds p).2 hf⟩
  obtain ⟨q, hq⟩ := Option.isSome_iff_exists.1 hsome
  have hqf : Feeds nodes q ⟨i, s⟩ := by
    unfold parent? at hq
    have hfound := List.find?_some hq
    exact (hfeeds q).1 hfound
  rw [hq, h.unique q p _ hqf hf]

theorem stream_eq (nodes : Array (Node S sh)) (plan : S) (facts : List Fact) (i : Nat) :
    stream nodes plan facts i =
      match stage? nodes i with
      | none => .ok []
      | some stage => derive plan facts i (inputOf nodes plan facts i) stage := by
  rw [stream]
  cases stage? nodes i with
  | none => rfl
  | some stage =>
    dsimp only
    congr 1
    funext s
    unfold inputOf
    split
    · next h => rw [h]
    · next p h => rw [h]

/-! ## Asking -/

variable {α : Type} {fn : Tuple → Checked α} {ts : List Tuple} {ps : List (α × Tuple)} {a : α}
  {t : Tuple}

theorem ask_cons (fn : Tuple → Checked α) (t : Tuple) (ts : List Tuple) :
    ask fn (t :: ts) = do
      let a ← fn t
      let ps ← ask fn ts
      return (a, t) :: ps := by
  unfold ask
  rw [List.mapM_cons]
  cases fn t <;> rfl

theorem ask_ok (h : ∀ t ∈ ts, ∃ a, fn t = .ok a) : ∃ ps, ask fn ts = .ok ps := by
  induction ts with
  | nil => exact ⟨[], rfl⟩
  | cons t ts ih =>
    obtain ⟨a, ha⟩ := h t List.mem_cons_self
    obtain ⟨ps, hps⟩ := ih fun u hu => h u (List.mem_cons_of_mem _ hu)
    refine ⟨(a, t) :: ps, ?_⟩
    rw [ask_cons, ha, hps]
    rfl

theorem forall₂_of_ask (e : ask fn ts = .ok ps) :
    List.Forall₂ (fun p t => p.2 = t ∧ fn t = .ok p.1) ps ts := by
  induction ts generalizing ps with
  | nil =>
    cases e
    exact .nil
  | cons t ts ih =>
    rw [ask_cons] at e
    obtain ⟨a, ha, e⟩ := Checked.bind_eq_ok e
    obtain ⟨qs, hqs, e⟩ := Checked.bind_eq_ok e
    cases e
    exact .cons ⟨rfl, ha⟩ (ih hqs)

theorem map_snd_of_ask (e : ask fn ts = .ok ps) : ps.map (·.2) = ts := by
  have h := forall₂_of_ask e
  clear e
  induction h with
  | nil => rfl
  | cons h _ ih => rw [List.map_cons, h.1, ih]

theorem mem_of_ask (e : ask fn ts = .ok ps) : (a, t) ∈ ps ↔ t ∈ ts ∧ fn t = .ok a := by
  have h := forall₂_of_ask e
  clear e
  induction h with
  | nil => simp
  | @cons p u ps us h _ ih =>
    obtain ⟨b, v⟩ := p
    obtain ⟨rfl, hb⟩ := h
    have hrest : (a, t) ∈ ps ↔ t ∈ us ∧ fn t = .ok a := ih
    rw [List.mem_cons, List.mem_cons, hrest, Prod.mk.injEq]
    constructor
    · rintro (⟨rfl, rfl⟩ | ⟨hm, ha⟩)
      · exact ⟨.inl rfl, hb⟩
      · exact ⟨.inr hm, ha⟩
    · rintro ⟨rfl | hm, ha⟩
      · rw [hb] at ha
        cases ha
        exact .inl ⟨rfl, rfl⟩
      · exact .inr ⟨hm, ha⟩

theorem nodup_of_ask (e : ask fn ts = .ok ps) (h : ts.Nodup) : ps.Nodup := by
  rw [← map_snd_of_ask e] at h
  exact .of_map _ h

end Reference

/-! ## Lists of what is live -/

/-- Exactly these tuples are live, each under its identity. -/
structure Feed.Lists (x : Feed) (ts : List Tuple) : Prop where
  nodup : ts.Nodup
  live : ∀ i t, x.live i = some t ↔ t ∈ ts ∧ t.id = i

open Reference

variable {α : Type} {fn : S → Tuple → Checked α} {before now : S} {x : Feed} {ts : List Tuple}
  {memo : TupleId → Option α} {ps : List (α × Tuple)}

namespace Feed.Lists

theorem live_id (h : x.Lists ts) {t : Tuple} (ht : t ∈ ts) : x.live t.id = some t :=
  (h.live t.id t).2 ⟨ht, rfl⟩

theorem eq_of_id_eq (h : x.Lists ts) {t u : Tuple} (ht : t ∈ ts) (hu : u ∈ ts)
    (e : t.id = u.id) : t = u := by
  have := h.live_id ht
  rw [e, h.live_id hu] at this
  cases this
  rfl

/-- Asking yields one answer for each identity. -/
theorem eq_of_mem_ask {fn : Tuple → Checked α} {ps : List (α × Tuple)} (hl : x.Lists ts)
    (e : ask fn ts = .ok ps) {p q : α × Tuple} (hp : p ∈ ps) (hq : q ∈ ps)
    (hid : p.2.id = q.2.id) : p = q := by
  obtain ⟨a, t⟩ := p
  obtain ⟨b, u⟩ := q
  obtain ⟨ht, ha⟩ := (mem_of_ask e).1 hp
  obtain ⟨hu, hb⟩ := (mem_of_ask e).1 hq
  obtain rfl : t = u := hl.eq_of_id_eq ht hu hid
  cases ha.symm.trans hb
  rfl

end Feed.Lists

namespace Recalls

/-- If nothing is out of date, asking about all tuples succeeds. -/
theorem ask_ok (h : Recalls fn before now memo x) (hx : Steady fn before now x)
    (hl : x.Lists ts) : ∃ ps, ask (fn now) ts = .ok ps :=
  Reference.ask_ok fun t ht => by
    obtain ⟨a, -, ha⟩ := h.current hx (hl.live_id ht)
    exact ⟨a, ha⟩

/-- What is remembered is what asking yields. -/
theorem memo_iff (h : Recalls fn before now memo x) (hx : Steady fn before now x)
    (hl : x.Lists ts) (e : ask (fn now) ts = .ok ps) {i : TupleId} {a : α} :
    memo i = some a ↔ ∃ t, (a, t) ∈ ps ∧ t.id = i := by
  constructor
  · intro hi
    obtain ⟨t, ht⟩ := h.live_isSome hi
    obtain ⟨b, hb, hnow⟩ := h.current hx ht
    rw [hi] at hb
    cases hb
    obtain ⟨hm, hid⟩ := (hl.live i t).1 ht
    exact ⟨t, (mem_of_ask e).2 ⟨hm, hnow⟩, hid⟩
  · rintro ⟨t, hm, rfl⟩
    obtain ⟨ht, ha⟩ := (mem_of_ask e).1 hm
    obtain ⟨b, hb, hnow⟩ := h.current hx (hl.live_id ht)
    rw [ha] at hnow
    cases hnow
    exact hb

/-- What asking yields, under the identities of the tuples. -/
theorem nodup_ids (hl : x.Lists ts) (e : ask (fn now) ts = .ok ps) :
    (ps.map fun p => (p.2.id, p.1)).Nodup := by
  refine (nodup_of_ask e hl.nodup).map_on fun p hp q hq heq => ?_
  exact hl.eq_of_mem_ask e hp hq (congrArg Prod.fst heq)

/-- A map that remembers the answers has them as its entries. -/
theorem toList_perm {m : Std.HashMap TupleId α}
    (h : Recalls fn before now (fun i => m[i]?) x) (hx : Steady fn before now x)
    (hl : x.Lists ts) (e : ask (fn now) ts = .ok ps) :
    m.toList.Perm (ps.map fun p => (p.2.id, p.1)) := by
  rw [List.perm_ext_iff_of_nodup (nodup_toList m) (nodup_ids hl e)]
  rintro ⟨i, a⟩
  rw [Std.HashMap.mem_toList_iff_getElem?_eq_some, h.memo_iff hx hl e, List.mem_map]
  constructor
  · rintro ⟨t, ht, rfl⟩
    exact ⟨(a, t), ht, rfl⟩
  · rintro ⟨⟨b, t⟩, ht, heq⟩
    cases heq
    exact ⟨t, ht, rfl⟩

end Recalls

/-! ## Outputs list what is derived -/

variable {plan : S} {facts : List Fact} {origin : Nat} {inputs : Side → Checked (List Tuple)}
  {input output : Feed}

theorem SourceMemory.Tracks.lists {family : Nat} {m : SourceMemory} (sh : Shape)
    (h : SourceMemory.Tracks family origin m output) (hm : ∀ f, f ∈ m ↔ f ∈ facts ∧ f.family = family)
    (hf : facts.Nodup) :
    ∃ ts, derive plan facts origin inputs (.source family : Stage S sh) = .ok ts ∧
      output.Lists ts := by
  refine ⟨_, rfl, (hf.filter _).map fun f g e => ?_, fun i t => ?_⟩
  · have hid := congrArg Tuple.id e
    simpa [Tuple.ofFact] using hid
  · rw [h.live, List.mem_map]
    simp only [List.mem_filter, decide_eq_true_eq, hm]
    constructor
    · rintro ⟨f, hf, rfl, rfl⟩
      exact ⟨⟨f, hf, rfl⟩, rfl⟩
    · rintro ⟨⟨f, hf, rfl⟩, rfl⟩
      exact ⟨f, hf, rfl, rfl⟩

theorem FilterMemory.Tracks.lists {test : S → Tuple → Checked Bool} {m : FilterMemory} (sh : Shape)
    (h : FilterMemory.Tracks test before now origin m input output)
    (hx : Steady test before now input) (hl : input.Lists ts) (e : inputs .left = .ok ts) :
    ∃ us, derive now facts origin inputs (.filter test : Stage S sh) = .ok us ∧
      output.Lists us := by
  obtain ⟨ps, hps⟩ := h.recalls.ask_ok hx hl
  have hm := fun i a => h.recalls.memo_iff hx hl hps (i := i) (a := a)
  refine ⟨(ps.filter (·.1)).map (·.2.withOrigin origin), ?_, ?_, fun i u => ?_⟩
  · simp only [derive, e]
    show (ask (test now) ts >>= _) = _
    rw [hps]
    rfl
  · refine ((nodup_of_ask hps hl.nodup).filter _).map_on fun p hp q hq heq => ?_
    have hid := congrArg Tuple.id heq
    exact hl.eq_of_mem_ask hps (List.mem_of_mem_filter hp) (List.mem_of_mem_filter hq) hid
  · rw [h.live, List.mem_map]
    constructor
    · intro hu
      split at hu
      · next hi =>
        obtain ⟨t, ht, rfl⟩ := (hm i true).1 hi
        rw [hl.live_id ((mem_of_ask hps).1 ht).1] at hu
        cases hu
        exact ⟨⟨(true, t), List.mem_filter.2 ⟨ht, rfl⟩, rfl⟩, rfl⟩
      · cases hu
    · rintro ⟨⟨⟨a, t⟩, hp, rfl⟩, rfl⟩
      obtain ⟨hp, ha⟩ := List.mem_filter.1 hp
      have hat : a = true := ha
      subst hat
      have hi : m[t.id]? = some true := (hm t.id true).2 ⟨t, hp, rfl⟩
      show (if m[t.id]? = some true then _ else none) = _
      rw [if_pos hi]
      show Option.map _ (input.live t.id) = _
      rw [hl.live_id ((mem_of_ask hps).1 hp).1]
      rfl

/-- The functions that a join asks on its two sides. -/
def joinKeys (leftKey rightKey : S → Tuple → Checked Key) : Side → S → Tuple → Checked Key
  | .left => leftKey
  | .right => rightKey

/-- A tuple is held under a key exactly if that is what asking yields. -/
theorem JoinIndex.Tracks.holds_iff {key : S → Tuple → Checked Key} {j : JoinIndex}
    {ps : List (Key × Tuple)} (h : j.Tracks key before now input) (hx : Steady key before now input)
    (hl : input.Lists ts) (e : ask (key now) ts = .ok ps) {k : Key} {t : Tuple} :
    j.Holds k t ↔ (k, t) ∈ ps := by
  constructor
  · intro hk
    have ht := ((hl.live _ _).1 (h.live_of_holds hk)).1
    obtain ⟨u, hu, hid⟩ := (h.recalls.memo_iff hx hl e).1 hk.key?
    rwa [← hl.eq_of_id_eq ((mem_of_ask e).1 hu).1 ht hid]
  · intro hp
    obtain ⟨k', hk', -⟩ := h.holds_of_live (hl.live_id ((mem_of_ask e).1 hp).1)
    have hk := (h.recalls.memo_iff hx hl e).2 ⟨t, hp, rfl⟩
    rw [hk'.key?] at hk
    cases hk
    exact hk'

/-- The pairs of tuples that are answered one key differ in their identities. -/
theorem nodup_joined {x y : Feed} {ls rs : List Tuple} {f g : Tuple → Checked Key}
    {ps qs : List (Key × Tuple)} (hl : x.Lists ls) (hr : y.Lists rs) (hps : ask f ls = .ok ps)
    (hqs : ask g rs = .ok qs) (hlen : ∀ t ∈ ls, ∀ u ∈ ls, t.id.length = u.id.length)
    (origin : Nat) :
    (ps.flatMap fun p => (qs.filter (·.1 = p.1)).map fun q => p.2.join q.2 origin).Nodup := by
  rw [List.nodup_flatMap]
  refine ⟨fun p hp => ?_, ?_⟩
  · refine ((nodup_of_ask hqs hr.nodup).filter _).map_on fun q hq q' hq' heq => ?_
    have hid : p.2.id ++ q.2.id = p.2.id ++ q'.2.id := congrArg Tuple.id heq
    exact hr.eq_of_mem_ask hqs (List.mem_of_mem_filter hq) (List.mem_of_mem_filter hq')
      (List.append_cancel_left hid)
  · refine (nodup_of_ask hps hl.nodup).imp_of_mem fun {p p'} hp hp' hne => ?_
    show List.Disjoint _ _
    rw [List.disjoint_left]
    intro w hw hw'
    obtain ⟨q, -, rfl⟩ := List.mem_map.1 hw
    obtain ⟨q', -, heq⟩ := List.mem_map.1 hw'
    have hid : p'.2.id ++ q'.2.id = p.2.id ++ q.2.id := congrArg Tuple.id heq
    have hlength := hlen _ ((mem_of_ask hps).1 hp').1 _ ((mem_of_ask hps).1 hp).1
    exact hne (hl.eq_of_mem_ask hps hp hp' (List.append_inj hid hlength).1.symm)

theorem JoinMemory.Tracks.lists {leftKey rightKey : S → Tuple → Checked Key} {m : JoinMemory}
    (sh : Shape) {input : Side → Feed} {ls rs : List Tuple}
    (h : JoinMemory.Tracks (joinKeys leftKey rightKey) before now origin m input output)
    (hx : ∀ s, Steady (joinKeys leftKey rightKey s) before now (input s))
    (hl : (input .left).Lists ls) (hr : (input .right).Lists rs) (el : inputs .left = .ok ls)
    (er : inputs .right = .ok rs) (hlen : ∀ t ∈ ls, ∀ u ∈ ls, t.id.length = u.id.length) :
    ∃ us, derive now facts origin inputs (.join leftKey rightKey : Stage S sh) = .ok us ∧
      output.Lists us := by
  obtain ⟨ps, hps⟩ := (h.index .left).recalls.ask_ok (hx .left) hl
  obtain ⟨qs, hqs⟩ := (h.index .right).recalls.ask_ok (hx .right) hr
  have hleft : ∀ k t, m.left.Holds k t ↔ (k, t) ∈ ps := fun k t =>
    (h.index .left).holds_iff (hx .left) hl hps
  have hright : ∀ k t, m.right.Holds k t ↔ (k, t) ∈ qs := fun k t =>
    (h.index .right).holds_iff (hx .right) hr hqs
  refine ⟨ps.flatMap fun p => (qs.filter (·.1 = p.1)).map fun q => p.2.join q.2 origin, ?_, ?_,
    fun i u => ?_⟩
  · simp only [derive, el, er]
    show (ask (joinKeys leftKey rightKey .left now) ls >>= fun ps =>
      ask (joinKeys leftKey rightKey .right now) rs >>= _) = _
    rw [hps]
    show (ask (joinKeys leftKey rightKey .right now) rs >>= _) = _
    rw [hqs]
    rfl
  · exact nodup_joined hl hr hps hqs hlen origin
  · rw [h.live .left, List.mem_flatMap]
    constructor
    · rintro ⟨t, u, ⟨k, ht, hu⟩, rfl, rfl⟩
      refine ⟨⟨(k, t), (hleft k t).1 ht, List.mem_map.2 ⟨(k, u), ?_, rfl⟩⟩, rfl⟩
      exact List.mem_filter.2 ⟨(hright k u).1 hu, by simp⟩
    · rintro ⟨⟨⟨k, t⟩, ht, hw⟩, rfl⟩
      obtain ⟨⟨k', u⟩, hq, rfl⟩ := List.mem_map.1 hw
      obtain ⟨hu, hk⟩ := List.mem_filter.1 hq
      have hkk : k' = k := by simpa using hk
      subst hkk
      exact ⟨t, u, ⟨k', (hleft k' t).2 ht, (hright k' u).2 hu⟩, rfl, rfl⟩

section

variable {key : S → Tuple → Checked Key} {value : S → Tuple → Checked Int64} {c : Collector}
  {m : GroupMemory} {ps : List ((Key × Int64) × Tuple)} {k : Key} {g : Group}
  (h : GroupMemory.Tracks (keyAndValue key value) c before now origin m input output)
  (hx : Steady (keyAndValue key value) before now input) (hl : input.Lists ts)
  (hps : ask (keyAndValue key value now) ts = .ok ps)

include h hx hl hps

theorem GroupMemory.Tracks.filed?_iff {i : TupleId} {v : Int64} :
    m.filed? k i = some v ↔ ∃ t, ((k, v), t) ∈ ps ∧ t.id = i := by
  rw [← h.memo?_eq_some, h.recalls.memo_iff hx hl hps]

/-- There is a group for each key that asking yields. -/
theorem GroupMemory.Tracks.mem_keys_iff :
    k ∈ (ps.map (·.1.1)).dedup ↔ ∃ g, m.groups[k]? = some g := by
  rw [List.mem_dedup, List.mem_map]
  constructor
  · rintro ⟨⟨⟨k, v⟩, t⟩, hp, rfl⟩
    obtain ⟨g, hg, -⟩ := Option.bind_eq_some_iff.1 ((h.filed?_iff hx hl hps).2 ⟨t, hp, rfl⟩)
    exact ⟨g, hg⟩
  · rintro ⟨g, hg⟩
    obtain ⟨i, v, hv⟩ := h.inhabited k g hg
    obtain ⟨t, ht, -⟩ := (h.filed?_iff hx hl hps).1 hv
    exact ⟨_, ht, rfl⟩

/-- The members of a group are the tuples that are answered its key. -/
theorem GroupMemory.Tracks.values_perm (hg : m.groups[k]? = some g) :
    ((ps.filter (·.1.1 = k)).map (·.1.2)).Perm (g.values.toList.map (·.2)) := by
  have hperm : ((ps.filter (·.1.1 = k)).map fun p => (p.2.id, p.1.2)).Perm g.values.toList := by
    rw [List.perm_ext_iff_of_nodup _ (nodup_toList _)]
    · rintro ⟨i, v⟩
      rw [Std.HashMap.mem_toList_iff_getElem?_eq_some, ← filed?_of_group hg,
        h.filed?_iff hx hl hps, List.mem_map]
      constructor
      · rintro ⟨⟨⟨k', w⟩, t⟩, ht, heq⟩
        obtain ⟨ht, hk⟩ := List.mem_filter.1 ht
        simp only [decide_eq_true_eq] at hk
        cases heq
        exact ⟨t, hk ▸ ht, rfl⟩
      · rintro ⟨t, ht, rfl⟩
        exact ⟨((k, v), t), List.mem_filter.2 ⟨ht, by simp⟩, rfl⟩
    · refine ((nodup_of_ask hps hl.nodup).filter _).map_on fun p hp q hq heq => ?_
      exact hl.eq_of_mem_ask hps (List.mem_of_mem_filter hp) (List.mem_of_mem_filter hq)
        (congrArg Prod.fst heq)
  have := hperm.map (·.2)
  rwa [List.map_map] at this

end

theorem GroupMemory.Tracks.lists {key : S → Tuple → Checked Key}
    {value : S → Tuple → Checked Int64} {c : Collector} {m : GroupMemory} (sh : Shape)
    (h : GroupMemory.Tracks (keyAndValue key value) c before now origin m input output)
    (hx : Steady (keyAndValue key value) before now input) (hl : input.Lists ts)
    (e : inputs .left = .ok ts) :
    ∃ us, derive now facts origin inputs (.group key value c : Stage S sh) = .ok us ∧
      output.Lists us := by
  obtain ⟨ps, hps⟩ := h.recalls.ask_ok hx hl
  have hkeys := fun k => h.mem_keys_iff hx hl hps (k := k)
  obtain ⟨result, hresult⟩ : ∃ result : Key → Int64, ∀ k g, m.groups[k]? = some g →
      result k = g.result :=
    ⟨fun k => ((m.groups[k]?).map Group.result).getD 0, fun k g hg => by simp [hg]⟩
  have hcollect : ∀ k ∈ (ps.map (·.1.1)).dedup,
      (c.collect ((ps.filter (·.1.1 = k)).map (·.1.2)) >>= fun a =>
        pure (Tuple.ofGroup k a origin)) = .ok (Tuple.ofGroup k (result k) origin) := fun k hk => by
    obtain ⟨g, hg⟩ := (hkeys k).1 hk
    rw [Accumulator.collect_perm (h.values_perm hx hl hps hg), (h.sound k g hg).collect,
      hresult k g hg]
    rfl
  refine ⟨(ps.map (·.1.1)).dedup.map fun k => Tuple.ofGroup k (result k) origin, ?_, ?_,
    fun i u => ?_⟩
  · simp only [derive, e]
    show (ask (keyAndValue key value now) ts >>= _) = _
    rw [hps]
    exact Checked.mapM_eq_map hcollect
  · refine (List.nodup_dedup _).map fun k k' heq => ?_
    have hid := congrArg Tuple.id heq
    simpa [Tuple.ofGroup] using hid
  · rw [h.live, List.mem_map]
    constructor
    · rintro ⟨k, g, hg, rfl, rfl⟩
      exact ⟨⟨k, (hkeys k).2 ⟨g, hg⟩, by rw [hresult k g hg]⟩, rfl⟩
    · rintro ⟨⟨k, hk, rfl⟩, rfl⟩
      obtain ⟨g, hg⟩ := (hkeys k).1 hk
      exact ⟨k, g, hg, rfl, by rw [hresult k g hg]⟩

/-- The total of a scorer is the sum over what asking yields. -/
theorem ScorerMemory.Tracks.total_eq {score : S → Tuple → Checked (Score sh)} {m : ScorerMemory sh}
    (h : ScorerMemory.Tracks score before now m input) (hx : Steady score before now input)
    (hl : input.Lists ts) :
    ∃ ps, ask (score now) ts = .ok ps ∧ Score.total (ps.map (·.1)) = .ok m.total ∧
      m.matched.size = ps.length := by
  obtain ⟨ps, hps⟩ := h.recalls.ask_ok hx hl
  have hp := h.recalls.toList_perm hx hl hps
  refine ⟨ps, hps, ?_, ?_⟩
  · rw [Score.total_eq_ok_iff]
    intro l
    rw [h.total, (hp.map _).sum_eq, List.map_map, List.map_map]
    rfl
  · rw [← Std.HashMap.length_toList, hp.length_eq, List.length_map]

end PlanSearch
