import PlanSearch.Proofs.Network.Discipline
import PlanSearch.Proofs.Network.Messages
import PlanSearch.Proofs.Network.Overruns

/-!
# Nodes as incremental views

A node recalls what it was answered on each live tuple last, and its output is the view of its
inputs under these latest answers, after every message. Whatever the last message did not name is
answered as it was before it.

    Recounts origin xs output station → receive x.plan … x.delta station = .ok reply station' →
      Recounts origin (xs ++ [x]) (output.hearAll reply.deltas) station'           (Recounts.receive)
    receiveAll origin xs (ofStage stage) = .ok out station →
      the tuples that are live after out are the view of xs                        (receiveAll_views)
-/

namespace PlanSearch

variable {S α : Type} {sh : Shape}

open Message

namespace Feed

theorem rested_hear (x : Feed) (d : Delta) : (x.rested.hear d).rested = (x.hear d).rested := rfl

theorem rested_hearAll (x : Feed) (ds : List Delta) :
    (x.rested.hearAll ds).rested = (x.hearAll ds).rested := by
  induction ds using List.reverseRecOn with
  | nil => rfl
  | append_singleton ds d ih =>
    rw [hearAll_append, hearAll_append]
    show ((x.rested.hearAll ds).hear d).rested = ((x.hearAll ds).hear d).rested
    rw [← rested_hear, ih, rested_hear]

end Feed

/-! ## What is expected of a node -/

/-- The live inputs whose latest key is `k`, each with its latest value. -/
structure Members (key : S → Tuple → Checked Key) (value : S → Tuple → Checked Int64)
    (xs : List (Message S)) (k : Key) (members : List (TupleId × Int64)) : Prop where
  nodup : members.Nodup
  mem : ∀ i v, (i, v) ∈ members ↔
    ∃ t, t.id = i ∧ Answered (keyAndValue key value) xs .left t (k, v)

namespace Stage

/-- The stage derives tuples from tuples. -/
def derives : Stage S sh → Bool
  | filter _ | join _ _ | group _ _ _ => true
  | source _ | scorer _ _ _ => false

/-- The functions that are asked about a tuple on side `s` answer. -/
def AnswersAt (plan : S) (s : Side) (t : Tuple) : Stage S sh → Prop
  | source _ => True
  | filter test => ∃ b, test plan t = .ok b
  | join leftKey rightKey => ∃ k, joinKeys leftKey rightKey s plan t = .ok k
  | group key value _ => (∃ k, key plan t = .ok k) ∧ ∃ v, value plan t = .ok v
  | scorer _ matchWeight _ => ∃ w, matchWeight plan t = .ok w

/-- What is live in `output` is derived from what is live after the messages `xs`, under the latest
answers: the tuples that passed, the pairs of one key, and one tuple for each key that has members,
with what the collector makes of their values. -/
def View (origin : Nat) (xs : List (Message S)) (output : Feed) : Stage S sh → Prop
  | filter test => ∀ i u, output.live i = some u ↔
    ∃ t, Answered test xs .left t true ∧ i = t.id ∧ u = t.withOrigin origin
  | join leftKey rightKey => ∀ i u, output.live i = some u ↔
    ∃ l r k, Answered leftKey xs .left l k ∧ Answered rightKey xs .right r k ∧
      i = l.id ++ r.id ∧ u = l.join r origin
  | group key value c =>
    (∀ i u, output.live i = some u → ∃ k, i = [.group k]) ∧
    ∀ k, ∃ members, Members key value xs k members ∧
      (members = [] ∧ output.live [.group k] = none ∨
        members ≠ [] ∧ ∃ n, c.collect (members.map (·.2)) = .ok n ∧
          output.live [.group k] = some (Tuple.ofGroup k n origin))
  | source _ | scorer _ _ _ => False

/-- At some point some live inputs of a group had latest values that its collector makes nothing
of. -/
def Overruns (xs : List (Message S)) (stage : Stage S sh) : Prop :=
  ∃ ys, ys <+: xs ∧ ∃ key value c, stage = .group key value c ∧
    ∃ members : List (TupleId × Int64), (members.map (·.1)).Nodup ∧
      (∀ i v, (i, v) ∈ members →
        ∃ t k, t.id = i ∧ Answered (keyAndValue key value) ys .left t (k, v)) ∧
      c.collect (members.map (·.2)) = .error .overflow

/-- Joined identities tell pairs apart: each side of a join has identities of one length. -/
def OneArity (stage : Stage S sh) (xs : List (Message S)) : Prop :=
  ∀ leftKey rightKey, stage = .join leftKey rightKey →
    ∃ arity : Side → Nat, ∀ x ∈ xs, x.delta.id.length = arity x.side

variable {plan : S} {s : Side} {t : Tuple} {stage : Stage S sh} {xs ys : List (Message S)}

theorem AnswersAt.definedAt (h : stage.AnswersAt plan s t) : stage.DefinedAt plan s t := by
  have hdefined : ∀ {α : Type} {x : Checked α}, (∃ a, x = .ok a) → x ≠ .error .undefined := by
    rintro α x ⟨a, rfl⟩
    exact nofun
  cases stage with
  | source family => trivial
  | filter test => exact hdefined h
  | join leftKey rightKey => exact hdefined h
  | group key value c => exact ⟨hdefined h.1, hdefined h.2⟩
  | scorer weight matchWeight watched => exact hdefined h

theorem AnswersAt.recalling {x : Message S} (h : stage.AnswersAt x.plan x.side t)
    (hs : x.side ∈ stage.inputs) (ht : x.delta.tuple? = some t) (xs : List (Message S)) :
    stage.recalling.AnswersAt (xs ++ [x]) x.side t := by
  have hrecall : ∀ {α : Type} (fn : S → Tuple → Checked α),
      remember fn x.side (xs ++ [x]) t = fn x.plan t := fun fn => remember_concat_self ht
  cases stage with
  | source family => trivial
  | filter test =>
    rw [Station.eq_left_of_mem_inputs (fun _ _ e => by cases e) hs] at hrecall
    obtain ⟨b, hb⟩ := h
    exact ⟨b, (hrecall test).trans hb⟩
  | join leftKey rightKey =>
    obtain ⟨k, hk⟩ := h
    refine ⟨k, Eq.trans ?_ hk⟩
    generalize x.side = s at hrecall
    cases s with
    | left => exact hrecall leftKey
    | right => exact hrecall rightKey
  | group key value c =>
    rw [Station.eq_left_of_mem_inputs (fun _ _ e => by cases e) hs] at hrecall
    obtain ⟨⟨k, hk⟩, v, hv⟩ := h
    exact ⟨⟨k, (hrecall key).trans hk⟩, v, (hrecall value).trans hv⟩
  | scorer weight matchWeight watched =>
    rw [Station.eq_left_of_mem_inputs (fun _ _ e => by cases e) hs] at hrecall
    obtain ⟨w, hw⟩ := h
    exact ⟨w, (hrecall matchWeight).trans hw⟩

theorem Overruns.mono (h : stage.Overruns xs) (hle : xs <+: ys) : stage.Overruns ys := by
  obtain ⟨zs, hzs, hrest⟩ := h
  exact ⟨zs, hzs.trans hle, hrest⟩

theorem OneArity.mono (h : stage.OneArity ys) (hle : xs <+: ys) : stage.OneArity xs :=
  fun leftKey rightKey hstage => by
    obtain ⟨arity, harity⟩ := h leftKey rightKey hstage
    exact ⟨arity, fun x hx => harity x (hle.subset hx)⟩

end Stage

namespace Station

variable {origin : Nat} {xs : List (Message S)} {x : Message S} {station station' : Station S sh}
  {reply : Reply sh} {output : Feed}

/-! ## One message -/

/-- After the messages `xs` the station recalls the latest answer on each live tuple, and `output`
is what it emitted. -/
def Recounts (origin : Nat) (xs : List (Message S)) (output : Feed) (station : Station S sh) :
    Prop :=
  ∀ next, station.recalling.Tracks xs next origin (fun s => (heard xs s).rested) output.rested

theorem recounts_ofStage (origin : Nat) (stage : Stage S sh) :
    (ofStage stage).Recounts origin [] Feed.empty := by
  intro next
  have h := tracks_ofStage [] next origin stage.recalling
  have hstation : ofStage stage.recalling = (ofStage stage).recalling := by cases stage <;> rfl
  rw [hstation] at h
  exact h

theorem isSteady_recalling (station : Station S sh) (xs : List (Message S)) (x : Message S) :
    station.recalling.IsSteady xs (xs ++ [x])
      (Function.update (fun s => (heard xs s).rested) x.side
        ((heard xs x.side).rested.hear x.delta)) := by
  cases station with
  | source family m => exact trivial
  | filter test m => exact steady_remember test xs x .left
  | join leftKey rightKey m =>
    intro s
    cases s with
    | left => exact steady_remember leftKey xs x .left
    | right => exact steady_remember rightKey xs x .right
  | group key value c m =>
    intro i t ht hnot
    unfold keyAndValue
    rw [steady_remember key xs x .left i t ht hnot, steady_remember value xs x .left i t ht hnot]
  | scorer weight matchWeight watched m =>
    intro i t ht hnot
    unfold matchScore
    rw [steady_remember matchWeight xs x .left i t ht hnot]

theorem Recounts.receive (h : station.Recounts origin xs output)
    (hs : x.side ∈ station.stage.inputs) (harity : station.stage.OneArity (xs ++ [x]))
    (e : Station.receive x.plan origin x.side x.delta station = .ok reply station') :
    station'.stage = station.stage ∧ output.Disciplined reply.deltas ∧
      station'.Recounts origin (xs ++ [x]) (output.hearAll reply.deltas) := by
  have htracks := h (xs ++ [x])
  have hs' : x.side ∈ station.recalling.stage.inputs := by
    rw [stage_recalling, inputs_recalling]
    exact hs
  have e' : Station.receive (xs ++ [x]) origin x.side x.delta station.recalling =
      .ok reply station'.recalling := by
    rw [receive_recalling hs, e]
    rfl
  have hlength : ∀ lk rk, station.recalling.stage = .join lk rk → ∃ n,
      (∀ i u, (heard xs x.side).rested.live i = some u → u.id.length = n) ∧
        ∀ t, x.delta.tuple? = some t → t.id.length = n := by
    intro lk rk hj
    obtain ⟨leftKey, rightKey, hstage⟩ : ∃ lk rk, station.stage = .join lk rk := by
      cases station with
      | join leftKey rightKey m => exact ⟨leftKey, rightKey, rfl⟩
      | _ => cases hj
    obtain ⟨arity, hall⟩ := harity leftKey rightKey hstage
    refine ⟨arity x.side, fun i u hu => ?_, fun t ht => ?_⟩
    · refine length_of_live_heard (fun y hy hside => ?_) hu
      rw [hall y (List.mem_append_left _ hy), hside]
    · rw [Delta.id_eq_of_tuple? ht]
      exact hall x (by simp)
  have hdisciplined : output.rested.Disciplined reply.deltas :=
    htracks.disciplined hs' (fun lk rk hj i u t hu ht => by
      obtain ⟨n, hn, hd⟩ := hlength lk rk hj
      exact (hn i u hu).trans (hd t ht).symm) e'
  have hheard := (htracks.receive_of_join hs' hlength e').2.1
  have hlive : output.rested.live = output.live := rfl
  refine ⟨(receive_eq_ok e).1, (Feed.disciplined_congr hlive).1 hdisciplined, fun next => ?_⟩
  have hrested := hheard.rested_of_steady (isSteady_recalling station' xs x) next
  rw [Feed.rested_hearAll] at hrested
  have hinput : (fun s => (heard (xs ++ [x]) s).rested) = fun s =>
      (Function.update (fun s => (heard xs s).rested) x.side
        ((heard xs x.side).rested.hear x.delta) s).rested := by
    funext s
    rw [heard_concat]
    by_cases h : s = x.side
    · subst h
      rw [Function.update_self, Function.update_self, Feed.rested_hear]
    · rw [Function.update_of_ne h, Function.update_of_ne h]
      rfl
  rw [hinput]
  exact hrested

/-- Where the functions answer, only a group fails that derives tuples, and only over values of
different live tuples. -/
theorem Tracks.overrun_insert {before now : S} {input : Side → Feed} {s : Side} {t : Tuple}
    {f : Fault} (h : station.Tracks before now origin input output)
    (hd : station.stage.derives = true) (hs : s ∈ station.stage.inputs)
    (hanswers : station.stage.AnswersAt now s t)
    (e : Station.receive now origin s (.insert t) station = .error f station') :
    ∃ key value c, station.stage = .group key value c ∧ ∃ members,
      GroupMemory.Overrun (keyAndValue key value) c before now ((input s).hear (.insert t))
        members := by
  cases station with
  | source family m => cases hd
  | scorer weight matchWeight watched m => cases hd
  | filter test m =>
    obtain ⟨m', hm, -⟩ := conclude_eq_error e
    obtain ⟨b, hb⟩ := hanswers
    unfold filterTuple at hm
    rw [hb] at hm
    cases hm
  | join leftKey rightKey m =>
    obtain ⟨m', hm, -⟩ := conclude_eq_error e
    have hkey : joinTuple now origin s (joinKeys leftKey rightKey s) t m = .error f m' := by
      cases s <;> exact hm
    obtain ⟨k, hk⟩ := hanswers
    unfold joinTuple at hkey
    rw [hk] at hkey
    cases hkey
  | group key value c m =>
    obtain rfl := eq_left_of_mem_inputs (fun _ _ e => by cases e) hs
    obtain ⟨m', hm, -⟩ := conclude_eq_error e
    obtain ⟨⟨k, hk⟩, v, hv⟩ := hanswers
    unfold groupTuple at hm
    rw [hk, hv] at hm
    exact ⟨key, value, c, rfl, GroupMemory.Tracks.overrun_place h (keyAndValue_eq_ok hk hv) hm⟩

theorem Tracks.overrun_retract {before now : S} {input : Side → Feed} {s : Side} {j : TupleId}
    {f : Fault} (h : station.Tracks before now origin input output)
    (hd : station.stage.derives = true) (hs : s ∈ station.stage.inputs)
    (e : Station.receive now origin s (.retract j) station = .error f station') :
    ∃ key value c, station.stage = .group key value c ∧ ∃ members,
      GroupMemory.Overrun (keyAndValue key value) c before now ((input s).hear (.retract j))
        members := by
  cases station with
  | source family m => cases hd
  | scorer weight matchWeight watched m => cases hd
  | filter test m => cases e
  | join leftKey rightKey m => cases e
  | group key value c m =>
    obtain rfl := eq_left_of_mem_inputs (fun _ _ e => by cases e) hs
    obtain ⟨m', hm, -⟩ := conclude_eq_error e
    exact ⟨key, value, c, rfl, GroupMemory.Tracks.overrun_retract h hm⟩

theorem Tracks.overrun {before now : S} {input : Side → Feed} {s : Side} {d : Delta} {f : Fault}
    (h : station.Tracks before now origin input output) (hd : station.stage.derives = true)
    (hs : s ∈ station.stage.inputs)
    (hanswers : ∀ t, d.tuple? = some t → station.stage.AnswersAt now s t)
    (e : Station.receive now origin s d station = .error f station') :
    ∃ key value c, station.stage = .group key value c ∧ ∃ members,
      GroupMemory.Overrun (keyAndValue key value) c before now ((input s).hear d) members := by
  cases d with
  | insert t => exact h.overrun_insert hd hs (hanswers t rfl) e
  | update t =>
    rw [receive_update hs] at e
    exact h.overrun_insert hd hs (hanswers t rfl) e
  | retract j => exact h.overrun_retract hd hs e

/-- A station that derives tuples and whose functions answer fails only by overrunning. -/
theorem Recounts.overruns {f : Fault} (h : station.Recounts origin xs output)
    (hd : station.stage.derives = true) (hs : x.side ∈ station.stage.inputs)
    (hanswers : ∀ t, x.delta.tuple? = some t → station.stage.AnswersAt x.plan x.side t)
    (e : Station.receive x.plan origin x.side x.delta station = .error f station') :
    f = .overflow ∧ station.stage.Overruns (xs ++ [x]) := by
  refine ⟨receive_error hs (fun t ht => (hanswers t ht).definedAt) e, ?_⟩
  have e' : Station.receive (xs ++ [x]) origin x.side x.delta station.recalling =
      .error f station'.recalling := by
    rw [receive_recalling hs, e]
    rfl
  have hd' : station.recalling.stage.derives = true := by cases station <;> exact hd
  have hs' : x.side ∈ station.recalling.stage.inputs := by
    rw [stage_recalling, inputs_recalling]
    exact hs
  obtain ⟨key', value', c, hstage, members, hover⟩ :=
    (h (xs ++ [x])).overrun hd' hs' (fun t ht => by
      rw [stage_recalling]
      exact (hanswers t ht).recalling hs ht xs) e'
  cases station with
  | group key value c m =>
    cases hstage
    have hside : x.side = .left := eq_left_of_mem_inputs (fun _ _ e => by cases e) hs
    have hsteady := isSteady_recalling (.group key value c m : Station S sh) xs x
    refine ⟨xs ++ [x], List.prefix_rfl, key, value, c, rfl, members, hover.nodup, fun i v hi => ?_,
      hover.collect⟩
    obtain ⟨t, k, hlive, hans⟩ := hover.answered i v hi
    have hheard : (heard (xs ++ [x]) .left).live i = some t := by
      rw [heard_concat, ← hside, Function.update_self]
      exact hlive
    obtain ⟨plan, hlatest⟩ := live_heard_eq_some.1 hheard
    obtain rfl := id_of_latest hlatest
    have hnow : keyAndValue (remember key .left) (remember value .left) (xs ++ [x]) t = .ok (k, v) := by
      refine hans.current (fun j u hu hnot => hsteady j u ?_ ?_) hlive
      · rwa [← hside, Function.update_self]
      · rwa [← hside, Function.update_self]
    rw [keyAndValue_remember] at hnow
    exact ⟨t, k, rfl, answered_iff.2 ⟨hheard, hnow⟩⟩
  | _ => cases hstage

/-- The values that are filed under a key are the latest ones of its members. -/
theorem filed_iff {key : S → Tuple → Checked Key} {value : S → Tuple → Checked Int64}
    {c : Collector} {m : GroupMemory}
    (h : GroupMemory.Tracks (remember (keyAndValue key value) .left) c xs xs origin m
      (heard xs .left).rested output) {k : Key} {i : TupleId} {v : Int64} :
    m.filed? k i = some v ↔ ∃ t, t.id = i ∧ Answered (keyAndValue key value) xs .left t (k, v) := by
  rw [← h.memo?_eq_some]
  constructor
  · intro hi
    obtain ⟨t, ht⟩ := h.recalls.live_isSome hi
    obtain rfl := h.recalls.keyed i t ht
    exact ⟨t, rfl, (answered_iff_of_recalls h.recalls).2 ⟨ht, hi⟩⟩
  · rintro ⟨t, rfl, ht⟩
    exact ((answered_iff_of_recalls h.recalls).1 ht).2

theorem view_of_filter {test : S → Tuple → Checked Bool} {m : FilterMemory}
    (h : FilterMemory.Tracks (remember test .left) xs xs origin m (heard xs .left).rested
      output.rested) (i : TupleId) (u : Tuple) :
    output.live i = some u ↔
      ∃ t, Answered test xs .left t true ∧ i = t.id ∧ u = t.withOrigin origin := by
  rw [show output.live i = _ from h.live i]
  constructor
  · intro hu
    split at hu
    · next hi =>
      obtain ⟨t, ht, rfl⟩ := Option.map_eq_some_iff.1 hu
      obtain rfl := h.recalls.keyed i t ht
      exact ⟨t, (answered_iff_of_recalls h.recalls).2 ⟨ht, hi⟩, rfl, rfl⟩
    · cases hu
  · rintro ⟨t, ht, rfl, rfl⟩
    obtain ⟨hlive, hi⟩ := (answered_iff_of_recalls h.recalls).1 ht
    rw [if_pos hi, show (heard xs .left).rested.live t.id = _ from hlive]
    rfl

theorem view_of_join {leftKey rightKey : S → Tuple → Checked Key} {m : JoinMemory}
    (h : JoinMemory.Tracks (joinKeys (remember leftKey .left) (remember rightKey .right)) xs xs
      origin m (fun s => (heard xs s).rested) output.rested) (i : TupleId) (u : Tuple) :
    output.live i = some u ↔ ∃ l r k, Answered leftKey xs .left l k ∧
      Answered rightKey xs .right r k ∧ i = l.id ++ r.id ∧ u = l.join r origin := by
  have hleft : ∀ k t, m.left.Holds k t ↔ Answered leftKey xs .left t k := fun k t =>
    (h.index .left).holds_iff_live.trans (answered_iff_of_recalls (h.index .left).recalls).symm
  have hright : ∀ k t, m.right.Holds k t ↔ Answered rightKey xs .right t k := fun k t =>
    (h.index .right).holds_iff_live.trans (answered_iff_of_recalls (h.index .right).recalls).symm
  rw [show output.live i = some u ↔ _ from h.live .left i u]
  constructor
  · rintro ⟨l, r, ⟨k, hl, hr⟩, rfl, rfl⟩
    exact ⟨l, r, k, (hleft k l).1 hl, (hright k r).1 hr, rfl, rfl⟩
  · rintro ⟨l, r, k, hl, hr, rfl, rfl⟩
    exact ⟨l, r, ⟨k, (hleft k l).2 hl, (hright k r).2 hr⟩, rfl, rfl⟩

/-- The members of a group are those that are filed under its key, and a key without members has no
group. -/
theorem view_of_group {key : S → Tuple → Checked Key} {value : S → Tuple → Checked Int64}
    {c : Collector} {m : GroupMemory}
    (h : GroupMemory.Tracks (remember (keyAndValue key value) .left) c xs xs origin m
      (heard xs .left).rested output.rested) (k : Key) :
    ∃ members, Members key value xs k members ∧
      (members = [] ∧ output.live [.group k] = none ∨
        members ≠ [] ∧ ∃ n, c.collect (members.map (·.2)) = .ok n ∧
          output.live [.group k] = some (Tuple.ofGroup k n origin)) := by
  cases hg : m.groups[k]? with
  | none =>
    refine ⟨[], ⟨List.nodup_nil, fun i v => ?_⟩, .inl ⟨rfl, ?_⟩⟩
    · rw [← filed_iff h, GroupMemory.filed?_of_none hg]
      simp
    · by_contra hlive
      obtain ⟨u, hu⟩ := Option.ne_none_iff_exists'.1 hlive
      obtain ⟨k', g, hg', hi, -⟩ := (h.live _ u).1 hu
      cases hi
      rw [hg] at hg'
      cases hg'
  | some g =>
    refine ⟨g.values.toList, ⟨nodup_toList _, fun i v => ?_⟩, .inr ⟨fun hnil => ?_, ?_⟩⟩
    · rw [← filed_iff h, GroupMemory.filed?_of_group hg,
        Std.HashMap.mem_toList_iff_getElem?_eq_some]
    · obtain ⟨i, v, hv⟩ := h.inhabited k g hg
      rw [GroupMemory.filed?_of_group hg, ← Std.HashMap.mem_toList_iff_getElem?_eq_some, hnil] at hv
      cases hv
    · exact ⟨g.result, (h.sound k g hg).collect, h.live_self hg⟩

/-- The output is the view of the messages. -/
theorem Recounts.view (h : station.Recounts origin xs output) (hd : station.stage.derives = true) :
    station.stage.View origin xs output := by
  have htracks := h xs
  cases station with
  | source family m => cases hd
  | scorer weight matchWeight watched m => cases hd
  | filter test m => exact view_of_filter htracks
  | join leftKey rightKey m => exact view_of_join htracks
  | group key value c m =>
    have hm : GroupMemory.Tracks (remember (keyAndValue key value) .left) c xs xs origin m
        (heard xs .left).rested output.rested := by
      rw [← keyAndValue_remember]
      exact htracks
    refine ⟨fun i u hu => ?_, view_of_group hm⟩
    obtain ⟨k, g, -, hi, -⟩ := (hm.live i u).1 hu
    exact ⟨k, hi⟩

/-! ## Many messages -/

/-- Hears the messages one after another, and emits what each of them leads to. -/
def receiveAll (origin : Nat) : List (Message S) → Step (Station S sh) (List Delta)
  | [] => pure []
  | x :: xs => do
    let reply ← receive x.plan origin x.side x.delta
    return reply.deltas ++ (← receiveAll origin xs)

theorem Recounts.receiveAll {ys : List (Message S)} (h : station.Recounts origin ys output)
    (hd : station.stage.derives = true) (hs : ∀ x ∈ xs, x.side ∈ station.stage.inputs)
    (hanswers : ∀ x ∈ xs, ∀ t, x.delta.tuple? = some t →
      station.stage.AnswersAt x.plan x.side t)
    (harity : station.stage.OneArity (ys ++ xs)) :
    (∃ out station', Station.receiveAll origin xs station = .ok out station' ∧
      station'.stage = station.stage ∧ output.Disciplined out ∧
        station'.Recounts origin (ys ++ xs) (output.hearAll out)) ∨
    station.stage.Overruns (ys ++ xs) ∧
      ∃ station', Station.receiveAll origin xs station = .error .overflow station' := by
  induction xs generalizing ys output station with
  | nil =>
    rw [List.append_nil]
    exact .inl ⟨[], station, rfl, rfl, trivial, h⟩
  | cons x xs ih =>
    obtain ⟨hsx, hsxs⟩ := List.forall_mem_cons.1 hs
    obtain ⟨hax, haxs⟩ := List.forall_mem_cons.1 hanswers
    have hcons : ys ++ x :: xs = (ys ++ [x]) ++ xs := by simp
    have hprefix : ys ++ [x] <+: ys ++ x :: xs := hcons ▸ List.prefix_append _ _
    unfold Station.receiveAll
    cases e : Station.receive x.plan origin x.side x.delta station with
    | error f station' =>
      obtain ⟨rfl, hover⟩ := h.overruns hd hsx hax e
      exact .inr ⟨hover.mono hprefix, station', Step.bind_error e⟩
    | ok reply station' =>
      obtain ⟨hstage, hdisciplined, hrecounts⟩ := h.receive hsx (harity.mono hprefix) e
      rw [Step.bind_ok e]
      rw [hcons] at harity
      rcases ih hrecounts (hstage ▸ hd) (hstage ▸ hsxs) (hstage ▸ haxs) (hstage ▸ harity) with
        ⟨out, station'', e', hstage', hdisciplined', hrecounts'⟩ | ⟨hover, station'', e'⟩
      · refine .inl ⟨reply.deltas ++ out, station'', ?_, hstage'.trans hstage,
          Feed.disciplined_append.2 ⟨hdisciplined, hdisciplined'⟩, ?_⟩
        · rw [Step.bind_ok e']
          rfl
        · rw [hcons, Feed.hearAll_append]
          exact hrecounts'
      · rw [hstage, ← hcons] at hover
        exact .inr ⟨hover, station'', Step.bind_error e'⟩

/-- Whatever a filter, a join or a group is told, and however its functions change their mind, it
emits a disciplined stream whose live tuples are the view of its inputs; unless the latest values of
a group cannot be collected. Every prefix of the messages is a history as well, so this holds after
each of them. -/
theorem receiveAll_views (origin : Nat) {stage : Stage S sh} {xs : List (Message S)}
    (hd : stage.derives = true) (hs : ∀ x ∈ xs, x.side ∈ stage.inputs)
    (hanswers : ∀ x ∈ xs, ∀ t, x.delta.tuple? = some t → stage.AnswersAt x.plan x.side t)
    (harity : stage.OneArity xs) :
    (∃ out station, receiveAll origin xs (ofStage stage) = .ok out station ∧
      Feed.empty.Disciplined out ∧ stage.View origin xs (Feed.empty.hearAll out)) ∨
    stage.Overruns xs ∧
      ∃ station, receiveAll origin xs (ofStage stage) = .error .overflow station := by
  have hstage : (ofStage stage).stage = stage := by cases stage <;> rfl
  have hstart := recounts_ofStage origin stage
  have hsides : ∀ x ∈ xs, x.side ∈ (ofStage stage).stage.inputs := hstage.symm ▸ hs
  have hrun := hstart.receiveAll (hstage.symm ▸ hd) hsides (hstage.symm ▸ hanswers)
    (hstage.symm ▸ harity)
  rw [hstage] at hrun
  rcases hrun with ⟨out, station, e, hsame, hdisciplined, hrecounts⟩ | hover
  · refine .inl ⟨out, station, e, hdisciplined, ?_⟩
    have hview := hrecounts.view (hsame.symm ▸ hd)
    rwa [hsame] at hview
  · exact .inr hover

/-- Joins what was heard of in the same hour last. -/
def hourly : Stage Int64 .simple :=
  .join (fun hour _ => .ok (.int hour)) (fun hour _ => .ok (.int hour))

/-- The first fact is heard of again in the hour of the second one. -/
def meeting : List (Message Int64) :=
  [⟨1, .left, .insert (.ofFact ⟨0, 0⟩ 0)⟩, ⟨2, .right, .insert (.ofFact ⟨0, 1⟩ 1)⟩,
    ⟨2, .left, .update (.ofFact ⟨0, 0⟩ 0)⟩]

theorem receiveAll_views_meeting :
    hourly.derives = true ∧ (∀ x ∈ meeting, x.side ∈ hourly.inputs) ∧
    (∀ x ∈ meeting, ∀ t, x.delta.tuple? = some t → hourly.AnswersAt x.plan x.side t) ∧
    hourly.OneArity meeting ∧
    ∃ out station, receiveAll 2 meeting (ofStage hourly) = .ok out station ∧
      Feed.empty.Disciplined out ∧ hourly.View 2 meeting (Feed.empty.hearAll out) := by
  have hs : ∀ x ∈ meeting, x.side ∈ hourly.inputs := by decide
  have hanswers : ∀ x ∈ meeting, ∀ t, x.delta.tuple? = some t →
      hourly.AnswersAt x.plan x.side t := by
    intro x _ t _
    refine ⟨.int x.plan, ?_⟩
    cases x.side <;> rfl
  have harity : hourly.OneArity meeting := fun _ _ _ => ⟨fun _ => 1, by decide⟩
  refine ⟨rfl, hs, hanswers, harity, ?_⟩
  rcases receiveAll_views 2 rfl hs hanswers harity with h | ⟨⟨_, _, _, _, _, hstage, _⟩, _⟩
  · exact h
  · cases hstage

end Station

end PlanSearch
