import PlanSearch.Network.Session
import PlanSearch.Proofs.Data.HashMap
import PlanSearch.Proofs.Network.Collector
import PlanSearch.Proofs.Network.Feed

/-!
# Groups as views

A group node files each live tuple under the key it was last answered, with the value it was last
answered. The output has one tuple for each key with members, whose aggregate is what the collector
makes of their values.

    m.memo? i = some (k, v) ↔ i is a member of the group k with the value v   (memo?_eq_some)
-/

namespace PlanSearch

open Std (HashMap)

variable {S : Type} {before now : S} {c : Collector}

/-! ## One group -/

namespace Group

/-- The accumulator stands for the values of the members. -/
def Sound (c : Collector) (g : Group) : Prop :=
  g.accumulator.Represents c (g.values.toList.map (·.2))

variable {g g' : Group} {i : TupleId} {v : Int64}

theorem sound_empty (c : Collector) : (empty c).Sound c := by
  unfold Sound empty
  rw [HashMap.toList_empty]
  exact .empty c

theorem Sound.add (h : g.Sound c) (hi : g.values[i]? = none) (e : Group.add i v g = .ok () g') :
    g'.Sound c ∧ ∀ j, g'.values[j]? = if j = i then some v else g.values[j]? := by
  unfold Group.add at e
  split at e
  · cases e
  · next acc ha =>
    cases e
    have hp := (toList_insert_of_new v hi).map (·.2)
    exact ⟨(Accumulator.Represents.add h ha).perm hp.symm, fun j => getElem?_insert_ite ..⟩

/-- A group represents each of its members and the rest of them. -/
theorem Sound.split (h : g.Sound c) (hi : g.values[i]? = some v) :
    g.accumulator.Represents c (v :: (g.values.erase i).toList.map (·.2)) :=
  Accumulator.Represents.perm h ((toList_eq_cons_erase hi).map _)

/-- Removing a member is right even where the accumulator has to be rebuilt. -/
theorem Sound.remove (h : g.Sound c) (e : Group.remove c i g = .ok () g') :
    g'.Sound c ∧ ∀ j, g'.values[j]? = if j = i then none else g.values[j]? := by
  unfold Group.remove at e
  split at e
  · next hi =>
    cases e
    refine ⟨h, fun j => ?_⟩
    split
    · next hj => rw [hj, hi]
    · rfl
  · next v hi =>
    have hv := h.split hi
    dsimp only at e
    split at e
    · cases e
    · next acc ha =>
      cases e
      exact ⟨hv.remove ha, getElem?_erase_ite g.values i⟩
    · split at e
      · cases e
      · next acc ha =>
        cases e
        exact ⟨Accumulator.represents_ofValues ha, getElem?_erase_ite g.values i⟩

theorem add_error {f : Fault} (e : Group.add i v g = .error f g') : f = .overflow := by
  unfold Group.add at e
  split at e
  · next ha => cases e; exact Accumulator.add_error ha
  · cases e

theorem remove_error {f : Fault} (e : Group.remove c i g = .error f g') : f = .overflow := by
  unfold Group.remove at e
  split at e
  · cases e
  · dsimp only at e
    split at e
    · next ha => cases e; exact Accumulator.remove_error ha
    · cases e
    · split at e
      · next ha => cases e; exact Accumulator.foldlM_add_error ha
      · cases e

end Group

/-! ## All groups -/

/-- What a group node asks about a tuple: its key, and the value it contributes. -/
def keyAndValue (key : S → Tuple → Checked Key) (value : S → Tuple → Checked Int64) (plan : S)
    (t : Tuple) : Checked (Key × Int64) := do
  return (← key plan t, ← value plan t)

theorem keyAndValue_eq_ok {key : S → Tuple → Checked Key} {value : S → Tuple → Checked Int64}
    {plan : S} {t : Tuple} {k : Key} {v : Int64} (hk : key plan t = .ok k)
    (hv : value plan t = .ok v) : keyAndValue key value plan t = .ok (k, v) := by
  unfold keyAndValue
  rw [hk, hv]
  rfl

namespace GroupMemory

/-- The value of the member `i` of the group `k`. -/
def filed? (m : GroupMemory) (k : Key) (i : TupleId) : Option Int64 :=
  (m.groups[k]?).bind fun g => g.values[i]?

/-- The key and the value that are remembered of a member. -/
def memo? (m : GroupMemory) (i : TupleId) : Option (Key × Int64) :=
  (m.members[i]?).bind fun k => (m.filed? k i).map (k, ·)

/-- Members are filed under their keys, and the output has one tuple for each group. -/
structure Tracks (answer : S → Tuple → Checked (Key × Int64)) (c : Collector) (before now : S)
    (origin : Nat) (m : GroupMemory) (input output : Feed) : Prop where
  recalls : Recalls answer before now m.memo? input
  member : ∀ (i : TupleId) (k : Key), m.members[i]? = some k ↔ ∃ v, m.filed? k i = some v
  sound : ∀ (k : Key) g, m.groups[k]? = some g → g.Sound c
  inhabited : ∀ (k : Key) g, m.groups[k]? = some g → ∃ i v, m.filed? k i = some v
  live : ∀ i t, output.live i = some t ↔
    ∃ k g, m.groups[k]? = some g ∧ i = [.group k] ∧ t = Tuple.ofGroup k g.result origin

variable {answer : S → Tuple → Checked (Key × Int64)} {origin : Nat} {m m' : GroupMemory}
  {input input' output output' : Feed} {t : Tuple} {k : Key} {v : Int64} {i : TupleId}
  {g g' : Group}

theorem filed?_of_group (hg : m.groups[k]? = some g) (i : TupleId) :
    m.filed? k i = g.values[i]? := by
  unfold filed?
  rw [hg]
  rfl

theorem filed?_of_none (hg : m.groups[k]? = none) (i : TupleId) : m.filed? k i = none := by
  unfold filed?
  rw [hg]
  rfl

theorem Tracks.memo?_eq_some (h : Tracks answer c before now origin m input output) :
    m.memo? i = some (k, v) ↔ m.filed? k i = some v := by
  unfold memo?
  constructor
  · intro e
    obtain ⟨k', -, e⟩ := Option.bind_eq_some_iff.1 e
    obtain ⟨v', hv, e⟩ := Option.map_eq_some_iff.1 e
    cases e
    exact hv
  · intro e
    rw [(h.member i k).2 ⟨v, e⟩, Option.bind_some, e]
    rfl

theorem tracks_empty (answer : S → Tuple → Checked (Key × Int64)) (c : Collector) (before now : S)
    (origin : Nat) : Tracks answer c before now origin {} Feed.empty Feed.empty where
  recalls := by
    have h := Recalls.empty answer before now
    rwa [show (fun _ => none) = memo? {} from funext fun i => by simp [memo?]] at h
  member i k := by simp [filed?]
  sound k g h := by simp at h
  inhabited k g h := by simp at h
  live i t := by
    constructor
    · intro h
      cases h
    · rintro ⟨k, g, h, -⟩
      simp at h

theorem Tracks.live_self (h : Tracks answer c before now origin m input output)
    (hg : m.groups[k]? = some g) :
    output.live [.group k] = some (Tuple.ofGroup k g.result origin) :=
  (h.live ..).2 ⟨k, g, hg, rfl, rfl⟩

/-! ## One group changes -/

/-- The value of `j` in the group `k` becomes `e`, and the group becomes `r`. All else stays. -/
structure Regroups (m m' : GroupMemory) (j : TupleId) (k : Key) (e : Option Int64)
    (r : Option Group) : Prop where
  only : ∀ k', m.members[j]? = some k' → k' = k
  members : ∀ i, m'.members[i]? = if i = j then e.map fun _ => k else m.members[i]?
  groups : ∀ k', m'.groups[k']? = if k' = k then r else m.groups[k']?
  filed : ∀ i, m'.filed? k i = if i = j then e else m.filed? k i

namespace Regroups

variable {j : TupleId} {e : Option Int64} {r : Option Group} {k' : Key}

theorem of_insert {members : Std.HashMap TupleId Key}
    (only : ∀ k', m.members[j]? = some k' → k' = k)
    (hmembers : ∀ i, members[i]? = if i = j then e.map fun _ => k else m.members[i]?)
    (hvalues : ∀ i, g'.values[i]? = if i = j then e else m.filed? k i) :
    Regroups m { groups := m.groups.insert k g', members } j k e (some g') where
  only := only
  members := hmembers
  groups _ := getElem?_insert_ite ..
  filed i := by rw [filed?_of_group (g := g') (by simp), hvalues]

/-- A group goes with the last of its members. -/
theorem of_erase {members : Std.HashMap TupleId Key}
    (only : ∀ k', m.members[j]? = some k' → k' = k)
    (hmembers : ∀ i, members[i]? = if i = j then none else m.members[i]?)
    (hlast : ∀ i, i ≠ j → m.filed? k i = none) :
    Regroups m { groups := m.groups.erase k, members } j k none none where
  only := only
  members := hmembers
  groups _ := getElem?_erase_ite ..
  filed i := by
    rw [filed?_of_none (by simp)]
    split
    · rfl
    · next hi => exact (hlast i hi).symm

theorem filed_other (h : Regroups m m' j k e r) (hk : k' ≠ k) (i : TupleId) :
    m'.filed? k' i = m.filed? k' i := by
  unfold filed?
  rw [h.groups, if_neg hk]

theorem memo (h : Regroups m m' j k e r) (i : TupleId) :
    m'.memo? i = if i = j then e.map (k, ·) else m.memo? i := by
  unfold memo?
  rw [h.members]
  split
  · next hi =>
    cases e with
    | none => rfl
    | some v => rw [Option.map_some, Option.bind_some, h.filed, if_pos hi]
  · next hi =>
    cases m.members[i]? with
    | none => rfl
    | some k' =>
      rw [Option.bind_some, Option.bind_some]
      by_cases hk : k' = k
      · rw [hk, h.filed, if_neg hi]
      · rw [h.filed_other hk]

theorem member (h : Regroups m m' j k e r)
    (hm : ∀ (i : TupleId) (k : Key), m.members[i]? = some k ↔ ∃ v, m.filed? k i = some v)
    (i : TupleId) (k' : Key) : m'.members[i]? = some k' ↔ ∃ v, m'.filed? k' i = some v := by
  rw [h.members]
  by_cases hk : k' = k
  · rw [hk, h.filed]
    split
    · cases e <;> simp
    · exact hm i k
  · rw [h.filed_other hk, ← hm]
    split
    · next hi =>
      subst hi
      constructor
      · intro hm
        obtain ⟨v, -, rfl⟩ := Option.map_eq_some_iff.1 hm
        exact absurd rfl hk
      · exact fun hm => absurd (h.only k' hm) hk
    · rfl

theorem live (h : Regroups m m' j k e r)
    (hm : ∀ i t, output.live i = some t ↔
      ∃ k g, m.groups[k]? = some g ∧ i = [.group k] ∧ t = Tuple.ofGroup k g.result origin)
    (hlive : ∀ i, output'.live i =
      if i = [.group k] then r.map fun g => Tuple.ofGroup k g.result origin else output.live i)
    (i : TupleId) (t : Tuple) : output'.live i = some t ↔
      ∃ k g, m'.groups[k]? = some g ∧ i = [.group k] ∧ t = Tuple.ofGroup k g.result origin := by
  rw [hlive]
  by_cases hi : i = [.group k]
  · subst hi
    rw [if_pos rfl, Option.map_eq_some_iff]
    constructor
    · rintro ⟨g, hg, rfl⟩
      exact ⟨k, g, by rw [h.groups, if_pos rfl]; exact hg, rfl, rfl⟩
    · rintro ⟨k', g, hg, hk, rfl⟩
      cases hk
      rw [h.groups, if_pos rfl] at hg
      exact ⟨g, hg, rfl⟩
  · rw [if_neg hi, hm]
    have hne : ∀ k', i = [.group k'] → k' ≠ k := fun k' ei ek => hi (ek ▸ ei)
    constructor
    · rintro ⟨k', g, hg, hk, rfl⟩
      exact ⟨k', g, by rw [h.groups, if_neg (hne k' hk), hg], hk, rfl⟩
    · rintro ⟨k', g, hg, hk, rfl⟩
      rw [h.groups, if_neg (hne k' hk)] at hg
      exact ⟨k', g, hg, hk, rfl⟩

end Regroups

/-- Where one group changes as its members do, the invariant stays. -/
theorem Tracks.regroup {j : TupleId} {e : Option Int64} {r : Option Group}
    (h : Tracks answer c before now origin m input output) (hm : Regroups m m' j k e r)
    (hr : ∀ g, r = some g → g.Sound c ∧ ∃ (i : TupleId) (v : Int64), g.values[i]? = some v)
    (hlive : ∀ i, output'.live i =
      if i = [.group k] then r.map fun g => Tuple.ofGroup k g.result origin else output.live i)
    (hrecalls : Recalls answer before now m'.memo? input') :
    Tracks answer c before now origin m' input' output' where
  recalls := hrecalls
  member := hm.member h.member
  sound k' g hg := by
    rw [hm.groups] at hg
    split at hg
    · exact (hr g hg).1
    · exact h.sound k' g hg
  inhabited k' g hg := by
    have hfiled := filed?_of_group hg
    rw [hm.groups] at hg
    split at hg
    · obtain ⟨i, v, hv⟩ := (hr g hg).2
      exact ⟨i, v, (hfiled i).trans hv⟩
    · next hk =>
      obtain ⟨i, v, hv⟩ := h.inhabited k' g hg
      exact ⟨i, v, (hm.filed_other hk i).trans hv⟩
  live := hm.live h.live hlive

/-- A group whose result did not move need not be mentioned. -/
theorem Tracks.live_moved (h : Tracks answer c before now origin m input output)
    (hg : m.groups[k]? = some g) (g' : Group) (i : TupleId) :
    (output.hearAll (if g.result = g'.result then []
      else [.update (Tuple.ofGroup k g'.result origin)])).live i =
      if i = [.group k] then some (Tuple.ofGroup k g'.result origin) else output.live i := by
  split
  · next hres =>
    rw [Feed.hearAll_nil]
    split
    · next hi => rw [hi, h.live_self hg, hres]
    · rfl
  · exact output.live_hear (.insert (Tuple.ofGroup k g'.result origin)) i

/-! ## Operations -/

theorem within_eq_ok {change : Step Group Unit} {out : List Delta}
    (e : within origin k g change m = .ok out m') :
    ∃ g', change g = .ok () g' ∧ m' = { m with groups := m.groups.insert k g' } ∧
      out = if g.result = g'.result then [] else [.update (Tuple.ofGroup k g'.result origin)] := by
  unfold within at e
  split at e
  · cases e
  · next g' hg =>
    cases e
    exact ⟨g', hg, rfl, rfl⟩

theorem Tracks.insert {out : List Delta} (h : Tracks answer c before now origin m input output)
    (ha : answer now t = .ok (k, v)) (hnew : m.members[t.id]? = none)
    (e : insert c origin t.id k v m = .ok out m') :
    Tracks answer c before now origin m' (input.hear (.insert t)) (output.hearAll out) := by
  have hold : ∀ k', m.members[t.id]? = some k' → k' = k := fun k' hk => by
    rw [hnew] at hk
    cases hk
  have hmembers : ∀ i, (m.members.insert t.id k)[i]? =
      if i = t.id then (some v).map fun _ => k else m.members[i]? := fun i => getElem?_insert_ite ..
  have hunfiled : m.filed? k t.id = none := by
    cases hf : m.filed? k t.id with
    | none => rfl
    | some w =>
      have := (h.member t.id k).2 ⟨w, hf⟩
      rw [hnew] at this
      cases this
  unfold GroupMemory.insert at e
  dsimp only at e
  split at e
  · next g hg =>
    obtain ⟨g', hadd, rfl, rfl⟩ := within_eq_ok e
    have hfg := filed?_of_group hg
    obtain ⟨hsound, hvalues⟩ := (h.sound k g hg).add (by rw [← hfg, hunfiled]) hadd
    have hm := Regroups.of_insert hold hmembers fun i => by rw [hvalues, hfg]
    refine h.regroup hm ?_ (h.live_moved hg g') (h.recalls.put ha hm.memo)
    rintro _ ⟨⟩
    exact ⟨hsound, t.id, v, by rw [hvalues, if_pos rfl]⟩
  · next hg =>
    split at e
    · cases e
    · next g' hadd =>
      cases e
      obtain ⟨hsound, hvalues⟩ := (Group.sound_empty c).add (by simp [Group.empty]) hadd
      have hm := Regroups.of_insert hold hmembers fun i => by
        rw [hvalues, filed?_of_none hg, show (Group.empty c).values[i]? = none by simp [Group.empty]]
      refine h.regroup hm ?_ (output.live_hear (.insert (Tuple.ofGroup k g'.result origin)))
        (h.recalls.put ha hm.memo)
      rintro _ ⟨⟩
      exact ⟨hsound, t.id, v, by rw [hvalues, if_pos rfl]⟩

theorem Tracks.revalue {out : List Delta} (h : Tracks answer c before now origin m input output)
    (ha : answer now t = .ok (k, v)) (hmem : m.members[t.id]? = some k)
    (e : revalue c origin t.id k v m = .ok out m') :
    Tracks answer c before now origin m' (input.hear (.insert t)) (output.hearAll out) := by
  obtain ⟨w, hw⟩ := (h.member t.id k).1 hmem
  unfold GroupMemory.revalue at e
  split at e
  · next hg =>
    rw [filed?_of_none hg] at hw
    cases hw
  · next g hg =>
    have hfg := filed?_of_group hg
    split at e
    · next hv =>
      cases e
      refine ⟨h.recalls.put ha fun i => ?_, h.member, h.sound, h.inhabited, h.live⟩
      split
      · next hi => rw [hi, h.memo?_eq_some, hfg, hv]
      · rfl
    · obtain ⟨g', hchange, rfl, rfl⟩ := within_eq_ok e
      obtain ⟨_, g₁, hremove, hadd⟩ := Step.bind_eq_ok hchange
      obtain ⟨hsound₁, hvalues₁⟩ := (h.sound k g hg).remove hremove
      obtain ⟨hsound, hvalues⟩ := hsound₁.add (by rw [hvalues₁, if_pos rfl]) hadd
      have hold : ∀ k', m.members[t.id]? = some k' → k' = k := fun k' hk' => by
        rw [hmem] at hk'
        cases hk'
        rfl
      have hmembers : ∀ i, m.members[i]? =
          if i = t.id then (some v).map fun _ => k else m.members[i]? := fun i => by
        split
        · next hi => rw [hi]; exact hmem
        · rfl
      have hvalues' : ∀ i, g'.values[i]? = if i = t.id then some v else m.filed? k i := fun i => by
        rw [hvalues, hvalues₁, hfg]
        split <;> rfl
      have hm := Regroups.of_insert hold hmembers hvalues'
      refine h.regroup hm ?_ (h.live_moved hg g') (h.recalls.put ha hm.memo)
      rintro _ ⟨⟩
      exact ⟨hsound, t.id, v, by rw [hvalues, if_pos rfl]⟩

theorem Tracks.retract {out : List Delta} (h : Tracks answer c before now origin m input output)
    (j : TupleId) (e : retract c origin j m = .ok out m') :
    Tracks answer c before now origin m' (input.hear (.retract j)) (output.hearAll out) ∧
      m'.members[j]? = none := by
  unfold GroupMemory.retract at e
  split at e
  · next hj =>
    cases e
    have hrec : m.memo? j = none := by
      unfold memo?
      rw [hj]
      rfl
    refine ⟨⟨h.recalls.drop j fun i => ?_, h.member, h.sound, h.inhabited, h.live⟩, hj⟩
    split
    · next hi => rw [hi, hrec]
    · rfl
  · next k hk =>
    have hmembers : ∀ i, (m.members.erase j)[i]? =
        if i = j then (none : Option Int64).map fun _ => k else m.members[i]? :=
      fun i => getElem?_erase_ite ..
    have hold : ∀ k', m.members[j]? = some k' → k' = k := fun k' hk' => by
      rw [hk] at hk'
      cases hk'
      rfl
    have hgone : (m.members.erase j)[j]? = none := by simp
    obtain ⟨w, hw⟩ := (h.member j k).1 hk
    dsimp only at e
    split at e
    · next hg =>
      rw [filed?_of_none hg] at hw
      cases hw
    · next g hg =>
      have hfg := filed?_of_group hg
      split at e
      · cases e
      · next g' hremove =>
        obtain ⟨hsound, hvalues⟩ := (h.sound k g hg).remove hremove
        split at e
        · next hempty =>
          cases e
          have hm := Regroups.of_erase hold hmembers fun i hi => by
            have hleft := hvalues i
            rw [if_neg hi, ← hfg] at hleft
            exact hleft ▸ HashMap.getElem?_of_isEmpty hempty
          exact ⟨h.regroup hm nofun (output.live_hear (.retract [.group k]))
            (h.recalls.drop j hm.memo), hgone⟩
        · next hempty =>
          cases e
          have hm := Regroups.of_insert (e := none) hold hmembers fun i => by rw [hvalues, hfg]
          refine ⟨h.regroup hm ?_ (h.live_moved hg g') (h.recalls.drop j hm.memo), hgone⟩
          rintro _ ⟨⟩
          refine ⟨hsound, ?_⟩
          have hne : g'.values.isEmpty = false := by simpa using hempty
          obtain ⟨i, hi⟩ := HashMap.isEmpty_eq_false_iff_exists_mem.1 hne
          exact ⟨i, g'.values[i], HashMap.getElem?_eq_some_getElem hi⟩

/-- A tuple is live and its key and value are what was just answered. -/
theorem Tracks.place {out : List Delta} (h : Tracks answer c before now origin m input output)
    (ha : answer now t = .ok (k, v)) (e : place c origin t.id k v m = .ok out m') :
    Tracks answer c before now origin m' (input.hear (.insert t)) (output.hearAll out) := by
  unfold GroupMemory.place at e
  rw [Step.get_bind] at e
  cases hmem : m.members[t.id]? with
  | none =>
    rw [hmem] at e
    exact h.insert ha hmem e
  | some old =>
    rw [hmem] at e
    dsimp only at e
    split at e
    · next hk => exact h.revalue ha (hk ▸ hmem) e
    · obtain ⟨gone, m₁, hgone, e⟩ := Step.bind_eq_ok e
      obtain ⟨new, m₂, hinsert, e⟩ := Step.bind_eq_ok e
      cases e
      obtain ⟨h₁, hnew⟩ := h.retract t.id hgone
      have h₂ := h₁.insert ha hnew hinsert
      rw [Feed.hear_hear_of_id_eq (d := .retract t.id) (e := .insert t) rfl] at h₂
      rw [Feed.hearAll_append]
      exact h₂

/-! ## Emitted tuples -/

/-- The deltas speak of groups only. -/
def Speaks (origin : Nat) (out : List Delta) : Prop :=
  ∀ d ∈ out, ∃ k, d.id = [.group k] ∧
    ∀ t, d.tuple? = some t → ∃ n, t = Tuple.ofGroup k n origin

theorem speaks_update (k : Key) (n : Int64) (origin : Nat) :
    Speaks origin [.update (Tuple.ofGroup k n origin)] := by
  intro d hd
  obtain rfl := List.mem_singleton.1 hd
  exact ⟨k, rfl, fun t ht => ⟨n, (Option.some.inj ht).symm⟩⟩

theorem speaks_insert (k : Key) (n : Int64) (origin : Nat) :
    Speaks origin [.insert (Tuple.ofGroup k n origin)] := by
  intro d hd
  obtain rfl := List.mem_singleton.1 hd
  exact ⟨k, rfl, fun t ht => ⟨n, (Option.some.inj ht).symm⟩⟩

theorem within_speaks {change : Step Group Unit} {out : List Delta}
    (e : within origin k g change m = .ok out m') : Speaks origin out := by
  obtain ⟨g', -, -, rfl⟩ := within_eq_ok e
  split
  · exact nofun
  · exact speaks_update k g'.result origin

theorem insert_speaks {out : List Delta} (e : insert c origin i k v m = .ok out m') :
    Speaks origin out := by
  unfold GroupMemory.insert at e
  dsimp only at e
  split at e
  · exact within_speaks e
  · split at e
    · cases e
    · next g' _ =>
      cases e
      exact speaks_insert k g'.result origin

theorem revalue_speaks {out : List Delta} (e : revalue c origin i k v m = .ok out m') :
    Speaks origin out := by
  unfold GroupMemory.revalue at e
  split at e
  · cases e
    exact nofun
  · split at e
    · cases e
      exact nofun
    · exact within_speaks e

theorem retract_speaks {out : List Delta} (e : retract c origin i m = .ok out m') :
    Speaks origin out := by
  unfold GroupMemory.retract at e
  split at e
  · cases e
    exact nofun
  · next k _ =>
    dsimp only at e
    split at e
    · cases e
      exact nofun
    · split at e
      · cases e
      · next g' _ =>
        split at e
        · cases e
          intro d hd
          obtain rfl := List.mem_singleton.1 hd
          exact ⟨k, rfl, nofun⟩
        · cases e
          split
          · exact nofun
          · exact speaks_update k g'.result origin

theorem place_speaks {out : List Delta} (e : place c origin i k v m = .ok out m') :
    Speaks origin out := by
  unfold GroupMemory.place at e
  rw [Step.get_bind] at e
  cases hmem : m.members[i]? with
  | none =>
    rw [hmem] at e
    exact insert_speaks e
  | some old =>
    rw [hmem] at e
    dsimp only at e
    split at e
    · exact revalue_speaks e
    · obtain ⟨gone, m₁, hgone, e⟩ := Step.bind_eq_ok e
      obtain ⟨new, m₂, hnew, e⟩ := Step.bind_eq_ok e
      cases e
      intro d hd
      exact (List.mem_append.1 hd).elim (retract_speaks hgone d) (insert_speaks hnew d)

/-! ## Faults -/

theorem within_error {change : Step Group Unit} {f : Fault}
    (hc : ∀ g g', change g = .error f g' → f = .overflow)
    (e : within origin k g change m = .error f m') : f = .overflow := by
  unfold within at e
  split at e
  · next hg => cases e; exact hc _ _ hg
  · cases e

theorem insert_error {f : Fault} (e : insert c origin i k v m = .error f m') : f = .overflow := by
  unfold GroupMemory.insert at e
  dsimp only at e
  split at e
  · exact within_error (fun _ _ => Group.add_error) e
  · split at e
    · next hadd => cases e; exact Group.add_error hadd
    · cases e

theorem revalue_error {f : Fault} (e : revalue c origin i k v m = .error f m') :
    f = .overflow := by
  unfold GroupMemory.revalue at e
  split at e
  · cases e
  · split at e
    · cases e
    · refine within_error (fun g g' hchange => ?_) e
      rcases Step.bind_eq_error hchange with hremove | ⟨_, _, -, hadd⟩
      · exact Group.remove_error hremove
      · exact Group.add_error hadd

theorem retract_error {f : Fault} (e : retract c origin i m = .error f m') : f = .overflow := by
  unfold GroupMemory.retract at e
  split at e
  · cases e
  · dsimp only at e
    split at e
    · cases e
    · split at e
      · next hremove => cases e; exact Group.remove_error hremove
      · split at e <;> cases e

theorem place_error {f : Fault} (e : place c origin i k v m = .error f m') : f = .overflow := by
  unfold GroupMemory.place at e
  rcases Step.bind_eq_error e with e | ⟨_, _, hget, e⟩
  · cases e
  · cases hget
    cases hmem : m.members[i]? with
    | none =>
      rw [hmem] at e
      exact insert_error e
    | some old =>
      rw [hmem] at e
      dsimp only at e
      split at e
      · exact revalue_error e
      · rcases Step.bind_eq_error e with e | ⟨_, _, -, e⟩
        · exact retract_error e
        · rcases Step.bind_eq_error e with e | ⟨_, _, -, e⟩
          · exact insert_error e
          · cases e

end GroupMemory

end PlanSearch
