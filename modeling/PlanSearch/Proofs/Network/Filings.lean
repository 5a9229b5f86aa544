import Mathlib
import PlanSearch.Proofs.Network.Changes

/-!
# Changes that a group node makes

A group node hears of tuples with their keys and values, and of tuples that are gone. It adds a
tuple to a group, removes it, or enters a new value. It never adds a tuple to a group that has it
already, because it files every member under the key of its group. So each of its groups has what
the collector makes of the values of the members at once.

    fileAll c origin qs {} = .ok () m → every group of m went through proper changes
                                                                               (Grown.fileAll)
    Proper [] xs → changeAll c xs (empty c) = .ok () g → Collects c (roster xs) g
                                                                               (changes_collect)
-/

namespace PlanSearch

/-! ## Filings -/

namespace GroupMemory

variable {c : Collector} {origin : Nat} {m m' : GroupMemory} {k : Key} {v : Int64} {i : TupleId}
  {g g' : Group} {out : List Delta}

/-- What a group node hears of a tuple, with what the tuple was answered. -/
inductive Filing where
  | place (id : TupleId) (key : Key) (value : Int64)
  | retract (id : TupleId)
  deriving DecidableEq, Repr

def file (c : Collector) (origin : Nat) : Filing → Step GroupMemory (List Delta)
  | .place i k v => place c origin i k v
  | .retract i => retract c origin i

def fileAll (c : Collector) (origin : Nat) : List Filing → Step GroupMemory Unit
  | [] => pure ()
  | q :: qs => do let _ ← file c origin q; fileAll c origin qs

/-! ## Groups -/

/-- The group under the key, which is without members where there is none. -/
def group (c : Collector) (m : GroupMemory) (k : Key) : Group :=
  (m.groups[k]?).getD (Group.empty c)

theorem group_of_insert (h : m'.groups = m.groups.insert k g) (k' : Key) :
    m'.group c k' = if k' = k then g else m.group c k' := by
  unfold group
  rw [h, getElem?_insert_ite]
  split <;> rfl

theorem group_of_erase (h : m'.groups = m.groups.erase k) (k' : Key) :
    m'.group c k' = if k' = k then Group.empty c else m.group c k' := by
  unfold group
  rw [h, getElem?_erase_ite]
  split <;> rfl

theorem group_of_some (h : m.groups[k]? = some g) : m.group c k = g := by
  unfold group
  rw [h]
  rfl

theorem group_of_none (h : m.groups[k]? = none) : m.group c k = Group.empty c := by
  unfold group
  rw [h]
  rfl

theorem insert_eq_ok (e : insert c origin i k v m = .ok out m') :
    m'.members = m.members.insert i k ∧ ∃ g', Group.add i v (m.group c k) = .ok () g' ∧
      ∀ k', m'.group c k' = if k' = k then g' else m.group c k' := by
  unfold GroupMemory.insert at e
  dsimp only at e
  split at e
  · next g hg =>
    obtain ⟨g', hadd, rfl, -⟩ := within_eq_ok e
    refine ⟨rfl, g', ?_, group_of_insert rfl⟩
    rw [group_of_some hg, hadd]
  · next hg =>
    split at e
    · cases e
    · next g' hadd =>
      cases e
      refine ⟨rfl, g', ?_, group_of_insert rfl⟩
      rw [group_of_none hg, hadd]

theorem revalue_eq_ok (e : revalue c origin i k v m = .ok out m') :
    m' = m ∨ m'.members = m.members ∧
      ∃ g', Group.Change.apply c (.revalue i v) (m.group c k) = .ok () g' ∧
        ∀ k', m'.group c k' = if k' = k then g' else m.group c k' := by
  unfold GroupMemory.revalue at e
  split at e
  · cases e
    exact .inl rfl
  · next g hg =>
    split at e
    · cases e
      exact .inl rfl
    · next hv =>
      obtain ⟨g', hchange, rfl, -⟩ := within_eq_ok e
      refine .inr ⟨rfl, g', ?_, group_of_insert rfl⟩
      rw [group_of_some hg]
      exact (if_neg hv).trans hchange

theorem retract_eq_ok (hi : m.members[i]? = some k) (e : retract c origin i m = .ok out m') :
    m'.members = m.members.erase i ∧ ∃ g', Group.remove c i (m.group c k) = .ok () g' ∧
      ∀ k', m'.group c k' =
        if k' = k then (if g'.values.isEmpty then Group.empty c else g') else m.group c k' := by
  unfold GroupMemory.retract at e
  rw [hi] at e
  dsimp only at e
  split at e
  · next hg =>
    cases e
    refine ⟨rfl, Group.empty c, ?_, fun k' => ?_⟩
    · rw [group_of_none hg]
      simp [Group.remove, Group.empty]
    · split
      · next hk =>
        rw [hk, ite_self]
        exact group_of_none hg
      · rfl
  · next g hg =>
    rw [group_of_some hg]
    split at e
    · cases e
    · next g' hremove =>
      refine ⟨?_, g', hremove, ?_⟩
      · split at e <;> cases e <;> rfl
      · split at e
        · next hempty =>
          cases e
          simpa only [hempty, if_true] using group_of_erase rfl
        · next hempty =>
          cases e
          simpa only [hempty, if_false] using group_of_insert rfl

/-! ## Runs -/

/-- Every group came about by proper changes, and its members are filed under its key. So no tuple
is a member of two groups. -/
structure Grown (c : Collector) (m : GroupMemory) : Prop where
  made : ∀ k, (m.group c k).Made c
  filed : ∀ (k : Key) (i : TupleId) (v : Int64), (m.group c k).values[i]? = some v →
    m.members[i]? = some k

theorem grown_empty (c : Collector) : Grown c {} := by
  have hgroup : ∀ k, group c {} k = Group.empty c := fun k => group_of_none (by simp)
  refine ⟨fun k => hgroup k ▸ Group.Made.empty c, fun k i v hv => ?_⟩
  rw [hgroup] at hv
  simp [Group.empty] at hv

namespace Grown

/-- Only the group `k` becomes another one, and only its members are filed in another way. -/
theorem regroup (h : Grown c m) (hmade : g'.Made c)
    (hgroup : ∀ k', m'.group c k' = if k' = k then g' else m.group c k')
    (hown : ∀ (i : TupleId) (v : Int64), g'.values[i]? = some v → m'.members[i]? = some k)
    (hothers : ∀ (i : TupleId) k', k' ≠ k → m.members[i]? = some k' → m'.members[i]? = some k') :
    Grown c m' := by
  refine ⟨fun k' => ?_, fun k' i v hv => ?_⟩
  · rw [hgroup]
    split
    · exact hmade
    · exact h.made k'
  · rw [hgroup] at hv
    split at hv
    · next hk => exact hk ▸ hown i v hv
    · next hk => exact hothers i k' hk (h.filed k' i v hv)

theorem insert (h : Grown c m) (hnew : m.members[i]? = none)
    (e : GroupMemory.insert c origin i k v m = .ok out m') : Grown c m' := by
  obtain ⟨hmembers, g', hadd, hgroup⟩ := insert_eq_ok e
  -- A member of the group would be filed under its key already.
  have hi : (m.group c k).values[i]? = none := by
    rw [Option.eq_none_iff_forall_ne_some]
    intro w hw
    have := h.filed k i w hw
    rw [hnew] at this
    cases this
  refine h.regroup ((h.made k).add hi hadd) hgroup (fun j w hw => ?_) fun j k' _ hj => ?_
  · rw [((h.made k).sound.add hi hadd).2] at hw
    rw [hmembers, getElem?_insert_ite]
    split at hw
    · next hji => rw [if_pos hji]
    · next hji => rw [if_neg hji, h.filed k j w hw]
  · have hji : j ≠ i := fun hji => by
      rw [hji, hnew] at hj
      cases hj
    rw [hmembers, getElem?_insert_ite, if_neg hji, hj]

theorem revalue (h : Grown c m) (hi : m.members[i]? = some k)
    (e : GroupMemory.revalue c origin i k v m = .ok out m') : Grown c m' := by
  obtain rfl | ⟨hmembers, g', hchange, hgroup⟩ := revalue_eq_ok e
  · exact h
  · have hmade : g'.Made c :=
      (h.made k).apply (x := .revalue i v) (fun _ _ => trivial) hchange
    refine h.regroup hmade hgroup (fun j w hw => ?_) fun j k' _ hj => hmembers ▸ hj
    obtain ⟨l, hl⟩ := (h.made k).holds
    have hw := ((hl.apply (x := .revalue i v) trivial hchange).entry j w).1 hw
    rw [hmembers]
    rcases List.mem_cons.1 hw with hji | hw
    · cases hji
      exact hi
    · exact h.filed k j w ((hl.entry j w).2 (Roster.mem_without.1 hw).1)

theorem retract (h : Grown c m) (e : GroupMemory.retract c origin i m = .ok out m') :
    Grown c m' ∧ m'.members[i]? = none := by
  cases hi : m.members[i]? with
  | none =>
    unfold GroupMemory.retract at e
    rw [hi] at e
    cases e
    exact ⟨h, hi⟩
  | some k =>
    obtain ⟨hmembers, g', hremove, hgroup⟩ := retract_eq_ok hi e
    refine ⟨h.regroup ?_ hgroup (fun j w hw => ?_) fun j k' hk hj => ?_, ?_⟩
    · split
      · exact Group.Made.empty c
      · exact (h.made k).remove hremove
    · have hw : g'.values[j]? = some w := by
        split at hw
        · simp [Group.empty] at hw
        · exact hw
      rw [((h.made k).sound.remove hremove).2] at hw
      rw [hmembers, getElem?_erase_ite]
      split at hw
      · cases hw
      · next hji => rw [if_neg hji, h.filed k j w hw]
    · have hji : j ≠ i := fun hji => by
        rw [hji, hi] at hj
        cases hj
        exact hk rfl
      rw [hmembers, getElem?_erase_ite, if_neg hji, hj]
    · simp [hmembers]

theorem place (h : Grown c m) (e : GroupMemory.place c origin i k v m = .ok out m') :
    Grown c m' := by
  unfold GroupMemory.place at e
  rw [Step.get_bind] at e
  cases hi : m.members[i]? with
  | none =>
    rw [hi] at e
    exact h.insert hi e
  | some old =>
    rw [hi] at e
    dsimp only at e
    split at e
    · next hk => exact h.revalue (hk ▸ hi) e
    · obtain ⟨_, m₁, hretract, e⟩ := Step.bind_eq_ok e
      obtain ⟨_, m₂, hinsert, e⟩ := Step.bind_eq_ok e
      cases e
      obtain ⟨h₁, hnew⟩ := h.retract hretract
      exact h₁.insert hnew hinsert

theorem file {q : Filing} (h : Grown c m) (e : GroupMemory.file c origin q m = .ok out m') :
    Grown c m' := by
  cases q with
  | place i k v => exact h.place e
  | retract i => exact (h.retract e).1

theorem fileAll {qs : List Filing} (h : Grown c m)
    (e : GroupMemory.fileAll c origin qs m = .ok () m') : Grown c m' := by
  induction qs generalizing m with
  | nil =>
    cases e
    exact h
  | cons q qs ih =>
    obtain ⟨_, m₁, hq, hrest⟩ := Step.bind_eq_ok e
    exact ih (h.file hq) hrest

end Grown

end GroupMemory

/-! ## Results -/

namespace Group

/-- Whatever proper changes a group goes through, and in whatever order, its result is what the
collector makes of the values that its members have in the end, and values are counted as often as
they occur. The changes fail only where the values of a roster on the way cannot be collected. A
group node makes proper changes only, whatever it hears of. -/
theorem changes_collect (c : Collector) :
    (∀ xs, Proper [] xs →
      ((∃ g, changeAll c xs (empty c) = .ok () g) ↔
        ∀ r ∈ stages [] xs, ∃ n, c.collect r.values = .ok n) ∧
      ∀ g, changeAll c xs (empty c) = .ok () g → Collects c (roster xs) g) ∧
    (∀ xs ys g g', Proper [] xs → Proper [] ys → (roster xs).values.Perm (roster ys).values →
      changeAll c xs (empty c) = .ok () g → changeAll c ys (empty c) = .ok () g' →
      g.result = g'.result) ∧
    ∀ origin qs m, GroupMemory.fileAll c origin qs {} = .ok () m →
      ∀ (k : Key) g, m.groups[k]? = some g →
        ∃ xs, Proper [] xs ∧ changeAll c xs (empty c) = .ok () g := by
  have hcollects : ∀ xs g, Proper [] xs → changeAll c xs (empty c) = .ok () g →
      Collects c (roster xs) g := fun xs g hxs e => ((holds_empty c).changeAll hxs e).collects
  refine ⟨fun xs hxs => ⟨(holds_empty c).changeAll_eq_ok_iff hxs, fun g e => hcollects xs g hxs e⟩,
    fun xs ys g g' hxs hys hp e e' => ?_, fun origin qs m e k g hg => ?_⟩
  · exact (hcollects xs g hxs e).result_eq (hcollects ys g' hys e') hp
  · have hgroup : m.group c k = g := GroupMemory.group_of_some hg
    exact hgroup ▸ ((GroupMemory.grown_empty c).fileAll e).made k

/-- Two members share a value, a third one has the largest value and leaves, and one of the two
hears of a new value. -/
def visits : List Change :=
  [.add [.fact ⟨0, 0⟩] 5, .add [.fact ⟨0, 1⟩] 5, .add [.fact ⟨0, 2⟩] 9, .remove [.fact ⟨0, 2⟩],
    .revalue [.fact ⟨0, 0⟩] 3]

/-- Two tuples with the same key. -/
def filings : List GroupMemory.Filing :=
  [.place [.fact ⟨0, 0⟩] .unit 5, .place [.fact ⟨0, 1⟩] .unit 7]

/-- Sums take values back, and the largest value is looked for twice among those that are left. -/
theorem changes_collect_visits : Proper [] visits ∧
    (∃ g, changeAll .sum visits (empty .sum) = .ok () g ∧ g.result = 8) ∧
    (∃ g, changeAll .max visits (empty .max) = .ok () g ∧ g.result = 5) ∧
    ∃ m g, GroupMemory.fileAll .max 0 filings {} = .ok () m ∧ m.groups[Key.unit]? = some g ∧
      ∃ xs, Proper [] xs ∧ changeAll .max xs (empty .max) = .ok () g := by
  have hproper : Proper [] visits := by decide
  have hsums : (stages [] visits).map (fun r => Collector.sum.collect r.values) =
      [5, 10, 19, 10, 5, 8].map .ok := by decide
  have hsum : Collector.sum.collect (roster visits).values = .ok 8 := by decide
  have hmax : Collector.max.collect (roster visits).values = .ok 5 := by decide
  have hfiled : (match GroupMemory.fileAll .max 0 filings {} with
      | .ok _ m => (m.groups[Key.unit]?).isSome
      | .error _ _ => false) = true := by cbv
  refine ⟨hproper, ?_, ?_, ?_⟩
  · obtain ⟨hok, hcollects⟩ := (changes_collect .sum).1 visits hproper
    obtain ⟨g, e⟩ := hok.2 fun r hr => by
      have hmem := List.mem_map_of_mem (f := fun r => Collector.sum.collect r.values) hr
      rw [hsums, List.mem_map] at hmem
      obtain ⟨n, -, hn⟩ := hmem
      exact ⟨n, hn.symm⟩
    have hresult := (hcollects g e).result
    rw [hsum] at hresult
    exact ⟨g, e, (Except.ok.inj hresult).symm⟩
  · obtain ⟨hok, hcollects⟩ := (changes_collect .max).1 visits hproper
    obtain ⟨g, e⟩ := hok.2 fun r _ => ⟨_, rfl⟩
    have hresult := (hcollects g e).result
    rw [hmax] at hresult
    exact ⟨g, e, (Except.ok.inj hresult).symm⟩
  · cases e : GroupMemory.fileAll .max 0 filings {} with
    | error f m =>
      rw [e] at hfiled
      cases hfiled
    | ok _ m =>
      rw [e] at hfiled
      obtain ⟨g, hg⟩ := Option.isSome_iff_exists.1 hfiled
      exact ⟨m, g, rfl, hg, (changes_collect .max).2.2 0 filings m e .unit g hg⟩

end Group

end PlanSearch
