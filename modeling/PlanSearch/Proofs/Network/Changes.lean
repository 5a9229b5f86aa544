import PlanSearch.Proofs.Network.Strains

/-!
# Changes of a group

A group gains members, loses them, and hears of new values. Its accumulator follows the changes one
by one, and it is rebuilt where it cannot take a value back. A roster is the list of members and
values that the changes add up to. Whatever the changes were, the result of the group is what its
collector makes of the values in the roster at once.

    Holds c l g → c.collect l.values = .ok g.result                              (Holds.collects)
    Holds c l g → Proper l xs → changeAll c xs g = .ok () g' →
      Holds c (xs.foldl Change.follow l) g'                                     (Holds.changeAll)
    … → (changeAll c xs g succeeds ↔ all rosters on the way can be collected)
                                                                       (Holds.changeAll_eq_ok_iff)
-/

namespace PlanSearch

open Std (HashMap)
open Step (Fails)

theorem Collector.collect_eq_error {c : Collector} {vs : List Int64} {f : Fault}
    (e : c.collect vs = .error f) : f = .overflow := by
  cases c with
  | count | sum => exact Checked.fit_eq_error e
  | countDistinct | min | max => cases e

/-! ## Rosters -/

/-- The members of a group with their values, the latest first. -/
abbrev Roster : Type := List (TupleId × Int64)

namespace Roster

def values (l : Roster) : List Int64 := l.map (·.2)

def without (l : Roster) (i : TupleId) : Roster := l.filter (·.1 ≠ i)

variable {l : Roster} {i j : TupleId} {v : Int64}

theorem mem_without : (j, v) ∈ l.without i ↔ (j, v) ∈ l ∧ j ≠ i := by
  simp [without]

theorem notMem_without (l : Roster) (i : TupleId) : i ∉ (l.without i).map (·.1) := by
  simp [without]

theorem nodup_without (h : (l.map (·.1)).Nodup) (i : TupleId) : ((l.without i).map (·.1)).Nodup :=
  (List.filter_sublist.map _).nodup h

end Roster

namespace Group

/-! ## Changes -/

/-- What happens to a group. -/
inductive Change where
  | add (id : TupleId) (value : Int64)
  | remove (id : TupleId)
  | revalue (id : TupleId) (value : Int64)
  deriving DecidableEq, Repr

namespace Change

/-- A new value takes the place of the old one; nothing is done where it is the old one. -/
def apply (c : Collector) : Change → Step Group Unit
  | .add i v => Group.add i v
  | .remove i => Group.remove c i
  | .revalue i v => fun g =>
    if g.values[i]? = some v then .ok () g else (do Group.remove c i; Group.add i v) g

/-- The roster after the change. -/
def follow (l : Roster) : Change → Roster
  | .add i v => (i, v) :: l
  | .remove i => l.without i
  | .revalue i v => (i, v) :: l.without i

/-- A tuple that is added while it is a member would be counted twice. -/
def Proper (l : Roster) : Change → Prop
  | .add i _ => i ∉ l.map (·.1)
  | .remove _ | .revalue _ _ => True

/-- The rosters that the change leads through. -/
def stages (l : Roster) : Change → List Roster
  | .add i v => [(i, v) :: l]
  | .remove i => [l.without i]
  | .revalue i v => if (i, v) ∈ l then [] else [l.without i, (i, v) :: l.without i]

instance (l : Roster) : (x : Change) → Decidable (x.Proper l)
  | .add i _ => inferInstanceAs (Decidable (i ∉ l.map (·.1)))
  | .remove _ | .revalue _ _ => inferInstanceAs (Decidable True)

end Change

/-- Makes the changes one after another. -/
def changeAll (c : Collector) : List Change → Step Group Unit
  | [] => pure ()
  | x :: xs => do x.apply c; changeAll c xs

/-- The roster that the changes add up to. -/
def roster (xs : List Change) : Roster := xs.foldl Change.follow []

/-- Each of the changes is proper when it is made. -/
def Proper : Roster → List Change → Prop
  | _, [] => True
  | l, x :: xs => x.Proper l ∧ Proper (x.follow l) xs

/-- The rosters that the changes lead through. -/
def stages : Roster → List Change → List Roster
  | _, [] => []
  | l, x :: xs => x.stages l ++ stages (x.follow l) xs

instance decidableProper : (l : Roster) → (xs : List Change) → Decidable (Proper l xs)
  | _, [] => inferInstanceAs (Decidable True)
  | l, x :: xs =>
    have := decidableProper (x.follow l) xs
    inferInstanceAs (Decidable (x.Proper l ∧ Proper (x.follow l) xs))

variable {c : Collector} {l : Roster} {g g' : Group} {i : TupleId} {v : Int64} {x : Change}
  {xs ys : List Change}

theorem changeAll_append (xs ys : List Change) :
    changeAll c (xs ++ ys) = (do changeAll c xs; changeAll c ys) := by
  induction xs with
  | nil => rfl
  | cons x xs ih =>
    show (x.apply c >>= fun _ => changeAll c (xs ++ ys)) = _
    rw [ih]
    exact (bind_assoc (x.apply c) (fun _ => changeAll c xs) fun _ => changeAll c ys).symm

theorem proper_append :
    Proper l (xs ++ ys) ↔ Proper l xs ∧ Proper (xs.foldl Change.follow l) ys := by
  induction xs generalizing l with
  | nil => exact ⟨fun h => ⟨trivial, h⟩, And.right⟩
  | cons x xs ih =>
    show x.Proper l ∧ Proper (x.follow l) (xs ++ ys) ↔ _
    rw [ih, ← and_assoc]
    rfl

/-! ## Groups and rosters -/

/-- The group has the members and the values of the roster, and its accumulator stands for them. -/
structure Holds (c : Collector) (l : Roster) (g : Group) : Prop where
  entry : ∀ i v, g.values[i]? = some v ↔ (i, v) ∈ l
  distinct : (l.map (·.1)).Nodup
  sound : g.Sound c

theorem holds_empty (c : Collector) : Holds c [] (empty c) where
  entry i v := by simp [empty]
  distinct := .nil
  sound := sound_empty c

namespace Holds

theorem getElem?_eq_none_iff (h : Holds c l g) : g.values[i]? = none ↔ i ∉ l.map (·.1) := by
  simp [Option.eq_none_iff_forall_ne_some, h.entry]

theorem toList_perm (h : Holds c l g) : g.values.toList.Perm l := by
  rw [List.perm_ext_iff_of_nodup (nodup_toList _) h.distinct.of_map]
  rintro ⟨i, v⟩
  rw [HashMap.mem_toList_iff_getElem?_eq_some, h.entry]

theorem represents (h : Holds c l g) : g.accumulator.Represents c l.values :=
  h.sound.perm (h.toList_perm.map (·.2))

theorem others_perm (h : Holds c l g) (i : TupleId) : (g.others i).Perm (l.without i).values := by
  refine List.Perm.map _ ?_
  rw [List.perm_ext_iff_of_nodup (nodup_toList _) (Roster.nodup_without h.distinct i).of_map]
  rintro ⟨j, v⟩
  rw [HashMap.mem_toList_iff_getElem?_eq_some, getElem?_erase_ite, Roster.mem_without, ← h.entry]
  by_cases hj : j = i <;> simp [hj]

theorem add (h : Holds c l g) (hi : i ∉ l.map (·.1)) (e : Group.add i v g = .ok () g') :
    Holds c ((i, v) :: l) g' := by
  obtain ⟨hsound, hvalues⟩ := h.sound.add (h.getElem?_eq_none_iff.2 hi) e
  refine ⟨fun j w => ?_, List.nodup_cons.2 ⟨hi, h.distinct⟩, hsound⟩
  rw [hvalues, List.mem_cons, Prod.mk.injEq]
  by_cases hj : j = i
  · subst hj
    have hnone : (j, w) ∉ l := fun hw => hi (List.mem_map_of_mem hw)
    simp [hnone, eq_comm]
  · simp [hj, h.entry]

theorem remove (h : Holds c l g) (e : Group.remove c i g = .ok () g') :
    Holds c (l.without i) g' := by
  obtain ⟨hsound, hvalues⟩ := h.sound.remove e
  refine ⟨fun j w => ?_, Roster.nodup_without h.distinct i, hsound⟩
  rw [hvalues, Roster.mem_without, ← h.entry]
  by_cases hj : j = i <;> simp [hj]

/-- A value that a member has already can be entered again. -/
theorem again (h : Holds c l g) (hv : g.values[i]? = some v) :
    Holds c ((i, v) :: l.without i) g := by
  refine ⟨fun j w => ?_, List.nodup_cons.2 ⟨l.notMem_without i, Roster.nodup_without h.distinct i⟩,
    h.sound⟩
  rw [List.mem_cons, Prod.mk.injEq, Roster.mem_without, ← h.entry]
  by_cases hj : j = i
  · subst hj
    simp [hv, eq_comm]
  · simp [hj]

theorem apply (h : Holds c l g) (hx : x.Proper l) (e : x.apply c g = .ok () g') :
    Holds c (x.follow l) g' := by
  cases x with
  | add i v => exact h.add hx e
  | remove i => exact h.remove e
  | revalue i v =>
    unfold Change.apply at e
    dsimp only at e
    split at e
    · next hv =>
      cases e
      exact h.again hv
    · obtain ⟨_, g₁, hremove, hadd⟩ := Step.bind_eq_ok e
      exact (h.remove hremove).add (l.notMem_without i) hadd

theorem changeAll (h : Holds c l g) (hxs : Proper l xs) (e : Group.changeAll c xs g = .ok () g') :
    Holds c (xs.foldl Change.follow l) g' := by
  induction xs generalizing l g with
  | nil =>
    cases e
    exact h
  | cons x xs ih =>
    obtain ⟨_, g₁, hx, hrest⟩ := Step.bind_eq_ok e
    exact ih (h.apply hxs.1 hx) hxs.2 hrest

/-! ## Faults -/

theorem add_fails_iff (h : Holds c l g) : Fails (Group.add i v) g ↔
    c.collect (Roster.values ((i, v) :: l)) = .error .overflow := by
  rw [h.sound.add_fails_iff, Accumulator.collect_perm ((h.toList_perm.map (·.2)).cons v)]
  rfl

theorem remove_fails_iff (h : Holds c l g) : Fails (Group.remove c i) g ↔
    c.collect (l.without i).values = .error .overflow := by
  rw [h.sound.remove_fails_iff, Accumulator.collect_perm (h.others_perm i)]

theorem apply_fails_iff (h : Holds c l g) : Fails (x.apply c) g ↔
    ∃ r ∈ x.stages l, c.collect r.values = .error .overflow := by
  cases x with
  | add i v =>
    show Fails (Group.add i v) g ↔ ∃ r ∈ [(i, v) :: l], _
    rw [h.add_fails_iff]
    simp
  | remove i =>
    show Fails (Group.remove c i) g ↔ ∃ r ∈ [l.without i], _
    rw [h.remove_fails_iff]
    simp
  | revalue i v =>
    show _ ↔ ∃ r ∈ if (i, v) ∈ l then [] else [l.without i, (i, v) :: l.without i], _
    -- The same value asks nothing of the accumulator, so no roster lies on the way.
    by_cases hv : g.values[i]? = some v
    · have hok : Change.apply c (.revalue i v) g = .ok () g := if_pos hv
      rw [if_pos ((h.entry i v).1 hv)]
      simp [Fails, hok]
    · have hrun : Change.apply c (.revalue i v) g = (do Group.remove c i; Group.add i v) g :=
        if_neg hv
      rw [if_neg (mt (h.entry i v).2 hv), Step.fails_congr hrun,
        Step.fails_bind_iff h.remove_fails_iff fun _ _ hremove =>
          (h.remove hremove).add_fails_iff]
      simp

theorem changeAll_fails_iff (h : Holds c l g) (hxs : Proper l xs) :
    Fails (Group.changeAll c xs) g ↔
      ∃ r ∈ Group.stages l xs, c.collect r.values = .error .overflow := by
  induction xs generalizing l g with
  | nil => simp [Group.stages, Group.changeAll, Step.not_fails_pure]
  | cons x xs ih =>
    have hrun : Fails (Group.changeAll c (x :: xs)) g ↔
        (∃ r ∈ x.stages l, c.collect r.values = .error .overflow) ∨
          ∃ r ∈ Group.stages (x.follow l) xs, c.collect r.values = .error .overflow :=
      Step.fails_bind_iff h.apply_fails_iff fun _ _ hx => ih (h.apply hxs.1 hx) hxs.2
    rw [hrun]
    simp only [Group.stages, List.mem_append, or_and_right, exists_or]

/-- The changes succeed just where all rosters on the way can be collected. -/
theorem changeAll_eq_ok_iff (h : Holds c l g) (hxs : Proper l xs) :
    (∃ g', Group.changeAll c xs g = .ok () g') ↔
      ∀ r ∈ Group.stages l xs, ∃ n, c.collect r.values = .ok n := by
  have hfails := h.changeAll_fails_iff hxs
  constructor
  · rintro ⟨g', e⟩ r hr
    cases hc : c.collect r.values with
    | ok n => exact ⟨n, rfl⟩
    | error f =>
      obtain ⟨f', t, e'⟩ := hfails.2 ⟨r, hr, Collector.collect_eq_error hc ▸ hc⟩
      rw [e] at e'
      cases e'
  · intro hfits
    cases e : Group.changeAll c xs g with
    | ok _ g' => exact ⟨g', rfl⟩
    | error f g' =>
      obtain ⟨r, hr, hoverflow⟩ := hfails.1 ⟨f, g', e⟩
      obtain ⟨n, hn⟩ := hfits r hr
      rw [hoverflow] at hn
      cases hn

end Holds

/-! ## Results -/

/-- The group has just the members of the roster, and the result that its collector makes of their
values at once, as has any accumulator that is built from these values anew. Where values are
counted, a value that is there has the number of its members, which is never zero: taking one of
them back does not lead below zero. -/
structure Collects (c : Collector) (l : Roster) (g : Group) : Prop where
  members : g.values.toList.Perm l
  result : c.collect l.values = .ok g.result
  rebuilt : ∀ vs acc, vs.Perm l.values → Accumulator.ofValues c vs = .ok acc →
    acc.result = g.result
  occurrences : ∀ seen, g.accumulator = .distinct seen → ∀ (v : Int64) (n : Nat),
    seen[v]? = some n ↔ 0 < n ∧ n = l.values.count v

theorem Holds.collects (h : Holds c l g) : Collects c l g where
  members := h.toList_perm
  result := h.represents.collect
  rebuilt vs acc hvs hacc := by
    have hrebuilt := (Accumulator.represents_ofValues hacc).collect
    rw [Accumulator.collect_perm hvs, h.represents.collect] at hrebuilt
    exact (Except.ok.inj hrebuilt).symm
  occurrences seen hseen v n := by
    have hr := h.represents
    rw [hseen] at hr
    cases hr with
    | distinct hcount =>
      rw [hcount v]
      split
      · next hv =>
        have := List.count_pos_iff.2 hv
        rw [Option.some.injEq]
        omega
      · next hv =>
        have := List.count_eq_zero.2 hv
        constructor
        · exact nofun
        · omega

/-- The result depends on the values only. -/
theorem Collects.result_eq {l' : Roster} (h : Collects c l g) (h' : Collects c l' g')
    (hp : l.values.Perm l'.values) : g.result = g'.result := by
  have hresult := h.result
  rw [Accumulator.collect_perm hp, h'.result] at hresult
  exact (Except.ok.inj hresult).symm

/-- The group came about by proper changes of an empty one. -/
def Made (c : Collector) (g : Group) : Prop :=
  ∃ xs, Proper [] xs ∧ changeAll c xs (empty c) = .ok () g

namespace Made

theorem empty (c : Collector) : Made c (Group.empty c) := ⟨[], trivial, rfl⟩

theorem holds (h : Made c g) : ∃ l, Holds c l g := by
  obtain ⟨xs, hxs, e⟩ := h
  exact ⟨_, (holds_empty c).changeAll hxs e⟩

theorem sound (h : Made c g) : g.Sound c := by
  obtain ⟨l, hl⟩ := h.holds
  exact hl.sound

theorem apply (h : Made c g) (hx : ∀ l, Holds c l g → x.Proper l)
    (e : x.apply c g = .ok () g') : Made c g' := by
  obtain ⟨xs, hxs, hmade⟩ := h
  have hholds : Holds c (roster xs) g := (holds_empty c).changeAll hxs hmade
  refine ⟨xs ++ [x], proper_append.2 ⟨hxs, hx _ hholds, trivial⟩, ?_⟩
  rw [changeAll_append, Step.bind_ok hmade]
  exact Step.bind_ok e

theorem add (h : Made c g) (hi : g.values[i]? = none) (e : Group.add i v g = .ok () g') :
    Made c g' :=
  h.apply (x := .add i v) (fun _ hl => hl.getElem?_eq_none_iff.1 hi) e

theorem remove (h : Made c g) (e : Group.remove c i g = .ok () g') : Made c g' :=
  h.apply (x := .remove i) (fun _ _ => trivial) e

end Made

end Group

end PlanSearch
