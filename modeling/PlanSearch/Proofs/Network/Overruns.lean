import PlanSearch.Proofs.Network.Group

/-!
# Why groups overflow

A group node fails on its own account only by counting or summing. It then held values, or would
hold them in a moment, that its collector makes nothing of: their number or their sum does not fit.
These are values of different live tuples, as they were answered last.

    m.Tracks … → place c origin t.id k v m = .error f m' →
      ∃ members, Overrun … (input.hear (.insert t)) members             (Tracks.overrun_place)
-/

namespace PlanSearch

open Std (HashMap)

variable {S : Type} {before now : S} {c : Collector} {f : Fault}

/-! ## Accumulators -/

namespace Accumulator

open Checked (map_eq_error)

variable {acc : Accumulator} {vs ws : List Int64} {v : Int64}

/-- One value more cannot be collected where it cannot be added. -/
theorem Represents.overruns_add (r : Represents c acc vs) (e : acc.add v = .error f) :
    c.collect (v :: vs) = .error .overflow := by
  cases r with
  | @count n _ h =>
    have hfits := (Checked.fit_eq_error_iff.1 (map_eq_error e)).2
    refine Checked.fit_eq_error_iff.2 ⟨rfl, ?_⟩
    rwa [List.length_cons, Nat.cast_add, ← h]
  | @sum n _ h =>
    have hfits := (Checked.fit_eq_error_iff.1 (map_eq_error e)).2
    refine Checked.fit_eq_error_iff.2 ⟨rfl, ?_⟩
    rwa [List.map_cons, List.sum_cons, add_comm, ← h]
  | distinct h => cases e
  | least h => cases e
  | greatest h => cases e

/-- The other values cannot be collected where one cannot be taken back. -/
theorem Represents.overruns_remove (r : Represents c acc (v :: vs))
    (e : acc.remove? v = .error f) : c.collect vs = .error .overflow := by
  cases r with
  | @count n _ h =>
    have hfits := (Checked.fit_eq_error_iff.1 (map_eq_error e)).2
    refine Checked.fit_eq_error_iff.2 ⟨rfl, ?_⟩
    rwa [h, List.length_cons, Nat.cast_add, show (1 : Int64).toInt = 1 from rfl, Nat.cast_one,
      add_sub_cancel_right] at hfits
  | @sum n _ h =>
    have hfits := (Checked.fit_eq_error_iff.1 (map_eq_error e)).2
    refine Checked.fit_eq_error_iff.2 ⟨rfl, ?_⟩
    rwa [h, List.map_cons, List.sum_cons, add_sub_cancel_left] at hfits
  | distinct h =>
    simp only [remove?] at e
    split at e <;> cases e
  | least h => cases e
  | greatest h => cases e

/-- What has to be rebuilt is an extremum, which any values have. -/
theorem Represents.collect_of_rebuilt (r : Represents c acc vs) (e : acc.remove? v = .ok none)
    (ws : List Int64) : ∃ n, c.collect ws = .ok n := by
  cases r with
  | least h => exact ⟨_, rfl⟩
  | greatest h => exact ⟨_, rfl⟩
  | distinct h =>
    simp only [remove?] at e
    split at e <;> cases e
  | count h =>
    obtain ⟨m, -, hm⟩ := Checked.map_eq_ok e
    cases hm
  | sum h =>
    obtain ⟨m, -, hm⟩ := Checked.map_eq_ok e
    cases hm

theorem Represents.overruns_foldlM (r : Represents c acc vs)
    (e : ws.foldlM (fun acc value => Accumulator.add value acc) acc = .error f) :
    ∃ us, c.collect us = .error .overflow := by
  induction ws generalizing acc vs with
  | nil => cases e
  | cons v ws ih =>
    rw [List.foldlM_cons] at e
    rcases Checked.bind_eq_error e with hv | ⟨next, hnext, hrest⟩
    · exact ⟨_, r.overruns_add hv⟩
    · exact ih (r.add hnext) hrest

end Accumulator

/-! ## One group -/

namespace Group

variable {g g' : Group} {i : TupleId} {v : Int64}

theorem Sound.overruns_add (h : g.Sound c) (e : Group.add i v g = .error f g') :
    c.collect (v :: g.values.toList.map (·.2)) = .error .overflow := by
  unfold Group.add at e
  split at e
  · next ha => exact Accumulator.Represents.overruns_add h ha
  · cases e

theorem Sound.overruns_remove (h : g.Sound c) (e : Group.remove c i g = .error f g') :
    c.collect ((g.values.erase i).toList.map (·.2)) = .error .overflow := by
  unfold Group.remove at e
  split at e
  · cases e
  · next v hi =>
    have hv := h.split hi
    dsimp only at e
    split at e
    · next ha => exact hv.overruns_remove ha
    · cases e
    · next hnone =>
      split at e
      · next ha =>
        obtain ⟨us, hus⟩ := (Accumulator.Represents.empty c).overruns_foldlM ha
        obtain ⟨n, hn⟩ := hv.collect_of_rebuilt hnone us
        rw [hus] at hn
        cases hn
      · cases e

end Group

/-! ## All groups -/

namespace GroupMemory

variable {answer : S → Tuple → Checked (Key × Int64)} {origin : Nat} {m m' : GroupMemory}
  {input output : Feed} {t : Tuple} {k : Key} {v w : Int64} {i j : TupleId} {g g' : Group}
  {members : List (TupleId × Int64)}

/-- Different live tuples have these values, which the collector makes nothing of. -/
structure Overrun (answer : S → Tuple → Checked (Key × Int64)) (c : Collector) (before now : S)
    (input : Feed) (members : List (TupleId × Int64)) : Prop where
  nodup : (members.map (·.1)).Nodup
  answered : ∀ i v, (i, v) ∈ members →
    ∃ t k, input.live i = some t ∧ Answers answer before now input t (k, v)
  collect : c.collect (members.map (·.2)) = .error .overflow

/-- The members of a group are live, and have the values that are filed. -/
theorem Tracks.answered (h : Tracks answer c before now origin m input output)
    (hg : m.groups[k]? = some g) (hv : g.values[i]? = some v) :
    m.members[i]? = some k ∧ ∃ t, input.live i = some t ∧
      Answers answer before now input t (k, v) := by
  have hfiled : m.filed? k i = some v := (filed?_of_group hg i).trans hv
  have hmemo := h.memo?_eq_some.2 hfiled
  obtain ⟨t, ht⟩ := h.recalls.live_isSome hmemo
  obtain ⟨a, ha, hans⟩ := h.recalls.present i t ht
  rw [hmemo] at ha
  cases ha
  exact ⟨(h.member i k).2 ⟨v, hfiled⟩, t, ht, hans⟩

/-- What is wrong without `t` is wrong with it. -/
theorem Overrun.insert
    (h : Overrun answer c before now (input.hear (.retract t.id)) members) :
    Overrun answer c before now (input.hear (.insert t)) members where
  nodup := h.nodup
  answered i v hi := by
    obtain ⟨u, k, hu, hans⟩ := h.answered i v hi
    have hne : i ≠ t.id := by
      rintro rfl
      rw [Feed.live_hear_retract] at hu
      cases hu
    rw [Feed.live_hear_of_ne hne] at hu
    exact ⟨u, k, (Feed.live_hear_of_ne hne).trans hu, hans⟩
  collect := h.collect

theorem Tracks.overrun_remove (h : Tracks answer c before now origin m input output)
    (hg : m.groups[k]? = some g) (e : Group.remove c j g = .error f g') :
    ∃ members, Overrun answer c before now (input.hear (.retract j)) members := by
  refine ⟨(g.values.erase j).toList, ?_, fun i v hi => ?_, (h.sound k g hg).overruns_remove e⟩
  · rw [HashMap.map_fst_toList_eq_keys]
    exact HashMap.nodup_keys
  · rw [HashMap.mem_toList_iff_getElem?_eq_some, getElem?_erase_ite] at hi
    split at hi
    · cases hi
    · next hij =>
      obtain ⟨-, t, ht, hans⟩ := h.answered hg hi
      refine ⟨t, k, (Feed.live_hear_of_ne hij).trans ht, hans.hear ?_⟩
      rw [h.recalls.keyed i t ht]
      exact hij

theorem Tracks.overrun_add (h : Tracks answer c before now origin m input output)
    (ha : answer now t = .ok (k, v)) (hsound : g.Sound c)
    (hvalues : ∀ i w, g.values[i]? = some w → i ≠ t.id ∧ ∃ u, input.live i = some u ∧
      Answers answer before now input u (k, w))
    (e : Group.add t.id v g = .error f g') :
    ∃ members, Overrun answer c before now (input.hear (.insert t)) members := by
  refine ⟨(t.id, v) :: g.values.toList, ?_, fun i w hi => ?_, hsound.overruns_add e⟩
  · rw [List.map_cons, List.nodup_cons, HashMap.map_fst_toList_eq_keys]
    refine ⟨fun ht => ?_, HashMap.nodup_keys⟩
    rw [HashMap.mem_keys] at ht
    exact (hvalues t.id _ (HashMap.getElem?_eq_some_getElem ht)).1 rfl
  · rcases List.mem_cons.1 hi with hi | hi
    · cases hi
      exact ⟨t, k, input.live_hear_insert t, .inl ha⟩
    · rw [HashMap.mem_toList_iff_getElem?_eq_some] at hi
      obtain ⟨hne, u, hu, hans⟩ := hvalues i w hi
      refine ⟨u, k, (Feed.live_hear_of_ne hne).trans hu, hans.hear ?_⟩
      rw [h.recalls.keyed i u hu]
      exact hne

theorem within_eq_error {change : Step Group Unit} (e : within origin k g change m = .error f m') :
    ∃ g', change g = .error f g' := by
  unfold within at e
  split at e
  · next g' hg =>
    cases e
    exact ⟨g', hg⟩
  · cases e

theorem Tracks.overrun_insert (h : Tracks answer c before now origin m input output)
    (ha : answer now t = .ok (k, v)) (hnew : m.members[t.id]? = none)
    (e : GroupMemory.insert c origin t.id k v m = .error f m') :
    ∃ members, Overrun answer c before now (input.hear (.insert t)) members := by
  unfold GroupMemory.insert at e
  dsimp only at e
  split at e
  · next g hg =>
    obtain ⟨g', hadd⟩ := within_eq_error e
    refine h.overrun_add ha (h.sound k g hg) (fun i w hi => ?_) hadd
    obtain ⟨hmember, hans⟩ := h.answered hg hi
    refine ⟨?_, hans⟩
    rintro rfl
    rw [hnew] at hmember
    cases hmember
  · split at e
    · next hadd =>
      refine h.overrun_add ha (Group.sound_empty c) (fun i w hi => ?_) hadd
      simp [Group.empty] at hi
    · cases e

theorem Tracks.overrun_revalue (h : Tracks answer c before now origin m input output)
    (ha : answer now t = .ok (k, v)) (e : GroupMemory.revalue c origin t.id k v m = .error f m') :
    ∃ members, Overrun answer c before now (input.hear (.insert t)) members := by
  unfold GroupMemory.revalue at e
  split at e
  · cases e
  · next g hg =>
    split at e
    · cases e
    · obtain ⟨g', hchange⟩ := within_eq_error e
      rcases Step.bind_eq_error hchange with hremove | ⟨_, g₁, hremove, hadd⟩
      · obtain ⟨members, hmembers⟩ := h.overrun_remove hg hremove
        exact ⟨members, hmembers.insert⟩
      · obtain ⟨hsound, hvalues⟩ := (h.sound k g hg).remove hremove
        refine h.overrun_add ha hsound (fun i w hi => ?_) hadd
        rw [hvalues] at hi
        split at hi
        · cases hi
        · next hne => exact ⟨hne, (h.answered hg hi).2⟩

theorem Tracks.overrun_retract (h : Tracks answer c before now origin m input output)
    (e : GroupMemory.retract c origin j m = .error f m') :
    ∃ members, Overrun answer c before now (input.hear (.retract j)) members := by
  unfold GroupMemory.retract at e
  split at e
  · cases e
  · dsimp only at e
    split at e
    · cases e
    · next g hg =>
      split at e
      · next hremove => exact h.overrun_remove hg hremove
      · split at e <;> cases e

theorem Tracks.overrun_place (h : Tracks answer c before now origin m input output)
    (ha : answer now t = .ok (k, v)) (e : GroupMemory.place c origin t.id k v m = .error f m') :
    ∃ members, Overrun answer c before now (input.hear (.insert t)) members := by
  unfold GroupMemory.place at e
  rw [Step.get_bind] at e
  cases hmem : m.members[t.id]? with
  | none =>
    rw [hmem] at e
    exact h.overrun_insert ha hmem e
  | some old =>
    rw [hmem] at e
    dsimp only at e
    split at e
    · exact h.overrun_revalue ha e
    · rcases Step.bind_eq_error e with hretract | ⟨gone, m₁, hretract, e⟩
      · obtain ⟨members, hmembers⟩ := h.overrun_retract hretract
        exact ⟨members, hmembers.insert⟩
      · obtain ⟨h₁, hnew⟩ := h.retract t.id hretract
        rcases Step.bind_eq_error e with hinsert | ⟨new, m₂, -, e⟩
        · obtain ⟨members, hmembers⟩ := h₁.overrun_insert ha hnew hinsert
          rw [Feed.hear_hear_of_id_eq (d := .retract t.id) (e := .insert t) rfl] at hmembers
          exact ⟨members, hmembers⟩
        · cases e

end GroupMemory

end PlanSearch
