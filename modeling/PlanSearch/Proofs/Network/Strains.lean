import PlanSearch.Proofs.Network.Views

/-!
# Why stations overflow

The score from scratch adds up what the matches come to now. Settling gets there from what they came
to before, and on its way it forms numbers that the score from scratch never meets: how much more a
match comes to than before, a total of some matches as they were and others as they are, the sum of
a group without one of its members. A station strains at a delta if a number that it forms on it
does not fit. As long as the problem's functions answer, that is the only way in which it fails.

    Fails (place c origin i k v) m ↔ m.Strains c i (some (k, v))           (Tracks.place_fails_iff)
    Fails (step now origin s d score) station ↔ station.Strains now score d
                                                                    (Tracks.step_fails_iff_strains)
-/

namespace PlanSearch

open Std (HashMap)
open Checked (Fits)
open Step (Fails)

variable {S : Type} {sh : Shape} {before now : S} {origin : Nat} {c : Collector}

/-! ## One group -/

namespace Group

variable {g g' : Group} {i : TupleId} {v : Int64}

/-- The values of the members but `i`. -/
def others (g : Group) (i : TupleId) : List Int64 := (g.values.erase i).toList.map (·.2)

theorem others_of_none (hi : g.values[i]? = none) :
    (g.others i).Perm (g.values.toList.map (·.2)) :=
  (toList_erase_of_none hi).map _

/-- Whatever becomes of the accumulator, a removal leaves the other values. -/
theorem others_of_remove (e : Group.remove c i g = .ok () g') :
    (g.others i).Perm (g'.values.toList.map (·.2)) := by
  unfold Group.remove at e
  split at e
  · next hi =>
    cases e
    exact others_of_none hi
  · dsimp only at e
    split at e
    · cases e
    · cases e
      exact .refl _
    · split at e
      · cases e
      · cases e
        exact .refl _

theorem Sound.add_fails_iff (h : g.Sound c) : Fails (Group.add i v) g ↔
    c.collect (v :: g.values.toList.map (·.2)) = .error .overflow := by
  constructor
  · rintro ⟨f, g', e⟩
    exact h.overruns_add e
  · intro hc
    cases e : Group.add i v g with
    | error f g' => exact ⟨f, g', e⟩
    | ok u g' =>
      unfold Group.add at e
      split at e
      · cases e
      · next acc ha =>
        rw [(Accumulator.Represents.add h ha).collect] at hc
        cases hc

theorem Sound.remove_fails_iff (h : g.Sound c) : Fails (Group.remove c i) g ↔
    c.collect (g.others i) = .error .overflow := by
  constructor
  · rintro ⟨f, g', e⟩
    exact h.overruns_remove e
  · intro hc
    cases e : Group.remove c i g with
    | error f g' => exact ⟨f, g', e⟩
    | ok u g' =>
      rw [Accumulator.collect_perm (others_of_remove e), (h.remove e).1.collect] at hc
      cases hc

end Group

/-! ## All groups -/

namespace GroupMemory

variable {answer : S → Tuple → Checked (Key × Int64)} {m m' : GroupMemory} {input output : Feed}
  {k : Key} {v w : Int64} {i : TupleId} {g : Group}

/-- The values in the group `k` of the members but `i`. -/
def others (m : GroupMemory) (k : Key) (i : TupleId) : List Int64 :=
  (m.groups[k]?).elim [] (·.others i)

/-- The member `i` is to be filed in another way, and without it the group that it was in cannot be
collected, or with it the one that it comes to be in. -/
def Strains (m : GroupMemory) (c : Collector) (i : TupleId) (entry : Option (Key × Int64)) : Prop :=
  m.memo? i ≠ entry ∧
    ((∃ k v, m.memo? i = some (k, v) ∧ c.collect (m.others k i) = .error .overflow) ∨
      ∃ k v, entry = some (k, v) ∧ c.collect (v :: m.others k i) = .error .overflow)

theorem others_of_group (hg : m.groups[k]? = some g) (i : TupleId) :
    m.others k i = g.others i := by
  unfold others
  rw [hg]
  rfl

theorem memo?_of_none (hi : m.members[i]? = none) : m.memo? i = none := by
  unfold memo?
  rw [hi]
  rfl

theorem within_fails_iff {change : Step Group Unit} :
    Fails (within origin k g change) m ↔ Fails change g := by
  unfold Fails within
  cases change g <;> simp

theorem Tracks.insert_fails_iff (h : Tracks answer c before now origin m input output)
    (hnew : m.members[i]? = none) : Fails (GroupMemory.insert c origin i k v) m ↔
      c.collect (v :: m.others k i) = .error .overflow := by
  cases hg : m.groups[k]? with
  | some g =>
    have hi : g.values[i]? = none := by
      rw [← filed?_of_group hg, Option.eq_none_iff_forall_ne_some]
      intro w hw
      have hmember := (h.member i k).2 ⟨w, hw⟩
      rw [hnew] at hmember
      cases hmember
    have hwithin : Fails (GroupMemory.insert c origin i k v) m ↔ Fails (Group.add i v) g := by
      unfold GroupMemory.insert
      unfold Fails
      simp only [hg]
      exact within_fails_iff
    rw [hwithin, (h.sound k g hg).add_fails_iff, others_of_group hg,
      Accumulator.collect_perm ((Group.others_of_none hi).cons v)]
  | none =>
    have hadd : Fails (GroupMemory.insert c origin i k v) m ↔
        Fails (Group.add i v) (Group.empty c) := by
      unfold Fails GroupMemory.insert
      simp only [hg]
      cases Group.add i v (Group.empty c) <;> simp
    rw [hadd, (Group.sound_empty c).add_fails_iff]
    unfold others Group.empty
    rw [hg, HashMap.toList_empty]
    rfl

theorem Tracks.revalue_fails_iff (h : Tracks answer c before now origin m input output)
    (hw : m.filed? k i = some w) : Fails (GroupMemory.revalue c origin i k v) m ↔
      w ≠ v ∧ (c.collect (m.others k i) = .error .overflow ∨
        c.collect (v :: m.others k i) = .error .overflow) := by
  cases hg : m.groups[k]? with
  | none =>
    rw [filed?_of_none hg] at hw
    cases hw
  | some g =>
    have hi := (filed?_of_group hg i).symm.trans hw
    have hsound := h.sound k g hg
    by_cases hwv : w = v
    · have hok : GroupMemory.revalue c origin i k v m = .ok [] m := by
        unfold GroupMemory.revalue
        simp only [hg, hi, hwv, if_true]
      unfold Fails
      simp [hok, hwv]
    · have hwithin : Fails (GroupMemory.revalue c origin i k v) m ↔
          Fails (do Group.remove c i; Group.add i v) g := by
        have hne : some w ≠ some v := fun e => hwv (Option.some.inj e)
        unfold Fails GroupMemory.revalue
        simp only [hg, hi, hne, if_false]
        exact within_fails_iff
      rw [hwithin, others_of_group hg, and_iff_right hwv]
      refine Step.fails_bind_iff hsound.remove_fails_iff fun _ g' e => ?_
      rw [(hsound.remove e).1.add_fails_iff,
        Accumulator.collect_perm ((Group.others_of_remove e).cons v)]

/-- What is to be taken out is what is filed. -/
theorem Tracks.retract_fails_iff (h : Tracks answer c before now origin m input output) :
    Fails (GroupMemory.retract c origin i) m ↔ m.Strains c i none := by
  cases hmember : m.members[i]? with
  | none =>
    have hmemo := memo?_of_none hmember
    have hok : GroupMemory.retract c origin i m = .ok [] m := by
      unfold GroupMemory.retract
      simp only [hmember]
    unfold Fails Strains
    simp [hok, hmemo]
  | some k =>
    obtain ⟨w, hw⟩ := (h.member i k).1 hmember
    have hmemo := h.memo?_eq_some.2 hw
    cases hg : m.groups[k]? with
    | none =>
      rw [filed?_of_none hg] at hw
      cases hw
    | some g =>
      have hremove : Fails (GroupMemory.retract c origin i) m ↔ Fails (Group.remove c i) g := by
        unfold Fails GroupMemory.retract
        simp only [hmember, hg]
        cases Group.remove c i g with
        | error f g' => simp
        | ok u g' => cases he : g'.values.isEmpty <;> simp [he]
      rw [hremove, (h.sound k g hg).remove_fails_iff]
      unfold Strains
      simp [hmemo, others_of_group hg]

/-- A retraction concerns one group. -/
theorem groups_of_retract {j : TupleId} {old : Key} {out : List Delta}
    (e : GroupMemory.retract c origin j m = .ok out m') (hj : m.members[j]? = some old)
    (hk : k ≠ old) : m'.groups[k]? = m.groups[k]? := by
  unfold GroupMemory.retract at e
  simp only [hj] at e
  split at e
  · cases e
    rfl
  · split at e
    · cases e
    · split at e
      · cases e
        exact (getElem?_erase_ite ..).trans (if_neg hk)
      · cases e
        exact (getElem?_insert_ite ..).trans (if_neg hk)

theorem Tracks.place_fails_iff (h : Tracks answer c before now origin m input output) :
    Fails (GroupMemory.place c origin i k v) m ↔ m.Strains c i (some (k, v)) := by
  cases hmember : m.members[i]? with
  | none =>
    have hplace : GroupMemory.place c origin i k v m = GroupMemory.insert c origin i k v m := by
      unfold GroupMemory.place
      rw [Step.get_bind, hmember]
    have hmemo := memo?_of_none hmember
    rw [Step.fails_congr hplace, h.insert_fails_iff hmember]
    unfold Strains
    simp [hmemo]
  | some old =>
    obtain ⟨w, hw⟩ := (h.member i old).1 hmember
    have hmemo := h.memo?_eq_some.2 hw
    by_cases hold : old = k
    · subst hold
      have hplace : GroupMemory.place c origin i old v m =
          GroupMemory.revalue c origin i old v m := by
        unfold GroupMemory.place
        rw [Step.get_bind, hmember]
        exact congrFun (if_pos rfl) m
      rw [Step.fails_congr hplace, h.revalue_fails_iff hw]
      unfold Strains
      simp [hmemo]
    · have hplace : GroupMemory.place c origin i k v m = (do
          let gone ← GroupMemory.retract c origin i
          let new ← GroupMemory.insert c origin i k v
          return gone ++ new) m := by
        unfold GroupMemory.place
        rw [Step.get_bind, hmember]
        exact congrFun (if_neg hold) m
      have hretract : Fails (GroupMemory.retract c origin i) m ↔
          c.collect (m.others old i) = .error .overflow := by
        rw [h.retract_fails_iff]
        unfold Strains
        simp [hmemo]
      have hstrains : m.Strains c i (some (k, v)) ↔
          c.collect (m.others old i) = .error .overflow ∨
            c.collect (v :: m.others k i) = .error .overflow := by
        unfold Strains
        simp [hmemo, hold]
      rw [Step.fails_congr hplace, hstrains]
      refine Step.fails_bind_iff hretract fun gone m₁ e => ?_
      -- The member is new to its group, which is as it was.
      obtain ⟨h₁, hnew⟩ := h.retract i e
      have hothers : m₁.others k i = m.others k i := by
        unfold others
        rw [groups_of_retract e hmember fun e => hold e.symm]
      rw [← hothers, Step.fails_bind_iff (h₁.insert_fails_iff hnew) fun _ r _ =>
        iff_false_intro (Step.not_fails_pure _ r), or_false]

end GroupMemory

/-! ## Scorers -/

/-- The score after what a station replied. -/
def Reply.enter (score : Score sh) : Reply sh → Checked (Score sh)
  | pass _ => .ok score
  | change d => score.add d

theorem Step.ofChecked_fails_iff {σ α : Type} {x : Checked α} {s : σ} :
    Fails (Step.ofChecked x) s ↔ ∃ f, x = .error f := by
  unfold Fails Step.ofChecked
  cases x <;> simp

namespace ScorerMemory

variable {m : ScorerMemory sh} {score a : Score sh} {i : TupleId} {t : Tuple}

/-- How much more the match `i` comes to on level `l` if it comes to `next`. -/
def rise (m : ScorerMemory sh) (i : TupleId) (next : Nat → Int) (l : Nat) : Int :=
  next l - (m.matched.getD i .zero).level l

/-- The match `i` is to come to `next`, and on some level that, how much more it is than before, or
what the total or the score of all constraints comes to by it does not fit. -/
def Strains (m : ScorerMemory sh) (score : Score sh) (i : TupleId) (next : Nat → Int) : Prop :=
  ∃ l, ¬ Fits (next l) ∨ ¬ Fits (m.rise i next l) ∨ ¬ Fits (m.total.level l + m.rise i next l) ∨
    ¬ Fits (score.level l + m.rise i next l)

theorem shift_fails_iff {d : Score sh} :
    Fails (shift (.ok d)) m ↔ ∃ l, ¬ Fits (m.total.level l + d.level l) := by
  have hadd : Fails (shift (.ok d)) m ↔ ∃ f, m.total.add d = .error f := by
    unfold Fails shift
    dsimp only
    cases m.total.add d <;> simp
  rw [hadd]
  simp only [Score.add_eq_error_iff, exists_eq_left]

/-- A change is entered into the total first, and then into the score of all constraints. -/
theorem shift_enter_fails_iff {change : Checked (Score sh)} {rise : Nat → Int}
    (herror : ∀ f, change = .error f ↔ f = .overflow ∧ ∃ l, ¬ Fits (rise l))
    (hok : ∀ d, change = .ok d → ∀ l, d.level l = rise l) :
    Fails (do let d ← shift change; Step.ofChecked (score.add d)) m ↔
      (∃ l, ¬ Fits (rise l)) ∨ (∃ l, ¬ Fits (m.total.level l + rise l)) ∨
        ∃ l, ¬ Fits (score.level l + rise l) := by
  cases hchange : change with
  | error f =>
    have hrise := ((herror f).1 hchange).2
    exact ⟨fun _ => .inl hrise, fun _ => ⟨f, m, Step.bind_error rfl⟩⟩
  | ok d =>
    have hlevel := hok d hchange
    have hfits : ¬ ∃ l, ¬ Fits (rise l) := fun hrise => by
      have e := (herror .overflow).2 ⟨rfl, hrise⟩
      rw [hchange] at e
      cases e
    rw [or_iff_right hfits]
    refine Step.fails_bind_iff ?_ fun d' m' e => ?_
    · rw [shift_fails_iff]
      simp only [hlevel]
    · obtain rfl : d = d' := Except.ok.inj (shift_eq_ok e).1
      rw [Step.ofChecked_fails_iff]
      simp only [Score.add_eq_error_iff, exists_eq_left, hlevel]

theorem strains_level_iff : m.Strains score i a.level ↔
    (∃ l, ¬ Fits (m.rise i a.level l)) ∨ (∃ l, ¬ Fits (m.total.level l + m.rise i a.level l)) ∨
      ∃ l, ¬ Fits (score.level l + m.rise i a.level l) := by
  unfold Strains
  simp only [exists_or, a.fits_level, not_true_eq_false, false_or]

theorem place_enter_fails_iff :
    Fails (do let d ← place i a; Step.ofChecked (score.add d)) m ↔ m.Strains score i a.level := by
  rw [strains_level_iff]
  exact shift_enter_fails_iff (m := { m with matched := m.matched.insert i a })
    (fun _ => Score.sub_eq_error_iff) fun _ hd => Score.level_sub hd

theorem retract_enter_fails_iff :
    Fails (do let d ← retract i; Step.ofChecked (score.add d)) m ↔
      m.Strains score i fun _ => 0 := by
  have hzero : (fun _ => 0) = (Score.zero : Score sh).level :=
    funext fun l => (Score.level_zero l).symm
  rw [hzero, strains_level_iff]
  cases hi : m.matched[i]? with
  | none =>
    have hretract : retract i m = shift (.ok .zero) m := by
      unfold retract
      simp only [hi]
    have hrise : ∀ l, m.rise i Score.zero.level l = (Score.zero : Score sh).level l := fun l => by
      unfold rise
      rw [HashMap.getD_eq_getD_getElem?, hi, Option.getD_none, Score.level_zero, Int.sub_zero]
    simp only [hrise]
    refine (Step.fails_bind_congr hretract).trans
      (shift_enter_fails_iff (fun f => ?_) fun d hd => ?_)
    · simp [Score.fits_level]
    · cases hd
      exact fun _ => rfl
  | some old =>
    have hretract : retract i m =
        shift old.neg ({ m with matched := m.matched.erase i } : ScorerMemory sh) := by
      unfold retract
      simp only [hi]
    have hrise : ∀ l, m.rise i (Score.zero : Score sh).level l = -old.level l := fun l => by
      unfold rise
      rw [HashMap.getD_eq_getD_getElem?, hi, Option.getD_some, Score.level_zero, Int.zero_sub]
    simp only [hrise]
    exact (Step.fails_bind_congr hretract).trans
      (shift_enter_fails_iff (fun _ => Score.neg_eq_error_iff) fun _ hd => Score.level_neg hd)

/-- The weight of a match may overflow when it is scaled. -/
theorem scoreTuple_enter_fails_iff {weight : Score sh} {matchWeight : S → Tuple → Checked Int64}
    {watched : Bool} {w : Int64} (hw : matchWeight now t = .ok w) :
    Fails (do
      let d ← Station.scoreTuple now weight matchWeight watched t
      Step.ofChecked (score.add d)) m ↔
        m.Strains score t.id fun l => weight.level l * w.toInt := by
  cases hscaled : weight.scaled w with
  | error f =>
    obtain ⟨l, hl⟩ := (Score.scaled_eq_error_iff.1 hscaled).2
    have hfails : Station.scoreTuple now weight matchWeight watched t m =
        .error f (if watched then m.note t w else m) := by
      unfold Station.scoreTuple
      simp only [hw, hscaled]
    exact ⟨fun _ => ⟨l, .inl hl⟩, fun _ => ⟨f, _, Step.bind_error hfails⟩⟩
  | ok a =>
    have hplace : Station.scoreTuple now weight matchWeight watched t m =
        place t.id a (if watched then m.note t w else m) := by
      unfold Station.scoreTuple
      simp only [hw, hscaled]
    have hnoted : (if watched then m.note t w else m).Strains score t.id a.level ↔
        m.Strains score t.id a.level := by
      cases watched <;> rfl
    have hlevel : a.level = fun l => weight.level l * w.toInt :=
      funext fun l => Score.level_scaled hscaled l
    rw [← hlevel, ← hnoted]
    exact (Step.fails_bind_congr hplace).trans place_enter_fails_iff

end ScorerMemory

/-! ## Stations -/

namespace Station

variable {input : Side → Feed} {output : Feed} {s : Side} {d : Delta} {score : Score sh}
  {station : Station S sh}

/-- The station takes in a delta, and the score follows. -/
def step (plan : S) (origin : Nat) (s : Side) (d : Delta) (score : Score sh) :
    Step (Station S sh) (Score sh) := do
  let reply ← Station.receive plan origin s d
  Step.ofChecked (reply.enter score)

/-- As the station takes in a delta, it forms a number that does not fit: what a match comes to and
how much more that is than before, a total, the score of all constraints, or what a collector makes
of a group. -/
def Strains (plan : S) (score : Score sh) (d : Delta) : Station S sh → Prop
  | group key value c m =>
    match d with
    | .insert t | .update t =>
      ∃ k v, key plan t = .ok k ∧ value plan t = .ok v ∧ m.Strains c t.id (some (k, v))
    | .retract i => m.Strains c i none
  | scorer weight matchWeight _ m =>
    match d with
    | .insert t | .update t =>
      ∃ w, matchWeight plan t = .ok w ∧ m.Strains score t.id fun l => weight.level l * w.toInt
    | .retract i => m.Strains score i fun _ => 0
  | _ => False

theorem not_fails_of_pass {out : List Delta} {station' : Station S sh}
    (e : Station.receive now origin s d station = .ok (.pass out) station') :
    ¬ Fails (step now origin s d score) station := by
  rintro ⟨f, st, hf⟩
  have hok : step now origin s d score station = .ok score station' := Step.bind_ok e
  rw [hok] at hf
  cases hf

theorem step_fails_iff {μ α : Type} {wrap : μ → Station S sh} {answer : α → Reply sh}
    {x : Step μ α} {m : μ}
    (e : Station.receive now origin s d station = conclude wrap answer (x m)) :
    Fails (step now origin s d score) station ↔
      Fails (do let a ← x; Step.ofChecked ((answer a).enter score)) m := by
  cases hx : x m with
  | error f m' =>
    rw [hx] at e
    exact ⟨fun _ => ⟨f, m', Step.bind_error hx⟩, fun _ => ⟨f, wrap m', Step.bind_error e⟩⟩
  | ok a m' =>
    rw [hx] at e
    have hstep : step now origin s d score station =
        Step.ofChecked ((answer a).enter score) (wrap m') := Step.bind_ok e
    have hbind : (do let a ← x; Step.ofChecked ((answer a).enter score)) m =
        Step.ofChecked ((answer a).enter score) m' := Step.bind_ok hx
    unfold Fails
    rw [hstep, hbind]
    exact Step.ofChecked_fails_iff.trans Step.ofChecked_fails_iff.symm

theorem step_fails_iff_of_pass {μ : Type} {wrap : μ → Station S sh} {x : Step μ (List Delta)}
    {m : μ} (e : Station.receive now origin s d station = conclude wrap .pass (x m)) :
    Fails (step now origin s d score) station ↔ Fails x m := by
  refine (step_fails_iff e).trans ((Step.fails_bind_iff Iff.rfl fun _ _ _ => ?_).trans
    (iff_of_eq (or_false _)))
  rw [Step.ofChecked_fails_iff]
  simp [Reply.enter]

theorem Tracks.step_insert_fails_iff {t : Tuple}
    (h : station.Tracks before now origin input output) (hs : s ∈ station.stage.inputs)
    (ha : station.stage.AnswersAt now s t) :
    Fails (step now origin s (.insert t) score) station ↔
      station.Strains now score (.insert t) := by
  cases station with
  | source family m => cases hs
  | filter test m =>
    obtain ⟨b, hb⟩ := ha
    have e : Station.receive now origin s (.insert t) (filter test m : Station S sh) =
        .ok (.pass (m.judge origin t b).2) (filter test (m.judge origin t b).1) := by
      unfold Station.receive filterTuple
      simp only [hb]
      rfl
    exact iff_of_false (not_fails_of_pass e) id
  | join leftKey rightKey m =>
    obtain ⟨k, hk⟩ := ha
    have e : Station.receive now origin s (.insert t) (join leftKey rightKey m : Station S sh) =
        .ok (.pass (m.place s origin k t).2) (join leftKey rightKey (m.place s origin k t).1) := by
      unfold Station.receive joinTuple
      cases s <;> (simp only [joinKeys] at hk; simp only [hk]; rfl)
    exact iff_of_false (not_fails_of_pass e) id
  | group key value c m =>
    obtain ⟨⟨k, hk⟩, v, hv⟩ := ha
    have e : Station.receive now origin s (.insert t) (group key value c m : Station S sh) =
        conclude (group key value c) .pass (GroupMemory.place c origin t.id k v m) := by
      unfold Station.receive groupTuple
      simp only [hk, hv]
    rw [step_fails_iff_of_pass e, GroupMemory.Tracks.place_fails_iff h]
    unfold Strains
    simp [hk, hv]
  | scorer weight matchWeight watched m =>
    obtain ⟨w, hw⟩ := ha
    have e : Station.receive now origin s (.insert t)
        (scorer weight matchWeight watched m : Station S sh) =
          conclude (scorer weight matchWeight watched) .change
            (scoreTuple now weight matchWeight watched t m) := rfl
    refine (step_fails_iff e).trans
      (Iff.trans (ScorerMemory.scoreTuple_enter_fails_iff hw) ?_)
    unfold Strains
    simp [hw]

theorem Tracks.step_retract_fails_iff {j : TupleId}
    (h : station.Tracks before now origin input output) (hs : s ∈ station.stage.inputs) :
    Fails (step now origin s (.retract j) score) station ↔
      station.Strains now score (.retract j) := by
  cases station with
  | source family m => cases hs
  | filter test m => exact iff_of_false (not_fails_of_pass rfl) id
  | join leftKey rightKey m => exact iff_of_false (not_fails_of_pass rfl) id
  | group key value c m =>
    exact (step_fails_iff_of_pass rfl).trans (GroupMemory.Tracks.retract_fails_iff h)
  | scorer weight matchWeight watched m =>
    exact (step_fails_iff rfl).trans ScorerMemory.retract_enter_fails_iff

/-- Where its functions answer, a station fails for numbers that do not fit. -/
theorem Tracks.step_fails_iff_strains (h : station.Tracks before now origin input output)
    (hs : s ∈ station.stage.inputs)
    (ha : ∀ t, d.tuple? = some t → station.stage.AnswersAt now s t) :
    Fails (step now origin s d score) station ↔ station.Strains now score d := by
  cases d with
  | insert t => exact h.step_insert_fails_iff hs (ha t rfl)
  | update t =>
    have hinsert : Fails (step now origin s (.insert t) score) station ↔
        station.Strains now score (.insert t) := h.step_insert_fails_iff hs (ha t rfl)
    refine (Step.fails_bind_congr (receive_update hs t)).trans (hinsert.trans ?_)
    cases station <;> rfl
  | retract j => exact h.step_retract_fails_iff hs

end Station

end PlanSearch
