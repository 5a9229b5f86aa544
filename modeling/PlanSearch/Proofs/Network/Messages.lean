import PlanSearch.Proofs.Network.Station

/-!
# Messages

A node hears of its inputs message by message, and its functions may answer differently each time
they are asked. The latest answer on a tuple is a function of the messages so far: it was given on
the plan of the message that named the tuple last. So a node that asks about the messages instead of
a plan does and remembers the same.

    receive (xs ++ [x]) … x.delta station.recalling =
      recalled (receive x.plan … x.delta station)                            (receive_recalling)
-/

namespace PlanSearch

variable {S α : Type} {sh : Shape}

/-! ## Messages -/

/-- A delta that reaches a node, and the plan that the node's functions read then. -/
structure Message (S : Type) where
  plan : S
  side : Side
  delta : Delta

namespace Message

/-- What arrived on side `s`. -/
def heard (xs : List (Message S)) (s : Side) : Feed :=
  Feed.empty.hearAll ((xs.filter (·.side = s)).map (·.delta))

/-- The tuple that is live under `i` on side `s`, and the plan on which it was heard of last. -/
def latest (xs : List (Message S)) (s : Side) (i : TupleId) : Option (S × Tuple) :=
  xs.foldl (fun last x =>
    if x.side = s ∧ x.delta.id = i then x.delta.tuple?.map (x.plan, ·) else last) none

/-- Answers on a tuple as on the plan on which it was heard of last. -/
def remember (fn : S → Tuple → Checked α) (s : Side) (xs : List (Message S)) (t : Tuple) :
    Checked α :=
  match latest xs s t.id with
  | none => .error .undefined
  | some (plan, _) => fn plan t

/-- On side `s` the tuple `t` is live, and `a` is the latest answer on it. -/
def Answered (fn : S → Tuple → Checked α) (xs : List (Message S)) (s : Side) (t : Tuple) (a : α) :
    Prop :=
  ∃ plan, latest xs s t.id = some (plan, t) ∧ fn plan t = .ok a

variable {xs : List (Message S)} {x : Message S} {s : Side} {i : TupleId} {t : Tuple} {plan : S}
  {fn : S → Tuple → Checked α} {a : α}

theorem latest_concat (xs : List (Message S)) (x : Message S) (s : Side) (i : TupleId) :
    latest (xs ++ [x]) s i =
      if x.side = s ∧ x.delta.id = i then x.delta.tuple?.map (x.plan, ·) else latest xs s i :=
  List.foldl_append

theorem latest_concat_of_ne (h : i ≠ x.delta.id ∨ s ≠ x.side) :
    latest (xs ++ [x]) s i = latest xs s i := by
  rw [latest_concat, if_neg]
  rintro ⟨rfl, rfl⟩
  exact h.elim (absurd rfl) (absurd rfl)

theorem heard_concat (xs : List (Message S)) (x : Message S) :
    heard (xs ++ [x]) = Function.update (heard xs) x.side ((heard xs x.side).hear x.delta) := by
  funext s
  unfold heard
  rw [List.filter_append, List.map_append, Feed.hearAll_append]
  by_cases hs : s = x.side
  · subst hs
    rw [Function.update_self, List.filter_cons_of_pos (by simp), List.filter_nil]
    rfl
  · rw [Function.update_of_ne hs, List.filter_cons_of_neg (by simpa using fun h => hs h.symm),
      List.filter_nil]
    rfl

theorem live_heard (xs : List (Message S)) (s : Side) (i : TupleId) :
    (heard xs s).live i = (latest xs s i).map (·.2) := by
  induction xs using List.reverseRecOn with
  | nil => rfl
  | append_singleton xs x ih =>
    rw [heard_concat]
    by_cases hs : s = x.side
    · subst hs
      rw [Function.update_self]
      by_cases hi : i = x.delta.id
      · subst hi
        rw [Feed.live_hear_self, latest_concat, if_pos ⟨rfl, rfl⟩, Option.map_map]
        exact Option.map_id'.symm
      · rw [Feed.live_hear_of_ne hi, ih, latest_concat_of_ne (.inl hi)]
    · rw [Function.update_of_ne hs, ih, latest_concat_of_ne (.inr hs)]

/-- What was heard of last was heard of in some message. -/
theorem exists_of_latest (h : latest xs s i = some (plan, t)) :
    ∃ x ∈ xs, x.side = s ∧ x.plan = plan ∧ x.delta.tuple? = some t ∧ x.delta.id = i := by
  induction xs using List.reverseRecOn with
  | nil => cases h
  | append_singleton xs x ih =>
    rw [latest_concat] at h
    split at h
    · next hx =>
      obtain ⟨u, hu, hpair⟩ := Option.map_eq_some_iff.1 h
      cases hpair
      exact ⟨x, by simp, hx.1, rfl, hu, hx.2⟩
    · obtain ⟨y, hy, hrest⟩ := ih h
      exact ⟨y, List.mem_append_left _ hy, hrest⟩

theorem id_of_latest (h : latest xs s i = some (plan, t)) : t.id = i := by
  obtain ⟨x, -, -, -, ht, hi⟩ := exists_of_latest h
  exact (Delta.id_eq_of_tuple? ht).trans hi

theorem live_heard_eq_some :
    (heard xs s).live i = some t ↔ ∃ plan, latest xs s i = some (plan, t) := by
  rw [live_heard, Option.map_eq_some_iff]
  constructor
  · rintro ⟨⟨plan, u⟩, h, rfl⟩
    exact ⟨plan, h⟩
  · rintro ⟨plan, h⟩
    exact ⟨_, h, rfl⟩

/-- All tuples of a stream are as long as the identities that its deltas name. -/
theorem length_of_live_heard {n : Nat} (h : ∀ x ∈ xs, x.side = s → x.delta.id.length = n)
    (ht : (heard xs s).live i = some t) : t.id.length = n := by
  obtain ⟨plan, hlatest⟩ := live_heard_eq_some.1 ht
  obtain ⟨x, hx, hs, -, htuple, -⟩ := exists_of_latest hlatest
  rw [Delta.id_eq_of_tuple? htuple]
  exact h x hx hs

theorem remember_concat_self (ht : x.delta.tuple? = some t) :
    remember fn x.side (xs ++ [x]) t = fn x.plan t := by
  unfold remember
  rw [latest_concat, if_pos ⟨rfl, (Delta.id_eq_of_tuple? ht).symm⟩, ht]
  rfl

theorem remember_of_latest (h : latest xs s t.id = some (plan, t)) :
    remember fn s xs t = fn plan t := by
  unfold remember
  rw [h]

theorem keyAndValue_remember (key : S → Tuple → Checked Key) (value : S → Tuple → Checked Int64)
    (s : Side) :
    keyAndValue (remember key s) (remember value s) = remember (keyAndValue key value) s := by
  funext xs t
  unfold keyAndValue remember
  split <;> rfl

theorem answered_iff : Answered fn xs s t a ↔
    (heard xs s).live t.id = some t ∧ remember fn s xs t = .ok a := by
  rw [live_heard_eq_some]
  constructor
  · rintro ⟨plan, hlatest, ha⟩
    exact ⟨⟨plan, hlatest⟩, (remember_of_latest hlatest).trans ha⟩
  · rintro ⟨⟨plan, hlatest⟩, ha⟩
    exact ⟨plan, hlatest, (remember_of_latest hlatest).symm.trans ha⟩

/-- What is recalled about the messages is what was answered last. -/
theorem answered_iff_of_recalls {memo : TupleId → Option α}
    (h : Recalls (remember fn s) xs xs memo (heard xs s).rested) :
    Answered fn xs s t a ↔ (heard xs s).live t.id = some t ∧ memo t.id = some a := by
  rw [answered_iff, and_congr_right_iff]
  intro ht
  obtain ⟨b, hb, hans⟩ := h.current (fun _ _ _ _ => rfl) ht
  rw [hb, hans, Except.ok.injEq, Option.some.injEq]

/-- The last message changes no answer on a tuple that it does not name. -/
theorem steady_remember (fn : S → Tuple → Checked α) (xs : List (Message S)) (x : Message S)
    (s : Side) : Steady (remember fn s) xs (xs ++ [x])
      (Function.update (fun s => (heard xs s).rested) x.side
        ((heard xs x.side).rested.hear x.delta) s) := by
  intro i t ht hnot
  have hne : i ≠ x.delta.id ∨ s ≠ x.side := by
    by_cases hs : s = x.side
    · subst hs
      rw [Function.update_self] at hnot
      exact .inl fun hi => hnot (Feed.mem_touched_hear.2 (.inl hi))
    · exact .inr hs
  have hlive : (heard (xs ++ [x]) s).live i = some t := by
    rw [heard_concat]
    by_cases hs : s = x.side
    · subst hs
      rw [Function.update_self] at ht ⊢
      exact ht
    · rw [Function.update_of_ne hs] at ht ⊢
      exact ht
  obtain ⟨plan, hlatest⟩ := live_heard_eq_some.1 hlive
  rw [latest_concat_of_ne hne] at hlatest
  rw [← id_of_latest hlatest] at hne hlatest
  unfold remember
  rw [latest_concat_of_ne hne, hlatest]

end Message

open Message

/-! ## Nodes that remember -/

/-- The same stage, with functions that read the messages so far. -/
def Stage.recalling : Stage S sh → Stage (List (Message S)) sh
  | source family => .source family
  | filter test => .filter (remember test .left)
  | join leftKey rightKey => .join (remember leftKey .left) (remember rightKey .right)
  | group key value c => .group (remember key .left) (remember value .left) c
  | scorer weight matchWeight watched => .scorer weight (remember matchWeight .left) watched

namespace Station

/-- The same station, with functions that read the messages so far. -/
def recalling : Station S sh → Station (List (Message S)) sh
  | source family m => .source family m
  | filter test m => .filter (remember test .left) m
  | join leftKey rightKey m => .join (remember leftKey .left) (remember rightKey .right) m
  | group key value c m => .group (remember key .left) (remember value .left) c m
  | scorer weight matchWeight watched m => .scorer weight (remember matchWeight .left) watched m

variable {origin : Nat} {x : Message S} {station : Station S sh}

theorem stage_recalling (station : Station S sh) :
    station.recalling.stage = station.stage.recalling := by
  cases station <;> rfl

theorem inputs_recalling (stage : Stage S sh) : stage.recalling.inputs = stage.inputs := by
  cases stage <;> rfl

/-- What becomes of a station when what becomes of it is asked about the messages. -/
def recalled : EStateM.Result Fault (Station S sh) (Reply sh) →
    EStateM.Result Fault (Station (List (Message S)) sh) (Reply sh)
  | .ok reply station => .ok reply station.recalling
  | .error f station => .error f station.recalling

theorem recalled_conclude {μ : Type} (wrap : μ → Station S sh) (answer : α → Reply sh)
    (r : EStateM.Result Fault μ α) :
    recalled (conclude wrap answer r) = conclude (fun m => (wrap m).recalling) answer r := by
  cases r <;> rfl

theorem receive_recalling_insert {t : Tuple} (hs : x.side ∈ station.stage.inputs)
    (ht : x.delta.tuple? = some t) (xs : List (Message S)) :
    receive (xs ++ [x]) origin x.side (.insert t) station.recalling =
      recalled (receive x.plan origin x.side (.insert t) station) := by
  have hrecall : ∀ {α : Type} (fn : S → Tuple → Checked α),
      remember fn x.side (xs ++ [x]) t = fn x.plan t := fun fn => remember_concat_self ht
  cases station with
  | source family m => cases hs
  | filter test m =>
    rw [eq_left_of_mem_inputs (fun _ _ e => by cases e) hs] at hrecall ⊢
    refine Eq.trans ?_ (recalled_conclude _ _ _).symm
    show conclude _ _ (filterTuple (xs ++ [x]) origin (remember test .left) t m) = _
    unfold filterTuple
    rw [hrecall]
    rfl
  | join leftKey rightKey m =>
    generalize hside : x.side = s at hrecall ⊢
    cases s with
    | left =>
      refine Eq.trans ?_ (recalled_conclude _ _ _).symm
      show conclude _ _ (joinTuple (xs ++ [x]) origin .left (remember leftKey .left) t m) = _
      unfold joinTuple
      rw [hrecall]
      rfl
    | right =>
      refine Eq.trans ?_ (recalled_conclude _ _ _).symm
      show conclude _ _ (joinTuple (xs ++ [x]) origin .right (remember rightKey .right) t m) = _
      unfold joinTuple
      rw [hrecall]
      rfl
  | group key value c m =>
    rw [eq_left_of_mem_inputs (fun _ _ e => by cases e) hs] at hrecall ⊢
    refine Eq.trans ?_ (recalled_conclude _ _ _).symm
    show conclude _ _
      (groupTuple (xs ++ [x]) origin (remember key .left) (remember value .left) c t m) = _
    unfold groupTuple
    rw [hrecall, hrecall]
    rfl
  | scorer weight matchWeight watched m =>
    rw [eq_left_of_mem_inputs (fun _ _ e => by cases e) hs] at hrecall ⊢
    refine Eq.trans ?_ (recalled_conclude _ _ _).symm
    show conclude _ _ (scoreTuple (xs ++ [x]) weight (remember matchWeight .left) watched t m) = _
    unfold scoreTuple
    rw [hrecall]
    rfl

theorem receive_recalling_retract (plan : S) (s : Side) (j : TupleId) (station : Station S sh)
    (xs : List (Message S)) :
    receive xs origin s (.retract j) station.recalling =
      recalled (receive plan origin s (.retract j) station) := by
  cases station with
  | source family m => rfl
  | filter test m => rfl
  | join leftKey rightKey m => rfl
  | group key value c m => exact (recalled_conclude (group key value c) _ _).symm
  | scorer weight matchWeight watched m =>
    exact (recalled_conclude (scorer weight matchWeight watched) _ _).symm

/-- Asked about the messages, a station does what it does when asked about the plan of the last
one. -/
theorem receive_recalling (hs : x.side ∈ station.stage.inputs) (xs : List (Message S)) :
    receive (xs ++ [x]) origin x.side x.delta station.recalling =
      recalled (receive x.plan origin x.side x.delta station) := by
  cases hd : x.delta with
  | insert t => exact receive_recalling_insert hs (by rw [hd]; rfl) xs
  | update t =>
    have hs' : x.side ∈ station.recalling.stage.inputs := by
      rw [stage_recalling, inputs_recalling]
      exact hs
    rw [receive_update hs, receive_update hs']
    exact receive_recalling_insert hs (by rw [hd]; rfl) xs
  | retract j => exact receive_recalling_retract x.plan x.side j station _

end Station

end PlanSearch
