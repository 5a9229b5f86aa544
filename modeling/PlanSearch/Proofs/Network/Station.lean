import PlanSearch.Proofs.Network.Reference

/-!
# Stations

One lemma for each question that the propagation asks of a station, whatever its kind: what a delta
does to what it remembers and to its output, what the deltas it emits look like, and why it fails.

    station.Tracks before now i input output → receive … = .ok reply station' →
      station'.Tracks before now i (input with the delta heard) (output.hearAll reply.deltas)
                                                                             (Tracks.receive)
-/

namespace PlanSearch

variable {S : Type} {sh : Shape} {γ : Type}

/-! ## What is asked of the problem's functions -/

/-- The answer on a tuple depends on the contents of its facts, its keys and its aggregates only. -/
def LocalTo {α : Type} (contents : S → Fact → γ) (fn : S → Tuple → Checked α) : Prop :=
  ∀ p q t, (∀ f ∈ TupleId.facts t.id, contents p f = contents q f) → fn p t = fn q t

namespace Stage

/-- All functions of the stage are local. -/
def Local (contents : S → Fact → γ) : Stage S sh → Prop
  | source _ => True
  | filter test => LocalTo contents test
  | join leftKey rightKey => LocalTo contents leftKey ∧ LocalTo contents rightKey
  | group key value _ => LocalTo contents key ∧ LocalTo contents value
  | scorer _ matchWeight _ => LocalTo contents matchWeight

/-- The functions that are asked about a tuple on side `s` are defined there. -/
def DefinedAt (plan : S) (s : Side) (t : Tuple) : Stage S sh → Prop
  | source _ => True
  | filter test => test plan t ≠ .error .undefined
  | join leftKey rightKey => joinKeys leftKey rightKey s plan t ≠ .error .undefined
  | group key value _ => key plan t ≠ .error .undefined ∧ value plan t ≠ .error .undefined
  | scorer _ matchWeight _ => matchWeight plan t ≠ .error .undefined

/-- The layout of the output, given those of the inputs. -/
def layout (input : Side → Layout) : Stage S sh → Layout
  | source family => [some family]
  | filter _ => input .left
  | join _ _ => input .left ++ input .right
  | group _ _ _ => [none]
  | scorer _ _ _ => []

end Stage

namespace Reply

/-- The changes of the output stream. -/
def deltas : Reply sh → List Delta
  | pass out => out
  | change _ => []

/-- The change of the score on a level. -/
def gain (l : Nat) : Reply sh → Int
  | pass _ => 0
  | change d => d.level l

end Reply

/-! ## Rest -/

theorem JoinMemory.Tracks.rested {before now : S} {origin : Nat}
    {keys : Side → S → Tuple → Checked Key} {m : JoinMemory} {input : Side → Feed} {output : Feed}
    (h : JoinMemory.Tracks keys before now origin m input output)
    (hx : ∀ s, Steady (keys s) before now (input s)) (next : S) :
    JoinMemory.Tracks keys now next origin m (fun s => (input s).rested) output.rested where
  index s := ⟨(h.index s).recalls.rested (hx s) next, (h.index s).entry, (h.index s).indexed⟩
  live := h.live
  touched _ _ _ _ ht := ht.elim (fun e => absurd e (Set.notMem_empty _))
    fun e => absurd e (Set.notMem_empty _)

namespace Station

/-- The total of a scorer. -/
def total : Station S sh → Score sh
  | scorer _ _ _ m => m.total
  | _ => .zero

/-- What the station has to remember of its input, and what its output amounts to. -/
def Tracks (before now : S) (origin : Nat) (input : Side → Feed) (output : Feed) :
    Station S sh → Prop
  | source family m => SourceMemory.Tracks family origin m output
  | filter test m => FilterMemory.Tracks test before now origin m (input .left) output
  | join leftKey rightKey m =>
    JoinMemory.Tracks (joinKeys leftKey rightKey) before now origin m input output
  | group key value c m =>
    GroupMemory.Tracks (keyAndValue key value) c before now origin m (input .left) output
  | scorer weight matchWeight _ m =>
    ScorerMemory.Tracks (matchScore weight matchWeight) before now m (input .left) ∧
      output = Feed.empty

variable {before now : S} {origin : Nat} {input : Side → Feed} {output : Feed} {s : Side}
  {d : Delta} {station station' : Station S sh} {reply : Reply sh}

theorem tracks_ofStage (before now : S) (origin : Nat) (stage : Stage S sh) :
    (ofStage stage).Tracks before now origin (fun _ => Feed.empty) Feed.empty := by
  cases stage with
  | source family =>
    refine ⟨fun f hf => ?_, fun id t => ?_⟩
    · simp at hf
    · constructor
      · intro h
        cases h
      · rintro ⟨f, hf, -⟩
        simp at hf
  | filter test =>
    refine ⟨?_, fun i => ?_, fun i hi => ?_⟩
    · have h := Recalls.empty test before now
      rwa [show (fun _ => none) = fun i => (∅ : FilterMemory)[i]? from funext fun i => by simp] at h
    · simp [Feed.empty]
    · simp at hi
  | join leftKey rightKey => exact JoinMemory.tracks_empty ..
  | group key value c => exact GroupMemory.tracks_empty ..
  | scorer weight matchWeight watched =>
    refine ⟨⟨?_, fun l => ?_⟩, rfl⟩
    · have h := Recalls.empty (matchScore weight matchWeight) before now
      rwa [show (fun _ => none) = fun i => ({} : ScorerMemory sh).matched[i]? from
        funext fun i => by simp] at h
    · rw [Score.level_zero]
      simp

/-- What was not named since is answered now as it was before. -/
def IsSteady (before now : S) (input : Side → Feed) : Station S sh → Prop
  | source _ _ => True
  | filter test _ => Steady test before now (input .left)
  | join leftKey rightKey _ =>
    ∀ s, Steady (joinKeys leftKey rightKey s) before now (input s)
  | group key value _ _ => Steady (keyAndValue key value) before now (input .left)
  | scorer weight matchWeight _ _ =>
    Steady (matchScore weight matchWeight) before now (input .left)

/-- Once nothing is out of date, it can be relied on from then on. -/
theorem Tracks.rested_of_steady (h : station.Tracks before now origin input output)
    (hx : station.IsSteady before now input) (next : S) :
    station.Tracks now next origin (fun s => (input s).rested) output.rested := by
  cases station with
  | source family m =>
    have hm : SourceMemory.Tracks family origin m output := h
    exact ⟨hm.family, hm.live⟩
  | filter test m =>
    have hm : FilterMemory.Tracks test before now origin m (input .left) output := h
    exact ⟨hm.recalls.rested hx next, hm.live, fun i _ hi => absurd hi (Set.notMem_empty i)⟩
  | join leftKey rightKey m => exact JoinMemory.Tracks.rested h hx next
  | group key value c m =>
    have hm : GroupMemory.Tracks (keyAndValue key value) c before now origin m (input .left)
      output := h
    exact ⟨hm.recalls.rested hx next, hm.member, hm.sound, hm.inhabited, hm.live⟩
  | scorer weight matchWeight watched m =>
    exact ⟨⟨h.1.recalls.rested hx next, h.1.total⟩, by rw [h.2]; rfl⟩

/-! ## One delta -/

theorem stage_ofStage (stage : Stage S sh) : (ofStage stage).stage = stage := by
  cases stage <;> rfl

theorem conclude_eq_ok {μ α : Type} {wrap : μ → Station S sh} {answer : α → Reply sh}
    {r : EStateM.Result Fault μ α} (e : conclude wrap answer r = .ok reply station') :
    ∃ a m, r = .ok a m ∧ reply = answer a ∧ station' = wrap m := by
  cases r with
  | ok a m =>
    cases e
    exact ⟨a, m, rfl, rfl, rfl⟩
  | error f m => cases e

theorem conclude_eq_error {μ α : Type} {wrap : μ → Station S sh} {answer : α → Reply sh}
    {r : EStateM.Result Fault μ α} {f : Fault} (e : conclude wrap answer r = .error f station') :
    ∃ m, r = .error f m ∧ station' = wrap m := by
  cases r with
  | ok a m => cases e
  | error g m =>
    cases e
    exact ⟨m, rfl, rfl⟩

/-- A station stays what it is, and nothing but a scorer changes the score. -/
theorem receive_eq_ok (e : receive now origin s d station = .ok reply station') :
    station'.stage = station.stage ∧
      (¬ station.stage.isScorer → ∃ out, reply = .pass out) := by
  unfold receive at e
  cases station with
  | source family m =>
    cases e
    exact ⟨rfl, fun _ => ⟨_, rfl⟩⟩
  | filter test m =>
    cases d with
    | retract id =>
      cases e
      exact ⟨rfl, fun _ => ⟨_, rfl⟩⟩
    | _ =>
      obtain ⟨out, m', -, rfl, rfl⟩ := conclude_eq_ok e
      exact ⟨rfl, fun _ => ⟨out, rfl⟩⟩
  | join leftKey rightKey m =>
    cases d with
    | retract id =>
      cases e
      exact ⟨rfl, fun _ => ⟨_, rfl⟩⟩
    | _ =>
      obtain ⟨out, m', -, rfl, rfl⟩ := conclude_eq_ok e
      exact ⟨rfl, fun _ => ⟨out, rfl⟩⟩
  | group key value c m =>
    cases d <;>
      obtain ⟨out, m', -, rfl, rfl⟩ := conclude_eq_ok e <;> exact ⟨rfl, fun _ => ⟨out, rfl⟩⟩
  | scorer weight matchWeight watched m =>
    cases d <;>
      obtain ⟨change, m', -, rfl, rfl⟩ := conclude_eq_ok e <;>
        exact ⟨rfl, fun h => absurd rfl h⟩

theorem receive_eq_error {f : Fault} (e : receive now origin s d station = .error f station') :
    station'.stage = station.stage := by
  cases station with
  | source family m => cases e
  | filter test m =>
    cases d with
    | retract j => cases e
    | _ =>
      obtain ⟨m', -, rfl⟩ := conclude_eq_error e
      rfl
  | join leftKey rightKey m =>
    cases d with
    | retract j => cases e
    | _ =>
      obtain ⟨m', -, rfl⟩ := conclude_eq_error e
      rfl
  | group key value c m =>
    cases d <;>
      obtain ⟨m', -, rfl⟩ := conclude_eq_error e <;> rfl
  | scorer weight matchWeight watched m =>
    cases d <;>
      obtain ⟨m', -, rfl⟩ := conclude_eq_error e <;> rfl

theorem filterTuple_eq_ok {test : S → Tuple → Checked Bool} {m m' : FilterMemory} {t : Tuple}
    {out : List Delta} (e : filterTuple now origin test t m = .ok out m') :
    ∃ b, test now t = .ok b ∧ m' = (m.judge origin t b).1 ∧ out = (m.judge origin t b).2 := by
  unfold filterTuple at e
  split at e
  · cases e
  · next b hb =>
    cases e
    exact ⟨b, hb, rfl, rfl⟩

theorem joinTuple_eq_ok {key : S → Tuple → Checked Key} {m m' : JoinMemory} {t : Tuple}
    {out : List Delta} (e : joinTuple now origin s key t m = .ok out m') :
    ∃ k, key now t = .ok k ∧ m' = (m.place s origin k t).1 ∧ out = (m.place s origin k t).2 := by
  unfold joinTuple at e
  split at e
  · cases e
  · next k hk =>
    cases e
    exact ⟨k, hk, rfl, rfl⟩

theorem groupTuple_eq_ok {key : S → Tuple → Checked Key} {value : S → Tuple → Checked Int64}
    {c : Collector} {m m' : GroupMemory} {t : Tuple} {out : List Delta}
    (e : groupTuple now origin key value c t m = .ok out m') :
    ∃ k v, keyAndValue key value now t = .ok (k, v) ∧
      GroupMemory.place c origin t.id k v m = .ok out m' := by
  unfold groupTuple at e
  split at e
  · cases e
  · next k hk =>
    split at e
    · cases e
    · next v hv => exact ⟨k, v, keyAndValue_eq_ok hk hv, e⟩

theorem scoreTuple_eq_ok {weight : Score sh} {matchWeight : S → Tuple → Checked Int64}
    {watched : Bool} {m m' : ScorerMemory sh} {t : Tuple} {change : Score sh}
    (e : scoreTuple now weight matchWeight watched t m = .ok change m') :
    ∃ a m₁, matchScore weight matchWeight now t = .ok a ∧ m₁.matched = m.matched ∧
      m₁.total = m.total ∧ ScorerMemory.place t.id a m₁ = .ok change m' := by
  unfold scoreTuple at e
  split at e
  · cases e
  · next w hw =>
    dsimp only at e
    split at e
    · cases e
    · next a ha =>
      refine ⟨a, _, ?_, ?_, ?_, e⟩
      · unfold matchScore
        rw [hw]
        exact ha
      · cases watched <;> rfl
      · cases watched <;> rfl

theorem eq_left_of_mem_inputs {stage : Stage S sh} (hj : ∀ lk rk, stage ≠ .join lk rk)
    (hs : s ∈ stage.inputs) : s = .left := by
  cases stage with
  | source family => cases hs
  | join lk rk => exact absurd rfl (hj lk rk)
  | filter test => exact List.mem_singleton.1 hs
  | group key value c => exact List.mem_singleton.1 hs
  | scorer weight matchWeight watched => exact List.mem_singleton.1 hs

/-- What a station replies, and what becomes of it, as the live tuple `t` reaches it on one of its
inputs. -/
inductive Takes (now : S) (origin : Nat) (t : Tuple) :
    Side → Station S sh → Reply sh → Station S sh → Prop
  | filter {test : S → Tuple → Checked Bool} {m : FilterMemory} {b : Bool}
      (judged : test now t = .ok b) :
    Takes now origin t .left (.filter test m) (.pass (m.judge origin t b).2)
      (.filter test (m.judge origin t b).1)
  | join {leftKey rightKey : S → Tuple → Checked Key} {m : JoinMemory} {s : Side} {k : Key}
      (read : joinKeys leftKey rightKey s now t = .ok k) :
    Takes now origin t s (.join leftKey rightKey m) (.pass (m.place s origin k t).2)
      (.join leftKey rightKey (m.place s origin k t).1)
  | group {key : S → Tuple → Checked Key} {value : S → Tuple → Checked Int64} {c : Collector}
      {m m' : GroupMemory} {k : Key} {v : Int64} {out : List Delta}
      (read : keyAndValue key value now t = .ok (k, v))
      (placed : GroupMemory.place c origin t.id k v m = .ok out m') :
    Takes now origin t .left (.group key value c m) (.pass out) (.group key value c m')
  /-- The journal aside, the scorer places the match in the memory that it has. -/
  | scorer {weight : Score sh} {matchWeight : S → Tuple → Checked Int64} {watched : Bool}
      {m m₁ m' : ScorerMemory sh} {a change : Score sh}
      (worth : matchScore weight matchWeight now t = .ok a) (matched : m₁.matched = m.matched)
      (total : m₁.total = m.total) (placed : ScorerMemory.place t.id a m₁ = .ok change m') :
    Takes now origin t .left (.scorer weight matchWeight watched m) (.change change)
      (.scorer weight matchWeight watched m')

/-- What a station replies, and what becomes of it, as the tuple `j` leaves one of its inputs. -/
inductive Drops (origin : Nat) (j : TupleId) :
    Side → Station S sh → Reply sh → Station S sh → Prop
  | filter {test : S → Tuple → Checked Bool} {m : FilterMemory} :
    Drops origin j .left (.filter test m) (.pass (m.retract j).2) (.filter test (m.retract j).1)
  | join {leftKey rightKey : S → Tuple → Checked Key} {m : JoinMemory} {s : Side} :
    Drops origin j s (.join leftKey rightKey m) (.pass (m.retract s j).2)
      (.join leftKey rightKey (m.retract s j).1)
  | group {key : S → Tuple → Checked Key} {value : S → Tuple → Checked Int64} {c : Collector}
      {m m' : GroupMemory} {out : List Delta}
      (retracted : GroupMemory.retract c origin j m = .ok out m') :
    Drops origin j .left (.group key value c m) (.pass out) (.group key value c m')
  | scorer {weight : Score sh} {matchWeight : S → Tuple → Checked Int64} {watched : Bool}
      {m m' : ScorerMemory sh} {change : Score sh}
      (retracted : ScorerMemory.retract j m = .ok change m') :
    Drops origin j .left (.scorer weight matchWeight watched m) (.change change)
      (.scorer weight matchWeight watched m')

theorem takes {t : Tuple} (hs : s ∈ station.stage.inputs)
    (e : receive now origin s (.insert t) station = .ok reply station') :
    Takes now origin t s station reply station' := by
  cases station with
  | source family m => cases hs
  | filter test m =>
    obtain rfl := eq_left_of_mem_inputs (fun _ _ e => by cases e) hs
    obtain ⟨out, m', hm, rfl, rfl⟩ := conclude_eq_ok e
    obtain ⟨b, hb, rfl, rfl⟩ := filterTuple_eq_ok hm
    exact .filter hb
  | join leftKey rightKey m =>
    obtain ⟨out, m', hm, rfl, rfl⟩ := conclude_eq_ok e
    have hkey : joinTuple now origin s (joinKeys leftKey rightKey s) t m = .ok out m' := by
      cases s <;> exact hm
    obtain ⟨k, hk, rfl, rfl⟩ := joinTuple_eq_ok hkey
    exact .join hk
  | group key value c m =>
    obtain rfl := eq_left_of_mem_inputs (fun _ _ e => by cases e) hs
    obtain ⟨out, m', hm, rfl, rfl⟩ := conclude_eq_ok e
    obtain ⟨k, v, hread, hplace⟩ := groupTuple_eq_ok hm
    exact .group hread hplace
  | scorer weight matchWeight watched m =>
    obtain rfl := eq_left_of_mem_inputs (fun _ _ e => by cases e) hs
    obtain ⟨change, m', hm, rfl, rfl⟩ := conclude_eq_ok e
    obtain ⟨a, m₁, ha, hmatched, htotal, hplace⟩ := scoreTuple_eq_ok hm
    exact .scorer ha hmatched htotal hplace

theorem drops {j : TupleId} (hs : s ∈ station.stage.inputs)
    (e : receive now origin s (.retract j) station = .ok reply station') :
    Drops origin j s station reply station' := by
  cases station with
  | source family m => cases hs
  | filter test m =>
    obtain rfl := eq_left_of_mem_inputs (fun _ _ e => by cases e) hs
    cases e
    exact .filter
  | join leftKey rightKey m =>
    cases e
    exact .join
  | group key value c m =>
    obtain rfl := eq_left_of_mem_inputs (fun _ _ e => by cases e) hs
    obtain ⟨out, m', hm, rfl, rfl⟩ := conclude_eq_ok e
    exact .group hm
  | scorer weight matchWeight watched m =>
    obtain rfl := eq_left_of_mem_inputs (fun _ _ e => by cases e) hs
    obtain ⟨change, m', hm, rfl, rfl⟩ := conclude_eq_ok e
    exact .scorer hm

/-- What becomes of a station: its stage stays, it has heard `d`, and it replied `reply`. -/
def Heard (before now : S) (origin : Nat) (input : Side → Feed) (output : Feed) (s : Side)
    (d : Delta) (station : Station S sh) (reply : Reply sh) (station' : Station S sh) : Prop :=
  station'.stage = station.stage ∧
    station'.Tracks before now origin (Function.update input s ((input s).hear d))
      (output.hearAll reply.deltas) ∧
    ∀ l, station'.total.level l = station.total.level l + reply.gain l

theorem Tracks.receive_insert {t : Tuple} (h : station.Tracks before now origin input output)
    (hs : s ∈ station.stage.inputs)
    (hlen : ∀ lk rk, station.stage = .join lk rk →
      ∀ i u, (input s).live i = some u → u.id.length = t.id.length)
    (e : Station.receive now origin s (.insert t) station = .ok reply station') :
    Heard before now origin input output s (.insert t) station reply station' := by
  have hself := Function.update_self Side.left ((input .left).hear (.insert t)) input
  cases takes hs e with
  | filter judged =>
    refine ⟨rfl, ?_, fun l => (Int.add_zero _).symm⟩
    have hjudge := FilterMemory.Tracks.judge h judged
    rwa [← hself] at hjudge
  | join read =>
    refine ⟨rfl, ?_, fun l => (Int.add_zero _).symm⟩
    exact JoinMemory.Tracks.place h read fun k u hu =>
      hlen _ _ rfl u.id u ((JoinMemory.Tracks.index h s).live_of_holds hu)
  | group read placed =>
    refine ⟨rfl, ?_, fun l => (Int.add_zero _).symm⟩
    have hfiled := GroupMemory.Tracks.place h read placed
    rwa [← hself] at hfiled
  | @scorer weight matchWeight watched m m₁ m' a change worth matched total placed =>
    obtain ⟨htracks, rfl⟩ := h
    have htracks₁ : ScorerMemory.Tracks (matchScore weight matchWeight) before now m₁
        (input .left) := by
      refine ⟨?_, fun l => ?_⟩
      · rw [matched]
        exact htracks.recalls
      · rw [matched, total]
        exact htracks.total l
    obtain ⟨hplaced, hgain⟩ := htracks₁.place worth placed
    rw [← hself] at hplaced
    refine ⟨rfl, ⟨hplaced, rfl⟩, fun l => ?_⟩
    rw [total] at hgain
    exact hgain l

theorem Tracks.receive_retract {j : TupleId} (h : station.Tracks before now origin input output)
    (hs : s ∈ station.stage.inputs)
    (hlen : ∀ lk rk, station.stage = .join lk rk →
      ∀ i i' t u, (input s).live i = some t → (input s).live i' = some u →
        t.id.length = u.id.length)
    (e : Station.receive now origin s (.retract j) station = .ok reply station') :
    Heard before now origin input output s (.retract j) station reply station' := by
  have hself := Function.update_self Side.left ((input .left).hear (.retract j)) input
  cases drops hs e with
  | filter =>
    refine ⟨rfl, ?_, fun l => (Int.add_zero _).symm⟩
    have hretract := FilterMemory.Tracks.retract h j
    rwa [← hself] at hretract
  | join =>
    refine ⟨rfl, ?_, fun l => (Int.add_zero _).symm⟩
    have hlive := fun {k t} => (JoinMemory.Tracks.index h s).live_of_holds (k := k) (t := t)
    exact JoinMemory.Tracks.retract h j fun k k' t u ht hu =>
      hlen _ _ rfl t.id u.id t u (hlive ht) (hlive hu)
  | group retracted =>
    refine ⟨rfl, ?_, fun l => (Int.add_zero _).symm⟩
    have hretract := (GroupMemory.Tracks.retract h j retracted).1
    rwa [← hself] at hretract
  | scorer retracted =>
    obtain ⟨htracks, rfl⟩ := h
    obtain ⟨hretract, hgain⟩ := htracks.retract retracted
    rw [← hself] at hretract
    exact ⟨rfl, ⟨hretract, rfl⟩, hgain⟩

theorem receive_update (hs : s ∈ station.stage.inputs) (t : Tuple) :
    Station.receive now origin s (.update t) station =
      Station.receive now origin s (.insert t) station := by
  cases station with
  | source family m => cases hs
  | _ => rfl

/-- A station that hears a delta has then heard it, and its output changes as it replies. A join needs
identities of one length on the side on which it hears. -/
theorem Tracks.receive_of_join (h : station.Tracks before now origin input output)
    (hs : s ∈ station.stage.inputs)
    (hlen : ∀ lk rk, station.stage = .join lk rk → ∃ n,
      (∀ i t, (input s).live i = some t → t.id.length = n) ∧
        ∀ t, d.tuple? = some t → t.id.length = n)
    (e : Station.receive now origin s d station = .ok reply station') :
    Heard before now origin input output s d station reply station' := by
  have hinsert : ∀ t, d.tuple? = some t →
      Station.receive now origin s (.insert t) station = .ok reply station' →
        Heard before now origin input output s (.insert t) station reply station' :=
    fun t ht e => h.receive_insert hs (fun lk rk hj i u hu => by
      obtain ⟨n, hn, hd⟩ := hlen lk rk hj
      exact (hn i u hu).trans (hd t ht).symm) e
  cases d with
  | insert t => exact hinsert t rfl e
  | update t =>
    rw [receive_update hs] at e
    exact hinsert t rfl e
  | retract j =>
    refine h.receive_retract hs (fun lk rk hj i i' t u ht hu => ?_) e
    obtain ⟨n, hn, -⟩ := hlen lk rk hj
    exact (hn i t ht).trans (hn i' u hu).symm

theorem Tracks.receive (h : station.Tracks before now origin input output)
    (hs : s ∈ station.stage.inputs) {n : Nat}
    (hlen : ∀ i t, (input s).live i = some t → t.id.length = n)
    (hd : ∀ t, d.tuple? = some t → t.id.length = n)
    (e : Station.receive now origin s d station = .ok reply station') :
    Heard before now origin input output s d station reply station' :=
  h.receive_of_join hs (fun _ _ _ => ⟨n, hlen, hd⟩) e

/-! ## Emitted tuples -/

theorem Tracks.over_of_insert {lay : Side → Layout} {known : Fact → Prop} {t : Tuple}
    (h : station.Tracks before now origin input output) (hs : s ∈ station.stage.inputs)
    (ht : t.Over (lay s) known)
    (hp : ∀ lk rk, station.stage = .join lk rk → ∀ i p, (input s.opposite).live i = some p →
      p.Over (lay s.opposite) known)
    (e : Station.receive now origin s (.insert t) station = .ok reply station') :
    ∀ d ∈ reply.deltas, ∀ u, d.tuple? = some u → u.Over (station.stage.layout lay) known := by
  intro d hd u hu
  cases takes hs e with
  | filter judged =>
    have htu : u = t.withOrigin origin := by
      simp only [Reply.deltas, FilterMemory.judge] at hd
      split at hd <;> simp_all [Delta.tuple?]
    rw [htu]
    exact ht.withOrigin origin
  | @join leftKey rightKey _ _ _ read =>
    obtain ⟨p, hlive, rfl⟩ := JoinMemory.Tracks.mem_place h hd hu
    have hpo := hp leftKey rightKey rfl p.id p hlive
    cases s with
    | left => exact ht.join hpo origin
    | right => exact hpo.join ht origin
  | group read placed =>
    obtain ⟨k, -, hgroup⟩ := GroupMemory.place_speaks placed d hd
    obtain ⟨n, rfl⟩ := hgroup u hu
    exact Tuple.over_ofGroup k n origin
  | scorer => cases hd

theorem over_of_retract {lay : Side → Layout} {known : Fact → Prop} {j : TupleId}
    (hs : s ∈ station.stage.inputs)
    (e : Station.receive now origin s (.retract j) station = .ok reply station') :
    ∀ d ∈ reply.deltas, ∀ u, d.tuple? = some u → u.Over (station.stage.layout lay) known := by
  intro d hd u hu
  cases drops hs e with
  | filter =>
    simp only [Reply.deltas, FilterMemory.retract] at hd
    split at hd
    · rw [List.mem_singleton] at hd
      subst hd
      cases hu
    · cases hd
  | join =>
    rw [JoinMemory.retract_tuple? hd] at hu
    cases hu
  | group retracted =>
    obtain ⟨k, -, hgroup⟩ := GroupMemory.retract_speaks retracted d hd
    obtain ⟨n, rfl⟩ := hgroup u hu
    exact Tuple.over_ofGroup k n origin
  | scorer => cases hd

/-- What a station emits has the layout of its stage and no facts but those of its sources. -/
theorem Tracks.over {lay : Side → Layout} {known : Fact → Prop}
    (h : station.Tracks before now origin input output) (hs : s ∈ station.stage.inputs)
    (ht : ∀ t, d.tuple? = some t → t.Over (lay s) known)
    (hp : ∀ t, d.tuple? = some t → ∀ lk rk, station.stage = .join lk rk →
      ∀ i p, (input s.opposite).live i = some p → p.Over (lay s.opposite) known)
    (e : Station.receive now origin s d station = .ok reply station') :
    ∀ d' ∈ reply.deltas, ∀ u, d'.tuple? = some u → u.Over (station.stage.layout lay) known := by
  cases d with
  | insert t => exact h.over_of_insert hs (ht t rfl) (hp t rfl) e
  | update t =>
    rw [receive_update hs] at e
    exact h.over_of_insert hs (ht t rfl) (hp t rfl) e
  | retract j => exact over_of_retract hs e

/-! ## Faults -/

theorem overflow_of_ne_undefined {α : Type} {x : Checked α} {f : Fault}
    (hx : x ≠ .error .undefined) (e : x = .error f) : f = .overflow := by
  cases f with
  | overflow => rfl
  | undefined => exact absurd e hx

theorem receive_insert_error {t : Tuple} {f : Fault} (hs : s ∈ station.stage.inputs)
    (hd : station.stage.DefinedAt now s t)
    (e : Station.receive now origin s (.insert t) station = .error f station') : f = .overflow := by
  cases station with
  | source family m => cases hs
  | filter test m =>
    obtain ⟨m', hm, -⟩ := conclude_eq_error e
    unfold filterTuple at hm
    split at hm
    · next hf =>
      cases hm
      exact overflow_of_ne_undefined hd hf
    · cases hm
  | join leftKey rightKey m =>
    obtain ⟨m', hm, -⟩ := conclude_eq_error e
    have hkey : joinTuple now origin s (joinKeys leftKey rightKey s) t m = .error f m' := by
      cases s <;> exact hm
    unfold joinTuple at hkey
    split at hkey
    · next hf =>
      cases hkey
      exact overflow_of_ne_undefined hd hf
    · cases hkey
  | group key value c m =>
    obtain ⟨m', hm, -⟩ := conclude_eq_error e
    unfold groupTuple at hm
    split at hm
    · next hf =>
      cases hm
      exact overflow_of_ne_undefined hd.1 hf
    · split at hm
      · next hf =>
        cases hm
        exact overflow_of_ne_undefined hd.2 hf
      · exact GroupMemory.place_error hm
  | scorer weight matchWeight watched m =>
    obtain ⟨m', hm, -⟩ := conclude_eq_error e
    unfold scoreTuple at hm
    split at hm
    · next hf =>
      cases hm
      exact overflow_of_ne_undefined hd hf
    · dsimp only at hm
      split at hm
      · next hf =>
        cases hm
        exact Score.ofExact_error hf
      · exact ScorerMemory.shift_error (fun g hg => Score.ofExact_error hg) hm

theorem receive_retract_error {j : TupleId} {f : Fault}
    (e : Station.receive now origin s (.retract j) station = .error f station') :
    f = .overflow := by
  cases station with
  | source family m => cases e
  | filter test m => cases e
  | join leftKey rightKey m => cases e
  | group key value c m =>
    obtain ⟨m', hm, -⟩ := conclude_eq_error e
    exact GroupMemory.retract_error hm
  | scorer weight matchWeight watched m =>
    obtain ⟨m', hm, -⟩ := conclude_eq_error e
    unfold ScorerMemory.retract at hm
    split at hm
    · exact ScorerMemory.shift_error (fun g hg => by cases hg) hm
    · exact ScorerMemory.shift_error (fun g hg => Score.ofExact_error hg) hm

/-- Where the problem's functions are defined, a station fails by overflow only. -/
theorem receive_error {f : Fault} (hs : s ∈ station.stage.inputs)
    (hd : ∀ t, d.tuple? = some t → station.stage.DefinedAt now s t)
    (e : Station.receive now origin s d station = .error f station') : f = .overflow := by
  cases d with
  | insert t => exact receive_insert_error hs (hd t rfl) e
  | update t =>
    rw [receive_update hs] at e
    exact receive_insert_error hs (hd t rfl) e
  | retract j => exact receive_retract_error e

end Station

end PlanSearch
