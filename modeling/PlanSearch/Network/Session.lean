import PlanSearch.Network.Basic

/-!
# Sessions

A session is the state of a network for one plan. Reported changes are queued and travel through
the network when the score is asked for, in the order they were reported. A delta that a node emits
joins the end of the queue, so the queue is worked off generation by generation; since edges lead to
higher indices, there are no more generations than nodes.
-/

namespace PlanSearch

/-- A node together with what it remembers. -/
inductive Station (S : Type) (sh : Shape) where
  | source (family : Nat) (memory : SourceMemory)
  | filter (test : S → Tuple → Checked Bool) (memory : FilterMemory)
  | join (leftKey rightKey : S → Tuple → Checked Key) (memory : JoinMemory)
  | group (key : S → Tuple → Checked Key) (value : S → Tuple → Checked Int64)
      (collector : Collector) (memory : GroupMemory)
  | scorer (weight : Score sh) (matchWeight : S → Tuple → Checked Int64) (watched : Bool)
      (memory : ScorerMemory sh)

/-- What a station answers to a delta. -/
inductive Reply (sh : Shape) where
  /-- Changes of its output stream. -/
  | pass (deltas : List Delta)
  /-- A change of the score. -/
  | change (difference : Score sh)

/-- A delta on its way to a node. -/
structure Pending where
  target : Nat
  side : Side
  delta : Delta
  deriving DecidableEq, Repr, Inhabited

namespace Station

variable {S : Type} {sh : Shape}

instance : Inhabited (Station S sh) := ⟨.source 0 ∅⟩

/-- A station that has heard nothing yet. -/
def ofStage : Stage S sh → Station S sh
  | .source family => source family ∅
  | .filter test => filter test ∅
  | .join leftKey rightKey => join leftKey rightKey {}
  | .group key value c => group key value c {}
  | .scorer weight matchWeight watched => scorer weight matchWeight watched {}

/-- The immutable part of a station. -/
def stage : Station S sh → Stage S sh
  | source family _ => .source family
  | filter test _ => .filter test
  | join leftKey rightKey _ => .join leftKey rightKey
  | group key value c _ => .group key value c
  | scorer weight matchWeight watched _ => .scorer weight matchWeight watched

/-- A filter hears of the live tuple `t`. -/
def filterTuple (plan : S) (origin : Nat) (test : S → Tuple → Checked Bool) (t : Tuple) :
    Step FilterMemory (List Delta) := fun m =>
  match test plan t with
  | .error f => .error f m
  | .ok passes => let (m, out) := m.judge origin t passes; .ok out m

/-- A join hears of the live tuple `t` on side `s`. -/
def joinTuple (plan : S) (origin : Nat) (s : Side) (key : S → Tuple → Checked Key) (t : Tuple) :
    Step JoinMemory (List Delta) := fun m =>
  match key plan t with
  | .error f => .error f m
  | .ok key => let (m, out) := m.place s origin key t; .ok out m

/-- A group node hears of the live tuple `t`. -/
def groupTuple (plan : S) (origin : Nat) (key : S → Tuple → Checked Key)
    (value : S → Tuple → Checked Int64) (c : Collector) (t : Tuple) :
    Step GroupMemory (List Delta) := fun m =>
  match key plan t with
  | .error f => .error f m
  | .ok key =>
    match value plan t with
    | .error f => .error f m
    | .ok value => GroupMemory.place c origin t.id key value m

/-- A scorer hears of the live match `t`. -/
def scoreTuple (plan : S) (weight : Score sh) (matchWeight : S → Tuple → Checked Int64)
    (watched : Bool) (t : Tuple) : Step (ScorerMemory sh) (Score sh) := fun m =>
  match matchWeight plan t with
  | .error f => .error f m
  | .ok w =>
    let m := if watched then m.note t w else m
    match weight.scaled w with
    | .error f => .error f m
    | .ok score => ScorerMemory.place t.id score m

/-- Puts the memory that a step left back into its station. -/
def conclude {μ α : Type} (wrap : μ → Station S sh) (reply : α → Reply sh) :
    EStateM.Result Fault μ α → EStateM.Result Fault (Station S sh) (Reply sh)
  | .ok a m => .ok (reply a) (wrap m)
  | .error f m => .error f (wrap m)

/-- The reaction of a station, numbered `origin`, to one delta. -/
def receive (plan : S) (origin : Nat) (s : Side) (delta : Delta) :
    Step (Station S sh) (Reply sh)
  | source family m =>
    let (m, out) := m.receive origin delta
    .ok (.pass out) (source family m)
  | filter test m =>
    match delta with
    | .insert t | .update t => conclude (filter test) .pass (filterTuple plan origin test t m)
    | .retract id => let (m, out) := m.retract id; .ok (.pass out) (filter test m)
  | join leftKey rightKey m =>
    match delta with
    | .insert t | .update t =>
      let key := match s with
        | .left => leftKey
        | .right => rightKey
      conclude (join leftKey rightKey) .pass (joinTuple plan origin s key t m)
    | .retract id => let (m, out) := m.retract s id; .ok (.pass out) (join leftKey rightKey m)
  | group key value c m =>
    match delta with
    | .insert t | .update t =>
      conclude (group key value c) .pass (groupTuple plan origin key value c t m)
    | .retract id => conclude (group key value c) .pass (GroupMemory.retract c origin id m)
  | scorer weight matchWeight watched m =>
    match delta with
    | .insert t | .update t =>
      conclude (scorer weight matchWeight watched) .change
        (scoreTuple plan weight matchWeight watched t m)
    | .retract id =>
      conclude (scorer weight matchWeight watched) .change (ScorerMemory.retract id m)

/-- What a scorer remembers. -/
def scorerMemory? : Station S sh → Option (ScorerMemory sh)
  | scorer _ _ _ m => some m
  | _ => none

/-- The station with an empty journal. -/
def withoutJournal : Station S sh → Station S sh
  | scorer weight matchWeight watched m =>
    scorer weight matchWeight watched { m with journal := [] }
  | station => station

end Station

structure Session (S : Type) (sh : Shape) where
  network : Network S sh
  stations : Array (Station S sh)
  queue : Array Pending := #[]
  score : Score sh := .zero

namespace Session

variable {S : Type} {sh : Shape}

/-- A session that knows no facts. -/
def new (network : Network S sh) : Session S sh where
  network
  stations := network.nodes.map fun n => .ofStage n.stage

/-! ## Reporting changes -/

/-- Queues a delta for the source of a family; families that are not read are ignored. -/
def report (s : Session S sh) (family : Nat) (delta : Nat → Delta) : Session S sh :=
  match s.network.source? family with
  | none => s
  | some node => { s with queue := s.queue.push ⟨node, .left, delta node⟩ }

/-- The fact is now present. -/
def insert (s : Session S sh) (f : Fact) : Session S sh :=
  s.report f.family fun node => .insert (Tuple.ofFact f node)

/-- The contents of the fact changed. -/
def update (s : Session S sh) (f : Fact) : Session S sh :=
  s.report f.family fun node => .update (Tuple.ofFact f node)

/-- The fact is no longer present. -/
def retract (s : Session S sh) (f : Fact) : Session S sh :=
  s.report f.family fun _ => .retract [.fact f]

/-- Every fact of every family that is read is now present. -/
def insertAll [Plan S sh] (s : Session S sh) (plan : S) : Session S sh :=
  s.network.sources.foldl (fun s (family, node) =>
    (List.range (Plan.entityCount plan family)).foldl (fun s i =>
      { s with queue := s.queue.push ⟨node, .left, .insert (Tuple.ofFact ⟨family, i⟩ node)⟩ }) s) s

def isSettled (s : Session S sh) : Bool := s.queue.isEmpty

/-! ## Settling -/

/-- Queues every delta of `out` for every child of `node`. -/
def forward (s : Session S sh) (node : Nat) (out : List Delta) : Session S sh :=
  match s.network.nodes[node]? with
  | none => s
  | some n =>
    { s with queue := out.foldl (fun queue delta =>
        n.children.foldl (fun queue e => queue.push ⟨e.target, e.side, delta⟩) queue) s.queue }

/-- Enters what a station replied. -/
def absorb (node : Nat) (reply : Reply sh) : Step (Session S sh) Unit := fun s =>
  match reply with
  | .pass out => .ok () (s.forward node out)
  | .change d =>
    match s.score.add d with
    | .error f => .error f s
    | .ok score => .ok () { s with score }

/-- Delivers one delta. -/
def process (plan : S) (p : Pending) : Step (Session S sh) Unit := fun s =>
  match s.stations[p.target]? with
  | none => .ok () s
  | some station =>
    let s := { s with stations := s.stations.setIfInBounds p.target default }
    match station.receive plan p.target p.side p.delta with
    | .error f station =>
      .error f { s with stations := s.stations.setIfInBounds p.target station }
    | .ok reply station =>
      absorb p.target reply { s with stations := s.stations.setIfInBounds p.target station }

/-- Delivers a generation of deltas; a fault puts those not yet delivered back in front. -/
def drain (plan : S) : List Pending → Step (Session S sh) Unit
  | [] => pure ()
  | p :: rest => fun s =>
    match process plan p s with
    | .ok () s => drain plan rest s
    | .error f s => .error f { s with queue := rest.toArray ++ s.queue }

/-- Delivers at most `rounds` generations and counts the deltas delivered. -/
def settleRounds (plan : S) : Nat → Step (Session S sh) Nat
  | 0 => pure 0
  | rounds + 1 => fun s =>
    if s.queue.isEmpty then .ok 0 s
    else
      match drain plan s.queue.toList { s with queue := #[] } with
      | .error f s' => .error f s'
      | .ok () s' =>
        match settleRounds plan rounds s' with
        | .error f s'' => .error f s''
        | .ok n s'' => .ok (s.queue.size + n) s''

/-- Delivers everything that is queued and counts the deltas delivered. -/
def settle (plan : S) : Step (Session S sh) Nat := fun s =>
  settleRounds plan s.network.nodes.size s

/-- The score of the plan. -/
def settledScore (plan : S) : Step (Session S sh) (Score sh) := do
  let _ ← settle plan
  return (← get).score

/-- The score and match count of a constraint as far as they are settled. -/
def totalOf (s : Session S sh) (c : Constraint sh) : ConstraintTotal sh :=
  match (s.stations[c.scorer]?).bind Station.scorerMemory? with
  | none => ⟨c.name, c.impact, c.weight, .zero, 0⟩
  | some m => ⟨c.name, c.impact, c.weight, m.total, m.matched.size⟩

/-- The score and match count of every constraint. -/
def constraintTotals (plan : S) : Step (Session S sh) (List (ConstraintTotal sh)) := do
  let _ ← settle plan
  let s ← get
  return s.network.constraints.map s.totalOf

/-! ## Journals -/

/-- The match weights that a watched constraint answered, oldest first. -/
def journal (s : Session S sh) (c : Constraint sh) : List (Tuple × Int64) :=
  match (s.stations[c.scorer]?).bind Station.scorerMemory? with
  | none => []
  | some m => m.journal.reverse

def withoutJournals (s : Session S sh) : Session S sh :=
  { s with stations := s.stations.map Station.withoutJournal }

end Session

namespace Network

variable {S : Type} {sh : Shape} [Plan S sh]

/-- A session that is about to hear of all facts of `plan`. -/
def sessionFor (n : Network S sh) (plan : S) : Session S sh := (Session.new n).insertAll plan

/-- The score of `plan` from scratch. -/
def fullScore (n : Network S sh) (plan : S) : Checked (Score sh) :=
  Step.answer (Session.settledScore plan) (n.sessionFor plan)

end Network

end PlanSearch
