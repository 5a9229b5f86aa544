import PlanSearch.Network.Tuple
import PlanSearch.Network.Collector
import Std.Data.HashMap.Basic
import Std.Data.HashSet.Basic

/-!
# Node memories

What a node remembers of the tuples that reached it. A memory takes one delta at a time and answers
with the deltas that its own output undergoes. Keys, values and verdicts are remembered as they were
answered, so that taking a tuple back never asks the problem's functions about a plan that has
already moved on.
-/

namespace PlanSearch

open Std (HashMap HashSet)

/-- A change of a stream of tuples. -/
inductive Delta where
  | insert (t : Tuple)
  | update (t : Tuple)
  | retract (id : TupleId)
  deriving DecidableEq, Repr, Inhabited

/-- The input that a delta arrives on; nodes with one input use the left one. -/
inductive Side where
  | left
  | right
  deriving DecidableEq, Repr, Inhabited

/-! ## Sources -/

/-- The facts that are present. -/
abbrev SourceMemory : Type := HashSet Fact

namespace SourceMemory

/-- A fact that is inserted again counts as updated; one that is absent cannot be updated. -/
def receive (m : SourceMemory) (origin : Nat) : Delta → SourceMemory × List Delta
  | .insert t =>
    match t.fact? 0 with
    | none => (m, [])
    | some f =>
      if m.contains f then (m, [.update (t.withOrigin origin)])
      else (HashSet.insert m f, [.insert (t.withOrigin origin)])
  | .update t =>
    match t.fact? 0 with
    | none => (m, [])
    | some f => (m, if m.contains f then [.update (t.withOrigin origin)] else [])
  | .retract id =>
    match id.head? with
    | some (.fact f) => if m.contains f then (HashSet.erase m f, [.retract id]) else (m, [])
    | _ => (m, [])

end SourceMemory

/-! ## Filters -/

/-- The latest verdict on each live input. -/
abbrev FilterMemory : Type := HashMap TupleId Bool

namespace FilterMemory

/-- The tuple `t` is live and its verdict is now `passes`. -/
def judge (m : FilterMemory) (origin : Nat) (t : Tuple) (passes : Bool) :
    FilterMemory × List Delta :=
  (HashMap.insert m t.id passes,
    match m[t.id]?, passes with
    | some true, true => [.update (t.withOrigin origin)]
    | some true, false => [.retract t.id]
    | _, true => [.insert (t.withOrigin origin)]
    | _, false => [])

def retract (m : FilterMemory) (id : TupleId) : FilterMemory × List Delta :=
  (HashMap.erase m id, if m[id]? = some true then [.retract id] else [])

end FilterMemory

/-! ## Joins -/

/-- One side of a join: each live tuple with its latest key, and the ids under each key. -/
structure JoinIndex where
  entries : HashMap TupleId (Key × Tuple) := ∅
  byKey : HashMap Key (HashSet TupleId) := ∅
  deriving Inhabited

namespace JoinIndex

def add (x : JoinIndex) (key : Key) (t : Tuple) : JoinIndex where
  entries := x.entries.insert t.id (key, t)
  byKey := x.byKey.alter key fun ids => some ((ids.getD ∅).insert t.id)

def key? (x : JoinIndex) (id : TupleId) : Option Key := x.entries[id]?.map (·.1)

def erase (x : JoinIndex) (id : TupleId) : JoinIndex :=
  match x.key? id with
  | none => x
  | some key =>
    { entries := x.entries.erase id
      byKey := x.byKey.alter key fun ids =>
        let rest := (ids.getD ∅).erase id
        if rest.isEmpty then none else some rest }

/-- The live tuples whose latest key is `key`. -/
def partners (x : JoinIndex) (key : Key) : List Tuple :=
  (x.byKey.getD key ∅).toList.filterMap fun id => x.entries[id]?.map (·.2)

end JoinIndex

structure JoinMemory where
  left : JoinIndex := {}
  right : JoinIndex := {}
  deriving Inhabited

namespace JoinMemory

def side (m : JoinMemory) : Side → JoinIndex
  | .left => m.left
  | .right => m.right

def other (m : JoinMemory) : Side → JoinIndex
  | .left => m.right
  | .right => m.left

def setSide (m : JoinMemory) (s : Side) (x : JoinIndex) : JoinMemory :=
  match s with
  | .left => { m with left := x }
  | .right => { m with right := x }

/-- The joined tuple of `own`, which lives on side `s`, and `partner`. -/
def combine (s : Side) (own partner : Tuple) (origin : Nat) : Tuple :=
  match s with
  | .left => own.join partner origin
  | .right => partner.join own origin

def combineIds (s : Side) (own partner : TupleId) : TupleId :=
  match s with
  | .left => own ++ partner
  | .right => partner ++ own

def retract (m : JoinMemory) (s : Side) (id : TupleId) : JoinMemory × List Delta :=
  match (m.side s).key? id with
  | none => (m, [])
  | some key =>
    (m.setSide s ((m.side s).erase id),
      ((m.other s).partners key).map fun p => .retract (combineIds s id p.id))

def insert (m : JoinMemory) (s : Side) (origin : Nat) (key : Key) (t : Tuple) :
    JoinMemory × List Delta :=
  (m.setSide s ((m.side s).add key t),
    ((m.other s).partners key).map fun p => .insert (combine s t p origin))

def refresh (m : JoinMemory) (s : Side) (origin : Nat) (key : Key) (t : Tuple) :
    JoinMemory × List Delta :=
  (m.setSide s ((m.side s).add key t),
    ((m.other s).partners key).map fun p => .update (combine s t p origin))

/-- The tuple `t` is live on side `s` and its key is now `key`. -/
def place (m : JoinMemory) (s : Side) (origin : Nat) (key : Key) (t : Tuple) :
    JoinMemory × List Delta :=
  match (m.side s).key? t.id with
  | none => m.insert s origin key t
  | some old =>
    if old = key then m.refresh s origin key t
    else
      let (m, gone) := m.retract s t.id
      let (m, new) := m.insert s origin key t
      (m, gone ++ new)

end JoinMemory

/-! ## Groups -/

/-- The accumulator of one group and the member values it was built from. -/
structure Group where
  accumulator : Accumulator
  values : HashMap TupleId Int64 := ∅

namespace Group

def empty (c : Collector) : Group := { accumulator := Accumulator.empty c }

def result (g : Group) : Int64 := g.accumulator.result

def add (id : TupleId) (value : Int64) : Step Group Unit := fun g =>
  match g.accumulator.add value with
  | .error f => .error f g
  | .ok accumulator => .ok () { accumulator, values := g.values.insert id value }

/-- Removes a member, rebuilding the accumulator where it cannot take a value back. -/
def remove (c : Collector) (id : TupleId) : Step Group Unit := fun g =>
  match g.values[id]? with
  | none => .ok () g
  | some value =>
    let g := { g with values := g.values.erase id }
    match g.accumulator.remove? value with
    | .error f => .error f g
    | .ok (some accumulator) => .ok () { g with accumulator }
    | .ok none =>
      match Accumulator.ofValues c (g.values.toList.map (·.2)) with
      | .error f => .error f g
      | .ok accumulator => .ok () { g with accumulator }

end Group

structure GroupMemory where
  groups : HashMap Key Group := ∅
  /-- The group that each live input belongs to. -/
  members : HashMap TupleId Key := ∅
  deriving Inhabited

namespace GroupMemory

/-- Runs `change` on the group under `key` and reports how its result moved. -/
def within (origin : Nat) (key : Key) (g : Group) (change : Step Group Unit) :
    Step GroupMemory (List Delta) := fun m =>
  match change g with
  | .error e g' => .error e { m with groups := m.groups.insert key g' }
  | .ok () g' =>
    .ok (if g.result = g'.result then [] else [.update (Tuple.ofGroup key g'.result origin)])
      { m with groups := m.groups.insert key g' }

def insert (c : Collector) (origin : Nat) (id : TupleId) (key : Key) (value : Int64) :
    Step GroupMemory (List Delta) := fun m =>
  let m := { m with members := m.members.insert id key }
  match m.groups[key]? with
  | some g => within origin key g (Group.add id value) m
  | none =>
    match Group.add id value (Group.empty c) with
    | .error e _ => .error e m
    | .ok () g =>
      .ok [.insert (Tuple.ofGroup key g.result origin)] { m with groups := m.groups.insert key g }

/-- The value of a member changes while its group stays the same. -/
def revalue (c : Collector) (origin : Nat) (id : TupleId) (key : Key) (value : Int64) :
    Step GroupMemory (List Delta) := fun m =>
  match m.groups[key]? with
  | none => .ok [] m
  | some g =>
    if g.values[id]? = some value then .ok [] m
    else within origin key g (do Group.remove c id; Group.add id value) m

def retract (c : Collector) (origin : Nat) (id : TupleId) : Step GroupMemory (List Delta) :=
  fun m =>
    match m.members[id]? with
    | none => .ok [] m
    | some key =>
      let m := { m with members := m.members.erase id }
      match m.groups[key]? with
      | none => .ok [] m
      | some g =>
        match Group.remove c id g with
        | .error e g => .error e { m with groups := m.groups.insert key g }
        | .ok () g' =>
          if g'.values.isEmpty then
            .ok [.retract [.group key]] { m with groups := m.groups.erase key }
          else
            .ok (if g.result = g'.result then [] else [.update (Tuple.ofGroup key g'.result origin)])
              { m with groups := m.groups.insert key g' }

/-- The member `id` is live, its group is now `key` and its value `value`. -/
def place (c : Collector) (origin : Nat) (id : TupleId) (key : Key) (value : Int64) :
    Step GroupMemory (List Delta) := do
  match (← get).members[id]? with
  | none => insert c origin id key value
  | some old =>
    if old = key then revalue c origin id key value
    else
      let gone ← retract c origin id
      let new ← insert c origin id key value
      return gone ++ new

end GroupMemory

/-! ## Scorers -/

/-- The score of each live match of a constraint, and their sum. -/
structure ScorerMemory (sh : Shape) where
  matched : HashMap TupleId (Score sh) := ∅
  total : Score sh := .zero
  /-- The match weights answered so far, newest first, where the constraint is watched. -/
  journal : List (Tuple × Int64) := []

namespace ScorerMemory

variable {sh : Shape}

/-- Adds `change` to the total and reports it. -/
def shift (change : Checked (Score sh)) : Step (ScorerMemory sh) (Score sh) := fun m =>
  match change with
  | .error f => .error f m
  | .ok d =>
    match m.total.add d with
    | .error f => .error f m
    | .ok total => .ok d { m with total }

/-- The match `id` is live and its score is now `score`. -/
def place (id : TupleId) (score : Score sh) : Step (ScorerMemory sh) (Score sh) := fun m =>
  shift (score.sub (m.matched.getD id .zero)) { m with matched := m.matched.insert id score }

def retract (id : TupleId) : Step (ScorerMemory sh) (Score sh) := fun m =>
  match m.matched[id]? with
  | none => shift (.ok .zero) m
  | some old => shift old.neg { m with matched := m.matched.erase id }

/-- Enters an answered match weight into the journal. -/
def note (t : Tuple) (weight : Int64) (m : ScorerMemory sh) : ScorerMemory sh :=
  { m with journal := (t, weight) :: m.journal }

end ScorerMemory

end PlanSearch
