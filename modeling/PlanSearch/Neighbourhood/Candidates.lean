import PlanSearch.Lifecycle
import PlanSearch.Mode
import PlanSearch.Random.Source
import PlanSearch.Variable

/-!
# Walking entities and values

Two walks that neighbourhoods are built from: one over the movable entities of a family, one over
what may be assigned to an entity. Both list their candidates when they are first asked after a
restart and keep to that list until the next one.
-/

namespace PlanSearch

/-! ## Entities -/

/-- A walk over entities. In random order the candidates stay; otherwise they are used up. -/
structure EntityWalk where
  candidates : List Nat := []
  /-- The candidates have to be listed anew. -/
  stale : Bool := true
  tracker : Tracker := {}
  deriving Inhabited

namespace EntityWalk

variable {S : Type} {sh : Shape} [Plan S sh]

/-- Lists the candidates. -/
def refresh (plan : S) (family : Nat) (order : Order) (w : EntityWalk) (s : Source) :
    EntityWalk × Source :=
  let all := Plan.movable plan family
  let (candidates, s) := if order = .shuffled then s.shuffle all else (all, s)
  ({ w with candidates, stale := false }, s)

/-- Lists the candidates where that is due. -/
def prepare (plan : S) (family : Nat) (order : Order) (w : EntityWalk) (s : Source) :
    EntityWalk × Source :=
  if w.stale then w.refresh plan family order s else (w, s)

def next (plan : S) (family : Nat) (order : Order) (w : EntityWalk) (s : Source) :
    Option Nat × EntityWalk × Source :=
  let (w, s) := w.prepare plan family order s
  match w.candidates with
  | [] => (none, w, s)
  | e :: rest =>
    if order.isRandom then
      let (i, s) := s.below w.candidates.length
      (w.candidates[i]?, w, s)
    else (some e, { w with candidates := rest }, s)

def restart (w : EntityWalk) : EntityWalk := { w with stale := true }

def hear (e : Event) (w : EntityWalk) : EntityWalk :=
  let w := { w with tracker := w.tracker.record e }
  if e.restarts then w.restart else w

/-- The entities that an orderly walk has yet to visit. -/
def upcoming (plan : S) (family : Nat) (w : EntityWalk) : List Nat :=
  if w.stale then Plan.movable plan family else w.candidates

end EntityWalk

/-! ## Values -/

/-- A walk over what may be assigned to one entity. -/
structure ValueWalk (V : Type) where
  all : List (Option V) := []
  /-- What an orderly walk has yet to visit. -/
  upcoming : List (Option V) := []
  /-- The entity that the values were listed for. -/
  entity : Option Nat := none
  /-- The values have to be listed anew. -/
  stale : Bool := true
  tracker : Tracker := {}
  deriving Inhabited

namespace ValueWalk

variable {S V : Type}

/-- The values at hand are not those of `entity`. -/
def isOutdated (d : Definition S V) (entity : Nat) (w : ValueWalk V) : Bool :=
  w.stale || (d.range.isPerEntity && w.entity != some entity)

/-- Turns to `entity`, from its first value on. -/
def start (plan : S) (d : Definition S V) (order : Order) (entity : Nat) (w : ValueWalk V)
    (s : Source) : ValueWalk V × Source :=
  let w :=
    if w.isOutdated d entity then
      { w with all := d.choices plan entity, entity := some entity, stale := false }
    else w
  let (all, s) := if order = .shuffled then s.shuffle w.all else (w.all, s)
  ({ w with all, upcoming := all }, s)

def next (plan : S) (d : Definition S V) (order : Order) (entity : Nat) (w : ValueWalk V)
    (s : Source) : Option (Option V) × ValueWalk V × Source :=
  let (w, s) := if w.isOutdated d entity then w.start plan d order entity s else (w, s)
  if order.isRandom then
    if w.all.isEmpty then (none, w, s)
    else
      let (i, s) := s.below w.all.length
      (w.all[i]?, w, s)
  else
    match w.upcoming with
    | [] => (none, w, s)
    | v :: rest => (some v, { w with upcoming := rest }, s)

def restart (w : ValueWalk V) : ValueWalk V := { w with stale := true }

def hear (e : Event) (w : ValueWalk V) : ValueWalk V :=
  let w := { w with tracker := w.tracker.record e }
  if e.restarts then w.restart else w

/-- A walk over the values of `d`. -/
def describe [ToString V] (d : Definition S V) (order : Order) : String :=
  Outline.record "ValueSelector"
    [("value_range", d.range.describe),
     ("allows_unassigned", toString d.allowsUnassigned),
     ("order", order.describe)]

end ValueWalk

end PlanSearch
