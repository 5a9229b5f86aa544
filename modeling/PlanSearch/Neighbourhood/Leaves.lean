import PlanSearch.Move
import PlanSearch.Neighbourhood.Candidates

/-!
# Change and swap walks

The leaves of a neighbourhood: all assignments of a value to an entity, and all exchanges of values
between two entities. A random walk draws without end; an orderly one visits each move once.
-/

namespace PlanSearch

/-! ## Changes -/

structure ChangeWalk (V : Type) where
  entities : EntityWalk := {}
  values : ValueWalk V := {}
  /-- The entity whose values an orderly walk is visiting. -/
  current : Option Nat := none
  deriving Inhabited

namespace ChangeWalk

variable {S V : Type} {sh : Shape} [Plan S sh]

/-- Draws an entity and one of its values; entities without values cost an attempt. -/
def nextRandom (plan : S) (d : Definition S V) :
    Nat → ChangeWalk V → Source → Option (Move S V) × ChangeWalk V × Source
  | 0, w, s => (none, w, s)
  | attempts + 1, w, s =>
    match w.entities.next plan d.cell.family .random s with
    | (none, entities, s) => (none, { w with entities }, s)
    | (some e, entities, s) =>
      match w.values.next plan d .random e s with
      | (some v, values, s) => (some (.leaf (.change d.cell e v)), { w with entities, values }, s)
      | (none, values, s) => nextRandom plan d attempts { w with entities, values } s

/-- Turns to the first of the entities that has a value; answers it with its value, and the
entities behind it. -/
def advance (plan : S) (d : Definition S V) (order : Order) :
    List Nat → ValueWalk V → Source → Option (Nat × Option V) × List Nat × ValueWalk V × Source
  | [], values, s => (none, [], values, s)
  | e :: rest, values, s =>
    let (values, s) := values.start plan d order e s
    match values.next plan d order e s with
    | (some v, values, s) => (some (e, v), rest, values, s)
    | (none, values, s) => advance plan d order rest values s

/-- The first move of an entity that was not visited yet. -/
def nextEntity (plan : S) (d : Definition S V) (order : Order) (w : ChangeWalk V) (s : Source) :
    Option (Move S V) × ChangeWalk V × Source :=
  let (entities, s) := w.entities.prepare plan d.cell.family order s
  match advance plan d order entities.candidates w.values s with
  | (some (e, v), rest, values, s) =>
    (some (.leaf (.change d.cell e v)),
      { entities := { entities with candidates := rest }, values, current := some e }, s)
  | (none, rest, values, s) =>
    (none, { entities := { entities with candidates := rest }, values, current := none }, s)

def nextOrderly (plan : S) (d : Definition S V) (order : Order) (w : ChangeWalk V) (s : Source) :
    Option (Move S V) × ChangeWalk V × Source :=
  match w.current with
  | none => w.nextEntity plan d order s
  | some e =>
    match w.values.next plan d order e s with
    | (some v, values, s) => (some (.leaf (.change d.cell e v)), { w with values }, s)
    | (none, values, s) => nextEntity plan d order { w with values } s

def next (plan : S) (d : Definition S V) (order : Order) (w : ChangeWalk V) (s : Source) :
    Option (Move S V) × ChangeWalk V × Source :=
  if order.isRandom then w.nextRandom plan d (max (Plan.entityCount plan d.cell.family) 1) s
  else w.nextOrderly plan d order s

def restart (w : ChangeWalk V) : ChangeWalk V where
  entities := w.entities.restart
  values := w.values.restart
  current := none

def hear (e : Event) (w : ChangeWalk V) : ChangeWalk V where
  entities := w.entities.hear e
  values := w.values.hear e
  current := if e.restarts then none else w.current

/-- No more moves than these come before the next restart of an orderly walk. -/
def supply (plan : S) (d : Definition S V) (w : ChangeWalk V) : Nat :=
  let bound (e : Nat) := w.values.all.length + (d.choices plan e).length
  (w.entities.upcoming plan d.cell.family).foldl (fun n e => n + bound e) (w.current.elim 0 bound)

end ChangeWalk

/-! ## Swaps -/

/-- An orderly walk pairs the first of `lefts` with each of `rights`, then goes on to the next. -/
structure SwapWalk where
  entities : EntityWalk := {}
  lefts : List Nat := []
  rights : List Nat := []
  /-- The entities have to be listed anew. -/
  stale : Bool := true
  deriving Inhabited

namespace SwapWalk

variable {S V : Type} {sh : Shape} [Plan S sh]

def nextRandom (plan : S) (x : Variable S V) (w : SwapWalk) (s : Source) :
    Option (Move S V) × SwapWalk × Source :=
  match w.entities.next plan x.family .random s with
  | (none, entities, s) => (none, { w with entities }, s)
  | (some left, entities, s) =>
    match entities.next plan x.family .random s with
    | (none, entities, s) => (none, { w with entities }, s)
    | (some right, entities, s) => (some (.leaf (.swap x left right)), { w with entities }, s)

/-- Lists the entities where that is due. -/
def prepare (plan : S) (x : Variable S V) (order : Order) (w : SwapWalk) (s : Source) :
    SwapWalk × Source :=
  if w.stale then
    let all := Plan.movable plan x.family
    let (lefts, s) := if order = .shuffled then s.shuffle all else (all, s)
    ({ w with lefts, rights := lefts.tail, stale := false }, s)
  else (w, s)

/-- The next pair, and what is left of the walk. -/
def nextPair : List Nat → List Nat → Option (Nat × Nat) × List Nat × List Nat
  | left :: lefts, right :: rights => (some (left, right), left :: lefts, rights)
  | _ :: left :: lefts, [] =>
    match lefts with
    | [] => (none, [left], [])
    | right :: rights => (some (left, right), left :: lefts, rights)
  | _, _ => (none, [], [])

def nextOrderly (plan : S) (x : Variable S V) (order : Order) (w : SwapWalk) (s : Source) :
    Option (Move S V) × SwapWalk × Source :=
  let (w, s) := w.prepare plan x order s
  match nextPair w.lefts w.rights with
  | (none, lefts, rights) => (none, { w with lefts, rights }, s)
  | (some (left, right), lefts, rights) =>
    (some (.leaf (.swap x left right)), { w with lefts, rights }, s)

def next (plan : S) (x : Variable S V) (order : Order) (w : SwapWalk) (s : Source) :
    Option (Move S V) × SwapWalk × Source :=
  if order.isRandom then w.nextRandom plan x s else w.nextOrderly plan x order s

def restart (w : SwapWalk) : SwapWalk :=
  { w with entities := w.entities.restart, stale := true }

def hear (e : Event) (w : SwapWalk) : SwapWalk :=
  { w with entities := w.entities.hear e, stale := w.stale || e.restarts }

/-- No more moves than these come before the next restart of an orderly walk. -/
def supply (plan : S) (x : Variable S V) (w : SwapWalk) : Nat :=
  let n := if w.stale then (Plan.movable plan x.family).length else w.lefts.length
  n * n + w.rights.length

end SwapWalk

end PlanSearch
