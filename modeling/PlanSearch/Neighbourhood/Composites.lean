import PlanSearch.Move
import PlanSearch.Lifecycle
import PlanSearch.Random.Source

/-!
# Unions, products and filters of walks

How the inner nodes of a neighbourhood draw from their children. The children are numbered from zero
and share a state of any type `σ`; a step of a child yields a move or says that it ran dry.
-/

namespace PlanSearch

/-- The children of an inner node. -/
structure Children (S V σ : Type) where
  count : Nat
  step : Nat → σ → Source → Option (Move S V) × σ × Source
  restart : Nat → σ → σ

variable {S V σ : Type}

/-! ## Unions -/

/-- How often each child of a random union is drawn. -/
inductive Weights (S : Type) where
  | equal
  | fixed (weights : List Float)
  /-- Asked for at the start of every step. -/
  | perStep (weight : S → Nat → Float)

namespace Weights

/-- One weight for each of `n` children; a weight that is not finite or is negative counts as
zero, as does a missing one. -/
def resolve (w : Weights S) (n : Nat) (plan : S) : List Float :=
  let raw := match w with
    | equal => List.replicate n 1.0
    | fixed weights => (List.range n).map fun i => weights.getD i 0.0
    | perStep weight => (List.range n).map (weight plan)
  raw.map fun x => if !x.isFinite || x < 0.0 then 0.0 else x

end Weights

structure UnionWalk where
  /-- The weights of the current step, once they are known. -/
  weights : Option (List Float) := none
  /-- Which children of a random union ran dry. -/
  dry : List Bool
  /-- The child that an orderly union draws from. -/
  position : Nat := 0
  deriving Inhabited

namespace UnionWalk

def fresh (n : Nat) : UnionWalk := { dry := List.replicate n false }

/-- Draws from child after child, with at most `k` of them to go. -/
def nextOrderly (c : Children S V σ) :
    Nat → UnionWalk → σ → Source → Option (Move S V) × UnionWalk × σ × Source
  | 0, u, x, s => (none, u, x, s)
  | k + 1, u, x, s =>
    match c.step u.position x s with
    | (some m, x, s) => (some m, u, x, s)
    | (none, x, s) => nextOrderly c k { u with position := u.position + 1 } x s

/-- The weight of the children that did not run dry. -/
def total (weights : List Float) (dry : List Bool) : Float :=
  (weights.zip dry).foldl (fun sum (w, d) => if d then sum else sum + w) 0.0

/-- The child that `offset` falls to, from child `i` on, where the children before it weigh `sum`;
`last` if it falls behind them all. -/
def childAt (offset : Float) : Nat → Float → Option Nat → List Float → List Bool → Option Nat
  | i, sum, last, w :: ws, d :: ds =>
    if d || w ≤ 0.0 then childAt offset (i + 1) sum last ws ds
    else if offset < sum + w then some i
    else childAt offset (i + 1) (sum + w) (some i) ws ds
  | _, _, last, _, _ => last

/-- Draws a child by weight, and another one whenever the child turns out dry, which can happen once
for each child. -/
def nextRandom (c : Children S V σ) (weights : List Float) :
    Nat → UnionWalk → σ → Source → Option (Move S V) × UnionWalk × σ × Source
  | 0, u, x, s => (none, u, x, s)
  | k + 1, u, x, s =>
    let total := total weights u.dry
    if total ≤ 0.0 then (none, u, x, s)
    else
      let (fraction, s) := s.unit
      match childAt (fraction * total) 0 0.0 none weights u.dry with
      | none => (none, u, x, s)
      | some i =>
        match c.step i x s with
        | (some m, x, s) => (some m, u, x, s)
        | (none, x, s) => nextRandom c weights k { u with dry := u.dry.set i true } x s

def next (c : Children S V σ) (random : Bool) (weights : Weights S) (plan : S) (u : UnionWalk)
    (x : σ) (s : Source) : Option (Move S V) × UnionWalk × σ × Source :=
  if random then
    let now := u.weights.getD (weights.resolve c.count plan)
    nextRandom c now (c.count + 1) { u with weights := some now } x s
  else nextOrderly c (c.count - u.position) u x s

/-- All children are drawn from again. -/
def restart (u : UnionWalk) : UnionWalk :=
  { u with dry := u.dry.map fun _ => false, position := 0 }

def hear (n : Nat) (random : Bool) (weights : Weights S) (plan : S) (e : Event) (u : UnionWalk) :
    UnionWalk :=
  if e.restarts then
    { u.restart with weights := if random then some (weights.resolve n plan) else u.weights }
  else u

end UnionWalk

/-! ## Products -/

structure ProductWalk (S V : Type) where
  /-- The parts of the composite yielded last; none before the first. -/
  current : List (Move S V) := []
  /-- A child ran dry for good. -/
  done : Bool := false

namespace ProductWalk

/-- The next move of each of `k` children from child `i` on, unless one of them has none. -/
def parts (c : Children S V σ) : Nat → Nat → σ → Source → Option (List (Move S V)) × σ × Source
  | 0, _, x, s => (some [], x, s)
  | k + 1, i, x, s =>
    match c.step i x s with
    | (none, x, s) => (none, x, s)
    | (some m, x, s) =>
      match parts c k (i + 1) x s with
      | (none, x, s) => (none, x, s)
      | (some ms, x, s) => (some (m :: ms), x, s)

/-- The first move of each of `k` children from child `i` on, after a restart of it. -/
def firstParts (c : Children S V σ) :
    Nat → Nat → σ → Source → Option (List (Move S V)) × σ × Source
  | 0, _, x, s => (some [], x, s)
  | k + 1, i, x, s =>
    match c.step i (c.restart i x) s with
    | (none, x, s) => (none, x, s)
    | (some m, x, s) =>
      match firstParts c k (i + 1) x s with
      | (none, x, s) => (none, x, s)
      | (some ms, x, s) => (some (m :: ms), x, s)

/-- Turns the last of the first `p` children that has another move, and starts those behind it
over. -/
def turn (c : Children S V σ) (current : List (Move S V)) :
    Nat → σ → Source → Option (List (Move S V)) × σ × Source
  | 0, x, s => (none, x, s)
  | p + 1, x, s =>
    match c.step p x s with
    | (none, x, s) => turn c current p x s
    | (some m, x, s) =>
      match firstParts c (c.count - (p + 1)) (p + 1) x s with
      | (none, x, s) => (none, x, s)
      | (some ms, x, s) => (some (current.take p ++ m :: ms), x, s)

/-- A composite of one draw from each child. -/
def nextRandom (c : Children S V σ) (w : ProductWalk S V) (x : σ) (s : Source) :
    Option (Move S V) × ProductWalk S V × σ × Source :=
  match parts c c.count 0 x s with
  | (none, x, s) => (none, w, x, s)
  | (some ms, x, s) => (some (.composite ms), w, x, s)

/-- The composites in order, the last child varying fastest. -/
def nextOrderly (c : Children S V σ) (w : ProductWalk S V) (x : σ) (s : Source) :
    Option (Move S V) × ProductWalk S V × σ × Source :=
  if w.current.isEmpty then
    match parts c c.count 0 x s with
    | (none, x, s) => (none, { current := [], done := true }, x, s)
    | (some ms, x, s) => (some (.composite ms), { w with current := ms }, x, s)
  else
    match turn c w.current c.count x s with
    | (none, x, s) => (none, { w with done := true }, x, s)
    | (some ms, x, s) => (some (.composite ms), { w with current := ms }, x, s)

def next (c : Children S V σ) (random : Bool) (w : ProductWalk S V) (x : σ) (s : Source) :
    Option (Move S V) × ProductWalk S V × σ × Source :=
  if c.count = 0 ∨ w.done then (none, w, x, s)
  else if random then w.nextRandom c x s
  else w.nextOrderly c x s

end ProductWalk

/-! ## Filters -/

/-- How many moves in a row a filter may refuse when its child never ends. -/
def refusalLimit : Nat := 10000

/-- The first move that `keep` approves of, among at most `k`. -/
def nextKept (keep : Move S V → Bool) (step : σ → Source → Option (Move S V) × σ × Source) :
    Nat → σ → Source → Option (Move S V) × σ × Source
  | 0, x, s => (none, x, s)
  | k + 1, x, s =>
    match step x s with
    | (none, x, s) => (none, x, s)
    | (some m, x, s) => if keep m then (some m, x, s) else nextKept keep step k x s

end PlanSearch
