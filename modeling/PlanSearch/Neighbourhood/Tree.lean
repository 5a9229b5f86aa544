import PlanSearch.Neighbourhood.Leaves
import PlanSearch.Neighbourhood.Composites
import PlanSearch.Text.Decimal

/-!
# Neighbourhoods

A tree of selectors describes a neighbourhood: the moves that a search may try on a plan. The tree
itself never changes; a walk through it is a state whose type follows the shape of the tree.
`moves` is the neighbourhood as a list, and `next` draws from it move by move.
-/

namespace PlanSearch

inductive Tree (S V : Type) where
  | change (d : Definition S V) (order : Order)
  | swap (cell : Variable S V) (order : Order)
  | union (children : List (Tree S V)) (random : Bool) (weights : Weights S)
  | product (children : List (Tree S V)) (random : Bool)
  | filter (child : Tree S V) (keep : S → Move S V → Bool)

namespace Tree

variable {S V : Type} {sh : Shape} [Plan S sh]

/-! ## What a tree denotes -/

/-- All ways to take one element of each list, the last varying fastest. -/
def combinations {α : Type} : List (List α) → List (List α)
  | [] => [[]]
  | xs :: rest => xs.flatMap fun x => (combinations rest).map (x :: ·)

/-- The unordered pairs of places in a list. -/
def pairs {α : Type} : List α → List (α × α)
  | [] => []
  | x :: rest => rest.map (x, ·) ++ pairs rest

mutual

/-- The neighbourhood of a plan. -/
def moves (plan : S) : Tree S V → List (Move S V)
  | change d _ =>
    (Plan.movable plan d.cell.family).flatMap fun e =>
      (d.choices plan e).map fun v => .leaf (.change d.cell e v)
  | swap x _ => (pairs (Plan.movable plan x.family)).map fun (a, b) => .leaf (.swap x a b)
  | union children _ _ => (movesOf plan children).flatten
  | product children _ =>
    if children.isEmpty then [] else (combinations (movesOf plan children)).map .composite
  | filter child keep => (moves plan child).filter (keep plan)

def movesOf (plan : S) : List (Tree S V) → List (List (Move S V))
  | [] => []
  | t :: ts => moves plan t :: movesOf plan ts

end

mutual

/-- The number of moves, filters aside. A product of counts goes no higher than a 64-bit number can;
a sum that would is an overflow, and so are the ordered pairs of a swap. -/
def size (plan : S) : Tree S V → Checked Nat
  | change d _ =>
    (Plan.movable plan d.cell.family).foldlM
      (fun sum e => Checked.count (sum + (d.choices plan e).length)) 0
  | swap x _ => do
    let n := (Plan.movable plan x.family).length
    return (← Checked.count (n * (n - 1))) / 2
  | union children _ _ => sumSizes plan 0 children
  | product children _ => if children.isEmpty then .ok 0 else multiplySizes plan 1 children
  | filter child _ => size plan child

def sumSizes (plan : S) (sum : Nat) : List (Tree S V) → Checked Nat
  | [] => .ok sum
  | t :: ts => do
    let n ← size plan t
    sumSizes plan (← Checked.count (sum + n)) ts

def multiplySizes (plan : S) (product : Nat) : List (Tree S V) → Checked Nat
  | [] => .ok product
  | t :: ts => do
    let n ← size plan t
    multiplySizes plan (min (product * n) (UInt64.size - 1)) ts

end

mutual

/-- Whether drawing goes on without end. -/
def isNeverEnding : Tree S V → Bool
  | change _ order => order.isRandom
  | swap _ order => order.isRandom
  | union children random _ => random || someNeverEnding children
  | product children random =>
    if children.isEmpty then false
    else if random then allNeverEnding children
    else someNeverEnding children
  | filter child _ => isNeverEnding child

def someNeverEnding : List (Tree S V) → Bool
  | [] => false
  | t :: ts => isNeverEnding t || someNeverEnding ts

def allNeverEnding : List (Tree S V) → Bool
  | [] => true
  | t :: ts => isNeverEnding t && allNeverEnding ts

end

/-! ## Walks -/

mutual

/-- The state of a walk through a tree. -/
def State : Tree S V → Type
  | change _ _ => ChangeWalk V
  | swap _ _ => SwapWalk
  | union children _ _ => UnionWalk × States children
  | product children _ => ProductWalk S V × States children
  | filter child _ => State child

def States : List (Tree S V) → Type
  | [] => Unit
  | t :: ts => State t × States ts

end

mutual

/-- A walk that has heard nothing and drawn nothing. -/
def fresh : (t : Tree S V) → State t
  | change _ _ => ({} : ChangeWalk V)
  | swap _ _ => ({} : SwapWalk)
  | union children _ _ => (UnionWalk.fresh children.length, freshAll children)
  | product children _ => (({} : ProductWalk S V), freshAll children)
  | filter child _ => fresh child

def freshAll : (ts : List (Tree S V)) → States ts
  | [] => ()
  | t :: ts => (fresh t, freshAll ts)

end

mutual

/-- Starts the walk over. -/
def restart : (t : Tree S V) → State t → State t
  | change _ _, (w : ChangeWalk V) => w.restart
  | swap _ _, (w : SwapWalk) => w.restart
  | union children _ _, (u, x) => (u.restart, restartAll children x)
  | product children _, (_, x) => (({} : ProductWalk S V), restartAll children x)
  | filter child _, x => restart child x

def restartAll : (ts : List (Tree S V)) → States ts → States ts
  | [], x => x
  | t :: ts, (x, xs) => (restart t x, restartAll ts xs)

end

/-- Starts the walk through child `i` over. -/
def restartAt : (ts : List (Tree S V)) → Nat → States ts → States ts
  | [], _, x => x
  | t :: _, 0, (x, xs) => (restart t x, xs)
  | _ :: ts, i + 1, (x, xs) => (x, restartAt ts i xs)

mutual

/-- No more moves than these come before the next restart, where the tree comes to an end. -/
def supply (plan : S) : (t : Tree S V) → State t → Nat
  | change d _, (w : ChangeWalk V) => w.supply plan d
  | swap x _, (w : SwapWalk) => w.supply plan x
  | union children _ _, (_, x) => sumSupplies plan children x
  | product children random, (_, x) =>
    if random then sumSupplies plan children x else multiplySupplies plan children x
  | filter child _, x => supply plan child x

def sumSupplies (plan : S) : (ts : List (Tree S V)) → States ts → Nat
  | [], _ => 0
  | t :: ts, (x, xs) => (if isNeverEnding t then 0 else supply plan t x) + sumSupplies plan ts xs

/-- Each child goes on from where it is, or starts over. -/
def multiplySupplies (plan : S) : (ts : List (Tree S V)) → States ts → Nat
  | [], _ => 1
  | t :: ts, (x, xs) =>
    (1 + supply plan t x + supply plan t (restart t x)) * multiplySupplies plan ts xs

end

mutual

/-- The next move of a walk, if there is one. -/
def next (plan : S) : (t : Tree S V) → State t → Source → Option (Move S V) × State t × Source
  | change d order, (w : ChangeWalk V), s => w.next plan d order s
  | swap cell order, (w : SwapWalk), s => w.next plan cell order s
  | union children random weights, (u, x), s =>
    let c : Children S V (States children) :=
      ⟨children.length, stepAt plan children, restartAt children⟩
    match u.next c random weights plan x s with
    | (m, u, x, s) => (m, (u, x), s)
  | product children random, (w, x), s =>
    let c : Children S V (States children) :=
      ⟨children.length, stepAt plan children, restartAt children⟩
    match w.next c random x s with
    | (m, w, x, s) => (m, (w, x), s)
  | filter child keep, x, s =>
    let patience := if isNeverEnding child then refusalLimit else supply plan child x + 1
    nextKept (keep plan) (next plan child) patience x s

/-- The next move of child `i`. -/
def stepAt (plan : S) :
    (ts : List (Tree S V)) → Nat → States ts → Source → Option (Move S V) × States ts × Source
  | [], _, x, s => (none, x, s)
  | t :: _, 0, (x, xs), s =>
    match next plan t x s with
    | (m, x, s) => (m, (x, xs), s)
  | _ :: ts, i + 1, (x, xs), s =>
    match stepAt plan ts i xs s with
    | (m, xs, s) => (m, (x, xs), s)

end

/-! ## Events -/

mutual

/-- Passes an event down to the leaves. -/
def hear (plan : S) (e : Event) : (t : Tree S V) → State t → State t
  | change _ _, (w : ChangeWalk V) => w.hear e
  | swap _ _, (w : SwapWalk) => w.hear e
  | union children random weights, (u, x) =>
    (u.hear children.length random weights plan e, hearAll plan e children x)
  | product children _, (w, x) =>
    (if e.restarts then ({} : ProductWalk S V) else w, hearAll plan e children x)
  | filter child _, x => hear plan e child x

def hearAll (plan : S) (e : Event) : (ts : List (Tree S V)) → States ts → States ts
  | [], x => x
  | t :: ts, (x, xs) => (hear plan e t x, hearAll plan e ts xs)

end

mutual

/-- The trackers of the leaves, from left to right. -/
def trackers : (t : Tree S V) → State t → List Tracker
  | change _ _, (w : ChangeWalk V) => [w.entities.tracker, w.values.tracker]
  | swap _ _, (w : SwapWalk) => [w.entities.tracker]
  | union children _ _, (_, x) => trackersOf children x
  | product children _, (_, x) => trackersOf children x
  | filter child _, x => trackers child x

def trackersOf : (ts : List (Tree S V)) → States ts → List Tracker
  | [], _ => []
  | t :: ts, (x, xs) => trackers t x ++ trackersOf ts xs

end

/-! ## Diagnostics -/

def kind : Tree S V → String
  | change _ _ => "change"
  | swap _ _ => "swap"
  | union _ _ _ => "union"
  | product _ _ => "cartesian"
  | filter _ _ => "filtering"

end Tree

def Weights.describe {S : Type} : Weights S → String
  | equal => "Equal"
  | fixed weights => Outline.apply "Fixed" [Outline.list (weights.map Text.floatText)]
  | perStep _ => "PerStep(..)"

namespace Tree

variable {S V : Type}

mutual

def describe : Tree S V → String
  | change d order =>
    Outline.record "ChangeMoveSelector"
      [("variable", d.cell.describe), ("order", order.describe)]
  | swap x order =>
    Outline.record "SwapMoveSelector" [("variable", x.describe), ("order", order.describe)]
  | union children random weights =>
    Outline.record "UnionMoveSelector"
      [("children", Outline.list (describeAll children)), ("random", toString random),
       ("weights", weights.describe)]
  | product children random =>
    Outline.record "CartesianMoveSelector"
      [("children", Outline.list (describeAll children)), ("random", toString random)]
  | filter child _ => Outline.record "FilteringMoveSelector" [("child", describe child)]

def describeAll : List (Tree S V) → List String
  | [] => []
  | t :: ts => describe t :: describeAll ts

end

end Tree

/-- A tree and a walk through it. -/
structure Neighbourhood (S V : Type) where
  tree : Tree S V
  walk : tree.State

namespace Neighbourhood

variable {S V : Type} {sh : Shape} [Plan S sh]

def ofTree (t : Tree S V) : Neighbourhood S V := ⟨t, t.fresh⟩

def next (n : Neighbourhood S V) (plan : S) (s : Source) :
    Option (Move S V) × Neighbourhood S V × Source :=
  match n.tree.next plan n.walk s with
  | (m, walk, s) => (m, ⟨n.tree, walk⟩, s)

def restart (n : Neighbourhood S V) : Neighbourhood S V := ⟨n.tree, n.tree.restart n.walk⟩

def hear (n : Neighbourhood S V) (plan : S) (e : Event) : Neighbourhood S V :=
  ⟨n.tree, n.tree.hear plan e n.walk⟩

def trackers (n : Neighbourhood S V) : List Tracker := n.tree.trackers n.walk

end Neighbourhood

end PlanSearch
