import PlanSearch.Error
import PlanSearch.Network.Basic
import Std.Data.HashMap.Basic

/-!
# Declaring a network

Streams of tuples are declared one from another and constraints on top of them. Two nodes that
apply functions of the same names to the same inputs are one node. `build` leaves out of the
propagation whatever feeds no constraint.
-/

namespace PlanSearch

/-- A function and the name it is shared under; functions without a name are never shared. Two
functions of one name are taken to be equal. -/
structure Named (α : Type) where
  name? : Option String
  run : α

def Named.map {α β : Type} (f : α → β) (x : Named α) : Named β := ⟨x.name?, f x.run⟩

/-- A stream of tuples within the builder that made it. -/
structure Stream where
  node : Nat
  owner : Nat
  deriving DecidableEq, Repr

/-- What two nodes have in common when they compute the same tuples. -/
inductive Signature where
  | source (family : Nat)
  | filter (input : Nat) (test : String)
  | join (left right : Nat) (leftKey rightKey : String)
  | group (input : Nat) (key : String) (collector : Collector) (value : String)
  deriving DecidableEq, Repr, Hashable

structure NetworkBuilder (S : Type) (sh : Shape) where
  /-- Tells the streams of one builder from those of another. -/
  id : Nat := 0
  package : String := ""
  nodes : Array (Node S sh) := #[]
  signatures : Std.HashMap Signature Nat := ∅
  constraints : List (Constraint sh) := []
  /-- How often a node was asked for that was there already. -/
  shared : Nat := 0

namespace NetworkBuilder

variable {S : Type} {sh : Shape}

/-! ## Nodes -/

/-- Enters `edge` among the outputs of its parent. -/
def connect (nodes : Array (Node S sh)) (parent : Nat) (edge : Edge) : Array (Node S sh) :=
  nodes.modify parent fun n => { n with children := n.children ++ [edge] }

/-- A new node behind its parents. -/
def append (b : NetworkBuilder S sh) (stage : Stage S sh) (parents : List (Nat × Side)) :
    Stream × NetworkBuilder S sh :=
  let id := b.nodes.size
  (⟨id, b.id⟩,
    { b with nodes := parents.foldl (fun nodes (parent, side) => connect nodes parent ⟨id, side⟩)
              (b.nodes.push { stage }) })

/-- The node of this signature, made if there is none yet. -/
def request (b : NetworkBuilder S sh) (signature? : Option Signature) (stage : Stage S sh)
    (parents : List (Nat × Side)) : Stream × NetworkBuilder S sh :=
  match signature? with
  | none => b.append stage parents
  | some signature =>
    match b.signatures[signature]? with
    | some node => (⟨node, b.id⟩, { b with shared := b.shared + 1 })
    | none =>
      let (stream, b) := b.append stage parents
      (stream, { b with signatures := b.signatures.insert signature stream.node })

/-- The node of a stream of this builder. -/
def check (b : NetworkBuilder S sh) (stream : Stream) : Except SolverError Nat :=
  if stream.owner = b.id ∧ stream.node < b.nodes.size then .ok stream.node
  else .error (.configuration
    s!"stream n{stream.node} was not created by this constraint factory")

/-! ## Streams -/

/-- Every fact of a family. -/
def forEach (b : NetworkBuilder S sh) (family : Nat) : Stream × NetworkBuilder S sh :=
  b.request (some (.source family)) (.source family) []

/-- The tuples that pass `test`. -/
def filter (b : NetworkBuilder S sh) (stream : Stream) (test : Named (S → Tuple → Checked Bool)) :
    Except SolverError (Stream × NetworkBuilder S sh) := do
  let input ← b.check stream
  return b.request (test.name?.map (.filter input)) (.filter test.run) [(input, .left)]

/-- The pairs of tuples with equal keys. -/
def join (b : NetworkBuilder S sh) (left right : Stream)
    (leftKey rightKey : Named (S → Tuple → Checked Key)) :
    Except SolverError (Stream × NetworkBuilder S sh) := do
  let l ← b.check left
  let r ← b.check right
  let signature? := do return Signature.join l r (← leftKey.name?) (← rightKey.name?)
  return b.request signature? (.join leftKey.run rightKey.run) [(l, .left), (r, .right)]

/-- One tuple for each key, with the collected value of its members. -/
def groupBy (b : NetworkBuilder S sh) (stream : Stream) (key : Named (S → Tuple → Checked Key))
    (c : Collector) (value : Named (S → Tuple → Checked Int64)) :
    Except SolverError (Stream × NetworkBuilder S sh) := do
  let input ← b.check stream
  let signature? := do return Signature.group input (← key.name?) c (← value.name?)
  return b.request signature? (.group key.run value.run c) [(input, .left)]

/-! ## Constraints -/

/-- Every tuple of `stream` moves the score by `weight` times its match weight. -/
def constrain (b : NetworkBuilder S sh) (name : String) (stream : Stream) (impact : Impact)
    (weight : Score sh) (matchWeight : S → Tuple → Checked Int64 := fun _ _ => .ok 1)
    (watched : Bool := false) : Except Failure (NetworkBuilder S sh) :=
  match b.check stream with
  | .error e => .error (.error e)
  | .ok input =>
    let name : ConstraintName := ⟨b.package, name⟩
    if weight.singleLevel?.isNone then
      .error (.error (.configuration
        s!"constraint '{name}' has weight {weight}, which must have exactly one nonzero level"))
    else if b.constraints.any (·.name == name) then
      .error (.error (.configuration s!"constraint '{name}' is defined twice"))
    else
      match weight.scaled impact.sign with
      | .error f => .error (.fault f)
      | .ok signed =>
        let (stream, b) := b.append (.scorer signed matchWeight watched) [(input, .left)]
        .ok { b with constraints := b.constraints ++ [⟨name, stream.node, weight, impact⟩] }

/-! ## Building -/

/-- Marks the nodes below `k` from which a scorer can be reached, given the marks from `k` on. -/
def markLive (nodes : Array (Node S sh)) : Nat → Array Bool → Array Bool
  | 0, live => live
  | k + 1, live =>
    let reaches := match nodes[k]? with
      | none => false
      | some n => n.stage.isScorer || n.children.any fun e => live.getD e.target false
    markLive nodes k (live.setIfInBounds k reaches)

/-- For each node, whether a scorer can be reached from it. -/
def liveNodes (nodes : Array (Node S sh)) : Array Bool :=
  markLive nodes nodes.size (Array.replicate nodes.size false)

/-- The live sources among `nodes`, numbered from `i`. -/
def liveSources (live : Array Bool) : Nat → List (Node S sh) → List (Nat × Nat)
  | _, [] => []
  | i, n :: nodes =>
    match n.stage with
    | .source family =>
      if live.getD i false then (family, i) :: liveSources live (i + 1) nodes
      else liveSources live (i + 1) nodes
    | _ => liveSources live (i + 1) nodes

/-- The network of the declared constraints. -/
def build (b : NetworkBuilder S sh) : Except SolverError (Network S sh) :=
  if b.constraints.isEmpty then
    .error (.configuration "constraint network defines no constraints")
  else
    let live := liveNodes b.nodes
    .ok
      { nodes := b.nodes.map fun n =>
          { n with children := n.children.filter fun e => live.getD e.target false }
        sources := liveSources live 0 b.nodes.toList
        constraints := b.constraints }

end NetworkBuilder

end PlanSearch
