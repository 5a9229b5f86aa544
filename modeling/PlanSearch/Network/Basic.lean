import PlanSearch.Network.Memory
import PlanSearch.Score.Text

/-!
# Constraint networks

A network is an array of stages. Sources deliver the facts of a family, filters, joins and groups
derive tuples from tuples, and scorers weigh the matches of one constraint. Each node knows where
its output goes; edges lead to higher indices only.
-/

namespace PlanSearch

/-- What a node does with its input; the problem's functions read the plan as it is. -/
inductive Stage (S : Type) (sh : Shape) where
  | source (family : Nat)
  | filter (test : S → Tuple → Checked Bool)
  | join (leftKey rightKey : S → Tuple → Checked Key)
  | group (key : S → Tuple → Checked Key) (value : S → Tuple → Checked Int64) (collector : Collector)
  /-- The weight of one match, with the sign of the constraint's impact, and how much a match
  counts. -/
  | scorer (weight : Score sh) (matchWeight : S → Tuple → Checked Int64) (watched : Bool)

namespace Stage

variable {S : Type} {sh : Shape}

def label : Stage S sh → String
  | source _ => "source"
  | filter _ => "filter"
  | join _ _ => "join"
  | group _ _ _ => "group"
  | scorer _ _ _ => "scorer"

def isScorer : Stage S sh → Bool
  | scorer _ _ _ => true
  | _ => false

end Stage

/-- Where the output of a node goes. -/
structure Edge where
  target : Nat
  side : Side
  deriving DecidableEq, Repr, Inhabited

structure Node (S : Type) (sh : Shape) where
  stage : Stage S sh
  children : List Edge := []

/-- A constraint and the scorer that weighs it. -/
structure Constraint (sh : Shape) where
  name : ConstraintName
  scorer : Nat
  weight : Score sh
  impact : Impact

/-- The score and the number of matches of one constraint. -/
structure ConstraintTotal (sh : Shape) where
  name : ConstraintName
  impact : Impact
  weight : Score sh
  score : Score sh
  matchCount : Nat

structure Network (S : Type) (sh : Shape) where
  nodes : Array (Node S sh)
  /-- The families that are read, each with its source. -/
  sources : List (Nat × Nat)
  constraints : List (Constraint sh)

namespace Network

variable {S : Type} {sh : Shape}

/-- The source that delivers the facts of a family. -/
def source? (n : Network S sh) (family : Nat) : Option Nat := n.sources.lookup family

def families (n : Network S sh) : List Nat := n.sources.map (·.1)

def label? (n : Network S sh) (node : Nat) : Option String := n.nodes[node]?.map (·.stage.label)

def describe (n : Network S sh) : String :=
  Outline.record "ConstraintNetwork"
    [("nodes", toString n.nodes.size),
     ("sources", Outline.list (n.sources.map fun (family, node) =>
        Outline.apply "" [toString family, Outline.apply "NodeId" [toString node]])),
     ("constraints", Outline.list (n.constraints.map fun c => Text.quote c.name.full))]

end Network

end PlanSearch
