import PlanSearch.Codec.Expression
import PlanSearch.Codec.Refusal
import PlanSearch.Codec.Score
import PlanSearch.Network.Session

/-!
# Network declarations in documents

A network is declared by a list of statements, each of which makes a stream or a constraint. Streams
go by names that later statements refer to.
-/

namespace PlanSearch

open Decoder

def Collector.names : List (String × Collector) :=
  [Collector.count, .sum, .countDistinct, .min, .max].map fun c => (c.name, c)

def Collector.decode : Decoder Collector := oneOf .key Collector.names

/-- A network that is being declared. -/
structure Draft (sh : Shape) where
  builder : NetworkBuilder (Sheet sh) sh
  /-- Makes streams that do not belong to the network. -/
  foreign : NetworkBuilder (Sheet sh) sh := { id := 1 }
  /-- The streams by name, newest first. -/
  streams : List (String × Stream) := []

namespace Draft

variable {sh : Shape}

def new (package : String) : Draft sh := { builder := { package } }

/-- The stream of this name. -/
def stream (d : Draft sh) (name : Document) : Except Refusal Stream := do
  let name ← (text name).mapError .document
  match d.streams.lookup name with
  | some s => return s
  | none => throw (.document (.missing name))

/-- Gives a stream the name that the statement asks for. -/
def bind (statement : Document) (s : Stream) (d : Draft sh) : Option Stream × Draft sh :=
  match statement.get "as" with
  | .text name => (some s, { d with streams := (name, s) :: d.streams })
  | _ => (some s, d)

/-- Carries out a statement that makes a constraint. -/
def constrain (d : Draft sh) (statement : Document) (impact : Impact) (name : Document) :
    Except Refusal (Draft sh) := do
  let input ← d.stream (statement.get "stream")
  let name ← (text name).mapError .document
  let weight ← (Score.decode (statement.get "weight")).mapError .document
  let matchWeight ←
    if statement.has "match" then
      Sheet.weightOf <$> (Sheet.Expression.decode (statement.get "match")).mapError .document
    else pure fun _ _ => .ok 1
  let builder ← (d.builder.constrain name input impact weight matchWeight
    (statement.flag "probe")).mapError .failure
  return { d with builder }

/-- Carries out a statement; also answers the stream that it makes. -/
def declare (d : Draft sh) (statement : Document) : Except Refusal (Option Stream × Draft sh) := do
  let ofReader {α : Type} (x : Except DocumentError α) : Except Refusal α := x.mapError .document
  let ofBuilder {α : Type} (x : Except SolverError α) : Except Refusal α :=
    x.mapError fun e => .failure (.error e)
  if statement.has "for_each" then
    let (s, builder) := d.builder.forEach (← ofReader (natural (statement.get "for_each")))
    return bind statement s { d with builder }
  else if statement.has "foreign" then
    let (s, foreign) := d.foreign.forEach (← ofReader (natural (statement.get "foreign")))
    return bind statement s { d with foreign }
  else if statement.has "filter" then
    let input ← d.stream (statement.get "filter")
    let test ← ofReader (Sheet.Test.decode (statement.get "pred"))
    let (s, builder) ← ofBuilder (d.builder.filter input test.toNamed)
    return bind statement s { d with builder }
  else if statement.has "join" then
    let left ← d.stream ((statement.get "join").item 0)
    let right ← d.stream ((statement.get "join").item 1)
    let leftKey ← ofReader (Sheet.KeyTerm.decode ((statement.get "keys").item 0))
    let rightKey ← ofReader (Sheet.KeyTerm.decode ((statement.get "keys").item 1))
    let (s, builder) ← ofBuilder (d.builder.join left right leftKey.toNamed rightKey.toNamed)
    return bind statement s { d with builder }
  else if statement.has "group" then
    let input ← d.stream (statement.get "group")
    let key ← ofReader (Sheet.KeyTerm.decode (statement.get "key"))
    let value ← ofReader (Sheet.ValueTerm.decode (statement.get "value"))
    let c ← ofReader (Collector.decode (statement.get "collector"))
    let (s, builder) ← ofBuilder (d.builder.groupBy input key.toNamed c value.toNamed)
    return bind statement s { d with builder }
  else if statement.has "penalize" then
    return (none, ← d.constrain statement .penalty (statement.get "penalize"))
  else
    return (none, ← d.constrain statement .reward (statement.get "reward"))

/-- The network that a list of statements declares. -/
def network (package : String) (statements : List Document) :
    Except Refusal (Network (Sheet sh) sh) := do
  let d ← statements.foldlM (fun d s => (·.2) <$> d.declare s) (Draft.new package)
  d.builder.build.mapError fun e => .failure (.error e)

end Draft

/-! ## Networks and sessions -/

def Impact.describe : Impact → String
  | penalty => "Penalty"
  | reward => "Reward"

def ConstraintTotal.encode {sh : Shape} (t : ConstraintTotal sh) : Document :=
  .table
    [("name", .text t.name.full), ("impact", .text t.impact.describe), ("weight", t.weight.encode),
     ("score", t.score.encode), ("count", .ofNat t.matchCount)]

/-- What watched constraints answered last for each tuple, by the name of the constraint. -/
structure Journal where
  answers : List (String × TupleId × String × Int64) := []
  deriving Inhabited

namespace Journal

/-- Enters what a session noted. -/
def collect {S : Type} {sh : Shape} (s : Session S sh) (j : Journal) : Journal :=
  s.network.constraints.foldl (fun j c =>
    (s.journal c).foldl (fun j (t, w) =>
      ⟨(c.name.name, t.id, t.describe, w) ::
        j.answers.filter fun (name, id, _) => !(name == c.name.name && id == t.id)⟩) j) j

/-- The answers of one constraint by description and weight, which leave the journal. -/
def take (name : String) (j : Journal) : Document × Journal :=
  let (mine, others) := j.answers.partition fun (other, _) => other == name
  let sorted := (mine.map fun (_, _, answer) => answer).mergeSort fun a b =>
    ((compare a.1 b.1).then (compare a.2 b.2)) != .gt
  (.list (sorted.map fun (description, w) => .list [.text description, .ofInt64 w]), ⟨others⟩)

end Journal

end PlanSearch
