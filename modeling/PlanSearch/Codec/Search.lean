import PlanSearch.Codec.Lifecycle
import PlanSearch.Config.Build
import PlanSearch.Config.Decode
import PlanSearch.Codec.Declaration

/-!
# Moves, neighbourhoods and phases in documents

Parts of a search that refer to the variables of a domain by name. Where a configuration describes
a part, the part may also be given by that configuration.
-/

namespace PlanSearch

open Decoder

/-- The definition of a variable of this name. -/
def Domain.find {S V : Type} (domain : Domain S V) : Decoder (Definition S V) := fun d => do
  let name ← text d
  match domain.definitions.find? fun d => d.cell.name == name with
  | some d => return d
  | none => throw (.missing name)

/-- An order with nothing around it. -/
def Order.decode : Decoder Order := fun d => do
  return (← orElse .inherit OrderChoice.decode d).resolve .inherit

def Order.encode (o : Order) : Document := .ofName OrderChoice.names (.own o)

variable {S : Type}

/-! ## Moves -/

namespace Move

/-- A move that is nested at most `depth` deep. -/
def decodeWithin (domain : Domain S Int64) : Nat → Decoder (Move S Int64)
  | 0, _ => .error (.unexpected "a move that is nested less deeply")
  | depth + 1, d => do
    if d.has "change" then
      let d := d.get "change"
      return .leaf (.change (← domain.find (d.item 0)).cell (← natural (d.item 1))
        (← cell (d.item 2)))
    else if d.has "swap" then
      let d := d.get "swap"
      return .leaf (.swap (← domain.find (d.item 0)).cell (← natural (d.item 1))
        (← natural (d.item 2)))
    else return .composite (← list (decodeWithin domain depth) (d.get "composite"))

def decode (domain : Domain S Int64) : Decoder (Move S Int64) := fun d =>
  decodeWithin domain (d.depth + 1) d

end Move

/-! ## Filters -/

/-- The moves that a filter keeps. -/
inductive MoveFilter where
  | nothing
  /-- Changes assign one of these values. -/
  | target (values : List (Option Int64))
  /-- The entities that a move touches leave this remainder. -/
  | entityMod (modulus remainder : Nat)
  /-- The entities that a move touches are not among the last `n` of the first family. -/
  | notLast (n : Nat)

namespace MoveFilter

def decode : Decoder MoveFilter := fun d => do
  if d.has "to" then return .target (← list cell (d.get "to"))
  else if d.has "entity_mod" then
    let d := d.get "entity_mod"
    return .entityMod (← natural (d.item 0)) (← natural (d.item 1))
  else if d.has "not_last" then return .notLast (← natural (d.get "not_last"))
  else return .nothing

def keepsLeaf {sh : Shape} [Plan S sh] (f : MoveFilter) (plan : S) (m : Leaf S Int64) : Bool :=
  let entities := m.slots.map Slot.entity
  match f, m with
  | nothing, _ => false
  | target values, .change _ _ v => values.contains v
  | target _, .swap _ _ _ => true
  | entityMod modulus r, _ => entities.all fun e => e % modulus == r
  | notLast n, _ => entities.all fun e => e + n < Plan.entityCount plan 0

/-- Whether every leaf of a move is to be kept. -/
def keeps {sh : Shape} [Plan S sh] (f : MoveFilter) (plan : S) (m : Move S Int64) : Bool :=
  match f with
  | nothing => false
  | f => m.leaves.all (f.keepsLeaf plan)

end MoveFilter

/-! ## Neighbourhoods -/

/-- What trees refer to. -/
structure Surroundings (S : Type) where
  domain : Domain S Int64
  /-- The weight of the child of a union at the start of a step. -/
  weight : S → Nat → Float

def Weights.decode (x : Surroundings S) : Decoder (Weights S)
  | .list ws => .fixed <$> ws.mapM Decoder.weight
  | .text "per_step" => return .perStep x.weight
  | _ => return .equal

namespace Tree

variable {sh : Shape} [Plan S sh]

/-- A tree that is nested at most `depth` deep. -/
def decodeWithin (x : Surroundings S) : Nat → Document → Except Refusal (Tree S Int64)
  | 0, _ => .error (.document (.unexpected "a tree that is nested less deeply"))
  | depth + 1, d => do
    let definition (key : String) := (x.domain.find (d.get key)).mapError Refusal.document
    let children (key : String) := (d.get key).items.mapM (decodeWithin x depth)
    let order := (Order.decode (d.get "order")).mapError Refusal.document
    if d.has "change" then return .change (← definition "change") (← order)
    else if d.has "swap" then return .swap (← definition "swap").cell (← order)
    else if d.has "union" then
      return .union (← children "union") (← order).isRandom
        (← (Weights.decode x (d.get "weights")).mapError .document)
    else if d.has "cartesian" then return .product (← children "cartesian") (← order).isRandom
    else if d.has "child" then
      let f ← (MoveFilter.decode (d.get "filter")).mapError .document
      return .filter (← decodeWithin x depth (d.get "child")) f.keeps
    else if d.has "config" then
      let c ← (MoveConfig.decode (d.get "config")).mapError .document
      (c.build x.domain).mapError fun e => .failure (.error e)
    else (MoveConfig.everyChange x.domain).mapError fun e => .failure (.error e)

def decode (x : Surroundings S) (d : Document) : Except Refusal (Tree S Int64) :=
  decodeWithin x (d.depth + 1) d

end Tree

/-! ## Phases -/

namespace SearchPhase

variable {sh : Shape} [Plan S sh]

def decodeConstruction (x : Surroundings S) (d : Document) :
    Except Refusal (Construction S Int64 sh) := do
  let ds ← (list x.domain.find (d.get "construction")).mapError .document
  let pickEarly ← (orElse .never (oneOf .key PickEarly.names) (d.get "pick_early")).mapError .document
  let termination ← (optional Termination.decode (d.get "termination")).mapError .document
  let p : Construction S Int64 sh ←
    if d.flag "decreasing" then
      (Construction.firstFitDecreasing ds).mapError fun e => .failure (.error e)
    else pure (.firstFit ds)
  return { p with pickEarly, termination }

def decodeLocalSearch (x : Surroundings S) (d : Document) :
    Except Refusal (LocalSearch S Int64 sh) := do
  let part {α : Type} (fallback : α) (f : Decoder α) (key : String) : Except Refusal α :=
    (orElse fallback f (d.get key)).mapError .document
  let acceptance ← part .hillClimbing AcceptanceConfig.decode "acceptor"
  let forager ← part {} ForagerConfig.decode "forager"
  let p : LocalSearch S Int64 sh := {
    neighbourhood := .ofTree (← Tree.decode x (d.get "local_search"))
    acceptance := acceptance.build
    forager := forager.build
    termination := ← part none (fun d => some <$> Termination.decode d) "termination"
    noAcceptedMove := ← part .terminate (oneOf .key NoAcceptedMove.names) "policy"
    candidateLimit := ← part none (fun d => some <$> natural d) "limit" }
  match ← part none (fun d => some <$> natural d) "threads" with
  | none => return p
  | some n => (p.withThreads n).mapError fun e => .failure (.error e)

/-- A phase by its parts. -/
def decode (x : Surroundings S) (d : Document) : Except Refusal (SearchPhase S Int64 sh) :=
  if d.has "construction" then construction <$> decodeConstruction x d
  else localSearch <$> decodeLocalSearch x d

end SearchPhase

end PlanSearch
