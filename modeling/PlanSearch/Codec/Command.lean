import PlanSearch.Codec.Dialogue
import PlanSearch.Codec.Editable
import PlanSearch.Codec.Lifecycle

/-!
# Commands

What can be done to a plan, or to a workspace with a plan, from outside.
-/

namespace PlanSearch

open Decoder Dialogue

/-! ## Edits of a plan -/

/-- A change to a plan that nobody is told of. -/
inductive Edit where
  | write (fact : Fact) (column : Nat) (value : Option Int64)
  | push (family : Nat) (row : Document)
  | pop (family : Nat)
  | pin (fact : Fact) (isPinned : Bool)
  | setRange (k : Nat) (values : List Int64)
  | setEntityRange (k entity : Nat) (values : List Int64)
  | setWeight (child : Nat) (weight : Float)

namespace Edit

/-- The edit of this name, if there is one. -/
def decode? (name : String) (d : Document) : Except DocumentError (Option Edit) := do
  let n (i : Nat) : Except DocumentError Nat := natural (d.item i)
  match name with
  | "set" => return some (.write ⟨← n 1, ← n 2⟩ (← n 3) (← cell (d.item 4)))
  | "push" => return some (.push (← n 1) (d.item 2))
  | "pop" => return some (.pop (← n 1))
  | "pin" => return some (.pin ⟨← n 1, ← n 2⟩ (← truth (d.item 3)))
  | "set_range" => return some (.setRange (← n 1) (← list int64 (d.item 2)))
  | "set_entity_range" => return some (.setEntityRange (← n 1) (← n 2) (← list int64 (d.item 3)))
  | "set_weight" => return some (.setWeight (← n 1) (← weight (d.item 2)))
  | _ => return none

def apply {S : Type} [Editable S] (s : S) : Edit → Except DocumentError S
  | write f column v => return Editable.write s f column v
  | push family row => Editable.push s family row
  | pop family => return Editable.pop s family
  | pin f isPinned => return Editable.pin s f isPinned
  | setRange k values => return Editable.setRange s k values
  | setEntityRange k i values => return Editable.setEntityRange s k i values
  | setWeight i w => return Editable.setWeight s i w

end Edit

/-! ## Desks -/

/-- A plan, a random source and a tool that works with both. -/
structure Desk (S X : Type) where
  plan : S
  source : Source
  tool : X

/-- Draws a word. -/
def Source.draw : Dialogue Source Document :=
  turn fun s => let (w, s) := s.next64; (.ofUnsigned w, s)

namespace Desk

variable {S X α : Type}

/-- A request that changes the plan or the source; every other one goes to `other`. -/
def request [Editable S] (other : String → Document → Dialogue (Desk S X) Document)
    (name : String) (d : Document) : Dialogue (Desk S X) Document := do
  match ← ofAnswer (.ofReader (Edit.decode? name d)) with
  | some edit =>
    let plan ← ofAnswer (.ofReader (edit.apply (← get).plan))
    update fun x => { x with plan }
  | none =>
    match name with
    | "rng" =>
      let source ← want Source.decode (d.item 1)
      update fun x => { x with source }
    | "draw" => onPart (·.source) (fun source x => { x with source }) Source.draw
    | _ => other name d

/-- Works with the tool on the plan and the source. -/
def work (f : X → S → Source → α × X × Source) : Dialogue (Desk S X) α := turn fun d =>
  let (a, tool, source) := f d.tool d.plan d.source
  (a, { d with tool, source })

/-- Sets the tool anew. -/
def adjust (f : X → S → X) : Dialogue (Desk S X) Document :=
  update fun d => { d with tool := f d.tool d.plan }

end Desk

/-! ## Commands to a workspace -/

namespace Workspace

variable {W S : Type} {sh : Shape} [Workspace W S sh] [Editable S]

/-- A request to change the plan, to announce a change, or to tell the score or the plan. -/
def request (name : String) (d : Document) : Dialogue W Document := do
  let family : Dialogue W Nat := want natural (d.item 1)
  let fact : Dialogue W Fact := do return ⟨← family, ← want natural (d.item 2)⟩
  let announce (f : Fact → W → W) : Dialogue W Document := do
    let x ← fact
    update (f x)
  let enter (f : Fact → Nat → Option Int64 → W → W) : Dialogue W Document := do
    let x ← fact
    let column ← want natural (d.item 3)
    let v ← want cell (d.item 4)
    update (f x column v)
  match name with
  | "set" => enter write
  | "write" => enter fun f column v => modify fun s => Editable.write s f column v
  | "touch" => update (modify fun s => s)
  | "before" => announce beforeChange
  | "after" => announce afterChange
  | "added" => announce afterAdded
  | "removing" => announce beforeRemoved
  | "push" =>
    let w ← ofAnswer (.ofReader (push (← family) (d.item 2) (← get)))
    update fun _ => w
  | "pop" =>
    let w ← Dialogue.ofChecked (pop (← family) (← get))
    update fun _ => w
  | "calc" => return (← ofAction scoreNow).encode
  | "solution" => asks fun w => Editable.encode (plan w)
  | _ => reject

end Workspace

end PlanSearch
