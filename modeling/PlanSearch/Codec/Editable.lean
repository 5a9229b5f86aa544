import PlanSearch.Document.Decode
import PlanSearch.Document.Encode
import PlanSearch.Network.Session
import PlanSearch.Problem.Queens
import PlanSearch.Problem.Tasks
import PlanSearch.Sheet.Basic
import PlanSearch.Workspace.Basic

/-!
# Plans that are edited by address

Plans that can be shown as documents and changed from outside, cell by cell and row by row. An edit
of something that does not exist changes nothing.
-/

namespace PlanSearch

open Decoder

class Editable (S : Type) where
  encode : S → Document
  /-- The rows of a family. -/
  rowCount : S → Nat → Nat
  write : S → Fact → Nat → Option Int64 → S
  /-- Appends a row to a family. -/
  push : S → Nat → Document → Except DocumentError S
  /-- Drops the last row of a family. -/
  pop : S → Nat → S
  pin : S → Fact → Bool → S
  setRange : S → Nat → List Int64 → S := fun s _ _ => s
  setEntityRange : S → Nat → Nat → List Int64 → S := fun s _ _ _ => s
  setWeight : S → Nat → Float → S := fun s _ _ => s

/-! ## Sheets -/

/-- A row as a list of cells, or with a name and a pin. -/
def SheetRow.decode : Decoder SheetRow
  | .list cells => do return { cells := ← cells.mapM cell }
  | d => do
    return {
      cells := ← list cell (d.get "v")
      name := ← orElse "" text (d.get "name")
      isPinned := d.flag "pinned" }

def ColumnRange.decode : Decoder ColumnRange
  | .text "live" => return .upToFilled
  | .text "live_entity" => return .entityOrFilled
  | d => do
    if d.has "listed" then return .listed (← list int64 (d.get "listed"))
    else if d.has "computed" then return .shared (← natural (d.get "computed"))
    else return .perEntity (← natural (d.get "entity"))

def Column.decode : Decoder Column := fun d => do
  return {
    entityClass := ← text (d.get "class")
    name := ← text (d.get "name")
    family := ← natural (d.get "d")
    index := ← natural (d.get "f")
    range := ← ColumnRange.decode (d.get "range")
    allowsUnassigned := d.flag "unassigned"
    difficulty := ← optional natural (d.get "difficulty")
    counter := ← optional natural (d.get "counter") }

namespace Sheet

variable {sh : Shape}

def decode : Decoder (Sheet sh) := fun d => do
  return {
    families := ← orElse [] (list (list SheetRow.decode)) (d.get "classes")
    columns := ← orElse [] (list Column.decode) (d.get "variables")
    ranges := ← orElse [] (list (list int64)) (d.get "ranges")
    entityRanges := ← orElse [] (list (list (list int64))) (d.get "entity_ranges")
    weights := ← orElse [] (list weight) (d.get "weights")
    countsUnassigned := ← orElse true truth (d.get "count_uninitialized") }

/-- `xs` with `x` at place `i`, filled up with `pad` where it is too short. -/
def setPadded {α : Type} (pad : α) (xs : List α) (i : Nat) (x : α) : List α :=
  (xs ++ List.replicate (i + 1 - xs.length) pad).set i x

instance : Editable (Sheet sh) where
  encode s := .list (s.families.map fun rows =>
    .list (rows.map fun r => .list (r.cells.map .ofCell)))
  rowCount s d := (s.rows d).length
  write := write
  push s d row := do return s.push d (← SheetRow.decode row)
  pop := pop
  pin := pin
  setRange s k values := { s with ranges := setPadded [] s.ranges k values }
  setEntityRange s k i values :=
    { s with entityRanges :=
        setPadded [] s.entityRanges k (setPadded [] (s.entityRanges.getD k []) i values) }
  setWeight s i w := { s with weights := setPadded 0.0 s.weights i w }

end Sheet

/-! ## Boards and schedules -/

instance : Editable Queens.Board where
  encode b := .list (b.rows.map .ofCell)
  rowCount b _ := b.rows.length
  write b f _ v := b.place f.index v
  push b _ row := do return { b with rows := b.rows ++ [← cell row] }
  pop b _ := { b with rows := b.rows.dropLast }
  pin b _ _ := b

/-- A priority, a worker and perhaps a pin. -/
def Tasks.Task.decode : Decoder Tasks.Task := fun d => do
  return {
    priority := ← cell (d.item 0)
    worker := ← cell (d.item 1)
    isPinned := ← orElse false truth (d.item 2) }

instance : Editable Tasks.Schedule where
  encode s := .list (s.tasks.map fun t =>
    .list [.ofCell t.priority, .ofCell t.worker, .bool t.isPinned])
  rowCount s _ := s.tasks.length
  write s f column v := (if column = 0 then Tasks.priority else Tasks.worker).set s f.index v
  push s _ row := do return { s with tasks := s.tasks ++ [← Tasks.Task.decode row] }
  pop s _ := { s with tasks := s.tasks.dropLast }
  pin s f isPinned := s.modify f.index fun t => { t with isPinned }

/-! ## Editing a workspace -/

namespace Workspace

variable {W S : Type} {sh : Shape} [Workspace W S sh] [Editable S]

/-- Writes into a cell and announces the change. -/
def write (f : Fact) (column : Nat) (value : Option Int64) (w : W) : W :=
  afterChange f (modify (fun plan => Editable.write plan f column value) (beforeChange f w))

/-- Appends a row to a family and announces it. -/
def push (family : Nat) (row : Document) (w : W) : Except DocumentError W := do
  let plan ← Editable.push (plan w) family row
  return afterAdded ⟨family, Editable.rowCount plan family - 1⟩ (modify (fun _ => plan) w)

/-- Drops the last row of a family, of which there has to be one, after announcing that. -/
def pop (family : Nat) (w : W) : Checked W :=
  match Editable.rowCount (plan w) family with
  | 0 => .error .overflow
  | n + 1 =>
    .ok (modify (fun plan => Editable.pop plan family) (beforeRemoved ⟨family, n⟩ w))

end Workspace

end PlanSearch
