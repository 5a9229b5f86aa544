import PlanSearch.Variable

/-!
# Sheets

A sheet is a plan without a domain of its own: families of rows of cells, each of which holds a
number or nothing. Its variables are columns; where their values come from is part of the sheet.
-/

namespace PlanSearch

/-- An entity or fact of a sheet. -/
structure SheetRow where
  cells : List (Option Int64)
  name : String := ""
  isPinned : Bool := false
  deriving DecidableEq, Repr, Inhabited

namespace SheetRow

/-- The number in a column, if there is such a column and it is filled. -/
def get? (r : SheetRow) (column : Nat) : Option Int64 := (r.cells[column]?).join

/-- Writes into a column, if there is such a column. -/
def set (r : SheetRow) (column : Nat) (value : Option Int64) : SheetRow :=
  { r with cells := r.cells.set column value }

end SheetRow

/-- Where the values of a column come from. -/
inductive ColumnRange where
  | listed (values : List Int64)
  /-- The list number `k` of the sheet. -/
  | shared (k : Nat)
  /-- A list for each entity, from the collection number `k` of the sheet. -/
  | perEntity (k : Nat)
  /-- From zero up to the number of filled cells in the first column of the first family. -/
  | upToFilled
  /-- The entity itself and that number. -/
  | entityOrFilled
  deriving DecidableEq, Repr

/-- A column as a planning variable. -/
structure Column where
  entityClass : String
  name : String
  family : Nat
  index : Nat
  range : ColumnRange
  allowsUnassigned : Bool := false
  /-- The column that says how hard an entity is to place. -/
  difficulty : Option Nat := none
  /-- The column that counts the writes. -/
  counter : Option Nat := none
  deriving DecidableEq, Repr

structure Sheet (sh : Shape) where
  families : List (List SheetRow)
  columns : List Column := []
  /-- Lists of values that variables share. -/
  ranges : List (List Int64) := []
  /-- Lists of values for each entity. -/
  entityRanges : List (List (List Int64)) := []
  /-- Weights for the children of a union. -/
  weights : List Float := []
  /-- Empty cells of variables count as unassigned. -/
  countsUnassigned : Bool := true
  score : Option (Score sh) := none

namespace Sheet

variable {sh : Shape}

/-! ## Cells -/

def rows (s : Sheet sh) (family : Nat) : List SheetRow := s.families.getD family []

def row? (s : Sheet sh) (f : Fact) : Option SheetRow := (s.rows f.family)[f.index]?

def cell? (s : Sheet sh) (f : Fact) (column : Nat) : Option Int64 :=
  (s.row? f).bind fun r => r.get? column

/-- Changes a row, if there is one. -/
def modifyRow (s : Sheet sh) (f : Fact) (change : SheetRow → SheetRow) : Sheet sh :=
  { s with families := s.families.modify f.family fun rows => rows.modify f.index change }

/-- Writes into a cell, if there is one. -/
def write (s : Sheet sh) (f : Fact) (column : Nat) (value : Option Int64) : Sheet sh :=
  s.modifyRow f fun r => r.set column value

def pin (s : Sheet sh) (f : Fact) (isPinned : Bool) : Sheet sh :=
  s.modifyRow f fun r => { r with isPinned }

/-- Appends a row to a family. -/
def push (s : Sheet sh) (family : Nat) (r : SheetRow) : Sheet sh :=
  { s with families := s.families.modify family (· ++ [r]) }

/-- Drops the last row of a family. -/
def pop (s : Sheet sh) (family : Nat) : Sheet sh :=
  { s with families := s.families.modify family List.dropLast }

/-! ## Variables -/

/-- The column that counts the writes to a column. -/
def counter? (s : Sheet sh) (family column : Nat) : Option Nat :=
  (s.columns.find? fun c => c.family == family && c.index == column).bind Column.counter

/-- Writes a planning variable and counts the write where that is asked for. -/
def assign (s : Sheet sh) (f : Fact) (column : Nat) (value : Option Int64) : Sheet sh :=
  s.modifyRow f fun r =>
    let r := r.set column value
    match s.counter? f.family column with
    | none => r
    | some c => r.set c (some ((r.get? c).getD 0 + 1))

/-- The filled cells in the first column of the first family. -/
def filled (s : Sheet sh) : Nat := (s.rows 0).countP fun r => (r.get? 0).isSome

end Sheet

namespace ColumnRange

variable {sh : Shape}

def values : ColumnRange → ValueRange (Sheet sh) Int64
  | listed values => .listed values
  | shared k => .computed fun s => s.ranges.getD k []
  | perEntity k => .perEntity fun s i => (s.entityRanges.getD k []).getD i []
  | upToFilled => .computed fun s => (List.range (s.filled + 1)).map Int64.ofNat
  | entityOrFilled => .perEntity fun s i => [Int64.ofNat i, Int64.ofNat s.filled]

end ColumnRange

namespace Column

variable {sh : Shape}

def cell (c : Column) : Variable (Sheet sh) Int64 where
  family := c.family
  name := c.name
  get s i := s.cell? ⟨c.family, i⟩ c.index
  set s i v := s.assign ⟨c.family, i⟩ c.index v

/-- Compares two entities by a column, in which nothing is least. -/
def compareBy (c : Column) (column : Nat) (s : Sheet sh) (i j : Nat) : Ordering :=
  match s.cell? ⟨c.family, i⟩ column, s.cell? ⟨c.family, j⟩ column with
  | none, none => .eq
  | none, some _ => .lt
  | some _, none => .gt
  | some a, some b => compare a b

def definition (c : Column) : Definition (Sheet sh) Int64 where
  entityClass := c.entityClass
  cell := c.cell
  range := c.range.values
  allowsUnassigned := c.allowsUnassigned
  difficulty := c.difficulty.map c.compareBy

end Column

namespace Sheet

variable {sh : Shape}

/-- The columns as planning variables. -/
def definitions (s : Sheet sh) : List (Definition (Sheet sh) Int64) := s.columns.map Column.definition

/-- The empty cells of a variable. -/
def emptyCells (s : Sheet sh) (c : Column) : Nat :=
  (s.rows c.family).countP fun r => (r.get? c.index).isNone

instance : Plan (Sheet sh) sh where
  score := score
  setScore score s := { s with score }
  entityCount s family := (s.rows family).length
  isPinned s f := (s.row? f).any SheetRow.isPinned
  unassignedCount s :=
    if s.countsUnassigned then s.columns.foldl (fun n c => n + s.emptyCells c) 0 else 0

end Sheet

end PlanSearch
