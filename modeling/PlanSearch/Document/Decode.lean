import PlanSearch.Checked
import PlanSearch.Document.Basic

/-!
# Reading values from documents

Decoders for the values that a configuration is made of. Fields that a table does not ask for are
ignored; a field that is asked for may stand there once.
-/

namespace PlanSearch

/-- How a document is read as a value. -/
abbrev Decoder (α : Type) : Type := Document → Except DocumentError α

namespace Decoder

variable {α : Type}

/-! ## Scalars -/

/-- A 64-bit number without sign. -/
def unsigned : Decoder UInt64 := fun d =>
  let number? : Option Int := match d with
    | .integer n => some n
    | .bare s => (Bare.natural? s.toList).map fun n => (n : Int)
    | _ => none
  match number? with
  | some n =>
    if 0 ≤ n ∧ n < UInt64.size then .ok (UInt64.ofNat n.toNat)
    else .error (.unexpected "a 64-bit number without sign")
  | none => .error (.unexpected "a 64-bit number without sign")

def integer : Decoder Int
  | .integer n => .ok n
  | _ => .error (.unexpected "a whole number")

def natural : Decoder Nat := fun d => do
  let n ← integer d
  if 0 ≤ n then return n.toNat else throw (.unexpected "a number without sign")

def int64 : Decoder Int64 := fun d => do
  let n ← integer d
  if Checked.Fits n then return Int64.ofInt n else throw (.unexpected "a 64-bit number")

def truth : Decoder Bool
  | .bool b => .ok b
  | _ => .error (.unexpected "a truth value")

/-- A text; a bare scalar is the text that it is spelled with. -/
def text : Decoder String
  | .text s => .ok s
  | .bare s => .ok s
  | _ => .error (.unexpected "a text")

/-- Any number; whole numbers count as well. -/
def float : Decoder Float
  | .decimal x => .ok x
  | .integer n => .ok (Float.ofInt n)
  | _ => .error (.unexpected "a number")

/-- A number that may also be infinite or none at all. -/
def weight : Decoder Float
  | .text "inf" => return 1.0 / 0.0
  | .text "-inf" => return -1.0 / 0.0
  | .text "nan" => return 0.0 / 0.0
  | d => float d

/-- Nothing, or what `f` reads. -/
def optional (f : Decoder α) : Decoder (Option α)
  | .null => .ok none
  | .bare s => if Bare.isNull s then .ok none else some <$> f (.bare s)
  | d => some <$> f d

/-- A number, or null. -/
def cell : Decoder (Option Int64) := optional int64

/-- What `f` reads, or `fallback` for null. -/
def orElse (fallback : α) (f : Decoder α) : Decoder α := fun d => do
  return (← optional f d).getD fallback

/-! ## Lists and tables -/

/-- The items of a list. No items at all may be left out without a trace. -/
def items : Decoder (List Document)
  | .list items => .ok items
  | .bare s => if s.isEmpty then .ok [] else .error (.unexpected "a list")
  | _ => .error (.unexpected "a list")

def list (f : Decoder α) : Decoder (List α) := fun d => do (← items d).mapM f

/-- The entries of a table. No entries at all may be left out without a trace. -/
def entries : Decoder (List (String × Document))
  | .table entries => .ok entries
  | .bare s => if s.isEmpty then .ok [] else .error (.unexpected "a table")
  | _ => .error (.unexpected "a table")

/-! ## Fields -/

/-- The entry of this name, of which there may not be two. -/
def find (entries : List (String × Document)) (name : String) :
    Except DocumentError (Option Document) :=
  match entries.filter fun (key, _) => key == name with
  | [] => .ok none
  | [(_, d)] => .ok (some d)
  | _ => .error (.repeated name)

/-- A field that has to be there. -/
def required (entries : List (String × Document)) (name : String) (f : Decoder α) :
    Except DocumentError α := do
  match ← find entries name with
  | none => throw (.missing name)
  | some d => f d

/-- A field that stands for `fallback` where it is missing. -/
def defaulted (entries : List (String × Document)) (name : String) (fallback : α) (f : Decoder α) :
    Except DocumentError α := do
  match ← find entries name with
  | none => return fallback
  | some d => f d

/-- A field that may be missing or null. -/
def option (entries : List (String × Document)) (name : String) (f : Decoder α) :
    Except DocumentError (Option α) :=
  defaulted entries name none (optional f)

/-! ## Variants -/

/-- How a variant that carries a value is written. -/
inductive VariantForm where
  /-- As the only key of a table. -/
  | key
  /-- As a tag in front of the value. -/
  | tag
  deriving DecidableEq, Repr

/-- The name of a variant and its value; a name alone carries none. -/
def variant (form : VariantForm) : Decoder (String × Option Document) := fun d =>
  match d, form with
  | .text s, _ => .ok (s, none)
  | .bare s, _ => .ok (s, none)
  | .table [(name, d)], .key => .ok (name, some d)
  | .tagged name d, .tag => .ok (name, some d)
  | _, _ => .error (.unexpected "a variant")

/-- Whether `d` says nothing. -/
def isNothing : Document → Bool
  | .null => true
  | .bare s => Bare.isNull s
  | _ => false

/-- One of several variants that carry no value. -/
def oneOf (form : VariantForm) (names : List (String × α)) : Decoder α := fun d => do
  let (name, value?) ← variant form d
  if value?.all isNothing then
    match names.lookup name with
    | some a => return a
    | none => throw (.unknownVariant name)
  else throw (.unexpected "a variant without a value")

end Decoder

end PlanSearch
