import PlanSearch.Document.Basic

/-!
# Writing values as documents
-/

namespace PlanSearch.Document

def ofOption {α : Type} (f : α → Document) : Option α → Document
  | none => null
  | some a => f a

def ofNat (n : Nat) : Document := integer n

def ofInt64 (n : Int64) : Document := integer n.toInt

def ofUnsigned (n : UInt64) : Document := integer n.toNat

/-- A number, or null. -/
def ofCell (value : Option Int64) : Document := ofOption ofInt64 value

/-- The name of one of several variants. -/
def ofName {α : Type} [DecidableEq α] (names : List (String × α)) (a : α) : Document :=
  match names.find? fun (_, b) => a = b with
  | some (name, _) => text name
  | none => null

end PlanSearch.Document
