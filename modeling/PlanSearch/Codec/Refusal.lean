import PlanSearch.Document.Decode
import PlanSearch.Error

/-!
# Refusals

Why a request that is written in a document is not carried out: the document does not make sense,
or the computation that it asks for fails.
-/

namespace PlanSearch

open Decoder

inductive Refusal where
  | document (cause : DocumentError)
  | failure (cause : Failure)
  deriving DecidableEq, Repr

namespace SolverError

def kind : SolverError → String
  | configuration _ => "Configuration"
  | scoreCorruption _ _ _ => "ScoreCorruption"
  | undoCorruption _ _ _ => "UndoCorruption"
  | illegalMove _ => "IllegalMove"
  | invalidState _ => "InvalidState"

/-- An error of one of the kinds that have a single text, given the kind and the text. -/
def decode : Decoder SolverError := fun d => do
  let message ← text (d.item 1)
  match ← text (d.item 0) with
  | "IllegalMove" => return .illegalMove message
  | "InvalidState" => return .invalidState message
  | _ => return .configuration message

end SolverError

namespace Refusal

/-- An error of a kind. -/
def report (kind : String) : Document := .table [("error", .text kind)]

/-- An error of a kind that has more to say. -/
def reportWith (kind message : String) : Document :=
  .table [("error", .text kind), ("message", .text message)]

def encode : Refusal → Document
  | document (.badScore reason) => reportWith "ScoreParse" reason
  | document _ => report "Json"
  | failure (.fault .overflow) => report "Overflow"
  | failure (.fault .undefined) => report "Panic"
  | failure (.error e) => reportWith e.kind e.message
  | failure .outOfFuel => report "OutOfFuel"

/-- Whether nothing can be asked for afterwards. -/
def isFault : Refusal → Bool
  | failure (.fault _) => true
  | _ => false

end Refusal

/-- What a request comes to. -/
abbrev Answer (α : Type) : Type := Except Refusal α

namespace Answer

variable {α : Type}

def ofReader (x : Except DocumentError α) : Answer α := x.mapError .document

def ofResult (x : Except Failure α) : Answer α := x.mapError .failure

def ofChecked (x : Checked α) : Answer α := x.mapError fun f => .failure (.fault f)

def ofSolver (x : Except SolverError α) : Answer α := x.mapError fun e => .failure (.error e)

end Answer

end PlanSearch
