import PlanSearch.Document.Decode
import PlanSearch.Document.Encode
import PlanSearch.Score.Text

/-!
# Scores in documents

A score is written as its text. It is read from its text, or from a list of its levels.
-/

namespace PlanSearch

def Shape.names : List (String × Shape) :=
  [("simple", .simple), ("hard_soft", .hardSoft), ("hard_medium_soft", .hardMediumSoft)]

def Shape.decode : Decoder Shape := Decoder.oneOf .key Shape.names

namespace Score

variable {sh : Shape}

def decode : Decoder (Score sh)
  | .text s => (read s).mapError fun e => .badScore (e.message sh)
  | d => do
    match ofLevels? (← Decoder.list Decoder.int64 d) with
    | some a => return a
    | none => throw (.unexpected "as many levels as a score has")

def encode (a : Score sh) : Document := .text a.toText

/-- Everything there is to know about a score. -/
def portrait (a : Score sh) : Document :=
  .table
    [("levels", .list (a.levels.map .ofInt64)), ("text", a.encode), ("debug", .text a.describe),
     ("feasible", .bool a.isFeasible), ("zero", .bool a.isZero),
     ("single_level", .ofOption .ofNat a.singleLevel?)]

/-- How two scores compare; equal scores have equal hashes. -/
def comparison (a b : Score sh) : Document :=
  let order : Int := match compare a b with
    | .lt => -1
    | .eq => 0
    | .gt => 1
  .table
    [("order", .integer order), ("equal", .bool (a = b)), ("same_hash", .bool (a = b)),
     ("better", .bool (b < a)), ("not_worse", .bool (b ≤ a)),
     ("max", encode (if b < a then a else b))]

end Score

end PlanSearch
