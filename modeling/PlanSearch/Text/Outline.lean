/-!
# Outlines

The one-line form in which the parts of a solver describe themselves: a name with its fields in
braces, lists in brackets, and options as `None` or `Some`.
-/

namespace PlanSearch.Outline

/-- Comma-separated items in brackets. -/
def list (items : List String) : String := "[" ++ ", ".intercalate items ++ "]"

/-- A name and its fields; the name alone when there are none. -/
def record (name : String) (fields : List (String × String)) : String :=
  if fields.isEmpty then name
  else
    name ++ " \x7b " ++ ", ".intercalate (fields.map fun (field, value) => field ++ ": " ++ value)
      ++ " \x7d"

/-- A name applied to its parts. -/
def apply (name : String) (parts : List String) : String :=
  name ++ "(" ++ ", ".intercalate parts ++ ")"

def option (value : Option String) : String :=
  match value with
  | none => "None"
  | some text => apply "Some" [text]

end PlanSearch.Outline
