import PlanSearch.Text.Hidden

/-!
# Quoted text

A quoted text stands between double quotes. A quote, a backslash and the usual controls are written
with a backslash, and any other hidden character by its code point in hexadecimal.
-/

namespace PlanSearch.Text

/-- How `c` is written between quotes. -/
def escape (c : Char) : List Char :=
  match c with
  | '"' => ['\\', '"']
  | '\\' => ['\\', '\\']
  | '\n' => ['\\', 'n']
  | '\t' => ['\\', 't']
  | '\r' => ['\\', 'r']
  | '\x00' => ['\\', '0']
  | c =>
    if isHidden c then "\\u\x7b".toList ++ Nat.toDigits 16 c.toNat ++ ['\x7d'] else [c]

def quote (s : String) : String :=
  String.ofList ('"' :: s.toList.flatMap escape ++ ['"'])

end PlanSearch.Text
