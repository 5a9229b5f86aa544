import PlanSearch.Checked

/-!
# Reading integers

A 64-bit integer is written as an optional sign and ASCII digits. `readInt64` reads from the left
and reports the first thing wrong: a character that is no digit, or a digit that takes the number
out of range.
-/

namespace PlanSearch.Text

/-- Why a text denotes no 64-bit integer. -/
inductive NumberError where
  | empty
  | invalidDigit
  | tooLarge
  | tooSmall
  deriving DecidableEq, Repr

def NumberError.message : NumberError → String
  | .empty => "cannot parse integer from empty string"
  | .invalidDigit => "invalid digit found in string"
  | .tooLarge => "number too large to fit in target type"
  | .tooSmall => "number too small to fit in target type"

/-- The value of an ASCII digit. -/
def digit? (c : Char) : Option Nat :=
  if '0' ≤ c ∧ c ≤ '9' then some (c.toNat - 48) else none

/-- The number written by the digits `cs` after a number `n`, at most `limit`. -/
def readDigits (limit : Nat) (beyond : NumberError) (n : Nat) : List Char → Except NumberError Nat
  | [] => .ok n
  | c :: cs =>
    match digit? c with
    | none => .error .invalidDigit
    | some d =>
      if 10 * n + d ≤ limit then readDigits limit beyond (10 * n + d) cs else .error beyond

/-- At least one digit. -/
def readNatural (limit : Nat) (beyond : NumberError) : List Char → Except NumberError Nat
  | [] => .error .invalidDigit
  | c :: cs => readDigits limit beyond 0 (c :: cs)

/-- The 64-bit integer that `cs` writes. -/
def readInt64 : List Char → Except NumberError Int64
  | [] => .error .empty
  | '-' :: cs => (fun n : Nat => Int64.ofInt (-n)) <$> readNatural 0x8000000000000000 .tooSmall cs
  | '+' :: cs => (fun n : Nat => Int64.ofInt n) <$> readNatural 0x7fffffffffffffff .tooLarge cs
  | c :: cs => (fun n : Nat => Int64.ofInt n) <$> readNatural 0x7fffffffffffffff .tooLarge (c :: cs)

end PlanSearch.Text
