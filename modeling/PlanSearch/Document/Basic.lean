/-!
# Documents

A configuration is read from a document: a tree of tables, lists and scalars, whatever format it
was written in. A format without quotes leaves some scalars bare; their kind then depends on what
is asked for. `settle` fixes the kinds by spelling alone.
-/

namespace PlanSearch

inductive Document where
  | null
  | bool (b : Bool)
  | integer (n : Int)
  | decimal (x : Float)
  | text (s : String)
  /-- A scalar without quotes. -/
  | bare (s : String)
  | list (items : List Document)
  /-- Entries in the order in which they were written; keys may repeat. -/
  | table (entries : List (String × Document))
  /-- A value under a tag that names its variant. -/
  | tagged (tag : String) (value : Document)
  deriving Inhabited

/-- Why a text is no document, or a document does not have the form that is asked for. -/
inductive DocumentError where
  | malformed
  | unexpected (wanted : String)
  | missing (field : String)
  | repeated (field : String)
  | unknownVariant (name : String)
  /-- A text that denotes no score. -/
  | badScore (reason : String)
  deriving DecidableEq, Repr

namespace DocumentError

def message : DocumentError → String
  | malformed => "malformed document"
  | unexpected wanted => s!"expected {wanted}"
  | missing field => s!"missing field {field}"
  | repeated field => s!"repeated field {field}"
  | unknownVariant name => s!"unknown variant {name}"
  | badScore reason => reason

end DocumentError

/-! ## Bare scalars -/

namespace Bare

def isNull (s : String) : Bool := s.isEmpty || ["~", "null", "Null", "NULL"].contains s

def bool? (s : String) : Option Bool :=
  if ["true", "True", "TRUE"].contains s then some true
  else if ["false", "False", "FALSE"].contains s then some false
  else none

/-- The value of a digit in a base up to sixteen. -/
def digit? (base : Nat) (c : Char) : Option Nat :=
  let n :=
    if '0' ≤ c ∧ c ≤ '9' then c.toNat - 48
    else if 'a' ≤ c ∧ c ≤ 'f' then c.toNat - 87
    else if 'A' ≤ c ∧ c ≤ 'F' then c.toNat - 55
    else 16
  if n < base then some n else none

/-- The number written by these digits after a number `n`. -/
def digitsAfter? (base : Nat) : Nat → List Char → Option Nat
  | n, [] => some n
  | n, c :: cs => (digit? base c).bind fun d => digitsAfter? base (base * n + d) cs

/-- A natural number by its digits, of which there has to be one. -/
def digits? (base : Nat) (cs : List Char) : Option Nat :=
  if cs.isEmpty then none else digitsAfter? base 0 cs

/-- Digits, in another base than ten after `0x`, `0o` or `0b`. A number in base ten does not start
with a needless zero. -/
def magnitude? : List Char → Option Nat
  | '0' :: 'x' :: cs => digits? 16 cs
  | '0' :: 'o' :: cs => digits? 8 cs
  | '0' :: 'b' :: cs => digits? 2 cs
  | '0' :: _ :: _ => none
  | cs => digits? 10 cs

def natural? : List Char → Option Nat
  | '+' :: cs => magnitude? cs
  | cs => magnitude? cs

/-- A whole number with an optional sign. -/
def integer? (s : String) : Option Int :=
  match s.toList with
  | '-' :: cs => (magnitude? cs).map fun n => -(n : Int)
  | cs => (natural? cs).map fun n => (n : Int)

/-- The digits at the front, and what follows them. -/
def spanDigits (cs : List Char) : List Char × List Char := cs.span Char.isDigit

/-- A power of ten after `e`, or nothing. -/
def exponent? : List Char → Option Int
  | [] => some 0
  | c :: cs =>
    if c = 'e' ∨ c = 'E' then
      match cs with
      | '-' :: cs => (digits? 10 cs).map fun n => -(n : Int)
      | '+' :: cs => (digits? 10 cs).map fun n => (n : Int)
      | cs => (digits? 10 cs).map fun n => (n : Int)
    else none

/-- `digits · 10 ^ exponent`, rounded to the nearest number. -/
def scientific (digits : Nat) (exponent : Int) : Float :=
  if exponent < 0 then Float.ofScientific digits true (-exponent).toNat
  else Float.ofScientific digits false exponent.toNat

/-- Digits with at most one point and an optional exponent. -/
def unsignedDecimal? (cs : List Char) : Option Float :=
  let (whole, rest) := spanDigits cs
  let (fraction, rest) := match rest with
    | '.' :: rest => spanDigits rest
    | rest => ([], rest)
  match digits? 10 (whole ++ fraction), exponent? rest with
  | some n, some e => some (scientific n (e - fraction.length))
  | _, _ => none

def decimal? (s : String) : Option Float :=
  let finite? (x : Option Float) := x.bind fun x => if x.isFinite then some x else none
  if [".inf", ".Inf", ".INF", "+.inf", "+.Inf", "+.INF"].contains s then some (1.0 / 0.0)
  else if ["-.inf", "-.Inf", "-.INF"].contains s then some (-1.0 / 0.0)
  else if [".nan", ".NaN", ".NAN"].contains s then some (0.0 / 0.0)
  else match s.toList with
    | '-' :: cs => finite? ((unsignedDecimal? cs).map fun x => -x)
    | '+' :: cs => finite? (unsignedDecimal? cs)
    | cs => finite? (unsignedDecimal? cs)

/-- Digits that would be a number but for a needless zero in front. -/
def hasNeedlessZero (s : String) : Bool :=
  let cs := match s.toList with
    | '-' :: cs => cs
    | '+' :: cs => cs
    | cs => cs
  match cs with
  | '0' :: c :: cs => (c :: cs).all Char.isDigit
  | _ => false

/-- The scalar that a spelling denotes where nothing particular is asked for. -/
def settle (s : String) : Document :=
  if isNull s then .null
  else match bool? s with
    | some b => .bool b
    | none =>
      match integer? s with
      | some n => .integer n
      | none =>
        if hasNeedlessZero s then .text s
        else match decimal? s with
          | some x => .decimal x
          | none => .text s

end Bare

namespace Document

/-- The first value under a key; null where there is none. -/
def get (d : Document) (key : String) : Document :=
  match d with
  | table entries => (entries.lookup key).getD null
  | _ => null

def has (d : Document) (key : String) : Bool :=
  match d with
  | table entries => (entries.lookup key).isSome
  | _ => false

/-- The items of a list; none of anything else. -/
def items : Document → List Document
  | list items => items
  | _ => []

/-- Item `i` of a list; null where there is none. -/
def item (d : Document) (i : Nat) : Document := d.items.getD i null

def isNull : Document → Bool
  | null => true
  | _ => false

/-- Whether the value under a key is true. -/
def flag (d : Document) (key : String) : Bool :=
  match d.get key with
  | bool b => b
  | _ => false

mutual

/-- Fixes the kind of every bare scalar. A tag has no meaning any more then. -/
def settle : Document → Except DocumentError Document
  | bare s => .ok (Bare.settle s)
  | list items => list <$> settleItems items
  | table entries => table <$> settleEntries entries
  | tagged _ _ => .error (.unexpected "a value without a tag")
  | d => .ok d

def settleItems : List Document → Except DocumentError (List Document)
  | [] => .ok []
  | d :: ds => do return (← settle d) :: (← settleItems ds)

def settleEntries : List (String × Document) → Except DocumentError (List (String × Document))
  | [] => .ok []
  | e :: es => do return (← settleEntry e) :: (← settleEntries es)

def settleEntry : String × Document → Except DocumentError (String × Document)
  | (key, d) => do return (key, ← settle d)

end

/-! ## Nesting -/

mutual

/-- How deeply lists and tables are nested. -/
def depth : Document → Nat
  | list items => itemsDepth items + 1
  | table entries => entriesDepth entries + 1
  | tagged _ d => depth d + 1
  | _ => 0

def itemsDepth : List Document → Nat
  | [] => 0
  | d :: ds => max (depth d) (itemsDepth ds)

def entriesDepth : List (String × Document) → Nat
  | [] => 0
  | e :: es => max (entryDepth e) (entriesDepth es)

def entryDepth : String × Document → Nat
  | (_, d) => depth d

end

end Document

end PlanSearch
