import PlanSearch.Network.Builder
import PlanSearch.Sheet.Basic

/-!
# Expressions over sheets

The tests, keys and weights of constraints on a sheet, as data. An expression is evaluated for a
tuple and yields a number or nothing; the arguments of an operator are all evaluated first, from left
to right. Nothing counts as false, and so does zero.
-/

namespace PlanSearch.Sheet

/-- Operators with one argument. -/
inductive UnaryOp where
  /-- Whether the argument is nothing. -/
  | isNothing
  /-- The argument, with zero for nothing. -/
  | orZero
  | not
  | neg
  | abs
  deriving DecidableEq, Repr

/-- Operators with two arguments. -/
inductive BinaryOp where
  | and
  | or
  | add
  | sub
  | mul
  /-- The remainder has the sign of the dividend; there is none by zero. -/
  | rem
  | min
  | max
  | eq
  | ne
  | lt
  | le
  | gt
  | ge
  deriving DecidableEq, Repr

inductive Expression where
  | literal (value : Option Int64)
  /-- A column of the row of the fact at a position. -/
  | column (position column : Nat)
  /-- The place of the fact at a position, which has to be a fact. -/
  | index (position : Nat)
  /-- The place of the fact at a position. -/
  | entity (position : Nat)
  /-- The family of the fact at a position. -/
  | family (position : Nat)
  | aggregate (n : Nat)
  /-- One of the numbers that make up the group key at a position. -/
  | groupKey (position part : Nat)
  | cell (fact : Fact) (column : Nat)
  /-- The number of rows of a family. -/
  | count (family : Nat)
  | arity
  /-- The node that the tuple comes from. -/
  | origin
  | unary (op : UnaryOp) (a : Expression)
  | binary (op : BinaryOp) (a b : Expression)
  | cond (test thenValue elseValue : Expression)
  deriving DecidableEq, Repr, Inhabited

/-- Neither nothing nor zero. -/
def isTrue (x : Option Int64) : Bool := x.any (· != 0)

def ofBool (b : Bool) : Option Int64 := some (if b then 1 else 0)

namespace UnaryOp

def apply (op : UnaryOp) (x : Option Int64) : Checked (Option Int64) :=
  match op with
  | isNothing => .ok (ofBool x.isNone)
  | orZero => .ok (some (x.getD 0))
  | not => .ok (ofBool !isTrue x)
  | neg => x.mapM Checked.neg
  | abs => x.mapM Checked.abs

end UnaryOp

namespace BinaryOp

/-- The remainder of a division. -/
def remainder (a b : Int64) : Checked (Option Int64) :=
  if b = 0 then .ok none
  else if b = -1 then (fun _ => some 0) <$> Checked.neg a
  else some <$> Checked.fit (a.toInt.tmod b.toInt)

/-- An operator on two numbers. -/
def applyNumbers (op : BinaryOp) (a b : Int64) : Checked (Option Int64) :=
  match op with
  | and => .ok (ofBool (isTrue (some a) && isTrue (some b)))
  | or => .ok (ofBool (isTrue (some a) || isTrue (some b)))
  | add => some <$> Checked.add a b
  | sub => some <$> Checked.sub a b
  | mul => some <$> Checked.mul a b
  | rem => remainder a b
  | min => .ok (some (if b < a then b else a))
  | max => .ok (some (if a < b then b else a))
  | eq => .ok (ofBool (a == b))
  | ne => .ok (ofBool (a != b))
  | lt => .ok (ofBool (a < b))
  | le => .ok (ofBool (a ≤ b))
  | gt => .ok (ofBool (b < a))
  | ge => .ok (ofBool (b ≤ a))

def apply (op : BinaryOp) (x y : Option Int64) : Checked (Option Int64) :=
  match op, x, y with
  | and, x, y => .ok (ofBool (isTrue x && isTrue y))
  | or, x, y => .ok (ofBool (isTrue x || isTrue y))
  | op, some a, some b => op.applyNumbers a b
  | _, _, _ => .ok none

end BinaryOp

/-- A number of a key, where it has one at this place. -/
def keyPart (part : Nat) : Key → Option Int64
  | .int n => if part = 0 then some n else none
  | .pair a b => if part = 0 then some a else if part = 1 then some b else none
  | .entity f =>
    if part = 0 then some (Int64.ofNat f.family)
    else if part = 1 then some (Int64.ofNat f.index)
    else none
  | _ => none

namespace Expression

variable {sh : Shape}

def eval (s : Sheet sh) (t : Tuple) : Expression → Checked (Option Int64)
  | literal value => .ok value
  | column p c => .ok ((t.fact? p).bind fun f => s.cell? f c)
  | index p => (some ∘ Int64.ofNat) <$> t.index p
  | entity p => .ok ((t.fact? p).map fun f => Int64.ofNat f.index)
  | family p => .ok ((t.fact? p).map fun f => Int64.ofNat f.family)
  | aggregate n => some <$> t.aggregate n
  | groupKey p part => .ok ((t.groupKey? p).bind (keyPart part))
  | cell f c => .ok (s.cell? f c)
  | count d => .ok (some (Int64.ofNat (s.rows d).length))
  | arity => .ok (some (Int64.ofNat t.arity))
  | origin => .ok (some (Int64.ofNat t.origin))
  | unary op a => do op.apply (← eval s t a)
  | binary op a b => do
    let x ← eval s t a
    let y ← eval s t b
    op.apply x y
  | cond test a b => do
    let c ← eval s t test
    let x ← eval s t a
    let y ← eval s t b
    return if isTrue c then x else y

end Expression

/-! ## Functions of a constraint -/

variable {sh : Shape}

/-- A test on tuples. Only those that carry no expression can be shared. -/
inductive Test where
  /-- The fact at the first position comes before the one at the second. -/
  | ascending
  /-- A column of the fact at the first position is filled. -/
  | filled (column : Nat)
  | holds (e : Expression)
  deriving DecidableEq, Repr

def Test.toNamed : Test → Named (Sheet sh → Tuple → Checked Bool)
  | ascending => ⟨some "ascending", fun _ t => do return (← t.index 0) < (← t.index 1)⟩
  | filled c =>
    ⟨some s!"filled {c}", fun s t => .ok ((t.fact? 0).bind fun f => s.cell? f c).isSome⟩
  | holds e => ⟨none, fun s t => isTrue <$> e.eval s t⟩

/-- A key of tuples. Only those that carry no expression or data can be shared. -/
inductive KeyTerm where
  /-- A column of the fact at the first position. -/
  | sharedColumn (column : Nat)
  /-- The place of the fact at the first position. -/
  | sharedIndex
  /-- The group key at the first position. -/
  | sharedGroup
  | number (e : Expression)
  /-- A number that is always there. -/
  | index (e : Expression)
  | pair (a b : Expression)
  | entity (position : Nat)
  /-- The name of the row of the fact at a position. -/
  | name (position : Nat)
  | group (position : Nat)
  | text (s : String)
  /-- The description of the tuple. -/
  | description
  | unit
  deriving DecidableEq, Repr

/-- A number as a key. -/
def keyOf (x : Option Int64) : Key := x.elim .unit .int

def KeyTerm.toNamed : KeyTerm → Named (Sheet sh → Tuple → Checked Key)
  | sharedColumn c =>
    ⟨some s!"column {c}", fun s t => .ok (keyOf ((t.fact? 0).bind fun f => s.cell? f c))⟩
  | sharedIndex => ⟨some "index", fun _ t => do return .int (Int64.ofNat (← t.index 0))⟩
  | sharedGroup => ⟨some "group", fun _ t => .ok ((t.groupKey? 0).getD .unit)⟩
  | number e => ⟨none, fun s t => keyOf <$> e.eval s t⟩
  | index e => ⟨none, fun s t => do return .int ((← e.eval s t).getD 0)⟩
  | pair a b =>
    ⟨none, fun s t => do return .pair ((← a.eval s t).getD (-1)) ((← b.eval s t).getD (-1))⟩
  | entity p => ⟨none, fun _ t => .ok ((t.fact? p).elim .unit .entity)⟩
  | name p => ⟨none, fun s t => .ok (((t.fact? p).bind s.row?).elim .unit fun r => .text r.name)⟩
  | group p => ⟨none, fun _ t => .ok ((t.groupKey? p).getD .unit)⟩
  | text x => ⟨none, fun _ _ => .ok (.text x)⟩
  | description => ⟨none, fun _ t => .ok (.text t.describe)⟩
  | unit => ⟨none, fun _ _ => .ok .unit⟩

/-- A number for each tuple. Only those that carry no expression can be shared. -/
inductive ValueTerm where
  | one
  /-- A column of the fact at the first position. -/
  | sharedColumn (column : Nat)
  /-- The first aggregate. -/
  | firstAggregate
  | number (e : Expression)
  deriving DecidableEq, Repr

def ValueTerm.toNamed : ValueTerm → Named (Sheet sh → Tuple → Checked Int64)
  | one => ⟨some "one", fun _ _ => .ok 1⟩
  | sharedColumn c =>
    ⟨some s!"column {c}", fun s t => .ok (((t.fact? 0).bind fun f => s.cell? f c).getD 0)⟩
  | firstAggregate => ⟨some "aggregate", fun _ t => t.aggregate 0⟩
  | number e => ⟨none, fun s t => do return (← e.eval s t).getD 0⟩

/-- How much a match counts; nothing counts as zero. -/
def weightOf (e : Expression) (s : Sheet sh) (t : Tuple) : Checked Int64 := do
  return (← e.eval s t).getD 0

end PlanSearch.Sheet
