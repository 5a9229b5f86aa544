import PlanSearch.Document.Decode
import PlanSearch.Sheet.Expression

/-!
# Expressions in documents

An expression is a number, null, or a list of an operator and its arguments. Tests, keys and values
that can be shared go by a name.
-/

namespace PlanSearch.Sheet

open Decoder

def UnaryOp.names : List (String × UnaryOp) :=
  [("isnull", .isNothing), ("or0", .orZero), ("not", .not), ("neg", .neg), ("abs", .abs)]

def BinaryOp.names : List (String × BinaryOp) :=
  [("and", .and), ("or", .or), ("+", .add), ("-", .sub), ("*", .mul), ("%", .rem), ("min", .min),
   ("max", .max), ("==", .eq), ("!=", .ne), ("<", .lt), ("<=", .le), (">", .gt), (">=", .ge)]

namespace Expression

/-- An expression without arguments that are expressions. -/
def decodeAtom? (name : String) (d : Document) : Option (Except DocumentError Expression) :=
  let n (i : Nat) : Except DocumentError Nat := natural (d.item i)
  match name with
  | "f" => some do return column (← n 1) (← n 2)
  | "i" => some do return index (← n 1)
  | "fact" => some do return entity (← n 1)
  | "class" => some do return family (← n 1)
  | "agg" => some do return aggregate (← n 1)
  | "gk" => some do return groupKey (← n 1) (← orElse 0 natural (d.item 2))
  | "cell" => some do return cell ⟨← n 1, ← n 2⟩ (← n 3)
  | "count" => some do return count (← n 1)
  | "arity" => some do return arity
  | "origin" => some do return origin
  | _ => none

/-- An expression that is nested at most `depth` deep. -/
def decodeWithin : Nat → Decoder Expression
  | 0, _ => .error (.unexpected "an expression that is nested less deeply")
  | depth + 1, d =>
    match d with
    | .list _ => do
      let name ← text (d.item 0)
      let e (i : Nat) := decodeWithin depth (d.item i)
      match decodeAtom? name d with
      | some atom => atom
      | none =>
        match name, UnaryOp.names.lookup name, BinaryOp.names.lookup name with
        | "if", _, _ => return cond (← e 1) (← e 2) (← e 3)
        | _, some op, _ => return unary op (← e 1)
        | _, _, some op => return binary op (← e 1) (← e 2)
        | _, _, _ => throw (.unknownVariant name)
    | d => literal <$> Decoder.cell d

def decode : Decoder Expression := fun d => decodeWithin (d.depth + 1) d

end Expression

def Test.decode : Decoder Test
  | .text "ascending" => return .ascending
  | .text "has0" => return .filled 0
  | .text "has1" => return .filled 1
  | d => .holds <$> Expression.decode d

def KeyTerm.decode : Decoder KeyTerm
  | .text "k_f0" => return .sharedColumn 0
  | .text "k_f1" => return .sharedColumn 1
  | .text "k_index" => return .sharedIndex
  | .text "k_group" => return .sharedGroup
  | .table [("index", e)] => .index <$> Expression.decode e
  | .table [("pair", parts)] => do
    return .pair (← Expression.decode (parts.item 0)) (← Expression.decode (parts.item 1))
  | .table [("entity", p)] => .entity <$> natural p
  | .table [("name", p)] => .name <$> natural p
  | .table [("gk", p)] => .group <$> natural p
  | .table [("text", s)] => .text <$> Decoder.text s
  | .table [("debug", _)] => return .description
  | .table _ => return .unit
  | d => .number <$> Expression.decode d

def ValueTerm.decode : Decoder ValueTerm
  | .text "one" => return .one
  | .text "v_f0" => return .sharedColumn 0
  | .text "v_f1" => return .sharedColumn 1
  | .text "agg0" => return .firstAggregate
  | d => .number <$> Expression.decode d

end PlanSearch.Sheet
