import PlanSearch.Checked
import Std.Data.HashMap.Basic

/-!
# Collectors

A collector turns the values of a group's members into one number. An accumulator does so one value
at a time; removing a value is possible for counts and sums and impossible for extrema, which are
then rebuilt from the values that remain.
-/

namespace PlanSearch

inductive Collector where
  | count
  | sum
  | countDistinct
  | min
  | max
  deriving DecidableEq, Repr, Hashable, Inhabited

namespace Collector

def name : Collector → String
  | count => "count"
  | sum => "sum"
  | countDistinct => "count_distinct"
  | min => "min"
  | max => "max"

end Collector

/-- The running aggregate of one group. -/
inductive Accumulator where
  | count (members : Int64)
  | sum (total : Int64)
  | distinct (occurrences : Std.HashMap Int64 Nat)
  | least (smallest : Option Int64)
  | greatest (largest : Option Int64)

namespace Accumulator

/-- The accumulator of a group without members. -/
def empty : Collector → Accumulator
  | .count => count 0
  | .sum => sum 0
  | .countDistinct => distinct ∅
  | .min => least none
  | .max => greatest none

def add (value : Int64) : Accumulator → Checked Accumulator
  | count n => count <$> Checked.add n 1
  | sum n => sum <$> Checked.add n value
  | distinct seen => .ok (distinct (seen.insert value (seen.getD value 0 + 1)))
  | least m => .ok (least (some (m.elim value fun n => if value < n then value else n)))
  | greatest m => .ok (greatest (some (m.elim value fun n => if n < value then value else n)))

/-- Takes one value back, or answers `none` when that cannot be done from the aggregate alone. -/
def remove? (value : Int64) : Accumulator → Checked (Option Accumulator)
  | count n => (some ∘ count) <$> Checked.sub n 1
  | sum n => (some ∘ sum) <$> Checked.sub n value
  | distinct seen =>
    match seen[value]? with
    | none => .ok (some (distinct seen))
    | some n =>
      .ok (some (distinct (if n ≤ 1 then seen.erase value else seen.insert value (n - 1))))
  | least _ => .ok none
  | greatest _ => .ok none

/-- The aggregate so far; an extremum of nothing is zero. -/
def result : Accumulator → Int64
  | count n => n
  | sum n => n
  | distinct seen => Int64.ofNat seen.size
  | least m => m.getD 0
  | greatest m => m.getD 0

/-- The accumulator of a group with these values. -/
def ofValues (c : Collector) (values : List Int64) : Checked Accumulator :=
  values.foldlM (fun acc value => acc.add value) (empty c)

end Accumulator

end PlanSearch
