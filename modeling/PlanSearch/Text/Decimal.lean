/-!
# Shortest decimals

`shortest` finds the fewest decimal digits that still read back as a given binary floating-point
number, and among those the decimal nearest to it. `floatText` writes them: positionally from 10⁻⁴
up to 10¹⁶, with an exponent beyond.
-/

namespace PlanSearch.Text

/-- `digits · 10 ^ exponent`. -/
structure Decimal where
  digits : Nat
  exponent : Int
  deriving DecidableEq, Repr

/-- A positive number `mantissa · 2 ^ exponent`, and whether the number below it is only half as
far away as the one above. -/
structure Binary where
  mantissa : Nat
  exponent : Int
  narrowBelow : Bool
  deriving DecidableEq, Repr

/-- The magnitude of a finite number that is not zero. -/
def Binary.ofBits (bits : UInt64) : Binary :=
  let field := ((bits >>> 52) &&& 0x7ff).toNat
  let fraction := (bits &&& 0xfffffffffffff).toNat
  if field = 0 then ⟨fraction, -1074, false⟩
  else ⟨0x10000000000000 + fraction, (field : Int) - 1075, fraction = 0 && 1 < field⟩

/-- `x · b ^ e` as a fraction, for `x` a fraction. -/
def scaleBy (b : Nat) (e : Int) (x : Nat × Nat) : Nat × Nat :=
  if 0 ≤ e then (x.1 * b.pow e.toNat, x.2) else (x.1, x.2 * b.pow (-e).toNat)

namespace Binary

/-- Whether the decimal `d` reads back as `x`: it lies between the two points half-way to the
neighbours, which belong to `x` when its mantissa is even. -/
def isReadFrom (x : Binary) (d : Decimal) : Bool :=
  let (n, m) := scaleBy 2 (2 - x.exponent) (scaleBy 10 d.exponent (d.digits, 1))
  let low := (4 * x.mantissa - if x.narrowBelow then 1 else 2) * m
  let high := (4 * x.mantissa + 2) * m
  if x.mantissa % 2 = 0 then low ≤ n && n ≤ high else low < n && n < high

/-- The two neighbours of `x` on the grid `10 ^ e`, the nearer one first. -/
def neighbours (x : Binary) (e : Int) : List Decimal :=
  let (n, m) := scaleBy 10 (-e) (scaleBy 2 x.exponent (x.mantissa, 1))
  let below : Decimal := ⟨n / m, e⟩
  let above : Decimal := ⟨n / m + 1, e⟩
  if 2 * (n % m) ≤ m then [below, above] else [above, below]

/-- The number of digits before the point, counted by `fuel` trial powers downward from `e`. -/
def magnitude (x : Binary) : Nat → Int → Int
  | 0, e => e
  | fuel + 1, e =>
    let (n, m) := scaleBy 10 (1 - e) (scaleBy 2 x.exponent (x.mantissa, 1))
    if m ≤ n then e else magnitude x fuel (e - 1)

/-- The fewest digits that read back. -/
def shortest (x : Binary) : Decimal :=
  let top := x.magnitude 700 310
  let grids := (List.range 17).map fun k : Nat => top - ((k : Int) + 1)
  match grids.findSome? fun e => (x.neighbours e).find? x.isReadFrom with
  | some d => d
  | none => ⟨0, 0⟩

end Binary

/-- `d` without trailing zeros. -/
def Decimal.trimmed (d : Decimal) : Decimal :=
  let rec go : Nat → Decimal → Decimal
    | 0, d => d
    | fuel + 1, d =>
      if d.digits % 10 = 0 && d.digits != 0 then go fuel ⟨d.digits / 10, d.exponent + 1⟩ else d
  go 20 d

/-- Digits with a point, at least one on each side of it. -/
def Decimal.positional (d : Decimal) : String :=
  let digits := toString d.digits
  if 0 ≤ d.exponent then
    digits ++ String.ofList (List.replicate d.exponent.toNat '0') ++ ".0"
  else
    let places := (-d.exponent).toNat
    let padded := List.replicate (places + 1 - digits.length) '0' ++ digits.toList
    String.ofList (padded.take (padded.length - places)) ++ "." ++
      String.ofList (padded.drop (padded.length - places))

/-- One digit before the point, and none after it if all are zero. -/
def Decimal.scientific (d : Decimal) : String :=
  let digits := (toString d.digits).toList
  let power := d.exponent + (digits.length : Int) - 1
  let tail := String.ofList (digits.drop 1)
  String.ofList (digits.take 1) ++ (if tail.isEmpty then "" else "." ++ tail) ++ "e" ++
    toString power

def floatText (x : Float) : String :=
  if x.isNaN then "NaN"
  else
    let bits := x.toBits
    let sign := if bits >>> 63 = 1 then "-" else ""
    if x.isInf then sign ++ "inf"
    else if x == 0 then sign ++ "0.0"
    else
      let d := (Binary.shortest (Binary.ofBits bits)).trimmed
      let power := d.exponent + ((toString d.digits).length : Int) - 1
      sign ++ if -4 ≤ power && power < 16 then d.positional else d.scientific

end PlanSearch.Text
