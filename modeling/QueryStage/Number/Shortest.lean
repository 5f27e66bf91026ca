import QueryStage.Number.Binary64

/-!
# Shortest decimal text of a double

The text of a double has the fewest digits that read back as it. It is found on the coarsest
decimal grid that has a point in the interval of reals rounding to the value.
-/

namespace QueryStage

structure Decimal where
  digits : Nat
  exponent : Int
deriving DecidableEq, Repr

namespace Decimal

/-- All digits, with a point where the exponent is negative, and never an exponent. -/
def positional (d : Decimal) : String :=
  let digits := (toString d.digits).toList
  if 0 ≤ d.exponent then String.ofList (digits ++ List.replicate d.exponent.toNat '0')
  else
    let places := (-d.exponent).toNat
    let padded := List.replicate (places + 1 - digits.length) '0' ++ digits
    let whole := padded.length - places
    String.ofList (padded.take whole ++ '.' :: padded.drop whole)

end Decimal

/-- The reals that round to a positive double. In units of `2 ^ power`, they lie between `low` and
`high` around `centre`, with both ends included if `closed`. -/
structure RoundingInterval where
  low : Nat
  centre : Nat
  high : Nat
  closed : Bool
  power : Int

namespace RoundingInterval

/-- The interval of a finite nonzero double, in quarters of its last place. The gap below a power
of two is half the gap above it, except at the bottom of the range. -/
def of (x : Binary64) : RoundingInterval where
  low := 4 * x.significand - if x.fraction = 0 && 1 < x.exponentField then 1 else 2
  centre := 4 * x.significand
  high := 4 * x.significand + 2
  closed := x.significand % 2 = 0
  power := x.power - 2

/-- The point of the grid `10 ^ e` in the interval that is nearest to the centre, as a multiple of
`10 ^ e`. Of two equally near points the upper one is taken. -/
def nearest? (i : RoundingInterval) (e : Int) : Option Nat :=
  let scale := Nat.pow 2 i.power.toNat * Nat.pow 10 (-e).toNat
  let unit := Nat.pow 2 (-i.power).toNat * Nat.pow 10 e.toNat
  let inside := fun n =>
    if i.closed then i.low * scale ≤ n * unit && n * unit ≤ i.high * scale
    else i.low * scale < n * unit && n * unit < i.high * scale
  let below := i.centre * scale / unit
  if inside (below + 1) &&
      (!inside below || (2 * below + 1) * unit ≤ 2 * (i.centre * scale)) then some (below + 1)
  else if inside below then some below
  else none

/-- The decimal on the coarsest grid that has a point in the interval. Grids start above the
largest double and end below the spacing of the smallest. -/
def shortest? (i : RoundingInterval) : Option Decimal :=
  (List.range 650).findSome? fun (k : Nat) =>
    let e := 309 - (k : Int)
    (i.nearest? e).map fun n => ⟨n, e⟩

end RoundingInterval

namespace Binary64

def text (x : Binary64) : String :=
  let sign := if x.negative then "-" else ""
  if x.isNaN then "NaN"
  else if !x.isFinite then sign ++ "inf"
  else if x.isZero then sign ++ "0"
  else match (RoundingInterval.of x).shortest? with
    | some d => sign ++ d.positional
    | none => sign ++ "0"

end Binary64

end QueryStage
