/-!
# Binary floating-point numbers of 64 bits

A double is its 64 bits. Its value is read off exactly, as a significand times a power of two, so
comparison, conversion to integers and rounding from integers are all arithmetic on `Nat` and `Int`.
-/

namespace QueryStage

structure Binary64 where
  bits : UInt64
deriving DecidableEq, Repr, Inhabited

namespace Binary64

def negative (x : Binary64) : Bool := Nat.pow 2 63 ≤ x.bits.toNat

def exponentField (x : Binary64) : Nat := x.bits.toNat / Nat.pow 2 52 % Nat.pow 2 11

def fraction (x : Binary64) : Nat := x.bits.toNat % Nat.pow 2 52

def isFinite (x : Binary64) : Bool := x.exponentField ≠ 2047

def isNaN (x : Binary64) : Bool := x.exponentField = 2047 && x.fraction ≠ 0

/-- The integer `s` of a finite value `± s * 2 ^ power`. -/
def significand (x : Binary64) : Nat :=
  if x.exponentField = 0 then x.fraction else Nat.pow 2 52 + x.fraction

def power (x : Binary64) : Int :=
  if x.exponentField = 0 then -1074 else x.exponentField - 1075

def isZero (x : Binary64) : Bool := x.exponentField = 0 && x.fraction = 0

/-- Equality of values: the two zeros are equal, and a NaN equals nothing. -/
def valueEq (x y : Binary64) : Bool :=
  !x.isNaN && !y.isNaN && (x = y || (x.isZero && y.isZero))

def signed (x : Binary64) (magnitude : Nat) : Int :=
  if x.negative then -(magnitude : Int) else magnitude

def toInt? (x : Binary64) : Option Int :=
  if !x.isFinite then none
  else if 0 ≤ x.power then some (x.signed (x.significand * Nat.pow 2 x.power.toNat))
  else
    let unit := Nat.pow 2 (-x.power).toNat
    if x.significand % unit = 0 then some (x.signed (x.significand / unit)) else none

/-- The quotient to the nearest integer, a half to the even neighbour. -/
def roundDiv (n d : Nat) : Nat :=
  let q := n / d
  let r := n % d
  if d < 2 * r || (d = 2 * r && q % 2 = 1) then q + 1 else q

/-- The bits of the double nearest to a positive integer, a half going to the even significand.
A significand that rounds up to `2 ^ 53` carries into the exponent field by itself. -/
def magnitudeBits (n : Nat) : Nat :=
  let top := n.log2
  if 1023 < top then 2047 * Nat.pow 2 52
  else
    let significand :=
      if top ≤ 52 then n * Nat.pow 2 (52 - top) else roundDiv n (Nat.pow 2 (top - 52))
    (top + 1022) * Nat.pow 2 52 + significand

def ofInt (n : Int) : Binary64 :=
  if n = 0 then ⟨0⟩
  else
    let sign := if n < 0 then Nat.pow 2 63 else 0
    ⟨UInt64.ofNat (sign + magnitudeBits n.natAbs)⟩

end Binary64

end QueryStage
