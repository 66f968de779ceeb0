import FiniteVolume.Numeric.Arithmetic

/-!
# Binary floating point arithmetic

The numbers with a significand of 53 bits. Natural numbers are rounded to the nearest of them, a
tie to the even significand, and those beyond the range become infinite; a rational is the quotient
of its rounded numerator and denominator.
-/

namespace FiniteVolume.Binary64

/-- Drops the lowest binary digits of a number, rounding to the nearest and ties to even. -/
def roundShift (n shift : Nat) : Nat :=
  let unit := 1 <<< shift
  let quotient := n / unit
  let twice := 2 * (n % unit)
  if unit < twice ∨ (twice = unit ∧ quotient % 2 = 1) then quotient + 1 else quotient

/-- The number nearest to a natural number. -/
def ofNat (n : Nat) : Float :=
  let shift := n.log2 - 52
  (Float.ofNat (roundShift n shift)).scaleB shift

/-- The number nearest to an integer. -/
def ofInt (n : Int) : Float :=
  if n < 0 then -(ofNat n.natAbs) else ofNat n.natAbs

/-- The quotient of the rounded numerator and denominator, if it is finite. -/
def ofRational? (value : Rat) : Option Float :=
  let quotient := ofInt value.num / ofNat value.den
  if quotient.isFinite then some quotient else none

/-- One with the sign of a number, or the number itself if it is none. -/
def sign (x : Float) : Float :=
  if x.isNaN then x else if x.toBits >>> 63 = 0 then 1.0 else -1.0

/-- The value of a known pointwise function. -/
def pointwise : Pointwise → Float → Float
  | .sin => Float.sin
  | .cos => Float.cos
  | .tan => Float.tan
  | .exp => Float.exp
  | .log => Float.log
  | .sqrt => Float.sqrt
  | .sinh => Float.sinh
  | .cosh => Float.cosh
  | .tanh => Float.tanh
  | .abs => Float.abs
  | .sign => sign

instance : Arithmetic Float where
  zero := 0.0
  emptySum := -0.0
  one := 1.0
  add := (· + ·)
  mul := (· * ·)
  div := (· / ·)
  neg := (- ·)
  isZero x := x == 0.0
  ofRational? := ofRational?
  pointwise := pointwise

end FiniteVolume.Binary64
