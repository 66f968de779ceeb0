import FiniteVolume.Numeric.Arithmetic
import Mathlib

/-!
# Exact arithmetic

Sums are exact when the operations are those of a commutative group. Rational numbers compute in
this way.
-/

namespace FiniteVolume

/-- Arithmetic whose sums and opposites are not rounded, and which takes nothing but zero for zero.
-/
class ExactArithmetic (α : Type) [AddCommGroup α] [Arithmetic α] : Prop where
  zero_eq : (Arithmetic.zero : α) = 0
  add_eq (left right : α) : Arithmetic.add left right = left + right
  neg_eq (value : α) : Arithmetic.neg value = -value
  eq_zero_of_isZero {value : α} : Arithmetic.isZero value = true → value = 0

/-- Rational arithmetic. The functions that leave the rational numbers are missing from it: every
pointwise function returns its argument. -/
instance rationalArithmetic : Arithmetic ℚ where
  zero := 0
  emptySum := 0
  one := 1
  add := (· + ·)
  mul := (· * ·)
  div := (· / ·)
  neg := (- ·)
  isZero value := value == 0
  ofRational? := some
  pointwise _ value := value

instance exactArithmetic_rational : ExactArithmetic ℚ where
  zero_eq := rfl
  add_eq _ _ := rfl
  neg_eq _ := rfl
  eq_zero_of_isZero isZero := by simpa [Arithmetic.isZero] using isZero

end FiniteVolume
