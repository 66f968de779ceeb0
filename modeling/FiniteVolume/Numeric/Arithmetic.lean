import FiniteVolume.Expr.Pointwise

/-!
# Arithmetic

Coefficients, meshes and linear systems are written over any numbers that bring the operations of
`Arithmetic`. Nothing is assumed of the operations, so what is proved for all of them holds of
rounded arithmetic too.
-/

namespace FiniteVolume

/-- The operations of numerical computation. -/
class Arithmetic (α : Type) where
  zero : α
  /-- The value of an empty sum of constants. -/
  emptySum : α
  one : α
  add : α → α → α
  mul : α → α → α
  div : α → α → α
  neg : α → α
  isZero : α → Bool
  /-- The number nearest to a rational, if it is in range. -/
  ofRational? : Rat → Option α
  /-- The values of the known pointwise functions. -/
  pointwise : Pointwise → α → α

namespace Arithmetic

variable {α : Type} [Arithmetic α]

/-- A natural power by squaring and multiplying, from the lowest binary digit of the exponent. -/
def powNat (base : α) (exponent : Nat) : α :=
  ((List.range (exponent.log2 + 1)).foldl
    (fun (product, square) digit =>
      (if exponent.testBit digit then mul product square else product, mul square square))
    (one, base)).1

/-- An integer power; a negative one is the reciprocal of its opposite. -/
def powInt (base : α) (exponent : Int) : α :=
  let power := powNat base exponent.natAbs
  if exponent < 0 then div one power else power

end Arithmetic

end FiniteVolume
