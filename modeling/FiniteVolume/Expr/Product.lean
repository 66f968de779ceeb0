import FiniteVolume.Expr.Sum
import FiniteVolume.Rational

/-!
# Canonical products and powers

`Expr.prod` multiplies any expressions and `Expr.power` raises one to an integer exponent. Nested
products are dissolved, constants are multiplied, like factors are collected by adding their
exponents, factors are sorted, and a number times a single sum is distributed over the sum. A
product that divides by zero is never replaced by zero. Neither function has a value when an
exponent leaves the 64-bit range.

The two call each other: a power of a product is a product of powers, and a product raises every
base to its collected exponent. Each product opened inside another one comes from a power or a sum
of the outer product, so their nesting never exceeds `productDepth`, which bounds the recursion.
-/

namespace FiniteVolume

namespace Expr

mutual

/-- The factors of an expression after all nested products are dissolved, from left to right. -/
def looseFactors : Expr → List Expr
  | .mul factors => looseFactorsOfAll factors
  | e => [e]

/-- The factors of all expressions of a list after all nested products are dissolved. -/
def looseFactorsOfAll : List Expr → List Expr
  | [] => []
  | e :: rest => e.looseFactors ++ looseFactorsOfAll rest

end

/-- A product whose like factors are collected: a coefficient and the exponent of every base. -/
structure LikeFactors where
  coefficient : Rat := 1
  exponents : Tally Exponent := []

namespace LikeFactors

/-- Multiplies by a power of a base, if its exponent stays in range. -/
def insertPower (collected : LikeFactors) (base : Expr) (exponent : Exponent) :
    Option LikeFactors := do
  let before := (collected.exponents.get? base).getD Exponent.zero
  let total ← before.add? exponent
  return { collected with exponents := collected.exponents.insert base total }

/-- Multiplies by one factor, which is not itself a product. -/
def insert (factor : Expr) (collected : LikeFactors) : Option LikeFactors :=
  match factor with
  | .num value => some { collected with coefficient := collected.coefficient * value }
  | .pow base exponent => collected.insertPower base exponent
  | factor => collected.insertPower factor Exponent.one

/-- Collects the like factors of a list of factors, the last factor first. -/
def ofFactors : List Expr → Option LikeFactors
  | [] => some {}
  | factor :: rest => do insert factor (← ofFactors rest)

/-- Whether the product divides by zero, so that a vanishing coefficient does not make it zero. -/
def isSingular (collected : LikeFactors) : Bool :=
  collected.exponents.any fun (base, exponent) =>
    (base.isZero && exponent.val < 0) || base.dividesByZero

end LikeFactors

mutual

/-- A power, given how the product of a list is formed. -/
def raise (product : List Expr → Option Expr) (e : Expr) (exponent : Exponent) : Option Expr :=
  if exponent.val = 0 then
    some one
  else if exponent.val = 1 then
    some e
  else
    match e with
    | .num value =>
      if value = 0 ∧ exponent.val < 0 then
        some (.pow (.num value) exponent)
      else
        some (.num (Rational.power value exponent.val))
    | .pow base inner => do raise product base (← inner.mul? exponent)
    | .mul factors => do product (← raiseAll product factors exponent)
    | base => some (.pow base exponent)

/-- The powers of all expressions of a list with one exponent. -/
def raiseAll (product : List Expr → Option Expr) (es : List Expr) (exponent : Exponent) :
    Option (List Expr) :=
  match es with
  | [] => some []
  | e :: rest => do
    let power ← raise product e exponent
    return power :: (← raiseAll product rest exponent)

end

/-- The product with a coefficient of factors that are neither numbers nor products. A coefficient
other than one is distributed over a single sum, given how the product of a list is formed. -/
def ofFactors (product : List Expr → Option Expr) (coefficient : Rat) :
    List Expr → Option Expr
  | [] => some (.num coefficient)
  | [.add terms] =>
    if coefficient = 1 then
      some (.add terms)
    else do
      return sum (← terms.mapM fun term => product [.num coefficient, term])
  | [factor] => some (scale coefficient factor)
  | factors => some (if coefficient = 1 then .mul factors else .mul (.num coefficient :: factors))

/-- The product of a list in which products may be opened inside one another up to a given
depth. -/
def prodToDepth : Nat → List Expr → Option Expr
  | 0, es => some (.mul es)
  | depth + 1, es => do
    let collected ← LikeFactors.ofFactors (looseFactorsOfAll es)
    if collected.coefficient = 0 ∧ ¬collected.isSingular then
      return zero
    let powers ← collected.exponents.mapM fun (base, exponent) =>
      raise (prodToDepth depth) base exponent
    let factors := powers.flatMap factors
    let coefficient := (factors.filterMap value?).foldl (· * ·) collected.coefficient
    if coefficient = 0 ∧ ¬collected.isSingular then
      return zero
    ofFactors (prodToDepth depth) coefficient (sort (factors.filter fun factor => !factor.isNum))

mutual

/-- How deep products can open inside one another below an expression: one level for every sum and
for every power of a power or of a product. -/
def productDepth : Expr → Nat
  | .add terms => productDepthOfAll terms + 1
  | .mul factors => productDepthOfAll factors
  | .pow base _ =>
    match base with
    | .mul _ | .pow _ _ => base.productDepth + 1
    | _ => base.productDepth
  | _ => 0

/-- The greatest depth over a list. -/
def productDepthOfAll : List Expr → Nat
  | [] => 0
  | e :: rest => max e.productDepth (productDepthOfAll rest)

end

/-- The canonical product of a list of expressions, if every exponent stays in range. -/
def prod (es : List Expr) : Option Expr := prodToDepth (productDepthOfAll es + 1) es

/-- The canonical power of an expression, if every exponent stays in range. -/
def power (e : Expr) (exponent : Exponent) : Option Expr :=
  raise (prodToDepth (e.productDepth + 1)) e exponent

/-- The negative of an expression. -/
def neg (e : Expr) : Option Expr := prod [.int (-1), e]

/-- The difference of two expressions. -/
def sub (left right : Expr) : Option Expr := do
  return sum [left, ← right.neg]

/-- The difference of an expression and a 64-bit integer, whose opposite has to be one as well. -/
def subInt (e : Expr) (n : Int) : Option Expr := do
  let opposite ← Exponent.ofInt? (-n)
  return sum [e, .int opposite.val]

/-- The quotient of two expressions. A zero denominator stays a negative power of zero. -/
def quot (left right : Expr) : Option Expr := do
  prod [left, ← right.power Exponent.negOne]

/-- The loose factors of several trees are collected one tree after the other. -/
theorem looseFactorsOfAll_eq_flatMap (es : List Expr) :
    looseFactorsOfAll es = es.flatMap looseFactors := by
  induction es with
  | nil => rfl
  | cons e rest ih => simp [looseFactorsOfAll, ih]

/-- Several factors are raised to a power one by one. -/
theorem raiseAll_eq_mapM (product : List Expr → Option Expr) (es : List Expr)
    (exponent : Exponent) :
    raiseAll product es exponent = es.mapM fun e => raise product e exponent := by
  induction es with
  | nil => rfl
  | cons e rest ih => simp [raiseAll, ih]

end Expr

end FiniteVolume
