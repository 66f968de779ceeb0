import FiniteVolume.Expr.Product

/-!
# Expansion

`Expr.expand` distributes products over sums, multiplies out positive powers of sums and evaluates
inner products of two vectors of equal length. On the expanded form the part of an expression that
does not depend on a symbol is the sum of the terms without it (`constantPart`).

The inner product of two vectors is expanded again after it is written out. Only inner products
inside the components are left in it, so the nesting of inner products bounds the recursion.
-/

namespace FiniteVolume

namespace Expr

/-- The sum of all products of a term of one expression with a term of another. -/
def distribute (left right : Expr) : Option Expr := do
  let products ← left.terms.mapM fun a => right.terms.mapM fun b => prod [a, b]
  return sum products.flatten

/-- Distributes a product of several expressions, from left to right. -/
def distributeAll (es : List Expr) : Option Expr := es.foldlM distribute one

/-- Distributes a product by an expression as often as told. -/
def distributeRepeatedly (e : Expr) : Nat → Expr → Option Expr
  | 0, product => some product
  | count + 1, product => do distributeRepeatedly e count (← distribute product e)

/-- The sum of the products of corresponding components. -/
def innerProduct (left right : List Expr) : Option Expr := do
  return sum (← (left.zip right).mapM fun (a, b) => prod [a, b])

/-- The two vectors of equal length that an inner product is taken of. -/
def dotOperands? : Expr → Option (List Expr × List Expr)
  | .call .dot [.vector left, .vector right] =>
    if left.length = right.length then some (left, right) else none
  | _ => none

mutual

/-- Expands an expression, given how a written-out inner product is expanded. -/
def expandWith (expandProduct : Expr → Option Expr) (e : Expr) : Option Expr :=
  match e with
  | .num value => some (.num value)
  | .sym name => some (.sym name)
  | .add terms => do return sum (← expandAllWith expandProduct terms)
  | .mul factors => do distributeAll (← expandAllWith expandProduct factors)
  | .pow base exponent => do
    let expanded ← expandWith expandProduct base
    match expanded with
    | .add terms =>
      if 1 < exponent.val then
        distributeRepeatedly (.add terms) exponent.val.toNat one
      else
        power (.add terms) exponent
    | expanded => power expanded exponent
  | .vector components => do return .vector (← expandAllWith expandProduct components)
  | .call head args => do
    match dotOperands? (.call head args) with
    | some (left, right) => expandProduct (← innerProduct left right)
    | none => return .call head (← expandAllWith expandProduct args)

/-- Expands every expression of a list. -/
def expandAllWith (expandProduct : Expr → Option Expr) (es : List Expr) : Option (List Expr) :=
  match es with
  | [] => some []
  | e :: rest => do
    let expanded ← expandWith expandProduct e
    return expanded :: (← expandAllWith expandProduct rest)

end

/-- Expands an expression in which inner products are nested up to a given depth. -/
def expandToDepth : Nat → Expr → Option Expr
  | 0, e => expandWith some e
  | depth + 1, e => expandWith (expandToDepth depth) e

mutual

/-- How deep inner products are nested in an expression. -/
def dotDepth : Expr → Nat
  | .num _ | .sym _ => 0
  | .add es | .mul es | .vector es => dotDepthOfAll es
  | .pow base _ => base.dotDepth
  | .call .dot args => dotDepthOfAll args + 1
  | .call _ args => dotDepthOfAll args

/-- The greatest depth over a list. -/
def dotDepthOfAll : List Expr → Nat
  | [] => 0
  | e :: rest => max e.dotDepth (dotDepthOfAll rest)

end

/-- The expression with all products distributed over sums, if every exponent stays in range. -/
def expand (e : Expr) : Option Expr := expandToDepth e.dotDepth e

/-- The sum of the terms of the expansion that do not depend on a symbol. -/
def constantPart (e : Expr) (name : String) : Option Expr := do
  return sum ((← e.expand).terms.filter fun term => !term.hasSymbol name)

end Expr

end FiniteVolume
