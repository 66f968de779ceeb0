import FiniteVolume.Expr.Tally

/-!
# Canonical sums

`Expr.sum` adds any expressions. Nested sums are dissolved, constants are added up, terms that
differ only in their numeric coefficient are collected, terms whose coefficient vanishes are
dropped and the remaining terms are sorted. A term that divides by zero is never dropped: its
coefficient zero does not make it zero.
-/

namespace FiniteVolume

namespace Expr

mutual

/-- The terms of an expression after all nested sums are dissolved, from left to right. -/
def summands : Expr → List Expr
  | .add terms => summandsOfAll terms
  | e => [e]

/-- The terms of all expressions of a list after all nested sums are dissolved. -/
def summandsOfAll : List Expr → List Expr
  | [] => []
  | e :: rest => e.summands ++ summandsOfAll rest

end

/-- The numeric coefficient that leads a term, and the term without it. -/
def splitCoefficient : Expr → Rat × Expr
  | .mul [.num coefficient, factor] => (coefficient, factor)
  | .mul (.num coefficient :: factors) => (coefficient, .mul factors)
  | e => (1, e)

/-- A coefficient in front of a monomial; the coefficient one is not written. -/
def scale (coefficient : Rat) (monomial : Expr) : Expr :=
  if coefficient = 1 then
    monomial
  else
    match monomial with
    | .mul factors => .mul (.num coefficient :: factors)
    | monomial => .mul [.num coefficient, monomial]

/-- A sum whose like terms are collected: a constant and the coefficient of every monomial. -/
structure LikeTerms where
  constant : Rat := 0
  coefficients : Tally Rat := []

namespace LikeTerms

/-- Adds one term, which is not itself a sum. -/
def insert (term : Expr) (collected : LikeTerms) : LikeTerms :=
  match term with
  | .num value => { collected with constant := collected.constant + value }
  | term =>
    let (coefficient, monomial) := term.splitCoefficient
    let before := (collected.coefficients.get? monomial).getD 0
    { collected with
      coefficients := collected.coefficients.insert monomial (before + coefficient) }

/-- Collects the like terms of a list of terms. -/
def ofTerms (terms : List Expr) : LikeTerms := terms.foldr insert {}

/-- Whether a collected term stays in the sum: its coefficient does not vanish, or its monomial
divides by zero. -/
def keeps (monomial : Expr) (coefficient : Rat) : Bool :=
  coefficient ≠ 0 || monomial.dividesByZero

/-- The terms that stay in the sum, sorted. -/
def toTerms (collected : LikeTerms) : List Expr :=
  let kept := collected.coefficients.filter fun entry => keeps entry.1 entry.2
  let scaled := kept.map fun entry => scale entry.2 entry.1
  sort (if collected.constant = 0 then scaled else scaled ++ [.num collected.constant])

end LikeTerms

/-- The sum of given terms, none of them being written if there is none and no sum if there is
only one. -/
def ofTerms : List Expr → Expr
  | [] => zero
  | [term] => term
  | terms => .add terms

/-- The canonical sum of a list of expressions. -/
def sum (es : List Expr) : Expr :=
  ofTerms (LikeTerms.ofTerms (summandsOfAll es)).toTerms

/-- The summands of several trees are collected one tree after the other. -/
theorem summandsOfAll_eq_flatMap (es : List Expr) : summandsOfAll es = es.flatMap summands := by
  induction es with
  | nil => rfl
  | cons e rest ih => simp [summandsOfAll, ih]

end Expr

end FiniteVolume
