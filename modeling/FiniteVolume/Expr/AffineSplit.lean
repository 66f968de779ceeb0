import FiniteVolume.Error
import FiniteVolume.Expr.Derivative
import FiniteVolume.Expr.Expansion
import FiniteVolume.Expr.Text

/-!
# Affine splits

`Expr.split` takes an expression apart with respect to some unknowns `v`: an affine part without
them, a coefficient without them for each, and a nonlinear rest, so that the expression is
`affine + Σ v * coefficient + nonlinear`. It is linear in the unknowns when the rest is zero.
-/

namespace FiniteVolume

/-- The parts of an expression with respect to a list of unknowns. -/
structure AffineSplit where
  affine : Expr
  /-- One coefficient for each unknown, in their order. -/
  linear : List Expr
  nonlinear : Expr

namespace Expr

/-- The part of an expression that depends on none of the symbols. -/
def constantPartOfAll (e : Expr) (names : List String) : Option Expr :=
  names.foldlM constantPart e

/-- Splits an expression with respect to unknowns. -/
def split (e : Expr) (unknowns : List String) : Option AffineSplit := do
  let expanded ← e.expand
  let affine ← expanded.constantPartOfAll unknowns
  let linear ← unknowns.mapM fun unknown => do
    (← expanded.diff unknown).constantPartOfAll unknowns
  let captured ← (unknowns.zip linear).mapM fun (unknown, coefficient) =>
    prod [.sym unknown, coefficient]
  let rest ← (← expanded.sub affine).sub (sum captured)
  return { affine, linear, nonlinear := ← rest.expand }

end Expr

namespace AffineSplit

/-- Whether nothing nonlinear is left over. -/
def isLinear (split : AffineSplit) : Bool := split.nonlinear.isZero

/-- The coefficient of the unknown at a position. -/
def coefficient (split : AffineSplit) (position : Nat) : Expr :=
  split.linear[position]?.getD Expr.zero

/-- Rejects a split with a nonlinear rest, naming what was split. -/
def requireLinear (split : AffineSplit) (context : Outcome String) : Outcome AffineSplit :=
  if split.isLinear then
    .ok split
  else do
    let context ← context
    let residual ← split.nonlinear.text
    Outcome.reject (.nonLinear context residual)

end AffineSplit

end FiniteVolume
