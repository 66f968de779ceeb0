import FiniteVolume.Expr.Substitution
import FiniteVolume.Expr.Text
import FiniteVolume.Stencil.Basic

/-!
# Integrals over the surface of a control volume

The facet between two control volumes crosses one edge. `Stencil.discretizeEdge` turns an integrand
on the facet into an expression of the edge: the normal derivative of a field is the difference of
its endpoint values over the edge length, a field sample is the mean of the two values, coordinates
are taken at the midpoint and the normal points from the first endpoint to the second.
-/

namespace FiniteVolume.Stencil

/-- The normal derivative of a field sample: a difference quotient along the edge. -/
def differenceQuotient (stencil : Stencil) (args : List Expr) : Outcome Expr :=
  let node := Expr.call .normalDerivative args
  match args with
  | [.call (.named name) [position]] =>
    if position = stencil.position then
      let field : ScalarField := ⟨name⟩
      Outcome.ofPower? do
        let difference ← (field.valueAt stencil.second).sub (field.valueAt stencil.first)
        difference.quot (.sym edgeLength)
    else
      node.reject .normalDerivativePoint
  | [.call (.named _) _] => node.reject .normalDerivativePoint
  | _ => node.reject .normalDerivativeOperand

mutual

/-- Replaces normal derivatives by difference quotients, and rejects what is not an integrand. -/
def localize (stencil : Stencil) (e : Expr) : Outcome Expr :=
  match e with
  | .num value => .ok (.num value)
  | .sym name => .ok (.sym name)
  | .add [] => (Expr.add []).reject .emptyChain
  | .add (term :: rest) => do
    localizeChain stencil (fun left right => some (Expr.sum [left, right]))
      (← localize stencil term) rest
  | .mul [] => (Expr.add []).reject .emptyChain
  | .mul (factor :: rest) => do
    localizeChain stencil (fun left right => Expr.prod [left, right])
      (← localize stencil factor) rest
  | .pow base exponent => do Outcome.ofPower? ((← localize stencil base).power exponent)
  | .vector components => do return .vector (← localizeAll stencil components)
  | .call .dot [.vector left, .vector right] => do
    let left ← localizeAll stencil left
    let right ← localizeAll stencil right
    return .call .dot [.vector left, .vector right]
  | .call .dot args => (Expr.call .dot args).reject .dotOperands
  | .call .normalDerivative args => stencil.differenceQuotient args
  | .call (.named name) [arg] => do return .apply name [← localize stencil arg]
  | .call (.named name) args => (Expr.apply name args).reject (.argumentCount args.length)

/-- Localizes every expression of a list. -/
def localizeAll (stencil : Stencil) (es : List Expr) : Outcome (List Expr) :=
  match es with
  | [] => .ok []
  | e :: rest => do
    let localized ← localize stencil e
    return localized :: (← localizeAll stencil rest)

/-- Joins localized operands one after the other to what precedes them. -/
def localizeChain (stencil : Stencil) (join : Expr → Expr → Option Expr) (before : Expr)
    (es : List Expr) : Outcome Expr :=
  match es with
  | [] => .ok before
  | e :: rest => do
    let joined ← Outcome.ofPower? (join before (← localize stencil e))
    localizeChain stencil join joined rest

end

/-- The mean of two symbols. -/
def mean (left right : String) : Option Expr := (Expr.sum [.sym left, .sym right]).quot (.int 2)

/-- Puts the values of a field at the endpoints and at the midpoint in the place of its samples.
No other application of the field may be left. -/
def sampleField (stencil : Stencil) (e : Expr) (field : ScalarField) : Outcome Expr := do
  let atFirst := (field.valueAt stencil.first, Expr.sym (firstValue field))
  let atSecond := (field.valueAt stencil.second, Expr.sym (secondValue field))
  let e ← Outcome.ofPower? (e.subst [atFirst])
  let e ← Outcome.ofPower? (e.subst [atSecond])
  let middle ← Outcome.ofPower? (mean (firstValue field) (secondValue field))
  let e ← Outcome.ofPower? (e.subst [(field.valueAt stencil.position, middle)])
  match field.findIn? e with
  | some application => application.reject .fieldPoint
  | none => return e

/-- Every coordinate is taken at the midpoint of the edge. -/
def midpointRules (stencil : Stencil) : Option (List Expr.Rule) :=
  (stencil.coordSymbols.zip (stencil.firstSymbols.zip stencil.secondSymbols)).mapM
    fun (coord, first, second) => do return (.sym coord, ← mean first second)

/-- The normal is the unit vector from the first endpoint to the second. -/
def normalRules (stencil : Stencil) : Option (List Expr.Rule) :=
  (stencil.normalSymbols.zip (stencil.firstSymbols.zip stencil.secondSymbols)).mapM
    fun (normal, first, second) => do
      let difference ← (Expr.sym second).sub (.sym first)
      return (.sym normal, ← difference.quot (.sym edgeLength))

/-- The contribution of a facet to the control volume of the first endpoint of its edge, in terms
of the endpoint values of the given fields. -/
def discretizeEdge (stencil : Stencil) (integrand : Integrand) (fields : List ScalarField) :
    Outcome Expr := do
  let value ← stencil.point.evaluate integrand
  let area ← Outcome.ofPower? (Expr.prod [.sym edgeLength, .sym edgeRatio])
  let localized ← stencil.localize value
  let contribution ← Outcome.ofPower? (Expr.prod [area, localized])
  let sampled ← fields.foldlM stencil.sampleField contribution
  let midpoint ← Outcome.ofPower? stencil.midpointRules
  let atMidpoint ← Outcome.ofPower? (sampled.subst midpoint)
  let normal ← Outcome.ofPower? stencil.normalRules
  Outcome.ofPower? (atMidpoint.subst normal)

end FiniteVolume.Stencil
