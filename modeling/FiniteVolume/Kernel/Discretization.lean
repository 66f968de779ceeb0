import FiniteVolume.Expr.AffineSplit
import FiniteVolume.Form.Problem
import FiniteVolume.Kernel.Basic
import FiniteVolume.Stencil.Edge

/-!
# From weak forms to kernels

Every integral is discretized on the entities of its measure and split into a linear and an affine
part in the values of the unknown; whatever is not linear is rejected. An edge kernel holds the
contributions to both endpoints: the second comes from the expression of the first with the
endpoints exchanged. Equal kernels are kept once, in the order of their first occurrence.
-/

namespace FiniteVolume

namespace Stencil

/-- Rejects an expression that divides by zero. Such a term survives all cancellation and would be
mistaken for a nonlinear rest later. -/
def rejectDivisionByZero (e : Expr) : Outcome Unit :=
  if e.dividesByZero then e.reject .divisionByZero else .ok ()

/-- The split of an expression, if it is linear in the unknowns. -/
def linearSplit (e : Expr) (unknowns : List String) : Outcome AffineSplit := do
  (← Outcome.ofPower? (e.split unknowns)).requireLinear e.text

/-- The rules that exchange the endpoints of an edge. -/
def exchangeRules (stencil : Stencil) : List Expr.Rule :=
  let pairs :=
    (firstValue stencil.field, secondValue stencil.field) ::
      stencil.firstSymbols.zip stencil.secondSymbols
  pairs.flatMap fun (first, second) =>
    [(.sym first, .sym second), (.sym second, .sym first)]

/-- The contributions of an integrand on the facet across an edge to both endpoints. -/
def edgeBlock (stencil : Stencil) (integrand : Integrand) : Outcome (EdgeBlock Expr) := do
  let contribution ← stencil.discretizeEdge integrand [stencil.field]
  let forward ← Outcome.ofPower? contribution.normalize
  rejectDivisionByZero forward
  let unknowns := [firstValue stencil.field, secondValue stencil.field]
  let forwardSplit ← linearSplit forward unknowns
  let backward ← Outcome.ofPower? (forward.subst stencil.exchangeRules)
  let backwardSplit ← linearSplit backward unknowns
  return {
    linear := ⟨⟨forwardSplit.coefficient 0, forwardSplit.coefficient 1⟩,
      ⟨backwardSplit.coefficient 0, backwardSplit.coefficient 1⟩⟩
    affine := ⟨forwardSplit.affine, backwardSplit.affine⟩ }

/-- An integrand at a vertex, in terms of the value of the unknown there. -/
def atVertex (stencil : Stencil) (integrand : Integrand) : Outcome Expr := do
  let value ← stencil.point.evaluate integrand
  let sample := stencil.field.sample stencil.point
  let e ←
    if sample ∈ value.subterms then
      Outcome.ofPower? (value.subst [(sample, .sym (firstValue stencil.field))])
    else
      pure value
  match stencil.field.findIn? e with
  | some application => application.reject .fieldPoint
  | none =>
    rejectDivisionByZero e
    return e

/-- The contribution of an integrand to a vertex, weighted by the size of its entity. -/
def pointBlock (stencil : Stencil) (integrand : Integrand) (weight : String) :
    Outcome (PointBlock Expr) := do
  let value ← stencil.atVertex integrand
  let contribution ← Outcome.ofPower? (Expr.prod [value, .sym weight])
  let split ← linearSplit contribution [firstValue stencil.field]
  return { linear := split.coefficient 0, affine := split.affine }

/-- The equation that a condition imposes on the value of the unknown at a vertex. -/
def dirichletBlock (stencil : Stencil) (condition : Integrand) :
    Outcome (DirichletBlock Expr) := do
  let value ← stencil.atVertex condition
  let split ← linearSplit value [firstValue stencil.field]
  return { coeff := split.coefficient 0, rhs := ← Outcome.ofPower? split.affine.neg }

end Stencil

/-- A kernel of an integral, by the entities of its measure. -/
inductive IntegralKernel where
  | edge (kernel : Kernel (EdgeBlock Expr))
  | vertex (kernel : Kernel (PointBlock Expr))
  | face (kernel : Kernel (PointBlock Expr))

namespace IntegralKernel

def edge? : IntegralKernel → Option (Kernel (EdgeBlock Expr))
  | edge kernel => some kernel
  | _ => none

def vertex? : IntegralKernel → Option (Kernel (PointBlock Expr))
  | vertex kernel => some kernel
  | _ => none

def face? : IntegralKernel → Option (Kernel (PointBlock Expr))
  | face kernel => some kernel
  | _ => none

/-- The kernel of an integral. -/
def ofIntegral (stencil : Stencil) (integral : Integral) : Outcome IntegralKernel := do
  match integral.measure with
  | .controlVolumeSurface =>
    return edge ⟨← stencil.edgeBlock integral.integrand, integral.subdomains⟩
  | .controlVolume =>
    return vertex
      ⟨← stencil.pointBlock integral.integrand Stencil.controlVolume, integral.subdomains⟩
  | .boundarySurface =>
    return face
      ⟨← stencil.pointBlock integral.integrand Stencil.surfaceArea, integral.subdomains⟩

end IntegralKernel

/-- The kernel of a boundary condition. -/
def DirichletKernel.ofCondition (stencil : Stencil) (condition : DirichletCondition) :
    Outcome (DirichletKernel Expr) := do
  return ⟨← stencil.dirichletBlock condition.condition, condition.subdomain⟩

/-- The distinct kernels of a problem. -/
def Problem.discretize (problem : Problem) (stencil : Stencil) : Outcome (KernelSet Expr) := do
  let kernels ← problem.integrals.mapM (IntegralKernel.ofIntegral stencil)
  let dirichlet ← problem.conditions.mapM (DirichletKernel.ofCondition stencil)
  return {
    edge := (kernels.filterMap IntegralKernel.edge?).eraseDups
    vertex := (kernels.filterMap IntegralKernel.vertex?).eraseDups
    face := (kernels.filterMap IntegralKernel.face?).eraseDups
    dirichlet := dirichlet.eraseDups }

end FiniteVolume
