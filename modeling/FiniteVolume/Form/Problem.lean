import FiniteVolume.Form.Measure
import FiniteVolume.Form.Point
import FiniteVolume.Form.Subdomain

/-!
# Weak forms

A linear problem in weak form: integrals over measures, each on some subdomains, and essential
boundary conditions, each on one.
-/

namespace FiniteVolume

/-- An integral of an integrand over a measure, on each of its subdomains. -/
structure Integral where
  integrand : Integrand
  measure : Measure
  subdomains : List Subdomain := [.everywhere]

namespace Integral

/-- The same integral on other subdomains; an empty list stands for everywhere. -/
def on (integral : Integral) (subdomains : List Subdomain) : Integral :=
  { integral with subdomains := if subdomains.isEmpty then [.everywhere] else subdomains }

/-- An integral without its integrand, in words. -/
def describe (integral : Integral) : String :=
  "Integral \x7b measure: " ++ integral.measure.describe ++ ", subdomains: [" ++
    ", ".intercalate (integral.subdomains.map Subdomain.describe) ++ "], .. \x7d"

end Integral

/-- The condition that an expression vanishes on a subdomain. It is linear in the unknown and fixes
its value at every vertex there. -/
structure DirichletCondition where
  condition : Integrand
  subdomain : Subdomain

/-- A condition without its expression, in words. -/
def DirichletCondition.describe (condition : DirichletCondition) : String :=
  "DirichletCondition \x7b subdomain: " ++ condition.subdomain.describe ++ ", .. \x7d"

/-- A linear problem in weak form. -/
structure Problem where
  integrals : List Integral
  conditions : List DirichletCondition := []

end FiniteVolume
