import FiniteVolume.Error
import FiniteVolume.Expr.Product

/-!
# Points

An integrand is evaluated at a symbolic point, which knows its coordinates and the components of
the outward unit normal. A coordinate beyond the dimension reads as zero; the first one that is
asked for is remembered, and `Point.checkAccess` rejects it afterwards.
-/

namespace FiniteVolume

/-- A value formed at a point, together with the first coordinate beyond the dimension that was
asked for, if any. It is missing when an exponent left its range. -/
abbrev Access := StateT (Option Nat) Option

/-- A symbolic point with the outward unit normal there. -/
structure Point where
  coords : List Expr
  normal : List Expr

/-- An expression that depends on a point. -/
abbrev Integrand := Point → Access Expr

namespace Point

/-- The position vector. -/
def position (point : Point) : Expr := .vector point.coords

/-- The normal vector. -/
def normalVector (point : Point) : Expr := .vector point.normal

/-- A coordinate, or zero after remembering that it is beyond the dimension. -/
def coord (point : Point) (index : Nat) : Access Expr := do
  match point.coords[index]? with
  | some coordinate => return coordinate
  | none =>
    modify fun first => first <|> some index
    return Expr.zero

/-- Rejects an access beyond the dimension. -/
def checkAccess (point : Point) (outside : Option Nat) : Outcome Unit :=
  match outside with
  | some index => Outcome.reject (.shape (.coordinate index point.coords.length))
  | none => .ok ()

/-- The same point with the opposite normal. -/
def flipped (point : Point) : Option Point := do
  return { point with normal := ← point.normal.mapM Expr.neg }

/-- The value of an integrand at the point, unless it asks for a coordinate beyond the
dimension. -/
def evaluate (point : Point) (integrand : Integrand) : Outcome Expr := do
  let (value, outside) ← Outcome.ofPower? ((integrand point).run none)
  point.checkAccess outside
  return value

end Point

/-- A scalar field, such as the unknown. -/
structure ScalarField where
  name : String
deriving DecidableEq

namespace ScalarField

/-- The value of the field at a position. -/
def valueAt (field : ScalarField) (position : Expr) : Expr := .apply field.name [position]

/-- The value of the field at a point. -/
def sample (field : ScalarField) (point : Point) : Expr := field.valueAt point.position

/-- The first application of the field in an expression. -/
def findIn? (field : ScalarField) (e : Expr) : Option Expr := e.findCall? field.name

end ScalarField

end FiniteVolume
