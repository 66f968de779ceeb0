import FiniteVolume.Form.Point

/-!
# Stencils

A kernel sees one edge with its two endpoints, one vertex or one boundary face. A stencil gives the
quantities it finds there their symbols: coordinates and normal of a generic point, the coordinates
of both endpoints, the geometry of the entity, and the values of fields at vertices.
-/

namespace FiniteVolume

/-- What the symbols of a kernel depend on: the dimension and the unknown field. -/
structure Stencil where
  dim : Nat
  field : ScalarField

namespace Stencil

/-- The symbols of the components of a vector. -/
def components (stencil : Stencil) (name : String) : List String :=
  (List.range stencil.dim).map fun index => name ++ "_" ++ toString index

def coordSymbols (stencil : Stencil) : List String := stencil.components "x"

def normalSymbols (stencil : Stencil) : List String := stencil.components "n"

/-- The coordinates of the first endpoint of an edge. -/
def firstSymbols (stencil : Stencil) : List String := stencil.components "x0"

/-- The coordinates of the second endpoint of an edge. -/
def secondSymbols (stencil : Stencil) : List String := stencil.components "x1"

/-- The vector literal of symbols. -/
def vectorOf (names : List String) : Expr := .vector (names.map .sym)

/-- The position of the generic point. -/
def position (stencil : Stencil) : Expr := vectorOf stencil.coordSymbols

/-- The normal at the generic point. -/
def normal (stencil : Stencil) : Expr := vectorOf stencil.normalSymbols

/-- The position of the first endpoint of an edge. -/
def first (stencil : Stencil) : Expr := vectorOf stencil.firstSymbols

/-- The position of the second endpoint of an edge. -/
def second (stencil : Stencil) : Expr := vectorOf stencil.secondSymbols

/-- The generic point. -/
def point (stencil : Stencil) : Point where
  coords := stencil.coordSymbols.map .sym
  normal := stencil.normalSymbols.map .sym

def edgeLength : String := "edge_length"

/-- The ratio between the facet across an edge and the length of the edge. -/
def edgeRatio : String := "edge_ce_ratio"

def controlVolume : String := "control_volume"

def surfaceArea : String := "surface_area"

/-- The value of a field at the first endpoint of an edge, or at the vertex of a vertex kernel. -/
def firstValue (field : ScalarField) : String := field.name ++ "_k0"

/-- The value of a field at the second endpoint of an edge. -/
def secondValue (field : ScalarField) : String := field.name ++ "_k1"

/-- The parameters of edge coefficients. -/
def edgeParams (stencil : Stencil) : List String :=
  stencil.firstSymbols ++ stencil.secondSymbols ++ [edgeRatio, edgeLength]

/-- The parameters of vertex coefficients. -/
def vertexParams (stencil : Stencil) : List String := controlVolume :: stencil.coordSymbols

/-- The parameters of face coefficients. -/
def faceParams (stencil : Stencil) : List String := surfaceArea :: stencil.coordSymbols

/-- The parameters of Dirichlet coefficients. -/
def dirichletParams (stencil : Stencil) : List String := stencil.coordSymbols

end Stencil

end FiniteVolume
