import FiniteVolume.Form.Subdomain
import FiniteVolume.Kernel.Basic
import FiniteVolume.Error

/-!
# Meshes

A mesh is given by its geometry: one unknown lives on every vertex, edges carry their length and
the ratio of their facet to it, vertices carry control volumes and boundary faces an area and the
one vertex that owns them. The functions that build a mesh reject vertex numbers that do not exist,
quantities that are not given for every entity, and edges from a vertex to itself.
-/

namespace FiniteVolume

/-- The coordinates of all vertices: for each dimension one number for each vertex. -/
structure NodeCoords (α : Type) where
  rows : Array (Array α)
  count : Nat
  size_eq : ∀ row ∈ rows, row.size = count

/-- The coordinates with given rows, if all rows have one number for each of `count` vertices. -/
def NodeCoords.ofRows? {α : Type} (count : Nat) (rows : Array (Array α)) :
    Option (NodeCoords α) :=
  if size_eq : ∀ row ∈ rows, row.size = count then some { rows, count, size_eq } else none

/-- A mesh with its precomputed geometry. -/
structure Mesh (α : Type) where
  coords : NodeCoords α
  /-- The endpoints of every edge. -/
  edges : Array (Ends Nat)
  /-- For every edge the ratio of its facet to its length. -/
  ratios : Array α
  lengths : Array α
  volumes : Array α
  /-- The owning vertex of every boundary face. -/
  owners : Array Nat := #[]
  areas : Array α := #[]
  /-- The boundary vertices, if they are not the owners of the boundary faces. -/
  boundaryVertices : Option (List Nat) := none
  /-- The vertices of every named subdomain, the latest definition of a name first. -/
  subdomains : List (String × List Nat) := []

namespace Mesh

variable {α : Type}

/-- The number of coordinates of a vertex. -/
def dim (mesh : Mesh α) : Nat := mesh.coords.rows.size

def vertexCount (mesh : Mesh α) : Nat := mesh.coords.count

/-- Rejects the first vertex number that does not exist. -/
def checkVertices (count : Nat) (vertices : List Nat) : Outcome Unit :=
  match vertices.find? fun vertex => count ≤ vertex with
  | some vertex => Outcome.reject (.shape (.vertexRange vertex count))
  | none => .ok ()

/-- The mesh of vertices and edges without boundary faces or named subdomains. -/
def build (coords : NodeCoords α) (edges : Array (Ends Nat)) (ratios lengths volumes : Array α) :
    Outcome (Mesh α) := do
  if ratios.size ≠ edges.size ∨ lengths.size ≠ edges.size then
    Outcome.reject (.shape (.edgeQuantities edges.size ratios.size lengths.size))
  if volumes.size ≠ coords.count then
    Outcome.reject (.shape (.controlVolumes coords.count volumes.size))
  checkVertices coords.count (edges.toList.flatMap fun ends => [ends.first, ends.second])
  match edges.toList.findIdx? fun ends => ends.first == ends.second with
  | some edge => Outcome.reject (.shape (.degenerateEdge edge))
  | none => return { coords, edges, ratios, lengths, volumes }

/-- The mesh with other boundary faces, given by their owners and areas. -/
def withFaces (mesh : Mesh α) (owners : Array Nat) (areas : Array α) : Outcome (Mesh α) := do
  if owners.size ≠ areas.size then
    Outcome.reject (.shape (.faceAreas owners.size areas.size))
  checkVertices mesh.vertexCount owners.toList
  return { mesh with owners, areas }

/-- The mesh with given boundary vertices, whatever its boundary faces. -/
def withBoundaryVertices (mesh : Mesh α) (vertices : List Nat) : Outcome (Mesh α) := do
  checkVertices mesh.vertexCount vertices
  return { mesh with boundaryVertices := some vertices }

/-- The mesh with a named set of vertices. -/
def withSubdomain (mesh : Mesh α) (name : String) (vertices : List Nat) : Outcome (Mesh α) := do
  checkVertices mesh.vertexCount vertices
  return { mesh with subdomains := (name, vertices) :: mesh.subdomains }

end Mesh

end FiniteVolume
