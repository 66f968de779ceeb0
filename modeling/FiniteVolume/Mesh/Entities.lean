import FiniteVolume.Mesh.Basic

/-!
# Entities of a mesh

The vertices, edges and boundary faces of a subdomain, in ascending order, and the quantities of
given entities. An edge belongs to a subdomain if both its endpoints do, a face to a named
subdomain if its owner does; every boundary face belongs to the boundary.
-/

namespace FiniteVolume.Mesh

variable {α : Type}

/-- The vertices of a subdomain other than the whole mesh, in the order they were given. -/
def listedVertices (mesh : Mesh α) : Subdomain → Outcome (Option (List Nat))
  | .everywhere => .ok none
  | .boundary => .ok (some (mesh.boundaryVertices.getD mesh.owners.toList))
  | .named name =>
    match mesh.subdomains.lookup name with
    | some vertices => .ok (some vertices)
    | none => Outcome.reject (.unknownSubdomain name)

/-- Whether a vertex is in a list of vertices; no list stands for all vertices. -/
def isListed (vertices : Option (List Nat)) (vertex : Nat) : Bool :=
  match vertices with
  | some vertices => vertices.contains vertex
  | none => true

/-- The vertices of a subdomain. -/
def verticesOf (mesh : Mesh α) (subdomain : Subdomain) : Outcome (List Nat) := do
  let listed ← mesh.listedVertices subdomain
  return (List.range mesh.vertexCount).filter (isListed listed)

/-- The edges of a subdomain. -/
def edgesOf (mesh : Mesh α) (subdomain : Subdomain) : Outcome (List Nat) := do
  let listed ← mesh.listedVertices subdomain
  let inside := mesh.edges.toList.zipIdx.filter fun (ends, _) =>
    isListed listed ends.first && isListed listed ends.second
  return inside.map Prod.snd

/-- The boundary faces of a subdomain. -/
def facesOf (mesh : Mesh α) (subdomain : Subdomain) : Outcome (List Nat) := do
  match subdomain with
  | .everywhere | .boundary => return List.range mesh.owners.size
  | .named name =>
    let listed ← mesh.listedVertices (.named name)
    let inside := mesh.owners.toList.zipIdx.filter fun (owner, _) => isListed listed owner
    return inside.map Prod.snd

/-- The values of a quantity at given entities. -/
def gather {β : Type} (quantity : Array β) (entities : List Nat) : Outcome (List β) :=
  Outcome.ofLookup? (entities.mapM fun entity => quantity[entity]?)

/-- The coordinates of given vertices: for each dimension one number for each vertex. -/
def coordsOf (mesh : Mesh α) (vertices : List Nat) : Outcome (List (Array α)) :=
  mesh.coords.rows.toList.mapM fun row => do return (← gather row vertices).toArray

end FiniteVolume.Mesh
