import FiniteVolume.System.Dirichlet

/-!
# Assembly

The system of a linear problem is the sum of what its kernels contribute on their subdomains. Every
diagonal entry is stored, so that Dirichlet rows, which are enforced last, find theirs.
-/

namespace FiniteVolume

variable {α : Type}

/-- What one kernel contributes on one subdomain. -/
structure Contribution (α : Type) where
  triplets : List (Triplet α)
  /-- Right-hand side entries by vertex. -/
  rhs : List (Nat × α)

/-- The contribution of two parts, the first one before the second. -/
def Contribution.append (first second : Contribution α) : Contribution α where
  triplets := first.triplets ++ second.triplets
  rhs := first.rhs ++ second.rhs

variable [Arithmetic α]

namespace Contribution

/-- A triplet for a value other than zero. -/
def tripletUnlessZero (row col : Nat) (value : α) : List (Triplet α) :=
  if Arithmetic.isZero value then [] else [⟨row, col, value⟩]

/-- What one block of an edge kernel contributes. -/
def ofEdgeBlock (ends : Ends Nat) (block : EdgeBlock α) : Contribution α where
  triplets :=
    tripletUnlessZero ends.first ends.first block.linear.first.first ++
    tripletUnlessZero ends.first ends.second block.linear.first.second ++
    tripletUnlessZero ends.second ends.first block.linear.second.first ++
    tripletUnlessZero ends.second ends.second block.linear.second.second
  rhs :=
    [(ends.first, Arithmetic.neg block.affine.first),
      (ends.second, Arithmetic.neg block.affine.second)]

/-- What one value of a point kernel contributes. -/
def ofPointBlock (vertex : Nat) (block : PointBlock α) : Contribution α where
  triplets := tripletUnlessZero vertex vertex block.linear
  rhs := [(vertex, Arithmetic.neg block.affine)]

/-- The sum of contributions, in their order. -/
def sum (contributions : List (Contribution α)) : Contribution α :=
  contributions.foldr append ⟨[], []⟩

/-- What an edge kernel contributes by its values at some edges. -/
def ofEdgeValues (values : EdgeValues α) (edges : List Nat) : Outcome (Contribution α) := do
  if values.ends.length ≠ edges.length then
    Outcome.reject (.shape (.edgeBlocks values.ends.length edges.length))
  let parts ← values.ends.zipIdx.mapM fun (ends, position) => do
    let block ← Outcome.ofLookup? (values.block.mapM fun coefficient => coefficient[position]?)
    return ofEdgeBlock ends block
  return sum parts

/-- What a point kernel contributes by its values at some entities. -/
def ofPointValues (values : PointValues α) : Contribution α :=
  let blocks := values.block.linear.toList.zip values.block.affine.toList
  sum ((values.vertices.zip blocks).map fun (vertex, linear, affine) =>
    ofPointBlock vertex { linear, affine })

end Contribution

namespace LinearKernels

/-- The contributions of all kernels but the Dirichlet kernels, one for each of their
subdomains. -/
def contributions (kernels : LinearKernels α) (mesh : Mesh α) :
    Outcome (List (Contribution α)) := do
  let edge ← kernels.edge.mapM fun kernel =>
    kernel.subdomains.mapM fun subdomain => do
      let edges ← mesh.edgesOf subdomain
      Contribution.ofEdgeValues (← kernel.eval mesh edges) edges
  let vertex ← kernels.vertex.mapM fun kernel =>
    kernel.subdomains.mapM fun subdomain => do
      let vertices ← mesh.verticesOf subdomain
      return Contribution.ofPointValues (← kernel.block.evalVertices mesh vertices)
  let face ← kernels.face.mapM fun kernel =>
    kernel.subdomains.mapM fun subdomain => do
      let faces ← mesh.facesOf subdomain
      return Contribution.ofPointValues (← kernel.block.evalFaces mesh faces)
  return edge.flatten ++ vertex.flatten ++ face.flatten

end LinearKernels

namespace LinearSystem

/-- Adds a value to an entry of a vector. -/
def addTo (vector : Array α) (index : Nat) (value : α) : Outcome (Array α) :=
  if index < vector.size then
    .ok (vector.modify index fun old => Arithmetic.add old value)
  else
    .error .indexRange

/-- The system of a contribution for a number of vertices. -/
def ofContribution (count : Nat) (contribution : Contribution α) :
    Outcome (LinearSystem α) := do
  let rhs ← contribution.rhs.foldlM (fun rhs (vertex, value) => addTo rhs vertex value)
    (Array.replicate count Arithmetic.zero)
  let diagonal := (List.range count).map fun vertex => ⟨vertex, vertex, Arithmetic.zero⟩
  let entries := contribution.triplets ++ diagonal
  let triplets ← SparseMatrix.triplets count count (entries.map Triplet.row)
    (entries.map Triplet.col) (entries.map Triplet.value)
  return { matrix := SparseMatrix.ofTriplets count count triplets, rhs }

/-- The system of all kernels on a mesh, with the Dirichlet kernels enforced in their order. -/
def assemble (mesh : Mesh α) (kernels : LinearKernels α) : Outcome (LinearSystem α) := do
  let contributions ← kernels.contributions mesh
  let system ← ofContribution mesh.vertexCount (Contribution.sum contributions)
  kernels.dirichlet.foldlM
    (fun system kernel => do
      let (enforced, outcome) := system.enforceDirichlet mesh kernel
      outcome
      return enforced)
    system

end LinearSystem

end FiniteVolume
