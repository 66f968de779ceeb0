import FiniteVolume.Kernel.Discretization
import FiniteVolume.Mesh.Entities
import FiniteVolume.Numeric.Function

/-!
# Kernels on a mesh

Compiled kernels are evaluated on batches of entities: every parameter of a coefficient is bound to
the quantity of the mesh that its symbol stands for, in the order of the parameters of its stencil.
An edge kernel may also be written by hand; all that assembly knows of it is where it applies and
which blocks it returns for given edges.
-/

namespace FiniteVolume

variable {α : Type}

/-- The blocks of an edge kernel at some edges, and the endpoints they belong to. -/
structure EdgeValues (α : Type) where
  block : EdgeBlock (Array α)
  ends : List (Ends Nat)

/-- The values of a vertex or face kernel at some entities, and the vertices they belong to. -/
structure PointValues (α : Type) where
  block : PointBlock (Array α)
  vertices : List Nat

section Evaluation

variable [Arithmetic α]

/-- The values of edge coefficients at some edges. -/
def EdgeBlock.eval (block : EdgeBlock (NumericFunction α)) (mesh : Mesh α) (edges : List Nat) :
    Outcome (EdgeValues α) := do
  let ends ← Mesh.gather mesh.edges edges
  let first ← mesh.coordsOf (ends.map Ends.first)
  let second ← mesh.coordsOf (ends.map Ends.second)
  let ratios ← Mesh.gather mesh.ratios edges
  let lengths ← Mesh.gather mesh.lengths edges
  let args := (first ++ second ++ [ratios.toArray, lengths.toArray]).map Quantity.batch
  let block ← block.mapM fun coefficient => coefficient.evalBatch args edges.length
  return { block, ends }

/-- The values of point coefficients at some vertices, with the sizes of their entities. -/
def PointBlock.eval (block : PointBlock (NumericFunction α)) (mesh : Mesh α)
    (weights : List α) (vertices : List Nat) : Outcome (PointValues α) := do
  let coords ← mesh.coordsOf vertices
  let args := (weights.toArray :: coords).map Quantity.batch
  let block ← block.mapM fun coefficient => coefficient.evalBatch args vertices.length
  return { block, vertices }

/-- The values of vertex coefficients at some vertices. -/
def PointBlock.evalVertices (block : PointBlock (NumericFunction α)) (mesh : Mesh α)
    (vertices : List Nat) : Outcome (PointValues α) := do
  block.eval mesh (← Mesh.gather mesh.volumes vertices) vertices

/-- The values of face coefficients at some boundary faces. -/
def PointBlock.evalFaces (block : PointBlock (NumericFunction α)) (mesh : Mesh α)
    (faces : List Nat) : Outcome (PointValues α) := do
  let areas ← Mesh.gather mesh.areas faces
  let vertices ← Mesh.gather mesh.owners faces
  block.eval mesh areas vertices

/-- The values of Dirichlet coefficients at some vertices. -/
def DirichletBlock.eval (block : DirichletBlock (NumericFunction α)) (mesh : Mesh α)
    (vertices : List Nat) : Outcome (DirichletBlock (Array α)) := do
  let args := (← mesh.coordsOf vertices).map Quantity.batch
  block.mapM fun coefficient => coefficient.evalBatch args vertices.length

end Evaluation

/-- An edge kernel as assembly sees it. -/
structure EdgeKernel (α : Type) where
  subdomains : List Subdomain
  eval : Mesh α → List Nat → Outcome (EdgeValues α)

/-- The kernels of a linear problem, ready for assembly. -/
structure LinearKernels (α : Type) where
  edge : List (EdgeKernel α)
  vertex : List (Kernel (PointBlock (NumericFunction α)))
  face : List (Kernel (PointBlock (NumericFunction α)))
  dirichlet : List (DirichletKernel (NumericFunction α))

/-- The kernels with a hand-written edge kernel after all others. -/
def LinearKernels.withEdgeKernel (kernels : LinearKernels α) (kernel : EdgeKernel α) :
    LinearKernels α :=
  { kernels with edge := kernels.edge ++ [kernel] }

variable [Arithmetic α]

/-- A compiled edge kernel as assembly sees it. -/
def EdgeKernel.ofCompiled (kernel : Kernel (EdgeBlock (NumericFunction α))) : EdgeKernel α where
  subdomains := kernel.subdomains
  eval := kernel.block.eval

/-- Compiles the coefficients of all kernels, edge kernels first. -/
def KernelSet.compile (kernels : KernelSet Expr) (stencil : Stencil) :
    Outcome (KernelSet (NumericFunction α)) := do
  let edge ← kernels.edge.mapM
    (Kernel.mapM (EdgeBlock.mapM (NumericFunction.compile stencil.edgeParams)))
  let vertex ← kernels.vertex.mapM
    (Kernel.mapM (PointBlock.mapM (NumericFunction.compile stencil.vertexParams)))
  let face ← kernels.face.mapM
    (Kernel.mapM (PointBlock.mapM (NumericFunction.compile stencil.faceParams)))
  let dirichlet ← kernels.dirichlet.mapM
    (DirichletKernel.mapM (NumericFunction.compile stencil.dirichletParams))
  return { edge, vertex, face, dirichlet }

/-- The compiled kernels as assembly sees them. -/
def KernelSet.toLinear (kernels : KernelSet (NumericFunction α)) : LinearKernels α where
  edge := kernels.edge.map EdgeKernel.ofCompiled
  vertex := kernels.vertex
  face := kernels.face
  dirichlet := kernels.dirichlet

/-- Discretizes a problem and compiles its kernels. -/
def Problem.compile (problem : Problem) (stencil : Stencil) : Outcome (LinearKernels α) := do
  let kernels ← problem.discretize stencil
  return (← kernels.compile stencil).toLinear

end FiniteVolume
