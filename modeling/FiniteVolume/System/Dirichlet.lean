import FiniteVolume.Kernel.Evaluation
import FiniteVolume.Sparse.Matrix

/-!
# Linear systems and Dirichlet rows

A Dirichlet kernel fixes the values at the vertices of its subdomain: their rows are cleared, the
diagonal becomes the coefficient of the condition and the right-hand side its value. Enforcing one
kernel twice has the effect of enforcing it once.
-/

namespace FiniteVolume

/-- A linear system with one equation for each vertex. -/
structure LinearSystem (α : Type) where
  matrix : SparseMatrix α
  rhs : Array α

namespace LinearSystem

variable {α : Type}

/-- Sets the diagonal entry and the right-hand side of one row. -/
def setRow (system : LinearSystem α) (index : Nat) (diagonal value : α) :
    Outcome (LinearSystem α) := do
  let matrix ← system.matrix.setDiagonal index diagonal
  return { matrix, rhs := system.rhs.setIfInBounds index value }

/-- Sets the diagonal entries and right-hand sides of several rows, one after the other. Returns the
system as it is left: the rows before one that cannot be set have been set. -/
def setRows (system : LinearSystem α) : List (Nat × α × α) → LinearSystem α × Outcome Unit
  | [] => (system, .ok ())
  | (index, diagonal, value) :: rest =>
    match system.setRow index diagonal value with
    | .error failure => (system, .error failure)
    | .ok next => next.setRows rest

variable [Arithmetic α]

/-- The system with all stored entries of the given rows zero. -/
def clearRows (system : LinearSystem α) (rows : List Nat) : LinearSystem α :=
  { system with matrix := rows.foldl SparseMatrix.clearRow system.matrix }

/-- Enforces a Dirichlet kernel. Returns the system as it is left, also when enforcement fails: a
kernel that cannot be evaluated leaves its rows cleared, and a row that cannot be set leaves those
before it set. -/
def enforceDirichlet (system : LinearSystem α) (mesh : Mesh α)
    (kernel : DirichletKernel (NumericFunction α)) : LinearSystem α × Outcome Unit :=
  match mesh.verticesOf kernel.subdomain with
  | .error failure => (system, .error failure)
  | .ok vertices =>
    let isOutside := fun vertex => system.matrix.rowCount ≤ vertex || system.rhs.size ≤ vertex
    match vertices.find? isOutside with
    | some vertex =>
      (system, Outcome.reject (.shape (.dirichletVertex vertex system.matrix.rowCount)))
    | none =>
      let cleared := system.clearRows vertices
      match kernel.block.eval mesh vertices with
      | .error failure => (cleared, .error failure)
      | .ok values =>
        cleared.setRows (vertices.zip (values.coeff.toList.zip values.rhs.toList))

end LinearSystem

end FiniteVolume
