/-!
# Errors

Whatever can go wrong between a weak form and its linear system, as data. An `Error` says why an
input is rejected, and `Error.message` says it in words. A `Failure` says why a computation has no
answer: its input was rejected, or it could not go on because an exponent left its range or an
entity was looked up that does not exist.
-/

namespace FiniteVolume

/-- Why a construct of an integrand or of a coefficient is not supported. -/
inductive Unsupported where
  | dotOperands
  | normalDerivativeOperand
  | normalDerivativePoint
  | normalDerivativeOffEdge
  | argumentCount (count : Nat)
  | emptyChain
  | fieldPoint
  | divisionByZero
  | exponentRange
  | constantRange
  /-- A reason of a hand-written kernel. -/
  | custom (text : String)
deriving DecidableEq

/-- What has the wrong shape. -/
inductive ShapeMismatch where
  | coordinate (index dim : Nat)
  | batches (left right : Nat)
  | batchLength (expected actual : Nat)
  | argumentCount (source : String) (expected actual : Nat)
  | vectorCoefficient (source : String)
  | dotOperands (source : String)
  | edgeQuantities (edges ratios lengths : Nat)
  | controlVolumes (vertices volumes : Nat)
  | faceAreas (faces areas : Nat)
  | vertexRange (vertex count : Nat)
  | degenerateEdge (edge : Nat)
  | edgeBlocks (blocks edges : Nat)
  | dirichletVertex (vertex size : Nat)
deriving DecidableEq

/-- What is wrong with the triplets of a sparse matrix. -/
inductive SparseDefect where
  | indexCounts
  | valueCount
  | rowBounds
  | columnBounds
deriving DecidableEq

/-- Why an input is rejected. -/
inductive Error where
  | unsupported (construct : String) (reason : Unsupported)
  | nonLinear (context residual : String)
  | unknownMeasure (tag : String)
  | unknownFunction (name : String)
  | unboundSymbol (name : String)
  | shape (mismatch : ShapeMismatch)
  | unknownSubdomain (name : String)
  | sparse (defect : SparseDefect)
deriving DecidableEq

/-- The reason in words. -/
def Unsupported.message : Unsupported → String
  | .dotOperands => "`dot` takes exactly two vectors"
  | .normalDerivativeOperand => "`n_dot_grad` takes exactly one field sample"
  | .normalDerivativePoint => "`n_dot_grad` needs a field sampled at the integration point"
  | .normalDerivativeOffEdge => "normal derivative is only defined on edge integrals"
  | .argumentCount count => s!"pointwise function takes one argument, got {count}"
  | .emptyChain => "empty chain"
  | .fieldPoint => "field must be sampled at the integration point"
  | .divisionByZero => "division by zero"
  | .exponentRange => "exponent out of range"
  | .constantRange => "constant out of floating point range"
  | .custom text => text

/-- The mismatch in words. -/
def ShapeMismatch.message : ShapeMismatch → String
  | .coordinate index dim => s!"coordinate {index} of a {dim}-dimensional point"
  | .batches left right => s!"batches of length {left} and {right} do not match"
  | .batchLength expected actual => s!"expected batch of length {expected}, got {actual}"
  | .argumentCount source expected actual =>
    s!"`{source}` takes {expected} arguments, got {actual}"
  | .vectorCoefficient source => s!"vector `{source}` where a scalar coefficient was expected"
  | .dotOperands source => s!"`{source}` needs two vectors of equal length"
  | .edgeQuantities edges ratios lengths =>
    s!"{edges} edges, but {ratios} ce-ratios and {lengths} edge lengths"
  | .controlVolumes vertices volumes => s!"{vertices} vertices, but {volumes} control volumes"
  | .faceAreas faces areas => s!"{faces} faces, but {areas} face areas"
  | .vertexRange vertex count => s!"vertex {vertex} out of range for {count} vertices"
  | .degenerateEdge edge => s!"edge {edge} is degenerate"
  | .edgeBlocks blocks edges => s!"edge kernel returned {blocks} blocks for {edges} edges"
  | .dirichletVertex vertex size =>
    s!"dirichlet vertex {vertex} out of range for system of size {size}"

/-- The defect in words. -/
def SparseDefect.message : SparseDefect → String
  | .indexCounts => "Number of row and col indices must be the same."
  | .valueCount => "Number of col indices and values must be the same."
  | .rowBounds => "Row index out of bounds."
  | .columnBounds => "Col index out of bounds."

/-- The error in words. -/
def Error.message : Error → String
  | .unsupported construct reason => s!"unsupported construct `{construct}`: {reason.message}"
  | .nonLinear context residual =>
    s!"{context} is not linear in the unknown, nonlinear residual: {residual}"
  | .unknownMeasure tag => s!"unknown integration measure `{tag}`"
  | .unknownFunction name => s!"unknown function `{name}` in compiled expression"
  | .unboundSymbol name => s!"symbol `{name}` is not bound to any kernel argument"
  | .shape mismatch => s!"shape mismatch: {mismatch.message}"
  | .unknownSubdomain name => s!"unknown subdomain `{name}`"
  | .sparse defect => s!"sparse format: {defect.message}"

/-- Why a computation has no answer. -/
inductive Failure where
  /-- The input is rejected. -/
  | rejected (error : Error)
  /-- An exponent left the 64-bit range. -/
  | exponentRange
  /-- A vertex, edge, face, row or entry was looked up that does not exist. -/
  | indexRange
deriving DecidableEq

/-- An answer, or the reason why there is none. -/
abbrev Outcome := Except Failure

namespace Outcome

variable {α : Type}

/-- Rejects the input. -/
def reject (error : Error) : Outcome α := .error (.rejected error)

/-- A value that is missing only when an exponent left its range. -/
def ofPower? : Option α → Outcome α
  | some value => .ok value
  | none => .error .exponentRange

/-- A value that is missing only when an entity does not exist. -/
def ofLookup? : Option α → Outcome α
  | some value => .ok value
  | none => .error .indexRange

end Outcome

end FiniteVolume
