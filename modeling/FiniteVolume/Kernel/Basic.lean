import FiniteVolume.Form.Subdomain

/-!
# Kernels

A kernel tells what an integral or a boundary condition contributes at one edge, vertex or boundary
face. Its coefficients are of any kind: expressions while it is discretized, numeric functions once
it is compiled, arrays of numbers after evaluation on a mesh.
-/

namespace FiniteVolume

/-- One value for each endpoint of an edge. -/
structure Ends (κ : Type) where
  first : κ
  second : κ
deriving DecidableEq

namespace Ends

variable {κ ρ : Type} {m : Type → Type} [Monad m]

/-- Applies a function to both values, the first endpoint first. -/
def mapM (f : κ → m ρ) (ends : Ends κ) : m (Ends ρ) := do
  let first ← f ends.first
  let second ← f ends.second
  return { first, second }

end Ends

/-- The coefficients of an edge kernel: row `i` of `linear` holds the coefficients of the two
endpoint values in the contribution to endpoint `i`, `affine` its constant part. -/
structure EdgeBlock (κ : Type) where
  linear : Ends (Ends κ)
  affine : Ends κ
deriving DecidableEq

/-- The coefficients of a vertex or face kernel: the contribution is `linear * value + affine`. -/
structure PointBlock (κ : Type) where
  linear : κ
  affine : κ
deriving DecidableEq

/-- The coefficients of a Dirichlet kernel: the condition is `coeff * value = rhs`. -/
structure DirichletBlock (κ : Type) where
  coeff : κ
  rhs : κ
deriving DecidableEq

section

variable {κ ρ : Type} {m : Type → Type} [Monad m]

/-- Applies a function to all coefficients, the linear ones first. -/
def EdgeBlock.mapM (f : κ → m ρ) (block : EdgeBlock κ) : m (EdgeBlock ρ) := do
  let linear ← block.linear.mapM (Ends.mapM f)
  let affine ← block.affine.mapM f
  return { linear, affine }

/-- Applies a function to both coefficients, the linear one first. -/
def PointBlock.mapM (f : κ → m ρ) (block : PointBlock κ) : m (PointBlock ρ) := do
  let linear ← f block.linear
  let affine ← f block.affine
  return { linear, affine }

/-- Applies a function to both coefficients, the one of the value first. -/
def DirichletBlock.mapM (f : κ → m ρ) (block : DirichletBlock κ) : m (DirichletBlock ρ) := do
  let coeff ← f block.coeff
  let rhs ← f block.rhs
  return { coeff, rhs }

end

/-- A block of coefficients on some subdomains. -/
structure Kernel (block : Type) where
  block : block
  subdomains : List Subdomain
deriving DecidableEq

/-- Applies a function to the block of a kernel. -/
def Kernel.mapM {block block' : Type} {m : Type → Type} [Monad m] (f : block → m block')
    (kernel : Kernel block) : m (Kernel block') := do
  return { block := ← f kernel.block, subdomains := kernel.subdomains }

/-- A Dirichlet block on one subdomain. -/
structure DirichletKernel (κ : Type) where
  block : DirichletBlock κ
  subdomain : Subdomain
deriving DecidableEq

/-- Applies a function to the coefficients of a Dirichlet kernel. -/
def DirichletKernel.mapM {κ ρ : Type} {m : Type → Type} [Monad m] (f : κ → m ρ)
    (kernel : DirichletKernel κ) : m (DirichletKernel ρ) := do
  return { block := ← kernel.block.mapM f, subdomain := kernel.subdomain }

/-- All kernels of a problem, by the entities they belong to. -/
structure KernelSet (κ : Type) where
  edge : List (Kernel (EdgeBlock κ))
  vertex : List (Kernel (PointBlock κ))
  face : List (Kernel (PointBlock κ))
  dirichlet : List (DirichletKernel κ)

end FiniteVolume
