import FiniteVolume.Exponent
import FiniteVolume.Error
import FiniteVolume.Rational
import FiniteVolume.Text.CodeRange
import FiniteVolume.Text.Combining
import FiniteVolume.Text.Unassigned
import FiniteVolume.Text.Glyph
import FiniteVolume.Text.Quoted
import FiniteVolume.Expr.Basic
import FiniteVolume.Expr.Order
import FiniteVolume.Expr.Symbols
import FiniteVolume.Expr.Tally
import FiniteVolume.Expr.Sum
import FiniteVolume.Expr.Product
import FiniteVolume.Expr.Text
import FiniteVolume.Expr.Substitution
import FiniteVolume.Expr.Expansion
import FiniteVolume.Expr.Pointwise
import FiniteVolume.Expr.Derivative
import FiniteVolume.Expr.AffineSplit
import FiniteVolume.Form.Measure
import FiniteVolume.Form.Subdomain
import FiniteVolume.Form.Point
import FiniteVolume.Form.Problem
import FiniteVolume.Stencil.Basic
import FiniteVolume.Stencil.Edge
import FiniteVolume.Kernel.Basic
import FiniteVolume.Kernel.Discretization
import FiniteVolume.Kernel.Evaluation
import FiniteVolume.Numeric.Arithmetic
import FiniteVolume.Numeric.Binary64
import FiniteVolume.Numeric.Quantity
import FiniteVolume.Numeric.Function
import FiniteVolume.Mesh.Basic
import FiniteVolume.Mesh.Entities
import FiniteVolume.Sparse.Matrix
import FiniteVolume.System.Dirichlet
import FiniteVolume.System.Assembly
import FiniteVolume.Proofs.Canonical.Singular
import FiniteVolume.Proofs.Canonical.Completeness
import FiniteVolume.Proofs.Canonical.Retention
import FiniteVolume.Proofs.Value.Rewriting
import FiniteVolume.Proofs.Value.Derivative
import FiniteVolume.Proofs.Laurent.Equality
import FiniteVolume.Proofs.Laurent.Restriction
import FiniteVolume.Proofs.Split.Soundness
import FiniteVolume.Proofs.Split.Linearity
import FiniteVolume.Proofs.Stencil.Rebuilding
import FiniteVolume.Proofs.Kernel.Edge
import FiniteVolume.Proofs.Kernel.Point
import FiniteVolume.Proofs.System.Assembly
import FiniteVolume.Proofs.Kernel.Merging
import FiniteVolume.Proofs.System.Conservation
import FiniteVolume.Proofs.System.Resolution
import FiniteVolume.Proofs.Mesh.Subdomains
import FiniteVolume.Proofs.Kernel.Source
import FiniteVolume.Proofs.Sparse.Stored
import FiniteVolume.Proofs.System.Reported
import FiniteVolume.Proofs.System.Enforcement
import FiniteVolume.Proofs.System.Repetition
import FiniteVolume.Proofs.Kernel.Propagation
import FiniteVolume.Proofs.System.HandWritten
import FiniteVolume.Proofs.Kernel.DivisionByZero
import FiniteVolume.Proofs.Numeric.Grammar
import FiniteVolume.Proofs.Numeric.Constancy
import FiniteVolume.Proofs.Stencil.Grammar
import FiniteVolume.Proofs.Kernel.Exchange
import FiniteVolume.Proofs.System.Pattern
import FiniteVolume.Proofs.Kernel.Mentions
import FiniteVolume.Proofs.Expr.Lexicographic
import FiniteVolume.Proofs.Sparse.Diagonal
import FiniteVolume.Proofs.Canonical.Reordering
import FiniteVolume.Proofs.Mesh.Queries
import FiniteVolume.Proofs.Canonical.Termination
