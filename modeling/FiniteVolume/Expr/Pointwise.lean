import FiniteVolume.Expr.Product

/-!
# Known pointwise functions

The functions of one argument that can be differentiated exactly and evaluated numerically. Any
other name stands for an unknown function or a field.
-/

namespace FiniteVolume

/-- A known function of one argument. -/
inductive Pointwise where
  | sin
  | cos
  | tan
  | exp
  | log
  | sqrt
  | sinh
  | cosh
  | tanh
  | abs
  /-- One for positive and minus one for negative numbers. -/
  | sign
deriving DecidableEq

namespace Pointwise

/-- All known functions. -/
def all : List Pointwise := [sin, cos, tan, exp, log, sqrt, sinh, cosh, tanh, abs, sign]

/-- The name of a known function in expressions. -/
def name : Pointwise → String
  | sin => "sin"
  | cos => "cos"
  | tan => "tan"
  | exp => "exp"
  | log => "log"
  | sqrt => "sqrt"
  | sinh => "sinh"
  | cosh => "cosh"
  | tanh => "tanh"
  | abs => "abs"
  | sign => "sign"

/-- The known function of a given name. -/
def ofName? (name : String) : Option Pointwise := all.find? fun function => function.name == name

/-- The function applied to an expression. -/
def call (function : Pointwise) (e : Expr) : Expr := .apply function.name [e]

/-- The derivative of the function at an expression. The sign is constant where it is
differentiable. -/
def derivative (function : Pointwise) (e : Expr) : Option Expr :=
  match function with
  | sin => some (cos.call e)
  | cos => (sin.call e).neg
  | tan => (cos.call e).power Exponent.negTwo
  | exp => some (exp.call e)
  | log => e.power Exponent.negOne
  | sqrt => do ((← (sqrt.call e).power Exponent.negOne).quot (.int 2))
  | sinh => some (cosh.call e)
  | cosh => some (sinh.call e)
  | tanh => (cosh.call e).power Exponent.negTwo
  | abs => some (sign.call e)
  | sign => some Expr.zero

end Pointwise

end FiniteVolume
