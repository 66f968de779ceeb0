import FiniteVolume.Expr.Pointwise

/-!
# Exact derivatives

`Expr.diff` differentiates with respect to one symbol. Known pointwise functions follow the chain
rule. The derivative of an unknown function `f` of one argument is the unknown function `D[f]`,
and that of a function of several arguments with respect to the argument at position `i`,
counted from zero, is `Di[f]`.
-/

namespace FiniteVolume

namespace Expr

/-- Whether an expression is zero, or a vector of zeros. -/
def vanishes : Expr → Bool
  | .vector components => components.all isZero
  | e => e.isZero

/-- The derivative of an expression without the symbol: zero, or a vector of as many zeros. -/
def zeroLike : Expr → Expr
  | .vector components => .vector (components.map fun _ => zero)
  | _ => zero

/-- The chain rule for an unknown function, given the derivatives of its arguments. -/
def diffUnknown (name : String) (args derivatives : List Expr) : Option Expr :=
  match derivatives with
  | [derivative] => prod [.apply ("D[" ++ name ++ "]") args, derivative]
  | derivatives => do
    let terms ← derivatives.zipIdx.mapM fun (derivative, position) =>
      prod [.apply ("D" ++ toString position ++ "[" ++ name ++ "]") args, derivative]
    return sum terms

/-- The derivative of a call, given the derivatives of its arguments. -/
def diffCall (head : Head) (args derivatives : List Expr) : Option Expr :=
  match head, args, derivatives with
  | .dot, [left, right], [left', right'] =>
    let leftTerm := if left'.vanishes then [] else [.call .dot [left', right]]
    let rightTerm := if right'.vanishes then [] else [.call .dot [left, right']]
    some (sum (leftTerm ++ rightTerm))
  | .normalDerivative, _, _ =>
    some (if derivatives.all vanishes then zero else .call .normalDerivative derivatives)
  | .named name, [arg], [derivative] =>
    match Pointwise.ofName? name with
    | some function => do prod [← function.derivative arg, derivative]
    | none => diffUnknown name args derivatives
  | head, args, derivatives => diffUnknown head.name args derivatives

mutual

/-- The derivative with respect to a symbol, if every exponent stays in range. -/
def diff (e : Expr) (name : String) : Option Expr :=
  if e.hasSymbol name then
    match e with
    | .num _ => some zero
    | .sym _ => some one
    | .add terms => do return sum (← diffAll terms name)
    | .mul factors => do return sum (← diffFactors [] factors name)
    | .pow base exponent => do
      let outer ← prod [.int exponent.val, ← power base (← exponent.pred?)]
      prod [outer, ← diff base name]
    | .vector components => do return .vector (← diffAll components name)
    | .call head args => do diffCall head args (← diffAll args name)
  else
    some e.zeroLike

/-- The derivatives of all expressions of a list. -/
def diffAll (es : List Expr) (name : String) : Option (List Expr) :=
  match es with
  | [] => some []
  | e :: rest => do
    let derivative ← diff e name
    return derivative :: (← diffAll rest name)

/-- The products in which one of the later factors is replaced by its derivative. -/
def diffFactors (before after : List Expr) (name : String) : Option (List Expr) :=
  match after with
  | [] => some []
  | factor :: rest => do
    let derivative ← diff factor name
    let product ← prod (derivative :: (before ++ rest))
    return product :: (← diffFactors (before ++ [factor]) rest name)

end

end Expr

end FiniteVolume
