import FiniteVolume.Expr.Symbols
import FiniteVolume.Expr.Text
import FiniteVolume.Numeric.Arithmetic
import FiniteVolume.Numeric.Quantity
import FiniteVolume.Text.Quoted

/-!
# Numeric functions

A coefficient is compiled once into a `NumericFunction` of its parameters and then evaluated on
quantities. Compilation rejects what has no number: free symbols that are no parameters, unknown
functions, vectors outside inner products and divisions by zero. Operations whose operands are all
constant are carried out at compile time.
-/

namespace FiniteVolume

/-- A compiled computation. -/
inductive Node (α : Type) where
  | const (value : α)
  /-- The argument at a position. -/
  | param (position : Nat)
  | add (terms : List (Node α))
  | mul (factors : List (Node α))
  | pow (base : Node α) (exponent : Int)
  | call (function : Pointwise) (arg : Node α)

namespace Node

variable {α : Type} [Arithmetic α]

/-- The value of a constant. -/
def const? : Node α → Option α
  | const value => some value
  | _ => none

/-- Carries out an operation whose operands are all constant. -/
def foldConstants (node : Node α) : Node α :=
  match node with
  | add terms =>
    match terms.mapM const? with
    | some values => const (values.foldl Arithmetic.add Arithmetic.emptySum)
    | none => add terms
  | mul factors =>
    match factors.mapM const? with
    | some values => const (values.foldl Arithmetic.mul Arithmetic.one)
    | none => mul factors
  | pow (const value) exponent => const (Arithmetic.powInt value exponent)
  | call function (const value) => const (Arithmetic.pointwise function value)
  | node => node

mutual

/-- The value of a computation on its arguments. -/
def eval (args : List (Quantity α)) (node : Node α) : Outcome (Quantity α) :=
  match node with
  | const value => .ok (.constant value)
  | param position => Outcome.ofLookup? args[position]?
  | add terms => evalChain args Arithmetic.add (.constant Arithmetic.zero) terms
  | mul factors => evalChain args Arithmetic.mul (.constant Arithmetic.one) factors
  | pow base exponent => do
    return (← eval args base).map fun value => Arithmetic.powInt value exponent
  | call function arg => do
    return (← eval args arg).map (Arithmetic.pointwise function)

/-- Joins the values of computations one after the other to what precedes them. -/
def evalChain (args : List (Quantity α)) (join : α → α → α) (before : Quantity α)
    (nodes : List (Node α)) : Outcome (Quantity α) :=
  match nodes with
  | [] => .ok before
  | node :: rest => do
    let joined ← before.zipWith join (← eval args node)
    evalChain args join joined rest

end

mutual

/-- Compiles an expression whose symbols are parameters. -/
def compile (params : List String) (e : Expr) : Outcome (Node α) :=
  match e with
  | .num value =>
    match Arithmetic.ofRational? value with
    | some number => .ok (const number)
    | none => (Expr.num value).reject .constantRange
  | .sym name =>
    match params.idxOf? name with
    | some position => .ok (param position)
    | none => Outcome.reject (.unboundSymbol name)
  | .add terms => do return foldConstants (add (← (compileEach params terms).mapM id))
  | .mul factors => do return foldConstants (mul (← (compileEach params factors).mapM id))
  | .pow base exponent =>
    if base.isZero && exponent.val < 0 then
      (Expr.pow base exponent).reject .divisionByZero
    else if exponent.isShort then do
      return foldConstants (pow (← compile params base) exponent.val)
    else
      (Expr.pow base exponent).reject .exponentRange
  | .vector components => do
    Outcome.reject (.shape (.vectorCoefficient (← (Expr.vector components).text)))
  | .call .dot [.vector left, .vector right] =>
    if left.length = right.length then do
      let products ← ((compileEach params left).zip (compileEach params right)).mapM
        fun (left, right) => do return mul [← left, ← right]
      return foldConstants (add products)
    else do
      let text ← (Expr.call .dot [.vector left, .vector right]).text
      Outcome.reject (.shape (.dotOperands text))
  | .call .dot args => do
    Outcome.reject (.shape (.dotOperands (← (Expr.call .dot args).text)))
  | .call .normalDerivative args =>
    (Expr.call .normalDerivative args).reject .normalDerivativeOffEdge
  | .call (.named name) [arg] =>
    match Pointwise.ofName? name with
    | some function => do return foldConstants (call function (← compile params arg))
    | none => Outcome.reject (.unknownFunction name)
  | .call (.named name) _ => Outcome.reject (.unknownFunction name)

/-- The outcome of compiling each expression of a list. -/
def compileEach (params : List String) (es : List Expr) : List (Outcome (Node α)) :=
  match es with
  | [] => []
  | e :: rest => compile params e :: compileEach params rest

end

end Node

/-- A compiled function of named parameters, with the expression it was compiled from. -/
structure NumericFunction (α : Type) where
  params : List String
  root : Node α
  source : Expr

namespace NumericFunction

variable {α : Type} [Arithmetic α]

/-- Compiles an expression as a function of parameters. Of several symbols that are no parameters
the first one in ascending order is reported. -/
def compile (params : List String) (e : Expr) : Outcome (NumericFunction α) := do
  match e.symbols.find? fun name => !params.contains name with
  | some unbound => Outcome.reject (.unboundSymbol unbound)
  | none => return { params, root := ← Node.compile params e, source := e }

/-- The value of a function that does not depend on its parameters. -/
def const? (function : NumericFunction α) : Option α := function.root.const?

/-- The value of a function on as many arguments as it has parameters. -/
def eval (function : NumericFunction α) (args : List (Quantity α)) : Outcome (Quantity α) :=
  if args.length = function.params.length then
    function.root.eval args
  else do
    let text ← function.source.text
    Outcome.reject (.shape (.argumentCount text function.params.length args.length))

/-- The values of a function for each of `count` entities. -/
def evalBatch (function : NumericFunction α) (args : List (Quantity α)) (count : Nat) :
    Outcome (Array α) := do
  (← function.eval args).broadcast count

/-- A function in words: its parameters and the expression it was compiled from. -/
def describe (function : NumericFunction α) : Outcome String := do
  let params := function.params.map fun name => "Symbol(" ++ Text.quote name ++ ")"
  let source ← function.source.text
  return "NumericFn \x7b params: [" ++ ", ".intercalate params ++ "], source: " ++
    Text.quote source ++ " \x7d"

end NumericFunction

end FiniteVolume
