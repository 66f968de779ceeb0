import FiniteVolume.Error
import FiniteVolume.Expr.Product

/-!
# Written expressions

`Expr.render` writes an expression in infix form: terms joined by `+` and `-`, factors by `*`,
powers with `^`, vectors in brackets and calls with their arguments in parentheses. Inside a
product a sum or a fraction is parenthesised, and under a power also a product, another power and
a negative number.

A term with a negative coefficient is written as the subtraction of its magnitude. The magnitude
is formed canonically, so it may have no value when an exponent leaves its range, and then the
expression has no written form. A magnitude has sums only from inside its term, so the nesting of
sums bounds how often magnitudes are taken inside one another.
-/

namespace FiniteVolume

namespace Expr

/-- Where an operand stands. -/
inductive Position where
  | factor
  | base
deriving DecidableEq

/-- Whether an operand is written in parentheses at a position. -/
def needsParentheses (position : Position) : Expr → Bool
  | .add _ => true
  | .num value => value.den ≠ 1 || (position = .base && value < 0)
  | .mul _ | .pow _ _ => position = .base
  | _ => false

/-- The text of an operand, in parentheses where its position asks for them. -/
def parenthesize (position : Position) (e : Expr) (text : String) : String :=
  if e.needsParentheses position then "(" ++ text ++ ")" else text

/-- Whether a term starts with a negative number. -/
def isNegative : Expr → Bool
  | .num value => value < 0
  | .mul (.num coefficient :: _) => coefficient < 0
  | _ => false

/-- The negative of a term that starts with a negative number. -/
def magnitude : Expr → Option Expr
  | .num value => some (.num (-value))
  | .mul (.num coefficient :: factors) => do return scale (-coefficient) (← prod factors)
  | e => some e

/-- Joins signed terms; a sign before the first term has no blanks around it. -/
def joinTerms : List (Bool × String) → String
  | [] => ""
  | (isNegative, text) :: rest =>
    (if isNegative then "-" else "") ++ text ++
      String.join (rest.map fun (isNegative, text) => (if isNegative then " - " else " + ") ++ text)

mutual

/-- The text of an expression, given how magnitudes of negative terms are written. -/
def renderWith (renderMagnitude : Expr → Option String) : Expr → Option String
  | .num value => some (Rational.render value)
  | .sym name => some name
  | .add terms => do return joinTerms (← renderTerms renderMagnitude terms)
  | .mul factors => do return "*".intercalate (← renderFactors renderMagnitude factors)
  | .pow base exponent => do
    let text ← renderWith renderMagnitude base
    return base.parenthesize .base text ++ "^" ++ toString exponent.val
  | .vector components => do
    return "[" ++ ", ".intercalate (← renderList renderMagnitude components) ++ "]"
  | .call head args => do
    return head.name ++ "(" ++ ", ".intercalate (← renderList renderMagnitude args) ++ ")"

/-- The terms of a sum, each with whether it is subtracted. -/
def renderTerms (renderMagnitude : Expr → Option String) :
    List Expr → Option (List (Bool × String))
  | [] => some []
  | term :: rest => do
    let signed ←
      if term.isNegative then do
        let magnitude ← term.magnitude
        let text ← renderMagnitude magnitude
        pure (true, magnitude.parenthesize .factor text)
      else do
        pure (false, ← renderWith renderMagnitude term)
    return signed :: (← renderTerms renderMagnitude rest)

/-- The factors of a product. -/
def renderFactors (renderMagnitude : Expr → Option String) : List Expr → Option (List String)
  | [] => some []
  | factor :: rest => do
    let text ← renderWith renderMagnitude factor
    return factor.parenthesize .factor text :: (← renderFactors renderMagnitude rest)

/-- Operands that stand between commas. -/
def renderList (renderMagnitude : Expr → Option String) : List Expr → Option (List String)
  | [] => some []
  | e :: rest => do
    let text ← renderWith renderMagnitude e
    return text :: (← renderList renderMagnitude rest)

end

/-- The text of an expression in which magnitudes are taken inside one another up to a given
depth. -/
def renderToDepth : Nat → Expr → Option String
  | 0, _ => some ""
  | depth + 1, e => renderWith (renderToDepth depth) e

mutual

/-- How deep sums are nested in an expression. -/
def sumDepth : Expr → Nat
  | .num _ | .sym _ => 0
  | .add terms => sumDepthOfAll terms + 1
  | .mul es | .vector es | .call _ es => sumDepthOfAll es
  | .pow base _ => base.sumDepth

/-- The greatest depth over a list. -/
def sumDepthOfAll : List Expr → Nat
  | [] => 0
  | e :: rest => max e.sumDepth (sumDepthOfAll rest)

end

/-- The text of an expression, if the magnitude of every negative term has a value. -/
def render (e : Expr) : Option String := renderToDepth (e.sumDepth + 1) e

/-- The text of an expression, in computations that can also reject their input. -/
def text (e : Expr) : Outcome String := Outcome.ofPower? e.render

/-- Rejects a construct for a reason. -/
def reject {α : Type} (e : Expr) (reason : Unsupported) : Outcome α := do
  Outcome.reject (.unsupported (← e.text) reason)

end Expr

end FiniteVolume
