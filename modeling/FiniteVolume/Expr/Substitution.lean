import FiniteVolume.Expr.Product

/-!
# Substitution

`Expr.subst` puts new trees in the place of given ones and forms every sum, product and power above
them canonically. A replacement is not looked at again, so several rules apply at once and a swap
is one step. `Expr.normalize` replaces nothing: it only forms the whole tree canonically, from its
leaves up.
-/

namespace FiniteVolume

namespace Expr

mutual

/-- Replaces every outermost subtree that has a replacement and rebuilds the tree above it. -/
def replaceWith (replacement? : Expr → Option Expr) (e : Expr) : Option Expr :=
  match replacement? e with
  | some replacement => some replacement
  | none =>
    match e with
    | .num value => some (.num value)
    | .sym name => some (.sym name)
    | .add terms => do return sum (← replaceAllWith replacement? terms)
    | .mul factors => do prod (← replaceAllWith replacement? factors)
    | .pow base exponent => do power (← replaceWith replacement? base) exponent
    | .vector components => do return .vector (← replaceAllWith replacement? components)
    | .call head args => do return .call head (← replaceAllWith replacement? args)

/-- Replaces subtrees in every expression of a list. -/
def replaceAllWith (replacement? : Expr → Option Expr) (es : List Expr) : Option (List Expr) :=
  match es with
  | [] => some []
  | e :: rest => do
    let replaced ← replaceWith replacement? e
    return replaced :: (← replaceAllWith replacement? rest)

end

/-- Rebuilds a tree from its leaves up, forming every sum, product and power canonically. -/
def normalize (e : Expr) : Option Expr := e.replaceWith fun _ => none

/-- A rule of a substitution: the tree to be replaced, and what replaces it. -/
abbrev Rule := Expr × Expr

/-- What the first matching rule puts in the place of a tree. -/
def replacement? (rules : List Rule) (e : Expr) : Option Expr :=
  (rules.find? fun rule => rule.1 = e).map Prod.snd

/-- Applies all rules of a substitution at once. -/
def subst (e : Expr) (rules : List Rule) : Option Expr := e.replaceWith (replacement? rules)

/-- Several trees are rewritten one by one. -/
theorem replaceAllWith_eq_mapM (replacement? : Expr → Option Expr) (es : List Expr) :
    replaceAllWith replacement? es = es.mapM (replaceWith replacement?) := by
  induction es with
  | nil => rfl
  | cons e rest ih => simp [replaceAllWith, ih]

/-- A subtree that has a replacement is replaced. -/
theorem replaceWith_of_some {replacement? : Expr → Option Expr} {e replacement : Expr}
    (found : replacement? e = some replacement) :
    replaceWith replacement? e = some replacement := by
  unfold replaceWith
  rw [found]

end Expr

end FiniteVolume
