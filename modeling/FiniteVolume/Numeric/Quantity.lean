import FiniteVolume.Error

/-!
# Quantities

A number that is the same for all entities of a mesh, or a batch with one number for each. A
constant goes with a batch of any length; two batches go together only if they are equally long.
-/

namespace FiniteVolume

/-- A constant, or one number for each entity. -/
inductive Quantity (α : Type) where
  | constant (value : α)
  | batch (values : Array α)

namespace Quantity

variable {α : Type}

/-- Applies a function to every number. -/
def map (f : α → α) : Quantity α → Quantity α
  | constant value => constant (f value)
  | batch values => batch (values.map f)

/-- Combines two quantities entity by entity. -/
def zipWith (f : α → α → α) : Quantity α → Quantity α → Outcome (Quantity α)
  | constant left, constant right => .ok (constant (f left right))
  | constant left, batch right => .ok (batch (right.map fun value => f left value))
  | batch left, constant right => .ok (batch (left.map fun value => f value right))
  | batch left, batch right =>
    if left.size = right.size then
      .ok (batch (Array.zipWith f left right))
    else
      Outcome.reject (.shape (.batches left.size right.size))

/-- One number for each of `count` entities. -/
def broadcast (count : Nat) : Quantity α → Outcome (Array α)
  | constant value => .ok (Array.replicate count value)
  | batch values =>
    if values.size = count then
      .ok values
    else
      Outcome.reject (.shape (.batchLength count values.size))

end Quantity

end FiniteVolume
