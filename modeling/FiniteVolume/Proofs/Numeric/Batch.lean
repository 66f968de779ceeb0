import FiniteVolume.Numeric.Function
import FiniteVolume.Proofs.Outcome

/-!
# Batches

A compiled function treats the entities of a batch one by one: the number at a position of its
result is the value of the function on the numbers at that position (`evalBatch_selects`).
-/

namespace FiniteVolume

variable {α : Type}

namespace Quantity

/-- A quantity for many entities, and the same for the one at a position. -/
inductive Selects (count position : Nat) : Quantity α → α → Prop where
  | constant (value : α) : Selects count position (.constant value) value
  | batch {values : Array α} {value : α} (size : values.size = count)
    (stands : values[position]? = some value) : Selects count position (.batch values) value

variable {count position : Nat} {left right result : Quantity α} {a b : α}

/-- A function of every value is selected from at the same position. -/
theorem Selects.map (selects : left.Selects count position a) (f : α → α) :
    (left.map f).Selects count position (f a) := by
  cases selects with
  | constant => exact .constant _
  | batch size stands =>
    refine .batch (by rw [Array.size_map, size]) ?_
    rw [Array.getElem?_map, stands]
    rfl

/-- Quantities that are combined are selected from at the same position. -/
theorem Selects.zipWith {f : α → α → α} (first : left.Selects count position a)
    (second : right.Selects count position b) (joined : left.zipWith f right = .ok result) :
    result.Selects count position (f a b) := by
  cases first with
  | constant a =>
    cases second with
    | constant b =>
      cases joined
      exact .constant _
    | batch size stands =>
      cases joined
      refine .batch (by rw [Array.size_map, size]) ?_
      rw [Array.getElem?_map, stands]
      rfl
  | batch size stands =>
    cases second with
    | constant b =>
      cases joined
      refine .batch (by rw [Array.size_map, size]) ?_
      rw [Array.getElem?_map, stands]
      rfl
    | batch size' stands' =>
      simp only [Quantity.zipWith, size, size', if_true] at joined
      cases joined
      refine .batch (by simp [size, size']) ?_
      rw [Array.getElem?_zipWith, stands, stands']

/-- A broadcast quantity is selected from at the same position. -/
theorem Selects.broadcast {values : Array α} (selects : left.Selects count position a)
    (inRange : position < count) (formed : left.broadcast count = .ok values) :
    values[position]? = some a := by
  cases selects with
  | constant value =>
    cases formed
    rw [Array.getElem?_replicate, if_pos inRange]
  | batch size stands =>
    simp only [Quantity.broadcast, size, if_true] at formed
    cases formed
    exact stands

/-- There is one number for each entity. -/
theorem size_of_broadcast {quantity : Quantity α} {values : Array α}
    (formed : quantity.broadcast count = .ok values) : values.size = count := by
  cases quantity with
  | constant value =>
    cases formed
    exact Array.size_replicate
  | batch numbers =>
    simp only [broadcast] at formed
    split at formed
    · rename_i size
      cases formed
      exact size
    · exact absurd formed (Outcome.reject_ne_ok _ _)

end Quantity

variable [Arithmetic α]

namespace Node

variable {count position : Nat} {args : List (Quantity α)} {values : List α}

mutual

/-- A computation on batches is a computation on the numbers at every position. -/
theorem eval_selects (selected : List.Forall₂ (Quantity.Selects count position) args values)
    (node : Node α) {result : Quantity α} (evaluates : node.eval args = .ok result) :
    ∃ value, node.eval (values.map .constant) = .ok (.constant value) ∧
      result.Selects count position value := by
  cases node with
  | const value =>
    cases evaluates
    exact ⟨value, rfl, .constant value⟩
  | param index =>
    obtain ⟨value, stands, selects⟩ :=
      exists_getElem?_of_forall₂ selected (Outcome.ofLookup?_eq_ok_iff.mp evaluates)
    refine ⟨value, ?_, selects⟩
    rw [eval, List.getElem?_map, stands]
    rfl
  | add terms => exact evalChain_selects selected Arithmetic.add (.constant _) terms evaluates
  | mul factors => exact evalChain_selects selected Arithmetic.mul (.constant _) factors evaluates
  | pow base exponent =>
    obtain ⟨inner, evaluatesBase, same⟩ := Outcome.bind_eq_ok_iff.mp evaluates
    cases same
    obtain ⟨value, single, selects⟩ := eval_selects selected base evaluatesBase
    refine ⟨Arithmetic.powInt value exponent, ?_, selects.map _⟩
    rw [eval, single]
    rfl
  | call function arg =>
    obtain ⟨inner, evaluatesArg, same⟩ := Outcome.bind_eq_ok_iff.mp evaluates
    cases same
    obtain ⟨value, single, selects⟩ := eval_selects selected arg evaluatesArg
    refine ⟨Arithmetic.pointwise function value, ?_, selects.map _⟩
    rw [eval, single]
    rfl

/-- A chain of sums or products has at every position the value of the chain there. -/
theorem evalChain_selects (selected : List.Forall₂ (Quantity.Selects count position) args values)
    (join : α → α → α) {before : Quantity α} {start : α}
    (starts : before.Selects count position start) (nodes : List (Node α)) {result : Quantity α}
    (evaluates : evalChain args join before nodes = .ok result) :
    ∃ value, evalChain (values.map .constant) join (.constant start) nodes =
      .ok (.constant value) ∧ result.Selects count position value := by
  cases nodes with
  | nil =>
    cases evaluates
    exact ⟨start, rfl, starts⟩
  | cons node rest =>
    obtain ⟨operand, evaluatesNode, evaluates⟩ := Outcome.bind_eq_ok_iff.mp evaluates
    obtain ⟨joined, joins, evaluates⟩ := Outcome.bind_eq_ok_iff.mp evaluates
    obtain ⟨value, single, selects⟩ := eval_selects selected node evaluatesNode
    obtain ⟨total, rest', selectsTotal⟩ :=
      evalChain_selects selected join (starts.zipWith selects joins) rest evaluates
    refine ⟨total, ?_, selectsTotal⟩
    rw [evalChain, single]
    exact rest'

end

end Node

namespace NumericFunction

/-- The value of a function for a single entity, on one number for each of its parameters. -/
def valueAt (function : NumericFunction α) (values : List α) : Outcome α := do
  Outcome.ofLookup? (← function.evalBatch (values.map .constant) 1)[0]?

variable {function : NumericFunction α} {count position : Nat} {args : List (Quantity α)}
  {values : List α} {results : Array α}

/-- What a function gives for batches is what it gives for the numbers at every position. -/
theorem eval_selects (selected : List.Forall₂ (Quantity.Selects count position) args values)
    {result : Quantity α} (evaluates : function.eval args = .ok result) :
    ∃ value, function.eval (values.map .constant) = .ok (.constant value) ∧
      result.Selects count position value := by
  have sameLength : args.length = values.length := selected.length_eq
  unfold eval at evaluates
  split at evaluates
  · rename_i fits
    obtain ⟨value, single, selects⟩ := Node.eval_selects selected function.root evaluates
    have fits' : (values.map Quantity.constant).length = function.params.length := by
      rw [List.length_map, ← sameLength, fits]
    refine ⟨value, ?_, selects⟩
    rw [eval, if_pos fits', single]
  · obtain ⟨text, -, rejected⟩ := Outcome.bind_eq_ok_iff.mp evaluates
    exact absurd rejected (Outcome.reject_ne_ok _ _)

/-- A function on batches is the function on the numbers at every position. -/
theorem evalBatch_selects (selected : List.Forall₂ (Quantity.Selects count position) args values)
    (inRange : position < count) (evaluates : function.evalBatch args count = .ok results) :
    ∃ value, function.valueAt values = .ok value ∧ results[position]? = some value := by
  obtain ⟨result, evaluates, broadcasts⟩ := Outcome.bind_eq_ok_iff.mp evaluates
  obtain ⟨value, single, selects⟩ := eval_selects selected evaluates
  refine ⟨value, ?_, selects.broadcast inRange broadcasts⟩
  rw [valueAt, evalBatch, single]
  rfl

/-- A batch has a result for every entity. -/
theorem size_of_evalBatch (evaluates : function.evalBatch args count = .ok results) :
    results.size = count := by
  obtain ⟨result, -, broadcasts⟩ := Outcome.bind_eq_ok_iff.mp evaluates
  exact Quantity.size_of_broadcast broadcasts

end NumericFunction

end FiniteVolume
