import FiniteVolume.Proofs.Canonical.Completeness
import FiniteVolume.Proofs.Expr.Mentions
import FiniteVolume.Proofs.Split.Soundness

/-!
# Coefficients of complete expansions

A derivative divides by parts of the expression and by functions of its parts only. So the
derivative of a distributed tree expands at once (`expandsOnce_of_diff`), and the coefficients that
are split off such a tree are distributed as well (`Distributed.coefficient`).
-/

namespace FiniteVolume.Expr

variable {e result : Expr}

/-- A distributed tree that can be divided by. -/
structure DistributedDivisor (e : Expr) : Prop extends Distributed e where
  nonzero : e ≠ zero

/-- Distributed divisors are invertible. -/
theorem DistributedDivisor.invertible (divisor : e.DistributedDivisor) : e.Invertible :=
  ⟨divisor.canonical, divisor.regular, divisor.nonzero⟩

/-- That a tree divides by distributed trees only passes between trees and their parts. -/
theorem hereditary_distributedDivisor :
    Hereditary (NegativeBases DistributedDivisor) DistributedDivisor :=
  Hereditary.negativeBases
    (fun _ divisor _ member =>
      ⟨divisor.toDistributed.arg member, (divisor.invertible.factor member).nonzero⟩)
    (fun base _ divisor _ =>
      ⟨divisor.toDistributed.arg (List.mem_singleton_self base), divisor.invertible.base.nonzero⟩)

/-- A distributed tree divides by distributed trees only. -/
theorem Distributed.negativeBases (distributed : e.Distributed) :
    e.NegativeBases DistributedDivisor := by
  induction e using induction_args with
  | step e ih =>
    refine negativeBases_iff.mpr ⟨?_, fun arg member => ih arg member (distributed.arg member)⟩
    rintro base exponent rfl negative
    refine ⟨distributed.arg (List.mem_singleton_self base), ?_⟩
    rintro rfl
    exact absurd distributed.regular (by simp [dividesByZero_pow_zero negative])

/-- A canonical tree that divides by distributed trees only. -/
structure Derived (e : Expr) : Prop where
  canonical : e.Canonical
  divisors : e.NegativeBases DistributedDivisor

/-- Derived trees do not divide by zero. -/
theorem Derived.regular (derived : e.Derived) : e.dividesByZero = false :=
  derived.divisors.regular_of_ne_zero fun divisor => divisor.nonzero rfl

/-- Derived trees are operands. -/
theorem Derived.operand (derived : e.Derived) : e.Operand :=
  ⟨derived.canonical, derived.regular⟩

/-- The children of a derived tree are derived. -/
theorem Derived.arg {arg : Expr} (derived : e.Derived) (member : arg ∈ e.args) : arg.Derived :=
  ⟨derived.canonical.arg member, (negativeBases_iff.mp derived.divisors).2 arg member⟩

/-- Distributed trees are derived. -/
theorem Distributed.derived (distributed : e.Distributed) : e.Derived :=
  ⟨distributed.canonical, distributed.negativeBases⟩

/-- Sums, products and powers of such trees are such trees. -/
theorem powered_derived : Powered Derived DistributedDivisor where
  num value := (distributedTerm_num value).toDistributed.derived
  sum _ derived := ⟨canonical_sum fun e member => (derived e member).canonical,
    hereditary_distributedDivisor.sum fun e member => (derived e member).divisors⟩
  prod _ _ formed derived :=
    ⟨(operand_prod (fun e member => (derived e member).operand) formed).canonical,
      hereditary_distributedDivisor.prod formed fun e member => (derived e member).divisors⟩
  terms _ derived term member := ⟨(derived.canonical.not_add_of_mem_terms member).1,
    hereditary_distributedDivisor.terms derived.divisors term member⟩
  power _ _ _ formed derived divisor := ⟨derived.canonical.power derived.regular formed,
    hereditary_distributedDivisor.power formed derived.divisors divisor⟩

/-- Vectors of such trees are such trees. -/
theorem derived_vector {components : List Expr}
    (derived : ∀ component ∈ components, component.Derived) : (Expr.vector components).Derived :=
  ⟨canonical_iff.mpr ⟨trivial, fun e member => (derived e member).canonical⟩,
    negativeBases_iff.mpr ⟨fun _ _ => by simp, fun e member => (derived e member).divisors⟩⟩

/-- Calls on such trees are such trees. -/
theorem derived_call (head : Head) {args : List Expr} (derived : ∀ arg ∈ args, arg.Derived) :
    (Expr.call head args).Derived :=
  ⟨canonical_iff.mpr ⟨trivial, fun e member => (derived e member).canonical⟩,
    negativeBases_iff.mpr ⟨fun _ _ => by simp, fun e member => (derived e member).divisors⟩⟩

/-- A known function of a distributed tree can be divided by. -/
theorem distributedDivisor_call (function : Pointwise) (distributed : e.Distributed) :
    (function.call e).DistributedDivisor where
  toDistributed := by
    refine distributed_of_args trivial rfl ?_ (List.forall_mem_singleton.mpr distributed)
    exact rfl
  nonzero := by simp [Pointwise.call, apply, zero]

/-- A tree with a symbol in it is not zero. -/
theorem ne_zero_of_hasSymbol {name : String} (occurs : e.hasSymbol name = true) : e ≠ zero := by
  rintro rfl
  cases occurs

/-- Derivatives of distributed trees divide by distributed trees only: by parts of the tree that
hold the unknown, and by functions of such parts. -/
theorem differentiated_derived (name : String) :
    Differentiated name Distributed Derived DistributedDivisor where
  toPowered := powered_derived
  arg _ distributed _ member := distributed.arg member
  keep _ distributed := distributed.derived
  vector _ derived := derived_vector derived
  base base _ distributed _ occurs :=
    ⟨distributed.arg (List.mem_singleton_self base), ne_zero_of_hasSymbol occurs⟩
  pointwise function arg _ distributed occurs formed := by
    have distributedArg : arg.Distributed := distributed.arg List.mem_cons_self
    refine powered_derived.pointwise formed distributedArg.derived (fun known _ => ?_)
      ⟨distributedArg, ne_zero_of_hasSymbol occurs⟩ fun known => ?_
    · exact derived_call _ (List.forall_mem_singleton.mpr distributedArg.derived)
    · exact distributedDivisor_call known distributedArg
  apply _ _ _ distributed _ _ :=
    derived_call _ fun _ member => (distributed.arg member).derived
  gradient _ _ _ derived := derived_call _ derived
  dot left right _ _ distributed _ _ derived derived' := by
    have operands : ∀ operand ∈ [left, right], operand.Derived :=
      fun _ member => (distributed.arg member).derived
    exact ⟨derived_call _ (forall_mem_pair ⟨derived, operands right (by simp)⟩),
      derived_call _ (forall_mem_pair ⟨operands left (by simp), derived'⟩)⟩

/-- Without inner products, a tree that divides by distributed trees only expands at once. -/
theorem Derived.expandsOnce (derived : e.Derived) (noDots : ¬e.Calls .dot) : e.ExpandsOnce := by
  induction e using induction_args with
  | step e ih =>
    have args : ∀ arg ∈ e.args, arg.ExpandsOnce := fun arg member =>
      ih arg member (derived.arg member) fun ⟨args, inside⟩ =>
        noDots ⟨args, mem_subterms_of_arg member inside⟩
    cases e with
    | pow base exponent =>
      refine .node rfl (fun negative expanded expands => ?_) args
      have divisor := derived.divisors base exponent (self_mem_subterms _) negative
      cases divisor.toDistributed.expand_eq_self.symm.trans expands
      refine ⟨divisor.nonzero, fun terms inner member => ?_⟩
      -- the base of a canonical power is neither a power nor a product
      obtain generator | ⟨isZero, -⟩ := (canonical_pow_iff.mp derived.canonical).1.generator
      · cases base with
        | mul factors | pow inner exponent => cases generator
        | _ => cases List.mem_singleton.mp member
      · exact divisor.nonzero isZero
    | call head args' =>
      have notDot : head ≠ .dot := by
        rintro rfl
        exact noDots ⟨args', self_mem_subterms _⟩
      exact .node (dotOperands?_of_ne notDot args') (fun _ _ => dotOperands?_of_ne notDot _) args
    | _ => exact .node rfl trivial args

/-- Differentiation brings no inner products in. -/
theorem not_calls_dot_of_diff {name : String} (noDots : ¬e.Calls .dot)
    (differentiates : e.diff name = some result) : ¬result.Calls .dot := by
  have mentions : e.MentionsOnly (fun _ => True) fun head => head ≠ .dot :=
    (mentionsOnly_self e).mono (fun _ _ => trivial) fun head calls same => noDots (same ▸ calls)
  rintro ⟨args, member⟩
  obtain notDot | ⟨_, _, -, named, -⟩ :=
    ((differentiated_mentionsOnly _ _ name).diff e result differentiates mentions).head member
  · exact notDot rfl
  · cases named

/-- All inner products of a distributed tree are written out, if they are taken of vectors. -/
theorem Distributed.not_calls_dot (distributed : e.Distributed) (dots : e.VectorDots) :
    ¬e.Calls .dot := by
  rintro ⟨args, member⟩
  obtain ⟨left, right, rfl, sameLength⟩ := dots _ member args rfl
  have written : dotOperands? (.call .dot [.vector left, .vector right]) = none :=
    distributed.multiplied _ member
  rw [dotOperands?_eq_some_iff.mpr ⟨rfl, sameLength⟩] at written
  cases written

/-- The derivative of a distributed tree expands at once. -/
theorem expandsOnce_of_diff {name : String} (distributed : e.Distributed) (dots : e.VectorDots)
    (differentiates : e.diff name = some result) : result.ExpandsOnce :=
  ((differentiated_derived name).diff e result differentiates distributed).expandsOnce
    (not_calls_dot_of_diff (distributed.not_calls_dot dots) differentiates)

/-- Distributed trees are expanded completely, into themselves. -/
theorem Distributed.expandsCompletely (distributed : e.Distributed) : e.ExpandsCompletely := by
  intro expanded expands
  cases distributed.expand_eq_self.symm.trans expands
  exact distributed

/-- The terms of a complete expansion that lack a symbol make a distributed tree. -/
theorem ExpandsCompletely.constantPart {name : String} (complete : e.ExpandsCompletely)
    (formed : e.constantPart name = some result) : result.Distributed := by
  obtain ⟨expanded, expands, same⟩ := Option.bind_eq_some_iff.mp formed
  cases same
  exact .sum fun term member =>
    ((complete expanded expands).term (List.mem_filter.mp member).1).toDistributed

/-- A distributed tree stays distributed without the terms with symbols. -/
theorem Distributed.constantPartOfAll {names : List String} (distributed : e.Distributed)
    (formed : e.constantPartOfAll names = some result) : result.Distributed := by
  induction names generalizing e with
  | nil =>
    cases formed
    exact distributed
  | cons name rest ih =>
    obtain ⟨part, partFormed, formed⟩ := Option.bind_eq_some_iff.mp formed
    exact ih (distributed.expandsCompletely.constantPart partFormed) formed

/-- What is split off a distributed tree is distributed. -/
theorem Distributed.coefficient {unknown : String} {unknowns : List String} {derivative : Expr}
    (distributed : e.Distributed) (dots : e.VectorDots) (isUnknown : unknown ∈ unknowns)
    (differentiates : e.diff unknown = some derivative)
    (formed : derivative.constantPartOfAll unknowns = some result) : result.Distributed := by
  cases unknowns with
  | nil => cases isUnknown
  | cons name rest =>
    obtain ⟨part, partFormed, formed⟩ := Option.bind_eq_some_iff.mp formed
    have complete := (expandsOnce_of_diff distributed dots differentiates).expandsCompletely
    exact (complete.constantPart partFormed).constantPartOfAll formed

end FiniteVolume.Expr
