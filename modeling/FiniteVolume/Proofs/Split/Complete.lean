import FiniteVolume.Proofs.Canonical.Monomials
import FiniteVolume.Proofs.Split.Distributed

/-!
# Accepted splits of complete expansions

Where the expansion is complete and the split is accepted, coefficients hold nothing that does not
stand in the expression: every term of a coefficient is a term of the expansion without its
unknown (`exists_term_of_coefficient`). So the coefficients have every property that the expression
passes on to its parts, such as to divide by nothing zero (`property_of_split`).
-/

namespace FiniteVolume.Expr

open AddMonoidAlgebra

variable {e : Expr} {unknowns : List String} {parts : AffineSplit}

section Sums

variable {expanded rest : Expr} {captured : List Expr} {linear : List Expr}

/-- The unknowns times their coefficients add up to what they multiply to. -/
theorem multipliedOut_captured (distributed : ∀ coefficient ∈ linear, coefficient.Distributed)
    (formed : ((unknowns.zip linear).mapM fun (unknown, coefficient) =>
      prod [.sym unknown, coefficient]) = some captured) :
    (sum captured).Operand ∧ (sum captured).combination ∈ distributedFactors ∧
      multipliedOut (sum captured).combination =
        ((unknowns.zip linear).map fun (unknown, coefficient) =>
          (Expr.sym unknown).monomialSum * coefficient.monomialSum).sum := by
  have pair : ∀ pair ∈ unknowns.zip linear, ∀ product,
      prod [.sym pair.1, pair.2] = some product → product.Operand ∧
        product.combination ∈ distributedFactors ∧ multipliedOut product.combination =
          (Expr.sym pair.1).monomialSum * pair.2.monomialSum := by
    intro pair member product formed
    have coefficient := distributed pair.2 (List.of_mem_zip member).2
    have operands : ∀ e ∈ [.sym pair.1, pair.2], e.Operand :=
      forall_mem_pair ⟨⟨canonical_sym pair.1, rfl⟩, coefficient.toOperand⟩
    exact ⟨operand_prod operands formed, multipliedOut_prod_sym coefficient formed⟩
  have operands : ∀ product ∈ captured, product.Operand :=
    forall_mem_of_mapM formed fun source member product formed =>
      (pair source member product formed).1
  have combinations := combination_sum fun product member => (operands product member).canonical
  refine ⟨operand_sum operands, ?_, ?_⟩
  · rw [combinations]
    refine list_sum_mem fun combination present => ?_
    obtain ⟨product, member, rfl⟩ := List.mem_map.mp present
    exact forall_mem_of_mapM formed (fun source member product formed =>
      (pair source member product formed).2.1) product member
  · rw [combinations, map_list_sum, List.map_map]
    exact congrArg List.sum (map_eq_of_mapM formed _ fun source member product formed =>
      (pair source member product formed).2.2)

/-- If nothing is left over, the expansion has the monomials of the affine part and those that the
unknowns and their coefficients multiply to. -/
theorem monomialSum_of_accepted {affine difference nonlinear : Expr}
    (distributed : expanded.Distributed) (distributedAffine : affine.Distributed)
    (distributedLinear : ∀ coefficient ∈ linear, coefficient.Distributed)
    (capturedFormed : ((unknowns.zip linear).mapM fun (unknown, coefficient) =>
      prod [.sym unknown, coefficient]) = some captured)
    (differenceFormed : expanded.sub affine = some difference)
    (restFormed : difference.sub (sum captured) = some rest)
    (nonlinearFormed : rest.expand = some nonlinear) (isZero : nonlinear.isZero = true) :
    expanded.monomialSum = affine.monomialSum +
      ((unknowns.zip linear).map fun (unknown, coefficient) =>
        (Expr.sym unknown).monomialSum * coefficient.monomialSum).sum := by
  obtain ⟨operandSum, memSum, valueSum⟩ := multipliedOut_captured distributedLinear capturedFormed
  obtain ⟨operandDifference, combinationDifference⟩ :=
    distributed.toOperand.combination_sub distributedAffine.toOperand differenceFormed
  obtain ⟨operandRest, combinationRest⟩ := operandDifference.combination_sub operandSum restFormed
  rw [combinationDifference] at combinationRest
  have memRest : rest.combination ∈ distributedFactors := by
    rw [combinationRest]
    exact sub_mem (sub_mem distributed.combination_mem distributedAffine.combination_mem) memSum
  have vanishes := monomialSum_expand operandRest memRest nonlinearFormed
  rw [eq_zero_of_isZero isZero, monomialSum_zero, combinationRest, map_sub, map_sub,
    distributed.multipliedOut_combination, distributedAffine.multipliedOut_combination,
    valueSum] at vanishes
  exact sub_eq_iff_eq_add'.mp (sub_eq_zero.mp vanishes.symm)

end Sums

section Coefficients

variable {expanded coefficient term : Expr} {name : String}

/-- The base of a tree that lacks a symbol is not the symbol. -/
theorem base_ne_sym (lacks : e.hasSymbol name = false) : e.base ≠ .sym name := by
  cases e with
  | pow base exponent =>
    have lacksBase := (hasSymbol_eq_false_iff.mp lacks).2 base (List.mem_singleton_self base)
    exact (hasSymbol_eq_false_iff.mp lacksBase).1
  | _ => exact (hasSymbol_eq_false_iff.mp lacks).1

/-- The factors of a tree that lacks a symbol lack it. -/
theorem lacks_of_mem_factors {factor : Expr} (lacks : e.hasSymbol name = false)
    (member : factor ∈ e.factors) : factor.hasSymbol name = false :=
  (inherited_lacks name).toHereditary.composed.factors lacks factor member

/-- A symbol that does not occur is not multiplied. -/
theorem multiplicities_of_lacks (lacks : e.hasSymbol name = false) :
    e.multiplicities (.sym name) = 0 :=
  weights_of_absent fun _ member =>
    base_ne_sym (lacks_of_mem_factors lacks (List.mem_filter.mp member).1)

/-- The monomials of a tree without a symbol do not multiply by it. -/
theorem Operand.coeff_of_lacks (operand : e.Operand) (lacks : e.hasSymbol name = false)
    {powers : Expr →₀ ℤ} (multiplied : powers (.sym name) ≠ 0) :
    e.monomialSum.coeff powers = 0 := by
  by_contra present
  obtain ⟨term, member, rfl⟩ := operand.exists_term present
  exact multiplied (multiplicities_of_lacks ((inherited_lacks name).terms lacks term member))

/-- A monomial has the coefficient that its quotient by the symbol has without the symbol. -/
theorem coeff_sym_mul (sum : MonomialSum) (powers : Expr →₀ ℤ) :
    ((Expr.sym name).monomialSum * sum).coeff powers =
      sum.coeff (powers - Finsupp.single (.sym name) 1) := by
  have symbol : (Expr.sym name).monomialSum = single (Finsupp.single (.sym name) 1) 1 := by
    have power : (Expr.sym name).Power := ⟨canonical_sym name, rfl, fun _ => by simp⟩
    rw [Summand.monomialSum_eq_single ⟨⟨canonical_sym name, rfl⟩, fun _ => by simp⟩,
      power.multiplicities_eq, power.coefficient_eq_one]
    rfl
  rw [symbol, coeff_single_mul_apply, one_mul, neg_add_eq_sub]

/-- In a sum of unknowns times coefficients without unknowns, no monomial of a coefficient cancels
once it is multiplied by its unknown. -/
theorem coeff_sum_sym_mul_ne_zero {pairs : List (String × Expr)}
    (operands : ∀ pair ∈ pairs, pair.2.Operand)
    (lacks : ∀ pair ∈ pairs, pair.2.hasSymbol pair.1 = false)
    (unique : ∀ pair ∈ pairs, pair.1 = name → pair = (name, coefficient))
    (paired : (name, coefficient) ∈ pairs) {powers : Expr →₀ ℤ}
    (free : ∀ pair ∈ pairs, powers (.sym pair.1) = 0)
    (nonzero : coefficient.monomialSum.coeff powers ≠ 0) :
    (pairs.map fun pair => (Expr.sym pair.1).monomialSum * pair.2.monomialSum).sum.coeff
        (Finsupp.single (.sym name) 1 + powers) ≠ 0 := by
  rw [coeff_list_sum, List.map_map, List.sum_map_eq_nsmul_single (name, coefficient)]
  · change _ • ((Expr.sym name).monomialSum * coefficient.monomialSum).coeff _ ≠ 0
    rw [coeff_sym_mul, add_sub_cancel_left]
    refine smul_ne_zero (Nat.ne_of_gt ?_) nonzero
    exact (@List.count_pos_iff _ instBEqOfDecidableEq _ _ _).mpr paired
  · intro pair different member
    rw [Function.comp_apply, coeff_sym_mul]
    refine (operands pair member).coeff_of_lacks (lacks pair member) ?_
    have notSame : Expr.sym pair.1 ≠ .sym name := fun same =>
      different (unique pair member (Expr.sym.inj same))
    rw [Finsupp.sub_apply, Finsupp.add_apply, Finsupp.single_eq_of_ne notSame, free pair member,
      Finsupp.single_eq_same]
    decide

/-- What is split off a complete expansion is distributed, and holds no unknowns. -/
theorem parts_of_split (complete : e.ExpandsCompletely) (dots : e.VectorDots)
    (splits : e.split unknowns = some parts) :
    ∀ part ∈ parts.affine :: parts.linear,
      part.Distributed ∧ ∀ name ∈ unknowns, part.hasSymbol name = false := by
  obtain ⟨expanded, -, -, -, expands, affineFormed, linearFormed, -⟩ := split_cases splits
  have distributed := complete expanded expands
  refine List.forall_mem_cons.mpr ⟨⟨distributed.constantPartOfAll affineFormed,
    hasSymbol_constantPartOfAll affineFormed⟩, fun part member => ?_⟩
  obtain ⟨unknown, isUnknown, derivative, differentiates, formed⟩ :=
    exists_derivative_of_mem_linear linearFormed member
  exact ⟨distributed.coefficient (inherited_vectorDots.expand expands dots) isUnknown
    differentiates formed, hasSymbol_constantPartOfAll formed⟩

/-- Every term of a coefficient is a term of the expansion without its unknown. -/
theorem exists_term_of_coefficient (complete : e.ExpandsCompletely) (dots : e.VectorDots)
    (splits : e.split unknowns = some parts) (accepted : parts.isLinear = true)
    (expands : e.expand = some expanded) (paired : (name, coefficient) ∈ unknowns.zip parts.linear)
    (member : term ∈ coefficient.terms) (nonzero : term.coefficient ≠ 0) :
    ∃ source ∈ expanded.terms,
      source.multiplicities = Finsupp.single (.sym name) 1 + term.multiplicities := by
  obtain ⟨⟨distributedAffine, lacksAffine⟩, linear⟩ :=
    List.forall_mem_cons.mp (parts_of_split complete dots splits)
  obtain ⟨expanded', captured, difference, rest, expands', -, linearFormed, capturedFormed,
    differenceFormed, restFormed, nonlinearFormed⟩ := split_cases splits
  cases expands.symm.trans expands'
  have distributed := complete expanded expands
  have pairs : ∀ pair ∈ unknowns.zip parts.linear, pair.1 ∈ unknowns ∧ pair.2 ∈ parts.linear :=
    fun pair member => List.of_mem_zip member
  obtain ⟨isUnknown, isCoefficient⟩ := pairs _ paired
  obtain ⟨distributedCoefficient, lacks⟩ := linear coefficient isCoefficient
  have free : ∀ unknown ∈ unknowns, term.multiplicities (.sym unknown) = 0 := fun unknown inside =>
    multiplicities_of_lacks ((inherited_lacks unknown).terms (lacks unknown inside) term member)
  -- an unknown may be listed twice, but then with the same coefficient
  have unique : ∀ pair ∈ unknowns.zip parts.linear, pair.1 = name → pair = (name, coefficient) := by
    obtain ⟨-, formed⟩ := List.forall₂_iff_zip.mp (mapM_eq_some_iff.mp linearFormed)
    rintro ⟨other, part⟩ inside rfl
    cases (formed inside).symm.trans (formed paired)
    rfl
  apply distributed.toOperand.exists_term
  rw [monomialSum_of_accepted distributed distributedAffine (fun part inside =>
    (linear part inside).1) capturedFormed differenceFormed restFormed nonlinearFormed accepted]
  -- the affine part holds no unknowns, so it does not cancel the monomial
  have affine : parts.affine.monomialSum.coeff
      (Finsupp.single (.sym name) 1 + term.multiplicities) = 0 := by
    refine distributedAffine.toOperand.coeff_of_lacks (lacksAffine name isUnknown) ?_
    rw [Finsupp.add_apply, Finsupp.single_eq_same, free name isUnknown]
    decide
  rw [coeff_add, Finsupp.add_apply, affine, zero_add]
  apply coeff_sum_sym_mul_ne_zero
  · exact fun pair inside => (linear pair.2 (pairs pair inside).2).1.toOperand
  · exact fun pair inside => (linear pair.2 (pairs pair inside).2).2 pair.1 (pairs pair inside).1
  · exact unique
  · exact paired
  · exact fun pair inside => free pair.1 (pairs pair inside).1
  · rwa [distributedCoefficient.toOperand.coeff_of_mem member]

/-- The factors of a monomial are those of any multiple by a symbol that it does not hold. -/
theorem mem_factors_of_multiplicities {source factor : Expr} (canonical : source.Canonical)
    (canonical' : term.Canonical) (lacks : term.hasSymbol name = false)
    (multiple : source.multiplicities = Finsupp.single (.sym name) 1 + term.multiplicities)
    (member : factor ∈ term.factors) (notNum : factor.isNum = false) : factor ∈ source.factors := by
  have inside : factor ∈ term.factors.filter fun factor => !factor.isNum :=
    List.mem_filter.mpr ⟨member, by simp [notNum]⟩
  have power := canonical'.powers factor inside
  have exponent : source.multiplicities factor.base = factor.factorExponent.val := by
    have value : term.multiplicities factor.base = factor.factorExponent.val :=
      weights_of_mem canonical'.factors_bases inside
    rw [multiple, Finsupp.add_apply,
      Finsupp.single_eq_of_ne (base_ne_sym (lacks_of_mem_factors lacks member)), value, zero_add]
  obtain ⟨other, present, sameBase⟩ : ∃ other ∈ source.factors.filter fun factor => !factor.isNum,
      other.base = factor.base := by
    by_contra absent
    have vanishes : source.multiplicities factor.base = 0 :=
      weights_of_absent fun other inside same => absent ⟨other, inside, same⟩
    exact power.exponent_ne_zero (exponent.symm.trans vanishes)
  have value : source.multiplicities other.base = other.factorExponent.val :=
    weights_of_mem canonical.factors_bases present
  rw [sameBase, exponent] at value
  cases (canonical.powers other present).ext power sameBase value.symm
  exact (List.mem_filter.mp present).1

end Coefficients

/-- If the expansion is complete and the split is accepted, the coefficients have every property
that the expansion passes on to its parts. -/
theorem property_of_split {property ofBase : Expr → Prop} (hereditary : Hereditary property ofBase)
    (complete : e.ExpandsCompletely) (dots : e.VectorDots) (splits : e.split unknowns = some parts)
    (accepted : parts.isLinear = true) {expanded : Expr} (expands : e.expand = some expanded)
    (holds : property expanded) : ∀ coefficient ∈ parts.linear, property coefficient := by
  have linear := (List.forall_mem_cons.mp (parts_of_split complete dots splits)).2
  have sameLength : parts.linear.length = unknowns.length := by
    obtain ⟨_, _, _, _, _, _, linearFormed, _⟩ := split_cases splits
    exact (mapM_eq_some_iff.mp linearFormed).length_eq.symm
  intro coefficient member
  obtain ⟨distributed, lacks⟩ := linear coefficient member
  rw [← List.map_snd_zip sameLength.le] at member
  obtain ⟨⟨name, _⟩, paired, rfl⟩ := List.mem_map.mp member
  have lacksName := lacks name (List.of_mem_zip paired).1
  refine hereditary.of_terms fun term inside => hereditary.of_factors fun factor present => ?_
  have isTerm := distributed.term inside
  cases isNum : factor.isNum with
  | true =>
    obtain ⟨value, rfl⟩ := eq_num_of_isNum isNum
    exact hereditary.num value
  | false =>
    have nonzero : term.coefficient ≠ 0 := by
      refine Summand.coefficient_ne_zero ⟨isTerm.toOperand, isTerm.notAdd⟩ ?_
      rintro rfl
      cases List.mem_singleton.mp present
      cases isNum
    obtain ⟨source, isSource, multiple⟩ :=
      exists_term_of_coefficient complete dots splits accepted expands paired inside nonzero
    have canonical := ((complete expanded expands).term isSource).canonical
    exact hereditary.composed.factors (hereditary.terms holds source isSource) factor
      (mem_factors_of_multiplicities canonical isTerm.canonical
        ((inherited_lacks name).terms lacksName term inside) multiple present isNum)

end FiniteVolume.Expr
