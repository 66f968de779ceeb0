import FiniteVolume.Proofs.Canonical.Distributed

/-!
# Distributed trees as sums of monomials

A distributed tree is a sum of monomials with rational coefficients, a monomial being a product of
integer powers of trees that are taken as they are. Sums and products of distributed trees add and
multiply these sums (`distributiveQuantity_monomialSum`), so a tree with distributed factors is
expanded into what its factors multiply to (`monomialSum_expand`).
-/

namespace FiniteVolume

/-- A sum of monomials with rational coefficients, every monomial by the exponents of its bases. -/
abbrev MonomialSum := AddMonoidAlgebra ℚ (Expr →₀ ℤ)

/-- The coefficients of a monomial in several sums add up. -/
theorem coeff_list_sum {M : Type*} (sums : List (AddMonoidAlgebra ℚ M)) (monomial : M) :
    sums.sum.coeff monomial = (sums.map fun sum => sum.coeff monomial).sum := by
  induction sums with
  | nil => rfl
  | cons sum rest ih =>
    rw [List.sum_cons, List.map_cons, List.sum_cons, ← ih]
    rfl

end FiniteVolume

namespace FiniteVolume.Expr

open AddMonoidAlgebra

variable {e result : Expr} {es : List Expr}

/-- The sum of monomials that a tree stands for when its factors are taken as they are. -/
noncomputable def monomialSum (e : Expr) : MonomialSum :=
  Finsupp.linearCombination ℚ (fun monomial => single monomial.multiplicities 1) e.combination

/-- What the monomials of a combination are when their factors are multiplied. -/
noncomputable def multipliedOut : (Expr →₀ ℚ) →ₗ[ℚ] MonomialSum :=
  Finsupp.linearCombination ℚ fun monomial => (monomial.factors.map monomialSum).prod

section Terms

/-- A multiple of a monomial multiplies the same bases equally often. -/
theorem Canonical.multiplicities_monomial (canonical : e.Canonical) :
    e.monomial.multiplicities = e.multiplicities := by
  cases isNum : e.isNum with
  | true =>
    obtain ⟨value, rfl⟩ := eq_num_of_isNum isNum
    rfl
  | false =>
    have notNum := (canonical.factors_eq isNum).2
    rw [multiplicities, multiplicities, canonical.filter_factors isNum,
      List.filter_eq_self.mpr fun factor member => by simp [notNum factor member]]

/-- A term is a single monomial. -/
theorem Summand.monomialSum_eq_single (summand : e.Summand) :
    e.monomialSum = single e.multiplicities e.coefficient := by
  rw [monomialSum, combination_of_not_add summand.notAdd, Finsupp.linearCombination_single,
    summand.canonical.multiplicities_monomial, smul_single, smul_eq_mul, mul_one]

/-- A number is a constant. -/
theorem monomialSum_num (value : Rat) : (Expr.num value).monomialSum = single 0 value :=
  Summand.monomialSum_eq_single ⟨operand_num value, fun _ => by simp⟩

/-- Zero is the empty sum. -/
theorem monomialSum_zero : zero.monomialSum = 0 :=
  (monomialSum_num 0).trans (single_zero 0)

/-- An operand is the sum of its terms. -/
theorem Operand.sum_monomialSum (operand : e.Operand) :
    (e.terms.map monomialSum).sum = e.monomialSum := by
  rw [monomialSum, ← operand.sum_combination, map_list_sum, List.map_map]
  rfl

/-- The terms of an operand are different monomials. -/
theorem Operand.terms_multiplicities (operand : e.Operand) :
    e.terms.Pairwise fun left right => left.multiplicities ≠ right.multiplicities := by
  have monomial : ∀ term ∈ e.terms, term.monomial.Canonical ∧ term.monomial.coefficient = 1 := by
    intro term member
    have summand := operand.summand member
    cases isNum : term.isNum with
    | true =>
      obtain ⟨value, rfl⟩ := eq_num_of_isNum isNum
      exact ⟨canonical_num 1, rfl⟩
    | false =>
      have isMonomial := (summand.canonical.split isNum summand.notAdd).1
      rw [← monomial_of_not_num isNum] at isMonomial
      exact ⟨isMonomial.canonical, isMonomial.coefficient⟩
  refine operand.canonical.terms_monomials.imp_of_mem ?_
  intro left right inLeft inRight different same
  apply different
  obtain ⟨canonical, plain⟩ := monomial left inLeft
  obtain ⟨canonical', plain'⟩ := monomial right inRight
  refine canonical.eq_of_multiplicities_eq canonical' (plain.trans plain'.symm) ?_
  rw [(operand.summand inLeft).canonical.multiplicities_monomial, same,
    (operand.summand inRight).canonical.multiplicities_monomial]

/-- The coefficients of the monomials are those of the terms. -/
theorem Operand.coeff_monomialSum (operand : e.Operand) :
    e.monomialSum.coeff = weights multiplicities coefficient e.terms := by
  have terms : ∀ term ∈ e.terms, term.monomialSum = single term.multiplicities term.coefficient :=
    fun term member => (operand.summand member).monomialSum_eq_single
  rw [← operand.sum_monomialSum, List.map_congr_left terms]
  induction e.terms with
  | nil => rfl
  | cons term rest ih =>
    rw [List.map_cons, List.sum_cons, coeff_add, ih, weights_cons, coeff_single]

/-- A term of an operand has its coefficient in the sum. -/
theorem Operand.coeff_of_mem (operand : e.Operand) {term : Expr} (member : term ∈ e.terms) :
    e.monomialSum.coeff term.multiplicities = term.coefficient := by
  rw [operand.coeff_monomialSum]
  exact weights_of_mem operand.terms_multiplicities member

/-- Every monomial of an operand is that of a term. -/
theorem Operand.exists_term (operand : e.Operand) {powers : Expr →₀ ℤ}
    (present : e.monomialSum.coeff powers ≠ 0) :
    ∃ term ∈ e.terms, term.multiplicities = powers := by
  rw [operand.coeff_monomialSum] at present
  by_contra absent
  exact present (weights_of_absent fun term member same => absent ⟨term, member, same⟩)

end Terms

section Sums

/-- The sums of canonical trees are added. -/
theorem monomialSum_sum (canonical : ∀ e ∈ es, e.Canonical) :
    (sum es).monomialSum = (es.map monomialSum).sum := by
  rw [monomialSum, combination_sum canonical, map_list_sum, List.map_map]
  rfl

/-- The difference of two operands is an operand and subtracts their combinations. -/
theorem Operand.combination_sub {left right : Expr} (operandLeft : left.Operand)
    (operandRight : right.Operand) (formed : left.sub right = some result) :
    result.Operand ∧ result.combination = left.combination - right.combination := by
  obtain ⟨negated, negates, same⟩ := Option.bind_eq_some_iff.mp formed
  cases same
  obtain ⟨negated', negates', operand, opposite⟩ := operandRight.exists_multiple (-1 : ℤ)
  cases negates.symm.trans negates'
  obtain ⟨operandSum, total⟩ := operandLeft.sum_pair operand
  refine ⟨operandSum, ?_⟩
  rw [total, opposite, Int.cast_neg, Int.cast_one, neg_one_smul, sub_eq_add_neg]

end Sums

section Products

/-- Single monomials multiply to one. -/
theorem prod_single_map (multiplicity : Expr → Expr →₀ ℤ) (value : Expr → ℚ) (es : List Expr) :
    (es.map fun e => (single (multiplicity e) (value e) : MonomialSum)).prod =
      single (es.map multiplicity).sum (es.map value).prod := by
  induction es with
  | nil => rfl
  | cons e rest ih =>
    simp only [List.map_cons, List.prod_cons, List.sum_cons, ih, single_mul_single]

/-- Products of distributed terms multiply their monomials. -/
theorem monomialSum_prod (terms : ∀ e ∈ es, e.DistributedTerm) (formed : prod es = some result) :
    result.monomialSum = (es.map monomialSum).prod := by
  have each : ∀ e ∈ es, e.monomialSum = single e.multiplicities e.coefficient := fun e member =>
    Summand.monomialSum_eq_single ⟨(terms e member).toOperand, (terms e member).notAdd⟩
  have term := DistributedTerm.prod terms formed
  rw [List.map_congr_left each, prod_single_map]
  cases isProduct_of_prod (fun e member => (terms e member).toOperand) formed with
  | zero isZero vanishes => rw [vanishes, monomialSum_zero, isZero, single_zero]
  | distributed nonzero sum operand single multiple =>
    -- terms do not multiply by sums
    have small : (es.map multiplicities).sum (.add sum) ≤ 0 := by
      refine sum_apply_le fun power present => ?_
      obtain ⟨e, member, rfl⟩ := List.mem_map.mp present
      exact (terms e member).multiplicities_add_le sum
    rw [single, Finsupp.single_eq_same] at small
    exact absurd small (by decide)
  | written nonzero notSum coefficient same =>
    rw [Summand.monomialSum_eq_single ⟨term.toOperand, term.notAdd⟩, coefficient, same]

/-- Distributing distributed trees multiplies their sums. -/
theorem distributiveQuantity_monomialSum : DistributiveQuantity Distributed monomialSum where
  toDistributive := distributive_distributed
  terms _ distributed := distributed.toOperand.sum_monomialSum
  quantity_sum _ distributed :=
    monomialSum_sum fun e member => (distributed e member).canonical
  quantity_product _ _ distributedLeft distributedRight _ inLeft _ inRight _ formed := by
    rw [monomialSum_prod (forall_mem_pair ⟨distributedLeft.term inLeft,
      distributedRight.term inRight⟩) formed]
    simp

end Products

section Expansion

/-- The combinations of monomials with distributed factors. -/
noncomputable def distributedFactors : Submodule ℚ (Expr →₀ ℚ) :=
  Finsupp.supported ℚ ℚ {monomial | ∀ factor ∈ monomial.factors, factor.Distributed}

/-- The factors of a distributed tree are distributed. -/
theorem Distributed.factor {factor : Expr} (distributed : e.Distributed)
    (member : factor ∈ e.factors) : factor.Distributed := by
  cases e with
  | mul factors => exact distributed.arg member
  | _ => exact List.mem_singleton.mp member ▸ distributed

/-- The monomials of a distributed tree have distributed factors. -/
theorem Distributed.combination_mem (distributed : e.Distributed) :
    e.combination ∈ distributedFactors := by
  rw [← distributed.toOperand.sum_combination]
  refine list_sum_mem fun combination present => ?_
  obtain ⟨term, member, rfl⟩ := List.mem_map.mp present
  have isTerm := distributed.term member
  rw [combination_of_not_add isTerm.notAdd]
  refine Finsupp.single_mem_supported ℚ _ fun factor inside => ?_
  cases isNum : term.isNum with
  | true =>
    obtain ⟨value, rfl⟩ := eq_num_of_isNum isNum
    exact (distributedTerm_num 1).toDistributed.factor inside
  | false =>
    rw [monomial_of_not_num isNum] at inside
    exact (isTerm.splits isNum).2.factor inside

/-- All factors of the terms of such a combination are distributed. -/
theorem Operand.distributed_of_mem (operand : e.Operand)
    (combines : e.combination ∈ distributedFactors) {term factor : Expr} (member : term ∈ e.terms)
    (inside : factor ∈ term.factors) : factor.Distributed := by
  have summand := operand.summand member
  cases isNum : term.isNum with
  | true =>
    obtain ⟨value, rfl⟩ := eq_num_of_isNum isNum
    exact (distributedTerm_num value).toDistributed.factor inside
  | false =>
    have nonzero : term.coefficient ≠ 0 := summand.coefficient_ne_zero (by
      rintro rfl
      cases isNum)
    have weighs : e.combination term.monomial = term.coefficient :=
      weights_of_mem operand.canonical.terms_monomials member
    have supported := (Finsupp.mem_supported ℚ _).mp combines
      (Finsupp.mem_support_iff.mpr (weighs ▸ nonzero))
    rw [(summand.canonical.factors_eq isNum).1, List.mem_append] at inside
    rcases inside with inside | inside
    · unfold writtenCoefficient at inside
      split at inside
      · cases inside
      · cases List.mem_singleton.mp inside
        exact (distributedTerm_num _).toDistributed
    · exact supported factor inside

/-- A term is what its factors multiply to. -/
theorem Summand.multipliedOut_combination (summand : e.Summand) :
    multipliedOut e.combination = (e.factors.map monomialSum).prod := by
  rw [combination_of_not_add summand.notAdd, multipliedOut, Finsupp.linearCombination_single]
  cases isNum : e.isNum with
  | true =>
    obtain ⟨value, rfl⟩ := eq_num_of_isNum isNum
    simp [monomial, coefficient, one, factors, monomialSum_num]
  | false =>
    rw [(summand.canonical.factors_eq isNum).1, List.map_append, List.prod_append]
    unfold writtenCoefficient
    split
    · rename_i isOne
      rw [isOne, one_smul, List.map_nil, List.prod_nil, one_mul]
    · have number : (Expr.num e.coefficient).monomialSum = e.coefficient • (1 : MonomialSum) := by
        rw [monomialSum_num, one_def, smul_single, smul_eq_mul, mul_one]
      rw [List.map_singleton, List.prod_singleton, number, smul_mul_assoc, one_mul]

/-- A term with distributed factors is expanded into what they multiply to. -/
theorem Summand.monomialSum_expand (summand : e.Summand)
    (distributed : ∀ factor ∈ e.factors, factor.Distributed) (expands : e.expand = some result) :
    result.Distributed ∧ result.monomialSum = (e.factors.map monomialSum).prod := by
  by_cases isProduct : ∃ factors, e = .mul factors
  · obtain ⟨factors, rfl⟩ := isProduct
    cases expand_cases expands with
    | mul expanded distributes =>
      have kept : factors.mapM expand = some factors :=
        (mapM_eq_some_map fun factor member => (distributed factor member).expand_eq_self).trans
          (congrArg some (List.map_id factors))
      cases kept.symm.trans expanded
      have distributedOne : one.Distributed := (distributedTerm_num 1).toDistributed
      have plain : one.monomialSum = 1 := monomialSum_num 1
      refine ⟨distributive_distributed.distributeFrom distributes distributedOne distributed, ?_⟩
      rw [distributiveQuantity_monomialSum.quantity_distributeFrom distributes distributedOne
        distributed, plain, one_mul]
      rfl
  · have single := factors_of_not_mul fun factors same => isProduct ⟨factors, same⟩
    have distributed := distributed e (single ▸ List.mem_singleton_self e)
    cases distributed.expand_eq_self.symm.trans expands
    rw [single, List.map_singleton, List.prod_singleton]
    exact ⟨distributed, rfl⟩

/-- A tree with distributed factors is expanded into what they multiply to. -/
theorem monomialSum_expand (operand : e.Operand) (combines : e.combination ∈ distributedFactors)
    (expands : e.expand = some result) : result.monomialSum = multipliedOut e.combination := by
  have term : ∀ term ∈ e.terms, ∀ result, term.expand = some result → result.Distributed ∧
      result.monomialSum = multipliedOut term.combination := by
    intro term member result expands
    have summand := operand.summand member
    rw [summand.multipliedOut_combination]
    exact summand.monomialSum_expand (fun factor inside =>
      operand.distributed_of_mem combines member inside) expands
  by_cases isSum : ∃ terms, e = .add terms
  · obtain ⟨terms, rfl⟩ := isSum
    cases expand_cases expands with
    | add expanded =>
      have canonical := forall_mem_of_mapM expanded fun member inside result expands =>
        (term member inside result expands).1.canonical
      rw [monomialSum_sum canonical, ← operand.sum_combination, map_list_sum, List.map_map,
        map_eq_of_mapM expanded _ fun member inside result expands =>
          (term member inside result expands).2]
      rfl
  · have single := terms_of_not_add fun terms same => isSum ⟨terms, same⟩
    exact (term e (single ▸ List.mem_singleton_self e) result expands).2

/-- The factors of a distributed tree are multiplied already. -/
theorem Distributed.multipliedOut_combination (distributed : e.Distributed) :
    multipliedOut e.combination = e.monomialSum :=
  (monomialSum_expand distributed.toOperand distributed.combination_mem
    distributed.expand_eq_self).symm

/-- A power has its exponent at its base. -/
theorem Power.multiplicities_eq (power : e.Power) :
    e.multiplicities = Finsupp.single e.base e.factorExponent.val := by
  rw [multiplicities, factors_of_not_mul power.notMul,
    List.filter_cons_of_pos (by simp [power.notNum]), List.filter_nil, exponentsOf_cons]
  exact add_zero _

/-- A power has no coefficient of its own. -/
theorem Power.coefficient_eq_one (power : e.Power) : e.coefficient = 1 := by
  rw [coefficient_of_not_num power.notNum, splitCoefficient_of_not_mul power.notMul]

/-- Two factors with different bases make a monomial of these factors. -/
theorem factors_of_prod_pair {left right : Expr} (power : left.Power) (power' : right.Power)
    (different : left.base ≠ right.base) (operands : ∀ e ∈ [left, right], e.Operand)
    (formed : prod [left, right] = some result) :
    result.Summand ∧ result.coefficient = 1 ∧ result.monomial.factors.Perm [left, right] := by
  have operand := operand_prod operands formed
  have powers : ([left, right].map multiplicities).sum = exponentsOf [left, right] := by
    simp [power.multiplicities_eq, power'.multiplicities_eq]
  have bases : [left, right].Pairwise fun left right => left.base ≠ right.base :=
    List.pairwise_pair.mpr different
  have several : ∀ single, ¬[single].Perm [left, right] := fun single perm => by
    have sameLength := perm.length_eq
    cases sameLength
  have isProduct := isProduct_of_prod operands formed
  rw [powers] at isProduct
  cases isProduct with
  | zero isZero => simp [power.coefficient_eq_one, power'.coefficient_eq_one] at isZero
  | distributed _ terms _ single =>
    have alone := eq_singleton_of_exponentsOf (forall_mem_pair ⟨power, power'⟩) bases single
    cases alone
  | written _ _ coefficient same =>
    have perm := perm_of_exponentsOf_eq operand.canonical.powers (forall_mem_pair ⟨power, power'⟩)
      operand.canonical.factors_bases bases same
    have notNum : result.isNum = false := by
      rw [← Bool.not_eq_true]
      intro isNum
      obtain ⟨value, rfl⟩ := eq_num_of_isNum isNum
      cases perm.length_eq
    refine ⟨⟨operand, ?_⟩, ?_, ?_⟩
    · rintro terms rfl
      exact several _ perm
    · simpa [power.coefficient_eq_one, power'.coefficient_eq_one] using coefficient
    · rwa [operand.canonical.filter_factors notNum] at perm

/-- A symbol times a distributed tree, which need not be distributed itself, is what both of them
multiply to. -/
theorem multipliedOut_prod_sym {name : String} (distributed : e.Distributed)
    (formed : prod [.sym name, e] = some result) :
    result.combination ∈ distributedFactors ∧
      multipliedOut result.combination = (Expr.sym name).monomialSum * e.monomialSum := by
  have symbol : (Expr.sym name).DistributedTerm :=
    ⟨distributed_of_args trivial rfl trivial (fun _ member => nomatch member), fun _ => by simp⟩
  have both : ∀ factor ∈ [.sym name, e], factor.Distributed :=
    forall_mem_pair ⟨symbol.toDistributed, distributed⟩
  by_cases isSum : ∃ terms, e = .add terms
  · obtain ⟨terms, rfl⟩ := isSum
    obtain ⟨summand, plain, perm⟩ := factors_of_prod_pair
      ⟨symbol.canonical, rfl, fun _ => by simp⟩ ⟨distributed.canonical, rfl, fun _ => by simp⟩
      (by simp [base]) (fun factor member => (both factor member).toOperand) formed
    constructor
    · rw [combination_of_not_add summand.notAdd]
      exact Finsupp.single_mem_supported ℚ _ fun factor inside =>
        both factor (perm.mem_iff.mp inside)
    · rw [combination_of_not_add summand.notAdd, plain, multipliedOut,
        Finsupp.linearCombination_single, one_smul, (perm.map monomialSum).prod_eq]
      simp
  · have terms : ∀ factor ∈ [.sym name, e], factor.DistributedTerm :=
      forall_mem_pair ⟨symbol, distributed, fun terms same => isSum ⟨terms, same⟩⟩
    have term := DistributedTerm.prod terms formed
    refine ⟨term.combination_mem, ?_⟩
    rw [term.toDistributed.multipliedOut_combination, monomialSum_prod terms formed]
    simp

end Expansion

end FiniteVolume.Expr
