import FiniteVolume.Proofs.Expr.Derivative
import FiniteVolume.Proofs.Laurent.Rewriting

/-!
# Derivatives of collected sums

The derivative of a canonical Laurent polynomial is collected into the derivative of its collected
sum, monomial by monomial (`Canonical.differentiates`).
-/

namespace FiniteVolume

namespace Collected

open AddMonoidAlgebra

/-- Every monomial times its exponent of a symbol. -/
noncomputable def scaleByExponent (name : String) : Collected →ₗ[ℚ] Collected :=
  (Finsupp.lsum ℚ fun exponents : Exponents =>
    (lsingle exponents).comp ((exponents name : ℚ) • LinearMap.id)).comp
      (coeffLinearEquiv ℚ).toLinearMap

/-- Scaling multiplies one monomial by its exponent. -/
theorem scaleByExponent_single (name : String) (exponents : Exponents) (value : ℚ) :
    scaleByExponent name (single exponents value) = single exponents (exponents name * value) := by
  simp [scaleByExponent]

/-- Scaling multiplies every coefficient by the exponent of its monomial. -/
theorem coeff_scaleByExponent (name : String) (sum : Collected) (exponents : Exponents) :
    (scaleByExponent name sum).coeff exponents = exponents name * sum.coeff exponents := by
  induction sum using AddMonoidAlgebra.induction_linear with
  | zero => simp
  | add left right ihLeft ihRight => simp [ihLeft, ihRight, mul_add]
  | single other value =>
    rw [scaleByExponent_single, coeff_single, coeff_single, Finsupp.single_apply,
      Finsupp.single_apply]
    split
    · rename_i same
      rw [same]
    · rw [mul_zero]

/-- Scaling by exponents obeys the product rule. -/
theorem scaleByExponent_mul (name : String) (left right : Collected) :
    scaleByExponent name (left * right) =
      left * scaleByExponent name right + right * scaleByExponent name left := by
  induction left using AddMonoidAlgebra.induction_linear with
  | zero => simp
  | add first second ihFirst ihSecond =>
    rw [add_mul, map_add, ihFirst, ihSecond, map_add, add_mul, mul_add]
    abel
  | single exponents value =>
    induction right using AddMonoidAlgebra.induction_linear with
    | zero => simp
    | add first second ihFirst ihSecond =>
      rw [mul_add, map_add, ihFirst, ihSecond, map_add, add_mul, mul_add]
      abel
    | single exponents' value' =>
      simp only [single_mul_single, scaleByExponent_single, Finsupp.add_apply]
      rw [add_comm exponents' exponents, ← single_add]
      congr 1
      push_cast
      ring

/-- The derivative with respect to a symbol. -/
noncomputable def derivative (name : String) : Derivation ℚ Collected Collected :=
  Derivation.mk' ((LinearMap.mulLeft ℚ (single (Finsupp.single name (-1)) 1)).comp
    (scaleByExponent name)) fun left right => by
      simp only [LinearMap.comp_apply, LinearMap.mulLeft_apply, scaleByExponent_mul, smul_eq_mul]
      ring

/-- The derivative scales by exponents and lowers them by one. -/
theorem derivative_apply (name : String) (sum : Collected) :
    derivative name sum = single (Finsupp.single name (-1)) 1 * scaleByExponent name sum :=
  rfl

/-- The derivative of one monomial. -/
theorem derivative_single (name : String) (exponents : Exponents) (value : ℚ) :
    derivative name (single exponents value) =
      single (exponents - Finsupp.single name 1) (exponents name * value) := by
  rw [derivative_apply, scaleByExponent_single, single_mul_single, one_mul, Finsupp.single_neg,
    neg_add_eq_sub]

/-- A coefficient of the derivative is that of the monomial with one more of the symbol, times its
exponent. -/
theorem coeff_derivative (name : String) (sum : Collected) (exponents : Exponents) :
    (derivative name sum).coeff exponents =
      (exponents name + 1) * sum.coeff (exponents + Finsupp.single name 1) := by
  rw [derivative_apply, coeff_single_mul_apply, coeff_scaleByExponent, one_mul, Finsupp.single_neg,
    neg_neg, add_comm (Finsupp.single name 1)]
  simp

/-- A product of sums that do not depend on a symbol does not either. -/
theorem derivative_prod_eq_zero {name : String} {factors : List Collected}
    (constant : ∀ factor ∈ factors, derivative name factor = 0) :
    derivative name factors.prod = 0 := by
  induction factors with
  | nil => exact Derivation.map_one_eq_zero _
  | cons factor rest ih =>
    obtain ⟨first, later⟩ := List.forall_mem_cons.mp constant
    rw [List.prod_cons, Derivation.leibniz, first, ih later, smul_zero, smul_zero, add_zero]

end Collected

namespace Expr

open AddMonoidAlgebra Collected

variable {name : String}

/-- The collected sum of a Laurent polynomial without a symbol does not depend on it. -/
theorem Laurent.derivative_of_lacks {e : Expr} (laurent : e.Laurent)
    (lacks : e.hasSymbol name = false) : derivative name e.collected = 0 := by
  have parts := (hasSymbol_eq_false_iff.mp lacks).2
  induction e with
  | num value => simp [collected_num, derivative_single]
  | sym other =>
    have different : other ≠ name := by
      rintro rfl
      exact (hasSymbol_eq_false_iff.mp lacks).1 rfl
    simp [collected_sym, derivative_single, different]
  | add terms ih =>
    rw [collected_add, map_list_sum]
    apply List.sum_eq_zero
    intro value member
    obtain ⟨_, inSums, rfl⟩ := List.mem_map.mp member
    obtain ⟨term, inside, rfl⟩ := List.mem_map.mp inSums
    have lacksTerm := parts term inside
    exact ih term inside (laurent.arg inside) lacksTerm (hasSymbol_eq_false_iff.mp lacksTerm).2
  | mul factors ih =>
    rw [collected_mul]
    apply derivative_prod_eq_zero
    intro value member
    obtain ⟨factor, inside, rfl⟩ := List.mem_map.mp member
    have lacksFactor := parts factor inside
    exact ih factor inside (laurent.arg inside) lacksFactor
      (hasSymbol_eq_false_iff.mp lacksFactor).2
  | pow base exponent ih =>
    have lacksBase : base.hasSymbol name = false := parts base (by simp [args])
    rw [collected_pow]
    unfold collectedPower
    split
    · rename_i other
      have different : other ≠ name := by
        rintro rfl
        exact (hasSymbol_eq_false_iff.mp lacksBase).1 rfl
      simp [derivative_single, different]
    · rw [Derivation.leibniz_pow, ih (laurent.arg (by simp [args])) lacksBase
        (hasSymbol_eq_false_iff.mp lacksBase).2, smul_zero, smul_zero]
  | vector components => exact (laurent_iff.mp laurent).1.elim
  | call head args => exact (laurent_iff.mp laurent).1.elim

/-- What differentiation does to a tree: the result is a Laurent polynomial that is collected into
the derivative. -/
def Differentiates (name : String) (e : Expr) : Prop :=
  ∀ result, diff e name = some result →
    result.Laurent ∧ result.collected = derivative name e.collected

/-- The products of the product rule add up to the derivative of the product. -/
theorem collected_diffFactors {before after products : List Expr}
    (formed : diffFactors before after name = some products)
    (laurentBefore : ∀ factor ∈ before, factor.Laurent)
    (laurentAfter : ∀ factor ∈ after, factor.Laurent)
    (differentiates : ∀ factor ∈ after, factor.Differentiates name) :
    (∀ product ∈ products, product.Laurent) ∧
      (products.map collected).sum =
        (before.map collected).prod * derivative name (after.map collected).prod := by
  induction after generalizing before products with
  | nil =>
    cases formed
    simp
  | cons factor rest ih =>
    obtain ⟨slope, formsSlope, formed⟩ := Option.bind_eq_some_iff.mp formed
    obtain ⟨first, multiplied, formed⟩ := Option.bind_eq_some_iff.mp formed
    obtain ⟨later, formedLater, same⟩ := Option.bind_eq_some_iff.mp formed
    cases same
    obtain ⟨laurentFactor, laurentRest⟩ := List.forall_mem_cons.mp laurentAfter
    obtain ⟨differentiatesFactor, differentiatesRest⟩ := List.forall_mem_cons.mp differentiates
    obtain ⟨laurentSlope, collectedSlope⟩ := differentiatesFactor slope formsSlope
    have laurentParts : ∀ part ∈ slope :: (before ++ rest), part.Laurent :=
      List.forall_mem_cons.mpr ⟨laurentSlope, List.forall_mem_append.mpr
        ⟨laurentBefore, laurentRest⟩⟩
    have laurentNext : ∀ part ∈ before ++ [factor], part.Laurent :=
      List.forall_mem_append.mpr ⟨laurentBefore, List.forall_mem_singleton.mpr laurentFactor⟩
    obtain ⟨laurentLater, sumLater⟩ := ih formedLater laurentNext laurentRest differentiatesRest
    refine ⟨List.forall_mem_cons.mpr
      ⟨hereditary_laurent.prod multiplied laurentParts, laurentLater⟩,
      ?_⟩
    rw [List.map_cons, List.sum_cons, sumLater, collected_prod laurentParts multiplied]
    simp only [List.map_cons, List.map_append, List.map_nil, List.prod_cons, List.prod_append,
      List.prod_nil, collectedSlope, Derivation.leibniz, smul_eq_mul]
    ring

/-- The power rule. -/
theorem derivative_collectedPower {base : Expr} {exponent : ℤ} (nonzero : exponent ≠ 0)
    (symbol : exponent < 0 → ∃ name, base = .sym name) :
    derivative name (collectedPower base base.collected exponent) =
      single 0 (exponent : ℚ) * collectedPower base base.collected (exponent - 1) *
        derivative name base.collected := by
  unfold collectedPower
  split
  · rename_i other
    rw [collected_sym, derivative_single, derivative_single, single_mul_single, single_mul_single]
    by_cases same : other = name
    · subst same
      rw [zero_add, sub_self, add_zero, ← Finsupp.single_sub]
      simp
    · simp [same]
  · rename_i notSymbol
    have positive : 0 < exponent := by
      by_contra notPositive
      obtain ⟨name, isSymbol⟩ := symbol (by omega)
      exact notSymbol name isSymbol
    have lower : (exponent - 1).toNat = exponent.toNat - 1 := by omega
    have scalar : ((exponent.toNat : ℕ) : ℚ) = exponent := by
      exact_mod_cast Int.toNat_of_nonneg positive.le
    rw [Derivation.leibniz_pow, lower, smul_eq_mul, nsmul_eq_mul, natCast_def, scalar, mul_assoc]

/-- The derivative of a canonical Laurent polynomial is a Laurent polynomial and is collected into
the derivative of its collected sum. -/
theorem Canonical.differentiates {e : Expr} (canonical : e.Canonical) (laurent : e.Laurent) :
    e.Differentiates name := by
  intro result formed
  induction e using induction_args generalizing result with
  | step e ih =>
    cases derives_of_diff formed with
    | lacks lacks =>
      rw [laurent.derivative_of_lacks lacks]
      have isZero : e.zeroLike = zero := by
        cases e with
        | vector components => exact (laurent_iff.mp laurent).1.elim
        | _ => rfl
      rw [isZero]
      exact ⟨hereditary_laurent.num 0, (collected_num 0).trans (single_zero 0)⟩
    | sym =>
      refine ⟨hereditary_laurent.num 1, ?_⟩
      simp [one, collected_num, collected_sym, derivative_single]
    | @add _ derivatives differentiates =>
      have parts : ∀ slope ∈ derivatives, slope.Laurent :=
        forall_mem_of_mapM differentiates fun term member slope differentiates =>
          (ih term member (canonical.arg member) (laurent.arg member) slope differentiates).1
      refine ⟨hereditary_laurent.sum parts, ?_⟩
      rw [collected_sum parts, collected_add, map_list_sum, List.map_map]
      refine congrArg List.sum (map_eq_of_mapM differentiates _ fun term member slope formed => ?_)
      exact (ih term member (canonical.arg member) (laurent.arg member) _ formed).2
    | mul differentiates =>
      obtain ⟨parts, sums⟩ := collected_diffFactors differentiates (List.forall_mem_nil _)
        (fun factor member => laurent.arg member) fun factor member =>
          ih factor member (canonical.arg member) (laurent.arg member)
      refine ⟨hereditary_laurent.sum parts, ?_⟩
      rw [collected_sum parts, sums, collected_mul, List.map_nil, List.prod_nil, one_mul]
    | @pow base lower outer inner _ exponent less _ lowered powered outerFormed differentiates
        multiplied =>
      obtain ⟨laurentBase, symbol⟩ := (hereditary_laurent.pow_iff base exponent).mp laurent
      obtain ⟨node, canonicalBase⟩ := canonical_pow_iff.mp canonical
      have value := Exponent.val_of_pred? lowered
      have symbolLess : less.val < 0 → ∃ name, base = .sym name := fun negative =>
        symbol (by have nonzero := node.ne_zero; omega)
      have laurentLower := hereditary_laurent.power powered laurentBase symbolLess
      have laurentNumber : (Expr.int exponent.val).Laurent := hereditary_laurent.num _
      have laurentOuter := hereditary_laurent.prod_pair outerFormed laurentNumber laurentLower
      obtain ⟨laurentInner, collectedInner⟩ :=
        ih base (List.mem_singleton_self base) canonicalBase laurentBase inner differentiates
      refine ⟨hereditary_laurent.prod_pair multiplied laurentOuter laurentInner, ?_⟩
      rw [collected_prod_pair laurentOuter laurentInner multiplied,
        collected_prod_pair laurentNumber laurentLower outerFormed,
        collected_power laurentBase symbolLess powered, collectedInner, value, collected_pow,
        derivative_collectedPower node.ne_zero symbol]
      rfl
    | vector | call => exact (laurent_iff.mp laurent).1.elim

end Expr

end FiniteVolume
