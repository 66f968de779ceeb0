import FiniteVolume.Proofs.Laurent.Equality

/-!
# Collected Laurent polynomials

A Laurent polynomial, fully multiplied out, is a finite sum of monomials with rational coefficients.
Its values at nonzero values of the symbols determine all coefficients (`Collected.eq_of_eval_eq`),
and they are the values of the expression it is collected from (`Laurent.valueIn_eq_eval`).
-/

namespace FiniteVolume

/-- A product of integer powers of symbols, by its exponents. -/
abbrev Exponents := String →₀ ℤ

/-- A sum of monomials with rational coefficients. -/
abbrev Collected := AddMonoidAlgebra ℚ Exponents

namespace Exponents

/-- The value of a monomial, depending on the values of the symbols. -/
noncomputable def character (exponents : Exponents) : Expr.Assignment →* ℚ where
  toFun assignment := exponents.prod fun name exponent => (assignment name : ℚ) ^ exponent
  map_one' := by simp
  map_mul' left right := by
    simp only [Pi.mul_apply, Units.val_mul, mul_zpow]
    exact Finsupp.prod_mul

/-- The monomial without symbols has value one. -/
theorem character_zero (assignment : Expr.Assignment) :
    (0 : Exponents).character assignment = 1 := by
  change (0 : Exponents).prod (fun name exponent => (assignment name : ℚ) ^ exponent) = 1
  exact Finsupp.prod_zero_index

/-- A power of one symbol has the power of its value. -/
theorem character_single (name : String) (exponent : ℤ) (assignment : Expr.Assignment) :
    character (Finsupp.single name exponent) assignment = (assignment name : ℚ) ^ exponent :=
  Finsupp.prod_single_index (zpow_zero _)

/-- The value of a product of monomials is the product of their values. -/
theorem character_add (left right : Exponents) (assignment : Expr.Assignment) :
    (left + right).character assignment =
      left.character assignment * right.character assignment :=
  Finsupp.prod_add_index' (fun _ => zpow_zero _) fun name => zpow_add₀ (assignment name).ne_zero

/-- The probe of a symbol sees its exponent only. -/
theorem character_probe (exponents : Exponents) (name : String) :
    exponents.character (Expr.probe name) = 2 ^ exponents name := by
  have factor : ∀ (other : String) (exponent : ℤ), ((Expr.probe name other : ℚˣ) : ℚ) ^ exponent =
      if other = name then 2 ^ exponent else 1 := by
    intro other exponent
    by_cases same : other = name
    · simp [Expr.probe, same]
    · simp [Expr.probe, same]
  change (exponents.prod fun other exponent => (Expr.probe name other : ℚ) ^ exponent) = _
  rw [Finsupp.prod, Finset.prod_congr rfl fun other _ => factor other (exponents other)]
  by_cases present : name ∈ exponents.support
  · simp [present]
  · rw [Finset.prod_eq_one, Finsupp.notMem_support_iff.mp present, zpow_zero]
    intro other member
    rw [if_neg]
    rintro rfl
    exact present member

/-- Different monomials have different values somewhere. -/
theorem character_injective : Function.Injective character := by
  intro left right same
  ext name
  have value := left.character_probe name
  rw [same, right.character_probe] at value
  exact zpow_right_injective₀ (by norm_num) (by norm_num) value.symm

end Exponents

namespace Collected

open AddMonoidAlgebra

/-- The value of every monomial at nonzero values of the symbols. -/
noncomputable def powers (assignment : Expr.Assignment) : Multiplicative Exponents →* ℚ where
  toFun exponents := exponents.toAdd.character assignment
  map_one' := Exponents.character_zero assignment
  map_mul' left right := Exponents.character_add left.toAdd right.toAdd assignment

/-- The value at nonzero values of the symbols. -/
noncomputable def eval (assignment : Expr.Assignment) : Collected →ₐ[ℚ] ℚ :=
  AddMonoidAlgebra.lift ℚ ℚ Exponents (powers assignment)

/-- The value of one weighted monomial. -/
theorem eval_single (assignment : Expr.Assignment) (exponents : Exponents) (value : ℚ) :
    eval assignment (single exponents value) = value * exponents.character assignment :=
  AddMonoidAlgebra.lift_single (powers assignment) exponents value

/-- The values determine the sum. -/
theorem eq_of_eval_eq {left right : Collected}
    (same : ∀ assignment, eval assignment left = eval assignment right) : left = right := by
  have independent := (linearIndependent_monoidHom Expr.Assignment ℚ).comp _
    Exponents.character_injective
  apply coeff_injective
  apply independent.finsuppLinearCombination_injective
  have values : ∀ (sum : Collected) (assignment : Expr.Assignment),
      Finsupp.linearCombination ℚ
        ((fun χ : Expr.Assignment →* ℚ => (χ : Expr.Assignment → ℚ)) ∘ Exponents.character)
        sum.coeff
        assignment = eval assignment sum := by
    intro sum assignment
    rw [eval, AddMonoidAlgebra.lift_apply, Finsupp.linearCombination_apply, Finsupp.sum,
      Finset.sum_apply]
    rfl
  funext assignment
  rw [values, values, same]

end Collected

namespace Expr

open AddMonoidAlgebra

/-- A power of a tree with a collected sum. A symbol has all integer powers, all other trees have
the natural ones. -/
noncomputable def collectedPower (base : Expr) (sum : Collected) (exponent : ℤ) : Collected :=
  match base with
  | .sym name => single (Finsupp.single name exponent) 1
  | _ => sum ^ exponent.toNat

mutual

/-- The collected sum of a Laurent polynomial. -/
noncomputable def collected : Expr → Collected
  | .num value => single 0 value
  | .sym name => single (Finsupp.single name 1) 1
  | .add terms => (collectedEach terms).sum
  | .mul factors => (collectedEach factors).prod
  | .pow base exponent => collectedPower base (collected base) exponent.val
  | .vector _ | .call _ _ => 0

/-- The collected sums of all expressions of a list. -/
noncomputable def collectedEach : List Expr → List Collected
  | [] => []
  | e :: rest => collected e :: collectedEach rest

end

/-- Several trees are collected one by one. -/
theorem collectedEach_eq_map (es : List Expr) : collectedEach es = es.map collected := by
  induction es with
  | nil => rfl
  | cons e rest ih => simp [collectedEach, ih]

/-- A number is collected as a constant. -/
theorem collected_num (value : Rat) : (Expr.num value).collected = single 0 value :=
  rfl

/-- A symbol is collected as a monomial of its own. -/
theorem collected_sym (name : String) :
    (Expr.sym name).collected = single (Finsupp.single name 1) 1 :=
  rfl

/-- A sum is collected as the sum of its terms. -/
theorem collected_add (terms : List Expr) :
    (Expr.add terms).collected = (terms.map collected).sum :=
  congrArg List.sum (collectedEach_eq_map terms)

/-- A product is collected as the product of its factors. -/
theorem collected_mul (factors : List Expr) :
    (Expr.mul factors).collected = (factors.map collected).prod :=
  congrArg List.prod (collectedEach_eq_map factors)

/-- A power is collected by the exponent of its base. -/
theorem collected_pow (base : Expr) (exponent : Exponent) :
    (Expr.pow base exponent).collected = collectedPower base base.collected exponent.val :=
  rfl

/-- A power has the power of the value, if only symbols have negative powers. -/
theorem eval_collectedPower {base : Expr} {exponent : ℤ} (assignment : Assignment)
    (value : base.valueIn assignment.reading = Collected.eval assignment base.collected)
    (symbol : exponent < 0 → ∃ name, base = .sym name) :
    Collected.eval assignment (collectedPower base base.collected exponent) =
      base.valueIn assignment.reading ^ exponent := by
  unfold collectedPower
  split
  · rw [Collected.eval_single, valueIn_sym, one_mul, Exponents.character_single]
    rfl
  · rename_i notSymbol
    have positive : 0 ≤ exponent := by
      by_contra negative
      obtain ⟨name, isSymbol⟩ := symbol (not_le.mp negative)
      exact notSymbol name isSymbol
    rw [map_pow, ← value, ← zpow_natCast, Int.toNat_of_nonneg positive]

/-- A Laurent polynomial has the values of its collected sum. -/
theorem Laurent.valueIn_eq_eval {e : Expr} (laurent : e.Laurent) (assignment : Assignment) :
    e.valueIn assignment.reading = Collected.eval assignment e.collected := by
  induction e with
  | num value =>
    rw [valueIn_num, collected_num, Collected.eval_single, Exponents.character_zero, mul_one]
    rfl
  | sym name =>
    rw [valueIn_sym, collected_sym, Collected.eval_single, Exponents.character_single, one_mul,
      zpow_one]
    rfl
  | add terms ih =>
    rw [valueIn_add, collected_add, map_list_sum, List.map_map]
    exact congrArg List.sum
      (List.map_congr_left fun term member => ih term member (laurent.arg member))
  | mul factors ih =>
    rw [valueIn_mul, collected_mul, map_list_prod, List.map_map]
    exact congrArg List.prod
      (List.map_congr_left fun factor member => ih factor member (laurent.arg member))
  | pow base exponent ih =>
    obtain ⟨node, parts⟩ := laurent_iff.mp laurent
    rw [valueIn_pow, collected_pow,
      eval_collectedPower assignment (ih (parts base (by simp [args]))) node]
  | vector components => exact (laurent_iff.mp laurent).1.elim
  | call head args => exact (laurent_iff.mp laurent).1.elim

end Expr

end FiniteVolume
