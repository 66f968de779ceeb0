import FiniteVolume.Proofs.Canonical.Calls
import FiniteVolume.Proofs.Canonical.Nesting

/-!
# Termination of the constructors

Every call of a constructor comes to an end, whatever its operands are: after finitely many steps it
returns the value that the library gives it, or stops because an exponent overflows
(`constructors_terminate`). It follows that the bound on the recursion of a product is none: a
greater one gives the same product (`prodToDepth_eq_prod`).

The loops over stacks end because dissolving an operand leaves only parts of it on the stack. For
products that call powers, sums that are distributed and products again, the operands may grow, but
a product that is opened inside another one nests less deeply than its operands. The proof is an
induction on this depth (`productsEnd`).
-/

namespace FiniteVolume.Construction

open FiniteVolume.Expr

namespace Program

section Sums

variable {collected : LikeTerms} {stack : List Expr} {value? : Option Expr}

/-- The loop of a sum goes through a list of terms if it goes through each of them. -/
theorem Ends.dissolveTerms {es : List Expr}
    (each : ∀ e ∈ es, ∀ {collected : LikeTerms} {stack : List Expr} {value? : Option Expr},
      (addTerms (e.summands.foldr LikeTerms.insert collected) stack).Ends value? →
        (addTerms collected (e :: stack)).Ends value?)
    (ends : (addTerms ((summandsOfAll es).foldr LikeTerms.insert collected) stack).Ends value?) :
    (addTerms collected (es.reverse ++ stack)).Ends value? := by
  induction es generalizing stack with
  | nil => exact ends
  | cons e rest ih =>
    obtain ⟨first, later⟩ := List.forall_mem_cons.mp each
    rw [summandsOfAll, List.foldr_append] at ends
    rw [List.reverse_cons, List.append_assoc, List.singleton_append]
    exact ih later (first ends)

/-- The topmost term is dissolved into its summands, and these are collected. -/
theorem Ends.dissolveTerm (e : Expr) :
    ∀ {collected : LikeTerms} {stack : List Expr} {value? : Option Expr},
      (addTerms (e.summands.foldr LikeTerms.insert collected) stack).Ends value? →
        (addTerms collected (e :: stack)).Ends value? := by
  induction e with
  | add terms ih =>
    intro collected stack value? ends
    exact Ends.callLast (Ends.dissolveTerms ih ends)
  | _ => exact fun ends => Ends.callLast ends

/-- Sums end. -/
theorem ends_sum (terms : List Expr) : (Call.sum terms).body.Ends (some (sum terms)) := by
  have ends : (addTerms {} (terms.reverse ++ [])).Ends (some (sum terms)) :=
    Ends.dissolveTerms (fun e _ => Ends.dissolveTerm e) (ends_answer (sum terms))
  rw [List.append_nil] at ends
  exact Ends.callLast ends

end Sums

section Factors

variable {collected : LikeFactors} {stack : List Expr} {rest : LikeFactors → Option Expr}

/-- A power of a base is collected, or its exponent overflows. -/
theorem ends_multiplyPower {base : Expr} {exponent : Exponent}
    (continues : ∀ next, collected.insertPower base exponent = some next →
      (multiplyFactors next stack).Ends (rest next)) :
    (multiplyPower collected base exponent stack).Ends
      ((collected.insertPower base exponent).bind rest) := by
  let before := (collected.exponents.get? base).getD Exponent.zero
  let after := fun total => { collected with exponents := collected.exponents.insert base total }
  have inserted : (collected.insertPower base exponent).bind rest =
      (Exponent.ofInt? (before.val + exponent.val)).bind fun total => rest (after total) :=
    Option.bind_assoc _ _ _
  rw [inserted]
  refine Ends.checked fun total added => Ends.callLast (continues (after total) ?_)
  exact Option.bind_eq_some_iff.mpr ⟨total, added, rfl⟩

/-- A factor that is no product is collected. -/
theorem ends_insert {factor : Expr} (notMul : ∀ factors, factor ≠ .mul factors)
    (continues : ∀ next, LikeFactors.insert factor collected = some next →
      (multiplyFactors next stack).Ends (rest next)) :
    (multiplyFactors collected (factor :: stack)).Ends
      ((LikeFactors.insert factor collected).bind rest) := by
  cases factor with
  | mul factors => exact absurd rfl (notMul factors)
  | num value => exact Ends.callLast (continues _ rfl)
  | _ => exact ends_multiplyPower continues

/-- The loop of a product goes through a list of factors if it goes through each of them. -/
theorem ends_dissolveFactors {es : List Expr}
    (each : ∀ e ∈ es, ∀ {collected : LikeFactors} {stack : List Expr}
      {rest : LikeFactors → Option Expr},
      (∀ next, e.looseFactors.foldrM LikeFactors.insert collected = some next →
        (multiplyFactors next stack).Ends (rest next)) →
      (multiplyFactors collected (e :: stack)).Ends
        ((e.looseFactors.foldrM LikeFactors.insert collected).bind rest)) :
    ∀ {stack : List Expr} {rest : LikeFactors → Option Expr},
      (∀ next, (looseFactorsOfAll es).foldrM LikeFactors.insert collected = some next →
        (multiplyFactors next stack).Ends (rest next)) →
      (multiplyFactors collected (es.reverse ++ stack)).Ends
        (((looseFactorsOfAll es).foldrM LikeFactors.insert collected).bind rest) := by
  induction es with
  | nil => exact fun continues => continues collected rfl
  | cons e others ih =>
    intro stack rest continues
    obtain ⟨first, later⟩ := List.forall_mem_cons.mp each
    have inOrder : (looseFactorsOfAll (e :: others)).foldrM LikeFactors.insert collected =
        ((looseFactorsOfAll others).foldrM LikeFactors.insert collected).bind fun next =>
          e.looseFactors.foldrM LikeFactors.insert next := List.foldrM_append
    rw [inOrder] at continues ⊢
    rw [List.reverse_cons, List.append_assoc, List.singleton_append, Option.bind_assoc]
    refine ih later fun between collects => first fun next collectsAll => continues next ?_
    exact Option.bind_eq_some_iff.mpr ⟨between, collects, collectsAll⟩

/-- The topmost factor is dissolved, and the factors in it are collected. -/
theorem ends_dissolveFactor (e : Expr) :
    ∀ {collected : LikeFactors} {stack : List Expr} {rest : LikeFactors → Option Expr},
      (∀ next, e.looseFactors.foldrM LikeFactors.insert collected = some next →
        (multiplyFactors next stack).Ends (rest next)) →
      (multiplyFactors collected (e :: stack)).Ends
        ((e.looseFactors.foldrM LikeFactors.insert collected).bind rest) := by
  induction e using induction_args with
  | step e ih =>
    intro collected stack rest continues
    by_cases isMul : ∃ factors, e = .mul factors
    · obtain ⟨factors, rfl⟩ := isMul
      exact Ends.callLast (ends_dissolveFactors ih continues)
    · have notMul : ∀ factors, e ≠ .mul factors := fun factors same => isMul ⟨factors, same⟩
      have single : e.looseFactors.foldrM LikeFactors.insert collected =
          LikeFactors.insert e collected := by
        rw [looseFactors_of_not_mul notMul, List.foldrM_cons, List.foldrM_nil, pure_bind]
      rw [single] at continues ⊢
      exact ends_insert notMul continues

/-- Factors are collected one after the other. -/
theorem foldrM_insert (factors : List Expr) :
    factors.foldrM LikeFactors.insert {} = LikeFactors.ofFactors factors := by
  induction factors with
  | nil => rfl
  | cons factor rest ih => rw [List.foldrM_cons, ih, LikeFactors.ofFactors]

/-- A product collects its factors, or an exponent overflows, and goes on with what is collected. -/
theorem ends_collect {factors : List Expr}
    (continues : ∀ collected, LikeFactors.ofFactors (looseFactorsOfAll factors) = some collected →
      (raiseBases collected).Ends (rest collected)) :
    (Call.product factors).body.Ends
      ((LikeFactors.ofFactors (looseFactorsOfAll factors)).bind rest) := by
  rw [← foldrM_insert] at continues ⊢
  have ends : (multiplyFactors {} (factors.reverse ++ [])).Ends
      (((looseFactorsOfAll factors).foldrM LikeFactors.insert {}).bind rest) :=
    ends_dissolveFactors (fun e _ => ends_dissolveFactor e) continues
  rw [List.append_nil] at ends
  exact Ends.callLast ends

end Factors

/-- The loop of a power of a number multiplies as often as it was asked to, and does not invert
zero. -/
theorem ends_multiplyNumber (value : Rat) (inverted : Bool) (remaining : Nat) :
    ∀ accumulated, (inverted = true → accumulated * value ^ remaining ≠ 0) →
      (multiplyNumber accumulated value inverted remaining).Ends
        (some (.num (if inverted then (accumulated * value ^ remaining)⁻¹
          else accumulated * value ^ remaining))) := by
  induction remaining with
  | zero =>
    intro accumulated nonzero
    rw [pow_zero, mul_one] at nonzero ⊢
    cases inverted with
    | false => exact ends_answer _
    | true => exact ends_reciprocal (nonzero rfl)
  | succ remaining ih =>
    intro accumulated nonzero
    rw [pow_succ', ← mul_assoc] at nonzero ⊢
    exact Ends.callLast (ih (accumulated * value) nonzero)

/-- Powers of numbers end, unless zero is inverted. -/
theorem ends_numberPower {value : Rat} {exponent : Int} (defined : ¬(value = 0 ∧ exponent < 0)) :
    (Call.multiplyNumber 1 value exponent.natAbs (decide (exponent < 0))).body.Ends
      (some (.num (Rational.power value exponent))) := by
  have nonzero : decide (exponent < 0) = true → 1 * value ^ exponent.natAbs ≠ 0 := by
    intro negative
    rw [one_mul]
    exact pow_ne_zero _ fun isZero => defined ⟨isZero, of_decide_eq_true negative⟩
  have written : Rational.power value exponent =
      if decide (exponent < 0) then (1 * value ^ exponent.natAbs)⁻¹
        else 1 * value ^ exponent.natAbs := by
    rw [Rational.power_eq_zpow, one_mul]
    by_cases negative : exponent < 0
    · rw [decide_eq_true negative, if_pos rfl, ← zpow_natCast, ← zpow_neg,
        Int.ofNat_natAbs_of_nonpos negative.le, neg_neg]
    · rw [decide_eq_false negative, if_neg (by simp), ← zpow_natCast,
        Int.natAbs_of_nonneg (not_lt.mp negative)]
  rw [written]
  exact ends_multiplyNumber value (decide (exponent < 0)) exponent.natAbs 1 nonzero

/-- Raising a number or a generator calls nothing but the loop of a power of a number. -/
theorem ends_power_of_base {base : Expr} (isBase : base.isGenerator = true ∨ base.isNum = true)
    (product : List Expr → Option Expr) (exponent : Exponent) :
    (power base exponent).Ends (raise product base exponent) := by
  unfold power raise
  split
  · exact ends_answer one
  · split
    · exact ends_answer base
    · cases base with
      | num value =>
        dsimp only
        split
        · exact ends_answer _
        · rename_i defined
          exact Ends.callLast (ends_numberPower defined)
      | pow base inner => simp [isGenerator, isNum, value?] at isBase
      | mul factors => simp [isGenerator, isNum, value?] at isBase
      | _ => exact ends_answer _

/-- Products of operands that nest less than a depth end as they are formed to this depth. -/
def ProductsEnd (depth : Nat) : Prop :=
  ∀ es, productDepthOfAll es < depth → (Call.product es).body.Ends (prodToDepth depth es)

variable {depth : Nat}

/-- Powers of bases that nest less than a depth end if products do. -/
theorem ends_power (products : ProductsEnd depth) (e : Expr) : ∀ exponent,
    e.productDepth < depth → (power e exponent).Ends (raise (prodToDepth depth) e exponent) := by
  induction e using induction_args with
  | step e ih =>
    intro exponent deep
    by_cases isBase : e.isGenerator = true ∨ e.isNum = true
    · exact ends_power_of_base isBase _ exponent
    · unfold power raise
      split
      · exact ends_answer one
      · split
        · exact ends_answer e
        · cases e with
          | pow base inner =>
            have shallower := (productDepth_le_pow base inner).trans_lt deep
            exact Ends.checked fun total _ =>
              Ends.callLast (ih base List.mem_cons_self total shallower)
          | mul factors =>
            dsimp only
            rw [raiseAll_eq_mapM]
            refine Ends.callEach (fun factor member => ?_) fun powers raised => ?_
            · exact ih factor member exponent ((productDepth_le_of_mem member).trans_lt deep)
            · have within : productDepthOfAll powers ≤ productDepthOfAll factors :=
                productDepthOfAll_le_of_mapM raised fun factor _ =>
                  productDepth_raise_le (productDepth_prodToDepth_le depth) factor exponent
              exact Ends.callLast (products powers (within.trans_lt deep))
          | _ => simp [isGenerator, isNum, value?] at isBase

/-- Putting a product together ends if the terms of a sum that it is distributed over nest less than
products that end. -/
theorem ends_assemble (products : ProductsEnd depth) (coefficient : Rat) {factors : List Expr}
    (deep : productDepthOfAll factors ≤ depth) :
    (assemble coefficient factors).Ends (ofFactors (prodToDepth depth) coefficient factors) := by
  match factors with
  | [] => exact ends_answer _
  | [factor] =>
    cases factor with
    | add terms =>
      unfold assemble ofFactors
      dsimp only
      split
      · exact ends_answer _
      · refine Ends.callEach (fun term member => products _ ?_) fun scaled _ =>
          Ends.callLast (ends_sum scaled)
        have within : (Expr.add terms).productDepth ≤ depth :=
          (productDepth_le_of_mem List.mem_cons_self).trans deep
        have less : term.productDepth < depth :=
          (productDepth_lt_of_mem_terms member).trans_le within
        have positive : 0 < depth := Nat.zero_lt_of_lt less
        exact max_lt positive (max_lt less positive)
    | _ => exact ends_answer _
  | first :: second :: others => cases first <;> exact ends_answer _

/-- Products end, however deep they nest. -/
theorem productsEnd (depth : Nat) : ProductsEnd depth := by
  induction depth with
  | zero => exact fun es less => absurd less (Nat.not_lt_zero _)
  | succ depth ih =>
    intro es less
    have deep : productDepthOfAll es ≤ depth := Nat.le_of_lt_succ less
    refine ends_collect fun collected collects => ?_
    unfold raiseBases
    split
    · exact ends_answer zero
    · refine Ends.callEach (fun entry member => ?_) fun powers raised => ?_
      · obtain ⟨within, isBase | opens⟩ := depth_of_collects collects entry member
        · exact ends_power_of_base isBase _ _
        · exact ends_power ih entry.1 entry.2 (opens.trans_le deep)
      · dsimp only
        split
        · exact ends_answer zero
        · refine ends_assemble ih _ (productDepthOfAll_le_iff.mpr fun factor member => ?_)
          exact (productDepth_of_raised (productDepth_prodToDepth_le depth) collects raised factor
            member).trans deep

/-- Normalizing several trees ends if it ends for each. -/
theorem ends_normalizeEach {es : List Expr} {next : List Expr → Program}
    {rest : List Expr → Option Expr} (each : ∀ e ∈ es, (normalize e).Ends e.normalize)
    (continues : ∀ values, (next values).Ends (rest values)) :
    (normalizeEach es next).Ends ((replaceAllWith (fun _ => none) es).bind rest) := by
  rw [replaceAllWith_eq_mapM]
  exact Ends.callEach each fun values _ => continues values

/-- Normalization ends. -/
theorem ends_normalize (e : Expr) : (normalize e).Ends e.normalize := by
  induction e with
  | num value => exact ends_answer _
  | sym name => exact ends_answer _
  | add terms ih =>
    exact ends_normalizeEach ih fun terms => Ends.callLast (ends_sum terms)
  | mul factors ih =>
    exact ends_normalizeEach ih fun factors => Ends.callLast
      (productsEnd _ factors (Nat.lt_succ_self _))
  | pow base exponent ih =>
    exact Ends.call ih fun base _ => Ends.callLast
      (ends_power (productsEnd _) base exponent (Nat.lt_succ_self _))
  | vector components ih => exact ends_normalizeEach ih fun components => ends_answer _
  | call head args ih => exact ends_normalizeEach ih fun args => ends_answer _

end Program

/-- A greater bound on the recursion makes no difference to a product. -/
theorem prodToDepth_eq_prod {depth : Nat} {es : List Expr} (deep : productDepthOfAll es < depth) :
    prodToDepth depth es = prod es :=
  eq_of_terminates (terminates_of_ends (Program.productsEnd depth es deep))
    (terminates_of_ends (Program.productsEnd _ es (Nat.lt_succ_self _)))

/-- Sums, products, powers and normalization come to an end on every tree. Each of them returns
after finitely many steps, or stops after finitely many steps at an exponent that does not fit into
64 bits. -/
theorem constructors_terminate :
    (∀ terms, Terminates (.sum terms) (some (sum terms))) ∧
      (∀ factors, Terminates (.product factors) (prod factors)) ∧
      (∀ base exponent, Terminates (.power base exponent) (power base exponent)) ∧
      ∀ e : Expr, Terminates (.normalize e) e.normalize := by
  refine ⟨fun terms => ?_, fun factors => ?_, fun base exponent => ?_, fun e => ?_⟩
  · exact terminates_of_ends (Program.ends_sum terms)
  · exact terminates_of_ends (Program.productsEnd _ factors (Nat.lt_succ_self _))
  · have products := Program.productsEnd (base.productDepth + 1)
    exact terminates_of_ends (Program.ends_power products base exponent (Nat.lt_succ_self _))
  · exact terminates_of_ends (Program.ends_normalize e)

end FiniteVolume.Construction
