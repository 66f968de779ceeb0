import FiniteVolume.Proofs.Value.Basic

/-!
# Values of sums, products and powers

Canonical sums, products and powers have the sum, product and power of the values of their operands.
Products and powers need operands that are defined: like factors are collected by adding exponents,
and a factor that cancels must not have been zero.
-/

namespace FiniteVolume.Expr

variable {K : Type*} [Field K] {reading : Interpretation K}

/-- A quantity of members that come from several parts adds up part by part. -/
theorem sum_map_flatMap {α β M : Type*} [AddMonoid M] (parts : α → List β) (quantity : β → M)
    (members : List α) :
    ((members.flatMap parts).map quantity).sum =
      (members.map fun member => ((parts member).map quantity).sum).sum := by
  rw [List.map_flatMap, List.flatMap_def, List.sum_flatten, List.map_map]
  rfl

/-- A quantity of members that come from several parts multiplies part by part. -/
theorem prod_map_flatMap {α β M : Type*} [Monoid M] (parts : α → List β) (quantity : β → M)
    (members : List α) :
    ((members.flatMap parts).map quantity).prod =
      (members.map fun member => ((parts member).map quantity).prod).prod :=
  sum_map_flatMap (M := Additive M) parts quantity members

/-- The values of its summands add up to the value of a tree. -/
theorem sum_valueIn_summands (e : Expr) :
    (e.summands.map (valueIn reading)).sum = e.valueIn reading := by
  induction e with
  | add terms ih =>
    rw [summands, summandsOfAll_eq_flatMap, valueIn_add, sum_map_flatMap]
    exact congrArg List.sum (List.map_congr_left ih)
  | _ => simp [summands]

/-- The values of its loose factors multiply to the value of a tree. -/
theorem prod_valueIn_looseFactors (e : Expr) :
    (e.looseFactors.map (valueIn reading)).prod = e.valueIn reading := by
  induction e with
  | mul factors ih =>
    rw [looseFactors, looseFactorsOfAll_eq_flatMap, valueIn_mul, prod_map_flatMap]
    exact congrArg List.prod (List.map_congr_left ih)
  | _ => simp [looseFactors]

/-- Collecting like terms keeps the value of the sum. -/
theorem valueIn_ofTerms (terms : List Expr) :
    (ofTerms terms).valueIn reading = (terms.map (valueIn reading)).sum := by
  match terms with
  | [] => simp [ofTerms, zero]
  | [term] => simp [ofTerms]
  | first :: second :: rest => exact valueIn_add _

/-- Sorting does not change a sum of values. -/
theorem sum_map_sort (es : List Expr) :
    ((sort es).map (valueIn reading)).sum = (es.map (valueIn reading)).sum :=
  ((sort_perm es).map _).sum_eq

/-- Sorting does not change a product of values. -/
theorem prod_map_sort (es : List Expr) :
    ((sort es).map (valueIn reading)).prod = (es.map (valueIn reading)).prod :=
  ((sort_perm es).map _).prod_eq

/-- A product of powers is the power of the product. -/
theorem prod_map_zpow (es : List Expr) (exponent : Int) :
    (es.map fun e => e.valueIn reading ^ exponent).prod =
      (es.map (valueIn reading)).prod ^ exponent := by
  induction es with
  | nil => simp
  | cons e rest ih =>
    rw [List.map_cons, List.map_cons, List.prod_cons, List.prod_cons, ih, mul_zpow]

/-- The values of its factors multiply to the value of a tree. -/
theorem prod_valueIn_factors (e : Expr) :
    (e.factors.map (valueIn reading)).prod = e.valueIn reading := by
  cases e <;> simp [factors, valueIn_mul]

/-- The exponents zero and one are the same for all bases. -/
theorem valueIn_small_power {e result : Expr} {exponent : Exponent} {other : Option Expr}
    (raised : (if exponent.val = 0 then some one else if exponent.val = 1 then some e else other) =
      some result)
    (otherwise : other = some result → result.valueIn reading = e.valueIn reading ^ exponent.val) :
    result.valueIn reading = e.valueIn reading ^ exponent.val := by
  split at raised
  · rename_i isZero
    cases raised
    simp [one, isZero]
  · split at raised
    · rename_i isOne
      cases raised
      simp [isOne]
    · exact otherwise raised

/-- A coefficient multiplies the value of a monomial. -/
theorem valueIn_scale (coefficient : Rat) (monomial : Expr) :
    (scale coefficient monomial).valueIn reading =
      (coefficient : K) * monomial.valueIn reading := by
  unfold scale
  split
  · rename_i isOne
    simp [isOne]
  · cases monomial <;> simp [valueIn_mul]

/-- A coefficient that is split off multiplies what is left to the value of the tree. -/
theorem valueIn_splitCoefficient (e : Expr) :
    (e.splitCoefficient.1 : K) * e.splitCoefficient.2.valueIn reading = e.valueIn reading := by
  rcases splitCoefficient_cases e with ⟨c, factor, rfl, split⟩ | ⟨c, factors, rfl, -, split⟩ | split
  all_goals rw [split]
  · simp [valueIn_mul]
  · simp [valueIn_mul]
  · simp

namespace LikeTerms

/-- The value of a sum whose like terms are collected. -/
def valueIn (reading : Interpretation K) (collected : LikeTerms) : K :=
  (collected.constant : K) +
    collected.coefficients.total fun monomial coefficient =>
      (coefficient : K) * monomial.valueIn reading

/-- The values of the collected terms add up to the value of the collection. -/
theorem sum_valueIn_toTerms (collected : LikeTerms) :
    (collected.toTerms.map (Expr.valueIn reading)).sum = collected.valueIn reading := by
  have kept : ∀ tally : Tally Rat,
      (((tally.filter fun entry => keeps entry.1 entry.2).map
        fun entry => scale entry.2 entry.1).map (Expr.valueIn reading)).sum =
      tally.total fun monomial coefficient => (coefficient : K) * monomial.valueIn reading := by
    intro tally
    induction tally with
    | nil => rfl
    | cons entry rest ih =>
      have total : Tally.total (fun monomial coefficient =>
          ((coefficient : Rat) : K) * monomial.valueIn reading) (entry :: rest) =
          (entry.2 : K) * entry.1.valueIn reading + Tally.total (fun monomial coefficient =>
            ((coefficient : Rat) : K) * monomial.valueIn reading) rest := rfl
      rw [total, ← ih]
      rw [List.filter_cons]
      split
      · rw [List.map_cons, List.map_cons, List.sum_cons, valueIn_scale]
      · rename_i dropped
        have isZero : entry.2 = 0 := by
          by_contra nonzero
          exact dropped (by simp [keeps, nonzero])
        rw [isZero]
        simp
  rw [toTerms, sum_map_sort, valueIn, ← kept]
  split
  · rename_i isZero
    simp [isZero]
  · simp [add_comm]

end LikeTerms

variable [CharZero K]

namespace LikeTerms

/-- Collecting like terms adds up their values. -/
theorem valueIn_ofTerms (terms : List Expr) :
    (ofTerms terms).valueIn reading = (terms.map (Expr.valueIn reading)).sum := by
  induction terms with
  | nil => simp [ofTerms, valueIn, Tally.total]
  | cons term rest ih =>
    have step : (insert term (ofTerms rest)).valueIn reading =
        (ofTerms rest).valueIn reading + term.valueIn reading := by
      cases isNum : term.isNum with
      | true =>
        obtain ⟨number, rfl⟩ := eq_num_of_isNum isNum
        rw [insert_num, valueIn, valueIn, valueIn_num]
        push_cast
        ring
      | false =>
        rw [insert_of_not_num isNum, valueIn, valueIn, ← valueIn_splitCoefficient term, add_assoc]
        congr 1
        refine Tally.total_insert (ascending_ofTerms rest) (fun before found => ?_) fun absent => ?_
        · rw [found, Option.getD_some]
          push_cast
          ring
        · rw [absent, Option.getD_none]
          push_cast
          ring
    exact step.trans (by rw [ih, List.map_cons, List.sum_cons, add_comm])

end LikeTerms

/-- A canonical sum has the sum of the values of its terms. -/
theorem valueIn_sum (es : List Expr) :
    (sum es).valueIn reading = (es.map (valueIn reading)).sum := by
  rw [sum, Expr.valueIn_ofTerms, LikeTerms.sum_valueIn_toTerms, LikeTerms.valueIn_ofTerms,
    summandsOfAll_eq_flatMap, sum_map_flatMap]
  exact congrArg List.sum (List.map_congr_left fun e _ => sum_valueIn_summands e)

namespace LikeFactors

/-- The value of a product whose like factors are collected. -/
def valueIn (reading : Interpretation K) (collected : LikeFactors) : K :=
  (collected.coefficient : K) *
    collected.exponents.product fun base exponent => base.valueIn reading ^ exponent.val

omit [CharZero K] in
/-- Multiplying by a power multiplies the value, unless a negative power of zero cancels. -/
theorem valueIn_insertPower {collected after : LikeFactors} {base : Expr} {exponent : Exponent}
    (ascending : collected.exponents.Ascending)
    (entries : ∀ entry ∈ collected.exponents, entry.2.val < 0 → entry.1.valueIn reading ≠ 0)
    (new : exponent.val < 0 → base.valueIn reading ≠ 0)
    (inserted : collected.insertPower base exponent = some after) :
    after.valueIn reading = collected.valueIn reading * base.valueIn reading ^ exponent.val := by
  obtain ⟨total, added, same⟩ := Option.bind_eq_some_iff.mp inserted
  cases same
  have exponents := Exponent.val_of_add? added
  rw [valueIn, valueIn, mul_assoc]
  congr 1
  refine Tally.product_insert ascending (fun before found => ?_) fun absent => ?_
  · rw [found, Option.getD_some] at exponents
    rw [exponents]
    refine zpow_add' ?_
    by_cases isZero : base.valueIn reading = 0
    · have old := entries _ (Tally.mem_of_get? found)
      have before_nonneg : ¬before.val < 0 := fun negative => old negative isZero
      have exponent_nonneg : ¬exponent.val < 0 := fun negative => new negative isZero
      omega
    · exact Or.inl isZero
  · rw [absent, Option.getD_none] at exponents
    rw [exponents, Exponent.zero, zero_add]

/-- Collecting like factors multiplies their values. -/
theorem valueIn_ofFactors {factors : List Expr}
    (defined : ∀ factor ∈ factors, factor.Defined reading) {collected : LikeFactors}
    (collects : ofFactors factors = some collected) :
    collected.valueIn reading = (factors.map (Expr.valueIn reading)).prod := by
  induction factors generalizing collected with
  | nil =>
    cases collects
    simp [valueIn, Tally.product]
  | cons factor rest ih =>
    obtain ⟨first, later⟩ := List.forall_mem_cons.mp defined
    obtain ⟨before, collectsRest, inserted⟩ := Option.bind_eq_some_iff.mp collects
    obtain ⟨ascending, entries⟩ :=
      (hereditary_defined reading).composed.likeFactors later collectsRest
    have powers : ∀ entry ∈ before.exponents, entry.2.val < 0 → entry.1.valueIn reading ≠ 0 :=
      fun entry member => (entries entry member).2
    rw [List.map_cons, List.prod_cons, ← ih later collectsRest, mul_comm]
    have single : before.insertPower factor Exponent.one = some collected →
        collected.valueIn reading = before.valueIn reading * factor.valueIn reading := by
      intro inserted
      rw [valueIn_insertPower ascending powers
        (fun negative => absurd negative (show ¬Exponent.one.val < 0 by decide)) inserted]
      simp [Exponent.one]
    cases factor with
    | num number =>
      cases inserted
      rw [valueIn, valueIn, valueIn_num]
      push_cast
      ring
    | pow base exponent =>
      rw [valueIn_pow]
      exact valueIn_insertPower ascending powers
        ((hereditary_defined reading).pow_iff base exponent |>.mp first).2 inserted
    | _ => exact single inserted

end LikeFactors

/-- How products are formed inside a product: of defined factors, with the product of their
values. -/
def Multiplies (reading : Interpretation K) (product : List Expr → Option Expr) : Prop :=
  ∀ es e, product es = some e → (∀ x ∈ es, x.Defined reading) →
    e.Defined reading ∧ e.valueIn reading = (es.map (valueIn reading)).prod

/-- A power has the power of the value of its base. -/
theorem valueIn_raise {product : List Expr → Option Expr} (multiplies : Multiplies reading product)
    (e : Expr) :
    ∀ exponent result, raise product e exponent = some result → e.Defined reading →
      (exponent.val < 0 → e.valueIn reading ≠ 0) →
      result.valueIn reading = e.valueIn reading ^ exponent.val := by
  induction e with
  | num number =>
    intro exponent result raised _ nonzero
    unfold raise at raised
    refine valueIn_small_power raised fun raised => ?_
    dsimp only at raised
    split at raised
    · rename_i singular
      exact absurd (by simp [singular.1]) (nonzero singular.2)
    · cases raised
      rw [Rational.power_eq_zpow, valueIn_num, valueIn_num]
      exact Rat.cast_zpow number exponent.val
  | pow base inner ih =>
    intro exponent result raised defined nonzero
    unfold raise at raised
    refine valueIn_small_power raised fun raised => ?_
    obtain ⟨total, multiplied, raised⟩ := Option.bind_eq_some_iff.mp raised
    obtain ⟨definedBase, innerBase⟩ := ((hereditary_defined reading).pow_iff _ _).mp defined
    have exponents := Exponent.val_of_mul? multiplied
    rw [ih total result raised definedBase fun negative => ?_, valueIn_pow, exponents, zpow_mul]
    rw [exponents] at negative
    rcases mul_neg_iff.mp negative with ⟨positive, negative⟩ | ⟨negative, -⟩
    · exact (hereditary_defined reading).base_of_pow _ _ (nonzero negative) (ne_of_gt positive)
    · exact innerBase negative
  | mul factors ih =>
    intro exponent result raised defined nonzero
    unfold raise at raised
    refine valueIn_small_power raised fun raised => ?_
    obtain ⟨powers, raised, multiplied⟩ := Option.bind_eq_some_iff.mp raised
    rw [raiseAll_eq_mapM] at raised
    have definedFactors := ((hereditary_defined reading).mul_iff _).mp defined
    have bases : ∀ factor ∈ factors, exponent.val < 0 → factor.valueIn reading ≠ 0 :=
      fun factor member negative =>
        (hereditary_defined reading).base_of_mul _ (nonzero negative) factor member
    have values := map_eq_of_mapM raised (fun e => e.valueIn reading ^ exponent.val)
      fun factor member power raises =>
        ih factor member exponent power raises (definedFactors factor member) (bases factor member)
    rw [(multiplies powers result multiplied fun power present => ?_).2, values, prod_map_zpow,
      valueIn_mul]
    obtain ⟨factor, member, raises⟩ := exists_of_mem_mapM raised present
    exact (hereditary_defined reading).composed.raise (fun es e defined holds =>
      (multiplies es e defined holds).1) factor exponent power raises (definedFactors factor member)
      (bases factor member)
  | _ =>
    intro exponent result raised _ _
    unfold raise at raised
    refine valueIn_small_power raised fun raised => ?_
    cases raised
    exact valueIn_pow _ _

/-- Collecting like factors keeps the value of the product. -/
theorem valueIn_ofFactors {product : List Expr → Option Expr}
    (multiplies : Multiplies reading product) {coefficient : Rat} {factors : List Expr}
    {result : Expr} (formed : ofFactors product coefficient factors = some result)
    (defined : ∀ factor ∈ factors, factor.Defined reading) :
    result.valueIn reading = (coefficient : K) * (factors.map (valueIn reading)).prod := by
  unfold ofFactors at formed
  split at formed
  · cases formed
    simp
  · rename_i terms
    split at formed
    · rename_i isOne
      cases formed
      simp [isOne]
    · obtain ⟨scaled, multiplied, same⟩ := Option.bind_eq_some_iff.mp formed
      cases same
      have definedTerms := ((hereditary_defined reading).add_iff terms).mp
        (defined _ List.mem_cons_self)
      have values := map_eq_of_mapM multiplied
        (fun term => (coefficient : K) * term.valueIn reading) (h := valueIn reading)
        fun term member e multiplied => by
          rw [(multiplies _ e multiplied (forall_mem_pair
            ⟨(hereditary_defined reading).num _, definedTerms term member⟩)).2]
          simp
      rw [valueIn_sum, values, List.sum_map_mul_left, List.map_singleton, List.prod_singleton,
        valueIn_add]
  · cases formed
    simp [valueIn_scale]
  · split at formed
    · rename_i isOne
      cases formed
      simp [valueIn_mul, isOne]
    · cases formed
      simp [valueIn_mul]

/-- The numbers among some factors, multiplied to a coefficient, and the other factors have the
product of all values. -/
theorem prod_split_numbers (reading : Interpretation K) (factors : List Expr) (coefficient : Rat) :
    (((factors.filterMap value?).foldl (· * ·) coefficient : Rat) : K) *
        ((factors.filter fun factor => !factor.isNum).map (valueIn reading)).prod =
      (coefficient : K) * (factors.map (valueIn reading)).prod := by
  induction factors generalizing coefficient with
  | nil => simp
  | cons factor rest ih =>
    cases isNum : factor.isNum with
    | true =>
      obtain ⟨number, rfl⟩ := eq_num_of_isNum isNum
      rw [List.filterMap_cons_some (f := value?) (b := number) rfl, List.foldl_cons,
        List.filter_cons_of_neg (by simp [isNum]), ih, List.map_cons, List.prod_cons, valueIn_num]
      push_cast
      ring
    | false =>
      have noValue : factor.value? = none := by simpa [Expr.isNum] using isNum
      rw [List.filterMap_cons_none noValue, List.filter_cons_of_pos (by simp [isNum]),
        List.map_cons, List.map_cons, List.prod_cons, List.prod_cons, mul_left_comm, ih]
      ring

/-- A product of defined factors has the product of their values, however deep products open inside
one another. -/
theorem multiplies_prodToDepth (depth : Nat) : Multiplies reading (prodToDepth depth) := by
  induction depth with
  | zero =>
    intro es e defined holds
    cases defined
    exact ⟨((hereditary_defined reading).mul_iff es).mpr holds, valueIn_mul es⟩
  | succ depth ih =>
    intro es e formed holds
    have composed := (hereditary_defined reading).composed
    refine ⟨composed.prodToDepth _ es e formed holds, ?_⟩
    have products : ∀ es e, prodToDepth depth es = some e → (∀ x ∈ es, x.Defined reading) →
        e.Defined reading := fun es e formed holds => (ih es e formed holds).1
    obtain ⟨collected, collects, formed⟩ := Option.bind_eq_some_iff.mp formed
    have definedFactors := composed.looseFactorsOfAll holds
    have entries := (composed.likeFactors definedFactors collects).2
    have value : collected.valueIn reading = (es.map (valueIn reading)).prod := by
      rw [LikeFactors.valueIn_ofFactors definedFactors collects, looseFactorsOfAll_eq_flatMap,
        prod_map_flatMap]
      exact congrArg List.prod (List.map_congr_left fun e _ => prod_valueIn_looseFactors e)
    rw [← value, LikeFactors.valueIn]
    split at formed
    · rename_i vanishes
      cases formed
      simp [zero, vanishes.1]
    · obtain ⟨powers, raised, formed⟩ := Option.bind_eq_some_iff.mp formed
      dsimp only at formed
      have exponents : (powers.map (valueIn reading)).prod =
          collected.exponents.product fun base exponent =>
            base.valueIn reading ^ exponent.val := by
        rw [map_eq_of_mapM raised
          (fun entry => entry.1.valueIn reading ^ entry.2.val)
          fun entry inside power raises => valueIn_raise ih entry.1 entry.2 power raises
            (entries entry inside).1 (entries entry inside).2]
        rfl
      have split := prod_split_numbers reading (powers.flatMap factors)
        collected.coefficient
      rw [prod_map_flatMap, List.map_congr_left fun e _ => prod_valueIn_factors e, exponents]
        at split
      rw [← split]
      split at formed
      · rename_i vanishes
        cases formed
        simp [zero, vanishes.1]
      · rw [valueIn_ofFactors ih formed fun factor member => ?_, prod_map_sort]
        rw [mem_sort] at member
        obtain ⟨power, present, member⟩ := List.mem_flatMap.mp (List.mem_filter.mp member).1
        obtain ⟨entry, inside, raises⟩ := exists_of_mem_mapM raised present
        exact composed.factors (composed.raise products entry.1 entry.2 power raises
          (entries entry inside).1 (entries entry inside).2) factor member

/-- A canonical product of defined factors has the product of their values. -/
theorem valueIn_prod {es : List Expr} {result : Expr} (formed : prod es = some result)
    (defined : ∀ e ∈ es, e.Defined reading) :
    result.valueIn reading = (es.map (valueIn reading)).prod :=
  (multiplies_prodToDepth _ es result formed defined).2

/-- A canonical power has the power of the value of its base. -/
theorem valueIn_power {e result : Expr} {exponent : Exponent}
    (formed : power e exponent = some result) (defined : e.Defined reading)
    (nonzero : exponent.val < 0 → e.valueIn reading ≠ 0) :
    result.valueIn reading = e.valueIn reading ^ exponent.val :=
  valueIn_raise (multiplies_prodToDepth _) e exponent result formed defined nonzero

/-- The value of a negative is the negative of the value. -/
theorem valueIn_neg {e result : Expr} (formed : neg e = some result) (defined : e.Defined reading) :
    result.valueIn reading = -e.valueIn reading := by
  rw [valueIn_prod formed (forall_mem_pair ⟨(hereditary_defined reading).num _, defined⟩)]
  simp [int]

/-- The value of a difference is the difference of the values. -/
theorem valueIn_sub {left right result : Expr} (formed : sub left right = some result)
    (defined : right.Defined reading) :
    result.valueIn reading = left.valueIn reading - right.valueIn reading := by
  obtain ⟨negated, negates, same⟩ := Option.bind_eq_some_iff.mp formed
  cases same
  rw [valueIn_sum, List.map_cons, List.map_singleton, List.sum_cons, List.sum_singleton,
    valueIn_neg negates defined, sub_eq_add_neg]

/-- The value of a quotient is the quotient of the values. -/
theorem valueIn_quot {left right result : Expr} (formed : quot left right = some result)
    (definedLeft : left.Defined reading) (definedRight : right.Defined reading)
    (nonzero : right.valueIn reading ≠ 0) :
    result.valueIn reading = left.valueIn reading / right.valueIn reading := by
  obtain ⟨inverse, inverts, multiplied⟩ := Option.bind_eq_some_iff.mp formed
  have definedInverse : inverse.Defined reading :=
    (hereditary_defined reading).power inverts definedRight fun _ => nonzero
  rw [valueIn_prod multiplied (forall_mem_pair ⟨definedLeft, definedInverse⟩), List.map_cons,
    List.map_singleton, List.prod_cons, List.prod_singleton,
    valueIn_power inverts definedRight fun _ => nonzero, show Exponent.negOne.val = -1 from rfl,
    zpow_neg_one, div_eq_mul_inv]

end FiniteVolume.Expr
