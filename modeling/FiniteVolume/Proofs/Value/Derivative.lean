import FiniteVolume.Proofs.Expr.Derivative
import FiniteVolume.Proofs.Value.Dual
import FiniteVolume.Proofs.Value.Substitution

/-!
# Derivatives are exact

The derivative of an expression has the rate of the expression as its value: how fast it moves when
the symbol moves at the rate one (`valueIn_diff`). This holds although sums and products of
derivatives are formed canonically and may cancel, and although what does not contain the symbol is
skipped.
-/

open DualNumber

namespace FiniteVolume.Expr

variable {K : Type*} [Field K] {reading : Interpretation K} {name : String}

/-- Every known function in an expression has its slope where it is applied. -/
def Smooth (reading : Interpretation K) (e : Expr) : Prop :=
  ∀ (function : Pointwise) (arg : Expr), function.call arg ∈ e.subterms →
    function.HasSlope reading (arg.valueIn reading)

/-- The children of a smooth expression are smooth. -/
theorem Smooth.arg {e arg : Expr} (smooth : e.Smooth reading) (member : arg ∈ e.args) :
    arg.Smooth reading := fun function inner inside =>
  smooth function inner (mem_subterms_of_arg member inside)

/-- An expression without negative powers of zero whose value is the rate of another one. -/
structure IsRate (reading : Interpretation K) (name : String) (e derivative : Expr) : Prop where
  defined : derivative.Defined reading
  value : derivative.valueIn reading = (e.dualIn reading name).snd

/-- The zero of an elementary expression is the number zero. -/
theorem Elementary.zeroLike {e : Expr} (elementary : e.Elementary) : e.zeroLike = zero := by
  cases elementary <;> rfl

/-- An elementary expression without the symbol has rate zero. -/
theorem Elementary.isRate_of_lacks {e : Expr} (elementary : e.Elementary)
    (lacks : e.hasSymbol name = false) : IsRate reading name e e.zeroLike := by
  rw [elementary.zeroLike]
  refine ⟨(hereditary_defined reading).num 0, ?_⟩
  rw [elementary.snd_dualIn_of_lacks lacks, zero, valueIn_num, Rat.cast_zero]

/-- A function of a defined expression is defined. -/
theorem Defined.pointwise {arg : Expr} (defined : arg.Defined reading) (function : Pointwise) :
    (function.call arg).Defined reading :=
  negativeBases_iff.mpr ⟨fun _ _ => by simp [Pointwise.call, apply],
    List.forall_mem_singleton.mpr defined⟩

/-- The components of the derivative of a vector are the rates of its components. -/
theorem diff_vector_rates {components : List Expr} {result : Expr}
    (formed : diff (.vector components) name = some result)
    (elementary : ∀ component ∈ components, component.Elementary)
    (rates : ∀ component ∈ components, ∀ derivative, diff component name = some derivative →
      IsRate reading name component derivative) :
    ∃ derivatives, result = .vector derivatives ∧
      (∀ derivative ∈ derivatives, derivative.Defined reading) ∧
      derivatives.map (valueIn reading) =
        components.map fun component => (component.dualIn reading name).snd := by
  cases derives_of_diff formed with
  | @vector _ derivatives differentiates =>
    refine ⟨derivatives, rfl, ?_, ?_⟩
    · exact forall_mem_of_mapM differentiates fun component member derivative found =>
        (rates component member derivative found).defined
    · exact map_eq_of_mapM differentiates _ fun component member derivative found =>
        (rates component member derivative found).value
  | lacks lacks =>
    refine ⟨_, rfl, fun derivative present => ?_, ?_⟩
    · obtain ⟨_, -, rfl⟩ := List.mem_map.mp present
      exact (hereditary_defined reading).num 0
    · rw [List.map_map]
      refine List.map_congr_left fun component member => ?_
      have lacksComponent : component.hasSymbol name = false :=
        (hasSymbol_eq_false_iff.mp lacks).2 component member
      rw [(elementary component member).snd_dualIn_of_lacks lacksComponent]
      exact (valueIn_num 0).trans Rat.cast_zero

/-- An inner product of vectors with defined components is defined. -/
theorem Defined.dot {left right : List Expr}
    (definedLeft : ∀ component ∈ left, component.Defined reading)
    (definedRight : ∀ component ∈ right, component.Defined reading) :
    (Expr.call .dot [.vector left, .vector right]).Defined reading := by
  have vector : ∀ {components : List Expr}, (∀ component ∈ components, component.Defined reading) →
      (Expr.vector components).Defined reading := fun defined =>
    negativeBases_iff.mpr ⟨fun _ _ => by simp, defined⟩
  exact negativeBases_iff.mpr
    ⟨fun _ _ => by simp, forall_mem_pair ⟨vector definedLeft, vector definedRight⟩⟩

/-- An inner product with a vector of zeros has value zero. -/
theorem valueIn_dot_of_vanishes {left right : List Expr} (sameLength : left.length = right.length)
    (vanishing : (Expr.vector left).vanishes = true ∨ (Expr.vector right).vanishes = true) :
    (Expr.call .dot [.vector left, .vector right]).valueIn reading = 0 := by
  rw [valueIn_dot sameLength]
  refine List.sum_eq_zero fun product member => ?_
  obtain ⟨pair, inside, rfl⟩ := List.mem_map.mp member
  obtain ⟨inLeft, inRight⟩ := List.of_mem_zip inside
  rcases vanishing with zeros | zeros
  · exact mul_eq_zero_of_left (valueIn_of_isZero (List.all_eq_true.mp zeros _ inLeft)) _
  · exact mul_eq_zero_of_right _ (valueIn_of_isZero (List.all_eq_true.mp zeros _ inRight))

/-- A term of value zero may be left out of a sum. -/
theorem sum_optional {leftOut : Bool} {term : Expr}
    (vanishing : leftOut = true → term.valueIn reading = 0) :
    ((if leftOut then [] else [term]).map (valueIn reading)).sum = term.valueIn reading := by
  cases leftOut with
  | true => exact (vanishing rfl).symm
  | false => exact List.sum_singleton

section Rates

variable [CharZero K]

/-- The derivative of a known function has its slope as value. -/
theorem valueIn_pointwise_derivative {function : Pointwise} {arg derivative : Expr}
    (formed : function.derivative arg = some derivative) (defined : arg.Defined reading)
    (hasSlope : function.HasSlope reading (arg.valueIn reading)) :
    derivative.Defined reading ∧
      derivative.valueIn reading = function.slope reading (arg.valueIn reading) := by
  have hereditary := hereditary_defined reading
  have power : ∀ {base result : Expr} {exponent : Exponent}, base.Defined reading →
      base.valueIn reading ≠ 0 → Expr.power base exponent = some result →
        result.Defined reading ∧ result.valueIn reading = base.valueIn reading ^ exponent.val :=
    fun definedBase nonzero formed => ⟨hereditary.power formed definedBase fun _ => nonzero,
      valueIn_power formed definedBase fun _ => nonzero⟩
  have powerOfCall : ∀ {known : Pointwise} {result : Expr} {exponent : Exponent},
      reading.call (.named known.name) [arg.valueIn reading] ≠ 0 →
        Expr.power (known.call arg) exponent = some result → result.Defined reading ∧
          result.valueIn reading =
            reading.call (.named known.name) [arg.valueIn reading] ^ exponent.val := by
    intro known result exponent nonzero formed
    rw [← valueIn_pointwise] at nonzero ⊢
    exact power (defined.pointwise known) nonzero formed
  have square : ∀ a : K, a ^ Exponent.negTwo.val = 1 / a ^ 2 := fun a => by
    rw [one_div, ← zpow_natCast, ← zpow_neg]
    rfl
  have inverse : ∀ a : K, a ^ Exponent.negOne.val = 1 / a := fun a => by
    rw [one_div]
    exact zpow_neg_one a
  cases function with
  | cos =>
    have definedSin := defined.pointwise .sin
    exact ⟨hereditary.neg formed definedSin,
      (valueIn_neg formed definedSin).trans (congrArg _ (valueIn_pointwise .sin arg))⟩
  | tan | tanh =>
    obtain ⟨definedPower, value⟩ := powerOfCall hasSlope formed
    exact ⟨definedPower, value.trans (square _)⟩
  | log =>
    obtain ⟨definedPower, value⟩ := power defined hasSlope formed
    exact ⟨definedPower, value.trans (inverse _)⟩
  | sqrt =>
    simp only [Pointwise.derivative] at formed
    obtain ⟨inner, inverted, (formed : inner.quot (.int 2) = some derivative)⟩ :=
      Option.bind_eq_some_iff.mp formed
    obtain ⟨definedInner, value⟩ := powerOfCall hasSlope inverted
    have two : (Expr.int 2).valueIn reading = 2 := by simp [int]
    have nonzero : (Expr.int 2).valueIn reading ≠ 0 := two ▸ two_ne_zero
    refine ⟨hereditary.quot formed definedInner (hereditary.num _) nonzero, ?_⟩
    rw [valueIn_quot formed definedInner (hereditary.num _) nonzero, value, inverse, two,
      div_div, mul_comm]
    rfl
  | sign =>
    cases formed
    exact ⟨hereditary.num 0, (valueIn_num 0).trans Rat.cast_zero⟩
  | sin | exp | sinh | cosh | abs =>
    cases formed
    exact ⟨defined.pointwise _, valueIn_pointwise _ arg⟩

/-- The product rule: the products in which one of the later factors is differentiated add up to
the earlier factors times the rate of the later ones. -/
theorem diffFactors_rates {before after products : List Expr}
    (formed : diffFactors before after name = some products)
    (definedBefore : ∀ factor ∈ before, factor.Defined reading)
    (definedAfter : ∀ factor ∈ after, factor.Defined reading)
    (elementary : ∀ factor ∈ after, factor.Elementary)
    (rates : ∀ factor ∈ after, ∀ derivative, diff factor name = some derivative →
      IsRate reading name factor derivative) :
    (∀ product ∈ products, product.Defined reading) ∧
      (products.map (valueIn reading)).sum =
        (before.map (valueIn reading)).prod * (after.map (dualIn reading name)).prod.snd := by
  induction after generalizing before products with
  | nil =>
    cases formed
    refine ⟨fun _ member => (nomatch member), ?_⟩
    rw [List.map_nil, List.map_nil, List.prod_nil, TrivSqZeroExt.snd_one, mul_zero, List.sum_nil]
  | cons factor rest ih =>
    obtain ⟨derivative, differentiates, formed⟩ := Option.bind_eq_some_iff.mp formed
    obtain ⟨first, multiplied, formed⟩ := Option.bind_eq_some_iff.mp formed
    obtain ⟨later, formedLater, same⟩ := Option.bind_eq_some_iff.mp formed
    cases same
    obtain ⟨definedFactor, definedRest⟩ := List.forall_mem_cons.mp definedAfter
    obtain ⟨elementaryFactor, elementaryRest⟩ := List.forall_mem_cons.mp elementary
    obtain ⟨rateFactor, ratesRest⟩ := List.forall_mem_cons.mp rates
    have rate := rateFactor derivative differentiates
    have definedProduct : ∀ e ∈ derivative :: (before ++ rest), e.Defined reading :=
      List.forall_mem_cons.mpr ⟨rate.defined,
        List.forall_mem_append.mpr ⟨definedBefore, definedRest⟩⟩
    obtain ⟨definedLater, total⟩ := ih formedLater
      (List.forall_mem_append.mpr ⟨definedBefore, List.forall_mem_singleton.mpr definedFactor⟩)
      definedRest elementaryRest ratesRest
    refine ⟨List.forall_mem_cons.mpr
      ⟨(hereditary_defined reading).prod multiplied definedProduct, definedLater⟩, ?_⟩
    have values : (rest.map (dualIn reading name)).prod.fst =
        (rest.map (valueIn reading)).prod := by
      rw [fst_list_prod, List.map_map]
      exact congrArg List.prod (List.map_congr_left fun e member =>
        (elementaryRest e member).fst_dualIn)
    rw [List.map_cons, List.sum_cons, total, valueIn_prod multiplied definedProduct, List.map_cons,
      List.map_append, List.prod_cons, List.prod_append, rate.value, List.map_append,
      List.prod_append, List.map_singleton, List.prod_singleton, List.map_cons, List.prod_cons,
      DualNumber.snd_mul, values, elementaryFactor.fst_dualIn]
    ring

/-- The rate of a sum is the sum of the rates. -/
theorem isRate_sum {terms derivatives : List Expr}
    (differentiates : (terms.mapM fun term => diff term name) = some derivatives)
    (rates : ∀ term ∈ terms, ∀ derivative, diff term name = some derivative →
      IsRate reading name term derivative) :
    IsRate reading name (.add terms) (sum derivatives) := by
  refine ⟨(hereditary_defined reading).sum ?_, ?_⟩
  · exact forall_mem_of_mapM differentiates fun term member derivative found =>
      (rates term member derivative found).defined
  · rw [valueIn_sum, map_eq_of_mapM differentiates _ fun term member derivative found =>
      (rates term member derivative found).value, dualIn_add, snd_list_sum, List.map_map]
    rfl

/-- The power rule. -/
theorem isRate_power {base lower outer inner result : Expr} {exponent less : Exponent}
    (elementary : base.Elementary) (nonzero : exponent.val ≠ 0)
    (defined : (Expr.pow base exponent).Defined reading) (lowered : exponent.pred? = some less)
    (powered : power base less = some lower)
    (outerFormed : prod [.int exponent.val, lower] = some outer)
    (multiplied : prod [outer, inner] = some result) (rate : IsRate reading name base inner) :
    IsRate reading name (.pow base exponent) result := by
  have hereditary := hereditary_defined reading
  obtain ⟨definedBase, regular⟩ := (hereditary.pow_iff base exponent).mp defined
  have value := Exponent.val_of_pred? lowered
  have regularLower : less.val < 0 → base.valueIn reading ≠ 0 := fun negative =>
    regular (by omega)
  have definedLower := hereditary.power powered definedBase regularLower
  have definedNumber : (Expr.int exponent.val).Defined reading := hereditary.num _
  have definedOuter := hereditary.prod_pair outerFormed definedNumber definedLower
  have outerValue : outer.valueIn reading =
      exponent.val * base.valueIn reading ^ (exponent.val - 1) := by
    rw [valueIn_prod outerFormed (forall_mem_pair ⟨definedNumber, definedLower⟩), List.map_cons,
      List.map_singleton, List.prod_cons, List.prod_singleton,
      valueIn_power powered definedBase regularLower, value, int, valueIn_num, Rat.cast_intCast]
  refine ⟨hereditary.prod_pair multiplied definedOuter rate.defined, ?_⟩
  rw [valueIn_prod multiplied (forall_mem_pair ⟨definedOuter, rate.defined⟩), List.map_cons,
    List.map_singleton, List.prod_cons, List.prod_singleton, outerValue, rate.value, dualIn,
    snd_dualPower nonzero (by rw [elementary.fst_dualIn]; exact regular), elementary.fst_dualIn]

/-- The derivative of a known function is that of its chain rule. -/
theorem diffCall_pointwise (function : Pointwise) (arg derivative : Expr) :
    diffCall (.named function.name) [arg] [derivative] =
      (do prod [← function.derivative arg, derivative]) := by
  rw [diffCall, ofName?_name]

/-- The chain rule. -/
theorem isRate_call {function : Pointwise} {arg outer inner result : Expr}
    (elementary : arg.Elementary) (defined : arg.Defined reading)
    (hasSlope : function.HasSlope reading (arg.valueIn reading))
    (formed : function.derivative arg = some outer) (multiplied : prod [outer, inner] = some result)
    (rate : IsRate reading name arg inner) :
    IsRate reading name (function.call arg) result := by
  obtain ⟨definedOuter, outerValue⟩ := valueIn_pointwise_derivative formed defined hasSlope
  refine ⟨(hereditary_defined reading).prod_pair multiplied definedOuter rate.defined, ?_⟩
  rw [valueIn_prod multiplied (forall_mem_pair ⟨definedOuter, rate.defined⟩), List.map_cons,
    List.map_singleton, List.prod_cons, List.prod_singleton, outerValue, rate.value, dualIn_call,
    dualCall, TrivSqZeroExt.snd_add, TrivSqZeroExt.snd_inl, TrivSqZeroExt.snd_inr, zero_add,
    elementary.fst_dualIn]

/-- The product rule for inner products. A term with a derivative of zeros is left out. -/
theorem isRate_dot {left right left' right' : List Expr} {result : Expr}
    (formed : diffCall .dot [.vector left, .vector right] [.vector left', .vector right'] =
      some result)
    (sameLength : left.length = right.length)
    (defined : ∀ component ∈ left ++ right, component.Defined reading)
    (defined' : ∀ component ∈ left' ++ right', component.Defined reading)
    (elementary : ∀ component ∈ left ++ right, component.Elementary)
    (ratesLeft : left'.map (valueIn reading) =
      left.map fun component => (component.dualIn reading name).snd)
    (ratesRight : right'.map (valueIn reading) =
      right.map fun component => (component.dualIn reading name).snd) :
    IsRate reading name (.call .dot [.vector left, .vector right]) result := by
  cases formed
  obtain ⟨definedLeft, definedRight⟩ := List.forall_mem_append.mp defined
  obtain ⟨definedLeft', definedRight'⟩ := List.forall_mem_append.mp defined'
  obtain ⟨elementaryLeft, elementaryRight⟩ := List.forall_mem_append.mp elementary
  have lengthLeft : left'.length = left.length := by simpa using congrArg List.length ratesLeft
  have lengthRight : right'.length = right.length := by simpa using congrArg List.length ratesRight
  have sameLengthLeft : left'.length = right.length := lengthLeft.trans sameLength
  have sameLengthRight : left.length = right'.length := sameLength.trans lengthRight.symm
  constructor
  · refine (hereditary_defined reading).sum fun term present => ?_
    rcases List.mem_append.mp present with inLeft | inRight
    · split at inLeft
      · cases inLeft
      · cases List.mem_singleton.mp inLeft
        exact Defined.dot definedLeft' definedRight
    · split at inRight
      · cases inRight
      · cases List.mem_singleton.mp inRight
        exact Defined.dot definedLeft definedRight'
  · have values : ∀ pair ∈ left.zip right,
        (pair.1.dualIn reading name * pair.2.dualIn reading name).snd =
          (pair.1.dualIn reading name).snd * pair.2.valueIn reading +
            pair.1.valueIn reading * (pair.2.dualIn reading name).snd := by
      intro pair inside
      obtain ⟨inLeft, inRight⟩ := List.of_mem_zip inside
      rw [DualNumber.snd_mul, (elementaryLeft _ inLeft).fst_dualIn,
        (elementaryRight _ inRight).fst_dualIn, add_comm]
    rw [valueIn_sum, List.map_append, List.sum_append,
      sum_optional fun zeros => valueIn_dot_of_vanishes sameLengthLeft (Or.inl zeros),
      sum_optional fun zeros => valueIn_dot_of_vanishes sameLengthRight (Or.inr zeros),
      valueIn_dot_zipWith sameLengthLeft, valueIn_dot_zipWith sameLengthRight, ratesLeft,
      ratesRight, dualIn_dot, snd_list_sum, List.map_map]
    refine Eq.trans ?_ (congrArg List.sum (List.map_congr_left values)).symm
    rw [List.sum_map_add, List.zipWith_map, List.zipWith_map, List.zip_eq_zipWith,
      List.map_zipWith, List.map_zipWith]

/-- The derivative of an elementary expression is its rate. -/
theorem Elementary.isRate {e : Expr} (elementary : e.Elementary) :
    e.Defined reading → e.Smooth reading → ∀ derivative, diff e name = some derivative →
      IsRate reading name e derivative := by
  have hereditary := hereditary_defined reading
  induction elementary with
  | num value =>
    intro _ _ derivative formed
    cases derives_of_diff formed with
    | lacks lacks => exact (Elementary.num value).isRate_of_lacks lacks
  | sym symbol =>
    intro _ _ derivative formed
    cases derives_of_diff formed with
    | lacks lacks => exact (Elementary.sym symbol).isRate_of_lacks lacks
    | sym =>
      refine ⟨hereditary.num 1, (valueIn_num 1).trans ?_⟩
      rw [dualIn, if_pos rfl, TrivSqZeroExt.snd_add, TrivSqZeroExt.snd_inl, snd_eps, zero_add,
        Rat.cast_one]
  | @add terms elementary ih =>
    intro defined smooth derivative formed
    cases derives_of_diff formed with
    | lacks lacks => exact (Elementary.add elementary).isRate_of_lacks lacks
    | add differentiates =>
      exact isRate_sum differentiates fun term member =>
        ih term member ((hereditary.add_iff terms).mp defined term member) (smooth.arg member)
  | @mul factors elementary ih =>
    intro defined smooth derivative formed
    cases derives_of_diff formed with
    | lacks lacks => exact (Elementary.mul elementary).isRate_of_lacks lacks
    | mul differentiates =>
      have definedFactors := (hereditary.mul_iff factors).mp defined
      obtain ⟨definedProducts, total⟩ := diffFactors_rates (K := K) differentiates
        (List.forall_mem_nil _) definedFactors elementary fun factor member =>
          ih factor member (definedFactors factor member) (smooth.arg member)
      refine ⟨hereditary.sum definedProducts, ?_⟩
      rw [valueIn_sum, total, List.map_nil, List.prod_nil, one_mul, dualIn_mul]
  | @pow base exponent elementary nonzero ih =>
    intro defined smooth derivative formed
    cases derives_of_diff formed with
    | lacks lacks => exact (Elementary.pow elementary nonzero).isRate_of_lacks lacks
    | @pow _ lower outer inner _ _ less _ lowered powered outerFormed differentiates multiplied =>
      have definedBase := ((hereditary.pow_iff base exponent).mp defined).1
      exact isRate_power elementary nonzero defined lowered powered outerFormed multiplied
        (ih definedBase (smooth.arg (List.mem_singleton_self base)) inner differentiates)
  | @dot left right sameLength elementaryLeft elementaryRight ihLeft ihRight =>
    intro defined smooth derivative formed
    cases derives_of_diff formed with
    | lacks lacks =>
      exact (Elementary.dot sameLength elementaryLeft elementaryRight).isRate_of_lacks lacks
    | call _ differentiates formed =>
      obtain ⟨_, _, diffLeft, diffRight, rfl⟩ := mapM_pair_eq_some differentiates
      have inLeft : Expr.vector left ∈ (Expr.call .dot [.vector left, .vector right]).args :=
        List.mem_cons_self
      have inRight : Expr.vector right ∈ (Expr.call .dot [.vector left, .vector right]).args :=
        List.mem_cons_of_mem _ List.mem_cons_self
      have definedLeft := (negativeBases_iff.mp (defined.arg inLeft)).2
      have definedRight := (negativeBases_iff.mp (defined.arg inRight)).2
      obtain ⟨left', rfl, definedLeft', ratesLeft⟩ := diff_vector_rates diffLeft elementaryLeft
        fun component member => ihLeft component member (definedLeft component member)
          ((smooth.arg inLeft).arg member)
      obtain ⟨right', rfl, definedRight', ratesRight⟩ := diff_vector_rates diffRight elementaryRight
        fun component member => ihRight component member (definedRight component member)
          ((smooth.arg inRight).arg member)
      exact isRate_dot formed sameLength (List.forall_mem_append.mpr ⟨definedLeft, definedRight⟩)
        (List.forall_mem_append.mpr ⟨definedLeft', definedRight'⟩)
        (List.forall_mem_append.mpr ⟨elementaryLeft, elementaryRight⟩) ratesLeft ratesRight
  | @call function arg elementary ih =>
    intro defined smooth derivative formed
    rw [Pointwise.call, apply] at formed
    cases derives_of_diff formed with
    | lacks lacks => exact (Elementary.call function elementary).isRate_of_lacks lacks
    | call _ differentiates formed =>
      obtain ⟨inner, diffArg, rfl⟩ := mapM_singleton_eq_some differentiates
      rw [diffCall_pointwise] at formed
      obtain ⟨outer, outerFormed, multiplied⟩ := Option.bind_eq_some_iff.mp formed
      have definedArg : arg.Defined reading := defined.arg List.mem_cons_self
      exact isRate_call elementary definedArg (smooth function arg (self_mem_subterms _))
        outerFormed multiplied (ih definedArg (smooth.arg List.mem_cons_self) inner diffArg)

/-- The derivative has the value that the rules of calculus give: the coefficient of `ε` when the
expression is evaluated over the dual numbers. It divides by zero nowhere. -/
theorem valueIn_diff {e derivative : Expr} (elementary : e.Elementary)
    (defined : e.Defined reading) (smooth : e.Smooth reading)
    (differentiates : e.diff name = some derivative) :
    (e.dualIn reading name).fst = e.valueIn reading ∧
      derivative.valueIn reading = (e.dualIn reading name).snd ∧ derivative.Defined reading := by
  have rate := elementary.isRate defined smooth derivative differentiates
  exact ⟨elementary.fst_dualIn, rate.value, rate.defined⟩

end Rates

/-- The derivative of `log(x) / x` at `2` is `(1 - log(2)) / 4`. -/
theorem valueIn_diff_quotient :
    let e : Expr := .mul [.pow (.sym "x") Exponent.negOne, Pointwise.log.call (.sym "x")]
    let reading : Interpretation ℝ := ⟨fun _ => 2, fun _ => 0, fun _ values => Real.log values.sum⟩
    ∃ derivative, e.diff "x" = some derivative ∧
      derivative.valueIn reading = (1 - Real.log 2) / 4 := by
  intro e reading
  have elementary : e.Elementary := .mul (forall_mem_pair
    ⟨.pow (.sym "x") (by decide), .call .log (.sym "x")⟩)
  have defined : e.Defined reading := by
    simp [e, reading, Defined, NegativeBases, subterms, subtermsOfAll, Pointwise.call, apply]
  have smooth : e.Smooth reading := by
    intro function arg inside
    obtain ⟨sameName, rfl⟩ : function.name = Pointwise.log.name ∧ arg = .sym "x" := by
      simpa [e, subterms, subtermsOfAll, Pointwise.call, apply] using inside
    have isLog : some function = some Pointwise.log := by
      rw [← ofName?_name, sameName, ofName?_name]
    cases isLog
    exact two_ne_zero
  obtain ⟨derivative, differentiates⟩ :=
    Option.isSome_iff_exists.mp (show (e.diff "x").isSome = true by decide +kernel)
  refine ⟨derivative, differentiates, ?_⟩
  rw [(valueIn_diff elementary defined smooth differentiates).2.1]
  have inverse : ((Expr.pow (.sym "x") Exponent.negOne).dualIn reading "x").snd = -1 / 4 := by
    rw [dualIn, snd_dualPower (by decide) fun _ => by simp [dualIn, reading]]
    norm_num [dualIn, reading, Exponent.negOne]
  have logarithm : ((Pointwise.log.call (.sym "x")).dualIn reading "x").snd = 1 / 2 := by
    rw [dualIn_call, dualCall]
    simp [dualIn, reading, Pointwise.slope]
  rw [dualIn_mul, List.map_cons, List.map_singleton, List.prod_cons, List.prod_singleton,
    DualNumber.snd_mul, inverse, logarithm,
    (Elementary.pow (.sym "x") (by decide)).fst_dualIn,
    (Elementary.call .log (.sym "x")).fst_dualIn, valueIn_pow, valueIn_sym, valueIn_pointwise,
    valueIn_sym]
  norm_num [reading, Exponent.negOne]
  ring

end FiniteVolume.Expr
