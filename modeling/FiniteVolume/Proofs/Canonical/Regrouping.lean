import FiniteVolume.Proofs.Canonical.Combination
import FiniteVolume.Proofs.Canonical.Gathered

/-!
# Regrouped products

A product of operands is known from its coefficient and from how often every base is multiplied
(`isProduct_of_prod`): it is written as it is, unless it is a number times a single sum, which is
multiplied out. So a product may be formed inside another one first, and makes the same tree, except
where its number is distributed over a sum that would have met other factors outside
(`prod_regrouped_iff`).
-/

namespace FiniteVolume.Expr

/-- A factor of a canonical product that is no number. -/
structure Power (e : Expr) : Prop where
  canonical : e.Canonical
  notNum : e.isNum = false
  notMul : ∀ factors, e ≠ .mul factors

/-- The exponents of given factors, added up by their bases. -/
noncomputable abbrev exponentsOf (factors : List Expr) : Expr →₀ ℤ :=
  weights base (fun factor => factor.factorExponent.val) factors

/-- The exponents of several factors count the first one. -/
theorem exponentsOf_cons (factor : Expr) (rest : List Expr) :
    exponentsOf (factor :: rest) =
      Finsupp.single factor.base factor.factorExponent.val + exponentsOf rest :=
  weights_cons factor rest

/-- How often every base is multiplied in a tree; numbers do not count. -/
noncomputable def multiplicities (e : Expr) : Expr →₀ ℤ :=
  exponentsOf (e.factors.filter fun factor => !factor.isNum)

/-- The exponent of a power is not zero. -/
theorem Power.exponent_ne_zero {e : Expr} (power : e.Power) : e.factorExponent.val ≠ 0 :=
  (power.canonical.entry power.notNum power.notMul).2.1

/-- A factor is known from its base and its exponent. -/
theorem Power.ext {left right : Expr} (power : left.Power) (power' : right.Power)
    (base : left.base = right.base)
    (exponent : left.factorExponent.val = right.factorExponent.val) : left = right := by
  obtain ⟨-, -, written⟩ := power.canonical.entry power.notNum power.notMul
  obtain ⟨-, -, written'⟩ := power'.canonical.entry power'.notNum power'.notMul
  rw [← written, ← written', base, Exponent.ext exponent]

/-- Factors with different bases are known from their exponents, up to their order. -/
theorem perm_of_exponentsOf_eq {left right : List Expr} (powers : ∀ factor ∈ left, factor.Power)
    (powers' : ∀ factor ∈ right, factor.Power)
    (bases : left.Pairwise fun left right => left.base ≠ right.base)
    (bases' : right.Pairwise fun left right => left.base ≠ right.base)
    (same : exponentsOf left = exponentsOf right) : left.Perm right := by
  have nodup : left.Nodup := bases.imp fun different same => different (congrArg _ same)
  have nodup' : right.Nodup := bases'.imp fun different same => different (congrArg _ same)
  refine (List.perm_ext_iff_of_nodup nodup nodup').mpr fun factor => ⟨fun member => ?_,
    fun member => ?_⟩
  · exact mem_of_weights_eq bases bases' same
      (fun other inside => (powers' other inside).ext (powers factor member)) member
      (powers factor member).exponent_ne_zero
  · exact mem_of_weights_eq bases' bases same.symm
      (fun other inside => (powers other inside).ext (powers' factor member)) member
      (powers' factor member).exponent_ne_zero

/-- The factors of a canonical tree that are no numbers. -/
theorem Canonical.powers {e : Expr} (canonical : e.Canonical) :
    ∀ factor ∈ e.factors.filter fun factor => !factor.isNum, factor.Power := by
  intro factor member
  obtain ⟨inside, notNum⟩ := List.mem_filter.mp member
  obtain ⟨canonicalFactor, notMul⟩ := canonical.not_mul_of_mem_factors inside
  exact ⟨canonicalFactor, by simpa using notNum, notMul⟩

/-- The factors of a canonical tree are in order. -/
theorem Canonical.factors_sorted {e : Expr} (canonical : e.Canonical) :
    e.factors.Pairwise NotAfter := by
  cases e with
  | mul factors => exact (canonical_mul_iff.mp canonical).1.sorted
  | _ => exact List.pairwise_singleton _ _

/-- Canonical trees with the same factors are the same. -/
theorem Canonical.eq_of_factors_eq {left right : Expr} (canonical : left.Canonical)
    (canonical' : right.Canonical) (same : left.factors = right.factors) : left = right := by
  have single : ∀ {e e' : Expr}, e.Canonical → (∀ factors, e' ≠ .mul factors) →
      e.factors = e'.factors → e = e' := by
    intro e e' canonical notMul same
    rw [factors_of_not_mul notMul] at same
    by_cases isProduct : ∃ factors, e = .mul factors
    · obtain ⟨factors, rfl⟩ := isProduct
      have several := (canonical_mul_iff.mp canonical).1.several
      rw [show factors = [e'] from same] at several
      cases several with
      | step several => cases several
    · rw [factors_of_not_mul fun factors same => isProduct ⟨factors, same⟩] at same
      exact List.singleton_inj.mp same
  cases right with
  | mul factors' =>
    by_cases isProduct : ∃ factors, left = .mul factors
    · obtain ⟨factors, rfl⟩ := isProduct
      exact congrArg Expr.mul same
    · exact (single canonical' (fun factors same => isProduct ⟨factors, same⟩) same.symm).symm
  | _ => exact single canonical (fun _ => by simp) same

/-- A canonical tree without factors other than numbers is a number. -/
theorem Canonical.isNum_of_filter {e : Expr} (canonical : e.Canonical)
    (noPowers : (e.factors.filter fun factor => !factor.isNum) = []) : e.isNum = true := by
  have numbers : ∀ factor ∈ e.factors, factor.isNum = true := by
    simpa using List.filter_eq_nil_iff.mp noPowers
  cases e with
  | mul factors =>
    obtain ⟨product, -⟩ := canonical_mul_iff.mp canonical
    match factors, product.several with
    | first :: second :: rest, _ =>
      have notNum := product.number_first second List.mem_cons_self
      rw [numbers second (List.mem_cons_of_mem _ List.mem_cons_self)] at notNum
      cases notNum
  | _ => exact numbers _ List.mem_cons_self

/-- A canonical tree is known from its coefficient and from how often every base is multiplied. -/
theorem Canonical.eq_of_multiplicities_eq {e e' : Expr} (canonical : e.Canonical)
    (canonical' : e'.Canonical) (coefficient : e.coefficient = e'.coefficient)
    (same : e.multiplicities = e'.multiplicities) : e = e' := by
  have perm := perm_of_exponentsOf_eq canonical.powers canonical'.powers canonical.factors_bases
    canonical'.factors_bases same
  have sorted := canonical.factors_sorted.sublist
    (List.filter_sublist (p := fun factor => !factor.isNum))
  have sorted' := canonical'.factors_sorted.sublist
    (List.filter_sublist (p := fun factor => !factor.isNum))
  have factors : (e.factors.filter fun factor => !factor.isNum) =
      e'.factors.filter fun factor => !factor.isNum := by
    rw [← sort_of_pairwise sorted, sort_congr perm, sort_of_pairwise sorted']
  have isNum_iff : e.isNum = true ↔ e'.isNum = true := by
    have noPowers : ∀ {e : Expr}, e.isNum = true →
        (e.factors.filter fun factor => !factor.isNum) = [] := by
      intro e isNum
      obtain ⟨value, rfl⟩ := eq_num_of_isNum isNum
      rfl
    exact ⟨fun isNum => canonical'.isNum_of_filter (factors ▸ noPowers isNum),
      fun isNum => canonical.isNum_of_filter (factors ▸ noPowers isNum)⟩
  cases isNum : e.isNum with
  | true =>
    obtain ⟨value, rfl⟩ := eq_num_of_isNum isNum
    obtain ⟨value', rfl⟩ := eq_num_of_isNum (isNum_iff.mp isNum)
    exact congrArg Expr.num coefficient
  | false =>
    have notNum : e'.isNum = false := by
      rw [← Bool.not_eq_true, ← isNum_iff, isNum]
      exact Bool.false_ne_true
    apply canonical.eq_of_factors_eq canonical'
    rw [(canonical.factors_eq isNum).1, (canonical'.factors_eq notNum).1, coefficient,
      ← canonical.filter_factors isNum, ← canonical'.filter_factors notNum, factors]

/-- A written power has the exponent of its entry. -/
theorem CanonicalEntry.factorExponent_writtenPower {base : Expr} {exponent : Exponent}
    (valid : CanonicalEntry (base, exponent)) (nonzero : exponent.val ≠ 0) :
    (Expr.writtenPower base exponent).factorExponent.val = exponent.val := by
  unfold Expr.writtenPower
  rw [if_neg nonzero]
  split
  · rename_i isOne
    rcases valid.generator with generator | ⟨-, negative⟩
    · change base.isGenerator = true at generator
      rw [isOne]
      cases base <;> first | rfl | cases generator
    · change exponent.val < 0 at negative
      omega
  · rfl

namespace LikeFactors

variable {collected : LikeFactors}

/-- Collecting factors multiplies their numbers and adds up the exponents of their bases. -/
theorem exponents_of_collects {factors : List Expr}
    (collects : ofFactors factors = some collected) :
    collected.coefficient = ((factors.filter isNum).map Expr.coefficient).prod ∧
      collected.exponents.total (fun base exponent => Finsupp.single base exponent.val) =
        exponentsOf (factors.filter fun factor => !factor.isNum) := by
  induction factors generalizing collected with
  | nil =>
    cases collects
    exact ⟨rfl, rfl⟩
  | cons factor rest ih =>
    obtain ⟨before, collectsRest, inserted⟩ := Option.bind_eq_some_iff.mp collects
    obtain ⟨coefficient, exponents⟩ := ih collectsRest
    cases isNum : factor.isNum with
    | true =>
      obtain ⟨value, rfl⟩ := eq_num_of_isNum isNum
      cases inserted
      rw [List.filter_cons_of_pos isNum, List.map_cons, List.prod_cons, ← coefficient,
        List.filter_cons_of_neg (by simp [isNum])]
      exact ⟨mul_comm _ _, exponents⟩
    | false =>
      rw [insert_of_not_num isNum] at inserted
      obtain ⟨total, added, same⟩ := Option.bind_eq_some_iff.mp inserted
      cases same
      rw [List.filter_cons_of_neg (by simp [isNum]), List.filter_cons_of_pos (by simp [isNum]),
        exponentsOf_cons, ← exponents, add_comm]
      have value := Exponent.val_of_add? added
      refine ⟨coefficient, Tally.total_insert (base_of_mem collectsRest).1 (fun old found => ?_)
        fun absent => ?_⟩
      · rw [found, Option.getD_some] at value
        rw [value, Finsupp.single_add]
      · rw [absent, Option.getD_none] at value
        rw [value, Exponent.zero, zero_add]

/-- The powers that do not cancel make up the exponents of all entries. -/
theorem exponentsOf_writtenPower {entries : Tally Exponent}
    (valid : ∀ entry ∈ entries, CanonicalEntry entry) :
    exponentsOf ((entries.filter fun entry => entry.2.val ≠ 0).map fun entry =>
        writtenPower entry.1 entry.2) =
      entries.total fun base exponent => Finsupp.single base exponent.val := by
  induction entries with
  | nil => rfl
  | cons entry rest ih =>
    obtain ⟨first, later⟩ := List.forall_mem_cons.mp valid
    have total : Tally.total (fun base (exponent : Exponent) => Finsupp.single base exponent.val)
        (entry :: rest) = Finsupp.single entry.1 entry.2.val +
          Tally.total (fun base exponent => Finsupp.single base exponent.val) rest :=
      List.sum_cons
    rw [total, ← ih later]
    by_cases isZero : entry.2.val = 0
    · rw [List.filter_cons_of_neg (by simp [isZero]), isZero, Finsupp.single_zero, zero_add]
    · rw [List.filter_cons_of_pos (by simp [isZero]), List.map_cons, exponentsOf_cons,
        (first.writtenPower isZero).2.2.2, first.factorExponent_writtenPower isZero]

/-- Collected operands never divide by zero. -/
theorem isSingular_of_operands {es : List Expr} (operands : ∀ e ∈ es, e.Operand)
    (collects : ofFactors (looseFactorsOfAll es) = some collected) :
    collected.isSingular = false := by
  have composed := hereditary_invertible.composed
  have entries := (composed.likeFactors (composed.looseFactorsOfAll fun e member =>
    (operands e member).invertible) collects).2
  rw [← Bool.not_eq_true, isSingular, List.any_eq_true]
  rintro ⟨entry, member, cause⟩
  obtain ⟨bases, negative⟩ := entries entry member
  simp only [bases.regular, Bool.or_false, Bool.and_eq_true, decide_eq_true_eq] at cause
  exact (negative cause.2).nonzero (eq_zero_of_isZero cause.1)

/-- What canonical trees are collected into: the product of their coefficients, and how often they
multiply every base. -/
theorem totals_of_canonical {es : List Expr} (canonical : ∀ e ∈ es, e.Canonical)
    (collects : ofFactors (looseFactorsOfAll es) = some collected) :
    collected.coefficient = (es.map Expr.coefficient).prod ∧
      exponentsOf collected.powers = (es.map multiplicities).sum := by
  have entries := (of_canonical canonical collects).2
  obtain ⟨coefficient, exponents⟩ := exponents_of_collects collects
  rw [looseFactorsOfAll_of_canonical canonical, List.filter_flatMap] at coefficient exponents
  constructor
  · rw [coefficient, List.map_flatMap, List.flatMap_def, List.prod_flatten, List.map_map]
    exact congrArg List.prod (List.map_congr_left fun e member => (canonical e member).prod_numbers)
  · rw [powers, exponentsOf_writtenPower fun entry member => (entries entry member).1, exponents]
    exact weights_flatMap es _

end LikeFactors

/-- A product with a coefficient of factors other than a single sum has these factors. -/
theorem factors_of_ofFactors {product : List Expr → Option Expr} {coefficient : Rat}
    {factors : List Expr} {result : Expr} (powers : ∀ factor ∈ factors, factor.Power)
    (notSum : ∀ terms, factors ≠ [.add terms])
    (formed : ofFactors product coefficient factors = some result) :
    ((result.factors.filter isNum).map Expr.coefficient).prod = coefficient ∧
      (result.factors.filter fun factor => !factor.isNum) = factors := by
  have notNum : ∀ factor ∈ factors, factor.isNum = false := fun factor member =>
    (powers factor member).notNum
  have numbers := filter_writtenCoefficient coefficient notNum
  unfold ofFactors at formed
  split at formed
  · cases formed
    exact ⟨mul_one coefficient, rfl⟩
  · exact absurd rfl (notSum _)
  · rename_i factor notAdd
    cases formed
    obtain ⟨canonical, notNumFactor, notMul⟩ := powers factor List.mem_cons_self
    have isMonomial : factor.Monomial :=
      ⟨canonical, notNumFactor, fun terms same => notAdd terms (by rw [same]),
        splitCoefficient_of_not_mul notMul⟩
    rw [isMonomial.factors_scale, factors_of_not_mul notMul]
    exact numbers
  · split at formed
    · rename_i isOne
      cases formed
      rwa [writtenCoefficient, if_pos isOne] at numbers
    · rename_i notOne
      cases formed
      rwa [writtenCoefficient, if_neg notOne] at numbers

/-- Only a single sum has the exponents of one. -/
theorem eq_singleton_of_exponentsOf {factors terms : List Expr}
    (powers : ∀ factor ∈ factors, factor.Power)
    (bases : factors.Pairwise fun left right => left.base ≠ right.base)
    (same : exponentsOf factors = Finsupp.single (.add terms) 1) : factors = [.add terms] := by
  have present : ∃ factor ∈ factors, factor.base = .add terms := by
    by_contra absent
    have vanishes : exponentsOf factors (.add terms) = 0 := weights_of_absent
      fun factor member isBase => absent ⟨factor, member, isBase⟩
    rw [same, Finsupp.single_eq_same] at vanishes
    exact one_ne_zero vanishes
  obtain ⟨factor, member, isBase⟩ := present
  have exponent : exponentsOf factors factor.base = factor.factorExponent.val :=
    weights_of_mem bases member
  rw [same, isBase, Finsupp.single_eq_same] at exponent
  obtain ⟨-, -, written⟩ := (powers factor member).canonical.entry (powers factor member).notNum
    (powers factor member).notMul
  have isSum : factor = .add terms := by
    rw [← written, isBase, writtenPower, ← exponent, if_neg one_ne_zero, if_pos rfl]
  refine List.perm_singleton.mp (perm_of_exponentsOf_eq powers ?_ bases
    (List.pairwise_singleton _ _) ?_)
  · exact List.forall_mem_singleton.mpr (isSum ▸ powers factor member)
  · rw [same, exponentsOf_cons]
    exact (add_zero _).symm

/-- What a product of operands is: zero, a number times a single sum, or its coefficient and its
powers written one after the other. -/
inductive IsProduct (number : ℚ) (powers : Expr →₀ ℤ) (result : Expr) : Prop
  | zero (isZero : number = 0) (vanishes : result = Expr.zero)
  | distributed (nonzero : number ≠ 0) (terms : List Expr) (operand : (Expr.add terms).Operand)
      (single : powers = Finsupp.single (.add terms) 1)
      (multiple : result.combination = number • (Expr.add terms).combination)
  | written (nonzero : number ≠ 0) (notSum : ∀ terms, powers ≠ Finsupp.single (.add terms) 1)
      (coefficient : result.coefficient = number) (same : result.multiplicities = powers)

/-- A number times a single sum multiplies the combination of the sum. -/
theorem combination_ofFactors_sum {depth : Nat} {number : Rat} {terms : List Expr} {result : Expr}
    (operand : (Expr.add terms).Operand) (nonzero : number ≠ 0) (deep : 0 < depth)
    (formed : ofFactors (prodToDepth depth) number [.add terms] = some result) :
    result.combination = number • (Expr.add terms).combination := by
  obtain ⟨result', multiplied, same⟩ := operand.exists_prodToDepth (fun _ _ => deep) number
  have single : sort ((Expr.add terms).factors.filter fun factor => !factor.isNum) =
      [.add terms] := rfl
  have plain : (Expr.add terms).coefficient = 1 := rfl
  rw [prodToDepth_num operand, single, plain, mul_one, if_neg nonzero, formed] at multiplied
  cases multiplied
  exact same

/-- The product of operands is known from the product of their coefficients and from how often they
multiply every base. -/
theorem isProduct_of_prod {es : List Expr} {result : Expr} (operands : ∀ e ∈ es, e.Operand)
    (defined : prod es = some result) :
    IsProduct (es.map coefficient).prod (es.map multiplicities).sum result := by
  have canonicalResult := (operand_prod operands defined).canonical
  rw [prod] at defined
  obtain ⟨collected, collects, -⟩ := Option.bind_eq_some_iff.mp defined
  have canonical : ∀ e ∈ es, e.Canonical := fun e member => (operands e member).canonical
  obtain ⟨ascending, origins⟩ := LikeFactors.of_canonical canonical collects
  have entries : ∀ entry ∈ collected.exponents, CanonicalEntry entry := fun entry member =>
    (origins entry member).1
  obtain ⟨coefficient, exponents⟩ := LikeFactors.totals_of_canonical canonical collects
  rw [prodToDepth_of_entries entries collects,
    LikeFactors.isSingular_of_operands operands collects, coefficient] at defined
  simp only [Bool.false_eq_true, not_false_eq_true, and_true] at defined
  have sameExponents : exponentsOf (sort collected.powers) = (es.map multiplicities).sum :=
    (weights_perm (sort_perm _)).trans exponents
  rw [← sameExponents]
  split at defined
  · rename_i isZero
    exact .zero isZero (Option.some.inj defined).symm
  · rename_i nonzero
    have powers : ∀ factor ∈ sort collected.powers, factor.Power := by
      intro factor member
      obtain ⟨entry, inside, nonzero, rfl⟩ := LikeFactors.mem_powers_cases (mem_sort.mp member)
      obtain ⟨canonical, notNum, notMul, -⟩ := (entries entry inside).writtenPower nonzero
      exact ⟨canonical, notNum, notMul⟩
    have bases := ((sort_perm collected.powers).pairwise_iff fun different => Ne.symm different).mpr
      (LikeFactors.powers_bases ascending entries)
    by_cases isSum : ∃ terms, sort collected.powers = [.add terms]
    · obtain ⟨terms, single⟩ := isSum
      have member : Expr.add terms ∈ sort collected.powers := by simp [single]
      obtain ⟨entry, inside, nonzeroEntry, same⟩ :=
        LikeFactors.mem_powers_cases (mem_sort.mp member)
      have isBase := ((entries entry inside).writtenPower nonzeroEntry).2.2.2
      rw [← same] at isBase
      obtain ⟨-, e, inEs, factor, inFactors, -, origin⟩ := origins entry inside
      have isFactor : factor.base = .add terms := origin.trans isBase.symm
      have operand : (Expr.add terms).Operand :=
        ⟨(powers _ member).canonical, isFactor ▸ regular_bases (operands e inEs).regular factor
          inFactors⟩
      have deep : 0 < productDepthOfAll es := (productDepth_of_base isFactor).trans_le
        ((productDepth_of_mem_factors inFactors).trans (productDepth_le_of_mem inEs))
      rw [single] at defined ⊢
      refine .distributed nonzero terms operand ?_
        (combination_ofFactors_sum operand nonzero deep defined)
      rw [exponentsOf_cons]
      exact add_zero _
    · have notSum : ∀ terms, sort collected.powers ≠ [.add terms] := fun terms single =>
        isSum ⟨terms, single⟩
      obtain ⟨number, others⟩ := factors_of_ofFactors powers notSum defined
      refine .written nonzero (fun terms single => notSum terms
        (eq_singleton_of_exponentsOf powers bases single)) ?_ ?_
      · rw [← canonicalResult.prod_numbers, number]
      · rw [multiplicities, others]

namespace IsProduct

variable {number : ℚ} {powers : Expr →₀ ℤ} {result : Expr}

/-- A product whose numbers multiply to zero is zero. -/
theorem eq_zero (isProduct : IsProduct number powers result) (isZero : number = 0) :
    result = Expr.zero := by
  cases isProduct with
  | zero _ vanishes => exact vanishes
  | distributed nonzero => exact absurd isZero nonzero
  | written nonzero => exact absurd isZero nonzero

/-- There is only one product. -/
theorem unique {other : Expr} (isProduct : IsProduct number powers result)
    (isProduct' : IsProduct number powers other) (operand : result.Operand)
    (operand' : other.Operand) : result = other := by
  cases isProduct with
  | zero isZero vanishes => rw [vanishes, isProduct'.eq_zero isZero]
  | distributed nonzero terms _ single multiple =>
    cases isProduct' with
    | zero isZero => exact absurd isZero nonzero
    | distributed _ terms' _ single' multiple' =>
      have same : Expr.add terms = .add terms' :=
        Finsupp.single_left_injective one_ne_zero (single.symm.trans single')
      exact operand.eq_of_combination_eq operand' (by rw [multiple, multiple', same])
    | written _ notSum => exact absurd single (notSum terms)
  | written nonzero notSum coefficient same =>
    cases isProduct' with
    | zero isZero => exact absurd isZero nonzero
    | distributed _ terms _ single => exact absurd single (notSum terms)
    | written _ _ coefficient' same' =>
      exact operand.canonical.eq_of_multiplicities_eq operand'.canonical
        (coefficient.trans coefficient'.symm) (same.trans same'.symm)

end IsProduct

/-- The combination of a sum has more than one monomial. -/
theorem Operand.combination_ne_single {terms : List Expr} (operand : (Expr.add terms).Operand)
    (monomial : Expr) (coefficient : ℚ) :
    (Expr.add terms).combination ≠ Finsupp.single monomial coefficient := by
  intro single
  obtain ⟨sum, -⟩ := canonical_add_iff.mp operand.canonical
  have weigh : ∀ term ∈ terms, term.monomial = monomial := by
    intro term member
    by_contra different
    have weight : (Expr.add terms).combination term.monomial = term.coefficient :=
      weights_of_mem sum.monomials member
    rw [single, Finsupp.single_eq_of_ne different] at weight
    have divides := sum.coefficients term member weight.symm
    rw [(operand.arg member).regular] at divides
    cases divides
  match terms, sum with
  | [], sum => cases sum.several
  | [_], sum => cases sum.several with | step several => cases several
  | first :: second :: rest, sum =>
    have different := (List.pairwise_cons.mp sum.monomials).1 second List.mem_cons_self
    exact different ((weigh first (by simp)).trans (weigh second (by simp)).symm)

/-- A multiple of a sum by a number other than zero is a sum. -/
theorem Operand.exists_terms_of_multiple {terms : List Expr} {number : ℚ} {result : Expr}
    (operand : (Expr.add terms).Operand) (nonzero : number ≠ 0)
    (multiple : result.combination = number • (Expr.add terms).combination) :
    ∃ terms', result = .add terms' := by
  by_contra notSum
  rw [combination_of_not_add fun terms' same => notSum ⟨terms', same⟩] at multiple
  refine operand.combination_ne_single result.monomial (number⁻¹ * result.coefficient) ?_
  rw [← smul_eq_mul, ← Finsupp.smul_single, multiple, inv_smul_smul₀ nonzero]

/-- A sum is its own base once. -/
theorem multiplicities_add (terms : List Expr) :
    (Expr.add terms).multiplicities = Finsupp.single (.add terms) 1 :=
  (exponentsOf_cons (.add terms) []).trans (add_zero _)

namespace IsProduct

variable {number : ℚ} {powers : Expr →₀ ℤ} {result : Expr}

/-- A number times a single sum is a single sum. -/
theorem multiplicities_of_single {terms : List Expr} (isProduct : IsProduct number powers result)
    (nonzero : number ≠ 0) (single : powers = Finsupp.single (.add terms) 1) :
    result.multiplicities = Finsupp.single result 1 := by
  cases isProduct with
  | zero isZero => exact absurd isZero nonzero
  | distributed _ terms operand _ multiple =>
    obtain ⟨terms', rfl⟩ := operand.exists_terms_of_multiple nonzero multiple
    exact multiplicities_add terms'
  | written _ notSum => exact absurd single (notSum terms)

/-- A number times a sum is distributed over the terms. -/
theorem combination_of_single {terms : List Expr} (isProduct : IsProduct number powers result)
    (single : powers = Finsupp.single (.add terms) 1) :
    result.combination = number • (Expr.add terms).combination := by
  cases isProduct with
  | zero isZero vanishes => rw [isZero, vanishes, zero_smul, combination_zero]
  | distributed _ terms' _ single' multiple =>
    rw [multiple, Finsupp.single_left_injective one_ne_zero (single.symm.trans single')]
  | written _ notSum => exact absurd single (notSum terms)

/-- The coefficient of a product is what its numbers multiply to, unless it is a multiple of a
sum. -/
theorem coefficient_of_not_single (isProduct : IsProduct number powers result)
    (nonzero : number ≠ 0) (notSum : ∀ terms, powers ≠ Finsupp.single (.add terms) 1) :
    result.coefficient = number := by
  cases isProduct with
  | zero isZero => exact absurd isZero nonzero
  | distributed _ terms _ single => exact absurd single (notSum terms)
  | written _ _ coefficient => exact coefficient

/-- A product that divides by some base is written as it is. -/
theorem multiplicities_of_neg {base : Expr} (isProduct : IsProduct number powers result)
    (nonzero : number ≠ 0) (negative : powers base < 0) : result.multiplicities = powers := by
  cases isProduct with
  | zero isZero => exact absurd isZero nonzero
  | distributed _ terms _ single =>
    rw [single, Finsupp.single_apply] at negative
    split at negative <;> cases negative
  | written _ _ _ same => exact same

/-- The same factors times one of two bases make different trees if one of the products is a single
sum: the other product divides by the base of the first one. -/
theorem ne_of_single {number' : ℚ} {outer : Expr →₀ ℤ} {a b left right : Expr} {terms : List Expr}
    (isLeft : IsProduct number (outer + Finsupp.single a 1) left)
    (isRight : IsProduct number' (outer + Finsupp.single b 1) right)
    (nonzero : number ≠ 0) (nonzero' : number' ≠ 0) (others : outer ≠ 0) (different : a ≠ b)
    (single : outer + Finsupp.single a 1 = Finsupp.single (.add terms) 1) : left ≠ right := by
  have factors : outer = Finsupp.single (.add terms) 1 - Finsupp.single a 1 :=
    eq_sub_of_add_eq single
  have notBase : Expr.add terms ≠ a := by
    rintro rfl
    exact others (factors.trans (sub_self _))
  have divides : (outer + Finsupp.single b 1 : Expr →₀ ℤ) a = -1 := by
    rw [factors, Finsupp.add_apply, Finsupp.sub_apply, Finsupp.single_eq_of_ne' notBase,
      Finsupp.single_eq_same, Finsupp.single_eq_of_ne different]
    rfl
  rintro rfl
  have written := isRight.multiplicities_of_neg nonzero' (divides.trans_lt neg_one_lt_zero)
  rw [← written, isLeft.multiplicities_of_single nonzero single, Finsupp.single_apply] at divides
  split at divides <;> cases divides

end IsProduct

/-- A sum that was multiplied out by a number makes the product of the sum and the number if the
number is one, or if there is nothing else in the product than another number. -/
theorem eq_iff_of_distributed {terms : List Expr} {m n : ℚ} {outer : Expr →₀ ℤ}
    {inner left right : Expr} (operand : (Expr.add terms).Operand) (nonzero : n ≠ 0)
    (multiple : inner.combination = n • (Expr.add terms).combination)
    (isLeft : IsProduct (m * inner.coefficient) (outer + inner.multiplicities) left)
    (isRight : IsProduct (m * n) (outer + Finsupp.single (.add terms) 1) right)
    (operandInner : inner.Operand) (operandLeft : left.Operand) (operandRight : right.Operand) :
    left = right ↔ n = 1 ∨ m = 0 ∨ outer = 0 := by
  obtain ⟨terms', rfl⟩ := operand.exists_terms_of_multiple nonzero multiple
  have plain : (Expr.add terms').coefficient = 1 := rfl
  rw [plain, mul_one, multiplicities_add] at isLeft
  constructor
  · intro same
    by_contra excluded
    simp only [not_or] at excluded
    obtain ⟨notOne, nonzeroOuter, others⟩ := excluded
    have nonzeroBoth : m * n ≠ 0 := mul_ne_zero nonzeroOuter nonzero
    have different : Expr.add terms' ≠ .add terms := by
      intro unchanged
      have vanishes : (n - 1) • (Expr.add terms).combination = 0 := by
        rw [sub_smul, ← multiple, unchanged, one_smul, sub_self]
      refine operand.combination_ne_single one 0 ?_
      rw [Finsupp.single_zero]
      exact (smul_eq_zero.mp vanishes).resolve_left (sub_ne_zero.mpr notOne)
    by_cases singleLeft : ∃ u, outer + Finsupp.single (.add terms') 1 = Finsupp.single (.add u) 1
    · obtain ⟨u, single⟩ := singleLeft
      exact isLeft.ne_of_single isRight nonzeroOuter nonzeroBoth others different single same
    · by_cases singleRight : ∃ u, outer + Finsupp.single (.add terms) 1 = Finsupp.single (.add u) 1
      · obtain ⟨u, single⟩ := singleRight
        exact isRight.ne_of_single isLeft nonzeroBoth nonzeroOuter others different.symm single
          same.symm
      · have coefficient := isLeft.coefficient_of_not_single nonzeroOuter fun u single =>
          singleLeft ⟨u, single⟩
        rw [same, isRight.coefficient_of_not_single nonzeroBoth fun u single =>
          singleRight ⟨u, single⟩] at coefficient
        exact notOne ((mul_eq_left₀ nonzeroOuter).mp coefficient)
  · rintro (rfl | rfl | rfl)
    · rw [one_smul] at multiple
      rw [operandInner.eq_of_combination_eq operand multiple] at isLeft
      rw [mul_one] at isRight
      exact isLeft.unique isRight operandLeft operandRight
    · rw [isLeft.eq_zero rfl, isRight.eq_zero (zero_mul n)]
    · refine operandLeft.eq_of_combination_eq operandRight ?_
      rw [isLeft.combination_of_single (zero_add _), isRight.combination_of_single (zero_add _),
        multiple, mul_smul]

/-- The number of the inner product is multiplied into a single sum, and the outer product goes on
to multiply this sum by something other than a number. -/
structure Distributes (outer inner : List Expr) : Prop where
  number_ne_zero : (inner.map coefficient).prod ≠ 0
  number_ne_one : (inner.map coefficient).prod ≠ 1
  single : ∃ terms, (inner.map multiplicities).sum = Finsupp.single (.add terms) 1
  outer_ne_zero : (outer.map coefficient).prod ≠ 0
  others : (outer.map multiplicities).sum ≠ 0

/-- Forming a part of a product first makes the same tree, except where the number of this part is
distributed over a sum that the whole product leaves as a factor. -/
theorem prod_regrouped_iff {xs ys : List Expr} {inner left right : Expr}
    (operandsXs : ∀ e ∈ xs, e.Operand) (operandsYs : ∀ e ∈ ys, e.Operand)
    (formsInner : prod ys = some inner) (formsLeft : prod (xs ++ [inner]) = some left)
    (formsRight : prod (xs ++ ys) = some right) :
    left = right ↔ ¬Distributes xs ys := by
  have operandInner := operand_prod operandsYs formsInner
  have operandsLeft : ∀ e ∈ xs ++ [inner], e.Operand :=
    List.forall_mem_append.mpr ⟨operandsXs, List.forall_mem_singleton.mpr operandInner⟩
  have operandsRight : ∀ e ∈ xs ++ ys, e.Operand :=
    List.forall_mem_append.mpr ⟨operandsXs, operandsYs⟩
  have operandLeft := operand_prod operandsLeft formsLeft
  have operandRight := operand_prod operandsRight formsRight
  have isInner := isProduct_of_prod operandsYs formsInner
  have isLeft := isProduct_of_prod operandsLeft formsLeft
  have isRight := isProduct_of_prod operandsRight formsRight
  simp only [List.map_append, List.prod_append, List.sum_append, List.map_cons, List.map_nil,
    List.prod_cons, List.prod_nil, mul_one, List.sum_cons, List.sum_nil, add_zero]
    at isLeft isRight
  cases isInner with
  | zero isZero vanishes =>
    refine iff_of_true ?_ fun distributes => distributes.number_ne_zero isZero
    rw [isLeft.eq_zero (by rw [vanishes]; exact mul_zero _),
      isRight.eq_zero (by rw [isZero, mul_zero])]
  | written nonzero notSum coefficient same =>
    rw [coefficient, same] at isLeft
    refine iff_of_true (isLeft.unique isRight operandLeft operandRight) fun distributes => ?_
    obtain ⟨terms, single⟩ := distributes.single
    exact notSum terms single
  | distributed nonzero terms operand single multiple =>
    rw [single] at isRight
    rw [eq_iff_of_distributed operand nonzero multiple isLeft isRight operandInner operandLeft
      operandRight]
    constructor
    · rintro (isOne | isZero | alone) distributes
      · exact distributes.number_ne_one isOne
      · exact distributes.outer_ne_zero isZero
      · exact distributes.others alone
    · intro regroups
      by_contra excluded
      simp only [not_or] at excluded
      obtain ⟨notOne, nonzeroOuter, others⟩ := excluded
      exact regroups ⟨nonzero, notOne, ⟨terms, single⟩, nonzeroOuter, others⟩

/-- A symbol times twice a sum is not the product of the symbol, of two and of the sum: twice the
sum is multiplied out before the symbol is there. -/
theorem prod_regrouped_iff_double :
    prod [.num 2, sum [.sym "x", .num 1]] =
        some (.add [.num 2, .mul [.num 2, .sym "x"]]) ∧
      prod ([.sym "y"] ++ [.add [.num 2, .mul [.num 2, .sym "x"]]]) =
        some (.mul [.sym "y", .add [.num 2, .mul [.num 2, .sym "x"]]]) ∧
      prod ([.sym "y"] ++ [.num 2, sum [.sym "x", .num 1]]) =
        some (.mul [.num 2, .sym "y", .add [.num 1, .sym "x"]]) ∧
      Distributes [.sym "y"] [.num 2, sum [.sym "x", .num 1]] := by
  have formsInner : prod [.num 2, sum [.sym "x", .num 1]] =
      some (.add [.num 2, .mul [.num 2, .sym "x"]]) := by decide +kernel
  have formsLeft : prod ([.sym "y"] ++ [.add [.num 2, .mul [.num 2, .sym "x"]]]) =
      some (.mul [.sym "y", .add [.num 2, .mul [.num 2, .sym "x"]]]) := by decide +kernel
  have formsRight : prod ([.sym "y"] ++ [.num 2, sum [.sym "x", .num 1]]) =
      some (.mul [.num 2, .sym "y", .add [.num 1, .sym "x"]]) := by decide +kernel
  have symbol : (Expr.sym "y").Operand := ⟨canonical_sym "y", rfl⟩
  refine ⟨formsInner, formsLeft, formsRight, not_not.mp fun regroups => ?_⟩
  have same := (prod_regrouped_iff (List.forall_mem_singleton.mpr symbol)
    (forall_mem_pair ⟨operand_num 2, operand_succ "x"⟩) formsInner formsLeft formsRight).mpr
      regroups
  cases same

end FiniteVolume.Expr
