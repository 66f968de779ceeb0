import FiniteVolume.Proofs.Canonical.Regrouping

/-!
# The order of operands

Sums and products do not depend on the order of their operands, whatever trees these are
(`sum_prod_of_perm`). Nested sums and products are dissolved into terms and factors, and those are
collected in a tally that gives each monomial the weight of all its terms (`LikeTerms.get?_ofTerms`)
and each base the weight of all its factors (`LikeFactors.get?_of_collects`). No order changes a
weight, and an ascending tally is known from the values it gives (`Tally.Ascending.ext`).

Exponents are added one after the other, so the order decides whether a partial sum leaves the
range. Nothing else does: a product that is only formed in one order is not collected in the other.
-/

namespace FiniteVolume.Expr

namespace LikeTerms

variable {terms others : List Expr}

theorem constant_ofTerms (terms : List Expr) :
    (ofTerms terms).constant = ((terms.filter isNum).map coefficient).sum := by
  induction terms with
  | nil => rfl
  | cons term rest ih =>
    change (insert term (ofTerms rest)).constant = _
    cases isNum : term.isNum with
    | true =>
      obtain ⟨value, rfl⟩ := eq_num_of_isNum isNum
      rw [List.filter_cons_of_pos isNum, List.map_cons, List.sum_cons, ← ih]
      exact add_comm _ _
    | false => rw [insert_of_not_num isNum, List.filter_cons_of_neg (by simp [isNum]), ← ih]

/-- The coefficient of a monomial is what the coefficients of its terms add up to. -/
theorem get?_ofTerms (terms : List Expr) (monomial : Expr) :
    (ofTerms terms).coefficients.get? monomial =
      weight? (fun term => term.splitCoefficient.2) (fun term => term.splitCoefficient.1)
        (terms.filter fun term => !term.isNum) monomial := by
  induction terms with
  | nil => rfl
  | cons term rest ih =>
    change (insert term (ofTerms rest)).coefficients.get? monomial = _
    cases isNum : term.isNum with
    | true =>
      obtain ⟨value, rfl⟩ := eq_num_of_isNum isNum
      rw [List.filter_cons_of_neg (by simp [isNum]), ← ih]
      rfl
    | false =>
      rw [insert_of_not_num isNum, Tally.get?_insert, List.filter_cons_of_pos (by simp [isNum]),
        weight?_cons, ← ih]
      split
      · rename_i same
        rw [same, add_comm]
      · rfl

/-- Terms are collected in any order. -/
theorem ofTerms_congr (perm : terms.Perm others) : ofTerms terms = ofTerms others := by
  have constant : (ofTerms terms).constant = (ofTerms others).constant := by
    rw [constant_ofTerms, constant_ofTerms, ((perm.filter isNum).map _).sum_eq]
  have coefficients : (ofTerms terms).coefficients = (ofTerms others).coefficients :=
    (ascending_ofTerms terms).ext (ascending_ofTerms others) fun monomial => by
      rw [get?_ofTerms, get?_ofTerms, weight?_perm (perm.filter _)]
  exact congrArg₂ LikeTerms.mk constant coefficients

end LikeTerms

namespace LikeFactors

variable {factors others : List Expr} {collected collected' : LikeFactors}

/-- The exponent of a base is what the exponents of its factors add up to. -/
theorem get?_of_collects (collects : ofFactors factors = some collected) (base : Expr) :
    (collected.exponents.get? base).map Exponent.val =
      weight? Expr.base (fun factor => factor.factorExponent.val)
        (factors.filter fun factor => !factor.isNum) base := by
  induction factors generalizing collected with
  | nil =>
    cases collects
    rfl
  | cons factor rest ih =>
    obtain ⟨before, collectsRest, inserted⟩ := Option.bind_eq_some_iff.mp collects
    cases isNum : factor.isNum with
    | true =>
      obtain ⟨value, rfl⟩ := eq_num_of_isNum isNum
      cases inserted
      rw [List.filter_cons_of_neg (by simp [isNum]), ← ih collectsRest]
    | false =>
      rw [insert_of_not_num isNum] at inserted
      obtain ⟨total, added, same⟩ := Option.bind_eq_some_iff.mp inserted
      cases same
      rw [Tally.get?_insert, List.filter_cons_of_pos (by simp [isNum]), weight?_cons,
        ← ih collectsRest]
      -- exponents are only compared by value, as the partial sums depend on the order
      split
      · rename_i same
        rw [Option.map_some, Exponent.val_of_add? added, same, add_comm]
        cases before.exponents.get? factor.base <;> rfl
      · rfl

/-- Factors are collected in any order in which no exponent overflows. -/
theorem ofFactors_congr (perm : factors.Perm others) (collects : ofFactors factors = some collected)
    (collects' : ofFactors others = some collected') : collected = collected' := by
  have coefficient : collected.coefficient = collected'.coefficient := by
    rw [(exponents_of_collects collects).1, (exponents_of_collects collects').1,
      ((perm.filter isNum).map _).prod_eq]
  have vals : Function.Injective Exponent.val := fun _ _ => Exponent.ext
  have exponents : collected.exponents = collected'.exponents :=
    (base_of_mem collects).1.ext (base_of_mem collects').1 fun base =>
      Option.map_injective vals (by
        rw [get?_of_collects collects, get?_of_collects collects', weight?_perm (perm.filter _)])
  exact congrArg₂ LikeFactors.mk coefficient exponents

end LikeFactors

variable {es others : List Expr}

/-- The operands of a sum may be in any order. -/
theorem sum_eq_of_perm (perm : es.Perm others) : sum es = sum others := by
  have summands : (summandsOfAll es).Perm (summandsOfAll others) := by
    rw [summandsOfAll_eq_flatMap, summandsOfAll_eq_flatMap]
    exact perm.flatMap_right _
  rw [sum, sum, LikeTerms.ofTerms_congr summands]

theorem looseFactorsOfAll_perm (perm : es.Perm others) :
    (looseFactorsOfAll es).Perm (looseFactorsOfAll others) := by
  rw [looseFactorsOfAll_eq_flatMap, looseFactorsOfAll_eq_flatMap]
  exact perm.flatMap_right _

theorem productDepthOfAll_congr (perm : es.Perm others) :
    productDepthOfAll es = productDepthOfAll others := by
  induction perm with
  | nil => rfl
  | cons e _ ih => exact congrArg (max e.productDepth) ih
  | swap e e' rest => exact max_left_comm _ _ _
  | trans _ _ first second => exact first.trans second

/-- A product depends on its collected factors only. -/
theorem prod_congr_of_collects (perm : es.Perm others)
    (same : LikeFactors.ofFactors (looseFactorsOfAll es) =
      LikeFactors.ofFactors (looseFactorsOfAll others)) : prod es = prod others := by
  rw [prod, prod, productDepthOfAll_congr perm, prodToDepth, prodToDepth, same]

/-- Factors that are not collected have no product. -/
theorem exists_of_prod {product : Expr} (formed : prod es = some product) :
    ∃ collected, LikeFactors.ofFactors (looseFactorsOfAll es) = some collected := by
  rw [prod, prodToDepth] at formed
  obtain ⟨collected, collects, -⟩ := Option.bind_eq_some_iff.mp formed
  exact ⟨collected, collects⟩

/-- Sums and products of any trees do not depend on the order of the operands, as long as no
exponent overflows. A product in one order is that in the other one, unless an exponent overflows
while the factors are collected there. -/
theorem sum_prod_of_perm (perm : es.Perm others) :
    sum es = sum others ∧
      (∀ product product', prod es = some product → prod others = some product' →
        product = product') ∧
      ∀ product, prod es = some product → prod others = some product ∨
        LikeFactors.ofFactors (looseFactorsOfAll others) = none := by
  have reordered : ∀ product, prod es = some product → prod others = some product ∨
      LikeFactors.ofFactors (looseFactorsOfAll others) = none := by
    intro product formed
    obtain ⟨collected, collects⟩ := exists_of_prod formed
    cases collects' : LikeFactors.ofFactors (looseFactorsOfAll others) with
    | none => exact Or.inr rfl
    | some collected' =>
      have same : collected = collected' :=
        LikeFactors.ofFactors_congr (looseFactorsOfAll_perm perm) collects collects'
      rw [← prod_congr_of_collects perm (by rw [collects, collects', same])]
      exact Or.inl formed
  refine ⟨sum_eq_of_perm perm, fun product product' formed formed' => ?_, reordered⟩
  rcases reordered product formed with same | overflows
  · exact Option.some.inj (same.symm.trans formed')
  · obtain ⟨collected', collects'⟩ := exists_of_prod formed'
    rw [overflows] at collects'
    cases collects'

/-- Raw operands whose bases repeat across nested products. -/
theorem sum_prod_of_perm_nested :
    let nested : Expr := .mul [.sym "y", .mul [.sym "x", .num 2]]
    let cube : Expr := .pow (.sym "x") { val := 3 }
    let total : Expr := .add [.sym "x", .num 1]
    [nested, cube, total].Perm [total, nested, cube] ∧
      sum [nested, cube, total] = sum [total, nested, cube] ∧
      ∃ product, prod [nested, cube, total] = some product ∧
        prod [total, nested, cube] = some product := by
  intro nested cube total
  have perm : [nested, cube, total].Perm [total, nested, cube] :=
    @List.perm_append_comm _ [nested, cube] [total]
  obtain ⟨sameSum, sameProduct, -⟩ := sum_prod_of_perm perm
  have formed : (prod [nested, cube, total]).isSome = true := by decide +kernel
  have formed' : (prod [total, nested, cube]).isSome = true := by decide +kernel
  obtain ⟨product, formed⟩ := Option.isSome_iff_exists.mp formed
  obtain ⟨product', formed'⟩ := Option.isSome_iff_exists.mp formed'
  exact ⟨perm, sameSum, product, formed, sameProduct _ _ formed formed' ▸ formed'⟩

/-- The exponent overflows on the way in one of two orders. -/
example : prod [.pow (.sym "x") { val := 9223372036854775807 }, .sym "x", .pow (.sym "x") .negOne] =
      some (.pow (.sym "x") { val := 9223372036854775807 }) ∧
    prod [.pow (.sym "x") .negOne, .pow (.sym "x") { val := 9223372036854775807 }, .sym "x"] =
      none := by
  decide +kernel

end FiniteVolume.Expr
