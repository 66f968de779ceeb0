import FiniteVolume.Proofs.Canonical.Gathered
import FiniteVolume.Proofs.Canonical.Power

/-!
# How deeply products nest

The nesting depth of a tree bounds how deeply products open inside one another while it is
multiplied or raised to a power. Sums nest at most one level deeper than their terms
(`productDepth_sum_le`), products and powers no deeper than what they are formed of
(`productDepth_prodToDepth_le`, `productDepth_raise_le`). The bases under which the factors of a
product are collected lie deeper inside it, unless raising them opens no product
(`depth_of_collects`).
-/

namespace FiniteVolume.Expr

variable {e factor : Expr} {es : List Expr} {bound : Nat}

/-- A bound on the depths of several trees is one on each of them. -/
theorem productDepthOfAll_le_iff :
    productDepthOfAll es ≤ bound ↔ ∀ e ∈ es, e.productDepth ≤ bound := by
  induction es with
  | nil => simp [productDepthOfAll]
  | cons e rest ih => rw [productDepthOfAll, max_le_iff, ih, List.forall_mem_cons]

/-- What each member of a list is mapped to nests no deeper than the list, if it nests no deeper
than the member. -/
theorem productDepthOfAll_le_of_mapM {f : Expr → Option Expr} {results : List Expr}
    (mapped : es.mapM f = some results)
    (deep : ∀ e ∈ es, ∀ result, f e = some result → result.productDepth ≤ e.productDepth) :
    productDepthOfAll results ≤ productDepthOfAll es := by
  refine productDepthOfAll_le_iff.mpr fun result present => ?_
  obtain ⟨e, member, answers⟩ := exists_of_mem_mapM mapped present
  exact (deep e member result answers).trans (productDepth_le_of_mem member)

/-- The terms of a sum have fewer nested products than the sum. -/
theorem productDepth_lt_of_mem_terms {terms : List Expr} (member : e ∈ terms) :
    e.productDepth < (Expr.add terms).productDepth :=
  Nat.lt_succ_of_le (productDepth_le_of_mem member)

/-- A base has no deeper products than its powers. -/
theorem productDepth_le_pow (base : Expr) (exponent : Exponent) :
    base.productDepth ≤ (Expr.pow base exponent).productDepth := by
  cases base <;> simp [productDepth]

/-- The base of a factor lies deeper inside the factor if raising it may open a product. -/
theorem productDepth_base_cases (notMul : ∀ factors, factor ≠ .mul factors) :
    (factor.base.isGenerator = true ∨ factor.base.isNum = true) ∨
      factor.base.productDepth < factor.productDepth := by
  cases factor with
  | mul factors => exact absurd rfl (notMul factors)
  | pow base exponent =>
    change (base.isGenerator = true ∨ base.isNum = true) ∨ base.productDepth < _
    cases base <;> simp [productDepth, isGenerator, isNum, value?]
  | _ => simp [base, isGenerator, isNum, value?]

/-- The base of a factor has no deeper products than the factor. -/
theorem productDepth_base_le (factor : Expr) : factor.base.productDepth ≤ factor.productDepth := by
  cases factor with
  | pow base exponent => exact productDepth_le_pow base exponent
  | _ => exact le_rfl

/-- Factors of dissolved products are no products, and they nest no deeper. -/
theorem productDepth_of_mem_looseFactors (member : factor ∈ e.looseFactors) :
    factor.productDepth ≤ e.productDepth ∧ ∀ inner, factor ≠ .mul inner := by
  induction e with
  | mul factors ih =>
    rw [looseFactors, looseFactorsOfAll_eq_flatMap, List.mem_flatMap] at member
    obtain ⟨source, inside, member⟩ := member
    obtain ⟨deep, notMul⟩ := ih source inside member
    exact ⟨deep.trans (productDepth_le_of_mem inside), notMul⟩
  | _ =>
    rw [List.mem_singleton.mp member]
    exact ⟨le_rfl, fun _ => by simp⟩

/-- The bases of collected factors nest no deeper than the factors, and less deeply if raising them
may open a product. -/
theorem depth_of_collects {collected : LikeFactors}
    (collects : LikeFactors.ofFactors (looseFactorsOfAll es) = some collected) :
    ∀ entry ∈ collected.exponents, entry.1.productDepth ≤ productDepthOfAll es ∧
      ((entry.1.isGenerator = true ∨ entry.1.isNum = true) ∨
        entry.1.productDepth < productDepthOfAll es) := by
  intro entry member
  obtain ⟨factor, inside, -, same⟩ := (LikeFactors.base_of_mem collects).2 entry member
  rw [looseFactorsOfAll_eq_flatMap, List.mem_flatMap] at inside
  obtain ⟨e, isOperand, inside⟩ := inside
  obtain ⟨deep, notMul⟩ := productDepth_of_mem_looseFactors inside
  have within : factor.productDepth ≤ productDepthOfAll es :=
    deep.trans (productDepth_le_of_mem isOperand)
  rw [← same]
  exact ⟨(productDepth_base_le factor).trans within,
    (productDepth_base_cases notMul).imp_right fun less => less.trans_le within⟩

/-- What is left without the coefficient has no deeper products. -/
theorem productDepth_splitCoefficient_le (e : Expr) :
    e.splitCoefficient.2.productDepth ≤ e.productDepth := by
  rcases splitCoefficient_cases e with ⟨c, factor, rfl, split⟩ | ⟨c, factors, rfl, -, split⟩ | split
  · rw [split]
    exact productDepth_le_of_mem (by simp)
  · rw [split]
    exact le_max_right _ _
  · rw [split]

/-- A coefficient adds no depth. -/
theorem productDepth_scale_le (coefficient : Rat) (monomial : Expr) :
    (scale coefficient monomial).productDepth ≤ monomial.productDepth := by
  unfold scale
  split
  · exact le_rfl
  · cases monomial <;> simp [productDepth, productDepthOfAll]

/-- The summands of a tree have no deeper products than the tree. -/
theorem productDepth_of_mem_summands {term : Expr} (member : term ∈ e.summands) :
    term.productDepth ≤ e.productDepth := by
  induction e with
  | add terms ih =>
    rw [summands, summandsOfAll_eq_flatMap, List.mem_flatMap] at member
    obtain ⟨source, inside, member⟩ := member
    exact (ih source inside member).trans (productDepth_lt_of_mem_terms inside).le
  | _ => rw [List.mem_singleton.mp member]

/-- A sum nests at most one level deeper than its terms. -/
theorem productDepth_sum_le (deep : ∀ e ∈ es, e.productDepth ≤ bound) :
    (sum es).productDepth ≤ bound + 1 := by
  have summand : ∀ term ∈ summandsOfAll es, term.productDepth ≤ bound := by
    intro term member
    rw [summandsOfAll_eq_flatMap, List.mem_flatMap] at member
    obtain ⟨e, inside, member⟩ := member
    exact (productDepth_of_mem_summands member).trans (deep e inside)
  have written : ∀ term ∈ (LikeTerms.ofTerms (summandsOfAll es)).toTerms,
      term.productDepth ≤ bound := by
    intro term member
    rw [LikeTerms.toTerms_eq_sort, mem_sort] at member
    rcases LikeTerms.mem_unsorted_cases member with ⟨rfl, -⟩ | ⟨entry, inside, -, rfl⟩
    · exact Nat.zero_le bound
    · obtain ⟨source, present, -, same⟩ := LikeTerms.exists_term_of_mem inside
      calc (scale entry.2 entry.1).productDepth
          ≤ entry.1.productDepth := productDepth_scale_le _ _
        _ ≤ source.productDepth := same ▸ productDepth_splitCoefficient_le source
        _ ≤ bound := summand source present
  unfold sum ofTerms
  split
  · exact Nat.zero_le _
  · rename_i term single
    exact (written term (by simp [single])).trans (Nat.le_succ bound)
  · exact Nat.succ_le_succ (productDepthOfAll_le_iff.mpr written)

section Products

variable {product : List Expr → Option Expr}

/-- A power is one or its base, it is written as it stands, or it is formed of the powers inside its
base. -/
theorem raise_cases {exponent : Exponent} {result : Expr}
    (raised : raise product e exponent = some result) :
    (result.isNum = true ∨ result = e ∨
      (e.isGenerator = true ∨ e.isNum = true) ∧ result = .pow e exponent) ∨
    (∃ base inner total, e = .pow base inner ∧ raise product base total = some result) ∨
    ∃ factors powers, e = .mul factors ∧
      (factors.mapM fun factor => raise product factor exponent) = some powers ∧
        product powers = some result := by
  unfold raise at raised
  split at raised
  · cases raised
    exact Or.inl (Or.inl rfl)
  · split at raised
    · cases raised
      exact Or.inl (Or.inr (Or.inl rfl))
    · cases e with
      | num value =>
        dsimp only at raised
        split at raised <;> cases raised
        · exact Or.inl (Or.inr (Or.inr ⟨Or.inr rfl, rfl⟩))
        · exact Or.inl (Or.inl rfl)
      | pow base inner =>
        obtain ⟨total, -, raised⟩ := Option.bind_eq_some_iff.mp raised
        exact Or.inr (Or.inl ⟨base, inner, total, rfl, raised⟩)
      | mul factors =>
        obtain ⟨powers, raisedAll, multiplied⟩ := Option.bind_eq_some_iff.mp raised
        rw [raiseAll_eq_mapM] at raisedAll
        exact Or.inr (Or.inr ⟨factors, powers, rfl, raisedAll, multiplied⟩)
      | _ =>
        cases raised
        exact Or.inl (Or.inr (Or.inr ⟨Or.inl rfl, rfl⟩))

/-- Powers of bases are as deep as the bases. -/
theorem productDepth_pow_of_base (isBase : e.isGenerator = true ∨ e.isNum = true)
    (exponent : Exponent) : (Expr.pow e exponent).productDepth = e.productDepth := by
  cases e <;> simp [isGenerator, isNum, value?, productDepth] at isBase ⊢

variable
  (products : ∀ es result, product es = some result → result.productDepth ≤ productDepthOfAll es)

include products

/-- Powers nest products no deeper than their bases, if products do not. -/
theorem productDepth_raise_le (e : Expr) : ∀ exponent result,
    raise product e exponent = some result → result.productDepth ≤ e.productDepth := by
  induction e using induction_args with
  | step e ih =>
    intro exponent result raised
    obtain (isNum | rfl | ⟨isBase, rfl⟩) | ⟨base, inner, total, rfl, raises⟩ |
      ⟨factors, powers, rfl, raisedAll, multiplied⟩ := raise_cases raised
    · obtain ⟨value, rfl⟩ := eq_num_of_isNum isNum
      exact Nat.zero_le _
    · exact le_rfl
    · exact (productDepth_pow_of_base isBase exponent).le
    · exact (ih base (by simp [args]) total result raises).trans (productDepth_le_pow base inner)
    · refine (products powers result multiplied).trans ?_
      exact productDepthOfAll_le_of_mapM raisedAll fun factor member => ih factor member exponent

/-- Putting a product together from its factors nests products no deeper than the factors do. -/
theorem productDepth_ofFactors_le {coefficient : Rat} {factors : List Expr} {result : Expr}
    (formed : ofFactors product coefficient factors = some result) :
    result.productDepth ≤ productDepthOfAll factors := by
  unfold ofFactors at formed
  split at formed
  · cases formed
    exact le_rfl
  · rename_i terms
    split at formed
    · cases formed
      exact productDepth_le_of_mem List.mem_cons_self
    · obtain ⟨scaled, multiplied, same⟩ := Option.bind_eq_some_iff.mp formed
      cases same
      have deep : productDepthOfAll scaled ≤ productDepthOfAll terms := by
        refine productDepthOfAll_le_of_mapM multiplied fun term _ result multiplies => ?_
        refine (products _ result multiplies).trans (productDepthOfAll_le_iff.mpr ?_)
        exact forall_mem_pair ⟨Nat.zero_le _, le_rfl⟩
      have single : (Expr.add terms).productDepth ≤ productDepthOfAll [.add terms] :=
        productDepth_le_of_mem List.mem_cons_self
      exact (productDepth_sum_le (productDepthOfAll_le_iff.mp deep)).trans single
  · cases formed
    exact (productDepth_scale_le _ _).trans (productDepth_le_of_mem List.mem_cons_self)
  · split at formed
    · cases formed
      exact le_rfl
    · cases formed
      exact max_le (Nat.zero_le _) le_rfl

end Products

/-- The factors of all powers of a collected product nest products no deeper than its operands. -/
theorem productDepth_of_raised {product : List Expr → Option Expr} {collected : LikeFactors}
    {powers : List Expr}
    (products : ∀ es result, product es = some result → result.productDepth ≤ productDepthOfAll es)
    (collects : LikeFactors.ofFactors (looseFactorsOfAll es) = some collected)
    (raised : (collected.exponents.mapM fun entry => raise product entry.1 entry.2) = some powers) :
    ∀ factor ∈ sort ((powers.flatMap factors).filter fun factor => !factor.isNum),
      factor.productDepth ≤ productDepthOfAll es := by
  intro factor member
  rw [mem_sort] at member
  obtain ⟨power, present, member⟩ := List.mem_flatMap.mp (List.mem_filter.mp member).1
  obtain ⟨entry, inside, raises⟩ := exists_of_mem_mapM raised present
  calc factor.productDepth
      ≤ power.productDepth := productDepth_of_mem_factors member
    _ ≤ entry.1.productDepth := productDepth_raise_le products _ _ _ raises
    _ ≤ productDepthOfAll es := (depth_of_collects collects entry inside).1

/-- A product nests products no deeper than its operands, whatever bounds its recursion. -/
theorem productDepth_prodToDepth_le (depth : Nat) :
    ∀ es result, prodToDepth depth es = some result →
      result.productDepth ≤ productDepthOfAll es := by
  induction depth with
  | zero =>
    intro es result formed
    cases formed
    exact le_rfl
  | succ depth ih =>
    intro es result formed
    obtain ⟨collected, collects, formed⟩ := Option.bind_eq_some_iff.mp formed
    split at formed
    · cases formed
      exact Nat.zero_le _
    · obtain ⟨powers, raised, formed⟩ := Option.bind_eq_some_iff.mp formed
      dsimp only at formed
      split at formed
      · cases formed
        exact Nat.zero_le _
      · exact (productDepth_ofFactors_le ih formed).trans
          (productDepthOfAll_le_iff.mpr (productDepth_of_raised ih collects raised))

end FiniteVolume.Expr
