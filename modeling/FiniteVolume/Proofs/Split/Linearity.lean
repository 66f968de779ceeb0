import FiniteVolume.Proofs.Laurent.Restriction
import FiniteVolume.Proofs.Split.Soundness

/-!
# Splits of Laurent polynomials

On Laurent polynomials a split sorts the monomials: those without the unknowns go to the affine
part, those with one unknown to the first power and no other to its coefficient, and all others to
the nonlinear rest (`split_sorts_monomials`). The test for linearity is therefore exact.
-/

namespace FiniteVolume.Expr

open AddMonoidAlgebra Collected Exponents

/-- A tree is the canonical expanded sum of some monomials. -/
structure IsSumOf (e : Expr) (sum : Collected) : Prop where
  expanded : e.Expanded
  collected : e.collected = sum

/-- Some monomials have one canonical expanded sum. -/
theorem IsSumOf.unique {e e' : Expr} {sum : Collected} (isSum : e.IsSumOf sum)
    (isSum' : e'.IsSumOf sum) : e = e' :=
  isSum.expanded.eq_of_collected_eq isSum'.expanded (isSum.collected.trans isSum'.collected.symm)

theorem isSumOf_zero : zero.IsSumOf 0 where
  expanded := (laurentTerm_num 0).expanded
  collected := (collected_num 0).trans (single_zero 0)

/-- Zero is the canonical expanded sum of no monomials. -/
theorem IsSumOf.isZero_iff {e : Expr} {sum : Collected} (isSum : e.IsSumOf sum) :
    e.isZero = true ↔ sum = 0 := by
  constructor
  · intro isZero
    rw [← isSum.collected, eq_zero_of_isZero isZero]
    exact isSumOf_zero.collected
  · rintro rfl
    rw [isSum.unique isSumOf_zero]
    rfl

theorem collected_terms (e : Expr) : (e.terms.map collected).sum = e.collected := by
  cases e with
  | add terms => exact (collected_add terms).symm
  | _ => exact List.sum_singleton

/-- The terms without a symbol are collected into the monomials without it. -/
theorem collected_filter_terms {terms : List Expr} {name : String}
    (laurent : ∀ term ∈ terms, term.LaurentTerm) :
    ((terms.filter fun term => !term.hasSymbol name).map collected).sum =
      restrict (fun exponents => exponents name = 0) (terms.map collected).sum := by
  induction terms with
  | nil => exact (map_zero _).symm
  | cons term rest ih =>
    obtain ⟨first, later⟩ := List.forall_mem_cons.mp laurent
    rw [List.map_cons, List.sum_cons, map_add, ← ih later, first.collected]
    by_cases lacks : term.hasSymbol name = false
    · rw [List.filter_cons_of_pos (by simp [lacks]), List.map_cons, List.sum_cons, first.collected,
        restrict_single_of_keeps (first.hasSymbol_eq_false_iff.mp lacks)]
    · rw [List.filter_cons_of_neg (by simpa using lacks),
        restrict_single_of_not fun absent => lacks (first.hasSymbol_eq_false_iff.mpr absent),
        zero_add]

/-- The constant part of a Laurent polynomial is the sum of the monomials without the symbol. -/
theorem Laurent.constantPart {e result : Expr} {name : String} (laurent : e.Laurent)
    (formed : Expr.constantPart e name = some result) :
    result.IsSumOf (restrict (fun exponents => exponents name = 0) e.collected) := by
  obtain ⟨expanded, expands, same⟩ := Option.bind_eq_some_iff.mp formed
  cases same
  have isExpanded := laurent.expanded expands
  have parts : ∀ term ∈ expanded.terms.filter (fun term => !term.hasSymbol name),
      term.LaurentTerm := fun term member => isExpanded.term (List.mem_filter.mp member).1
  constructor
  · exact .sum fun term member => (parts term member).expanded
  · rw [collected_sum fun term member => (parts term member).laurent,
      collected_filter_terms fun term member => isExpanded.term member, collected_terms,
      laurent.collected_expand expands]

/-- The part of a Laurent polynomial without some symbols is the sum of the monomials without them.
-/
theorem Laurent.constantPartOfAll {names : List String} {e result : Expr} (laurent : e.Laurent)
    (formed : Expr.constantPartOfAll e names = some result)
    (expanded : names = [] → e.Expanded) :
    result.IsSumOf (restrict (Free names) e.collected) := by
  induction names generalizing e with
  | nil =>
    cases formed
    refine ⟨expanded rfl, coeff_injective ?_⟩
    ext exponents
    exact (coeff_restrict_of_keeps fun _ member => nomatch member).symm
  | cons name rest ih =>
    obtain ⟨part, partFormed, formed⟩ := Option.bind_eq_some_iff.mp formed
    have isPart := laurent.constantPart partFormed
    have isSum := ih isPart.expanded.laurent formed fun _ => isPart.expanded
    rwa [isPart.collected, restrict_free_cons] at isSum

/-- The unknowns times their coefficients are the monomials that are linear in one of them. -/
theorem collected_captured {unknowns names : List String} {sum : Collected}
    {linear captured : List Expr}
    (coefficients : List.Forall₂ (fun unknown coefficient =>
      IsSumOf coefficient (linearCoefficient names unknown sum)) unknowns linear)
    (formed : ((unknowns.zip linear).mapM fun (unknown, coefficient) =>
      prod [.sym unknown, coefficient]) = some captured) :
    (Expr.sum captured).collected =
        (unknowns.map fun unknown => restrict (LinearIn names unknown) sum).sum ∧
      ∀ product ∈ captured, product.Laurent := by
  obtain ⟨sameLength, each⟩ := List.forall₂_iff_zip.mp coefficients
  have laurentPair : ∀ pair ∈ unknowns.zip linear, (Expr.sym pair.1).Laurent ∧ pair.2.Laurent :=
    fun pair member => ⟨laurent_sym pair.1, (each member).expanded.laurent⟩
  have laurentCaptured : ∀ product ∈ captured, product.Laurent :=
    forall_mem_of_mapM formed fun pair member product multiplied =>
      hereditary_laurent.prod multiplied (forall_mem_pair (laurentPair pair member))
  have products : captured.map collected = (unknowns.zip linear).map fun pair =>
      restrict (LinearIn names pair.1) sum := by
    refine map_eq_of_mapM formed _ fun pair member product multiplied => ?_
    obtain ⟨laurentSym, laurentCoefficient⟩ := laurentPair pair member
    rw [collected_prod_pair laurentSym laurentCoefficient multiplied, collected_sym,
      (each member).collected, single_mul_linearCoefficient]
  refine ⟨?_, laurentCaptured⟩
  rw [collected_sum laurentCaptured, products]
  have names' : (unknowns.zip linear).map Prod.fst = unknowns :=
    List.map_fst_zip sameLength.le
  conv_rhs => rw [← names', List.map_map]
  rfl

/-- How a split sorts the monomials of a Laurent polynomial. The linearity test accepts it exactly
when every monomial holds no unknown or one of them to the first power. The affine part is the
canonical sum of the monomials without unknowns, every coefficient that of the monomials that are
linear in its unknown, divided by it, and the nonlinear part that of all other monomials. -/
theorem split_sorts_monomials {e : Expr} {unknowns : List String} {parts : AffineSplit}
    (laurent : e.Laurent) (distinct : unknowns.Nodup) (splits : e.split unknowns = some parts) :
    (parts.isLinear = true ↔
      ∀ exponents ∈ e.collected.coeff.support, Affine unknowns exponents) ∧
    parts.affine.IsSumOf (restrict (Free unknowns) e.collected) ∧
    List.Forall₂ (fun unknown coefficient =>
      IsSumOf coefficient (linearCoefficient unknowns unknown e.collected)) unknowns parts.linear ∧
    parts.nonlinear.IsSumOf
      (restrict (fun exponents => ¬Affine unknowns exponents) e.collected) := by
  obtain ⟨expanded, captured, difference, rest, expands, affineFormed, linearFormed, capturedFormed,
    differenceFormed, restFormed, nonlinearFormed⟩ := split_cases splits
  have isExpanded := laurent.expanded expands
  have collectedExpanded := laurent.collected_expand expands
  have affine := isExpanded.laurent.constantPartOfAll affineFormed fun _ => isExpanded
  rw [collectedExpanded] at affine
  have coefficient : ∀ unknown ∈ unknowns, ∀ coefficient, (do
      (← expanded.diff unknown).constantPartOfAll unknowns) = some coefficient →
      coefficient.IsSumOf (linearCoefficient unknowns unknown e.collected) := by
    intro unknown present coefficient formed
    obtain ⟨slope, differentiates, formed⟩ := Option.bind_eq_some_iff.mp formed
    obtain ⟨laurentSlope, collectedSlope⟩ :=
      isExpanded.canonical.differentiates isExpanded.laurent slope differentiates
    have isSum := laurentSlope.constantPartOfAll formed fun none =>
      absurd present (none ▸ List.not_mem_nil)
    rwa [collectedSlope, collectedExpanded, restrict_derivative present] at isSum
  have linear : List.Forall₂ (fun unknown coefficient =>
      IsSumOf coefficient (linearCoefficient unknowns unknown e.collected)) unknowns
      parts.linear := forall₂_of_mapM linearFormed coefficient
  obtain ⟨sumCaptured, laurentCaptured⟩ := collected_captured linear capturedFormed
  have laurentDifference :=
    hereditary_laurent.sub differenceFormed isExpanded.laurent affine.expanded.laurent
  have laurentSum := hereditary_laurent.sum laurentCaptured
  have laurentRest := hereditary_laurent.sub restFormed laurentDifference laurentSum
  have nonlinear : parts.nonlinear.IsSumOf
      (restrict (fun exponents => ¬Affine unknowns exponents) e.collected) := by
    refine ⟨laurentRest.expanded nonlinearFormed, ?_⟩
    rw [laurentRest.collected_expand nonlinearFormed,
      collected_sub laurentDifference laurentSum restFormed, sumCaptured,
      collected_sub isExpanded.laurent affine.expanded.laurent differenceFormed, affine.collected,
      collectedExpanded, restrict_not, restrict_affine distinct, sub_sub]
  refine ⟨?_, affine, linear, nonlinear⟩
  rw [AffineSplit.isLinear, nonlinear.isZero_iff, restrict_eq_zero_iff]
  exact forall₂_congr fun exponents _ => not_not

/-- The mixed terms of `u * (v + y) - u * v` cancel, those of `(u + v) ^ 2` do not. -/
theorem split_sorts_monomials_mixed :
    let cancelled : Expr := .add [.mul [.sym "u", .add [.sym "v", .sym "y"]],
      .mul [.num (-1), .sym "u", .sym "v"]]
    let square : Expr := .pow (.add [.sym "u", .sym "v"]) ⟨2, by decide, by decide⟩
    ((∀ exponents ∈ cancelled.collected.coeff.support, Affine ["u", "v"] exponents) ∧
      IsSumOf (.sym "y") (linearCoefficient ["u", "v"] "u" cancelled.collected)) ∧
    ∃ exponents ∈ square.collected.coeff.support, ¬Affine ["u", "v"] exponents := by
  intro cancelled square
  have splitsCancelled : cancelled.split ["u", "v"] =
      some ⟨.num 0, [.sym "y", .num 0], .num 0⟩ := by
    decide +kernel
  have splitsSquare : (square.split ["u", "v"]).map AffineSplit.isLinear = some false := by
    decide +kernel
  have laurentCancelled : cancelled.Laurent := by
    simp [cancelled, Laurent, LaurentNode, subterms, subtermsOfAll]
  have laurentSquare : square.Laurent := by
    simp [square, Laurent, LaurentNode, subterms, subtermsOfAll]
  constructor
  · obtain ⟨test, -, linear, -⟩ :=
      split_sorts_monomials laurentCancelled (by decide) splitsCancelled
    exact ⟨test.mp rfl, (List.forall₂_cons.mp linear).1⟩
  · obtain ⟨parts, splits, rejected⟩ := Option.map_eq_some_iff.mp splitsSquare
    obtain ⟨test, -⟩ := split_sorts_monomials laurentSquare (by decide) splits
    by_contra allAffine
    push Not at allAffine
    rw [test.mpr allAffine] at rejected
    cases rejected

end FiniteVolume.Expr
