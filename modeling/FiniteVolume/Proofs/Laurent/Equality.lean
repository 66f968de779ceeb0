import FiniteVolume.Proofs.Canonical.Combination
import FiniteVolume.Proofs.Laurent.Character

/-!
# Equality of Laurent polynomials

Two Laurent polynomials have the same values wherever their symbols do not vanish exactly when they
expand into the same tree (`expand_eq_iff`). That equal values make equal trees rests on the linear
independence of characters: the values of an expanded sum determine the coefficient of every
monomial, and the coefficients determine the sum.
-/

namespace FiniteVolume.Expr

theorem LaurentTerm.summand {e : Expr} (term : e.LaurentTerm) : e.Summand :=
  ⟨⟨term.canonical, term.regular⟩, term.product.not_add⟩

/-- An expanded polynomial is an operand. -/
theorem Expanded.operand {e : Expr} (expanded : e.Expanded) : e.Operand where
  canonical := expanded.canonical
  regular := by
    have terms : ∀ term ∈ e.terms, term.dividesByZero = false := fun term member =>
      (expanded.term member).regular
    cases e with
    | add terms =>
      rw [← Bool.not_eq_true, dividesByZero_iff]
      rintro (inverse | ⟨term, member, divides⟩)
      · cases inverse
      · rw [(expanded.term member).regular] at divides
        cases divides
    | _ => exact terms _ List.mem_cons_self

/-- The value of a term is its coefficient times the value of its monomial. -/
theorem LaurentTerm.valueIn {e : Expr} (term : e.LaurentTerm) (assignment : Assignment) :
    e.valueIn assignment.reading = e.coefficient * e.monomial.character assignment := by
  rw [← term.laurentMonomial.valueIn]
  cases isNum : e.isNum with
  | true =>
    obtain ⟨value, rfl⟩ := eq_num_of_isNum isNum
    simp [coefficient, monomial, one]
  | false =>
    rw [coefficient_of_not_num isNum, monomial_of_not_num isNum]
    exact (valueIn_splitCoefficient e).symm

/-- The values of its terms add up to the value of a tree. -/
theorem sum_valueIn_terms {K : Type*} [Field K] {reading : Interpretation K} (e : Expr) :
    (e.terms.map (Expr.valueIn reading)).sum = e.valueIn reading := by
  cases e <;> simp [terms, valueIn_add]

/-- The coefficients of the monomials of a sum, by their characters. -/
noncomputable def spectrum (e : Expr) : (Assignment →* ℚ) →₀ ℚ :=
  (e.terms.map fun term => Finsupp.single term.monomial.character term.coefficient).sum

namespace Expanded

variable {e : Expr}

/-- The value of an expanded sum is the combination of the characters of its monomials. -/
theorem valueIn (expanded : e.Expanded) (assignment : Assignment) :
    e.valueIn assignment.reading =
      Finsupp.linearCombination ℚ (fun χ : Assignment →* ℚ => (χ : Assignment → ℚ)) e.spectrum
        assignment := by
  have values : e.terms.map (Expr.valueIn assignment.reading) = e.terms.map fun term =>
      term.coefficient * term.monomial.character assignment :=
    List.map_congr_left fun term member => (expanded.term member).valueIn assignment
  rw [← sum_valueIn_terms, values]
  refine Eq.symm ((map_list_sum ((LinearMap.proj assignment).comp
    (Finsupp.linearCombination ℚ fun χ : Assignment →* ℚ => (χ : Assignment → ℚ))) _).trans ?_)
  rw [List.map_map]
  refine congrArg List.sum (List.map_congr_left fun term _ => ?_)
  simp

/-- The terms of an expanded sum have different characters. -/
theorem characters (expanded : e.Expanded) :
    e.terms.Pairwise fun left right => left.monomial.character ≠ right.monomial.character :=
  expanded.canonical.terms_monomials.imp_of_mem fun inLeft inRight different same =>
    different ((expanded.term inLeft).laurentMonomial.eq_of_character_eq
      (expanded.term inRight).laurentMonomial same)

/-- Every term of a sum is a term of any other sum with the same coefficients of the characters. -/
theorem mem_terms_of_spectrum_eq {e' : Expr} (expanded : e.Expanded) (expanded' : e'.Expanded)
    (same : e.spectrum = e'.spectrum) {term : Expr} (member : term ∈ e.terms)
    (nonzero : term.coefficient ≠ 0) : term ∈ e'.terms := by
  refine mem_of_weights_eq expanded.characters expanded'.characters same ?_ member nonzero
  intro other inside sameCharacter coefficient
  refine (expanded'.term inside).summand.ext (expanded.term member).summand coefficient ?_
  exact (expanded'.term inside).laurentMonomial.eq_of_character_eq
    (expanded.term member).laurentMonomial sameCharacter

/-- Sums with the same coefficients of the characters are the same tree. -/
theorem eq_of_spectrum_eq {e' : Expr} (expanded : e.Expanded) (expanded' : e'.Expanded)
    (same : e.spectrum = e'.spectrum) : e = e' :=
  expanded.operand.eq_of_terms expanded'.operand
    (fun _ member nonzero => expanded.mem_terms_of_spectrum_eq expanded' same member nonzero)
    fun _ member nonzero => expanded'.mem_terms_of_spectrum_eq expanded same.symm member nonzero

/-- Sums with the same values at nonzero symbols are the same tree. -/
theorem eq_of_values {e' : Expr} (expanded : e.Expanded) (expanded' : e'.Expanded)
    (values : ∀ assignment : Assignment,
      e.valueIn assignment.reading = e'.valueIn assignment.reading) : e = e' := by
  apply expanded.eq_of_spectrum_eq expanded'
  apply (linearIndependent_monoidHom Assignment ℚ).finsuppLinearCombination_injective
  funext assignment
  rw [← expanded.valueIn, ← expanded'.valueIn, values assignment]

end Expanded

/-- A Laurent polynomial may be rewritten wherever its symbols do not vanish. -/
theorem Laurent.sound {K : Type*} [Field K] {reading : Interpretation K} {e : Expr}
    (laurent : e.Laurent) (nonzero : ∀ name, reading.symbol name ≠ 0) : e.Sound reading := by
  constructor
  · intro base exponent member negative
    obtain ⟨name, rfl⟩ := laurent _ member negative
    rw [valueIn_sym]
    exact nonzero name
  · rintro subterm member args rfl
    exact (laurent _ member).elim

/-- Two Laurent polynomials expand into the same tree exactly when they have the same value under
every assignment of nonzero rationals to the symbols. -/
theorem expand_eq_iff {a b expandedA expandedB : Expr} (laurentA : a.Laurent)
    (laurentB : b.Laurent) (expandsA : a.expand = some expandedA)
    (expandsB : b.expand = some expandedB) :
    expandedA = expandedB ↔ ∀ symbol : String → ℚ, (∀ name, symbol name ≠ 0) →
      a.valueIn (.ofSymbols symbol) = b.valueIn (.ofSymbols symbol) := by
  have keeps : ∀ {e expanded : Expr}, e.Laurent → e.expand = some expanded →
      ∀ symbol : String → ℚ, (∀ name, symbol name ≠ 0) →
        expanded.valueIn (.ofSymbols symbol) = e.valueIn (.ofSymbols symbol) :=
    fun laurent expands symbol nonzero =>
      (keepsValue_expand _ _ expands (laurent.sound nonzero)).2
  constructor
  · rintro rfl symbol nonzero
    rw [← keeps laurentA expandsA symbol nonzero, ← keeps laurentB expandsB symbol nonzero]
  · intro values
    apply (laurentA.expanded expandsA).eq_of_values (laurentB.expanded expandsB)
    intro assignment
    have nonzero : ∀ name, (assignment name : ℚ) ≠ 0 := fun name => (assignment name).ne_zero
    exact (keeps laurentA expandsA _ nonzero).trans
      ((values _ nonzero).trans (keeps laurentB expandsB _ nonzero).symm)

/-- The inverse of a symbol times the sum of its square and itself expands like one more than the
symbol. -/
theorem expand_eq_iff_inverse :
    (Expr.mul [.pow (.sym "x") Exponent.negOne,
        .add [.pow (.sym "x") ⟨2, by decide, by decide⟩, .sym "x"]]).valueIn
          (.ofSymbols fun _ => (3 : ℚ)) =
      (Expr.add [.num 1, .sym "x"]).valueIn (.ofSymbols fun _ => 3) := by
  have expandsProduct : (Expr.mul [.pow (.sym "x") Exponent.negOne,
      .add [.pow (.sym "x") ⟨2, by decide, by decide⟩, .sym "x"]]).expand =
        some (.add [.num 1, .sym "x"]) := by decide +kernel
  have expandsSum : (Expr.add [.num 1, .sym "x"]).expand = some (.add [.num 1, .sym "x"]) := by
    decide +kernel
  refine (expand_eq_iff ?_ ?_ expandsProduct expandsSum).mp rfl _ fun _ => by norm_num
  · simp [Laurent, LaurentNode, subterms, subtermsOfAll]
  · simp [Laurent, LaurentNode, subterms, subtermsOfAll]

end FiniteVolume.Expr
