import FiniteVolume.Proofs.Kernel.Point
import FiniteVolume.Proofs.Laurent.Polynomial
import FiniteVolume.Proofs.Stencil.Rebuilding

/-!
# Polynomial integrands

An integrand that is a polynomial in coordinates, normal components, parameters and samples of the
unknown contributes a polynomial in symbols only, divided by the length of the edge and by
parameters: at a vertex (`polynomial_atVertex`) and on the facet across an edge
(`polynomial_discretizeEdge`). Every step in between leads from polynomials to polynomials.
-/

namespace FiniteVolume.Stencil

open FiniteVolume.Expr

/-- The symbols that an integrand may divide by: those of no coordinate, no normal component and no
value of the unknown. -/
def IsParameter (stencil : Stencil) (name : String) : Prop :=
  (∀ kind ∈ kinds, name ∉ stencil.components kind) ∧ name ≠ firstValue stencil.field ∧
    name ≠ secondValue stencil.field

/-- A sample of the unknown at a vector of symbols. -/
def SamplesField (stencil : Stencil) (head : Head) (args : List Expr) : Prop :=
  head = .named stencil.field.name ∧ ∃ names, args = [vectorOf names]

/-- The unknown at the generic point. -/
def IsValue (stencil : Stencil) (head : Head) (args : List Expr) : Prop :=
  head = .named stencil.field.name ∧ args = [stencil.position]

/-- The polynomial integrands on a facet, which hold the unknown and its normal derivative. -/
abbrev FacetPolynomial (stencil : Stencil) (e : Expr) : Prop :=
  Polynomial stencil.IsParameter stencil.IsSample e

/-- The polynomial integrands at a vertex, which hold the unknown. -/
abbrev VertexPolynomial (stencil : Stencil) (e : Expr) : Prop :=
  Polynomial stencil.IsParameter stencil.IsValue e

variable {stencil : Stencil} {samples : Head → List Expr → Prop} {e result : Expr}

/-- The length of the edge is a parameter. -/
theorem isParameter_edgeLength : stencil.IsParameter edgeLength :=
  ⟨fun _ => edgeLength_not_mem_components, edgeLength_ne_firstValue _, edgeLength_ne_secondValue _⟩

/-- The length of the edge is a divisor. -/
theorem divisor_edgeLength : Divisor stencil.IsParameter (.sym edgeLength) :=
  Or.inl ⟨edgeLength, rfl, isParameter_edgeLength⟩

/-- The mean of two symbols is a polynomial. -/
theorem polynomial_mean {left right : String} (formed : mean left right = some result) :
    Polynomial stencil.IsParameter samples result :=
  hereditary_polynomial.quot formed
    (hereditary_polynomial.sum (forall_mem_pair ⟨.sym left, .sym right⟩)) (.num _)
    (Or.inr ⟨_, rfl, by decide⟩)

section Localization

/-- What a polynomial is divided by is localized to itself. -/
theorem localize_divisor {base : Expr} (divisor : Divisor stencil.IsParameter base) :
    stencil.localize base = .ok base := by
  obtain ⟨name, rfl, -⟩ | ⟨value, rfl, -⟩ := divisor <;> rfl

/-- The difference quotient of the unknown is a polynomial in its values at the endpoints. -/
theorem polynomial_differenceQuotient
    (formed : stencil.differenceQuotient [stencil.field.valueAt stencil.position] = .ok result) :
    Polynomial stencil.IsParameter stencil.SamplesField result := by
  obtain ⟨difference, subtracts, divides⟩ := exists_of_differenceQuotient_valueAt formed
  exact hereditary_polynomial.quot divides
    (hereditary_polynomial.sub subtracts (.sample ⟨rfl, stencil.secondSymbols, rfl⟩)
      (.sample ⟨rfl, stencil.firstSymbols, rfl⟩)) (.sym edgeLength) divisor_edgeLength

/-- A localized polynomial is a polynomial in samples at vectors of symbols. -/
theorem polynomial_localize (polynomial : stencil.FacetPolynomial e)
    (formed : stencil.localize e = .ok result) :
    Polynomial stencil.IsParameter stencil.SamplesField result := by
  refine localize_induction (motive := fun e result => stencil.FacetPolynomial e →
      Polynomial stencil.IsParameter stencil.SamplesField result)
    (fun value _ => .num value) (fun name _ => .sym name) ?add ?addNext ?mul ?mulNext ?pow ?vector
    ?dot ?derivative ?call formed polynomial
  case add =>
    intro term result passes polynomial
    exact passes ((hereditary_polynomial.add_singleton_iff term).mp polynomial)
  case addNext =>
    intro terms term left right _ first next polynomial
    obtain ⟨before, last⟩ := (hereditary_polynomial.add_concat_iff terms term).mp polynomial
    exact hereditary_polynomial.sum (forall_mem_pair ⟨first before, next last⟩)
  case mul =>
    intro factor result passes polynomial
    exact passes ((hereditary_polynomial.mul_singleton_iff factor).mp polynomial)
  case mulNext =>
    intro factors factor left right result _ first next multiplied polynomial
    obtain ⟨before, last⟩ := (hereditary_polynomial.mul_concat_iff factors factor).mp polynomial
    exact hereditary_polynomial.prod multiplied (forall_mem_pair ⟨first before, next last⟩)
  case pow =>
    intro base exponent inner result localizes passes powered polynomial
    obtain ⟨polynomialBase, divisor⟩ := (hereditary_polynomial.pow_iff _ _).mp polynomial
    refine hereditary_polynomial.power powered (passes polynomialBase) fun negative => ?_
    cases (localize_divisor (divisor negative)).symm.trans localizes
    exact divisor negative
  case vector => exact fun _ _ _ polynomial => nomatch polynomial
  case dot =>
    intro left right left' right' eachLeft eachRight polynomial
    cases polynomial with
    | dot sameLength polynomialsLeft polynomialsRight =>
      exact .dot (eachLeft.length_eq.symm.trans (sameLength.trans eachRight.length_eq))
        (forall_mem_results polynomialsLeft eachLeft)
        (forall_mem_results polynomialsRight eachRight)
    | sample isSample => obtain ⟨same, -⟩ | ⟨same, -⟩ := isSample <;> cases same
  case derivative =>
    intro args result formed polynomial
    cases polynomial with
    | sample isSample =>
      obtain ⟨same, -⟩ | ⟨-, rfl⟩ := isSample
      · cases same
      · exact polynomial_differenceQuotient formed
  case call =>
    intro name arg localized localizes _ polynomial
    cases polynomial with
    | sample isSample =>
      obtain ⟨isField, same⟩ | ⟨same, -⟩ := isSample
      · cases same
        rw [Stencil.position, localize_vectorOf] at localizes
        cases localizes
        exact .sample ⟨isField, stencil.coordSymbols, rfl⟩
      · cases same

end Localization

section Samples

variable {position new : Expr}

/-- Putting a polynomial in the place of samples leads to a polynomial. -/
theorem polynomial_subst_sample (polynomial : Polynomial stencil.IsParameter stencil.SamplesField e)
    (replacement : Polynomial stencil.IsParameter stencil.SamplesField new)
    (formed : e.subst [(stencil.field.valueAt position, new)] = some result) :
    Polynomial stencil.IsParameter stencil.SamplesField result := by
  have kept : ∀ other : Expr, (∀ head args, other ≠ .call head args) →
      replacement? [(stencil.field.valueAt position, new)] other = none := fun other noCall => by
    rw [replacement?_sample, ScalarField.valueAt, apply, if_neg (noCall _ _).symm]
  refine polynomial.replaceWith formed (fun subterm replaced found => ?_)
    (fun components => kept _ (by simp)) (fun value => kept _ (by simp))
    (fun name _ => kept _ (by simp)) ?_
  · rw [replacement?_sample] at found
    split at found
    · cases found
      exact replacement
    · cases found
  · rintro head args rebuilt ⟨rfl, names, rfl⟩ - rebuilds
    obtain ⟨_, rebuildsPosition, rfl⟩ := mapM_singleton_eq_some rebuilds
    cases rebuildsPosition.symm.trans
      (replaceWith_vector_sym (kept _ (by simp)) fun name _ => kept _ (by simp))
    exact ⟨rfl, names, rfl⟩

/-- A polynomial in which the unknown is not found has no samples. -/
theorem polynomial_of_findIn?_eq_none
    (polynomial : Polynomial stencil.IsParameter stencil.SamplesField e)
    (unsampled : stencil.field.findIn? e = none) :
    Polynomial stencil.IsParameter NoSample e :=
  polynomial.unsampled fun _ _ ⟨isField, _⟩ member =>
    ne_of_findIn?_eq_none unsampled (isField ▸ member) rfl

/-- Values in the place of all samples lead to a polynomial without samples. -/
theorem polynomial_sampleField (polynomial : Polynomial stencil.IsParameter stencil.SamplesField e)
    (formed : stencil.sampleField e stencil.field = .ok result) :
    Polynomial stencil.IsParameter NoSample result := by
  obtain ⟨withoutFirst, withoutSecond, middle, putsFirst, putsSecond, meanFormed, putsMiddle,
    unsampled⟩ := sampleField_cases formed
  have atFirst := polynomial_subst_sample polynomial (.sym _) putsFirst
  have atSecond := polynomial_subst_sample atFirst (.sym _) putsSecond
  have atMiddle := polynomial_subst_sample atSecond (polynomial_mean meanFormed) putsMiddle
  exact polynomial_of_findIn?_eq_none atMiddle unsampled

end Samples

section Symbols

/-- A rule that puts a polynomial in the place of a symbol that is no parameter. -/
def ReplacesSymbol (stencil : Stencil) (rule : Rule) : Prop :=
  (∃ name, rule.1 = .sym name ∧ ¬stencil.IsParameter name) ∧
    Polynomial stencil.IsParameter NoSample rule.2

/-- Replacing symbols other than parameters by polynomials leads to a polynomial. -/
theorem polynomial_subst {rules : List Rule}
    (replaces : ∀ rule ∈ rules, stencil.ReplacesSymbol rule)
    (polynomial : Polynomial stencil.IsParameter NoSample e)
    (formed : e.subst rules = some result) : Polynomial stencil.IsParameter NoSample result := by
  have found : ∀ subterm replacement, replacement? rules subterm = some replacement →
      ∃ rule ∈ rules, rule.1 = subterm ∧ rule.2 = replacement := by
    intro subterm replacement found
    obtain ⟨rule, first, same⟩ := Option.map_eq_some_iff.mp found
    exact ⟨rule, List.mem_of_find?_eq_some first, by simpa using List.find?_some first, same⟩
  have kept : ∀ subterm : Expr, (∀ name, subterm = .sym name → stencil.IsParameter name) →
      replacement? rules subterm = none := by
    intro subterm parameter
    refine Option.eq_none_iff_forall_ne_some.mpr fun replacement matched => ?_
    obtain ⟨rule, member, same, -⟩ := found subterm replacement matched
    obtain ⟨⟨name, isSymbol, notParameter⟩, -⟩ := replaces rule member
    exact notParameter (parameter name (same.symm.trans isSymbol))
  refine polynomial.replaceWith formed (fun subterm replacement matched => ?_)
    (fun components => kept _ (by simp)) (fun value => kept _ (by simp))
    (fun name parameter => kept _ fun other same => ?_) fun _ _ _ isSample => isSample.elim
  · obtain ⟨rule, member, -, rfl⟩ := found subterm replacement matched
    exact (replaces rule member).2
  · cases same
    exact parameter

/-- Normalization makes polynomials of polynomials. -/
theorem polynomial_normalize (polynomial : Polynomial stencil.IsParameter NoSample e)
    (formed : e.normalize = some result) : Polynomial stencil.IsParameter NoSample result :=
  polynomial.replaceWith formed (fun _ _ matched => nomatch matched) (fun _ => rfl) (fun _ => rfl)
    (fun _ _ => rfl) fun _ _ _ isSample => isSample.elim

/-- The rules for the midpoint replace symbols by polynomials. -/
theorem replacesSymbol_midpointRules {rules : List Rule}
    (formed : stencil.midpointRules = some rules) :
    ∀ rule ∈ rules, stencil.ReplacesSymbol rule := by
  intro rule present
  obtain ⟨coord, inCoords, first, -, second, -, isCoord, meanFormed⟩ :=
    exists_of_mem_midpointRules formed present
  exact ⟨⟨coord, isCoord, fun parameter => parameter.1 "x" (by decide) inCoords⟩,
    polynomial_mean meanFormed⟩

/-- The rules for the normal replace symbols by polynomials. -/
theorem replacesSymbol_normalRules {rules : List Rule}
    (formed : stencil.normalRules = some rules) :
    ∀ rule ∈ rules, stencil.ReplacesSymbol rule := by
  intro rule present
  obtain ⟨normal, inNormal, first, -, second, -, difference, isNormal, subtracts, divides⟩ :=
    exists_of_mem_normalRules formed present
  refine ⟨⟨normal, isNormal, fun parameter => parameter.1 "n" (by decide) inNormal⟩, ?_⟩
  exact hereditary_polynomial.quot divides
    (hereditary_polynomial.sub subtracts (.sym second) (.sym first)) (.sym edgeLength)
    divisor_edgeLength

/-- The rules that exchange the ends replace symbols by polynomials. -/
theorem replacesSymbol_exchangeRules :
    ∀ rule ∈ stencil.exchangeRules, stencil.ReplacesSymbol rule := by
  intro rule present
  obtain ⟨⟨first, second⟩, member, present⟩ := List.mem_flatMap.mp present
  have notParameters : ¬stencil.IsParameter first ∧ ¬stencil.IsParameter second := by
    rcases List.mem_cons.mp member with same | member
    · cases same
      exact ⟨fun parameter => parameter.2.1 rfl, fun parameter => parameter.2.2 rfl⟩
    · obtain ⟨inFirst, inSecond⟩ := List.of_mem_zip member
      exact ⟨fun parameter => parameter.1 "x0" (by decide) inFirst,
        fun parameter => parameter.1 "x1" (by decide) inSecond⟩
  simp only [List.mem_cons, List.not_mem_nil, or_false] at present
  rcases present with rfl | rfl
  · exact ⟨⟨first, rfl, notParameters.1⟩, .sym second⟩
  · exact ⟨⟨second, rfl, notParameters.2⟩, .sym first⟩

end Symbols

variable {integrand : Integrand} {value : Expr}

/-- The contribution of a polynomial integrand on a facet is a polynomial in the symbols of the
edge. -/
theorem polynomial_discretizeEdge (evaluates : stencil.point.evaluate integrand = .ok value)
    (polynomial : stencil.FacetPolynomial value)
    (formed : stencil.discretizeEdge integrand [stencil.field] = .ok result) :
    Polynomial stencil.IsParameter NoSample result := by
  obtain ⟨area, localized, contribution, sampled, middle, atMiddle, normal, areaFormed, localizes,
    multiplied, samples, middleFormed, putsMiddle, normalFormed, putsNormal⟩ :=
    discretizeEdge_cases evaluates formed
  have polynomialArea : Polynomial stencil.IsParameter stencil.SamplesField area :=
    hereditary_polynomial.prod areaFormed (forall_mem_pair ⟨.sym _, .sym _⟩)
  have polynomialContribution := hereditary_polynomial.prod multiplied
    (forall_mem_pair ⟨polynomialArea, polynomial_localize polynomial localizes⟩)
  exact polynomial_subst (replacesSymbol_normalRules normalFormed)
    (polynomial_subst (replacesSymbol_midpointRules middleFormed)
      (polynomial_sampleField polynomialContribution samples) putsMiddle) putsNormal

/-- A polynomial integrand is at a vertex a polynomial in the value of the unknown there. -/
theorem polynomial_atVertex (evaluates : stencil.point.evaluate integrand = .ok value)
    (polynomial : stencil.VertexPolynomial value)
    (formed : stencil.atVertex integrand = .ok result) :
    Polynomial stencil.IsParameter NoSample result := by
  have sampled : Polynomial stencil.IsParameter stencil.SamplesField value :=
    polynomial.imp fun _ _ ⟨isField, isPosition⟩ => ⟨isField, _, isPosition⟩
  obtain ⟨rfl | samples, unsampled⟩ := atVertex_cases evaluates formed
  · exact polynomial_of_findIn?_eq_none sampled unsampled
  · exact polynomial_of_findIn?_eq_none (polynomial_subst_sample sampled (.sym _) samples) unsampled

end FiniteVolume.Stencil
