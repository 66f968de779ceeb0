import FiniteVolume.Proofs.Canonical.Retention
import FiniteVolume.Proofs.Stencil.Polynomial
import FiniteVolume.Proofs.Stencil.Rebuilding

/-!
# Divisions by zero on a facet

The steps from an integrand to its contribution on a facet put trees without divisions by zero in
the place of others, and divide by the length of the edge only. So no division by zero is lost on
the way unless it is nested in another division (`retains_discretizeEdge`).
-/

namespace FiniteVolume.Stencil

open FiniteVolume.Expr

variable {stencil : Stencil} {e result : Expr}

section Localization

/-- Samples of a field at a vector of symbols divide by nothing. -/
theorem plain_valueAt (field : ScalarField) (names : List String) :
    (field.valueAt (vectorOf names)).Plain stencil.IsParameter := by
  refine plain_of_args (by simp [ScalarField.valueAt, apply]) trivial
    (List.forall_mem_singleton.mpr (plain_of_args (by simp [vectorOf]) trivial fun e member => ?_))
  obtain ⟨name, -, rfl⟩ := List.mem_map.mp member
  exact plain_sym name

/-- Samples of a field at a vector of symbols do not divide by zero. -/
theorem regular_valueAt (field : ScalarField) (names : List String) :
    (field.valueAt (vectorOf names)).dividesByZero = false := by
  have regular : (vectorOf names).dividesByZero = false := by
    refine Bool.eq_false_iff.mpr fun divides => ?_
    obtain ⟨arg, member, divides⟩ := (dividesByZero_iff.mp divides).resolve_left Bool.false_ne_true
    obtain ⟨name, -, rfl⟩ := List.mem_map.mp member
    cases divides
  refine Bool.eq_false_iff.mpr fun divides => ?_
  obtain ⟨arg, member, divides⟩ := (dividesByZero_iff.mp divides).resolve_left Bool.false_ne_true
  rw [List.mem_singleton.mp member, regular] at divides
  cases divides

/-- No call is a divisor. -/
theorem not_divisor_call {invertible : String → Prop} (head : Head) (args : List Expr) :
    ¬Divisor invertible (.call head args) := by
  rintro (⟨_, same, -⟩ | ⟨_, same, -⟩) <;> cases same

/-- A difference quotient divides by the length of the edge only. -/
theorem retains_differenceQuotient {args : List Expr}
    (formed : stencil.differenceQuotient args = .ok result) :
    Retains stencil.IsParameter (.call .normalDerivative args) result := by
  obtain ⟨field, difference, rfl, subtracts, divides⟩ := differenceQuotient_cases formed
  have regular : (Expr.call .normalDerivative
      [field.valueAt stencil.position]).dividesByZero = false := by
    refine Bool.eq_false_iff.mpr fun divides => ?_
    obtain ⟨arg, member, divides⟩ :=
      (dividesByZero_iff.mp divides).resolve_left Bool.false_ne_true
    rw [List.mem_singleton.mp member] at divides
    exact Bool.false_ne_true ((regular_valueAt field _).symm.trans divides)
  refine .of_plain (by simp [Expr.zero]) (not_divisor_call _ _) regular ?_
  exact composed_plain.powered.quot divides
    (composed_plain.closed.sub subtracts (plain_valueAt _ _) (plain_valueAt _ _))
    (plain_sym _) divisor_edgeLength

/-- Localization retains divisions by zero. -/
theorem retains_localize (formed : stencil.localize e = .ok result) :
    Retains stencil.IsParameter e result := by
  refine localize_induction (motive := Retains stencil.IsParameter) (fun value => .refl _)
    (fun name => .refl _) ?add ?addNext ?mul ?mulNext ?pow (fun _ _ => .vector) ?dot
    (fun _ _ => retains_differenceQuotient) ?call formed
  case add =>
    intro term result retains
    exact (Retains.add_singleton term).trans retains
  case addNext =>
    intro terms term left right nonempty first next
    exact (Retains.add_append nonempty _).trans (.add (.cons first (.cons next .nil)))
  case mul =>
    intro factor result retains
    exact (Retains.mul_singleton factor).trans retains
  case mulNext =>
    intro factors factor left right result _ first next multiplied
    exact (Retains.mul_append _ _).trans (.mul (.cons first (.cons next .nil)) multiplied)
  case pow =>
    intro base exponent inner result _ retains powered
    exact .pow retains powered
  case dot =>
    intro left right left' right' retainsLeft retainsRight
    exact .call _ (.cons (.vector retainsLeft) (.cons (.vector retainsRight) .nil))
  case call =>
    intro name arg localized _ retains
    exact .call _ (.cons retains .nil)

end Localization

section Substitution

variable {rules : List Rule}

/-- A plain tree may take the place of samples. -/
theorem retains_replacement?_sample {field : ScalarField} {names : List String} {new : Expr}
    (plain : new.Plain stencil.IsParameter) (subterm replaced : Expr)
    (found : replacement? [(field.valueAt (vectorOf names), new)] subterm = some replaced) :
    Retains stencil.IsParameter subterm replaced := by
  rw [replacement?_sample] at found
  split at found
  · rename_i same
    cases found
    subst same
    exact .of_plain (by simp [ScalarField.valueAt, apply, Expr.zero]) (not_divisor_call _ _)
      (regular_valueAt field names) plain
  · cases found

/-- A plain tree in the place of the samples of a field loses no division by zero. -/
theorem retains_subst_sample {field : ScalarField} {names : List String} {new : Expr}
    (plain : new.Plain stencil.IsParameter)
    (formed : e.subst [(field.valueAt (vectorOf names), new)] = some result) :
    Retains stencil.IsParameter e result :=
  .replaceWith (retains_replacement?_sample plain) formed

/-- A rule that puts a plain tree in the place of a symbol that is no parameter. -/
def PlainRule (stencil : Stencil) (rule : Rule) : Prop :=
  (∃ name, rule.1 = .sym name ∧ ¬stencil.IsParameter name) ∧ rule.2.Plain stencil.IsParameter

/-- Plain trees in the place of symbols that are no parameters lose no division by zero. -/
theorem retains_subst (plain : ∀ rule ∈ rules, stencil.PlainRule rule)
    (formed : e.subst rules = some result) : Retains stencil.IsParameter e result := by
  refine .replaceWith (fun subterm replaced found => ?_) formed
  obtain ⟨rule, first, rfl⟩ := Option.map_eq_some_iff.mp found
  have same : rule.1 = subterm := by simpa using List.find?_some first
  obtain ⟨⟨name, isSymbol, notParameter⟩, plain⟩ := plain rule (List.mem_of_find?_eq_some first)
  rw [← same, isSymbol]
  refine .of_plain (by simp [Expr.zero]) ?_ rfl plain
  rintro (⟨other, isOther, parameter⟩ | ⟨value, isNumber, -⟩)
  · cases isOther
    exact notParameter parameter
  · cases isNumber

/-- The mean of two symbols is plain. -/
theorem plain_mean {left right : String} (formed : mean left right = some result) :
    result.Plain stencil.IsParameter :=
  composed_plain.powered.quot formed
    (composed_plain.sum (forall_mem_pair ⟨plain_sym _, plain_sym _⟩)) (composed_plain.num _)
    (Or.inr ⟨_, rfl, by decide⟩)

/-- The rules for the midpoint put plain trees in the place of coordinates. -/
theorem plainRule_midpointRules (formed : stencil.midpointRules = some rules) :
    ∀ rule ∈ rules, stencil.PlainRule rule := by
  intro rule present
  obtain ⟨coord, inCoords, first, -, second, -, isCoord, meanFormed⟩ :=
    exists_of_mem_midpointRules formed present
  exact ⟨⟨coord, isCoord, fun parameter => parameter.1 "x" (by decide) inCoords⟩,
    plain_mean meanFormed⟩

/-- The rules for the normal put plain trees in the place of its components. -/
theorem plainRule_normalRules (formed : stencil.normalRules = some rules) :
    ∀ rule ∈ rules, stencil.PlainRule rule := by
  intro rule present
  obtain ⟨normal, inNormal, first, -, second, -, difference, isNormal, subtracts, divides⟩ :=
    exists_of_mem_normalRules formed present
  refine ⟨⟨normal, isNormal, fun parameter => parameter.1 "n" (by decide) inNormal⟩, ?_⟩
  exact composed_plain.powered.quot divides
    (composed_plain.closed.sub subtracts (plain_sym second) (plain_sym first)) (plain_sym _)
    divisor_edgeLength

/-- Replacing the samples on an edge loses no division by zero. -/
theorem retains_sampleField {field : ScalarField}
    (formed : stencil.sampleField e field = .ok result) :
    Retains stencil.IsParameter e result := by
  obtain ⟨withoutFirst, withoutSecond, middle, putsFirst, putsSecond, meanFormed, putsMiddle,
    -⟩ := sampleField_cases formed
  exact ((retains_subst_sample (plain_sym _) putsFirst).trans
    (retains_subst_sample (plain_sym _) putsSecond)).trans
    (retains_subst_sample (plain_mean meanFormed) putsMiddle)

end Substitution

section Facet

variable {integrand : Integrand} {value : Expr}

/-- The contribution of an integrand on a facet retains its divisions by zero. -/
theorem retains_discretizeEdge (evaluates : stencil.point.evaluate integrand = .ok value)
    (formed : stencil.discretizeEdge integrand [stencil.field] = .ok result) :
    ∃ area, area.Plain stencil.IsParameter ∧
      Retains stencil.IsParameter (.mul [area, value]) result := by
  obtain ⟨area, localized, contribution, sampled, middle, atMiddle, normal, areaFormed, localizes,
    multiplied, samples, middleFormed, putsMiddle, normalFormed, putsNormal⟩ :=
    discretizeEdge_cases evaluates formed
  refine ⟨area, composed_plain.prod areaFormed (forall_mem_pair ⟨plain_sym _, plain_sym _⟩), ?_⟩
  have retainsProduct : Retains stencil.IsParameter (.mul [area, value]) contribution :=
    .mul (.cons (.refl area) (.cons (retains_localize localizes) .nil)) multiplied
  exact ((retainsProduct.trans (retains_sampleField samples)).trans
    (retains_subst (plainRule_midpointRules middleFormed) putsMiddle)).trans
    (retains_subst (plainRule_normalRules normalFormed) putsNormal)

end Facet

end FiniteVolume.Stencil
