import FiniteVolume.Proofs.Outcome
import FiniteVolume.Stencil.Edge

/-!
# Steps of the contribution of a facet

The contribution of an integrand on a facet is formed in a few steps (`discretizeEdge_cases`). The
first of them localizes the integrand: the operands of sums and products are joined one after the
other, and every other construct is rebuilt from its localized parts. What each construct passes on
from its parts therefore holds of every expression and what it is localized to
(`localize_induction`).
-/

namespace FiniteVolume.Stencil

open FiniteVolume.Expr

variable {stencil : Stencil} {e result : Expr}

section Inversion

/-- How samples are replaced. -/
theorem sampleField_cases {field : ScalarField}
    (formed : stencil.sampleField e field = .ok result) :
    ∃ withoutFirst withoutSecond middle,
      e.subst [(field.valueAt stencil.first, .sym (firstValue field))] = some withoutFirst ∧
      withoutFirst.subst [(field.valueAt stencil.second, .sym (secondValue field))] =
        some withoutSecond ∧
      mean (firstValue field) (secondValue field) = some middle ∧
      withoutSecond.subst [(field.valueAt stencil.position, middle)] = some result ∧
      field.findIn? result = none := by
  obtain ⟨withoutFirst, putsFirst, formed⟩ := Outcome.bind_eq_ok_iff.mp formed
  obtain ⟨withoutSecond, putsSecond, formed⟩ := Outcome.bind_eq_ok_iff.mp formed
  obtain ⟨middle, meanFormed, formed⟩ := Outcome.bind_eq_ok_iff.mp formed
  obtain ⟨sampled, putsMiddle, formed⟩ := Outcome.bind_eq_ok_iff.mp formed
  rw [Outcome.ofPower?_eq_ok_iff] at putsFirst putsSecond meanFormed putsMiddle
  split at formed
  · exact absurd formed (Outcome.expr_reject_ne_ok _ _ _)
  · rename_i unsampled
    cases formed
    exact ⟨withoutFirst, withoutSecond, middle, putsFirst, putsSecond, meanFormed, putsMiddle,
      unsampled⟩

/-- How the contribution of an integrand on a facet is formed. -/
theorem discretizeEdge_cases {integrand : Integrand}
    (evaluates : stencil.point.evaluate integrand = .ok e)
    (formed : stencil.discretizeEdge integrand [stencil.field] = .ok result) :
    ∃ area localized contribution sampled midpoint atMidpoint normal,
      Expr.prod [.sym edgeLength, .sym edgeRatio] = some area ∧
      stencil.localize e = .ok localized ∧ Expr.prod [area, localized] = some contribution ∧
      stencil.sampleField contribution stencil.field = .ok sampled ∧
      stencil.midpointRules = some midpoint ∧ sampled.subst midpoint = some atMidpoint ∧
      stencil.normalRules = some normal ∧ atMidpoint.subst normal = some result := by
  obtain ⟨_, evaluates', formed⟩ := Outcome.bind_eq_ok_iff.mp formed
  cases evaluates.symm.trans evaluates'
  obtain ⟨area, areaFormed, formed⟩ := Outcome.bind_eq_ok_iff.mp formed
  obtain ⟨localized, localizes, formed⟩ := Outcome.bind_eq_ok_iff.mp formed
  obtain ⟨contribution, multiplied, formed⟩ := Outcome.bind_eq_ok_iff.mp formed
  obtain ⟨sampled, samples, formed⟩ := Outcome.bind_eq_ok_iff.mp formed
  obtain ⟨midpoint, midpointFormed, formed⟩ := Outcome.bind_eq_ok_iff.mp formed
  obtain ⟨atMidpoint, putsMidpoint, formed⟩ := Outcome.bind_eq_ok_iff.mp formed
  obtain ⟨normal, normalFormed, putsNormal⟩ := Outcome.bind_eq_ok_iff.mp formed
  obtain ⟨_, samples, same⟩ := Outcome.bind_eq_ok_iff.mp samples
  cases same
  rw [Outcome.ofPower?_eq_ok_iff] at areaFormed multiplied
  rw [Outcome.ofPower?_eq_ok_iff] at midpointFormed putsMidpoint normalFormed putsNormal
  exact ⟨area, localized, contribution, sampled, midpoint, atMidpoint, normal, areaFormed,
    localizes, multiplied, samples, midpointFormed, putsMidpoint, normalFormed, putsNormal⟩

/-- Coordinates are replaced by means of those of the endpoints. -/
theorem exists_of_mem_midpointRules {rules : List Rule}
    (formed : stencil.midpointRules = some rules) {rule : Rule} (present : rule ∈ rules) :
    ∃ coord ∈ stencil.coordSymbols, ∃ first ∈ stencil.firstSymbols,
      ∃ second ∈ stencil.secondSymbols, rule.1 = .sym coord ∧ mean first second = some rule.2 := by
  obtain ⟨⟨coord, first, second⟩, member, formed⟩ := exists_of_mem_mapM formed present
  obtain ⟨middle, meanFormed, same⟩ := Option.bind_eq_some_iff.mp formed
  cases same
  obtain ⟨inCoords, paired⟩ := List.of_mem_zip member
  obtain ⟨inFirst, inSecond⟩ := List.of_mem_zip paired
  exact ⟨coord, inCoords, first, inFirst, second, inSecond, rfl, meanFormed⟩

/-- Components of the normal are replaced by differences of coordinates over the length of the
edge. -/
theorem exists_of_mem_normalRules {rules : List Rule} (formed : stencil.normalRules = some rules)
    {rule : Rule} (present : rule ∈ rules) :
    ∃ normal ∈ stencil.normalSymbols, ∃ first ∈ stencil.firstSymbols,
      ∃ second ∈ stencil.secondSymbols, ∃ difference, rule.1 = .sym normal ∧
        (Expr.sym second).sub (.sym first) = some difference ∧
        difference.quot (.sym edgeLength) = some rule.2 := by
  obtain ⟨⟨normal, first, second⟩, member, formed⟩ := exists_of_mem_mapM formed present
  obtain ⟨difference, subtracts, formed⟩ := Option.bind_eq_some_iff.mp formed
  obtain ⟨quotient, divides, same⟩ := Option.bind_eq_some_iff.mp formed
  cases same
  obtain ⟨inNormal, paired⟩ := List.of_mem_zip member
  obtain ⟨inFirst, inSecond⟩ := List.of_mem_zip paired
  exact ⟨normal, inNormal, first, inFirst, second, inSecond, difference, rfl, subtracts, divides⟩

end Inversion

section Localization

theorem localize_vectorOf (names : List String) :
    stencil.localize (vectorOf names) = .ok (vectorOf names) := by
  have components : stencil.localizeAll (names.map .sym) = .ok (names.map .sym) := by
    induction names with
    | nil => rfl
    | cons name rest ih =>
      rw [List.map_cons, localizeAll, ih]
      rfl
  rw [vectorOf, localize, components]
  rfl

/-- The calls that can be localized: inner products of vectors, normal derivatives and functions of
one argument. -/
theorem localize_call_cases {head : Head} {es : List Expr}
    (formed : stencil.localize (.call head es) = .ok result) :
    (∃ left right left' right', head = .dot ∧ es = [.vector left, .vector right] ∧
        stencil.localizeAll left = .ok left' ∧ stencil.localizeAll right = .ok right' ∧
        result = .call .dot [.vector left', .vector right']) ∨
      (head = .normalDerivative ∧ stencil.differenceQuotient es = .ok result) ∨
      ∃ name arg localized, head = .named name ∧ es = [arg] ∧
        stencil.localize arg = .ok localized ∧ result = .apply name [localized] := by
  unfold localize at formed
  split at formed <;> rename_i same <;> cases same
  · rename_i left right
    obtain ⟨left', localizesLeft, formed⟩ := Outcome.bind_eq_ok_iff.mp formed
    obtain ⟨right', localizesRight, same⟩ := Outcome.bind_eq_ok_iff.mp formed
    cases same
    exact Or.inl ⟨left, right, left', right', rfl, rfl, localizesLeft, localizesRight, rfl⟩
  · exact absurd formed (Outcome.expr_reject_ne_ok _ _ _)
  · exact Or.inr (Or.inl ⟨rfl, formed⟩)
  · rename_i name arg
    obtain ⟨localized, localizes, same⟩ := Outcome.bind_eq_ok_iff.mp formed
    cases same
    exact Or.inr (Or.inr ⟨name, arg, localized, rfl, rfl, localizes, rfl⟩)
  · exact absurd formed (Outcome.expr_reject_ne_ok _ _ _)

/-- A normal derivative is that of a field at the generic point. -/
theorem differenceQuotient_cases {args : List Expr}
    (formed : stencil.differenceQuotient args = .ok result) :
    ∃ (field : ScalarField) (difference : Expr), args = [field.valueAt stencil.position] ∧
      (field.valueAt stencil.second).sub (field.valueAt stencil.first) = some difference ∧
      difference.quot (.sym edgeLength) = some result := by
  unfold differenceQuotient at formed
  split at formed
  · rename_i name position
    split at formed
    · rename_i isPosition
      subst isPosition
      obtain ⟨difference, subtracts, divides⟩ :=
        Option.bind_eq_some_iff.mp (Outcome.ofPower?_eq_ok_iff.mp formed)
      exact ⟨⟨name⟩, difference, rfl, subtracts, divides⟩
    · exact absurd formed (Outcome.expr_reject_ne_ok _ _ _)
  all_goals exact absurd formed (Outcome.expr_reject_ne_ok _ _ _)

/-- The normal derivative of a field at the generic point is a difference quotient. -/
theorem exists_of_differenceQuotient_valueAt {field : ScalarField}
    (formed : stencil.differenceQuotient [field.valueAt stencil.position] = .ok result) :
    ∃ difference, (field.valueAt stencil.second).sub (field.valueAt stencil.first) =
        some difference ∧ difference.quot (.sym edgeLength) = some result := by
  simp only [differenceQuotient, ScalarField.valueAt, apply, if_true] at formed
  exact Option.bind_eq_some_iff.mp (Outcome.ofPower?_eq_ok_iff.mp formed)

theorem forall₂_of_localizeAll {related : Expr → Expr → Prop} {es results : List Expr}
    (each : ∀ e ∈ es, ∀ localized, stencil.localize e = .ok localized → related e localized)
    (formed : stencil.localizeAll es = .ok results) : List.Forall₂ related es results := by
  induction es generalizing results with
  | nil =>
    cases formed
    exact .nil
  | cons e rest ih =>
    obtain ⟨relates, later⟩ := List.forall_mem_cons.mp each
    obtain ⟨localized, localizes, formed⟩ := Outcome.bind_eq_ok_iff.mp formed
    obtain ⟨others, localizesRest, same⟩ := Outcome.bind_eq_ok_iff.mp formed
    cases same
    exact .cons (relates localized localizes) (ih later localizesRest)

/-- A relation between the operands of a chain and what they are joined to is passed on from one
operand to the next. -/
theorem related_localizeChain {related : Expr → Expr → Prop} (node : List Expr → Expr)
    {join : Expr → Expr → Option Expr}
    (joins : ∀ before e left right joined, before ≠ [] → related (node before) left →
      related e right → join left right = some joined → related (node (before ++ [e])) joined)
    {before es : List Expr} {start : Expr} (nonempty : before ≠ [])
    (starts : related (node before) start)
    (operands : ∀ e ∈ es, ∀ localized, stencil.localize e = .ok localized → related e localized)
    (formed : stencil.localizeChain join start es = .ok result) :
    related (node (before ++ es)) result := by
  induction es generalizing before start with
  | nil =>
    cases formed
    rwa [List.append_nil]
  | cons e rest ih =>
    obtain ⟨operand, later⟩ := List.forall_mem_cons.mp operands
    obtain ⟨localized, localizes, formed⟩ := Outcome.bind_eq_ok_iff.mp formed
    obtain ⟨joined, joinsTo, formed⟩ := Outcome.bind_eq_ok_iff.mp formed
    rw [List.append_cons]
    exact ih (by simp) (joins before e start localized joined nonempty starts
      (operand localized localizes) (Outcome.ofPower?_eq_ok_iff.mp joinsTo)) later formed

/-- A relation between expressions and what they are localized to holds if every construct passes
it on from its operands. Sums and products are localized by joining one operand after the other to
those before it. -/
theorem localize_induction {motive : Expr → Expr → Prop}
    (num : ∀ value, motive (.num value) (.num value))
    (sym : ∀ name, motive (.sym name) (.sym name))
    (add : ∀ term result, motive term result → motive (.add [term]) result)
    (addNext : ∀ terms term left right, terms ≠ [] → motive (.add terms) left →
      motive term right → motive (.add (terms ++ [term])) (Expr.sum [left, right]))
    (mul : ∀ factor result, motive factor result → motive (.mul [factor]) result)
    (mulNext : ∀ factors factor left right result, factors ≠ [] → motive (.mul factors) left →
      motive factor right → Expr.prod [left, right] = some result →
      motive (.mul (factors ++ [factor])) result)
    (pow : ∀ base exponent inner result, stencil.localize base = .ok inner → motive base inner →
      Expr.power inner exponent = some result → motive (.pow base exponent) result)
    (vector : ∀ components results, List.Forall₂ motive components results →
      motive (.vector components) (.vector results))
    (dot : ∀ left right left' right', List.Forall₂ motive left left' →
      List.Forall₂ motive right right' →
      motive (.call .dot [.vector left, .vector right])
        (.call .dot [.vector left', .vector right']))
    (derivative : ∀ args result, stencil.differenceQuotient args = .ok result →
      motive (.call .normalDerivative args) result)
    (call : ∀ name arg localized, stencil.localize arg = .ok localized → motive arg localized →
      motive (.call (.named name) [arg]) (.call (.named name) [localized]))
    (formed : stencil.localize e = .ok result) : motive e result := by
  -- The operands of an inner product are localized component by component.
  suffices deep : (∀ {result}, stencil.localize e = .ok result → motive e result) ∧
      ∀ components, e = .vector components → ∀ component ∈ components, ∀ localized,
        stencil.localize component = .ok localized → motive component localized from
    deep.1 formed
  clear formed
  induction e with
  | num value =>
    refine ⟨fun formed => ?_, fun _ same => nomatch same⟩
    cases formed
    exact num value
  | sym name =>
    refine ⟨fun formed => ?_, fun _ same => nomatch same⟩
    cases formed
    exact sym name
  | add terms ih =>
    refine ⟨fun formed => ?_, fun _ same => nomatch same⟩
    cases terms with
    | nil => cases formed
    | cons term rest =>
      obtain ⟨⟨first, -⟩, later⟩ := List.forall_mem_cons.mp ih
      obtain ⟨start, localizes, formed⟩ := Outcome.bind_eq_ok_iff.mp formed
      refine related_localizeChain .add
        (fun before e left right joined nonempty motiveLeft motiveRight same => ?_)
        (List.cons_ne_nil term []) (add term start (first localizes))
        (fun e member _ localizes => (later e member).1 localizes) formed
      cases same
      exact addNext before e left right nonempty motiveLeft motiveRight
  | mul factors ih =>
    refine ⟨fun formed => ?_, fun _ same => nomatch same⟩
    cases factors with
    | nil => cases formed
    | cons factor rest =>
      obtain ⟨⟨first, -⟩, later⟩ := List.forall_mem_cons.mp ih
      obtain ⟨start, localizes, formed⟩ := Outcome.bind_eq_ok_iff.mp formed
      exact related_localizeChain .mul mulNext (List.cons_ne_nil factor [])
        (mul factor start (first localizes))
        (fun e member _ localizes => (later e member).1 localizes) formed
  | pow base exponent ih =>
    refine ⟨fun formed => ?_, fun _ same => nomatch same⟩
    obtain ⟨inner, localizes, powered⟩ := Outcome.bind_eq_ok_iff.mp formed
    exact pow base exponent inner _ localizes (ih.1 localizes)
      (Outcome.ofPower?_eq_ok_iff.mp powered)
  | vector components ih =>
    refine ⟨fun formed => ?_, fun others same => ?_⟩
    · obtain ⟨results, localizes, same⟩ := Outcome.bind_eq_ok_iff.mp formed
      cases same
      exact vector components results
        (forall₂_of_localizeAll (fun e member _ localizes => (ih e member).1 localizes) localizes)
    · cases same
      exact fun e member _ localizes => (ih e member).1 localizes
  | call head args ih =>
    refine ⟨fun formed => ?_, fun _ same => nomatch same⟩
    rcases localize_call_cases formed with
      ⟨left, right, left', right', rfl, rfl, localizesLeft, localizesRight, rfl⟩ |
      ⟨rfl, formed⟩ | ⟨name, arg, localized, rfl, rfl, localizes, rfl⟩
    · obtain ⟨-, lefts⟩ := ih (.vector left) (by simp)
      obtain ⟨-, rights⟩ := ih (.vector right) (by simp)
      exact dot left right left' right' (forall₂_of_localizeAll (lefts left rfl) localizesLeft)
        (forall₂_of_localizeAll (rights right rfl) localizesRight)
    · exact derivative args _ formed
    · exact call name arg localized localizes ((ih arg List.mem_cons_self).1 localizes)

end Localization

end FiniteVolume.Stencil
