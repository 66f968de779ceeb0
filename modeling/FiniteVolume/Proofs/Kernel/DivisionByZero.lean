import FiniteVolume.Proofs.Stencil.Grammar
import FiniteVolume.Proofs.Stencil.Retention

/-!
# Integrands that divide by zero

A division by zero that is not nested in another division survives all steps from an integrand to
the expression that is checked for it, so that the kernel is rejected as unsupported. One that shows
only after expansion is not found by the check. It survives the split as well, and the kernel is
rejected for its nonlinear rest instead (`blocks_of_singular`).
-/

namespace FiniteVolume

namespace Expr

variable {invertible : String → Prop} {e : Expr}

/-- Expansion brings a division by zero into the open. -/
def ExposedByExpansion (invertible : String → Prop) (e : Expr) : Prop :=
  ∃ expanded, e.expand = some expanded ∧ expanded.Exposed invertible

/-- The nonlinear rest of a split keeps the divisions by zero that the expansion shows. -/
theorem ExposedByExpansion.nonlinear {unknowns : List String} {parts : AffineSplit}
    (exposed : e.ExposedByExpansion invertible) (splits : e.split unknowns = some parts) :
    parts.nonlinear.dividesByZero = true := by
  obtain ⟨expanded, expands, exposed⟩ := exposed
  obtain ⟨_, captured, difference, rest, expands', -, -, -, subtractsAffine, subtractsLinear,
    expandsRest⟩ := split_cases splits
  cases expands.symm.trans expands'
  have inRest := exposed_sub (exposed_sub exposed subtractsAffine) subtractsLinear
  exact (inRest.expand expandsRest).dividesByZero

end Expr

namespace Stencil

open FiniteVolume.Expr Outcome

variable {stencil : Stencil} {e : Expr}

section Errors

variable {integrand : Integrand} {value : Expr}

/-- Replacing samples rejects integrands as unsupported only. -/
theorem errorsAre_sampleField (field : ScalarField) (e : Expr) :
    (stencil.sampleField e field).ErrorsAre Error.IsUnsupported := by
  refine (errorsAre_ofPower? _).bind fun _ _ => (errorsAre_ofPower? _).bind fun _ _ =>
    (errorsAre_ofPower? _).bind fun _ _ => (errorsAre_ofPower? _).bind fun sampled _ => ?_
  cases field.findIn? sampled with
  | none => exact errorsAre_ok _
  | some application => exact (rejectsAs_reject _ _).errors

/-- Discretization on an edge rejects integrands as unsupported only. -/
theorem errorsAre_discretizeEdge (evaluates : stencil.point.evaluate integrand = .ok value) :
    (stencil.discretizeEdge integrand [stencil.field]).ErrorsAre Error.IsUnsupported := by
  have evaluated : (stencil.point.evaluate integrand).ErrorsAre Error.IsUnsupported :=
    evaluates ▸ errorsAre_ok value
  exact evaluated.bind fun _ _ => (errorsAre_ofPower? _).bind fun _ _ =>
    ((errorsAre_localize _).imp fun _ => And.left).bind fun _ _ =>
    (errorsAre_ofPower? _).bind fun _ _ =>
    ((errorsAre_sampleField _ _).bind fun _ _ => errorsAre_ok _).bind fun _ _ =>
    (errorsAre_ofPower? _).bind fun _ _ => (errorsAre_ofPower? _).bind fun _ _ =>
    (errorsAre_ofPower? _).bind fun _ _ => errorsAre_ofPower? _

end Errors

section Kernels

variable {integrand : Integrand} {value : Expr}

/-- An integrand that divides by zero is rejected as unsupported. -/
theorem rejectsAs_rejectDivisionByZero (divides : e.dividesByZero = true) :
    (rejectDivisionByZero e).RejectsAs Error.IsUnsupported := by
  rw [rejectDivisionByZero, if_pos divides]
  exact rejectsAs_reject e _

/-- On a facet an integrand that divides by zero is rejected as unsupported. -/
theorem edgeBlock_of_singular (evaluates : stencil.point.evaluate integrand = .ok value)
    (unnested : value.Unnested stencil.IsParameter) (divides : value.dividesByZero = true) :
    (stencil.edgeBlock integrand).RejectsAs Error.IsUnsupported := by
  refine (errorsAre_discretizeEdge evaluates).rejects fun contribution discretizes => ?_
  refine (errorsAre_ofPower? _).rejects fun forward normalizes => ?_
  obtain ⟨area, plain, retains⟩ := retains_discretizeEdge evaluates discretizes
  have retainsForward : Retains stencil.IsParameter (.mul [area, value]) forward :=
    retains.trans (.normalize (Outcome.ofPower?_eq_ok_iff.mp normalizes))
  have unnestedProduct : (Expr.mul [area, value]).Unnested stencil.IsParameter :=
    (composed_unnested.mul_iff _).mpr (forall_mem_pair ⟨plain.unnested, unnested⟩)
  have dividesProduct : (Expr.mul [area, value]).dividesByZero = true := by
    rw [dividesByZero_mul, List.any_eq_true]
    exact ⟨value, by simp, divides⟩
  exact (rejectsAs_rejectDivisionByZero
    (retainsForward.divides unnestedProduct dividesProduct)).bind

/-- At a vertex an integrand is rejected as unsupported if one of its terms divides by zero, or if
anything divides by zero in it and the unknown is not sampled. -/
theorem atVertex_of_singular (evaluates : stencil.point.evaluate integrand = .ok value)
    (divides : value.Exposed stencil.IsParameter ∨
      stencil.field.sample stencil.point ∉ value.subterms ∧ value.dividesByZero = true) :
    (stencil.atVertex integrand).RejectsAs Error.IsUnsupported := by
  have evaluated : (stencil.point.evaluate integrand).ErrorsAre Error.IsUnsupported :=
    evaluates ▸ errorsAre_ok value
  refine evaluated.rejects fun other evaluates' => ?_
  cases evaluates.symm.trans evaluates'
  dsimp only
  split
  · rename_i sampled
    have exposed := divides.resolve_right fun both => both.1 sampled
    refine (errorsAre_ofPower? _).rejects fun e samples => ?_
    have sums : ∀ terms, replacement? [(stencil.field.valueAt (vectorOf stencil.coordSymbols),
        .sym (firstValue stencil.field))] (.add terms) = none := by
      intro terms
      rw [replacement?_sample, ScalarField.valueAt, apply, if_neg (by simp)]
    have divides := (exposed.replaceWith (retains_replacement?_sample (plain_sym _)) sums
      (Outcome.ofPower?_eq_ok_iff.mp samples)).dividesByZero
    split
    · exact rejectsAs_reject _ _
    · exact (rejectsAs_rejectDivisionByZero divides).bind
  · have divides := divides.elim Exposed.dividesByZero And.right
    refine (errorsAre_ok value).rejects fun e same => ?_
    cases same
    split
    · exact rejectsAs_reject _ _
    · exact (rejectsAs_rejectDivisionByZero divides).bind

/-- A split does not find a division by zero that only expansion shows: it is a nonlinear rest to
it. -/
theorem rejectsAs_linearSplit {invertible : String → Prop} {unknowns : List String}
    (exposed : e.ExposedByExpansion invertible) :
    (linearSplit e unknowns).RejectsAs Error.IsNonLinear := by
  refine (errorsAre_ofPower? _).rejects fun parts splits => ?_
  have divides := exposed.nonlinear (Outcome.ofPower?_eq_ok_iff.mp splits)
  have rejected : parts.isLinear = false := by
    refine Bool.eq_false_iff.mpr fun linear => ?_
    rw [eq_zero_of_isZero linear] at divides
    cases divides
  rw [AffineSplit.requireLinear, if_neg (by simp [rejected])]
  exact (errorsAre_ofPower? _).rejects fun _ _ => (errorsAre_ofPower? _).rejects fun _ _ =>
    ⟨nofun, fun failure same => by cases same; trivial⟩

/-- Kernels of integrands that divide by zero are rejected as unsupported where the division is not
nested in another one; in a canonical tree that is a matter of its divisors alone
(`Canonical.unnested`). The check for it sees trees as they are before they are expanded: what
divides by zero only after expansion is rejected as well, but for being nonlinear. -/
theorem blocks_of_singular (evaluates : stencil.point.evaluate integrand = .ok value) :
    (value.Unnested stencil.IsParameter → value.dividesByZero = true →
      (stencil.edgeBlock integrand).RejectsAs Error.IsUnsupported) ∧
    (value.Exposed stencil.IsParameter ∨
        stencil.field.sample stencil.point ∉ value.subterms ∧ value.dividesByZero = true →
      (stencil.dirichletBlock integrand).RejectsAs Error.IsUnsupported ∧
        ∀ weight, (stencil.pointBlock integrand weight).RejectsAs Error.IsUnsupported) ∧
    (∀ contribution forward,
      stencil.discretizeEdge integrand [stencil.field] = .ok contribution →
      contribution.normalize = some forward → forward.ExposedByExpansion stencil.IsParameter →
      (stencil.edgeBlock integrand).RejectsAs
        (if forward.dividesByZero then Error.IsUnsupported else Error.IsNonLinear)) ∧
    ∀ sampled, stencil.atVertex integrand = .ok sampled →
      (sampled.ExposedByExpansion stencil.IsParameter →
        (stencil.dirichletBlock integrand).RejectsAs Error.IsNonLinear) ∧
      ∀ weight contribution, Expr.prod [sampled, .sym weight] = some contribution →
        contribution.ExposedByExpansion stencil.IsParameter →
        (stencil.pointBlock integrand weight).RejectsAs Error.IsNonLinear := by
  refine ⟨edgeBlock_of_singular evaluates, fun divides => ?_, fun contribution forward
    discretizes normalizes exposed => ?_, fun sampled samples => ⟨fun exposed => ?_,
    fun weight contribution multiplied exposed => ?_⟩⟩
  · have rejects := atVertex_of_singular evaluates divides
    exact ⟨rejects.bind, fun weight => rejects.bind⟩
  · have normalized := Outcome.ofPower?_eq_ok_iff.mpr normalizes
    rw [edgeBlock, discretizes, Outcome.ok_bind, normalized, Outcome.ok_bind]
    split
    · rename_i divides
      exact (rejectsAs_rejectDivisionByZero divides).bind
    · rename_i regular
      rw [rejectDivisionByZero, if_neg regular, Outcome.ok_bind]
      exact (rejectsAs_linearSplit exposed).bind
  · rw [dirichletBlock, samples]
    exact (rejectsAs_linearSplit exposed).bind
  · rw [pointBlock, samples, Outcome.ok_bind, multiplied]
    exact (rejectsAs_linearSplit exposed).bind

/-- The unknown over zero, and the inverse of `x(1 + x) - x - x²`, in one dimension. -/
theorem blocks_of_singular_pole :
    let stencil : Stencil := ⟨1, ⟨"u"⟩⟩
    let x := Expr.sym "x_0"
    let pole := Expr.pow zero Exponent.negOne
    let shown := Expr.mul [pole, stencil.field.sample stencil.point]
    let veiled := Expr.pow (.add [.mul [.num (-1), x],
      .mul [.num (-1), .pow x ⟨2, by decide, by decide⟩],
      .mul [x, .add [.num 1, x]]]) Exponent.negOne
    ((∃ error, stencil.edgeBlock (fun _ => pure shown) = Outcome.reject error ∧
        error.IsUnsupported) ∧
      (∃ error, stencil.dirichletBlock (fun _ => pure shown) = Outcome.reject error ∧
        error.IsUnsupported) ∧
      ∃ error, stencil.pointBlock (fun _ => pure shown) controlVolume = Outcome.reject error ∧
        error.IsUnsupported) ∧
    (∃ error, stencil.edgeBlock (fun _ => pure veiled) = Outcome.reject error ∧
        error.IsNonLinear) ∧
      (∃ error, stencil.dirichletBlock (fun _ => pure veiled) = Outcome.reject error ∧
        error.IsNonLinear) ∧
      ∃ error, stencil.pointBlock (fun _ => pure veiled) controlVolume = Outcome.reject error ∧
        error.IsNonLinear := by
  intro stencil x pole shown veiled
  have unnestedPole : pole.Unnested stencil.IsParameter :=
    unnested_iff.mpr ⟨⟨by decide, fun _ => by decide, fun _ => Or.inl rfl⟩,
      List.forall_mem_singleton.mpr (composed_unnested.num 0)⟩
  have unnestedShown : shown.Unnested stencil.IsParameter :=
    (composed_unnested.mul_iff _).mpr (forall_mem_pair
      ⟨unnestedPole, (plain_valueAt stencil.field stencil.coordSymbols).unnested⟩)
  have exposed : ∀ {symbols : List Expr}, (∀ e ∈ symbols, ∃ name, e = .sym name) →
      (Expr.mul (symbols ++ [pole])).Exposed stencil.IsParameter := by
    intro symbols each
    refine Unnested.exposed ((composed_unnested.mul_iff _).mpr ?_) ?_
    · refine List.forall_mem_append.mpr
        ⟨fun e member => ?_, List.forall_mem_singleton.mpr unnestedPole⟩
      obtain ⟨name, rfl⟩ := each e member
      exact (plain_sym name).unnested
    · rw [dividesByZero_mul, List.any_append]
      exact Bool.or_eq_true_iff.mpr (Or.inr rfl)
  obtain ⟨onEdge, atPoint, -⟩ := @blocks_of_singular stencil (fun _ => pure shown) shown rfl
  obtain ⟨-, -, hiddenOnEdge, hiddenAtPoint⟩ :=
    @blocks_of_singular stencil (fun _ => pure veiled) veiled rfl
  obtain ⟨condition, weighted⟩ := atPoint (Or.inl (unnestedShown.exposed (by decide)))
  refine ⟨⟨(onEdge unnestedShown (by decide)).exists_error (by decide +kernel),
    condition.exists_error (by decide +kernel),
    (weighted controlVolume).exists_error (by decide +kernel)⟩, ?_⟩
  -- at the midpoint of an edge
  let halves := [Expr.mul [.num (1 / 2), .sym "x0_0"], .mul [.num (1 / 2), .sym "x1_0"]]
  let onFacet := Expr.mul [.sym edgeRatio, .sym edgeLength, .pow (.add [
    .mul [.num (-1), .pow (.add halves) ⟨2, by decide, by decide⟩],
    .mul [.num (-1 / 2), .sym "x0_0"], .mul [.num (-1 / 2), .sym "x1_0"],
    .mul [.add (.num 1 :: halves), .add halves]]) Exponent.negOne]
  have discretizes : stencil.discretizeEdge (fun _ => pure veiled) [stencil.field] =
      .ok onFacet := by
    decide +kernel
  have expandsFacet : onFacet.expand =
      some (.mul ([.sym edgeRatio, .sym edgeLength] ++ [pole])) := by
    decide +kernel
  have expandsWeighted : (Expr.mul [.sym controlVolume, veiled]).expand =
      some (.mul ([.sym controlVolume] ++ [pole])) := by
    decide +kernel
  have samples : stencil.atVertex (fun _ => pure veiled) = .ok veiled := by decide +kernel
  obtain ⟨condition, weighted⟩ := hiddenAtPoint veiled samples
  have onEdge := hiddenOnEdge onFacet onFacet discretizes (by decide +kernel)
    ⟨_, expandsFacet, exposed (by simp)⟩
  have atVertex := condition ⟨pole, by decide +kernel, unnestedPole.exposed (by decide)⟩
  have onVolume := weighted controlVolume _ (by decide +kernel)
    ⟨_, expandsWeighted, exposed (by simp)⟩
  exact ⟨onEdge.exists_error (by decide +kernel), atVertex.exists_error (by decide +kernel),
    onVolume.exists_error (by decide +kernel)⟩

end Kernels

end Stencil

end FiniteVolume
