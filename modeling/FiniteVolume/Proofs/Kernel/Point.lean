import FiniteVolume.Proofs.Kernel.Linear
import FiniteVolume.Proofs.Stencil.Sampling

/-!
# Vertex, face and Dirichlet kernels

At a vertex the unknown has one value, which takes the place of its samples. A vertex or face kernel
is the integrand there times the size of the entity, and a Dirichlet kernel is an equation that
holds exactly when its condition does, as long as they are split off regularly
(`pointKernels_mean_integrand`). The coefficients do not depend on the value of the unknown.
-/

namespace FiniteVolume.Stencil

open FiniteVolume.Expr

/-- How an integrand is read at a vertex: the unknown has its value there. -/
def vertexReading {K : Type*} (stencil : Stencil) (reading : Interpretation K) :
    Interpretation K :=
  { reading with
    call := fun head args =>
      if head = .named stencil.field.name then
        reading.symbol (firstValue stencil.field)
      else
        reading.call head args }

variable {K : Type*} [Field K] [CharZero K] {stencil : Stencil} {reading : Interpretation K}
  {integrand : Integrand} {e : Expr}

omit [CharZero K] in
/-- At a vertex the sample of the field is the value there. -/
theorem valueIn_vertexReading_sample (stencil : Stencil) (reading : Interpretation K) :
    (stencil.field.sample stencil.point).valueIn (stencil.vertexReading reading) =
      reading.symbol (firstValue stencil.field) := by
  rw [ScalarField.sample, ScalarField.valueAt, apply, valueIn_call_of_ne (by simp)]
  exact if_pos rfl

/-- An integrand at a vertex: its samples of the unknown are replaced, if it has any, and no other
application of the unknown is left. -/
theorem atVertex_cases {result : Expr} (evaluates : stencil.point.evaluate integrand = .ok e)
    (formed : stencil.atVertex integrand = .ok result) :
    (result = e ∨ e.subst [(stencil.field.sample stencil.point,
      .sym (firstValue stencil.field))] = some result) ∧ stencil.field.findIn? result = none := by
  obtain ⟨_, evaluates', formed⟩ := Outcome.bind_eq_ok_iff.mp formed
  cases evaluates.symm.trans evaluates'
  dsimp only at formed
  split at formed
  · obtain ⟨sampled, samples, formed⟩ := Outcome.bind_eq_ok_iff.mp formed
    split at formed
    · exact absurd formed (Outcome.expr_reject_ne_ok _ _ _)
    · rename_i unsampled
      obtain ⟨_, -, same⟩ := Outcome.bind_eq_ok_iff.mp formed
      cases same
      exact ⟨Or.inr (Outcome.ofPower?_eq_ok_iff.mp samples), unsampled⟩
  · obtain ⟨_, same, formed⟩ := Outcome.bind_eq_ok_iff.mp formed
    cases same
    split at formed
    · exact absurd formed (Outcome.expr_reject_ne_ok _ _ _)
    · rename_i unsampled
      obtain ⟨_, -, same⟩ := Outcome.bind_eq_ok_iff.mp formed
      cases same
      exact ⟨Or.inl rfl, unsampled⟩

/-- At a vertex an integrand has the value it has where the unknown is read as its value there. -/
theorem valueIn_atVertex {result : Expr} (evaluates : stencil.point.evaluate integrand = .ok e)
    (dots : e.VectorDots) (defined : e.Defined (stencil.vertexReading reading))
    (formed : stencil.atVertex integrand = .ok result) :
    result.Sound reading ∧ result.valueIn reading = e.valueIn (stencil.vertexReading reading) := by
  obtain ⟨samples, unsampled⟩ := atVertex_cases evaluates formed
  have sampled : result.Sound (stencil.vertexReading reading) ∧
      result.valueIn (stencil.vertexReading reading) =
        e.valueIn (stencil.vertexReading reading) := by
    rcases samples with rfl | samples
    · exact ⟨⟨defined, dots⟩, rfl⟩
    · have carries := carries_replaceWith samples ⟨defined, dots⟩ (replaces_sample (sound_sym _)
        ((valueIn_sym _).trans (valueIn_vertexReading_sample stencil reading).symm) e)
      exact ⟨carries.sound, carries.value⟩
  -- no application of the unknown is left, so it does not matter how it is read
  have carries : Carries (stencil.vertexReading reading) reading result result :=
    carries_self sampled.1
      { replaced := fun _ _ _ found => nomatch found
        symbol := fun _ _ _ => rfl
        call := fun head args member _ _ => by
          have other : head ≠ .named stencil.field.name := by
            rintro rfl
            exact ne_of_findIn?_eq_none unsampled member rfl
          funext values
          exact (if_neg other).symm
        vector := rfl
        vectors := fun _ => rfl }
  exact ⟨carries.sound, carries.value.trans sampled.2⟩

/-- The coefficients of an expression that is linear in the value of the unknown. -/
theorem valueIn_of_linearSplit {parts : AffineSplit}
    (accepts : linearSplit e [firstValue stencil.field] = .ok parts) (sound : e.Sound reading)
    (regular : SplitsRegularly reading e [parts.coefficient 0]) :
    (parts.coefficient 0).valueIn reading * reading.symbol (firstValue stencil.field) +
      parts.affine.valueIn reading = e.valueIn reading := by
  obtain ⟨a, single⟩ := List.length_eq_one_iff.mp (length_of_linearSplit accepts)
  have coefficient : parts.coefficient 0 = a := by simp [AffineSplit.coefficient, single]
  rw [coefficient] at regular ⊢
  rw [valueIn_linearSplit accepts sound (single ▸ regular), AffineSplit.affineValue, single]
  simp only [List.zip_cons_cons, List.zip_nil_left, List.map_cons, List.map_nil, List.sum_cons,
    List.sum_nil]
  ring

omit [CharZero K] in
/-- The coefficient of the value does not contain it. -/
theorem lacks_coefficient {parts : AffineSplit}
    (accepts : linearSplit e [firstValue stencil.field] = .ok parts) :
    (parts.coefficient 0).hasSymbol (firstValue stencil.field) = false := by
  obtain ⟨a, single⟩ := List.length_eq_one_iff.mp (length_of_linearSplit accepts)
  have lacks := (lacks_of_linearSplit accepts List.mem_cons_self).2 a (by simp [single])
  simpa [AffineSplit.coefficient, single] using lacks

/-- What an integrand contributes at a vertex, before the unknown is split off: its value there
times the size of the entity. -/
def pointContribution (stencil : Stencil) (integrand : Integrand) (weight : String) :
    Outcome Expr := do
  Outcome.ofPower? (Expr.prod [← stencil.atVertex integrand, .sym weight])

/-- The value of a contribution at a vertex: the affine function of the value of the unknown that
the coefficients of a block describe. -/
def blockValue (stencil : Stencil) (reading : Interpretation K) (block : PointBlock Expr) : K :=
  block.linear.valueIn reading * reading.symbol (firstValue stencil.field) +
    block.affine.valueIn reading

omit [CharZero K] in
/-- Both parts that are split off an expression do not depend on the value of the unknown. -/
theorem lacks_of_split {parts : AffineSplit}
    (accepts : linearSplit e [firstValue stencil.field] = .ok parts) :
    ∀ part ∈ [parts.coefficient 0, parts.affine],
      part.hasSymbol (firstValue stencil.field) = false :=
  forall_mem_pair ⟨lacks_coefficient accepts, (lacks_of_linearSplit accepts List.mem_cons_self).1⟩

/-- A vertex or face block does not depend on the value of the unknown, and contributes the value of
the integrand times the weight if it is split off regularly. -/
theorem pointBlock_means_integrand {weight : String} {block : PointBlock Expr}
    (evaluates : stencil.point.evaluate integrand = .ok e) (dots : e.VectorDots)
    (defined : e.Defined (stencil.vertexReading reading))
    (formed : stencil.pointBlock integrand weight = .ok block) :
    (∀ part ∈ [block.linear, block.affine],
      part.hasSymbol (firstValue stencil.field) = false) ∧
    ((∀ contribution, stencil.pointContribution integrand weight = .ok contribution →
        SplitsRegularly reading contribution [block.linear]) →
      stencil.blockValue reading block =
        reading.symbol weight * e.valueIn (stencil.vertexReading reading)) := by
  obtain ⟨value, atVertex, formed⟩ := Outcome.bind_eq_ok_iff.mp formed
  obtain ⟨contribution, multiplies, formed⟩ := Outcome.bind_eq_ok_iff.mp formed
  obtain ⟨parts, accepts, same⟩ := Outcome.bind_eq_ok_iff.mp formed
  cases same
  refine ⟨lacks_of_split accepts, fun regular => ?_⟩
  obtain ⟨sound, sameValue⟩ := valueIn_atVertex evaluates dots defined atVertex
  have multiplied := Outcome.ofPower?_eq_ok_iff.mp multiplies
  have operands : ∀ operand ∈ [value, .sym weight], operand.Sound reading :=
    forall_mem_pair ⟨sound, sound_sym weight⟩
  have soundContribution := (hereditary_sound reading).prod multiplied operands
  have contributes : stencil.pointContribution integrand weight = .ok contribution :=
    Outcome.bind_eq_ok_iff.mpr ⟨value, atVertex, multiplies⟩
  rw [blockValue, valueIn_of_linearSplit accepts soundContribution
      (regular contribution contributes),
    valueIn_prod multiplied fun operand member => (operands operand member).1, List.map_cons,
    List.map_singleton, List.prod_cons, List.prod_singleton, valueIn_sym, sameValue, mul_comm]

/-- A Dirichlet block does not depend on the value of the unknown, and requires that the value of
its condition vanishes if it is split off regularly. -/
theorem dirichletBlock_means_condition {block : DirichletBlock Expr}
    (evaluates : stencil.point.evaluate integrand = .ok e) (dots : e.VectorDots)
    (defined : e.Defined (stencil.vertexReading reading))
    (formed : stencil.dirichletBlock integrand = .ok block) :
    (∀ part ∈ [block.coeff, block.rhs], part.hasSymbol (firstValue stencil.field) = false) ∧
    ((∀ value, stencil.atVertex integrand = .ok value →
        SplitsRegularly reading value [block.coeff]) →
      block.coeff.valueIn reading * reading.symbol (firstValue stencil.field) -
        block.rhs.valueIn reading = e.valueIn (stencil.vertexReading reading)) := by
  obtain ⟨value, atVertex, formed⟩ := Outcome.bind_eq_ok_iff.mp formed
  obtain ⟨parts, accepts, formed⟩ := Outcome.bind_eq_ok_iff.mp formed
  obtain ⟨rhs, negates, same⟩ := Outcome.bind_eq_ok_iff.mp formed
  cases same
  have negated := Outcome.ofPower?_eq_ok_iff.mp negates
  have lacks := lacks_of_split accepts
  refine ⟨forall_mem_pair ⟨lacks _ List.mem_cons_self,
    (inherited_lacks _).neg negated (lacks _ (by simp))⟩, fun regular => ?_⟩
  obtain ⟨sound, sameValue⟩ := valueIn_atVertex evaluates dots defined atVertex
  have opposite : rhs.valueIn reading = -parts.affine.valueIn reading :=
    valueIn_neg negated (sound_affine_of_linearSplit accepts sound).1
  rw [opposite, sub_neg_eq_add, valueIn_of_linearSplit accepts sound (regular value atVertex),
    sameValue]

/-- Vertex, face and Dirichlet kernels mean what their integrand means where the unknown is read as
its value at the vertex, wherever the integrand does not divide by zero and they are split off
regularly: the contributions of vertex and face kernels are its value times the size of the entity,
and the row of a Dirichlet kernel holds exactly when its value is zero. Their coefficients never
depend on the value of the unknown. -/
theorem pointKernels_mean_integrand (evaluates : stencil.point.evaluate integrand = .ok e)
    (dots : e.VectorDots) (defined : e.Defined (stencil.vertexReading reading)) :
    (∀ subdomains kernel,
      IntegralKernel.ofIntegral stencil ⟨integrand, .controlVolume, subdomains⟩ =
        .ok (.vertex kernel) →
      (∀ part ∈ [kernel.block.linear, kernel.block.affine],
        part.hasSymbol (firstValue stencil.field) = false) ∧
      ((∀ contribution, stencil.pointContribution integrand controlVolume = .ok contribution →
          SplitsRegularly reading contribution [kernel.block.linear]) →
        stencil.blockValue reading kernel.block =
          reading.symbol controlVolume * e.valueIn (stencil.vertexReading reading))) ∧
    (∀ subdomains kernel,
      IntegralKernel.ofIntegral stencil ⟨integrand, .boundarySurface, subdomains⟩ =
        .ok (.face kernel) →
      (∀ part ∈ [kernel.block.linear, kernel.block.affine],
        part.hasSymbol (firstValue stencil.field) = false) ∧
      ((∀ contribution, stencil.pointContribution integrand surfaceArea = .ok contribution →
          SplitsRegularly reading contribution [kernel.block.linear]) →
        stencil.blockValue reading kernel.block =
          reading.symbol surfaceArea * e.valueIn (stencil.vertexReading reading))) ∧
    ∀ subdomain kernel,
      DirichletKernel.ofCondition stencil ⟨integrand, subdomain⟩ = .ok kernel →
      (∀ part ∈ [kernel.block.coeff, kernel.block.rhs],
        part.hasSymbol (firstValue stencil.field) = false) ∧
      ((∀ value, stencil.atVertex integrand = .ok value →
          SplitsRegularly reading value [kernel.block.coeff]) →
        kernel.block.coeff.valueIn reading * reading.symbol (firstValue stencil.field) -
            kernel.block.rhs.valueIn reading = e.valueIn (stencil.vertexReading reading) ∧
          (kernel.block.coeff.valueIn reading * reading.symbol (firstValue stencil.field) =
            kernel.block.rhs.valueIn reading ↔ e.valueIn (stencil.vertexReading reading) = 0)) := by
  refine ⟨fun subdomains kernel formed => ?vertex, fun subdomains kernel formed => ?face,
    fun subdomain kernel formed => ?dirichlet⟩
  case vertex =>
    obtain ⟨block, blockFormed, same⟩ := Outcome.bind_eq_ok_iff.mp formed
    cases same
    exact pointBlock_means_integrand evaluates dots defined blockFormed
  case face =>
    obtain ⟨block, blockFormed, same⟩ := Outcome.bind_eq_ok_iff.mp formed
    cases same
    exact pointBlock_means_integrand evaluates dots defined blockFormed
  case dirichlet =>
    obtain ⟨block, blockFormed, same⟩ := Outcome.bind_eq_ok_iff.mp formed
    cases same
    obtain ⟨lacks, equation⟩ := dirichletBlock_means_condition evaluates dots defined blockFormed
    refine ⟨lacks, fun regular => ⟨equation regular, ?_⟩⟩
    rw [← equation regular, sub_eq_zero]

/-- A quotient of the unknown with a function of the position, at a vertex and as a condition. -/
theorem pointKernels_mean_integrand_quotient :
    let stencil : Stencil := ⟨2, ⟨"u"⟩⟩
    let e : Expr := .add [.mul [stencil.field.sample stencil.point,
      .pow (.sym "y") Exponent.negOne], .call (.named "sin") [stencil.position]]
    let reading : Interpretation ℚ := ⟨fun name => if name = "y" then 2 else 3, fun _ => 5,
      fun _ values => values.sum⟩
    (∃ block, IntegralKernel.ofIntegral stencil ⟨fun _ => pure e, .controlVolume, [.everywhere]⟩ =
        .ok (.vertex ⟨block, [.everywhere]⟩) ∧
      stencil.blockValue reading block = 3 * e.valueIn (stencil.vertexReading reading)) ∧
    ∃ block, DirichletKernel.ofCondition stencil ⟨fun _ => pure e, .boundary⟩ =
        .ok ⟨block, .boundary⟩ ∧
      (block.coeff.valueIn reading * 3 = block.rhs.valueIn reading ↔
        e.valueIn (stencil.vertexReading reading) = 0) := by
  intro stencil e reading
  let coefficient : Expr := .pow (.sym "y") Exponent.negOne
  let wave : Expr := .call (.named "sin") [stencil.position]
  have sound : ∀ other : Interpretation ℚ, other.symbol "y" = 2 →
      coefficient.Sound other ∧ e.Sound other := by
    intro other isTwo
    have quotient : coefficient.Sound other := by
      refine ((hereditary_sound other).pow_iff _ _).mpr ⟨sound_sym "y", fun _ => ?_⟩
      rw [valueIn_sym, isTwo]
      decide
    have position : stencil.position.Sound other := sound_vectorOf _
    refine ⟨quotient, ((hereditary_sound other).add_iff _).mpr (forall_mem_pair ⟨?_, ?_⟩)⟩
    · exact ((hereditary_sound other).mul_iff _).mpr (forall_mem_pair ⟨sound_sample, quotient⟩)
    · exact sound_call (by simp) (List.forall_mem_singleton.mpr position)
  obtain ⟨vertex, -, dirichlet⟩ := @pointKernels_mean_integrand ℚ _ _ stencil reading
    (fun _ => pure e) e rfl (sound reading rfl).2.2 (sound (stencil.vertexReading reading) rfl).2.1
  have pointFormed : stencil.pointBlock (fun _ => pure e) controlVolume = .ok
      ⟨.mul [.sym controlVolume, coefficient], .mul [.sym controlVolume, wave]⟩ := by
    decide +kernel
  have dirichletFormed : DirichletKernel.ofCondition stencil ⟨fun _ => pure e, .boundary⟩ =
      .ok ⟨⟨coefficient, .mul [.num (-1), wave]⟩, .boundary⟩ := by
    decide +kernel
  constructor
  · have formed : IntegralKernel.ofIntegral stencil
        ⟨fun _ => pure e, .controlVolume, [.everywhere]⟩ = .ok (.vertex
          ⟨⟨.mul [.sym controlVolume, coefficient], .mul [.sym controlVolume, wave]⟩,
            [.everywhere]⟩) := by
      simp only [IntegralKernel.ofIntegral, pointFormed]
      rfl
    refine ⟨_, formed, (vertex _ _ formed).2 fun _ _ =>
      Or.inr (List.forall_mem_singleton.mpr ?_)⟩
    exact ((hereditary_defined reading).mul_iff _).mpr
      (forall_mem_pair ⟨(sound_sym _).1, (sound reading rfl).1.1⟩)
  · refine ⟨_, dirichletFormed, ((dirichlet _ _ dirichletFormed).2 fun _ _ => ?_).2⟩
    exact Or.inr (List.forall_mem_singleton.mpr (sound reading rfl).1.1)

end FiniteVolume.Stencil
