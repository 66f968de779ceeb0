import FiniteVolume.Proofs.Kernel.Coefficients

/-!
# Kernels of a problem

Every kernel of a problem is that of one of its integrals or conditions (`Problem.exists_source`),
and applies to the same subdomains. Like factors are gathered in all coefficients of these kernels
(`Problem.gathered_coefficients`), so every one of them has a written form.
-/

namespace FiniteVolume

variable {stencil : Stencil} {problem : Problem} {kernels : KernelSet Expr}

/-- A problem is discretized one integral and one condition after the other. -/
theorem Problem.discretize_eq_ok_iff :
    problem.discretize stencil = .ok kernels ↔
      ∃ formed conditions,
        problem.integrals.mapM (IntegralKernel.ofIntegral stencil) = .ok formed ∧
        problem.conditions.mapM (DirichletKernel.ofCondition stencil) = .ok conditions ∧
        kernels = {
          edge := (formed.filterMap IntegralKernel.edge?).eraseDups
          vertex := (formed.filterMap IntegralKernel.vertex?).eraseDups
          face := (formed.filterMap IntegralKernel.face?).eraseDups
          dirichlet := conditions.eraseDups } := by
  constructor
  · intro discretizes
    obtain ⟨formed, forms, discretizes⟩ := Outcome.bind_eq_ok_iff.mp discretizes
    obtain ⟨conditions, imposes, same⟩ := Outcome.bind_eq_ok_iff.mp discretizes
    cases same
    exact ⟨formed, conditions, forms, imposes, rfl⟩
  · rintro ⟨formed, conditions, forms, imposes, rfl⟩
    rw [discretize, forms, imposes]
    rfl

namespace IntegralKernel

variable {integral : Integral} {kernel : IntegralKernel}

/-- The kernel of an integral belongs to the entities of its measure. -/
theorem ofIntegral_cases (formed : ofIntegral stencil integral = .ok kernel) :
    (∃ block, integral.measure = .controlVolumeSurface ∧
        kernel = .edge ⟨block, integral.subdomains⟩ ∧
        stencil.edgeBlock integral.integrand = .ok block) ∨
      (∃ block, integral.measure = .controlVolume ∧
        kernel = .vertex ⟨block, integral.subdomains⟩ ∧
        stencil.pointBlock integral.integrand Stencil.controlVolume = .ok block) ∨
      ∃ block, integral.measure = .boundarySurface ∧
        kernel = .face ⟨block, integral.subdomains⟩ ∧
        stencil.pointBlock integral.integrand Stencil.surfaceArea = .ok block := by
  unfold ofIntegral at formed
  split at formed <;> rename_i measure <;>
    obtain ⟨block, forms, same⟩ := Outcome.bind_eq_ok_iff.mp formed <;> cases same
  · exact Or.inl ⟨block, measure, rfl, forms⟩
  · exact Or.inr (Or.inl ⟨block, measure, rfl, forms⟩)
  · exact Or.inr (Or.inr ⟨block, measure, rfl, forms⟩)

/-- The coefficients of a kernel, the linear ones first. -/
def coefficients : IntegralKernel → List Expr
  | edge kernel => kernel.block.coefficients
  | vertex kernel | face kernel => kernel.block.coefficients

/-- The measure of the integrals that a kernel belongs to. -/
def measure : IntegralKernel → Measure
  | edge _ => .controlVolumeSurface
  | vertex _ => .controlVolume
  | face _ => .boundarySurface

def subdomains : IntegralKernel → List Subdomain
  | edge kernel => kernel.subdomains
  | vertex kernel | face kernel => kernel.subdomains

/-- The coefficients of a discretized kernel have their like factors gathered. -/
theorem gathered_coefficients (formed : ofIntegral stencil integral = .ok kernel) :
    ∀ coefficient ∈ kernel.coefficients, coefficient.Gathered := by
  rcases ofIntegral_cases formed with
    ⟨block, -, rfl, forms⟩ | ⟨block, -, rfl, forms⟩ | ⟨block, -, rfl, forms⟩
  · exact Stencil.gathered_edgeBlock forms
  · exact Stencil.gathered_pointBlock forms
  · exact Stencil.gathered_pointBlock forms

/-- A kernel is of the measure and the subdomains of its integral. -/
theorem measure_and_subdomains (formed : ofIntegral stencil integral = .ok kernel) :
    kernel.measure = integral.measure ∧ kernel.subdomains = integral.subdomains := by
  rcases ofIntegral_cases formed with
    ⟨block, measure, rfl, -⟩ | ⟨block, measure, rfl, -⟩ | ⟨block, measure, rfl, -⟩ <;>
    exact ⟨measure.symm, rfl⟩

end IntegralKernel

/-- Every kernel of a problem is that of an integral or a condition. -/
theorem Problem.exists_source (discretizes : problem.discretize stencil = .ok kernels) :
    (∀ kernel ∈ kernels.edge, ∃ integral ∈ problem.integrals,
        IntegralKernel.ofIntegral stencil integral = .ok (.edge kernel)) ∧
      (∀ kernel ∈ kernels.vertex, ∃ integral ∈ problem.integrals,
        IntegralKernel.ofIntegral stencil integral = .ok (.vertex kernel)) ∧
      (∀ kernel ∈ kernels.face, ∃ integral ∈ problem.integrals,
        IntegralKernel.ofIntegral stencil integral = .ok (.face kernel)) ∧
      ∀ kernel ∈ kernels.dirichlet, ∃ condition ∈ problem.conditions,
        DirichletKernel.ofCondition stencil condition = .ok kernel := by
  obtain ⟨formed, conditions, forms, imposes, rfl⟩ := discretize_eq_ok_iff.mp discretizes
  have source : ∀ kernel ∈ formed, ∃ integral ∈ problem.integrals,
      IntegralKernel.ofIntegral stencil integral = .ok kernel := by
    intro kernel member
    obtain ⟨integral, paired, formsKernel⟩ :=
      exists_mem_zip_of_forall₂ (Outcome.mapM_eq_ok_iff.mp forms).flip member
    exact ⟨integral, (List.of_mem_zip paired).2, formsKernel⟩
  refine ⟨fun kernel member => ?_, fun kernel member => ?_, fun kernel member => ?_,
    fun kernel member => ?_⟩
  · obtain ⟨integralKernel, inside, isEdge⟩ := List.mem_filterMap.mp (List.mem_eraseDups.mp member)
    cases integralKernel <;> cases isEdge
    exact source _ inside
  · obtain ⟨integralKernel, inside, isVertex⟩ :=
      List.mem_filterMap.mp (List.mem_eraseDups.mp member)
    cases integralKernel <;> cases isVertex
    exact source _ inside
  · obtain ⟨integralKernel, inside, isFace⟩ := List.mem_filterMap.mp (List.mem_eraseDups.mp member)
    cases integralKernel <;> cases isFace
    exact source _ inside
  · obtain ⟨condition, paired, imposesKernel⟩ := exists_mem_zip_of_forall₂
      (Outcome.mapM_eq_ok_iff.mp imposes).flip (List.mem_eraseDups.mp member)
    exact ⟨condition, (List.of_mem_zip paired).2, imposesKernel⟩

/-- Like factors are gathered in all coefficients of the kernels of a problem. -/
theorem Problem.gathered_coefficients (discretizes : problem.discretize stencil = .ok kernels) :
    (∀ kernel ∈ kernels.edge, ∀ coefficient ∈ kernel.block.coefficients, coefficient.Gathered) ∧
      (∀ kernel ∈ kernels.vertex, ∀ coefficient ∈ kernel.block.coefficients,
        coefficient.Gathered) ∧
      (∀ kernel ∈ kernels.face, ∀ coefficient ∈ kernel.block.coefficients, coefficient.Gathered) ∧
      ∀ kernel ∈ kernels.dirichlet, ∀ coefficient ∈ kernel.block.coefficients,
        coefficient.Gathered := by
  obtain ⟨edge, vertex, face, dirichlet⟩ := exists_source discretizes
  refine ⟨fun kernel member => ?_, fun kernel member => ?_, fun kernel member => ?_,
    fun kernel member => ?_⟩
  · obtain ⟨_, -, forms⟩ := edge kernel member
    exact IntegralKernel.gathered_coefficients forms
  · obtain ⟨_, -, forms⟩ := vertex kernel member
    exact IntegralKernel.gathered_coefficients forms
  · obtain ⟨_, -, forms⟩ := face kernel member
    exact IntegralKernel.gathered_coefficients forms
  · obtain ⟨_, -, imposes⟩ := dirichlet kernel member
    obtain ⟨_, forms, same⟩ := Outcome.bind_eq_ok_iff.mp imposes
    cases same
    exact Stencil.gathered_dirichletBlock forms

/-- An integral as it can be written: over a measure, and then perhaps on other subdomains. -/
inductive Integral.Formed : Integral → Prop where
  | ofMeasure (integrand : Integrand) (measure : Measure) : Formed { integrand, measure }
  | on {integral : Integral} (formed : Formed integral) (subdomains : List Subdomain) :
    Formed (integral.on subdomains)

/-- An integral that is formed is over some subdomain. -/
theorem Integral.Formed.subdomains_ne_nil {integral : Integral} (formed : integral.Formed) :
    integral.subdomains ≠ [] := by
  cases formed with
  | ofMeasure => exact List.cons_ne_nil _ _
  | on _ subdomains =>
    cases subdomains with
    | nil | cons => exact List.cons_ne_nil _ _

/-- Every kernel of integrals that can be written has a subdomain. -/
theorem Problem.subdomains_ne_nil (formed : ∀ integral ∈ problem.integrals, integral.Formed)
    (discretizes : problem.discretize stencil = .ok kernels) :
    (∀ kernel ∈ kernels.edge, kernel.subdomains ≠ []) ∧
      (∀ kernel ∈ kernels.vertex, kernel.subdomains ≠ []) ∧
      ∀ kernel ∈ kernels.face, kernel.subdomains ≠ [] := by
  obtain ⟨edge, vertex, face, -⟩ := exists_source discretizes
  have listed : ∀ integralKernel : IntegralKernel, (∃ integral ∈ problem.integrals,
      IntegralKernel.ofIntegral stencil integral = .ok integralKernel) →
      integralKernel.subdomains ≠ [] := by
    rintro integralKernel ⟨integral, member, forms⟩
    rw [(IntegralKernel.measure_and_subdomains forms).2]
    exact (formed integral member).subdomains_ne_nil
  exact ⟨fun kernel member => listed (.edge kernel) (edge kernel member),
    fun kernel member => listed (.vertex kernel) (vertex kernel member),
    fun kernel member => listed (.face kernel) (face kernel member)⟩

end FiniteVolume
