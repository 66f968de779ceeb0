import FiniteVolume.Proofs.Kernel.Discretized
import FiniteVolume.Proofs.Split.Linearity
import FiniteVolume.Proofs.Stencil.Polynomial

/-!
# Merged kernels

Equal kernels are kept once, in the order of their first occurrence. The coefficients of a
polynomial integrand are canonical sums, which are equal as trees when they are equal as functions,
so the kernels of two such integrals are merged exactly when they contribute the same, however the
integrands are written (`kernels_merge_iff_sameContribution`).
-/

namespace FiniteVolume

open FiniteVolume.Expr

namespace Expr

/-- Two coefficients are one function of the symbols: they have the same value wherever no symbol is
zero. -/
def SameFunction (e e' : Expr) : Prop :=
  ∀ symbol : String → ℚ, (∀ name, symbol name ≠ 0) →
    e.valueIn (.ofSymbols symbol) = e'.valueIn (.ofSymbols symbol)

variable {e e' : Expr}

/-- Canonical sums are one function only if they are one tree. -/
theorem Expanded.eq_iff_sameFunction (expanded : e.Expanded) (expanded' : e'.Expanded) :
    e = e' ↔ e.SameFunction e' := by
  constructor
  · rintro rfl _ _
    rfl
  · intro same
    exact expanded.eq_of_values expanded' fun assignment =>
      same _ fun name => (assignment name).ne_zero

theorem Expanded.eq_iff_forall₂_sameFunction {es es' : List Expr}
    (expanded : ∀ e ∈ es, e.Expanded) (expanded' : ∀ e ∈ es', e.Expanded) :
    es = es' ↔ List.Forall₂ SameFunction es es' := by
  constructor
  · rintro rfl
    exact List.forall₂_same.mpr fun _ _ _ _ => rfl
  · intro same
    induction same with
    | nil => rfl
    | cons first _ ih =>
      obtain ⟨expandedFirst, expandedRest⟩ := List.forall_mem_cons.mp expanded
      obtain ⟨expandedFirst', expandedRest'⟩ := List.forall_mem_cons.mp expanded'
      rw [(expandedFirst.eq_iff_sameFunction expandedFirst').mpr first,
        ih expandedRest expandedRest']

end Expr

attribute [ext] Kernel

theorem EdgeBlock.coefficients_injective {κ : Type} :
    Function.Injective (coefficients : EdgeBlock κ → List κ) := by
  rintro ⟨⟨⟨_, _⟩, ⟨_, _⟩⟩, ⟨_, _⟩⟩ ⟨⟨⟨_, _⟩, ⟨_, _⟩⟩, ⟨_, _⟩⟩ same
  cases same
  rfl

theorem PointBlock.coefficients_injective {κ : Type} :
    Function.Injective (coefficients : PointBlock κ → List κ) := by
  rintro ⟨_, _⟩ ⟨_, _⟩ same
  cases same
  rfl

namespace Stencil

variable {stencil : Stencil} {integrand : Integrand} {value : Expr}

/-- The parts of a polynomial that is linear in some unknowns are canonical sums. -/
theorem expanded_of_linearSplit {invertible : String → Prop} {e : Expr} {unknowns : List String}
    {parts : AffineSplit} (polynomial : Polynomial invertible NoSample e)
    (several : unknowns ≠ []) (accepts : linearSplit e unknowns = .ok parts) :
    parts.affine.Expanded ∧ ∀ position, (parts.coefficient position).Expanded := by
  refine forall_parts_of_linearSplit accepts (laurentTerm_num 0).expanded ?_
  intro expanded source result expands isSource formed
  have isExpanded := polynomial.expanded expands
  have laurent : source.Laurent := by
    obtain rfl | ⟨unknown, differentiates⟩ := isSource
    · exact isExpanded.laurent
    · exact (isExpanded.canonical.differentiates isExpanded.laurent source differentiates).1
  exact (laurent.constantPartOfAll formed fun none => absurd none several).expanded

/-- The coefficients of a polynomial integrand on a facet are canonical sums. -/
theorem expanded_edgeBlock {block : EdgeBlock Expr}
    (evaluates : stencil.point.evaluate integrand = .ok value)
    (polynomial : stencil.FacetPolynomial value)
    (formed : stencil.edgeBlock integrand = .ok block) :
    ∀ coefficient ∈ block.coefficients, coefficient.Expanded := by
  obtain ⟨contribution, forward, backward, forwardParts, backwardParts, discretizes, normalizes,
    exchanges, splitsForward, splitsBackward, rfl⟩ := edgeBlock_cases formed
  have polynomialForward := polynomial_normalize
    (polynomial_discretizeEdge evaluates polynomial discretizes) normalizes
  have polynomialBackward :=
    polynomial_subst replacesSymbol_exchangeRules polynomialForward exchanges
  have forward := expanded_of_linearSplit polynomialForward (by simp) splitsForward
  have backward := expanded_of_linearSplit polynomialBackward (by simp) splitsBackward
  exact EdgeBlock.forall_coefficients_iff.mpr
    ⟨⟨forward.2 0, forward.2 1⟩, ⟨backward.2 0, backward.2 1⟩, forward.1, backward.1⟩

/-- The coefficients of a polynomial integrand at a vertex are canonical sums. -/
theorem expanded_pointBlock {weight : String} {block : PointBlock Expr}
    (evaluates : stencil.point.evaluate integrand = .ok value)
    (polynomial : stencil.VertexPolynomial value)
    (formed : stencil.pointBlock integrand weight = .ok block) :
    ∀ coefficient ∈ block.coefficients, coefficient.Expanded := by
  obtain ⟨atVertex, forms, formed⟩ := Outcome.bind_eq_ok_iff.mp formed
  obtain ⟨contribution, multiplies, formed⟩ := Outcome.bind_eq_ok_iff.mp formed
  obtain ⟨parts, splits, same⟩ := Outcome.bind_eq_ok_iff.mp formed
  cases same
  have polynomialContribution :=
    hereditary_polynomial.prod (Outcome.ofPower?_eq_ok_iff.mp multiplies)
      (forall_mem_pair ⟨polynomial_atVertex evaluates polynomial forms, .sym weight⟩)
  have expanded := expanded_of_linearSplit polynomialContribution (by simp) splits
  exact forall_mem_pair ⟨expanded.2 0, expanded.1⟩

/-- The integrand of an integral is a polynomial: in coordinates, parameters and the unknown, on
facets also in normal components and the normal derivative of the unknown. -/
def IsPolynomial (stencil : Stencil) (integral : Integral) : Prop :=
  ∃ value, stencil.point.evaluate integral.integrand = .ok value ∧
    match integral.measure with
    | .controlVolumeSurface => stencil.FacetPolynomial value
    | .controlVolume | .boundarySurface => stencil.VertexPolynomial value

end Stencil

namespace IntegralKernel

/-- Two kernels have the same linear and affine coefficients, as functions of the symbols. -/
def SameContribution (kernel kernel' : IntegralKernel) : Prop :=
  List.Forall₂ SameFunction kernel.coefficients kernel'.coefficients

variable {stencil : Stencil} {integral integral' : Integral} {kernel kernel' : IntegralKernel}

/-- The coefficients of a polynomial integral are canonical sums. -/
theorem expanded_coefficients (formed : ofIntegral stencil integral = .ok kernel)
    (polynomial : stencil.IsPolynomial integral) :
    ∀ coefficient ∈ kernel.coefficients, coefficient.Expanded := by
  obtain ⟨value, evaluates, polynomial⟩ := polynomial
  rcases ofIntegral_cases formed with
    ⟨block, measure, rfl, forms⟩ | ⟨block, measure, rfl, forms⟩ | ⟨block, measure, rfl, forms⟩ <;>
    rw [measure] at polynomial
  · exact Stencil.expanded_edgeBlock evaluates polynomial forms
  · exact Stencil.expanded_pointBlock evaluates polynomial forms
  · exact Stencil.expanded_pointBlock evaluates polynomial forms

/-- A kernel is known from its measure, its subdomains and its coefficients. -/
theorem eq_of_parts (sameMeasure : kernel.measure = kernel'.measure)
    (sameSubdomains : kernel.subdomains = kernel'.subdomains)
    (sameCoefficients : kernel.coefficients = kernel'.coefficients) : kernel = kernel' := by
  cases kernel <;> cases kernel' <;> cases sameMeasure
  · exact congrArg edge (Kernel.ext (EdgeBlock.coefficients_injective sameCoefficients)
      sameSubdomains)
  · exact congrArg vertex (Kernel.ext (PointBlock.coefficients_injective sameCoefficients)
      sameSubdomains)
  · exact congrArg face (Kernel.ext (PointBlock.coefficients_injective sameCoefficients)
      sameSubdomains)

/-- Polynomial integrals over one measure and the same subdomains have one kernel exactly when their
contributions are the same. -/
theorem eq_iff_sameContribution (formed : ofIntegral stencil integral = .ok kernel)
    (formed' : ofIntegral stencil integral' = .ok kernel')
    (sameMeasure : integral.measure = integral'.measure)
    (sameSubdomains : integral.subdomains = integral'.subdomains)
    (polynomial : stencil.IsPolynomial integral) (polynomial' : stencil.IsPolynomial integral') :
    kernel = kernel' ↔ kernel.SameContribution kernel' := by
  obtain ⟨measure, subdomains⟩ := measure_and_subdomains formed
  obtain ⟨measure', subdomains'⟩ := measure_and_subdomains formed'
  rw [SameContribution, ← Expanded.eq_iff_forall₂_sameFunction
    (expanded_coefficients formed polynomial) (expanded_coefficients formed' polynomial')]
  exact ⟨congrArg coefficients, eq_of_parts (measure.trans (sameMeasure.trans measure'.symm))
    (subdomains.trans (sameSubdomains.trans subdomains'.symm))⟩

end IntegralKernel

/-- Some items are the distinct ones of a list, in the order of their first occurrence there. -/
structure FirstOccurrences {α : Type} [BEq α] (source kept : List α) : Prop where
  mem_iff : ∀ item, item ∈ kept ↔ item ∈ source
  inOrder : kept.Pairwise fun earlier later => source.idxOf earlier < source.idxOf later

/-- Removing duplicates keeps the first occurrence of every item. -/
theorem firstOccurrences_eraseDups {α : Type} [BEq α] [LawfulBEq α] (source : List α) :
    FirstOccurrences source source.eraseDups where
  mem_iff _ := List.mem_eraseDups
  inOrder := by
    induction source using List.reverseRecOn with
    | nil => exact List.Pairwise.nil
    | append_singleton before last ih =>
      have old : before.eraseDups.Pairwise fun earlier later =>
          (before ++ [last]).idxOf earlier < (before ++ [last]).idxOf later := by
        refine ih.imp_of_mem fun first second ordered => ?_
        rwa [List.idxOf_append_of_mem (List.mem_eraseDups.mp first),
          List.idxOf_append_of_mem (List.mem_eraseDups.mp second)]
      rw [List.eraseDups_append]
      by_cases occurs : last ∈ before
      · simpa [List.removeAll, occurs] using old
      · have isNew : ([last].removeAll before).eraseDups = [last] := by
          simp [List.removeAll, occurs, List.eraseDups_cons]
        rw [isNew]
        refine List.pairwise_append.mpr ⟨old, List.pairwise_singleton _ _, ?_⟩
        rintro earlier kept later isLast
        obtain rfl := List.mem_singleton.mp isLast
        have inside := List.mem_eraseDups.mp kept
        rw [List.idxOf_append_of_mem inside, List.idxOf_append, if_neg occurs]
        exact Nat.lt_add_left _ (List.idxOf_lt_length_of_mem inside)

namespace KernelSet

/-- Where a kernel stands among the kept ones of its kind. -/
def position? (kernels : KernelSet Expr) : IntegralKernel → Option Nat
  | .edge kernel => kernels.edge.idxOf? kernel
  | .vertex kernel => kernels.vertex.idxOf? kernel
  | .face kernel => kernels.face.idxOf? kernel

/-- The kept kernels are the first occurrences of those of all integrals and conditions. -/
structure KeepsFirst (kernels : KernelSet Expr) (formed : List IntegralKernel)
    (conditions : List (DirichletKernel Expr)) : Prop where
  edge : FirstOccurrences (formed.filterMap IntegralKernel.edge?) kernels.edge
  vertex : FirstOccurrences (formed.filterMap IntegralKernel.vertex?) kernels.vertex
  face : FirstOccurrences (formed.filterMap IntegralKernel.face?) kernels.face
  dirichlet : FirstOccurrences conditions kernels.dirichlet

variable {kernels : KernelSet Expr} {formed : List IntegralKernel}
  {conditions : List (DirichletKernel Expr)} {kernel kernel' : IntegralKernel}

/-- Every kernel of an integral is kept. -/
theorem KeepsFirst.exists_position (keeps : kernels.KeepsFirst formed conditions)
    (member : kernel ∈ formed) : ∃ position, kernels.position? kernel = some position := by
  rw [← Option.isSome_iff_exists]
  cases kernel with
  | edge kernel =>
    exact List.isSome_idxOf?.mpr ((keeps.edge.mem_iff kernel).mpr
      (List.mem_filterMap.mpr ⟨_, member, rfl⟩))
  | vertex kernel =>
    exact List.isSome_idxOf?.mpr ((keeps.vertex.mem_iff kernel).mpr
      (List.mem_filterMap.mpr ⟨_, member, rfl⟩))
  | face kernel =>
    exact List.isSome_idxOf?.mpr ((keeps.face.mem_iff kernel).mpr
      (List.mem_filterMap.mpr ⟨_, member, rfl⟩))

/-- Different kernels of one kind stand at different positions. -/
theorem eq_of_position? {position : Nat} (sameMeasure : kernel.measure = kernel'.measure)
    (stands : kernels.position? kernel = some position)
    (stands' : kernels.position? kernel' = some position) : kernel = kernel' := by
  have unique : ∀ {α : Type} [BEq α] [LawfulBEq α] {kept : List α} {item item' : α},
      kept.idxOf? item = some position → kept.idxOf? item' = some position → item = item' := by
    intro α _ _ kept item item' found found'
    obtain ⟨_, same, -⟩ := List.idxOf?_eq_some_iff.mp found
    obtain ⟨_, same', -⟩ := List.idxOf?_eq_some_iff.mp found'
    exact same.symm.trans same'
  cases kernel <;> cases kernel' <;> cases sameMeasure
  · exact congrArg IntegralKernel.edge (unique stands stands')
  · exact congrArg IntegralKernel.vertex (unique stands stands')
  · exact congrArg IntegralKernel.face (unique stands stands')

end KernelSet

variable {problem : Problem} {stencil : Stencil}

/-- A problem is discretized if all its integrals and conditions are, and keeps the first
occurrences of their kernels. -/
theorem Problem.exists_discretize
    (compiles : ∀ integral ∈ problem.integrals, ∃ kernel,
      IntegralKernel.ofIntegral stencil integral = .ok kernel)
    (imposes : ∀ condition ∈ problem.conditions, ∃ kernel,
      DirichletKernel.ofCondition stencil condition = .ok kernel) :
    ∃ kernels formed conditions, problem.discretize stencil = .ok kernels ∧
      problem.integrals.mapM (IntegralKernel.ofIntegral stencil) = .ok formed ∧
      problem.conditions.mapM (DirichletKernel.ofCondition stencil) = .ok conditions ∧
      kernels.KeepsFirst formed conditions := by
  obtain ⟨formed, forms⟩ := Outcome.exists_mapM compiles
  obtain ⟨conditions, imposed⟩ := Outcome.exists_mapM imposes
  exact ⟨_, formed, conditions,
    discretize_eq_ok_iff.mpr ⟨formed, conditions, forms, imposed, rfl⟩, forms, imposed,
    { edge := firstOccurrences_eraseDups _
      vertex := firstOccurrences_eraseDups _
      face := firstOccurrences_eraseDups _
      dirichlet := firstOccurrences_eraseDups _ }⟩

/-- Where all integrals and conditions have kernels, the distinct ones are kept in the order of
their first occurrence. The kernels of two polynomial integrals over one measure and the same
subdomains are kept as one exactly when they have the same coefficients wherever no symbol is zero.
-/
theorem kernels_merge_iff_sameContribution
    (compiles : ∀ integral ∈ problem.integrals, ∃ kernel,
      IntegralKernel.ofIntegral stencil integral = .ok kernel)
    (imposes : ∀ condition ∈ problem.conditions, ∃ kernel,
      DirichletKernel.ofCondition stencil condition = .ok kernel) :
    ∃ kernels formed conditions, problem.discretize stencil = .ok kernels ∧
      problem.integrals.mapM (IntegralKernel.ofIntegral stencil) = .ok formed ∧
      problem.conditions.mapM (DirichletKernel.ofCondition stencil) = .ok conditions ∧
      kernels.KeepsFirst formed conditions ∧
      ∀ integral ∈ problem.integrals, ∀ integral' ∈ problem.integrals,
        integral.measure = integral'.measure → integral.subdomains = integral'.subdomains →
        stencil.IsPolynomial integral → stencil.IsPolynomial integral' →
        ∃ kernel kernel' position position',
          IntegralKernel.ofIntegral stencil integral = .ok kernel ∧
          IntegralKernel.ofIntegral stencil integral' = .ok kernel' ∧
          kernels.position? kernel = some position ∧
          kernels.position? kernel' = some position' ∧
          (position = position' ↔ kernel.SameContribution kernel') := by
  obtain ⟨kernels, formed, conditions, discretizes, forms, imposed, keeps⟩ :=
    Problem.exists_discretize compiles imposes
  refine ⟨kernels, formed, conditions, discretizes, forms, imposed, keeps, ?_⟩
  intro integral member integral' member' sameMeasure sameSubdomains polynomial polynomial'
  have kept : ∀ integral ∈ problem.integrals, ∃ kernel position,
      IntegralKernel.ofIntegral stencil integral = .ok kernel ∧
        kernels.position? kernel = some position := by
    intro integral member
    obtain ⟨kernel, paired, formsKernel⟩ :=
      exists_mem_zip_of_forall₂ (Outcome.mapM_eq_ok_iff.mp forms) member
    obtain ⟨position, stands⟩ := keeps.exists_position (List.of_mem_zip paired).2
    exact ⟨kernel, position, formsKernel, stands⟩
  obtain ⟨kernel, position, formsKernel, stands⟩ := kept integral member
  obtain ⟨kernel', position', formsKernel', stands'⟩ := kept integral' member'
  refine ⟨kernel, kernel', position, position', formsKernel, formsKernel', stands, stands', ?_⟩
  rw [← IntegralKernel.eq_iff_sameContribution formsKernel formsKernel' sameMeasure sameSubdomains
    polynomial polynomial']
  constructor
  · rintro rfl
    have measures : kernel.measure = kernel'.measure :=
      (IntegralKernel.measure_and_subdomains formsKernel).1.trans
        (sameMeasure.trans (IntegralKernel.measure_and_subdomains formsKernel').1.symm)
    exact KernelSet.eq_of_position? measures stands stands'
  · rintro rfl
    exact Option.some.inj (stands.symm.trans stands')

/-- A conductance that grows along the line, with its flux written as a product and as a sum, and
half the plain flux between the two. -/
theorem kernels_merge_iff_sameContribution_factored :
    let flux : Expr := .call .normalDerivative [Stencil.line.field.sample Stencil.line.point]
    let onSurface (integrand : Expr) : Integral :=
      ⟨fun _ => pure integrand, .controlVolumeSurface, [.everywhere]⟩
    let factored := onSurface (.mul [.add [.sym "x_0", .num 1], flux])
    let halved := onSurface (.mul [.num (1 / 2), flux])
    let summed := onSurface (.add [.mul [.sym "x_0", flux], flux])
    ∃ first second third,
      IntegralKernel.ofIntegral Stencil.line factored = .ok first ∧
      IntegralKernel.ofIntegral Stencil.line halved = .ok second ∧
      IntegralKernel.ofIntegral Stencil.line summed = .ok third ∧
      first.SameContribution third ∧ ¬first.SameContribution second := by
  intro flux onSurface factored halved summed
  let problem : Problem := ⟨[factored, halved, summed], []⟩
  have positions : (do
      let kernels ← problem.discretize Stencil.line
      let first ← IntegralKernel.ofIntegral Stencil.line factored
      let second ← IntegralKernel.ofIntegral Stencil.line halved
      let third ← IntegralKernel.ofIntegral Stencil.line summed
      return [kernels.position? first, kernels.position? second, kernels.position? third]) =
        Except.ok [some 0, some 1, some 0] := by
    decide +kernel
  obtain ⟨kernels, discretizes, positions⟩ := Outcome.bind_eq_ok_iff.mp positions
  obtain ⟨first, formsFirst, positions⟩ := Outcome.bind_eq_ok_iff.mp positions
  obtain ⟨second, formsSecond, positions⟩ := Outcome.bind_eq_ok_iff.mp positions
  obtain ⟨third, formsThird, positions⟩ := Outcome.bind_eq_ok_iff.mp positions
  simp only [pure, Except.pure, Except.ok.injEq, List.cons.injEq, and_true] at positions
  obtain ⟨standsFirst, standsSecond, standsThird⟩ := positions
  have isFlux : Stencil.line.FacetPolynomial flux := .sample (Or.inr ⟨rfl, rfl⟩)
  have isFactored : Stencil.line.IsPolynomial factored :=
    ⟨_, rfl, .mul (forall_mem_pair ⟨.add (forall_mem_pair ⟨.sym _, .num _⟩), isFlux⟩)⟩
  have isHalved : Stencil.line.IsPolynomial halved :=
    ⟨_, rfl, .mul (forall_mem_pair ⟨.num _, isFlux⟩)⟩
  have isSummed : Stencil.line.IsPolynomial summed :=
    ⟨_, rfl, .add (forall_mem_pair ⟨.mul (forall_mem_pair ⟨.sym _, isFlux⟩), isFlux⟩)⟩
  have compiles : ∀ integral ∈ problem.integrals, ∃ kernel,
      IntegralKernel.ofIntegral Stencil.line integral = .ok kernel := by
    simp only [problem, List.mem_cons, List.not_mem_nil, or_false]
    rintro integral (rfl | rfl | rfl)
    · exact ⟨first, formsFirst⟩
    · exact ⟨second, formsSecond⟩
    · exact ⟨third, formsThird⟩
  obtain ⟨_, _, _, discretizes', -, -, -, merges⟩ :=
    kernels_merge_iff_sameContribution compiles (List.forall_mem_nil _)
  cases discretizes.symm.trans discretizes'
  have merge : ∀ {integral' kernel' position'}, integral' ∈ problem.integrals →
      integral'.measure = .controlVolumeSurface → integral'.subdomains = [.everywhere] →
      Stencil.line.IsPolynomial integral' →
      IntegralKernel.ofIntegral Stencil.line integral' = .ok kernel' →
      kernels.position? kernel' = some position' →
      (0 = position' ↔ first.SameContribution kernel') := by
    intro integral' kernel' position' member measure subdomains polynomial forms stands
    obtain ⟨_, _, _, _, forms₁, forms₂, stands₁, stands₂, iff⟩ :=
      merges factored (by simp [problem])
      integral' member measure.symm subdomains.symm isFactored polynomial
    cases formsFirst.symm.trans forms₁
    cases forms.symm.trans forms₂
    cases standsFirst.symm.trans stands₁
    cases stands.symm.trans stands₂
    exact iff
  refine ⟨first, second, third, formsFirst, formsSecond, formsThird, ?_, ?_⟩
  · exact (merge (by simp [problem]) rfl rfl isSummed formsThird standsThird).mp rfl
  · rw [← merge (by simp [problem]) rfl rfl isHalved formsSecond standsSecond]
    decide

end FiniteVolume
