import FiniteVolume.Kernel.Evaluation
import FiniteVolume.Proofs.Kernel.Discretized
import FiniteVolume.Proofs.Kernel.Point
import FiniteVolume.Proofs.Numeric.Scope
import FiniteVolume.Proofs.Split.Applications
import FiniteVolume.Proofs.Stencil.Mentions

/-!
# Names in kernels

The symbols of a coefficient are parameters of its kernel or symbols of its integrand, on a facet
other than those of the point, and no values of the unknown. No constant part applies the unknown.
A linear coefficient only does if differentiation brings in a function of the same name and the
contribution is not fully expanded (`Problem.names_in_coefficients`).
-/

namespace FiniteVolume.Stencil

open FiniteVolume.Expr

variable {stencil : Stencil} {integrand : Integrand} {e contribution coefficient : Expr}
  {unknowns : List String} {symbols : String → Prop} {reapplied : Prop} {parts : AffineSplit}

/-- The names in a coefficient: none of the unknowns, only allowed symbols, and no application of
the field unless it may be applied again. -/
structure Names (stencil : Stencil) (unknowns : List String) (symbols : String → Prop)
    (reapplied : Prop) (coefficient : Expr) : Prop where
  lacks : ∀ unknown ∈ unknowns, coefficient.hasSymbol unknown = false
  allowed : ∀ name, .sym name ∈ coefficient.subterms → symbols name
  unapplied : stencil.field.findIn? coefficient = none ∨ reapplied

/-- The unknown can be applied again after its samples are gone: differentiation brings in a
function that has its name, and expansion leaves something to multiply out in the contribution. -/
structure Reapplies (stencil : Stencil) (e contribution : Expr) : Prop where
  named : ∃ head, e.Calls head ∧ head ≠ .named stencil.field.name ∧
    InDerivative head.name stencil.field.name
  undistributed : ∃ expanded, contribution.expand = some expanded ∧ ¬expanded.Distributed

/-- The names in the coefficients of a contribution that is linear in the unknowns. -/
structure RowNames (stencil : Stencil) (unknowns : List String) (symbols : String → Prop)
    (e contribution : Expr) (linear : List Expr) (affine : Expr) : Prop where
  linear : ∀ coefficient ∈ linear,
    stencil.Names unknowns symbols (stencil.Reapplies e contribution) coefficient
  affine : stencil.Names unknowns symbols False affine

/-- The symbols of a contribution: those of its coefficients and the unknowns. -/
def OrUnknown (unknowns : List String) (symbols : String → Prop) (name : String) : Prop :=
  name ∈ unknowns ∨ symbols name

/-- What a coefficient mentions, read as the names it may contain. -/
theorem names_of_mentionsOnly {heads : Head → Prop}
    (lacks : ∀ unknown ∈ unknowns, coefficient.hasSymbol unknown = false)
    (mentions : coefficient.MentionsOnly (OrUnknown unknowns symbols) heads)
    (unapplied : stencil.field.findIn? coefficient = none ∨ reapplied) :
    stencil.Names unknowns symbols reapplied coefficient where
  lacks := lacks
  unapplied := unapplied
  allowed name occurs := (mentions.symbol occurs).resolve_left fun isUnknown =>
    hasSymbol_eq_false_iff_not_mem.mp (lacks name isUnknown) occurs

/-- The field does not occur where it is not mentioned. -/
theorem findIn?_eq_none_of_mentionsOnly
    (mentions : e.MentionsOnly symbols fun head => head ≠ .named stencil.field.name) :
    stencil.field.findIn? e = none :=
  findCall?_eq_none_iff.mpr fun ⟨_, member⟩ => mentions.head member rfl

/-- Constant parts of the contribution have its names. -/
theorem names_affine
    (mentions : contribution.MentionsOnly (OrUnknown unknowns symbols)
      (stencil.OtherHead e.Calls))
    (accepts : linearSplit contribution unknowns = .ok parts) :
    stencil.Names unknowns symbols False parts.affine := by
  obtain ⟨expanded, expands, formed⟩ := affine_of_linearSplit accepts
  have inherited := inherited_mentionsOnly (OrUnknown unknowns symbols) (stencil.OtherHead e.Calls)
  have keeps := inherited.constantPartOfAll formed (inherited.expand expands mentions)
  exact names_of_mentionsOnly (hasSymbol_constantPartOfAll formed) keeps
    (Or.inl (findIn?_eq_none_of_mentionsOnly (keeps.mono (fun _ => id) fun _ other => other.2)))

/-- Constant parts of derivatives have no other symbols. An application of the unknown in them is
one that differentiation brings in, and such a one holds an unknown if the expansion is complete. -/
theorem names_coefficient
    (mentions : contribution.MentionsOnly (OrUnknown unknowns symbols)
      (stencil.OtherHead e.Calls))
    (accepts : linearSplit contribution unknowns = .ok parts) (position : Nat) :
    stencil.Names unknowns symbols (stencil.Reapplies e contribution)
      (parts.coefficient position) := by
  rcases coefficient_of_linearSplit accepts position with
    isZero | ⟨expanded, expands, unknown, isUnknown, slope, differentiates, formed⟩
  · rw [isZero]
    exact names_of_mentionsOnly (fun _ _ => rfl)
      ((inherited_mentionsOnly (OrUnknown unknowns symbols) fun _ => True).num 0) (Or.inl rfl)
  · have ofExpansion : expanded.MentionsOnly (OrUnknown unknowns symbols)
        (stencil.OtherHead e.Calls) := (inherited_mentionsOnly _ _).expand expands mentions
    have ofSlope := (differentiated_mentionsOnly (OrUnknown unknowns symbols)
      (stencil.OtherHead e.Calls) unknown).diff expanded slope differentiates ofExpansion
    have keeps := (inherited_mentionsOnly _ _).constantPartOfAll formed ofSlope
    refine names_of_mentionsOnly (hasSymbol_constantPartOfAll formed) keeps
      (or_iff_not_imp_left.mpr fun found => ⟨?named, expanded, expands, fun distributed => ?_⟩)
    case named =>
      have called := not_not.mp (mt findCall?_eq_none_iff.mpr found)
      obtain ⟨args, member⟩ := called
      rcases keeps.head member with ⟨-, other⟩ | ⟨outer, function, ⟨calls, other⟩, same, derived⟩
      · exact absurd rfl other
      · cases same
        exact ⟨outer, calls, other, derived⟩
    · have uncalled : ¬expanded.Calls (.named stencil.field.name) := fun ⟨_, member⟩ =>
        (ofExpansion.head member).2 rfl
      exact found (findCall?_coefficient distributed uncalled isUnknown differentiates formed)

/-- The coefficients of a split contain no names but those of the contribution. -/
theorem rowNames_of_linearSplit
    (mentions : contribution.MentionsOnly (OrUnknown unknowns symbols)
      (stencil.OtherHead e.Calls))
    (accepts : linearSplit contribution unknowns = .ok parts) {linear : List Expr}
    (listed : ∀ coefficient ∈ linear, ∃ position, coefficient = parts.coefficient position) :
    stencil.RowNames unknowns symbols e contribution linear parts.affine where
  linear coefficient member := by
    obtain ⟨position, rfl⟩ := listed coefficient member
    exact names_coefficient mentions accepts position
  affine := names_affine mentions accepts

/-- The negative of an expression has its names. -/
theorem Names.neg {negated : Expr} (names : stencil.Names unknowns symbols False e)
    (negates : e.neg = some negated) : stencil.Names unknowns symbols False negated where
  lacks unknown isUnknown := (inherited_lacks unknown).neg negates (names.lacks unknown isUnknown)
  allowed name occurs := by
    have mentions : e.MentionsOnly symbols fun _ => True :=
      (mentionsOnly_self e).mono names.allowed fun _ _ => trivial
    exact ((inherited_mentionsOnly _ _).neg negates mentions).symbol occurs
  unapplied := by
    have mentions : e.MentionsOnly (fun _ => True) fun head => head ≠ .named stencil.field.name :=
      ((mentionsOnly_self e).without (names.unapplied.resolve_right id)).mono
        (fun _ _ => trivial) fun _ other => other.2
    exact Or.inl (findIn?_eq_none_of_mentionsOnly
      ((inherited_mentionsOnly _ _).neg negates mentions))

/-- The symbols of edge coefficients: the parameters, and the symbols of the integrand other than
those of the point. -/
def EdgeSymbol (stencil : Stencil) (e : Expr) (name : String) : Prop :=
  name ∈ stencil.edgeParams ∨ stencil.OffPoint (fun name => .sym name ∈ e.subterms) name

/-- The names in the coefficients of an edge block, whose rows are linear in the values of the
unknown at both endpoints. -/
def EdgeNames (stencil : Stencil) (integrand : Integrand) (e : Expr) (block : EdgeBlock Expr) :
    Prop :=
  let unknowns := [firstValue stencil.field, secondValue stencil.field]
  ∃ contribution forward backward,
    stencil.discretizeEdge integrand [stencil.field] = .ok contribution ∧
    contribution.normalize = some forward ∧ forward.subst stencil.exchangeRules = some backward ∧
    stencil.RowNames unknowns (stencil.EdgeSymbol e) e forward
      [block.linear.first.first, block.linear.first.second] block.affine.first ∧
    stencil.RowNames unknowns (stencil.EdgeSymbol e) e backward
      [block.linear.second.first, block.linear.second.second] block.affine.second

/-- The coefficients of the kernel of an edge contain no names but those of the integrand. -/
theorem exists_edgeNames {block : EdgeBlock Expr}
    (formed : stencil.edgeBlock integrand = .ok block) :
    ∃ e, stencil.point.evaluate integrand = .ok e ∧ stencil.EdgeNames integrand e block := by
  obtain ⟨contribution, forward, backward, forwardParts, backwardParts, discretizes, normalizes,
    exchanges, splitsForward, splitsBackward, rfl⟩ := edgeBlock_cases formed
  obtain ⟨e, evaluates, -⟩ := Outcome.bind_eq_ok_iff.mp discretizes
  have mentions : contribution.MentionsOnly
      (stencil.FacetSymbol True (stencil.OffPoint fun name => .sym name ∈ e.subterms))
      (stencil.OtherHead e.Calls) :=
    mentionsOnly_discretizeEdge (mentionsOnly_self e) (fun _ => trivial) evaluates discretizes
  have facet : ∀ name,
      stencil.FacetSymbol True (stencil.OffPoint fun name => .sym name ∈ e.subterms) name →
      OrUnknown [firstValue stencil.field, secondValue stencil.field]
        (stencil.EdgeSymbol e) name := by
    rintro name (isParam | ⟨-, isValue⟩ | given)
    · exact Or.inr (Or.inl isParam)
    · exact Or.inl (by simpa using isValue)
    · exact Or.inr (Or.inr given)
  have ofForward := mentions.normalize normalizes
  have ofBackward := mentionsOnly_exchange ofForward (fun _ => trivial) exchanges
  exact ⟨e, evaluates, contribution, forward, backward, discretizes, normalizes, exchanges,
    rowNames_of_linearSplit (ofForward.mono facet fun _ => id) splitsForward
      (forall_mem_pair ⟨⟨0, rfl⟩, 1, rfl⟩),
    rowNames_of_linearSplit (ofBackward.mono facet fun _ => id) splitsBackward
      (forall_mem_pair ⟨⟨0, rfl⟩, 1, rfl⟩)⟩

/-- An integrand at a vertex has the names of the integrand without the unknown, and its value. -/
theorem mentionsOnly_atVertex {value : Expr} (formed : stencil.atVertex integrand = .ok value) :
    ∃ e, stencil.point.evaluate integrand = .ok e ∧
      value.MentionsOnly (OrUnknown [firstValue stencil.field] fun name => .sym name ∈ e.subterms)
        (stencil.OtherHead e.Calls) := by
  obtain ⟨e, evaluates, -⟩ := Outcome.bind_eq_ok_iff.mp formed
  obtain ⟨samples, unsampled⟩ := atVertex_cases evaluates formed
  have mentions : value.MentionsOnly
      (OrUnknown [firstValue stencil.field] fun name => .sym name ∈ e.subterms) e.Calls := by
    rcases samples with rfl | samples
    · exact (mentionsOnly_self value).mono (fun _ => Or.inr) fun _ => id
    · refine (mentionsOnly_self e).subst (fun _ occurs _ => Or.inr occurs) (fun _ => id)
        (fun rule member _ => ?_) samples
      cases List.mem_singleton.mp member
      exact mentionsOnly_sym (Or.inl List.mem_cons_self)
  exact ⟨e, evaluates, mentions.without unsampled⟩

/-- The names in the coefficients of a vertex or face block, which is linear in the value of the
unknown. -/
def PointNames (stencil : Stencil) (integrand : Integrand) (weight : String) (e : Expr)
    (block : PointBlock Expr) : Prop :=
  ∃ value contribution, stencil.atVertex integrand = .ok value ∧
    Expr.prod [value, .sym weight] = some contribution ∧
    stencil.RowNames [firstValue stencil.field]
      (fun name => name ∈ weight :: stencil.coordSymbols ∨ .sym name ∈ e.subterms) e contribution
      [block.linear] block.affine

/-- The coefficients of the kernel of a point contain no names but those of the integrand. -/
theorem exists_pointNames {weight : String} {block : PointBlock Expr}
    (formed : stencil.pointBlock integrand weight = .ok block) :
    ∃ e, stencil.point.evaluate integrand = .ok e ∧
      stencil.PointNames integrand weight e block := by
  obtain ⟨value, atVertex, formed⟩ := Outcome.bind_eq_ok_iff.mp formed
  obtain ⟨contribution, multiplies, formed⟩ := Outcome.bind_eq_ok_iff.mp formed
  obtain ⟨parts, accepts, same⟩ := Outcome.bind_eq_ok_iff.mp formed
  cases same
  obtain ⟨e, evaluates, fromIntegrand⟩ := mentionsOnly_atVertex atVertex
  have multiplied := Outcome.ofPower?_eq_ok_iff.mp multiplies
  have ofValue : value.MentionsOnly (OrUnknown [firstValue stencil.field] fun name =>
      name ∈ weight :: stencil.coordSymbols ∨ .sym name ∈ e.subterms)
      (stencil.OtherHead e.Calls) :=
    fromIntegrand.mono (fun _ => Or.imp_right Or.inr) fun _ => id
  have mentions := (inherited_mentionsOnly _ _).prod multiplied (forall_mem_pair
    ⟨ofValue, mentionsOnly_sym (Or.inr (Or.inl List.mem_cons_self))⟩)
  exact ⟨e, evaluates, value, contribution, atVertex, multiplied,
    rowNames_of_linearSplit mentions accepts (List.forall_mem_singleton.mpr ⟨0, rfl⟩)⟩

/-- The names in the coefficients of a Dirichlet block, whose condition is linear in the value of
the unknown. -/
def DirichletNames (stencil : Stencil) (condition : Integrand) (e : Expr)
    (block : DirichletBlock Expr) : Prop :=
  ∃ value, stencil.atVertex condition = .ok value ∧
    stencil.RowNames [firstValue stencil.field]
      (fun name => name ∈ stencil.dirichletParams ∨ .sym name ∈ e.subterms) e value
      [block.coeff] block.rhs

/-- The coefficients of the kernel of a condition contain no names but those of the condition. -/
theorem exists_dirichletNames {block : DirichletBlock Expr}
    (formed : stencil.dirichletBlock integrand = .ok block) :
    ∃ e, stencil.point.evaluate integrand = .ok e ∧ stencil.DirichletNames integrand e block := by
  obtain ⟨value, atVertex, formed⟩ := Outcome.bind_eq_ok_iff.mp formed
  obtain ⟨parts, accepts, formed⟩ := Outcome.bind_eq_ok_iff.mp formed
  obtain ⟨rhs, negates, same⟩ := Outcome.bind_eq_ok_iff.mp formed
  cases same
  obtain ⟨e, evaluates, fromCondition⟩ := mentionsOnly_atVertex atVertex
  have mentions : value.MentionsOnly (OrUnknown [firstValue stencil.field] fun name =>
      name ∈ stencil.dirichletParams ∨ .sym name ∈ e.subterms) (stencil.OtherHead e.Calls) :=
    fromCondition.mono (fun _ => Or.imp_right Or.inr) fun _ => id
  have row := rowNames_of_linearSplit mentions accepts (List.forall_mem_singleton.mpr ⟨0, rfl⟩)
  exact ⟨e, evaluates, value, atVertex, row.linear,
    row.affine.neg (Outcome.ofPower?_eq_ok_iff.mp negates)⟩

end FiniteVolume.Stencil

namespace FiniteVolume

open FiniteVolume.Expr

variable {stencil : Stencil} {integrand : Integrand} {e : Expr}

section Compilation

variable {κ ρ : Type} {f : κ → Outcome ρ} {kind : Error → Prop}

/-- Mapping an edge block fails as mapping one of its coefficients does. -/
theorem EdgeBlock.errorsAre_mapM {block : EdgeBlock κ}
    (each : ∀ coefficient ∈ block.coefficients, (f coefficient).ErrorsAre kind) :
    (block.mapM f).ErrorsAre kind :=
  holds_mapM (fun outcome => outcome.ErrorsAre kind) Outcome.errorsAre_ok
    (fun first next => first.bind fun answer _ => next answer) each

/-- All symbols in the kernel of an edge are among those that may occur there. -/
theorem Stencil.EdgeNames.allowed {block : EdgeBlock Expr}
    (names : stencil.EdgeNames integrand e block) :
    ∀ coefficient ∈ block.coefficients, ∀ name, .sym name ∈ coefficient.subterms →
      stencil.EdgeSymbol e name := by
  obtain ⟨_, _, _, -, -, -, ⟨first, firstAffine⟩, second, secondAffine⟩ := names
  simp only [List.forall_mem_cons] at first second
  exact EdgeBlock.forall_coefficients_iff.mpr ⟨⟨first.1.allowed, first.2.1.allowed⟩,
    ⟨second.1.allowed, second.2.1.allowed⟩, firstAffine.allowed, secondAffine.allowed⟩

/-- A symbol that an edge kernel does not compile for lack of is one of the integrand, other than
those of the point. -/
theorem Stencil.EdgeNames.unbound {α : Type} [Arithmetic α] {kernel : Kernel (EdgeBlock Expr)}
    (names : stencil.EdgeNames integrand e kernel.block) {name : String}
    (rejected : (kernel.mapM (EdgeBlock.mapM (NumericFunction.compile stencil.edgeParams)) :
      Outcome (Kernel (EdgeBlock (NumericFunction α)))) = Outcome.reject (.unboundSymbol name)) :
    stencil.OffPoint (fun name => .sym name ∈ e.subterms) name := by
  have errors : (kernel.block.mapM (NumericFunction.compile stencil.edgeParams) :
      Outcome (EdgeBlock (NumericFunction α))).ErrorsAre fun error => ∀ name,
        error = .unboundSymbol name → stencil.OffPoint (fun name => .sym name ∈ e.subterms) name :=
    EdgeBlock.errorsAre_mapM fun coefficient member =>
      (NumericFunction.errorsAre_compile _ coefficient).imp fun error unbound name same =>
        (names.allowed coefficient member name (unbound name same).1).resolve_left
          (unbound name same).2
  exact (errors.bind fun _ _ => Outcome.errorsAre_ok _) _ rejected name rfl

end Compilation

/-- The kernel is that of an integral of the problem, and the property holds for the integrand of
every integral that has this kernel. -/
structure Problem.Sources (problem : Problem) (stencil : Stencil) (kernel : IntegralKernel)
    (property : Integrand → Expr → Prop) : Prop where
  source : ∃ integral ∈ problem.integrals,
    IntegralKernel.ofIntegral stencil integral = .ok kernel
  holds : ∀ integral, IntegralKernel.ofIntegral stencil integral = .ok kernel →
    ∃ e, stencil.point.evaluate integral.integrand = .ok e ∧ property integral.integrand e

/-- In the kernels of a problem, no coefficient has a value of the unknown among its symbols. The
symbols of edge coefficients are their parameters and symbols of the integrand other than those of
the point, so an edge kernel can only lack such a symbol when it is compiled. The symbols of all
other coefficients are their parameters and symbols of the integrand or condition. No coefficient
applies the unknown, except that the coefficient of a value may do so if differentiation brings in
a function of the same name and the contribution is not fully expanded. -/
theorem Problem.names_in_coefficients (α : Type) [Arithmetic α] {problem : Problem}
    {kernels : KernelSet Expr} (discretizes : problem.discretize stencil = .ok kernels) :
    (∀ kernel ∈ kernels.edge, problem.Sources stencil (.edge kernel) fun integrand e =>
      stencil.EdgeNames integrand e kernel.block ∧
      ∀ name, (kernel.mapM (EdgeBlock.mapM (NumericFunction.compile stencil.edgeParams)) :
          Outcome (Kernel (EdgeBlock (NumericFunction α)))) =
            Outcome.reject (.unboundSymbol name) →
        stencil.OffPoint (fun name => .sym name ∈ e.subterms) name) ∧
    (∀ kernel ∈ kernels.vertex, problem.Sources stencil (.vertex kernel) fun integrand e =>
      stencil.PointNames integrand Stencil.controlVolume e kernel.block) ∧
    (∀ kernel ∈ kernels.face, problem.Sources stencil (.face kernel) fun integrand e =>
      stencil.PointNames integrand Stencil.surfaceArea e kernel.block) ∧
    ∀ kernel ∈ kernels.dirichlet,
      (∃ condition ∈ problem.conditions,
        DirichletKernel.ofCondition stencil condition = .ok kernel) ∧
      ∀ condition, DirichletKernel.ofCondition stencil condition = .ok kernel →
        ∃ e, stencil.point.evaluate condition.condition = .ok e ∧
          stencil.DirichletNames condition.condition e kernel.block := by
  obtain ⟨edge, vertex, face, dirichlet⟩ := exists_source discretizes
  refine ⟨fun kernel member => ⟨edge kernel member, fun integral formed => ?_⟩,
    fun kernel member => ⟨vertex kernel member, fun integral formed => ?_⟩,
    fun kernel member => ⟨face kernel member, fun integral formed => ?_⟩,
    fun kernel member => ⟨dirichlet kernel member, fun condition formed => ?_⟩⟩
  · rcases IntegralKernel.ofIntegral_cases formed with
      ⟨block, -, same, forms⟩ | ⟨block, -, same, -⟩ | ⟨block, -, same, -⟩ <;> cases same
    obtain ⟨e, evaluates, names⟩ := Stencil.exists_edgeNames forms
    exact ⟨e, evaluates, names, fun _ rejected => names.unbound rejected⟩
  · rcases IntegralKernel.ofIntegral_cases formed with
      ⟨block, -, same, -⟩ | ⟨block, -, same, forms⟩ | ⟨block, -, same, -⟩ <;> cases same
    exact Stencil.exists_pointNames forms
  · rcases IntegralKernel.ofIntegral_cases formed with
      ⟨block, -, same, -⟩ | ⟨block, -, same, -⟩ | ⟨block, -, same, forms⟩ <;> cases same
    exact Stencil.exists_pointNames forms
  · obtain ⟨block, forms, same⟩ := Outcome.bind_eq_ok_iff.mp formed
    cases same
    exact Stencil.exists_dirichletNames forms

/-- A flux with a conductivity that nothing binds. Its kernel is discretized but does not compile,
and the symbol that is missing is the conductivity. -/
theorem Problem.names_in_coefficients_conductivity :
    let stencil : Stencil := ⟨1, ⟨"u"⟩⟩
    let flux : Expr :=
      .mul [.sym "k", .call .normalDerivative [stencil.field.sample stencil.point]]
    let integral : Integral := ⟨fun _ => pure flux, .controlVolumeSurface, [.everywhere]⟩
    ∃ kernels kernel, Problem.discretize ⟨[integral], []⟩ stencil = .ok kernels ∧
      kernel ∈ kernels.edge ∧ stencil.EdgeNames integral.integrand flux kernel.block ∧
      (kernel.mapM (EdgeBlock.mapM (NumericFunction.compile stencil.edgeParams)) :
        Outcome (Kernel (EdgeBlock (NumericFunction ℚ)))) = Outcome.reject (.unboundSymbol "k") ∧
      stencil.OffPoint (fun name => .sym name ∈ flux.subterms) "k" := by
  intro stencil flux integral
  let inward : Expr := .mul [.num (-1), .sym Stencil.edgeRatio, .sym "k"]
  let outward : Expr := .mul [.sym Stencil.edgeRatio, .sym "k"]
  let block : EdgeBlock Expr := ⟨⟨⟨inward, outward⟩, ⟨outward, inward⟩⟩, ⟨zero, zero⟩⟩
  have forms : stencil.edgeBlock integral.integrand = .ok block := by decide +kernel
  have formed : IntegralKernel.ofIntegral stencil integral =
      .ok (.edge ⟨block, [.everywhere]⟩) := by
    simp only [IntegralKernel.ofIntegral, integral, forms]
    rfl
  have discretizes : Problem.discretize ⟨[integral], []⟩ stencil =
      .ok ⟨[⟨block, [.everywhere]⟩], [], [], []⟩ :=
    Problem.discretize_eq_ok_iff.mpr ⟨_, _, Outcome.mapM_eq_ok_iff.mpr (.cons formed .nil),
      rfl, rfl⟩
  have rejected : (Kernel.mapM (EdgeBlock.mapM (NumericFunction.compile stencil.edgeParams))
      ⟨block, [.everywhere]⟩ : Outcome (Kernel (EdgeBlock (NumericFunction ℚ)))) =
        Outcome.reject (.unboundSymbol "k") := by
    rfl
  have sources := (Problem.names_in_coefficients ℚ discretizes).1 _ List.mem_cons_self
  obtain ⟨e, evaluates, names, unbound⟩ := sources.holds integral formed
  cases evaluates
  exact ⟨_, _, discretizes, List.mem_cons_self, names, rejected, unbound "k" rejected⟩

/-- For a field with the name of a derivative, a term of value zero that expansion does not see
through leaves an application of the field in its coefficient. -/
example :
    let stencil : Stencil := ⟨1, ⟨"cos"⟩⟩
    let sample := stencil.field.sample stencil.point
    let sine (e : Expr) : Expr := .call (.named "sin") [e]
    let hidden : Expr := .mul [
      Stencil.HiddenZero.difference (sine (Stencil.HiddenZero.unevenZero sample)) (sine zero),
      Stencil.HiddenZero.zero (.sym "x_0") 1]
    ((stencil.pointBlock (fun _ => pure (.add [sample, hidden])) Stencil.controlVolume).map
      fun block => stencil.field.findIn? block.linear) = .ok (some (.apply "cos" [zero])) := by
  decide +kernel

end FiniteVolume
