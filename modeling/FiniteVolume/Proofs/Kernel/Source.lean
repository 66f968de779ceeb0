import FiniteVolume.Proofs.Kernel.Edge
import FiniteVolume.Proofs.Split.Absent
import FiniteVolume.Proofs.Stencil.Mentions

/-!
# Source terms

An integrand that neither applies the unknown nor holds one of the symbols of its values contributes
to the right-hand side only: all coefficients of its kernel are zero, and all of its contribution is
in the affine part (`kernels_of_source`). What takes the place of normal derivatives, coordinates
and normals does not bring the unknown in.
-/

namespace FiniteVolume.Stencil

open FiniteVolume.Expr

variable {stencil : Stencil}

/-- A tree in which the unknown does not occur in any form: neither as one of its values nor in an
application. -/
def Foreign (stencil : Stencil) (e : Expr) : Prop :=
  e.MentionsOnly
    (fun name => name ≠ firstValue stencil.field ∧ name ≠ secondValue stencil.field)
    fun head => head ≠ .named stencil.field.name

section Foreign

variable {e : Expr}

/-- An integrand without samples and value symbols is foreign to the field. -/
theorem foreign_of_findIn?_eq_none (unsampled : stencil.field.findIn? e = none)
    (first : e.hasSymbol (firstValue stencil.field) = false)
    (second : e.hasSymbol (secondValue stencil.field) = false) : stencil.Foreign e := by
  intro subterm member
  cases subterm with
  | sym name =>
    constructor
    · rintro rfl
      exact hasSymbol_eq_false_iff_not_mem.mp first member
    · rintro rfl
      exact hasSymbol_eq_false_iff_not_mem.mp second member
  | call head args =>
    rintro rfl
    exact ne_of_findIn?_eq_none unsampled member rfl
  | _ => trivial

/-- A foreign integrand lacks the value symbols. -/
theorem Foreign.lacks (foreign : stencil.Foreign e) :
    ∀ unknown ∈ [firstValue stencil.field, secondValue stencil.field],
      e.hasSymbol unknown = false := by
  have absent : ∀ name, (.sym name ∈ e.subterms → name ≠ name) → e.hasSymbol name = false :=
    fun _ different => hasSymbol_eq_false_iff_not_mem.mpr fun member => different member rfl
  exact List.forall_mem_cons.mpr ⟨absent _ fun member => (foreign.symbol member).1,
    List.forall_mem_singleton.mpr (absent _ fun member => (foreign.symbol member).2)⟩

/-- The contributions of a foreign integrand on a facet are foreign: there is nothing to sample. -/
theorem Foreign.contributions {integrand : Integrand} {contribution forward backward : Expr}
    (foreign : stencil.Foreign e) (evaluates : stencil.point.evaluate integrand = .ok e)
    (discretizes : stencil.discretizeEdge integrand [stencil.field] = .ok contribution)
    (normalizes : contribution.normalize = some forward)
    (exchanges : forward.subst stencil.exchangeRules = some backward) :
    stencil.Foreign forward ∧ stencil.Foreign backward := by
  have unsampled : ¬Head.named stencil.field.name ≠ .named stencil.field.name :=
    fun different => different rfl
  have mentions := (mentionsOnly_discretizeEdge foreign unsampled evaluates
    discretizes).normalize normalizes
  have isForeign : ∀ {e : Expr}, e.MentionsOnly
      (stencil.FacetSymbol False (stencil.OffPoint fun name =>
        name ≠ firstValue stencil.field ∧ name ≠ secondValue stencil.field))
      (stencil.OtherHead fun head => head ≠ .named stencil.field.name) → stencil.Foreign e := by
    intro e mentions
    refine mentions.mono (fun name named => ?_) fun head other => other.2
    rcases named with isParam | ⟨impossible, -⟩ | given
    · exact ne_values_of_mem_edgeParams isParam
    · exact impossible.elim
    · exact given.1.1
  refine ⟨isForeign mentions, isForeign (mentionsOnly_exchange mentions ?_ exchanges)⟩
  rintro (first | second)
  · exact first.1.1.1 rfl
  · exact second.1.1.2 rfl

end Foreign

section Kernels

variable {integrand : Integrand} {e : Expr}

/-- A contribution without the unknowns is accepted as its affine part. -/
theorem linearSplit_of_lacks {unknown : String} {rest : List String} {parts : AffineSplit}
    (accepts : linearSplit e (unknown :: rest) = .ok parts)
    (lacks : ∀ name ∈ unknown :: rest, e.hasSymbol name = false) :
    (∀ position, parts.coefficient position = zero) ∧ e.IsAllOf parts.affine := by
  obtain ⟨splits, isLinear⟩ := linearSplit_eq_ok_iff.mp accepts
  exact split_of_lacks splits isLinear lacks

/-- Without applications of the unknown there is nothing to replace at a vertex. -/
theorem atVertex_of_unsampled {result : Expr}
    (evaluates : stencil.point.evaluate integrand = .ok e)
    (unsampled : stencil.field.findIn? e = none)
    (formed : stencil.atVertex integrand = .ok result) :
    result = e := by
  obtain ⟨_, evaluates', formed⟩ := Outcome.bind_eq_ok_iff.mp formed
  cases evaluates.symm.trans evaluates'
  have absent : stencil.field.sample stencil.point ∉ e.subterms := fun member =>
    ne_of_findIn?_eq_none unsampled member rfl
  dsimp only at formed
  rw [if_neg absent] at formed
  obtain ⟨_, same, formed⟩ := Outcome.bind_eq_ok_iff.mp formed
  cases same
  rw [unsampled] at formed
  obtain ⟨_, -, same⟩ := Outcome.bind_eq_ok_iff.mp formed
  cases same
  rfl

variable (evaluates : stencil.point.evaluate integrand = .ok e)
  (unsampled : stencil.field.findIn? e = none)
  (first : e.hasSymbol (firstValue stencil.field) = false)

include evaluates unsampled first

/-- The kernel of a point of a source has no linear part, and its affine part is all of the
source. -/
theorem pointBlock_of_source {weight : String} {block : PointBlock Expr}
    (other : weight ≠ firstValue stencil.field)
    (formed : stencil.pointBlock integrand weight = .ok block) :
    block.linear = zero ∧ ∃ contribution, prod [e, .sym weight] = some contribution ∧
      contribution.IsAllOf block.affine := by
  obtain ⟨value, atVertex, formed⟩ := Outcome.bind_eq_ok_iff.mp formed
  obtain ⟨contribution, multiplies, formed⟩ := Outcome.bind_eq_ok_iff.mp formed
  obtain ⟨parts, accepts, same⟩ := Outcome.bind_eq_ok_iff.mp formed
  cases same
  cases atVertex_of_unsampled evaluates unsampled atVertex
  have multiplied := Outcome.ofPower?_eq_ok_iff.mp multiplies
  have lacksWeight : (Expr.sym weight).hasSymbol (firstValue stencil.field) = false :=
    hasSymbol_eq_false_iff.mpr ⟨by simpa using other, fun _ member => nomatch member⟩
  obtain ⟨linear, all⟩ := linearSplit_of_lacks accepts (List.forall_mem_singleton.mpr
    ((inherited_lacks _).prod_pair multiplied first lacksWeight))
  exact ⟨linear 0, contribution, multiplied, all⟩

/-- The kernel of a condition without the field has no linear part. -/
theorem dirichletBlock_of_source {block : DirichletBlock Expr}
    (formed : stencil.dirichletBlock integrand = .ok block) :
    block.coeff = zero ∧ ∃ affine, e.IsAllOf affine ∧ affine.neg = some block.rhs := by
  obtain ⟨value, atVertex, formed⟩ := Outcome.bind_eq_ok_iff.mp formed
  obtain ⟨parts, accepts, formed⟩ := Outcome.bind_eq_ok_iff.mp formed
  obtain ⟨rhs, negates, same⟩ := Outcome.bind_eq_ok_iff.mp formed
  cases same
  cases atVertex_of_unsampled evaluates unsampled atVertex
  obtain ⟨linear, all⟩ := linearSplit_of_lacks accepts (List.forall_mem_singleton.mpr first)
  exact ⟨linear 0, parts.affine, all, Outcome.ofPower?_eq_ok_iff.mp negates⟩

/-- The kernel of an edge of a source has no linear part, and its affine parts are all of the
source. -/
theorem edgeBlock_of_source (second : e.hasSymbol (secondValue stencil.field) = false)
    {block : EdgeBlock Expr} (formed : stencil.edgeBlock integrand = .ok block) :
    block.linear = ⟨⟨zero, zero⟩, ⟨zero, zero⟩⟩ ∧ ∃ contribution forward backward,
      stencil.discretizeEdge integrand [stencil.field] = .ok contribution ∧
      contribution.normalize = some forward ∧ forward.subst stencil.exchangeRules = some backward ∧
      forward.IsAllOf block.affine.first ∧ backward.IsAllOf block.affine.second := by
  obtain ⟨contribution, forward, backward, forwardParts, backwardParts, discretizes, normalizes,
    exchanges, splitsForward, splitsBackward, rfl⟩ := edgeBlock_cases formed
  obtain ⟨foreignForward, foreignBackward⟩ :=
    (foreign_of_findIn?_eq_none unsampled first second).contributions evaluates discretizes
      normalizes exchanges
  obtain ⟨linearForward, allForward⟩ := linearSplit_of_lacks splitsForward foreignForward.lacks
  obtain ⟨linearBackward, allBackward⟩ := linearSplit_of_lacks splitsBackward foreignBackward.lacks
  rw [linearForward, linearForward, linearBackward, linearBackward]
  exact ⟨rfl, contribution, forward, backward, discretizes, normalizes, exchanges, allForward,
    allBackward⟩

/-- An integrand that does not apply the unknown, and holds none of the symbols that its values get,
contributes to the affine part only: all linear coefficients of its kernels are zero, and the affine
part is all of the contribution. On a facet the integrand must hold neither of the two symbols, at a
vertex not the one of the value there. -/
theorem kernels_of_source :
    (e.hasSymbol (secondValue stencil.field) = false → ∀ subdomains kernel,
      IntegralKernel.ofIntegral stencil ⟨integrand, .controlVolumeSurface, subdomains⟩ =
        .ok (.edge kernel) →
      kernel.block.linear = ⟨⟨zero, zero⟩, ⟨zero, zero⟩⟩ ∧ ∃ contribution forward backward,
        stencil.discretizeEdge integrand [stencil.field] = .ok contribution ∧
        contribution.normalize = some forward ∧
        forward.subst stencil.exchangeRules = some backward ∧
        forward.IsAllOf kernel.block.affine.first ∧
        backward.IsAllOf kernel.block.affine.second) ∧
    (∀ subdomains kernel,
      IntegralKernel.ofIntegral stencil ⟨integrand, .controlVolume, subdomains⟩ =
        .ok (.vertex kernel) →
      kernel.block.linear = zero ∧ ∃ contribution,
        prod [e, .sym controlVolume] = some contribution ∧
        contribution.IsAllOf kernel.block.affine) ∧
    (∀ subdomains kernel,
      IntegralKernel.ofIntegral stencil ⟨integrand, .boundarySurface, subdomains⟩ =
        .ok (.face kernel) →
      kernel.block.linear = zero ∧ ∃ contribution,
        prod [e, .sym surfaceArea] = some contribution ∧
        contribution.IsAllOf kernel.block.affine) ∧
    ∀ subdomain kernel,
      DirichletKernel.ofCondition stencil ⟨integrand, subdomain⟩ = .ok kernel →
      kernel.block.coeff = zero ∧ ∃ affine, e.IsAllOf affine ∧
        affine.neg = some kernel.block.rhs := by
  refine ⟨fun second subdomains kernel formed => ?_, fun subdomains kernel formed => ?_,
    fun subdomains kernel formed => ?_, fun subdomain kernel formed => ?_⟩ <;>
    obtain ⟨block, blockFormed, same⟩ := Outcome.bind_eq_ok_iff.mp formed <;> cases same
  · exact edgeBlock_of_source evaluates unsampled first second blockFormed
  · exact pointBlock_of_source evaluates unsampled first (ne_firstValue (by decide) _) blockFormed
  · exact pointBlock_of_source evaluates unsampled first (ne_firstValue (by decide) _) blockFormed
  · exact dirichletBlock_of_source evaluates unsampled first blockFormed

end Kernels

/-- A source term with a symbol whose name only resembles that of a value of the unknown. -/
theorem kernels_of_source_wave :
    let stencil : Stencil := ⟨1, ⟨"u"⟩⟩
    let e : Expr := .add [.sym "u_k2", .call (.named "sin") [.sym "x_0"]]
    (∃ kernel, IntegralKernel.ofIntegral stencil
        ⟨fun _ => pure e, .controlVolumeSurface, [.everywhere]⟩ = .ok (.edge kernel) ∧
      kernel.block.linear = ⟨⟨zero, zero⟩, ⟨zero, zero⟩⟩) ∧
    (∃ kernel, IntegralKernel.ofIntegral stencil
        ⟨fun _ => pure e, .controlVolume, [.everywhere]⟩ = .ok (.vertex kernel) ∧
      kernel.block.linear = zero) ∧
    ∃ kernel, DirichletKernel.ofCondition stencil ⟨fun _ => pure e, .boundary⟩ = .ok kernel ∧
      kernel.block.coeff = zero := by
  intro stencil e
  have all := @kernels_of_source stencil (fun _ => pure e) e rfl (by decide) (by decide)
  obtain ⟨edge, vertex, -, dirichlet⟩ := all
  obtain ⟨edgeBlock, edgeFormed⟩ := Outcome.exists_of_isOk
    (show (stencil.edgeBlock fun _ => pure e).isOk = true by decide +kernel)
  obtain ⟨pointBlock, pointFormed⟩ := Outcome.exists_of_isOk
    (show (stencil.pointBlock (fun _ => pure e) controlVolume).isOk = true by decide +kernel)
  obtain ⟨kernel, dirichletFormed⟩ := Outcome.exists_of_isOk
    (show (DirichletKernel.ofCondition stencil ⟨fun _ => pure e, .boundary⟩).isOk = true by
      decide +kernel)
  have ofEdge : IntegralKernel.ofIntegral stencil
      ⟨fun _ => pure e, .controlVolumeSurface, [.everywhere]⟩ =
        .ok (.edge ⟨edgeBlock, [.everywhere]⟩) := by
    simp only [IntegralKernel.ofIntegral, edgeFormed]
    rfl
  have ofVertex : IntegralKernel.ofIntegral stencil
      ⟨fun _ => pure e, .controlVolume, [.everywhere]⟩ =
        .ok (.vertex ⟨pointBlock, [.everywhere]⟩) := by
    simp only [IntegralKernel.ofIntegral, pointFormed]
    rfl
  exact ⟨⟨_, ofEdge, (edge (by decide) _ _ ofEdge).1⟩, ⟨_, ofVertex, (vertex _ _ ofVertex).1⟩,
    ⟨kernel, dirichletFormed, (dirichlet _ _ dirichletFormed).1⟩⟩

/-- A parameter with the name of a value of the unknown is mistaken for it. -/
example :
    Stencil.pointBlock ⟨1, ⟨"u"⟩⟩ (fun _ => pure (.sym "u_k0")) controlVolume =
      .ok ⟨.sym controlVolume, zero⟩ := by
  decide +kernel

end FiniteVolume.Stencil
