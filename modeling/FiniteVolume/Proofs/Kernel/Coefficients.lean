import FiniteVolume.Proofs.Canonical.Written
import FiniteVolume.Proofs.Kernel.Edge

/-!
# Coefficients of kernels

The coefficients of a block as one list. What is done with a block is done with each of them
(`EdgeBlock.mapM_eq_ok_iff` and its companions). Like factors are gathered in all coefficients of
discretized kernels, so every one of them has a written form.
-/

namespace FiniteVolume

section Blocks

variable {κ ρ : Type} {f : κ → Outcome ρ}

/-- The coefficients of an edge block, in the order in which they are worked on. -/
def EdgeBlock.coefficients (block : EdgeBlock κ) : List κ :=
  [block.linear.first.first, block.linear.first.second, block.linear.second.first,
    block.linear.second.second, block.affine.first, block.affine.second]

/-- The coefficients of a point block, in the order in which they are worked on. -/
def PointBlock.coefficients (block : PointBlock κ) : List κ := [block.linear, block.affine]

/-- The coefficients of a Dirichlet block, in the order in which they are worked on. -/
def DirichletBlock.coefficients (block : DirichletBlock κ) : List κ := [block.coeff, block.rhs]

/-- A property of all coefficients of an edge block, written out. -/
theorem EdgeBlock.forall_coefficients_iff {property : κ → Prop} {block : EdgeBlock κ} :
    (∀ coefficient ∈ block.coefficients, property coefficient) ↔
      (property block.linear.first.first ∧ property block.linear.first.second) ∧
        (property block.linear.second.first ∧ property block.linear.second.second) ∧
        property block.affine.first ∧ property block.affine.second := by
  simp [coefficients, and_assoc]

/-- Both ends are mapped, or the first error is reported. -/
theorem Ends.mapM_eq_ok_iff {ends : Ends κ} {results : Ends ρ} :
    ends.mapM f = .ok results ↔
      f ends.first = .ok results.first ∧ f ends.second = .ok results.second := by
  constructor
  · intro formed
    obtain ⟨first, formsFirst, formed⟩ := Outcome.bind_eq_ok_iff.mp formed
    obtain ⟨second, formsSecond, same⟩ := Outcome.bind_eq_ok_iff.mp formed
    cases same
    exact ⟨formsFirst, formsSecond⟩
  · rintro ⟨formsFirst, formsSecond⟩
    rw [mapM, formsFirst, formsSecond]
    rfl

/-- Mapping an edge block maps each of its coefficients. -/
theorem EdgeBlock.mapM_eq_ok_iff {block : EdgeBlock κ} {results : EdgeBlock ρ} :
    block.mapM f = .ok results ↔
      List.Forall₂ (fun coefficient result => f coefficient = .ok result) block.coefficients
        results.coefficients := by
  have parts : block.mapM f = .ok results ↔
      block.linear.mapM (Ends.mapM f) = .ok results.linear ∧
        block.affine.mapM f = .ok results.affine := by
    constructor
    · intro formed
      obtain ⟨linear, formsLinear, formed⟩ := Outcome.bind_eq_ok_iff.mp formed
      obtain ⟨affine, formsAffine, same⟩ := Outcome.bind_eq_ok_iff.mp formed
      cases same
      exact ⟨formsLinear, formsAffine⟩
    · rintro ⟨formsLinear, formsAffine⟩
      rw [mapM, formsLinear, formsAffine]
      rfl
  rw [parts]
  simp only [Ends.mapM_eq_ok_iff, coefficients, List.forall₂_cons, List.Forall₂.nil, and_true,
    and_assoc]

/-- Mapping the block of a point maps each of its coefficients. -/
theorem PointBlock.mapM_eq_ok_iff {block : PointBlock κ} {results : PointBlock ρ} :
    block.mapM f = .ok results ↔
      List.Forall₂ (fun coefficient result => f coefficient = .ok result) block.coefficients
        results.coefficients := by
  simp only [coefficients, List.forall₂_cons, List.Forall₂.nil, and_true]
  constructor
  · intro formed
    obtain ⟨linear, formsLinear, formed⟩ := Outcome.bind_eq_ok_iff.mp formed
    obtain ⟨affine, formsAffine, same⟩ := Outcome.bind_eq_ok_iff.mp formed
    cases same
    exact ⟨formsLinear, formsAffine⟩
  · rintro ⟨formsLinear, formsAffine⟩
    rw [mapM, formsLinear, formsAffine]
    rfl

/-- Mapping the block of a condition maps each of its coefficients. -/
theorem DirichletBlock.mapM_eq_ok_iff {block : DirichletBlock κ} {results : DirichletBlock ρ} :
    block.mapM f = .ok results ↔
      List.Forall₂ (fun coefficient result => f coefficient = .ok result) block.coefficients
        results.coefficients := by
  simp only [coefficients, List.forall₂_cons, List.Forall₂.nil, and_true]
  constructor
  · intro formed
    obtain ⟨coeff, formsCoeff, formed⟩ := Outcome.bind_eq_ok_iff.mp formed
    obtain ⟨rhs, formsRhs, same⟩ := Outcome.bind_eq_ok_iff.mp formed
    cases same
    exact ⟨formsCoeff, formsRhs⟩
  · rintro ⟨formsCoeff, formsRhs⟩
    rw [mapM, formsCoeff, formsRhs]
    rfl

/-- What holds of answers and is kept by continuing a computation holds of the work on a block if it
holds of the work on its coefficients. -/
theorem EdgeBlock.holds_mapM (holds : ∀ {γ : Type}, Outcome γ → Prop)
    (answered : ∀ {γ : Type} (answer : γ), holds (.ok answer))
    (bind : ∀ {γ δ : Type} {outcome : Outcome γ} {next : γ → Outcome δ}, holds outcome →
      (∀ answer, holds (next answer)) → holds (outcome >>= next)) {block : EdgeBlock κ}
    (each : ∀ coefficient ∈ block.coefficients, holds (f coefficient)) :
    holds (block.mapM f) := by
  have ends : ∀ {ends : Ends κ}, holds (f ends.first) → holds (f ends.second) →
      holds (ends.mapM f) := fun first second =>
    bind first fun _ => bind second fun _ => answered _
  obtain ⟨⟨a, b⟩, ⟨c, d⟩, p, q⟩ := forall_coefficients_iff.mp each
  have linear : holds (block.linear.mapM (Ends.mapM f)) :=
    bind (ends a b) fun _ => bind (ends c d) fun _ => answered _
  exact bind linear fun _ => bind (ends p q) fun _ => answered _

/-- An edge block can be mapped if all of its coefficients can. -/
theorem EdgeBlock.exists_mapM {block : EdgeBlock κ}
    (each : ∀ coefficient ∈ block.coefficients, ∃ result, f coefficient = .ok result) :
    ∃ results, block.mapM f = .ok results := by
  obtain ⟨⟨⟨a, formsA⟩, ⟨b, formsB⟩⟩, ⟨⟨c, formsC⟩, ⟨d, formsD⟩⟩, ⟨p, formsP⟩, ⟨q, formsQ⟩⟩ :=
    EdgeBlock.forall_coefficients_iff.mp each
  exact ⟨⟨⟨⟨a, b⟩, ⟨c, d⟩⟩, ⟨p, q⟩⟩, mapM_eq_ok_iff.mpr
    (.cons formsA (.cons formsB (.cons formsC (.cons formsD (.cons formsP (.cons formsQ .nil))))))⟩

/-- The block of a point can be mapped if all of its coefficients can. -/
theorem PointBlock.exists_mapM {block : PointBlock κ}
    (each : ∀ coefficient ∈ block.coefficients, ∃ result, f coefficient = .ok result) :
    ∃ results, block.mapM f = .ok results := by
  simp only [coefficients, List.forall_mem_cons] at each
  obtain ⟨⟨linear, formsLinear⟩, ⟨affine, formsAffine⟩, -⟩ := each
  exact ⟨⟨linear, affine⟩, mapM_eq_ok_iff.mpr (.cons formsLinear (.cons formsAffine .nil))⟩

/-- The block of a condition can be mapped if all of its coefficients can. -/
theorem DirichletBlock.exists_mapM {block : DirichletBlock κ}
    (each : ∀ coefficient ∈ block.coefficients, ∃ result, f coefficient = .ok result) :
    ∃ results, block.mapM f = .ok results := by
  simp only [coefficients, List.forall_mem_cons] at each
  obtain ⟨⟨coeff, formsCoeff⟩, ⟨rhs, formsRhs⟩, -⟩ := each
  exact ⟨⟨coeff, rhs⟩, mapM_eq_ok_iff.mpr (.cons formsCoeff (.cons formsRhs .nil))⟩

end Blocks

namespace Expr

/-- What is left without a symbol has its like factors gathered. -/
theorem gathered_constantPart {e result : Expr} {name : String}
    (formed : e.constantPart name = some result) : result.Gathered := by
  obtain ⟨expanded, expands, same⟩ := Option.bind_eq_some_iff.mp formed
  cases same
  refine closed_gathered.sum _ fun term member => ?_
  exact closed_gathered.terms expanded (gathered_expand expands) term (List.mem_filter.mp member).1

/-- Like factors are gathered in constant parts, whatever the parts are taken of. -/
theorem gathered_constantPartOfAll {e result : Expr} {names : List String} (several : names ≠ [])
    (formed : e.constantPartOfAll names = some result) : result.Gathered := by
  induction names generalizing e with
  | nil => exact absurd rfl several
  | cons name rest ih =>
    obtain ⟨part, partFormed, formed⟩ := Option.bind_eq_some_iff.mp formed
    by_cases last : rest = []
    · subst last
      cases formed
      exact gathered_constantPart partFormed
    · exact ih last formed

end Expr

namespace Stencil

open FiniteVolume.Expr

variable {stencil : Stencil} {integrand : Integrand}

/-- Like factors are gathered in the parts of a linear contribution. -/
theorem gathered_of_linearSplit {e : Expr} {unknowns : List String} {parts : AffineSplit}
    (several : unknowns ≠ []) (accepts : linearSplit e unknowns = .ok parts) :
    parts.affine.Gathered ∧ ∀ position, (parts.coefficient position).Gathered :=
  forall_parts_of_linearSplit accepts (gathered_num 0) fun _ _ _ _ _ formed =>
    gathered_constantPartOfAll several formed

/-- The coefficients of an edge block have their like factors gathered. -/
theorem gathered_edgeBlock {block : EdgeBlock Expr}
    (formed : stencil.edgeBlock integrand = .ok block) :
    ∀ coefficient ∈ block.coefficients, coefficient.Gathered := by
  obtain ⟨_, _, _, forwardParts, backwardParts, -, -, -, splitsForward, splitsBackward, rfl⟩ :=
    edgeBlock_cases formed
  have forward := gathered_of_linearSplit (by simp) splitsForward
  have backward := gathered_of_linearSplit (by simp) splitsBackward
  exact EdgeBlock.forall_coefficients_iff.mpr
    ⟨⟨forward.2 0, forward.2 1⟩, ⟨backward.2 0, backward.2 1⟩, forward.1, backward.1⟩

/-- The coefficients of the block of a point have their like factors gathered. -/
theorem gathered_pointBlock {weight : String} {block : PointBlock Expr}
    (formed : stencil.pointBlock integrand weight = .ok block) :
    ∀ coefficient ∈ block.coefficients, coefficient.Gathered := by
  obtain ⟨_, -, formed⟩ := Outcome.bind_eq_ok_iff.mp formed
  obtain ⟨_, -, formed⟩ := Outcome.bind_eq_ok_iff.mp formed
  obtain ⟨parts, splits, same⟩ := Outcome.bind_eq_ok_iff.mp formed
  cases same
  have gathered := gathered_of_linearSplit (by simp) splits
  exact forall_mem_pair ⟨gathered.2 0, gathered.1⟩

/-- The coefficients of the block of a condition have their like factors gathered. -/
theorem gathered_dirichletBlock {block : DirichletBlock Expr}
    (formed : stencil.dirichletBlock integrand = .ok block) :
    ∀ coefficient ∈ block.coefficients, coefficient.Gathered := by
  obtain ⟨_, -, formed⟩ := Outcome.bind_eq_ok_iff.mp formed
  obtain ⟨parts, splits, formed⟩ := Outcome.bind_eq_ok_iff.mp formed
  obtain ⟨rhs, negates, same⟩ := Outcome.bind_eq_ok_iff.mp formed
  cases same
  have gathered := gathered_of_linearSplit (by simp) splits
  exact forall_mem_pair ⟨gathered.2 0,
    closed_gathered.neg (Outcome.ofPower?_eq_ok_iff.mp negates) gathered.1⟩

end Stencil

end FiniteVolume
