import FiniteVolume.Kernel.Discretization
import FiniteVolume.Proofs.Outcome
import FiniteVolume.Proofs.Split.Complete

/-!
# Linear contributions

A contribution that is accepted as linear in its unknowns is the affine function of them that its
split describes (`valueIn_linearSplit`), with coefficients free of the unknowns.

Coefficients are constant parts of derivatives, and a derivative can divide by what the contribution
does not divide by, such as the root of its argument. If the contribution expands completely, no
such term is left in an accepted split. Where the expansion is not complete, the coefficients have
to be defined as well (`SplitsRegularly`).
-/

namespace FiniteVolume.Stencil

open FiniteVolume.Expr

variable {e : Expr} {unknowns : List String} {parts : AffineSplit}

/-- A linear split is a split whose residual vanishes. -/
theorem linearSplit_eq_ok_iff :
    linearSplit e unknowns = .ok parts ↔ e.split unknowns = some parts ∧ parts.isLinear = true := by
  rw [linearSplit, Outcome.bind_eq_ok_iff]
  constructor
  · rintro ⟨split, splits, accepts⟩
    obtain ⟨isLinear, rfl⟩ := AffineSplit.requireLinear_eq_ok_iff.mp accepts
    exact ⟨Outcome.ofPower?_eq_ok_iff.mp splits, isLinear⟩
  · rintro ⟨splits, isLinear⟩
    exact ⟨parts, Outcome.ofPower?_eq_ok_iff.mpr splits,
      AffineSplit.requireLinear_eq_ok_iff.mpr ⟨isLinear, rfl⟩⟩

/-- There is one coefficient for each unknown. -/
theorem length_of_linearSplit (accepts : linearSplit e unknowns = .ok parts) :
    parts.linear.length = unknowns.length := by
  obtain ⟨_, _, _, _, -, -, linearFormed, -⟩ := split_cases (linearSplit_eq_ok_iff.mp accepts).1
  exact (mapM_eq_some_iff.mp linearFormed).length_eq.symm

/-- The unknowns occur neither in the affine part nor in the coefficients. -/
theorem lacks_of_linearSplit (accepts : linearSplit e unknowns = .ok parts) {name : String}
    (member : name ∈ unknowns) :
    parts.affine.hasSymbol name = false ∧
      ∀ coefficient ∈ parts.linear, coefficient.hasSymbol name = false := by
  obtain ⟨_, _, _, _, -, affineFormed, linearFormed, -⟩ :=
    split_cases (linearSplit_eq_ok_iff.mp accepts).1
  refine ⟨hasSymbol_constantPartOfAll affineFormed name member, fun coefficient inside => ?_⟩
  obtain ⟨_, -, _, -, formed⟩ := exists_derivative_of_mem_linear linearFormed inside
  exact hasSymbol_constantPartOfAll formed name member

/-- The affine part of a linear split is the constant part of the expansion. -/
theorem affine_of_linearSplit (accepts : linearSplit e unknowns = .ok parts) :
    ∃ expanded, e.expand = some expanded ∧
      expanded.constantPartOfAll unknowns = some parts.affine := by
  obtain ⟨expanded, _, _, _, expands, affineFormed, -⟩ :=
    split_cases (linearSplit_eq_ok_iff.mp accepts).1
  exact ⟨expanded, expands, affineFormed⟩

/-- A coefficient of a linear split is the constant part of a derivative of the expansion, and zero
where there is no unknown. -/
theorem coefficient_of_linearSplit (accepts : linearSplit e unknowns = .ok parts)
    (position : Nat) :
    parts.coefficient position = zero ∨ ∃ expanded, e.expand = some expanded ∧
      ∃ unknown ∈ unknowns, ∃ slope, expanded.diff unknown = some slope ∧
        slope.constantPartOfAll unknowns = some (parts.coefficient position) := by
  obtain ⟨expanded, _, _, _, expands, -, linearFormed, -⟩ :=
    split_cases (linearSplit_eq_ok_iff.mp accepts).1
  rw [AffineSplit.coefficient]
  cases stands : parts.linear[position]? with
  | none => exact Or.inl rfl
  | some coefficient =>
    exact Or.inr ⟨expanded, expands,
      exists_derivative_of_mem_linear linearFormed (List.mem_of_getElem? stands)⟩

/-- Every part of a linear split is a constant part, of the expansion or of a derivative of it, or
zero. -/
theorem forall_parts_of_linearSplit {property : Expr → Prop}
    (accepts : linearSplit e unknowns = .ok parts) (zero : property Expr.zero)
    (constantPart : ∀ expanded source result, e.expand = some expanded →
      (source = expanded ∨ ∃ unknown, expanded.diff unknown = some source) →
      source.constantPartOfAll unknowns = some result → property result) :
    property parts.affine ∧ ∀ position, property (parts.coefficient position) := by
  constructor
  · obtain ⟨expanded, expands, formed⟩ := affine_of_linearSplit accepts
    exact constantPart expanded expanded _ expands (Or.inl rfl) formed
  · intro position
    rcases coefficient_of_linearSplit accepts position with
      isZero | ⟨expanded, expands, unknown, -, slope, differentiates, formed⟩
    · exact isZero ▸ zero
    · exact constantPart expanded slope _ expands (Or.inr ⟨unknown, differentiates⟩) formed

section Value

variable {K : Type*} [Field K] [CharZero K] {reading : Interpretation K}

/-- Taking constant parts divides by nothing new: a constant part is made of terms of expansions. -/
theorem sound_constantPartOfAll {names : List String} {result : Expr}
    (formed : e.constantPartOfAll names = some result) (sound : e.Sound reading) :
    result.Sound reading := by
  induction names generalizing e with
  | nil =>
    cases formed
    exact sound
  | cons name rest ih =>
    obtain ⟨part, partFormed, formed⟩ := Option.bind_eq_some_iff.mp formed
    obtain ⟨expanded, expands, same⟩ := Option.bind_eq_some_iff.mp partFormed
    cases same
    refine ih formed ((hereditary_sound reading).sum fun term member => ?_)
    exact (hereditary_sound reading).terms (keepsValue_expand e expanded expands sound).1 term
      (List.mem_filter.mp member).1

/-- The part without unknowns is sound if the expression is. -/
theorem sound_affine_of_linearSplit (accepts : linearSplit e unknowns = .ok parts)
    (sound : e.Sound reading) : parts.affine.Sound reading := by
  obtain ⟨expanded, expands, affineFormed⟩ := affine_of_linearSplit accepts
  exact sound_constantPartOfAll affineFormed (keepsValue_expand e expanded expands sound).1

omit [CharZero K] in
/-- A contribution is split off regularly at a reading if it expands completely, or if no
coefficient divides by anything of value zero. -/
def SplitsRegularly (reading : Interpretation K) (contribution : Expr) (coefficients : List Expr) :
    Prop :=
  contribution.ExpandsCompletely ∨ ∀ coefficient ∈ coefficients, coefficient.Defined reading

/-- The coefficients of a linear split that is regular divide by nothing of value zero. -/
theorem defined_of_linearSplit (accepts : linearSplit e unknowns = .ok parts)
    (sound : e.Sound reading) (regular : SplitsRegularly reading e parts.linear) :
    ∀ coefficient ∈ parts.linear, coefficient.Defined reading := by
  rcases regular with complete | defined
  · obtain ⟨splits, isLinear⟩ := linearSplit_eq_ok_iff.mp accepts
    obtain ⟨expanded, expands, -⟩ := affine_of_linearSplit accepts
    exact property_of_split (hereditary_defined reading) complete sound.2 splits isLinear expands
      (keepsValue_expand e expanded expands sound).1.1
  · exact defined

/-- An expression accepted as linear has the value of the affine function of its split, wherever it
is defined and its split is regular. -/
theorem valueIn_linearSplit (accepts : linearSplit e unknowns = .ok parts) (sound : e.Sound reading)
    (regular : SplitsRegularly reading e parts.linear) :
    e.valueIn reading = parts.affineValue reading unknowns := by
  obtain ⟨splits, isLinear⟩ := linearSplit_eq_ok_iff.mp accepts
  have affine := (sound_affine_of_linearSplit accepts sound).1
  rw [valueIn_split splits sound.2 sound.1 affine (defined_of_linearSplit accepts sound regular),
    valueIn_of_isZero isLinear, add_zero]

end Value

end FiniteVolume.Stencil
