import FiniteVolume.Proofs.Expr.Derivative
import FiniteVolume.Proofs.Split.ConstantPart
import FiniteVolume.Proofs.Value.Expansion

/-!
# Splits are sound

The parts of a split add up to the expression, and its affine and linear parts do not depend on the
unknowns (`split_sound`). In particular an accepted expression is the affine function of the
unknowns with these coefficients.
-/

namespace FiniteVolume

namespace AffineSplit

deriving instance DecidableEq for AffineSplit

/-- The affine function of the unknowns that a split describes. -/
def affineValue {K : Type*} [Field K] (parts : AffineSplit) (reading : Expr.Interpretation K)
    (unknowns : List String) : K :=
  parts.affine.valueIn reading +
    ((unknowns.zip parts.linear).map fun (unknown, coefficient) =>
      reading.symbol unknown * coefficient.valueIn reading).sum

/-- A split is accepted, and left as it is, if nothing nonlinear is left over. -/
theorem requireLinear_eq_ok_iff {parts accepted : AffineSplit} {context : Outcome String} :
    parts.requireLinear context = .ok accepted ↔ parts.isLinear = true ∧ accepted = parts := by
  unfold requireLinear
  split
  · rename_i linear
    simp [linear, eq_comm]
  · rename_i rejected
    refine ⟨fun accepts => ?_, fun both => absurd both.1 rejected⟩
    cases context with
    | error failure => cases accepts
    | ok text =>
      cases residual : parts.nonlinear.text with
      | error failure =>
        rw [residual] at accepts
        cases accepts
      | ok residual' =>
        rw [residual] at accepts
        cases accepts

end AffineSplit

namespace Expr

theorem inherited_vectorDots : Inherited VectorDots where
  toHereditary := hereditary_vectorDots
  arg e dots := (vectorDots_iff.mp dots).2
  vector _ dots := .vector dots
  call head args rebuilt dots notOperands dotsRebuilt := by
    refine .call ?_ dotsRebuilt
    rintro rfl
    obtain ⟨left, right, rfl, sameLength⟩ := dots.dotOperands
    rw [dotOperands?_eq_some_iff.mpr ⟨rfl, sameLength⟩] at notOperands
    cases notOperands

/-- The derivative of a vector is a vector of as many components. -/
theorem diff_vector {components : List Expr} {name : String} {result : Expr}
    (formed : diff (.vector components) name = some result) :
    ∃ derivatives, result = .vector derivatives ∧ derivatives.length = components.length := by
  cases derives_of_diff formed with
  | lacks => exact ⟨_, rfl, List.length_map _⟩
  | @vector _ derivatives differentiates =>
    exact ⟨derivatives, rfl, (mapM_eq_some_iff.mp differentiates).length_eq.symm⟩

/-- Derivatives only take inner products of vectors of equal length if the expression does. -/
theorem differentiated_vectorDots (name : String) :
    Differentiated name VectorDots VectorDots fun _ => True where
  toPowered := hereditary_vectorDots.powered
  arg e dots := (vectorDots_iff.mp dots).2
  keep _ dots := dots
  vector _ dots := .vector dots
  base _ _ _ _ _ := trivial
  pointwise function arg derivative dots _ formed := by
    have dotsArgs := (vectorDots_iff.mp dots).2
    exact hereditary_vectorDots.powered.pointwise formed (dotsArgs arg List.mem_cons_self)
      (fun _ _ => .call (by simp) dotsArgs) trivial fun _ => trivial
  apply _ _ _ dots _ _ := .call (by simp) (vectorDots_iff.mp dots).2
  gradient _ _ _ dots := .call (by simp) dots
  dot left right left' right' dots diffLeft diffRight dotsLeft dotsRight := by
    have operands := (vectorDots_iff.mp dots).2
    obtain ⟨_, _, same, sameLength⟩ := dots.dotOperands
    cases same
    obtain ⟨derivatives, rfl, lengthLeft⟩ := diff_vector diffLeft
    obtain ⟨derivatives', rfl, lengthRight⟩ := diff_vector diffRight
    exact ⟨.dot (by omega) (forall_mem_pair ⟨dotsLeft, operands _ (by simp [args])⟩),
      .dot (by omega) (forall_mem_pair ⟨operands _ (by simp [args]), dotsRight⟩)⟩

/-- How a split is formed. -/
theorem split_cases {e : Expr} {unknowns : List String} {parts : AffineSplit}
    (splits : e.split unknowns = some parts) :
    ∃ expanded captured difference rest, e.expand = some expanded ∧
      expanded.constantPartOfAll unknowns = some parts.affine ∧
      (unknowns.mapM fun unknown => do
        (← expanded.diff unknown).constantPartOfAll unknowns) = some parts.linear ∧
      ((unknowns.zip parts.linear).mapM fun (unknown, coefficient) =>
        prod [.sym unknown, coefficient]) = some captured ∧
      expanded.sub parts.affine = some difference ∧
      difference.sub (sum captured) = some rest ∧ rest.expand = some parts.nonlinear := by
  obtain ⟨expanded, expands, splits⟩ := Option.bind_eq_some_iff.mp splits
  obtain ⟨affine, affineFormed, splits⟩ := Option.bind_eq_some_iff.mp splits
  obtain ⟨linear, linearFormed, splits⟩ := Option.bind_eq_some_iff.mp splits
  obtain ⟨captured, capturedFormed, splits⟩ := Option.bind_eq_some_iff.mp splits
  obtain ⟨difference, differenceFormed, splits⟩ := Option.bind_eq_some_iff.mp splits
  obtain ⟨rest, restFormed, splits⟩ := Option.bind_eq_some_iff.mp splits
  obtain ⟨nonlinear, nonlinearFormed, same⟩ := Option.bind_eq_some_iff.mp splits
  cases same
  exact ⟨expanded, captured, difference, rest, expands, affineFormed, linearFormed, capturedFormed,
    differenceFormed, restFormed, nonlinearFormed⟩

/-- Every coefficient is a constant part of the derivative with respect to its unknown. -/
theorem exists_derivative_of_mem_linear {expanded coefficient : Expr} {unknowns names : List String}
    {linear : List Expr}
    (formed : (names.mapM fun unknown => do
      (← expanded.diff unknown).constantPartOfAll unknowns) = some linear)
    (member : coefficient ∈ linear) :
    ∃ unknown ∈ names, ∃ derivative, expanded.diff unknown = some derivative ∧
      derivative.constantPartOfAll unknowns = some coefficient := by
  obtain ⟨unknown, inside, formed⟩ := exists_of_mem_mapM formed member
  obtain ⟨derivative, differentiates, formed⟩ := Option.bind_eq_some_iff.mp formed
  exact ⟨unknown, inside, derivative, differentiates, formed⟩

section Value

variable {K : Type*} [Field K] [CharZero K] {reading : Interpretation K}

/-- The parts of a split add up to the expression. -/
theorem valueIn_split {e : Expr} {unknowns : List String} {parts : AffineSplit}
    (splits : e.split unknowns = some parts) (dots : e.VectorDots) (defined : e.Defined reading)
    (affine : parts.affine.Defined reading)
    (linear : ∀ coefficient ∈ parts.linear, coefficient.Defined reading) :
    e.valueIn reading =
      parts.affineValue reading unknowns + parts.nonlinear.valueIn reading := by
  obtain ⟨expanded, captured, difference, rest, expands, affineFormed, linearFormed, capturedFormed,
    differenceFormed, restFormed, nonlinearFormed⟩ := split_cases splits
  obtain ⟨soundExpanded, value⟩ := keepsValue_expand e expanded expands ⟨defined, dots⟩
  have soundAffine : parts.affine.Sound reading :=
    ⟨affine, inherited_vectorDots.constantPartOfAll affineFormed soundExpanded.2⟩
  have soundLinear : ∀ coefficient ∈ parts.linear, coefficient.Sound reading := by
    intro coefficient member
    obtain ⟨unknown, -, derivative, differentiates, formed⟩ :=
      exists_derivative_of_mem_linear linearFormed member
    exact ⟨linear coefficient member, inherited_vectorDots.constantPartOfAll formed
      ((differentiated_vectorDots unknown).diff expanded derivative differentiates
        soundExpanded.2)⟩
  have soundPair : ∀ pair ∈ unknowns.zip parts.linear,
      ∀ operand ∈ [Expr.sym pair.1, pair.2], operand.Sound reading := fun pair member =>
    forall_mem_pair ⟨sound_sym pair.1, soundLinear pair.2 (List.of_mem_zip member).2⟩
  have soundCaptured : ∀ product ∈ captured, product.Sound reading :=
    forall_mem_of_mapM capturedFormed fun pair inside product multiplied =>
      (hereditary_sound reading).prod multiplied (soundPair pair inside)
  have valueCaptured : (sum captured).valueIn reading =
      ((unknowns.zip parts.linear).map fun (unknown, coefficient) =>
        reading.symbol unknown * coefficient.valueIn reading).sum := by
    rw [valueIn_sum]
    refine congrArg List.sum (map_eq_of_mapM capturedFormed _ fun pair member product formed => ?_)
    rw [valueIn_prod formed fun operand inside => (soundPair pair member operand inside).1]
    simp
  have soundDifference := (hereditary_sound reading).sub differenceFormed soundExpanded soundAffine
  have soundSum := (hereditary_sound reading).sum soundCaptured
  have soundRest := (hereditary_sound reading).sub restFormed soundDifference soundSum
  rw [(keepsValue_expand rest parts.nonlinear nonlinearFormed soundRest).2,
    valueIn_sub restFormed soundSum.1, valueIn_sub differenceFormed soundAffine.1, valueCaptured,
    AffineSplit.affineValue, value]
  ring

end Value

/-- A split takes an expression apart soundly: its affine part and its coefficients do not depend on
the unknowns, and at every interpretation at which the expression and these parts are defined, the
value of the expression is the sum of the parts. Once the split is accepted, the expression is the
affine function of the unknowns that the split describes. -/
theorem split_sound {e : Expr} {unknowns : List String} {parts : AffineSplit}
    (splits : e.split unknowns = some parts) (dots : e.VectorDots) :
    (∀ name ∈ unknowns, parts.affine.hasSymbol name = false ∧
      ∀ coefficient ∈ parts.linear, coefficient.hasSymbol name = false) ∧
    parts.linear.length = unknowns.length ∧
    ∀ (K : Type*) [Field K] [CharZero K] (reading : Interpretation K), e.Defined reading →
      parts.affine.Defined reading → (∀ coefficient ∈ parts.linear, coefficient.Defined reading) →
      e.valueIn reading =
        parts.affineValue reading unknowns + parts.nonlinear.valueIn reading ∧
      ∀ context accepted, parts.requireLinear context = .ok accepted →
        e.valueIn reading = accepted.affineValue reading unknowns := by
  obtain ⟨expanded, captured, difference, rest, expands, affineFormed, linearFormed, -⟩ :=
    split_cases splits
  refine ⟨fun name member => ⟨hasSymbol_constantPartOfAll affineFormed name member,
    fun coefficient inside => ?_⟩, (mapM_eq_some_iff.mp linearFormed).length_eq.symm, ?_⟩
  · obtain ⟨unknown, -, derivative, -, formed⟩ :=
      exists_derivative_of_mem_linear linearFormed inside
    exact hasSymbol_constantPartOfAll formed name member
  · intro K _ _ reading defined affine linear
    have parts_add_up := valueIn_split splits dots defined affine linear
    refine ⟨parts_add_up, fun context accepted accepts => ?_⟩
    obtain ⟨isLinear, rfl⟩ := AffineSplit.requireLinear_eq_ok_iff.mp accepts
    rw [parts_add_up, valueIn_of_isZero isLinear, add_zero]

/-- A quotient with a call in its affine part: `u / y + sin(y)` is split with respect to `u`, and
accepted. -/
theorem split_sound_quotient :
    let e : Expr := .add [.call (.named "sin") [.sym "y"],
      .mul [.sym "u", .pow (.sym "y") Exponent.negOne]]
    let reading : Interpretation ℚ := ⟨fun name => if name = "y" then 2 else 3, fun _ => 0,
      fun _ values => values.sum⟩
    ∃ parts, e.split ["u"] = some parts ∧
      parts.affine.hasSymbol "u" = false ∧
      e.valueIn reading = parts.affineValue reading ["u"] := by
  intro e reading
  have splits : e.split ["u"] = some
      ⟨.call (.named "sin") [.sym "y"], [.pow (.sym "y") Exponent.negOne], .num 0⟩ := by
    decide +kernel
  have dots : e.VectorDots := by
    simp [e, VectorDots, subterms, subtermsOfAll]
  have defined : e.Defined reading := by
    simp [e, reading, Defined, NegativeBases, subterms, subtermsOfAll]
  obtain ⟨lacks, -, value⟩ := split_sound splits dots
  refine ⟨_, splits, (lacks "u" List.mem_cons_self).1, ?_⟩
  refine (value ℚ reading defined ?_ ?_).2 (.ok "") _
    (AffineSplit.requireLinear_eq_ok_iff.mpr ⟨by decide, rfl⟩)
  · simp [Defined, NegativeBases, subterms, subtermsOfAll]
  · simp [reading, Defined, NegativeBases, subterms]

end Expr

end FiniteVolume
