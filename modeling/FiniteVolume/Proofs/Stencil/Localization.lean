import FiniteVolume.Proofs.Stencil.EdgeSteps
import FiniteVolume.Proofs.Stencil.Names
import FiniteVolume.Proofs.Value.Scalar

/-!
# Localized integrands

An integrand on a facet samples the field at the generic point only. Once its normal derivatives are
difference quotients it samples the field at the endpoints as well, and keeps its value where the
difference quotient is read as the normal derivative (`localized_of_localize`).
-/

namespace FiniteVolume.Stencil

open FiniteVolume.Expr

/-- The symbols an integrand may hold: any but the coordinates of the endpoints. -/
def IsFree (stencil : Stencil) (name : String) : Prop :=
  name ∉ stencil.firstSymbols ∧ name ∉ stencil.secondSymbols

section Free

variable {stencil : Stencil}

/-- The length of the edge is no coordinate of an end. -/
theorem isFree_edgeLength : stencil.IsFree edgeLength :=
  ⟨edgeLength_not_mem_components (by decide), edgeLength_not_mem_components (by decide)⟩

/-- The ratio of the edge is no coordinate of an end. -/
theorem isFree_edgeRatio : stencil.IsFree edgeRatio :=
  ⟨edgeRatio_not_mem_components (by decide), edgeRatio_not_mem_components (by decide)⟩

/-- The value at the first end is no coordinate of an end. -/
theorem isFree_firstValue : stencil.IsFree (firstValue stencil.field) :=
  ⟨firstValue_not_mem_components _ (by decide), firstValue_not_mem_components _ (by decide)⟩

/-- The value at the second end is no coordinate of an end. -/
theorem isFree_secondValue : stencil.IsFree (secondValue stencil.field) :=
  ⟨secondValue_not_mem_components _ (by decide), secondValue_not_mem_components _ (by decide)⟩

end Free

/-- What an integrand may ask of the field: its value and its normal derivative at the generic
point. -/
def IsSample (stencil : Stencil) (head : Head) (args : List Expr) : Prop :=
  (head = .named stencil.field.name ∧ args = [stencil.position]) ∨
    (head = .normalDerivative ∧ args = [stencil.field.valueAt stencil.position])

/-- The integrands on a facet: scalar expressions that sample the field at the generic point. -/
abbrev FacetIntegrand (stencil : Stencil) (e : Expr) : Prop :=
  Scalar stencil.IsFree stencil.IsSample e

/-- A sample of the field at one of some positions, which are given by the symbols of their
components. -/
def SamplesAt (stencil : Stencil) (positions : List (List String)) (head : Head)
    (args : List Expr) : Prop :=
  head = .named stencil.field.name ∧ ∃ names ∈ positions, args = [vectorOf names]

/-- Where a localized integrand samples the field: at the endpoints and at the generic point. -/
def localPositions (stencil : Stencil) : List (List String) :=
  [stencil.firstSymbols, stencil.secondSymbols, stencil.coordSymbols]

variable {K : Type*} [Field K]

/-- Before localization normal derivatives are read as difference quotients afterwards. All else is
read as before, but functions only have to agree on some values. -/
structure Localizes (stencil : Stencil) (seen : K → Prop) (before after : Interpretation K) :
    Prop where
  symbol : ∀ name, stencil.IsFree name → after.symbol name = before.symbol name
  call : ∀ name value, seen value →
    after.call (.named name) [value] = before.call (.named name) [value]
  sample : (stencil.field.valueAt stencil.position).valueIn after =
    (stencil.field.valueAt stencil.position).valueIn before
  length : after.symbol edgeLength ≠ 0
  derivative : ((stencil.field.valueAt stencil.second).valueIn after -
      (stencil.field.valueAt stencil.first).valueIn after) / after.symbol edgeLength =
    (Expr.call .normalDerivative [stencil.field.valueAt stencil.position]).valueIn before

/-- A localized expression: what it is made of, and its value. -/
structure Localized (stencil : Stencil) (positions : List (List String)) (after : Interpretation K)
    (value : K) (result : Expr) : Prop where
  scalar : Scalar stencil.IsFree (stencil.SamplesAt positions) result
  sound : result.Sound after
  value : result.valueIn after = value

variable {stencil : Stencil} {seen : K → Prop} {before after : Interpretation K}
  {positions : List (List String)}

/-- A number is localized as it is. -/
theorem localized_num (value : Rat) :
    stencil.Localized positions after (value : K) (.num value) where
  scalar := .num value
  sound := (hereditary_sound after).num value
  value := valueIn_num value

/-- A symbol that is no coordinate of an end is localized as it is. -/
theorem localized_sym {name : String} (free : stencil.IsFree name) :
    stencil.Localized positions after (after.symbol name) (.sym name) where
  scalar := .sym free
  sound := sound_sym name
  value := valueIn_sym name

section Operations

variable [CharZero K] {left right result : Expr} {leftValue rightValue : K}

/-- A sum of localized expressions is localized. -/
theorem Localized.sum (first : stencil.Localized positions after leftValue left)
    (second : stencil.Localized positions after rightValue right) :
    stencil.Localized positions after (leftValue + rightValue) (Expr.sum [left, right]) where
  scalar := hereditary_scalar.sum (forall_mem_pair ⟨first.scalar, second.scalar⟩)
  sound := (hereditary_sound after).sum (forall_mem_pair ⟨first.sound, second.sound⟩)
  value := by
    rw [valueIn_sum]
    simp [first.value, second.value]

/-- A product of localized expressions is localized. -/
theorem Localized.prod (first : stencil.Localized positions after leftValue left)
    (second : stencil.Localized positions after rightValue right)
    (formed : Expr.prod [left, right] = some result) :
    stencil.Localized positions after (leftValue * rightValue) result where
  scalar := hereditary_scalar.prod formed (forall_mem_pair ⟨first.scalar, second.scalar⟩)
  sound := (hereditary_sound after).prod formed (forall_mem_pair ⟨first.sound, second.sound⟩)
  value := by
    rw [valueIn_prod formed (forall_mem_pair ⟨first.sound.1, second.sound.1⟩)]
    simp [first.value, second.value]

/-- A power of a localized expression is localized unless it inverts zero. -/
theorem Localized.power {exponent : Exponent}
    (base : stencil.Localized positions after leftValue left)
    (nonzero : exponent.val < 0 → leftValue ≠ 0)
    (formed : Expr.power left exponent = some result) :
    stencil.Localized positions after (leftValue ^ exponent.val) result where
  scalar := hereditary_scalar.power formed base.scalar fun _ => trivial
  sound := (hereditary_sound after).power formed base.sound (base.value ▸ nonzero)
  value := by
    rw [valueIn_power formed base.sound.1 (base.value ▸ nonzero), base.value]

/-- A difference of localized expressions is localized. -/
theorem Localized.sub (first : stencil.Localized positions after leftValue left)
    (second : stencil.Localized positions after rightValue right)
    (formed : Expr.sub left right = some result) :
    stencil.Localized positions after (leftValue - rightValue) result where
  scalar := hereditary_scalar.sub formed first.scalar second.scalar
  sound := (hereditary_sound after).sub formed first.sound second.sound
  value := by
    rw [valueIn_sub formed second.sound.1, first.value, second.value]

/-- A quotient of localized expressions is localized if the divisor has a value other than zero. -/
theorem Localized.quot (first : stencil.Localized positions after leftValue left)
    (second : stencil.Localized positions after rightValue right) (nonzero : rightValue ≠ 0)
    (formed : Expr.quot left right = some result) :
    stencil.Localized positions after (leftValue / rightValue) result where
  scalar := hereditary_scalar.quot formed first.scalar second.scalar trivial
  sound := (hereditary_sound after).quot formed first.sound second.sound (second.value ▸ nonzero)
  value := by
    rw [valueIn_quot formed first.sound.1 second.sound.1 (second.value ▸ nonzero), first.value,
      second.value]

end Operations

/-- A vector of symbols is sound. -/
theorem sound_vectorOf (names : List String) : (vectorOf names).Sound after :=
  sound_vector fun e member => by
    obtain ⟨name, -, rfl⟩ := List.mem_map.mp member
    exact sound_sym name

/-- The sample of the field at the generic point is sound. -/
theorem sound_sample : (stencil.field.sample stencil.point).Sound after :=
  sound_call (by simp) (List.forall_mem_singleton.mpr (sound_vectorOf stencil.coordSymbols))

/-- A sample of the field where the localized integrand may take one. -/
theorem localized_sample {names : List String} (isLocal : names ∈ positions) :
    stencil.Localized positions after ((stencil.field.valueAt (vectorOf names)).valueIn after)
      (stencil.field.valueAt (vectorOf names)) where
  scalar := .sample ⟨rfl, names, isLocal, rfl⟩
  sound := sound_call (by simp) (List.forall_mem_singleton.mpr (sound_vectorOf names))
  value := rfl

section Calls

/-- Localized components have an inner product with the value of the original one. -/
theorem localized_dot {left right left' right' : List Expr}
    (sameLength : left.length = right.length)
    (lefts : List.Forall₂ (fun e result =>
      stencil.Localized positions after (e.valueIn before) result) left left')
    (rights : List.Forall₂ (fun e result =>
      stencil.Localized positions after (e.valueIn before) result) right right') :
    stencil.Localized positions after
      ((Expr.call .dot [.vector left, .vector right]).valueIn before)
      (.call .dot [.vector left', .vector right']) := by
  have values : ∀ {es results : List Expr}, List.Forall₂ (fun e result =>
      stencil.Localized positions after (e.valueIn before) result) es results →
      results.map (valueIn after) = es.map (valueIn before) :=
    fun localized => map_eq_of_forall₂ (localized.imp fun _ _ => Localized.value)
  have each : ∀ {es results : List Expr}, List.Forall₂ (fun e result =>
      stencil.Localized positions after (e.valueIn before) result) es results →
      ∀ result ∈ results, ∃ value, stencil.Localized positions after value result := by
    intro es results localized result present
    obtain ⟨e, -, localized⟩ := exists_mem_zip_of_forall₂ localized.flip present
    exact ⟨e.valueIn before, localized⟩
  obtain ⟨sameLength', value⟩ := valueIn_dot_congr sameLength (values lefts) (values rights)
  refine ⟨.dot sameLength' (fun e member => ?_) (fun e member => ?_),
    sound_dot sameLength' (forall_mem_pair
      ⟨sound_vector fun e member => ?_, sound_vector fun e member => ?_⟩), value⟩
  · exact (each lefts e member).choose_spec.scalar
  · exact (each rights e member).choose_spec.scalar
  · exact (each lefts e member).choose_spec.sound
  · exact (each rights e member).choose_spec.sound

/-- A function of a localized argument has the value that it had before, if it is read there as
before. -/
theorem localized_apply {name : String} {arg localized : Expr}
    (operand : stencil.Localized positions after (arg.valueIn before) localized)
    (agrees : after.call (.named name) [arg.valueIn before] =
      before.call (.named name) [arg.valueIn before]) :
    stencil.Localized positions after ((Expr.call (.named name) [arg]).valueIn before)
      (.call (.named name) [localized]) where
  scalar := .call name operand.scalar
  sound := sound_call (by simp) (List.forall_mem_singleton.mpr operand.sound)
  value := by
    rw [valueIn_call_of_ne (by simp), valueIn_call_of_ne (by simp), List.map_singleton,
      List.map_singleton, operand.value, agrees]

variable [CharZero K]

/-- The difference quotient of the field has the value that its normal derivative is read as. -/
theorem localized_differenceQuotient (localizes : stencil.Localizes seen before after)
    {result : Expr}
    (formed : stencil.differenceQuotient [stencil.field.valueAt stencil.position] = .ok result) :
    stencil.Localized stencil.localPositions after
      ((Expr.call .normalDerivative [stencil.field.valueAt stencil.position]).valueIn before)
      result := by
  obtain ⟨difference, subtracts, divides⟩ := exists_of_differenceQuotient_valueAt formed
  have length : stencil.Localized stencil.localPositions after (after.symbol edgeLength)
      (.sym edgeLength) := localized_sym isFree_edgeLength
  have atSecond : stencil.Localized stencil.localPositions after
      ((stencil.field.valueAt stencil.second).valueIn after)
      (stencil.field.valueAt stencil.second) := localized_sample (by simp [localPositions])
  have atFirst : stencil.Localized stencil.localPositions after
      ((stencil.field.valueAt stencil.first).valueIn after)
      (stencil.field.valueAt stencil.first) := localized_sample (by simp [localPositions])
  rw [← localizes.derivative]
  exact (atSecond.sub atFirst subtracts).quot length localizes.length divides

end Calls

/-- An integrand with a value, on whose parts functions are read as before. -/
structure Evaluates (stencil : Stencil) (seen : K → Prop) (before : Interpretation K) (e : Expr) :
    Prop where
  scalar : stencil.FacetIntegrand e
  defined : e.Defined before
  occurs : ∀ arg ∈ e.args, ∀ subterm ∈ arg.subterms, seen (subterm.valueIn before)

/-- The scalar children of an integrand with a value have one too. -/
theorem Evaluates.arg {e arg : Expr} (evaluates : stencil.Evaluates seen before e)
    (member : arg ∈ e.args) (scalar : stencil.FacetIntegrand arg) :
    stencil.Evaluates seen before arg where
  scalar := scalar
  defined := evaluates.defined.arg member
  occurs _ inner subterm inside :=
    evaluates.occurs arg member subterm (mem_subterms_of_arg inner inside)

/-- Vectors are no integrands, so the components of operands are reached in one step. -/
theorem Evaluates.component {e operand component : Expr}
    (evaluates : stencil.Evaluates seen before e) (inArgs : operand ∈ e.args)
    (member : component ∈ operand.args) (scalar : stencil.FacetIntegrand component) :
    stencil.Evaluates seen before component where
  scalar := scalar
  defined := (evaluates.defined.arg inArgs).arg member
  occurs _ inner subterm inside :=
    evaluates.occurs operand inArgs subterm
      (mem_subterms_of_arg member (mem_subterms_of_arg inner inside))

/-- A sum with a value consists of the sum of the terms before the last one, and that term. -/
theorem Evaluates.add_concat {terms : List Expr} {term : Expr}
    (evaluates : stencil.Evaluates seen before (.add (terms ++ [term]))) :
    stencil.Evaluates seen before (.add terms) ∧ stencil.Evaluates seen before term := by
  obtain ⟨scalarTerms, scalarLast⟩ :=
    (hereditary_scalar.add_concat_iff terms term).mp evaluates.scalar
  obtain ⟨definedTerms, -⟩ :=
    ((hereditary_defined before).add_concat_iff terms term).mp evaluates.defined
  exact ⟨⟨scalarTerms, definedTerms, fun arg member =>
    evaluates.occurs arg (List.mem_append_left _ member)⟩,
    evaluates.arg (List.mem_append_right terms List.mem_cons_self) scalarLast⟩

/-- A product with a value consists of the product of the factors before the last one, and that
factor. -/
theorem Evaluates.mul_concat {factors : List Expr} {factor : Expr}
    (evaluates : stencil.Evaluates seen before (.mul (factors ++ [factor]))) :
    stencil.Evaluates seen before (.mul factors) ∧ stencil.Evaluates seen before factor := by
  obtain ⟨scalarFactors, scalarLast⟩ :=
    (hereditary_scalar.mul_concat_iff factors factor).mp evaluates.scalar
  obtain ⟨definedFactors, -⟩ :=
    ((hereditary_defined before).mul_concat_iff factors factor).mp evaluates.defined
  exact ⟨⟨scalarFactors, definedFactors, fun arg member =>
    evaluates.occurs arg (List.mem_append_left _ member)⟩,
    evaluates.arg (List.mem_append_right factors List.mem_cons_self) scalarLast⟩

variable [CharZero K]

/-- A localized integrand has the value of the integrand, read with difference quotients for its
normal derivatives. -/
theorem localized_of_localize (localizes : stencil.Localizes seen before after) {e result : Expr}
    (integrand : stencil.FacetIntegrand e) (defined : e.Defined before)
    (occurs : ∀ subterm ∈ e.subterms, seen (subterm.valueIn before))
    (formed : stencil.localize e = .ok result) :
    stencil.Localized stencil.localPositions after (e.valueIn before) result := by
  have evaluates : stencil.Evaluates seen before e := ⟨integrand, defined,
    fun _ member subterm inside => occurs subterm (mem_subterms_of_arg member inside)⟩
  refine localize_induction (motive := fun e result => stencil.Evaluates seen before e →
      stencil.Localized stencil.localPositions after (e.valueIn before) result)
    ?num ?sym ?add ?addNext ?mul ?mulNext ?pow ?vector ?dot ?derivative ?call formed evaluates
  case num =>
    intro value _
    rw [valueIn_num]
    exact localized_num value
  case sym =>
    intro name evaluates
    cases evaluates.scalar with
    | sym allowed =>
      rw [valueIn_sym, ← localizes.symbol name allowed]
      exact localized_sym allowed
  case add =>
    intro term result localized evaluates
    have scalar := (hereditary_scalar.add_singleton_iff term).mp evaluates.scalar
    rw [valueIn_add, List.map_singleton, List.sum_singleton]
    exact localized (evaluates.arg List.mem_cons_self scalar)
  case addNext =>
    intro terms term left right _ first next evaluates
    obtain ⟨evaluatesTerms, evaluatesLast⟩ := evaluates.add_concat
    rw [valueIn_add_concat]
    exact (first evaluatesTerms).sum (next evaluatesLast)
  case mul =>
    intro factor result localized evaluates
    have scalar := (hereditary_scalar.mul_singleton_iff factor).mp evaluates.scalar
    rw [valueIn_mul, List.map_singleton, List.prod_singleton]
    exact localized (evaluates.arg List.mem_cons_self scalar)
  case mulNext =>
    intro factors factor left right result _ first next multiplied evaluates
    obtain ⟨evaluatesFactors, evaluatesLast⟩ := evaluates.mul_concat
    rw [valueIn_mul_concat]
    exact (first evaluatesFactors).prod (next evaluatesLast) multiplied
  case pow =>
    intro base exponent inner result _ localized powered evaluates
    obtain ⟨scalar, -⟩ := (hereditary_scalar.pow_iff base exponent).mp evaluates.scalar
    obtain ⟨-, nonzero⟩ := ((hereditary_defined before).pow_iff base exponent).mp evaluates.defined
    rw [valueIn_pow]
    exact (localized (evaluates.arg (List.mem_singleton_self base) scalar)).power nonzero powered
  case vector => exact fun _ _ _ evaluates => nomatch evaluates.scalar
  case dot =>
    intro left right left' right' eachLeft eachRight evaluates
    cases evaluates.scalar with
    | dot sameLength scalarsLeft scalarsRight =>
      have evaluatesLeft : ∀ e ∈ left, stencil.Evaluates seen before e := fun e member =>
        evaluates.component List.mem_cons_self member (scalarsLeft e member)
      have evaluatesRight : ∀ e ∈ right, stencil.Evaluates seen before e := fun e member =>
        evaluates.component (List.mem_cons_of_mem _ List.mem_cons_self) member
          (scalarsRight e member)
      exact localized_dot sameLength (forall₂_of_forall_mem evaluatesLeft eachLeft)
        (forall₂_of_forall_mem evaluatesRight eachRight)
    | sample isSample => obtain ⟨same, -⟩ | ⟨same, -⟩ := isSample <;> cases same
  case derivative =>
    intro args result formed evaluates
    cases evaluates.scalar with
    | sample isSample =>
      obtain ⟨same, -⟩ | ⟨-, rfl⟩ := isSample
      · cases same
      · exact localized_differenceQuotient localizes formed
  case call =>
    intro name arg result formed localized evaluates
    cases evaluates.scalar with
    | call _ scalar =>
      have seenArg := evaluates.occurs arg (List.mem_singleton_self arg) arg (self_mem_subterms arg)
      exact localized_apply (localized (evaluates.arg (List.mem_singleton_self arg) scalar))
        (localizes.call name _ seenArg)
    | sample isSample =>
      obtain ⟨isField, same⟩ | ⟨same, -⟩ := isSample
      · cases isField
        cases same
        rw [Stencil.position, localize_vectorOf] at formed
        cases formed
        exact localizes.sample ▸ localized_sample (by simp [localPositions])
      · cases same

end FiniteVolume.Stencil
