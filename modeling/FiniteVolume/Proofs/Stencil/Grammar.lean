import FiniteVolume.Proofs.Rejection
import FiniteVolume.Proofs.Stencil.Localization
import FiniteVolume.Proofs.Stencil.Rebuilding

/-!
# The grammar of integrands on a facet

Localization accepts an expression exactly if every construct outside of its normal derivatives has
the operands that it needs (`Stencil.Localizable`), and rejects any other as not supported. What it
leads to has no normal derivatives, and has the value of the expression with difference quotients
along the edge in their place (`localize_grammar`).
-/

namespace FiniteVolume

namespace Expr

/-- The children of a node, but none of a normal derivative. -/
def outerArgs : Expr → List Expr
  | .call .normalDerivative _ => []
  | e => e.args

mutual

/-- All subtrees that are not inside a normal derivative. -/
def outerSubterms : Expr → List Expr
  | .num value => [.num value]
  | .sym name => [.sym name]
  | .add terms => .add terms :: outerSubtermsOfAll terms
  | .mul factors => .mul factors :: outerSubtermsOfAll factors
  | .pow base exponent => .pow base exponent :: base.outerSubterms
  | .vector components => .vector components :: outerSubtermsOfAll components
  | .call .normalDerivative args => [.call .normalDerivative args]
  | .call head args => .call head args :: outerSubtermsOfAll args

/-- The subtrees of every expression of a list that are not inside a normal derivative. -/
def outerSubtermsOfAll : List Expr → List Expr
  | [] => []
  | e :: rest => e.outerSubterms ++ outerSubtermsOfAll rest

end

/-- The outer subtrees of several trees are those of each tree. -/
theorem outerSubtermsOfAll_eq_flatMap (es : List Expr) :
    outerSubtermsOfAll es = es.flatMap outerSubterms := by
  induction es with
  | nil => rfl
  | cons e rest ih => rw [outerSubtermsOfAll, ih, List.flatMap_cons]

/-- The outer subtrees of a tree are the tree and those of its outer children. -/
theorem outerSubterms_eq_cons (e : Expr) :
    e.outerSubterms = e :: e.outerArgs.flatMap outerSubterms := by
  cases e with
  | call head es =>
    cases head <;> simp [outerSubterms, outerArgs, args, outerSubtermsOfAll_eq_flatMap]
  | _ => simp [outerSubterms, outerArgs, args, outerSubtermsOfAll_eq_flatMap]

/-- A statement about all subtrees outside of normal derivatives is one about the tree itself and
those of its children. -/
theorem forall_outerSubterms_iff (property : Expr → Prop) {e : Expr} :
    (∀ node ∈ e.outerSubterms, property node) ↔
      property e ∧ ∀ arg ∈ e.outerArgs, ∀ node ∈ arg.outerSubterms, property node := by
  rw [outerSubterms_eq_cons, List.forall_mem_cons, List.forall_mem_flatMap]

/-- No normal derivative occurs in the expression. -/
def Underived (e : Expr) : Prop :=
  ∀ node ∈ e.subterms, ∀ args, node ≠ .call .normalDerivative args

/-- A tree has no normal derivative if it is none and its children have none. -/
theorem underived_iff {e : Expr} :
    e.Underived ↔ (∀ args, e ≠ .call .normalDerivative args) ∧ ∀ arg ∈ e.args, arg.Underived :=
  forall_subterms_iff _

/-- Sums, products and powers bring in no normal derivatives. -/
theorem hereditary_underived : Hereditary Underived fun _ => True :=
  .ofNodes _ (fun _ => by simp) (fun _ => by simp) (fun _ => by simp) fun _ _ => by simp

variable {K : Type*} [Field K] {reading : Interpretation K}

/-- A tree has the value of an expression wherever the expression is defined. -/
def SharesValue (reading : Interpretation K) (e result : Expr) : Prop :=
  e.Defined reading → result.Defined reading ∧ result.valueIn reading = e.valueIn reading

theorem sharesValue_refl (e : Expr) : SharesValue reading e e :=
  fun defined => ⟨defined, rfl⟩

/-- Only powers are undefined of themselves. -/
theorem defined_of_args {e : Expr} (notPow : ∀ base exponent, e ≠ .pow base exponent)
    (defined : ∀ arg ∈ e.args, arg.Defined reading) : e.Defined reading :=
  negativeBases_iff.mpr ⟨fun base exponent same => absurd same (notPow base exponent), defined⟩

/-- Trees with the values of defined expressions are defined, and their values are the same. -/
theorem SharesValue.all {es results : List Expr}
    (share : List.Forall₂ (SharesValue reading) es results)
    (defined : ∀ e ∈ es, e.Defined reading) :
    (∀ result ∈ results, result.Defined reading) ∧
      results.map (valueIn reading) = es.map (valueIn reading) := by
  have both := forall₂_of_forall_mem defined share
  exact ⟨forall_mem_of_forall₂ (both.imp fun _ _ => And.left).flip,
    map_eq_of_forall₂ (both.imp fun _ _ => And.right)⟩

/-- A vector shares its value if its components do. -/
theorem SharesValue.vector {components results : List Expr}
    (share : List.Forall₂ (SharesValue reading) components results) :
    SharesValue reading (.vector components) (.vector results) := by
  intro defined
  obtain ⟨definedResults, values⟩ := SharesValue.all share fun _ member => defined.arg member
  exact ⟨defined_of_args (by simp) definedResults, by rw [valueIn_vector, values, valueIn_vector]⟩

/-- Operands with the same components have the same inner product, whether they are equally long or
not. -/
theorem SharesValue.dot {left right left' right' : List Expr}
    (shareLeft : List.Forall₂ (SharesValue reading) left left')
    (shareRight : List.Forall₂ (SharesValue reading) right right') :
    SharesValue reading (.call .dot [.vector left, .vector right])
      (.call .dot [.vector left', .vector right']) := by
  intro defined
  have definedLeft : (Expr.vector left).Defined reading := defined.arg (by simp [args])
  have definedRight : (Expr.vector right).Defined reading := defined.arg (by simp [args])
  obtain ⟨definedLeft', valuesLeft⟩ :=
    SharesValue.all shareLeft fun _ member => definedLeft.arg member
  obtain ⟨definedRight', valuesRight⟩ :=
    SharesValue.all shareRight fun _ member => definedRight.arg member
  refine ⟨defined_of_args (by simp) (forall_mem_pair
    ⟨defined_of_args (by simp) definedLeft', defined_of_args (by simp) definedRight'⟩), ?_⟩
  rw [valueIn, valueIn, valuesIn_eq_map, valuesIn_eq_map, valuesIn_eq_map, valuesIn_eq_map,
    valuesLeft, valuesRight, shareLeft.length_eq, shareRight.length_eq]

/-- A function shares its value if its argument does. -/
theorem SharesValue.call {name : String} {arg result : Expr}
    (shares : SharesValue reading arg result) :
    SharesValue reading (.call (.named name) [arg]) (.call (.named name) [result]) := by
  intro defined
  obtain ⟨definedResult, value⟩ := shares (defined.arg (List.mem_singleton_self arg))
  refine ⟨defined_of_args (by simp) (List.forall_mem_singleton.mpr definedResult), ?_⟩
  rw [valueIn_call_of_ne (by simp), valueIn_call_of_ne (by simp), List.map_singleton,
    List.map_singleton, value]

/-- A sum of one term has the value of the term. -/
theorem SharesValue.single_add {term result : Expr} (shares : SharesValue reading term result) :
    SharesValue reading (.add [term]) result := by
  intro defined
  obtain ⟨definedResult, value⟩ :=
    shares (((hereditary_defined reading).add_singleton_iff term).mp defined)
  exact ⟨definedResult, by simp [valueIn_add, value]⟩

/-- A product of one factor has the value of the factor. -/
theorem SharesValue.single_mul {factor result : Expr} (shares : SharesValue reading factor result) :
    SharesValue reading (.mul [factor]) result := by
  intro defined
  obtain ⟨definedResult, value⟩ :=
    shares (((hereditary_defined reading).mul_singleton_iff factor).mp defined)
  exact ⟨definedResult, by simp [valueIn_mul, value]⟩

variable [CharZero K]

/-- One more term is added to a sum that shares its value. -/
theorem SharesValue.add {terms : List Expr} {term left right : Expr}
    (first : SharesValue reading (.add terms) left) (next : SharesValue reading term right) :
    SharesValue reading (.add (terms ++ [term])) (sum [left, right]) := by
  intro defined
  have hereditary := hereditary_defined reading
  obtain ⟨definedTerms, definedTerm⟩ := (hereditary.add_concat_iff terms term).mp defined
  obtain ⟨definedLeft, valueLeft⟩ := first definedTerms
  obtain ⟨definedRight, valueRight⟩ := next definedTerm
  refine ⟨hereditary.sum (forall_mem_pair ⟨definedLeft, definedRight⟩), ?_⟩
  simp [valueIn_sum, valueIn_add_concat, valueLeft, valueRight]

/-- One more factor is multiplied to a product that shares its value. -/
theorem SharesValue.mul {factors : List Expr} {factor left right result : Expr}
    (first : SharesValue reading (.mul factors) left) (next : SharesValue reading factor right)
    (formed : prod [left, right] = some result) :
    SharesValue reading (.mul (factors ++ [factor])) result := by
  intro defined
  have hereditary := hereditary_defined reading
  obtain ⟨definedFactors, definedFactor⟩ := (hereditary.mul_concat_iff factors factor).mp defined
  obtain ⟨definedLeft, valueLeft⟩ := first definedFactors
  obtain ⟨definedRight, valueRight⟩ := next definedFactor
  have definedPair := forall_mem_pair ⟨definedLeft, definedRight⟩
  refine ⟨hereditary.prod formed definedPair, ?_⟩
  simp [valueIn_prod formed definedPair, valueIn_mul_concat, valueLeft, valueRight]

/-- A power shares its value if its base does. -/
theorem SharesValue.pow {base inner result : Expr} {exponent : Exponent}
    (shares : SharesValue reading base inner) (formed : power inner exponent = some result) :
    SharesValue reading (.pow base exponent) result := by
  intro defined
  have hereditary := hereditary_defined reading
  obtain ⟨definedBase, nonzero⟩ := (hereditary.pow_iff base exponent).mp defined
  obtain ⟨definedInner, value⟩ := shares definedBase
  rw [← value] at nonzero
  exact ⟨hereditary.power formed definedInner nonzero,
    by rw [valueIn_power formed definedInner nonzero, value, valueIn_pow]⟩

end Expr

namespace Stencil

open FiniteVolume.Expr Outcome

variable {stencil : Stencil} {e result : Expr}

/-- The operands that localization asks of a node: a term or factor at least, two vectors for an
inner product, a field at the generic point for a normal derivative and one argument for any other
call. -/
def LocalizableNode (stencil : Stencil) : Expr → Prop
  | .add terms => terms ≠ []
  | .mul factors => factors ≠ []
  | .call .dot args => ∃ left right, args = [.vector left, .vector right]
  | .call .normalDerivative args => ∃ name, args = [.call (.named name) [stencil.position]]
  | .call (.named _) args => ∃ arg, args = [arg]
  | .num _ | .sym _ | .pow _ _ | .vector _ => True

/-- Every node that is not inside a normal derivative has the operands that it needs. -/
def Localizable (stencil : Stencil) (e : Expr) : Prop :=
  ∀ node ∈ e.outerSubterms, stencil.LocalizableNode node

/-- An expression is localizable if its root and its outer children are. -/
theorem localizable_iff : stencil.Localizable e ↔
    stencil.LocalizableNode e ∧ ∀ arg ∈ e.outerArgs, stencil.Localizable arg :=
  forall_outerSubterms_iff _

/-- Every construct that is localized has its operands. -/
theorem localizable_of_localize (formed : stencil.localize e = .ok result) :
    stencil.Localizable e := by
  refine localize_induction (motive := fun e _ => stencil.Localizable e) ?num ?sym ?add ?addNext
    ?mul ?mulNext ?pow ?vector ?dot ?derivative ?call formed
  case num => exact fun value => localizable_iff.mpr ⟨trivial, List.forall_mem_nil _⟩
  case sym => exact fun name => localizable_iff.mpr ⟨trivial, List.forall_mem_nil _⟩
  case add =>
    intro term _ localizable
    exact localizable_iff.mpr ⟨List.cons_ne_nil _ _, List.forall_mem_singleton.mpr localizable⟩
  case addNext =>
    intro terms term _ _ _ first next
    exact localizable_iff.mpr ⟨by simp [LocalizableNode], List.forall_mem_append.mpr
      ⟨(localizable_iff.mp first).2, List.forall_mem_singleton.mpr next⟩⟩
  case mul =>
    intro factor _ localizable
    exact localizable_iff.mpr ⟨List.cons_ne_nil _ _, List.forall_mem_singleton.mpr localizable⟩
  case mulNext =>
    intro factors factor _ _ _ _ first next _
    exact localizable_iff.mpr ⟨by simp [LocalizableNode], List.forall_mem_append.mpr
      ⟨(localizable_iff.mp first).2, List.forall_mem_singleton.mpr next⟩⟩
  case pow =>
    intro base exponent _ _ _ localizable _
    exact localizable_iff.mpr ⟨trivial, List.forall_mem_singleton.mpr localizable⟩
  case vector =>
    intro components _ each
    exact localizable_iff.mpr ⟨trivial, forall_mem_of_forall₂ each⟩
  case dot =>
    intro left right _ _ eachLeft eachRight
    exact localizable_iff.mpr ⟨⟨left, right, rfl⟩, forall_mem_pair
      ⟨localizable_iff.mpr ⟨trivial, forall_mem_of_forall₂ eachLeft⟩,
        localizable_iff.mpr ⟨trivial, forall_mem_of_forall₂ eachRight⟩⟩⟩
  case derivative =>
    intro args _ formed
    obtain ⟨field, _, isValue, -⟩ := differenceQuotient_cases formed
    exact localizable_iff.mpr ⟨⟨field.name, isValue⟩, List.forall_mem_nil _⟩
  case call =>
    intro name arg _ _ localizable
    exact localizable_iff.mpr ⟨⟨arg, rfl⟩, List.forall_mem_singleton.mpr localizable⟩

section Errors

variable {kind : Error → Prop} {es : List Expr}

/-- Localizing several expressions fails as one of them does. -/
theorem errorsAre_localizeAll (each : ∀ e ∈ es, (stencil.localize e).ErrorsAre kind) :
    (stencil.localizeAll es).ErrorsAre kind := by
  induction es with
  | nil => exact errorsAre_ok _
  | cons e rest ih =>
    obtain ⟨first, later⟩ := List.forall_mem_cons.mp each
    exact first.bind fun _ _ => (ih later).bind fun _ _ => errorsAre_ok _

/-- Localizing a sum or a product step by step fails as one of its operands does. -/
theorem errorsAre_localizeChain {join : Expr → Expr → Option Expr} {start : Expr}
    (each : ∀ e ∈ es, (stencil.localize e).ErrorsAre kind) :
    (stencil.localizeChain join start es).ErrorsAre kind := by
  induction es generalizing start with
  | nil => exact errorsAre_ok _
  | cons e rest ih =>
    obtain ⟨first, later⟩ := List.forall_mem_cons.mp each
    exact first.bind fun _ _ => (errorsAre_ofPower? _).bind fun _ _ => ih later

/-- A construct is rejected where it does not have its operands. -/
theorem errorsAre_reject {α : Type} {e construct : Expr} {reason : Unsupported}
    (malformed : ¬stencil.LocalizableNode e) :
    (construct.reject reason : Outcome α).ErrorsAre fun error =>
      error.IsUnsupported ∧ ¬stencil.Localizable e :=
  (rejectsAs_reject construct reason).errors.imp fun _ unsupported =>
    ⟨unsupported, fun localizable => malformed (localizable_iff.mp localizable).1⟩

/-- A difference quotient fails only where the normal derivative is of no field. -/
theorem errorsAre_differenceQuotient (args : List Expr) :
    (stencil.differenceQuotient args).ErrorsAre fun error =>
      error.IsUnsupported ∧ ¬stencil.Localizable (.call .normalDerivative args) := by
  unfold differenceQuotient
  split
  · split
    · exact errorsAre_ofPower? _
    · rename_i elsewhere
      refine errorsAre_reject ?_
      rintro ⟨_, same⟩
      cases same
      exact elsewhere rfl
  · rename_i several
    refine errorsAre_reject ?_
    rintro ⟨_, same⟩
    cases same
    exact several _ rfl
  · rename_i other
    refine errorsAre_reject ?_
    rintro ⟨_, rfl⟩
    exact other _ _ rfl

/-- All reasons against localizing an expression are constructs that are not supported, and there is
none if every construct has its operands. -/
theorem errorsAre_localize (e : Expr) :
    (stencil.localize e).ErrorsAre fun error =>
      error.IsUnsupported ∧ ¬stencil.Localizable e := by
  -- What cannot be localized inside an expression keeps the expression from being localized.
  have operand : ∀ {α : Type} {outcome : Outcome α} {e arg : Expr}, arg ∈ e.outerArgs →
      outcome.ErrorsAre (fun error => error.IsUnsupported ∧ ¬stencil.Localizable arg) →
      outcome.ErrorsAre fun error => error.IsUnsupported ∧ ¬stencil.Localizable e :=
    fun member errors => errors.imp fun _ reason =>
      ⟨reason.1, fun localizable => reason.2 ((localizable_iff.mp localizable).2 _ member)⟩
  induction e with
  | num value | sym name => exact errorsAre_ok _
  | add terms ih =>
    have operands := fun term member => operand (e := .add terms) member (ih term member)
    cases terms with
    | nil => exact errorsAre_reject fun nonempty => nonempty rfl
    | cons term rest =>
      obtain ⟨first, later⟩ := List.forall_mem_cons.mp operands
      exact first.bind fun _ _ => errorsAre_localizeChain later
  | mul factors ih =>
    have operands := fun factor member => operand (e := .mul factors) member (ih factor member)
    cases factors with
    | nil => exact errorsAre_reject fun nonempty => nonempty rfl
    | cons factor rest =>
      obtain ⟨first, later⟩ := List.forall_mem_cons.mp operands
      exact first.bind fun _ _ => errorsAre_localizeChain later
  | pow base exponent ih =>
    exact (operand (e := .pow base exponent) (List.mem_singleton_self base) ih).bind fun _ _ =>
      errorsAre_ofPower? _
  | vector components ih =>
    exact (errorsAre_localizeAll fun e member =>
      operand (e := .vector components) member (ih e member)).bind fun _ _ => errorsAre_ok _
  | call head args ih =>
    -- The operands of an inner product are not localized as vectors, but component by component.
    have ofVector : ∀ {components : List Expr} {kind : Error → Prop},
        (stencil.localize (.vector components)).ErrorsAre kind →
        (stencil.localizeAll components).ErrorsAre kind := by
      intro components kind errors failure fails
      refine errors failure ?_
      rw [localize, fails]
      rfl
    unfold localize
    split <;> rename_i same <;> cases same
    · rename_i left right
      have operands := fun arg member =>
        operand (e := .call .dot [.vector left, .vector right]) member (ih arg member)
      exact (ofVector (operands (.vector left) List.mem_cons_self)).bind fun _ _ =>
        (ofVector (operands (.vector right) (List.mem_cons_of_mem _ List.mem_cons_self))).bind
          fun _ _ => errorsAre_ok _
    · rename_i other
      refine errorsAre_reject ?_
      rintro ⟨left, right, rfl⟩
      exact other left right rfl
    · exact errorsAre_differenceQuotient args
    · rename_i name arg
      exact (operand (e := .call (.named name) [arg]) List.mem_cons_self
        (ih arg List.mem_cons_self)).bind fun _ _ => errorsAre_ok _
    · rename_i other
      refine errorsAre_reject ?_
      rintro ⟨arg, rfl⟩
      exact other arg rfl

end Errors

/-- Localized expressions have no normal derivatives. -/
theorem underived_of_localize (formed : stencil.localize e = .ok result) : result.Underived := by
  have hereditary := hereditary_underived
  have leaf : ∀ {e : Expr}, (∀ args, e ≠ .call .normalDerivative args) →
      (∀ arg ∈ e.args, arg.Underived) → e.Underived :=
    fun other underived => underived_iff.mpr ⟨other, underived⟩
  have vector : ∀ {es results : List Expr},
      List.Forall₂ (fun _ result : Expr => result.Underived) es results →
      (Expr.vector results).Underived :=
    fun each => leaf (by simp) (forall_mem_of_forall₂ each.flip)
  refine localize_induction (motive := fun _ result => result.Underived) hereditary.num ?sym
    (fun _ _ => id) ?addNext (fun _ _ => id) ?mulNext ?pow (fun _ _ => vector) ?dot ?derivative
    ?call formed
  case sym => exact fun name => leaf (by simp) (List.forall_mem_nil _)
  case addNext => exact fun _ _ _ _ _ first next => hereditary.sum (forall_mem_pair ⟨first, next⟩)
  case mulNext =>
    exact fun _ _ _ _ _ _ first next formed => hereditary.prod_pair formed first next
  case pow => exact fun _ _ _ _ _ inner formed => hereditary.power formed inner fun _ => trivial
  case dot =>
    exact fun _ _ _ _ left right => leaf (by simp) (forall_mem_pair ⟨vector left, vector right⟩)
  case derivative =>
    intro args result formed
    obtain ⟨field, difference, -, subtracts, divides⟩ := differenceQuotient_cases formed
    have value : ∀ names, (field.valueAt (vectorOf names)).Underived := by
      intro names
      refine leaf (by simp [ScalarField.valueAt, apply]) (List.forall_mem_singleton.mpr
        (leaf (by simp [vectorOf]) fun e member => ?_))
      obtain ⟨name, -, rfl⟩ := List.mem_map.mp member
      exact leaf (by simp) (List.forall_mem_nil _)
    have length : (Expr.sym edgeLength).Underived := leaf (by simp) (List.forall_mem_nil _)
    exact hereditary.quot divides (hereditary.sub subtracts (value _) (value _)) length trivial
  case call => exact fun _ _ _ _ arg => leaf (by simp) (List.forall_mem_singleton.mpr arg)

section Values

variable {K : Type*} [Field K] {reading : Interpretation K}

/-- The difference of the values of a field at the endpoints of the edge, over the length of the
edge. -/
def edgeQuotient (stencil : Stencil) (field : ScalarField) : Expr :=
  .mul [.add [field.valueAt stencil.second, .mul [.num (-1), field.valueAt stencil.first]],
    .pow (.sym edgeLength) Exponent.negOne]

/-- The value of a difference quotient, written out. -/
theorem valueIn_edgeQuotient (field : ScalarField) :
    (stencil.edgeQuotient field).valueIn reading =
      ((field.valueAt stencil.second).valueIn reading -
        (field.valueAt stencil.first).valueIn reading) / reading.symbol edgeLength := by
  simp [edgeQuotient, valueIn_mul, valueIn_add, valueIn_pow, Exponent.negOne, div_eq_mul_inv,
    sub_eq_add_neg]

/-- Samples of a field at a vector of symbols are defined. -/
theorem defined_valueAt (field : ScalarField) (names : List String) :
    (field.valueAt (vectorOf names)).Defined reading :=
  (sound_call (by simp) (List.forall_mem_singleton.mpr (sound_vectorOf names))).1

/-- A difference quotient is defined exactly when the edge has a length other than zero. -/
theorem defined_edgeQuotient_iff {field : ScalarField} :
    (stencil.edgeQuotient field).Defined reading ↔ reading.symbol edgeLength ≠ 0 := by
  have hereditary := hereditary_defined reading
  constructor
  · intro defined
    have inverse :=
      (hereditary.mul_iff _).mp defined _ (List.mem_cons_of_mem _ List.mem_cons_self)
    simpa using ((hereditary.pow_iff _ _).mp inverse).2 (by decide)
  · intro nonzero
    have opposite : (Expr.mul [.num (-1), field.valueAt stencil.first]).Defined reading :=
      (hereditary.mul_iff _).mpr (forall_mem_pair ⟨hereditary.num _, defined_valueAt field _⟩)
    have inverse : (Expr.pow (.sym edgeLength) Exponent.negOne).Defined reading :=
      (hereditary.pow_iff _ _).mpr ⟨(sound_sym edgeLength).1, fun _ => by simpa using nonzero⟩
    exact (hereditary.mul_iff _).mpr (forall_mem_pair
      ⟨(hereditary.add_iff _).mpr (forall_mem_pair ⟨defined_valueAt field _, opposite⟩), inverse⟩)

mutual

/-- An expression with difference quotients along the edge in the place of the normal derivatives of
fields. All else stays as it is. -/
def withQuotients (stencil : Stencil) : Expr → Expr
  | .num value => .num value
  | .sym name => .sym name
  | .add terms => .add (withQuotientsInAll stencil terms)
  | .mul factors => .mul (withQuotientsInAll stencil factors)
  | .pow base exponent => .pow (withQuotients stencil base) exponent
  | .vector components => .vector (withQuotientsInAll stencil components)
  | .call .normalDerivative [.call (.named name) [_]] => stencil.edgeQuotient ⟨name⟩
  | .call head args => .call head (withQuotientsInAll stencil args)

/-- The expressions of a list with difference quotients in the place of normal derivatives. -/
def withQuotientsInAll (stencil : Stencil) : List Expr → List Expr
  | [] => []
  | e :: rest => withQuotients stencil e :: withQuotientsInAll stencil rest

end

/-- Normal derivatives are replaced in several expressions one by one. -/
theorem withQuotientsInAll_eq_map (es : List Expr) :
    stencil.withQuotientsInAll es = es.map stencil.withQuotients := by
  induction es with
  | nil => rfl
  | cons e rest ih => rw [withQuotientsInAll, ih, List.map_cons]

variable [CharZero K]

/-- The canonical difference quotient has the value of the one that is written out. -/
theorem sharesValue_differenceQuotient {args : List Expr}
    (formed : stencil.differenceQuotient args = .ok result) :
    SharesValue reading (stencil.withQuotients (.call .normalDerivative args)) result := by
  obtain ⟨field, difference, rfl, subtracts, divides⟩ := differenceQuotient_cases formed
  change SharesValue reading (stencil.edgeQuotient field) result
  intro defined
  have hereditary := hereditary_defined reading
  have nonzero : (Expr.sym edgeLength).valueIn reading ≠ 0 := by
    rw [valueIn_sym]
    exact defined_edgeQuotient_iff.mp defined
  have length : (Expr.sym edgeLength).Defined reading := (sound_sym edgeLength).1
  have definedDifference :=
    hereditary.sub subtracts (defined_valueAt field _) (defined_valueAt field _)
  refine ⟨hereditary.quot divides definedDifference length nonzero, ?_⟩
  rw [valueIn_quot divides definedDifference length nonzero,
    valueIn_sub subtracts (defined_valueAt field _), valueIn_edgeQuotient, valueIn_sym]

/-- A localized expression has the value of the expression with difference quotients in the place of
its normal derivatives. -/
theorem sharesValue_localize (formed : stencil.localize e = .ok result) :
    SharesValue reading (stencil.withQuotients e) result := by
  have all : ∀ {es results : List Expr},
      List.Forall₂ (fun e result => SharesValue reading (stencil.withQuotients e) result) es
        results → List.Forall₂ (SharesValue reading) (stencil.withQuotientsInAll es) results := by
    intro es results share
    rw [withQuotientsInAll_eq_map]
    exact List.forall₂_map_left_iff.mpr share
  refine localize_induction
    (motive := fun e result => SharesValue reading (stencil.withQuotients e) result)
    (fun value => sharesValue_refl _) (fun name => sharesValue_refl _) ?add ?addNext ?mul ?mulNext
    (fun _ _ _ _ _ => .pow) (fun _ _ share => .vector (all share))
    (fun _ _ _ _ left right => .dot (all left) (all right))
    (fun _ _ => sharesValue_differenceQuotient) (fun _ _ _ _ => .call) formed
  case add =>
    intro term result shares
    exact shares.single_add
  case addNext =>
    intro terms term left right _ first next
    rw [withQuotients, withQuotientsInAll_eq_map, List.map_append, ← withQuotientsInAll_eq_map]
    exact .add first next
  case mul =>
    intro factor result shares
    exact shares.single_mul
  case mulNext =>
    intro factors factor left right result _ first next formed
    rw [withQuotients, withQuotientsInAll_eq_map, List.map_append, ← withQuotientsInAll_eq_map]
    exact .mul first next formed

end Values

/-- Unless an exponent leaves its range, localization accepts exactly the expressions whose
constructs have their operands, and rejects all others as not supported. A localized expression has
no normal derivatives. Where it divides by zero nowhere, it has the value of the expression in which
the normal derivative of every field is the difference of its values at the endpoints over the
length of the edge. -/
theorem localize_grammar (inRange : stencil.localize e ≠ .error .exponentRange) :
    ((∃ result, stencil.localize e = .ok result) ↔ stencil.Localizable e) ∧
    (¬stencil.Localizable e → ∃ construct reason,
      stencil.localize e = Outcome.reject (.unsupported construct reason)) ∧
    ∀ result, stencil.localize e = .ok result →
      (∀ args, .call .normalDerivative args ∉ result.subterms) ∧
      ∀ (K : Type*) [Field K] [CharZero K] (reading : Interpretation K),
        (stencil.withQuotients e).Defined reading →
        result.valueIn reading = (stencil.withQuotients e).valueIn reading := by
  have errors : (stencil.localize e).ErrorsAre fun error =>
      error.IsUnsupported ∧ ¬stencil.Localizable e := errorsAre_localize e
  refine ⟨⟨?accepted, ?accepts⟩, ?rejects, ?localized⟩
  case accepted =>
    rintro ⟨result, formed⟩
    exact localizable_of_localize formed
  case accepts =>
    intro localizable
    cases formed : stencil.localize e with
    | ok result => exact ⟨result, rfl⟩
    | error failure =>
      have reason := errors failure formed
      cases failure with
      | rejected error => exact absurd localizable reason.2
      | exponentRange => exact absurd formed inRange
      | indexRange => exact reason.elim
  case rejects =>
    intro malformed
    have rejects : (stencil.localize e).RejectsAs Error.IsUnsupported :=
      ⟨fun result formed => malformed (localizable_of_localize formed),
        errors.imp fun _ => And.left⟩
    obtain ⟨error, rejected, unsupported⟩ := rejects.exists_error inRange
    cases error with
    | unsupported construct reason => exact ⟨construct, reason, rejected⟩
    | _ => cases unsupported
  case localized =>
    intro result formed
    refine ⟨fun args occurs => underived_of_localize formed _ occurs args rfl, ?_⟩
    intro K _ _ reading defined
    exact (sharesValue_localize formed defined).2

/-- A flux `a ∂u/∂n` on an interval, and an inner product of it with nothing. -/
theorem localize_grammar_flux :
    let stencil : Stencil := ⟨1, ⟨"u"⟩⟩
    let flux := Expr.mul
      [.sym "a", .call .normalDerivative [stencil.field.valueAt stencil.position]]
    (∃ result, stencil.localize flux = .ok result ∧
      (∀ args, .call .normalDerivative args ∉ result.subterms) ∧
      ∀ reading : Interpretation ℚ, reading.symbol edgeLength ≠ 0 →
        result.valueIn reading = reading.symbol "a" *
          (((stencil.field.valueAt stencil.second).valueIn reading -
            (stencil.field.valueAt stencil.first).valueIn reading) / reading.symbol edgeLength)) ∧
    ∃ construct reason,
      stencil.localize (.call .dot [flux]) = Outcome.reject (.unsupported construct reason) := by
  intro stencil flux
  obtain ⟨accepts, -, localized⟩ := @localize_grammar.{0} stencil flux (by decide +kernel)
  obtain ⟨-, rejects, -⟩ :=
    @localize_grammar.{0} stencil (.call .dot [flux]) (by decide +kernel)
  have localizable : stencil.Localizable flux :=
    localizable_iff.mpr ⟨List.cons_ne_nil _ _, forall_mem_pair
      ⟨localizable_iff.mpr ⟨trivial, List.forall_mem_nil _⟩,
        localizable_iff.mpr ⟨⟨"u", rfl⟩, List.forall_mem_nil _⟩⟩⟩
  have malformed : ¬stencil.Localizable (.call .dot [flux]) := by
    intro localizable
    obtain ⟨_, _, same⟩ := (localizable_iff.mp localizable).1
    have sameLength := congrArg List.length same
    cases sameLength
  obtain ⟨result, formed⟩ := accepts.mpr localizable
  obtain ⟨underived, value⟩ := localized result formed
  refine ⟨⟨result, formed, underived, fun reading nonzero => ?_⟩, rejects malformed⟩
  have spelled : stencil.withQuotients flux =
      .mul [.sym "a", stencil.edgeQuotient stencil.field] := rfl
  have defined : (stencil.withQuotients flux).Defined reading := by
    rw [spelled]
    exact ((hereditary_defined reading).mul_iff _).mpr
      (forall_mem_pair ⟨(sound_sym "a").1, defined_edgeQuotient_iff.mpr nonzero⟩)
  rw [value ℚ reading defined, spelled, valueIn_mul, List.map_cons, List.map_singleton,
    List.prod_cons, List.prod_singleton, valueIn_sym, valueIn_edgeQuotient]

end Stencil

end FiniteVolume
