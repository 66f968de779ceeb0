import FiniteVolume.Expr.Derivative
import FiniteVolume.Proofs.Expr.Expansion

/-!
# What derivatives are made of

A derivative is made of the parts of the expression, of functions applied to the old arguments and
of the derivatives of smaller parts. A property that all of these have is one of the derivative
(`Differentiated.diff`).
-/

namespace FiniteVolume

/-- The known function that the derivative of a known function is written with. -/
def Pointwise.inDerivative? : Pointwise → Option Pointwise
  | sin | tan => some cos
  | cos => some sin
  | exp => some exp
  | sqrt => some sqrt
  | sinh | tanh => some cosh
  | cosh => some sinh
  | abs => some sign
  | log | sign => none

/-- The names of the functions that differentiation brings in for a function: a known one, or the
unknown derivative, in the only argument or in the one at some position. -/
inductive InDerivative (function : String) : String → Prop where
  | known {outer inner : Pointwise} (named : outer.name = function)
    (applied : outer.inDerivative? = some inner) : InDerivative function inner.name
  | single : InDerivative function ("D[" ++ function ++ "]")
  | atPosition (position : Nat) :
    InDerivative function ("D" ++ toString position ++ "[" ++ function ++ "]")

end FiniteVolume

namespace FiniteVolume.Expr

/-- Several expressions are differentiated one by one. -/
theorem diffAll_eq_mapM (es : List Expr) (name : String) :
    diffAll es name = es.mapM fun e => diff e name := by
  induction es with
  | nil => rfl
  | cons e rest ih => simp [diffAll, ih]

/-- How the derivative of an expression is formed from those of its parts. -/
inductive Derives (name : String) : Expr → Expr → Prop where
  | lacks {e : Expr} (lacks : e.hasSymbol name = false) : Derives name e e.zeroLike
  | sym : Derives name (.sym name) one
  | add {terms derivatives : List Expr}
    (differentiates : (terms.mapM fun term => diff term name) = some derivatives) :
    Derives name (.add terms) (sum derivatives)
  | mul {factors products : List Expr}
    (differentiates : diffFactors [] factors name = some products) :
    Derives name (.mul factors) (sum products)
  | pow {base lower outer inner result : Expr} {exponent less : Exponent}
    (occurs : base.hasSymbol name = true) (lowered : exponent.pred? = some less)
    (powered : power base less = some lower)
    (outerFormed : prod [.int exponent.val, lower] = some outer)
    (differentiates : diff base name = some inner)
    (multiplied : prod [outer, inner] = some result) :
    Derives name (.pow base exponent) result
  | vector {components derivatives : List Expr}
    (differentiates : (components.mapM fun component => diff component name) = some derivatives) :
    Derives name (.vector components) (.vector derivatives)
  | call {head : Head} {args derivatives : List Expr} {result : Expr}
    (occurs : (Expr.call head args).hasSymbol name = true)
    (differentiates : (args.mapM fun arg => diff arg name) = some derivatives)
    (formed : diffCall head args derivatives = some result) :
    Derives name (.call head args) result

/-- What is differentiated is formed from the derivatives of its parts. -/
theorem derives_of_diff {e result : Expr} {name : String} (formed : diff e name = some result) :
    Derives name e result := by
  unfold diff at formed
  by_cases occurs : e.hasSymbol name = true
  · rw [if_pos occurs] at formed
    cases e with
    | num value => cases occurs
    | sym symbol =>
      cases formed
      obtain same | ⟨_, member, -⟩ := hasSymbol_iff.mp occurs
      · cases same
        exact .sym
      · cases member
    | add terms =>
      obtain ⟨derivatives, differentiates, same⟩ := Option.bind_eq_some_iff.mp formed
      cases same
      rw [diffAll_eq_mapM] at differentiates
      exact .add differentiates
    | mul factors =>
      obtain ⟨products, differentiates, same⟩ := Option.bind_eq_some_iff.mp formed
      cases same
      exact .mul differentiates
    | pow base exponent =>
      obtain ⟨less, lowered, formed⟩ := Option.bind_eq_some_iff.mp formed
      obtain ⟨lower, powered, formed⟩ := Option.bind_eq_some_iff.mp formed
      obtain ⟨outer, outerFormed, formed⟩ := Option.bind_eq_some_iff.mp formed
      obtain ⟨inner, differentiates, multiplied⟩ := Option.bind_eq_some_iff.mp formed
      have baseOccurs : base.hasSymbol name = true := by
        simpa [args] using hasSymbol_iff.mp occurs
      exact .pow baseOccurs lowered powered outerFormed differentiates multiplied
    | vector components =>
      obtain ⟨derivatives, differentiates, same⟩ := Option.bind_eq_some_iff.mp formed
      cases same
      rw [diffAll_eq_mapM] at differentiates
      exact .vector differentiates
    | call head args =>
      obtain ⟨derivatives, differentiates, formed⟩ := Option.bind_eq_some_iff.mp formed
      rw [diffAll_eq_mapM] at differentiates
      exact .call occurs differentiates formed
  · rw [if_neg occurs] at formed
    cases formed
    exact .lacks (eq_false_of_ne_true occurs)

/-- Every term of the product rule is a product of the derivative of one factor and other
factors. -/
theorem exists_of_mem_diffFactors {before after products : List Expr} {name : String}
    (formed : diffFactors before after name = some products) {product : Expr}
    (member : product ∈ products) :
    ∃ factor ∈ after, ∃ derivative others, diff factor name = some derivative ∧
      (∀ other ∈ others, other ∈ before ++ after) ∧ prod (derivative :: others) = some product := by
  induction after generalizing before products with
  | nil =>
    cases formed
    cases member
  | cons factor rest ih =>
    obtain ⟨derivative, differentiates, formed⟩ := Option.bind_eq_some_iff.mp formed
    obtain ⟨first, multiplied, formed⟩ := Option.bind_eq_some_iff.mp formed
    obtain ⟨later, formedLater, same⟩ := Option.bind_eq_some_iff.mp formed
    cases same
    rcases List.mem_cons.mp member with rfl | member
    · refine ⟨factor, List.mem_cons_self, derivative, before ++ rest, differentiates, ?_,
        multiplied⟩
      intro other inside
      rcases List.mem_append.mp inside with inside | inside
      · exact List.mem_append_left _ inside
      · exact List.mem_append_right _ (List.mem_cons_of_mem _ inside)
    · obtain ⟨source, inside, derivative, others, differentiates, origin, multiplied⟩ :=
        ih formedLater member
      refine ⟨source, List.mem_cons_of_mem _ inside, derivative, others, differentiates, ?_,
        multiplied⟩
      intro other member
      simpa using origin other member

/-- The derivative of a known function is made of the known function that it is written with and of
powers of the argument and of this function. -/
theorem Powered.pointwise {property ofBase : Expr → Prop}
    (powered : Powered property ofBase) {function : Pointwise} {arg derivative : Expr}
    (formed : function.derivative arg = some derivative) (holds : property arg)
    (called : ∀ known, function.inDerivative? = some known → property (known.call arg))
    (base : ofBase arg) (bases : ∀ known : Pointwise, ofBase (known.call arg)) :
    property derivative := by
  cases function with
  | cos => exact powered.prod_pair formed (powered.num _) (called .sin rfl)
  | tan => exact powered.power _ _ _ formed (called .cos rfl) fun _ => bases .cos
  | log => exact powered.power _ _ _ formed holds fun _ => base
  | sqrt =>
    simp only [Pointwise.derivative] at formed
    obtain ⟨inverse, inverted, formed⟩ := Option.bind_eq_some_iff.mp formed
    unfold Expr.quot at formed
    obtain ⟨half, halved, formed⟩ := Option.bind_eq_some_iff.mp formed
    refine powered.prod_pair formed
      (powered.power _ _ _ inverted (called .sqrt rfl) fun _ => bases .sqrt) ?_
    have isNum : half.isNum = true := by
      cases halved
      rfl
    obtain ⟨value, rfl⟩ := eq_num_of_isNum isNum
    exact powered.num value
  | tanh => exact powered.power _ _ _ formed (called .cosh rfl) fun _ => bases .cosh
  | sign =>
    cases formed
    exact powered.num 0
  | sin | exp | sinh | cosh | abs =>
    cases formed
    exact called _ rfl

/-- What derivatives need to have a property: the parts of the expression have it, the functions
and the inner products that differentiation brings in have it, and so have sums, products and powers
of such parts. -/
structure Differentiated (name : String) (source property ofBase : Expr → Prop) : Prop
    extends Powered property ofBase where
  arg : ∀ e, source e → ∀ arg ∈ e.args, source arg
  keep : ∀ e, source e → property e
  vector : ∀ components, (∀ component ∈ components, property component) →
    property (.vector components)
  base : ∀ base exponent, source (.pow base exponent) → exponent.val ≤ 0 →
    base.hasSymbol name = true → ofBase base
  pointwise : ∀ (function : Pointwise) arg derivative, source (.apply function.name [arg]) →
    arg.hasSymbol name = true → function.derivative arg = some derivative → property derivative
  apply : ∀ head args function, source (.call head args) →
    (Expr.call head args).hasSymbol name = true → InDerivative head.name function →
    property (.apply function args)
  gradient : ∀ args derivatives, source (.call .normalDerivative args) →
    (∀ derivative ∈ derivatives, property derivative) →
    property (.call .normalDerivative derivatives)
  dot : ∀ left right left' right', source (.call .dot [left, right]) →
    diff left name = some left' → diff right name = some right' → property left' →
    property right' → property (.call .dot [left', right]) ∧ property (.call .dot [left, right'])

namespace Differentiated

variable {name : String} {source property ofBase : Expr → Prop}

/-- The zero of an expression has the property. -/
theorem zeroLike (closed : Differentiated name source property ofBase) (e : Expr) :
    property e.zeroLike := by
  cases e with
  | vector components =>
    refine closed.vector _ fun component member => ?_
    obtain ⟨_, -, rfl⟩ := List.mem_map.mp member
    exact closed.num 0
  | _ => exact closed.num 0

/-- The chain rule for an unknown function passes the property on. -/
theorem diffUnknown (closed : Differentiated name source property ofBase) {head : Head}
    {args derivatives : List Expr} {result : Expr}
    (occurs : (Expr.call head args).hasSymbol name = true) (holds : source (.call head args))
    (formed : Expr.diffUnknown head.name args derivatives = some result)
    (holdsDerivatives : ∀ derivative ∈ derivatives, property derivative) : property result := by
  have applied : ∀ function, InDerivative head.name function → property (.apply function args) :=
    fun function => closed.apply head args function holds occurs
  unfold Expr.diffUnknown at formed
  split at formed
  · exact closed.prod_pair formed (applied _ .single) (holdsDerivatives _ List.mem_cons_self)
  · obtain ⟨terms, multiplied, same⟩ := Option.bind_eq_some_iff.mp formed
    cases same
    refine closed.sum _ fun term present => ?_
    obtain ⟨⟨derivative, position⟩, member, multiplied⟩ := exists_of_mem_mapM multiplied present
    exact closed.prod_pair multiplied (applied _ (.atPosition position))
      (holdsDerivatives derivative (List.fst_mem_of_mem_zipIdx member))

/-- The derivative of a call passes the property on. -/
theorem diffCall (closed : Differentiated name source property ofBase) {head : Head}
    {args derivatives : List Expr} {result : Expr}
    (formed : Expr.diffCall head args derivatives = some result)
    (occurs : (Expr.call head args).hasSymbol name = true) (holds : source (.call head args))
    (differentiates : (args.mapM fun arg => diff arg name) = some derivatives)
    (holdsDerivatives : ∀ derivative ∈ derivatives, property derivative) : property result := by
  unfold Expr.diffCall at formed
  split at formed
  · rename_i left right left' right'
    obtain ⟨_, _, diffLeft, diffRight, same⟩ := mapM_pair_eq_some differentiates
    cases same
    obtain ⟨leftTerm, rightTerm⟩ := closed.dot left right left' right' holds diffLeft diffRight
      (holdsDerivatives left' (by simp)) (holdsDerivatives right' (by simp))
    cases formed
    refine closed.sum _ fun term member => ?_
    rcases List.mem_append.mp member with member | member
    · split at member
      · cases member
      · exact List.mem_singleton.mp member ▸ leftTerm
    · split at member
      · cases member
      · exact List.mem_singleton.mp member ▸ rightTerm
  · cases formed
    split
    · exact closed.num 0
    · exact closed.gradient _ derivatives holds holdsDerivatives
  · rename_i function arg derivative
    have argOccurs : arg.hasSymbol name = true := by
      simpa [args] using hasSymbol_iff.mp occurs
    split at formed
    · rename_i known found
      obtain ⟨outer, outerFormed, multiplied⟩ := Option.bind_eq_some_iff.mp formed
      have named : known.name = function := by
        simpa using List.find?_some found
      subst named
      exact closed.prod_pair multiplied (closed.pointwise known arg outer holds argOccurs
        outerFormed) (holdsDerivatives derivative List.mem_cons_self)
    · exact closed.diffUnknown occurs holds formed holdsDerivatives
  · exact closed.diffUnknown occurs holds formed holdsDerivatives

/-- The derivative has the property. -/
theorem diff (closed : Differentiated name source property ofBase) (e : Expr) :
    ∀ result, Expr.diff e name = some result → source e → property result := by
  induction e using induction_args with
  | step e ih =>
    intro result formed holds
    have children : ∀ {derivatives : List Expr},
        (e.args.mapM fun arg => Expr.diff arg name) = some derivatives →
        ∀ derivative ∈ derivatives, property derivative := fun differentiates =>
      forall_mem_of_mapM differentiates fun arg member derivative differentiates =>
        ih arg member derivative differentiates (closed.arg _ holds arg member)
    cases derives_of_diff formed with
    | lacks => exact closed.zeroLike e
    | sym => exact closed.num 1
    | add differentiates =>
      exact closed.sum _ (children differentiates)
    | mul differentiates =>
      refine closed.sum _ fun product member => ?_
      obtain ⟨factor, inside, derivative, others, differentiates, origin, multiplied⟩ :=
        exists_of_mem_diffFactors differentiates member
      refine closed.prod _ _ multiplied (List.forall_mem_cons.mpr ⟨?_, fun other inside => ?_⟩)
      · exact ih factor inside derivative differentiates (closed.arg _ holds factor inside)
      · exact closed.keep _ (closed.arg _ holds other (origin other inside))
    | @pow base lower outer inner _ exponent less occurs lowered powered outerFormed differentiates
        multiplied =>
      have inArgs : base ∈ (Expr.pow base exponent).args := List.mem_singleton_self base
      have holdsBase : source base := closed.arg _ holds base inArgs
      refine closed.prod_pair multiplied (closed.prod_pair outerFormed (closed.num _) ?_)
        (ih base inArgs inner differentiates holdsBase)
      refine closed.power _ _ _ powered (closed.keep _ holdsBase) fun negative => ?_
      refine closed.base base exponent holds ?_ occurs
      have value := Exponent.val_of_pred? lowered
      omega
    | vector differentiates =>
      exact closed.vector _ (children differentiates)
    | call occurs differentiates formed =>
      exact closed.diffCall formed occurs holds differentiates (children differentiates)

end Differentiated

end FiniteVolume.Expr
