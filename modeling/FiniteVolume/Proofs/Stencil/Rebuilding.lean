import FiniteVolume.Proofs.Expr.Recursion
import FiniteVolume.Proofs.Expr.Substitution
import FiniteVolume.Proofs.Stencil.EdgeSteps

/-!
# Rebuilt expressions

Substitution and localization rebuild an expression from its leaves up. A property that the
canonical operators keep holds of the result if it holds of what is put in
(`Rebuilding.replaceWith`, `forall_localize`).
-/

namespace FiniteVolume.Expr

/-- A property of trees that are rebuilt from kept parts: the operators keep it, and symbols and
calls have it if they are kept. -/
structure Rebuilding (kept property : Expr → Prop) : Prop where
  num : ∀ value, property (.num value)
  sym : ∀ name, kept (.sym name) → property (.sym name)
  sum : ∀ es, (∀ e ∈ es, property e) → property (sum es)
  prod : ∀ es result, prod es = some result → (∀ e ∈ es, property e) → property result
  power : ∀ e exponent result, power e exponent = some result → property e → property result
  vector : ∀ components, (∀ component ∈ components, property component) →
    property (.vector components)
  call : ∀ head args rebuilt, kept (.call head args) → (∀ arg ∈ rebuilt, property arg) →
    property (.call head rebuilt)

namespace Rebuilding

variable {source kept property : Expr → Prop} {e result : Expr}

/-- A product of two rebuilt expressions is rebuilt. -/
theorem prod_pair (rebuilding : Rebuilding kept property) {left right : Expr}
    (formed : Expr.prod [left, right] = some result) (holdsLeft : property left)
    (holdsRight : property right) : property result :=
  rebuilding.prod _ _ formed (forall_mem_pair ⟨holdsLeft, holdsRight⟩)

/-- A difference of rebuilt expressions is rebuilt. -/
theorem sub (rebuilding : Rebuilding kept property) {left right : Expr}
    (formed : Expr.sub left right = some result) (holdsLeft : property left)
    (holdsRight : property right) : property result := by
  obtain ⟨negated, negates, same⟩ := Option.bind_eq_some_iff.mp formed
  cases same
  exact rebuilding.sum _ (forall_mem_pair ⟨holdsLeft,
    rebuilding.prod_pair negates (rebuilding.num _) holdsRight⟩)

/-- A quotient of rebuilt expressions is rebuilt. -/
theorem quot (rebuilding : Rebuilding kept property) {left right : Expr}
    (formed : Expr.quot left right = some result) (holdsLeft : property left)
    (holdsRight : property right) : property result := by
  obtain ⟨inverse, inverts, multiplied⟩ := Option.bind_eq_some_iff.mp formed
  exact rebuilding.prod_pair multiplied holdsLeft (rebuilding.power _ _ _ inverts holdsRight)

/-- Trees with the property in the place of parts of the source lead to a tree with the property, if
all parts that are left are kept. -/
theorem replaceWith (rebuilding : Rebuilding kept property)
    {replacement? : Expr → Option Expr} (parts : ∀ e, source e → ∀ arg ∈ e.args, source arg)
    (keeps : ∀ e, source e → replacement? e = none → kept e) (holds : source e)
    (replaced : ∀ subterm, source subterm → ∀ new, replacement? subterm = some new → property new)
    (formed : Expr.replaceWith replacement? e = some result) : property result := by
  induction e using induction_args generalizing result with
  | step e ih =>
    have children : ∀ {results : List Expr},
        e.args.mapM (Expr.replaceWith replacement?) = some results →
        ∀ result ∈ results, property result := fun rebuilt =>
      forall_mem_of_mapM rebuilt fun arg member _ => ih arg member (parts e holds arg member)
    obtain found | ⟨unreplaced, rebuilds⟩ := replaceWith_cases formed
    · exact replaced e holds result found
    · cases rebuilds with
      | num value => exact rebuilding.num value
      | sym name => exact rebuilding.sym name (keeps _ holds unreplaced)
      | add rebuilt => exact rebuilding.sum _ (children rebuilt)
      | mul rebuilt formed =>
        exact rebuilding.prod _ _ formed (children rebuilt)
      | @pow base inner _ exponent rebuilt formed =>
        have inArgs : base ∈ args (.pow base exponent) := List.mem_singleton_self base
        exact rebuilding.power _ _ _ formed (ih base inArgs (parts _ holds base inArgs) rebuilt)
      | vector rebuilt => exact rebuilding.vector _ (children rebuilt)
      | call rebuilt =>
        exact rebuilding.call _ _ _ (keeps _ holds unreplaced)
          (children rebuilt)

end Rebuilding

end FiniteVolume.Expr

namespace FiniteVolume.Stencil

open FiniteVolume.Expr

variable {stencil : Stencil} {source kept property : Expr → Prop} {e result : Expr}

/-- Localization leads to a tree with the property if difference quotients have it. -/
theorem forall_localize (rebuilding : Rebuilding kept property) (inherited : Inherited source)
    (keeps : ∀ e, source e → kept e)
    (quotient : ∀ args, source (.call .normalDerivative args) → ∀ result,
      stencil.differenceQuotient args = .ok result → property result)
    (holds : source e) (formed : stencil.localize e = .ok result) : property result := by
  have vector : ∀ {es results : List Expr}, source (.vector es) →
      List.Forall₂ (fun e result => source e → property result) es results →
      property (.vector results) := by
    intro es results holds each
    exact rebuilding.vector _ (forall_mem_results (inherited.arg _ holds) each)
  refine localize_induction (motive := fun e result => source e → property result)
    (fun value _ => rebuilding.num value) (fun name holds => rebuilding.sym name (keeps _ holds))
    ?add ?addNext ?mul ?mulNext ?pow (fun _ _ each holds => vector holds each) ?dot
    (fun args result formed holds => quotient args holds result formed) ?call formed holds
  case add =>
    intro term result passes holds
    exact passes ((inherited.add_singleton_iff term).mp holds)
  case addNext =>
    intro terms term left right _ first next holds
    obtain ⟨holdsBefore, holdsLast⟩ := (inherited.add_concat_iff terms term).mp holds
    exact rebuilding.sum _ (forall_mem_pair ⟨first holdsBefore, next holdsLast⟩)
  case mul =>
    intro factor result passes holds
    exact passes ((inherited.mul_singleton_iff factor).mp holds)
  case mulNext =>
    intro factors factor left right result _ first next multiplied holds
    obtain ⟨holdsBefore, holdsLast⟩ := (inherited.mul_concat_iff factors factor).mp holds
    exact rebuilding.prod_pair multiplied (first holdsBefore) (next holdsLast)
  case pow =>
    intro base exponent inner result _ passes powered holds
    exact rebuilding.power _ _ _ powered
      (passes (inherited.arg _ holds base (List.mem_singleton_self base)))
  case dot =>
    intro left right left' right' eachLeft eachRight holds
    have operand := inherited.arg _ holds
    exact rebuilding.call _ _ _ (keeps _ holds) (forall_mem_pair
      ⟨vector (operand _ (by simp [args])) eachLeft, vector (operand _ (by simp [args])) eachRight⟩)
  case call =>
    intro name arg localized _ passes holds
    exact rebuilding.call _ _ _ (keeps _ holds)
      (List.forall_mem_singleton.mpr (passes (inherited.arg _ holds arg List.mem_cons_self)))

end FiniteVolume.Stencil
