import FiniteVolume.Expr.AffineSplit
import FiniteVolume.Proofs.Expr.Recursion

/-!
# Constant parts

The constant part of an expression with respect to some symbols is made of terms of expansions, and
none of the symbols is left in it (`hasSymbol_constantPartOfAll`).
-/

namespace FiniteVolume.Expr

section Kept

variable {property : Expr → Prop} {e result : Expr}

/-- The constant part is made of terms of the expansion. -/
theorem Closed.constantPart (closed : Closed property)
    (expansion : ∀ {e result}, Expr.expand e = some result → property e → property result)
    {name : String} (formed : Expr.constantPart e name = some result) (holds : property e) :
    property result := by
  obtain ⟨expanded, expands, same⟩ := Option.bind_eq_some_iff.mp formed
  cases same
  refine closed.sum _ fun term member => ?_
  exact closed.terms _ (expansion expands holds) term (List.mem_filter.mp member).1

/-- A property that expansion keeps is kept by leaving out the terms with symbols. -/
theorem Closed.constantPartOfAll (closed : Closed property)
    (expansion : ∀ {e result}, Expr.expand e = some result → property e → property result)
    {names : List String} (formed : Expr.constantPartOfAll e names = some result)
    (holds : property e) : property result := by
  induction names generalizing e with
  | nil =>
    cases formed
    exact holds
  | cons name rest ih =>
    obtain ⟨part, partFormed, formed⟩ := Option.bind_eq_some_iff.mp formed
    exact ih formed (closed.constantPart expansion partFormed holds)

/-- An inherited property is kept by leaving out the terms with symbols. -/
theorem Inherited.constantPartOfAll (inherited : Inherited property) {names : List String}
    (formed : Expr.constantPartOfAll e names = some result) (holds : property e) :
    property result :=
  inherited.closed.constantPartOfAll inherited.expand formed holds

end Kept

/-- What is left without a symbol does not contain it. -/
theorem hasSymbol_constantPart {e result : Expr} {name : String}
    (formed : constantPart e name = some result) : result.hasSymbol name = false := by
  obtain ⟨expanded, -, same⟩ := Option.bind_eq_some_iff.mp formed
  cases same
  refine (inherited_lacks name).sum fun term member => ?_
  simpa using (List.mem_filter.mp member).2

/-- None of the symbols is left in the part that depends on none of them. -/
theorem hasSymbol_constantPartOfAll {names : List String} {e result : Expr}
    (formed : constantPartOfAll e names = some result) :
    ∀ name ∈ names, result.hasSymbol name = false := by
  induction names generalizing e with
  | nil => exact fun _ member => nomatch member
  | cons name rest ih =>
    obtain ⟨part, partFormed, formed⟩ := Option.bind_eq_some_iff.mp formed
    exact List.forall_mem_cons.mpr ⟨(inherited_lacks name).constantPartOfAll formed
      (hasSymbol_constantPart partFormed), ih formed⟩

end FiniteVolume.Expr
