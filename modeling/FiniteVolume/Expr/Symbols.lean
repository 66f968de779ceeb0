import FiniteVolume.Expr.Basic

/-!
# Symbols of an expression

The names of the symbols in a tree, each once and in ascending order.
-/

namespace FiniteVolume

/-- Inserts a name into a list in ascending order, unless it is there. -/
def insertName (name : String) : List String → List String
  | [] => [name]
  | head :: rest =>
    match compare name head with
    | .lt => name :: head :: rest
    | .eq => head :: rest
    | .gt => head :: insertName name rest

/-- The names of all symbols in an expression, in ascending order. -/
def Expr.symbols (e : Expr) : List String :=
  (e.subterms.filterMap symbol?).foldr insertName []

/-- The names after an insertion are the new one and those from before. -/
theorem mem_insertName {name other : String} {names : List String} :
    other ∈ insertName name names ↔ other = name ∨ other ∈ names := by
  induction names with
  | nil => simp [insertName]
  | cons head rest ih =>
    unfold insertName
    split
    · simp
    · rename_i equal
      simp [Std.LawfulEqOrd.eq_of_compare equal]
    · simp only [List.mem_cons, ih]
      exact or_left_comm

/-- The names are those of the symbols among the subtrees. -/
theorem Expr.mem_symbols {e : Expr} {name : String} :
    name ∈ e.symbols ↔ .sym name ∈ e.subterms := by
  have fold : ∀ names : List String,
      (name ∈ names.foldr insertName [] ↔ name ∈ names) := by
    intro names
    induction names with
    | nil => simp
    | cons head rest ih => simp [mem_insertName, ih]
  simp only [Expr.symbols, fold, List.mem_filterMap]
  constructor
  · rintro ⟨subterm, member, named⟩
    cases subterm <;> simp_all [symbol?]
  · intro member
    exact ⟨_, member, rfl⟩

end FiniteVolume
