import FiniteVolume.Expr.Order

/-!
# Tallies

A tally gives a value to each of finitely many expressions and lists them in ascending order. Like
terms of a sum are collected in a tally of coefficients, like factors of a product in a tally of
exponents. Inserting an entry changes the value of its key and of no other (`get?_insert`).
-/

namespace FiniteVolume

/-- Values given to finitely many expressions, listed in ascending order of the expressions. -/
abbrev Tally (β : Type) := List (Expr × β)

namespace Tally

variable {β : Type}

/-- The value of an expression, if it has one. -/
def get? : Tally β → Expr → Option β
  | [], _ => none
  | (key, value) :: rest, e => if e = key then some value else get? rest e

/-- Gives an expression a value, in place of the one it may have. -/
def insert (e : Expr) (value : β) : Tally β → Tally β
  | [] => [(e, value)]
  | (key, old) :: rest =>
    match e.compare key with
    | .lt => (e, value) :: (key, old) :: rest
    | .eq => (e, value) :: rest
    | .gt => (key, old) :: insert e value rest

/-- A value that was inserted is found at its tree, and the other values are as before. -/
theorem get?_insert (e other : Expr) (value : β) (tally : Tally β) :
    (tally.insert e value).get? other = if other = e then some value else tally.get? other := by
  induction tally with
  | nil => rfl
  | cons entry rest ih =>
    obtain ⟨key, old⟩ := entry
    unfold insert
    split
    · rfl
    · rename_i equal
      cases Expr.compare_eq_iff.mp equal
      by_cases same : other = e <;> simp [get?, same]
    · rename_i greater
      have different : key ≠ e := by
        rintro rfl
        simp at greater
      simp only [get?, ih]
      by_cases same : other = e
      · cases same
        simp [different.symm]
      · simp [same]

end Tally

end FiniteVolume
