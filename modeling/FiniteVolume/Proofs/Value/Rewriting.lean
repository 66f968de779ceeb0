import FiniteVolume.Proofs.Value.Scalar

/-!
# Rewriting and the value

Normalization and expansion keep the value of an expression wherever it divides by nothing of value
zero, and they divide by nothing new there (`rewriting_keeps_value`). Without the second part the
first could not be used again: `x * x⁻¹` becomes `1`, and the condition on `x` is gone.

Substituting expressions for symbols changes the value as evaluating all of these expressions first
would (`subst_evaluates_at_once`), so rules that mention each other's symbols do not get in each
other's way.
-/

namespace FiniteVolume.Expr

/-- What rewriting returns has the value of the expression, and is defined where the expression is.
-/
theorem rewriting_keeps_value {K : Type*} [Field K] [CharZero K] {reading : Interpretation K}
    {e : Expr} (dots : e.VectorDots) (defined : e.Defined reading) :
    (∀ result, e.normalize = some result →
      result.Defined reading ∧ result.valueIn reading = e.valueIn reading) ∧
    ∀ result, e.expand = some result →
      result.Defined reading ∧ result.valueIn reading = e.valueIn reading := by
  constructor
  · intro result normalizes
    obtain ⟨sound, value⟩ := keepsValue_normalize e result normalizes ⟨defined, dots⟩
    exact ⟨sound.1, value⟩
  · intro result expands
    obtain ⟨sound, value⟩ := keepsValue_expand e result expands ⟨defined, dots⟩
    exact ⟨sound.1, value⟩

/-- A raw tree with a quotient that cancels, an inner product, and a function of a vector. -/
theorem rewriting_keeps_value_cancelled :
    let inverse : Expr := .pow (.sym "x") Exponent.negOne
    let e : Expr := .mul [.sym "x", inverse, .add [.num 1, .add [
      .call .dot [.vector [.sym "x", .sym "y"], .vector [.sym "y", inverse]],
      .call (.named "f") [.vector [.sym "x"]]]]]
    let reading : Interpretation ℚ := ⟨fun name => if name = "x" then 2 else 3, List.sum,
      fun _ values => values.sum⟩
    ∃ normal expanded, e.normalize = some normal ∧ e.expand = some expanded ∧
      normal.valueIn reading = e.valueIn reading ∧
      expanded.valueIn reading = e.valueIn reading := by
  intro inverse e reading
  have dots : e.VectorDots := by
    simp [e, inverse, VectorDots, subterms, subtermsOfAll]
  have defined : e.Defined reading := by
    simp [e, inverse, reading, Defined, NegativeBases, subterms, subtermsOfAll]
  obtain ⟨normalized, expanded⟩ := rewriting_keeps_value dots defined
  have normalizes : e.normalize.isSome = true := by decide +kernel
  have expands : e.expand.isSome = true := by decide +kernel
  obtain ⟨normal, normalizes⟩ := Option.isSome_iff_exists.mp normalizes
  obtain ⟨result, expands⟩ := Option.isSome_iff_exists.mp expands
  exact ⟨normal, result, normalizes, expands, (normalized normal normalizes).2,
    (expanded result expands).2⟩

/-- The reading that a substitution of symbols amounts to: every symbol with a rule has the value of
what the first rule for it puts in its place, and all others have their own. -/
def Interpretation.substituted {K : Type*} [Field K] (reading : Interpretation K)
    (replacements : List (String × Expr)) : Interpretation K :=
  reading.bind (replacements.map fun (name, e) => (name, e.valueIn reading))

section Substitution

variable {K : Type*} [Field K] [CharZero K] {reading : Interpretation K}
  {replacements : List (String × Expr)}

omit [CharZero K] in
theorem binds_symbolRules (sound : ∀ entry ∈ replacements, entry.2.Sound reading) :
    List.Forall₂ (Binds reading) (replacements.map fun (name, e) => (name, e.valueIn reading))
      (symbolRules replacements) := by
  rw [symbolRules, List.forall₂_map_left_iff, List.forall₂_map_right_iff, List.forall₂_same]
  exact fun entry member => ⟨rfl, sound entry member, rfl⟩

/-- A substitution of symbols evaluates all of its right sides before it changes anything: what it
returns has the value that the expression has where every replaced symbol is read as the value of
the first right side that is given for it. A right side is put in the place of its symbol as it is,
whatever symbols with rules it holds itself. -/
theorem subst_evaluates_at_once {e result : Expr} (dots : e.VectorDots)
    (defined : e.Defined (reading.substituted replacements))
    (rightSides : ∀ entry ∈ replacements, entry.2.VectorDots ∧ entry.2.Defined reading)
    (formed : e.subst (symbolRules replacements) = some result) :
    result.Defined reading ∧
      result.valueIn reading = e.valueIn (reading.substituted replacements) ∧
      ∀ name, (Expr.sym name).subst (symbolRules replacements) =
        some ((replacements.lookup name).getD (.sym name)) := by
  have binds := binds_symbolRules fun entry member => (rightSides entry member).symm
  have carries := carries_subst binds ⟨defined, dots⟩ formed
  exact ⟨carries.sound.1, carries.value, subst_sym replacements⟩

/-- Two symbols are exchanged, one of them under a quotient and in an inner product; a second rule
for it has no effect. -/
theorem subst_evaluates_at_once_exchange :
    let e : Expr := .add [.sym "a", .mul [.num (-2), .sym "b"],
      .mul [.sym "a", .pow (.sym "b") Exponent.negOne],
      .call .dot [.vector [.sym "a"], .vector [.add [.sym "b", .num 1]]]]
    let replacements : List (String × Expr) :=
      [("a", .sym "b"), ("b", .sym "a"), ("a", .pow (.sym "b") Exponent.negOne)]
    let reading : Interpretation ℚ := ⟨fun name => if name = "a" then 3 else 5, List.sum,
      fun _ values => values.sum⟩
    ∃ result, e.subst (symbolRules replacements) = some result ∧
      result.valueIn reading = 5 - 2 * 3 + 5 / 3 + 5 * (3 + 1) := by
  intro e replacements reading
  have dots : e.VectorDots := by
    simp [e, VectorDots, subterms, subtermsOfAll]
  have readA : (reading.substituted replacements).symbol "a" = 5 := by
    simp [reading, replacements, Interpretation.substituted, Interpretation.bind, List.lookup_cons]
  have readB : (reading.substituted replacements).symbol "b" = 3 := by
    simp [reading, replacements, Interpretation.substituted, Interpretation.bind, List.lookup_cons]
  have defined : e.Defined (reading.substituted replacements) := by
    simp [e, readB, Defined, NegativeBases, subterms, subtermsOfAll]
  have rightSides : ∀ entry ∈ replacements, entry.2.VectorDots ∧ entry.2.Defined reading := by
    simp [replacements, reading, VectorDots, Defined, NegativeBases, subterms]
  have substitutes : (e.subst (symbolRules replacements)).isSome = true := by decide +kernel
  obtain ⟨result, formed⟩ := Option.isSome_iff_exists.mp substitutes
  obtain ⟨-, value, -⟩ := subst_evaluates_at_once dots defined rightSides formed
  refine ⟨result, formed, value.trans ?_⟩
  simp [e, valueIn_add, valueIn_mul, valueIn_pow, valueIn_dot_zipWith, readA, readB,
    Exponent.negOne]
  norm_num

end Substitution

end FiniteVolume.Expr
