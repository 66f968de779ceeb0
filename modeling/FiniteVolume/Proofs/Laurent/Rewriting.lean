import FiniteVolume.Proofs.Laurent.Collected

/-!
# Collected sums of rewritten expressions

Forming sums, products and powers and expanding them does to collected sums what their names say. An
expanded sum is known from its collected sum (`Expanded.eq_of_collected_eq`), and its terms are the
monomials of the collected sum (`LaurentTerm.collected`).
-/

namespace FiniteVolume.Expr

open AddMonoidAlgebra

/-- Sums, products and powers of Laurent polynomials are Laurent polynomials. -/
theorem hereditary_laurent : Hereditary Laurent fun base => ∃ name, base = .sym name where
  num value := laurent_iff.mpr ⟨trivial, fun _ member => nomatch member⟩
  add_iff terms := laurent_iff.trans (and_iff_right trivial)
  mul_iff factors := laurent_iff.trans (and_iff_right trivial)
  pow_iff base exponent := by
    rw [laurent_iff, and_comm]
    exact and_congr_left' List.forall_mem_singleton
  base_of_mul _ isSymbol := by
    obtain ⟨name, same⟩ := isSymbol
    cases same
  base_of_pow _ _ isSymbol := by
    obtain ⟨name, same⟩ := isSymbol
    cases same

theorem laurent_sym (name : String) : (Expr.sym name).Laurent :=
  laurent_iff.mpr ⟨trivial, fun _ member => nomatch member⟩

/-- No symbol is assigned zero. -/
theorem Assignment.symbol_ne_zero (assignment : Assignment) (name : String) :
    assignment.reading.symbol name ≠ 0 :=
  (assignment name).ne_zero

/-- A Laurent polynomial with the values of a collected sum is collected into it. -/
theorem Laurent.collected_eq {e : Expr} {sum : Collected} (laurent : e.Laurent)
    (values : ∀ assignment : Assignment,
      e.valueIn assignment.reading = Collected.eval assignment sum) : e.collected = sum :=
  Collected.eq_of_eval_eq fun assignment => by
    rw [← laurent.valueIn_eq_eval, values]

section Rewriting

variable {es : List Expr} {left right result : Expr}

/-- The sum of polynomials is collected as their sum. -/
theorem collected_sum (laurent : ∀ e ∈ es, e.Laurent) :
    (sum es).collected = (es.map collected).sum := by
  apply (hereditary_laurent.sum laurent).collected_eq
  intro assignment
  rw [valueIn_sum, map_list_sum, List.map_map]
  exact congrArg List.sum
    (List.map_congr_left fun e member => (laurent e member).valueIn_eq_eval assignment)

/-- The product of polynomials is collected as their product. -/
theorem collected_prod (laurent : ∀ e ∈ es, e.Laurent) (formed : prod es = some result) :
    result.collected = (es.map collected).prod := by
  apply (hereditary_laurent.prod formed laurent).collected_eq
  intro assignment
  rw [valueIn_prod formed fun e member =>
    ((laurent e member).sound assignment.symbol_ne_zero).1, map_list_prod, List.map_map]
  exact congrArg List.prod
    (List.map_congr_left fun e member => (laurent e member).valueIn_eq_eval assignment)

/-- The product of two polynomials is collected as their product. -/
theorem collected_prod_pair (laurentLeft : left.Laurent) (laurentRight : right.Laurent)
    (formed : prod [left, right] = some result) :
    result.collected = left.collected * right.collected := by
  rw [collected_prod (forall_mem_pair ⟨laurentLeft, laurentRight⟩) formed]
  simp

/-- The difference of polynomials is collected as their difference. -/
theorem collected_sub (laurentLeft : left.Laurent) (laurentRight : right.Laurent)
    (formed : sub left right = some result) :
    result.collected = left.collected - right.collected := by
  apply (hereditary_laurent.sub formed laurentLeft laurentRight).collected_eq
  intro assignment
  rw [valueIn_sub formed (laurentRight.sound assignment.symbol_ne_zero).1, map_sub,
    laurentLeft.valueIn_eq_eval, laurentRight.valueIn_eq_eval]

/-- A power of a polynomial is collected by its exponent. -/
theorem collected_power {e : Expr} {exponent : Exponent} (laurent : e.Laurent)
    (symbol : exponent.val < 0 → ∃ name, e = .sym name) (formed : power e exponent = some result) :
    result.collected = collectedPower e e.collected exponent.val := by
  apply (hereditary_laurent.power formed laurent symbol).collected_eq
  intro assignment
  have sound := laurent.sound assignment.symbol_ne_zero
  rw [eval_collectedPower assignment (laurent.valueIn_eq_eval assignment) symbol]
  apply valueIn_power formed sound.1
  intro negative
  obtain ⟨name, rfl⟩ := symbol negative
  rw [valueIn_sym]
  exact assignment.symbol_ne_zero name

end Rewriting

/-- A product of numbers and powers of symbols is a Laurent polynomial. -/
theorem PowerProduct.laurent {e : Expr} (product : e.PowerProduct) : e.Laurent := by
  have factor : ∀ factor ∈ e.factors, factor.Laurent := by
    intro factor member
    obtain isNum | ⟨name, isSymbol⟩ := product factor member
    · obtain ⟨value, rfl⟩ := eq_num_of_isNum isNum
      exact hereditary_laurent.num value
    · cases factor with
      | sym name => exact laurent_sym name
      | pow base exponent =>
        cases isSymbol
        exact (hereditary_laurent.pow_iff _ _).mpr ⟨laurent_sym name, fun _ => ⟨name, rfl⟩⟩
      | _ => cases isSymbol
  cases e with
  | mul factors => exact (hereditary_laurent.mul_iff factors).mpr factor
  | _ => exact factor _ List.mem_cons_self

/-- The terms of a polynomial are polynomials. -/
theorem LaurentTerm.laurent {e : Expr} (term : e.LaurentTerm) : e.Laurent :=
  term.product.laurent

/-- An expanded polynomial is a polynomial. -/
theorem Expanded.laurent {e : Expr} (expanded : e.Expanded) : e.Laurent := by
  cases e with
  | add terms =>
    exact (hereditary_laurent.add_iff terms).mpr fun term member =>
      (expanded.products term member).laurent
  | _ => exact (expanded.products _ List.mem_cons_self).laurent

/-- Expansion keeps the collected sum. -/
theorem Laurent.collected_expand {e expanded : Expr} (laurent : e.Laurent)
    (expands : e.expand = some expanded) : expanded.collected = e.collected := by
  apply (laurent.expanded expands).laurent.collected_eq
  intro assignment
  rw [(keepsValue_expand e expanded expands (laurent.sound assignment.symbol_ne_zero)).2,
    laurent.valueIn_eq_eval]

/-- There is only one expanded sum with given coefficients. -/
theorem Expanded.eq_of_collected_eq {e e' : Expr} (expanded : e.Expanded) (expanded' : e'.Expanded)
    (same : e.collected = e'.collected) : e = e' :=
  expanded.eq_of_values expanded' fun assignment => by
    rw [expanded.laurent.valueIn_eq_eval, expanded'.laurent.valueIn_eq_eval, same]

/-- The exponents of the monomial of a term. -/
noncomputable def exponents (e : Expr) : Exponents :=
  (e.monomial.powers.map fun power =>
    Finsupp.single power.symbolName power.factorExponent.val).sum

/-- The exponents of a term determine the value of its monomial. -/
theorem exponents_character (e : Expr) (assignment : Assignment) :
    e.exponents.character assignment = e.monomial.character assignment := by
  rw [character_apply, exponents]
  induction e.monomial.powers with
  | nil => exact Exponents.character_zero assignment
  | cons power rest ih =>
    rw [List.map_cons, List.sum_cons, Exponents.character_add, ih, Exponents.character_single,
      List.map_cons, List.prod_cons]
    congr 1
    simp [powerCharacter]

/-- The exponent of a symbol is added up over the powers of the monomial. -/
theorem exponents_apply (e : Expr) (name : String) :
    e.exponents name = (e.monomial.powers.map fun power =>
      if power.symbolName = name then power.factorExponent.val else 0).sum := by
  rw [exponents]
  induction e.monomial.powers with
  | nil => rfl
  | cons power rest ih =>
    rw [List.map_cons, List.sum_cons, Finsupp.add_apply, ih, List.map_cons, List.sum_cons,
      Finsupp.single_apply]

namespace LaurentTerm

variable {e : Expr}

/-- A term is collected into its monomial with its coefficient. -/
theorem collected (term : e.LaurentTerm) : e.collected = single e.exponents e.coefficient := by
  apply term.laurent.collected_eq
  intro assignment
  rw [term.valueIn, Collected.eval_single, exponents_character]

end LaurentTerm

/-- The symbols of a monomial are those of its powers. -/
theorem LaurentMonomial.hasSymbol_eq_false_iff {e : Expr} {name : String}
    (laurent : e.LaurentMonomial) :
    e.hasSymbol name = false ↔ ∀ power ∈ e.powers, power.symbolName ≠ name := by
  have ofPowers : ∀ powers, (Expr.ofPowers powers).hasSymbol name = false ↔
      ∀ power ∈ powers, power.hasSymbol name = false := by
    intro powers
    match powers with
    | [] => exact iff_of_true rfl fun _ member => nomatch member
    | [power] =>
      rw [List.forall_mem_singleton]
      rfl
    | first :: second :: rest => exact (inherited_lacks name).mul_iff _
  have single : ∀ power ∈ e.powers,
      (power.hasSymbol name = false ↔ power.symbolName ≠ name) := by
    intro power member
    have isSymbol := (laurent.power member).1
    have base : ∀ symbol : String, (Expr.sym symbol).hasSymbol name = false ↔ symbol ≠ name := by
      intro symbol
      rw [Expr.hasSymbol_eq_false_iff, and_iff_left fun _ member => nomatch member]
      simp
    rw [← base, ← isSymbol]
    cases power with
    | pow inner exponent =>
      exact ((inherited_lacks name).pow_iff inner exponent).trans (and_iff_left fun _ => trivial)
    | _ => rfl
  rw [← laurent.ofPowers, ofPowers, laurent.ofPowers]
  exact forall₂_congr single

namespace LaurentTerm

variable {e : Expr}

/-- A term holds the symbols whose exponent is not zero. -/
theorem hasSymbol_eq_false_iff (term : e.LaurentTerm) {name : String} :
    e.hasSymbol name = false ↔ e.exponents name = 0 := by
  have monomial : e.hasSymbol name = false ↔ e.monomial.hasSymbol name = false := by
    cases isNum : e.isNum with
    | true =>
      obtain ⟨value, rfl⟩ := eq_num_of_isNum isNum
      exact iff_of_true rfl rfl
    | false =>
      rw [monomial_of_not_num isNum]
      constructor
      · exact (inherited_lacks name).splitCoefficient
      · intro lacks
        rw [(term.canonical.split isNum term.product.not_add).2]
        exact (inherited_lacks name).scale _ lacks
  have laurent := term.laurentMonomial
  rw [monomial, laurent.hasSymbol_eq_false_iff, exponents_apply]
  constructor
  · intro absent
    refine List.sum_eq_zero fun value member => ?_
    obtain ⟨power, inside, rfl⟩ := List.mem_map.mp member
    rw [if_neg (absent power inside)]
  · intro isZero power member same
    have others : ∀ other, other ≠ power → other ∈ e.monomial.powers →
        (if other.symbolName = name then other.factorExponent.val else 0) = 0 := by
      intro other different inside
      rw [if_neg]
      intro sameOther
      exact different (List.inj_on_of_nodup_map laurent.symbols inside member
        (sameOther.trans same.symm))
    rw [List.sum_map_eq_nsmul_single power _ others,
      List.count_eq_one_of_mem laurent.symbols.of_map member, one_nsmul, if_pos same] at isZero
    exact (laurent.power member).2.1 isZero

end LaurentTerm

end FiniteVolume.Expr
