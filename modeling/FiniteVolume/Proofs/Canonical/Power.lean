import FiniteVolume.Proofs.Canonical.Product

/-!
# Operators on canonical trees

Powers, negatives, differences and quotients of canonical trees that do not divide by zero are
canonical. A quotient may divide by zero, and stays canonical even then.
-/

namespace FiniteVolume.Expr

/-- A canonical tree that can be divided by. -/
structure Invertible (e : Expr) : Prop where
  canonical : e.Canonical
  regular : e.dividesByZero = false
  nonzero : e ≠ zero

/-- The children of a tree that does not divide by zero do not either. -/
theorem dividesByZero_of_mem_eq_false {e arg : Expr} (regular : e.dividesByZero = false)
    (member : arg ∈ e.args) : arg.dividesByZero = false := by
  rw [← Bool.not_eq_true] at regular ⊢
  exact fun divides => regular (dividesByZero_of_mem_args member divides)

/-- A negative power of zero divides by zero. -/
theorem dividesByZero_pow_zero {exponent : Exponent} (negative : exponent.val < 0) :
    (Expr.pow zero exponent).dividesByZero = true :=
  dividesByZero_iff.mpr (Or.inl (by simp [isInverseOfZero, isZero, zero, negative]))

/-- The factors of an invertible product are invertible. -/
theorem Invertible.factor {factors : List Expr} (invertible : (Expr.mul factors).Invertible)
    {factor : Expr} (member : factor ∈ factors) : factor.Invertible where
  canonical := invertible.canonical.arg member
  regular := dividesByZero_of_mem_eq_false invertible.regular member
  nonzero := by
    rintro rfl
    have singular := (canonical_mul_iff.mp invertible.canonical).1.zero_singular member
    exact absurd invertible.regular (by simp [singular])

/-- The base of an invertible power is invertible. -/
theorem Invertible.base {base : Expr} {exponent : Exponent}
    (invertible : (Expr.pow base exponent).Invertible) : base.Invertible where
  canonical := (canonical_pow_iff.mp invertible.canonical).2
  regular := dividesByZero_of_mem_eq_false invertible.regular (by simp [args])
  nonzero := by
    rintro rfl
    rcases (canonical_pow_iff.mp invertible.canonical).1.generator with generator | ⟨-, negative⟩
    · cases generator
    · exact absurd invertible.regular (by simp [dividesByZero_pow_zero negative])

/-- Sums, products and powers invert nothing but their invertible operands. -/
theorem hereditary_invertible : Hereditary (NegativeBases Invertible) Invertible :=
  Hereditary.negativeBases (fun _ invertible _ member => invertible.factor member)
    (fun _ _ invertible _ => invertible.base)

/-- A canonical tree that does not divide by zero divides by invertible trees only. -/
theorem Canonical.negativeBases {e : Expr} (canonical : e.Canonical)
    (regular : e.dividesByZero = false) : e.NegativeBases Invertible := by
  induction e with
  | pow base exponent ih =>
    have canonicalBase := (canonical_pow_iff.mp canonical).2
    have regularBase := dividesByZero_of_mem_eq_false regular (List.mem_singleton_self base)
    refine (hereditary_invertible.pow_iff base exponent).mpr
      ⟨ih canonicalBase regularBase, fun negative => ⟨canonicalBase, regularBase, ?_⟩⟩
    rintro rfl
    exact absurd regular (by simp [dividesByZero_pow_zero negative])
  | num value => exact hereditary_invertible.num value
  | sym name => exact negativeBases_iff.mpr ⟨fun _ _ => by simp, fun _ member => nomatch member⟩
  | add terms ih | mul factors ih | vector components ih | call head args ih =>
    refine negativeBases_iff.mpr ⟨fun _ _ => by simp, fun arg member => ?_⟩
    exact ih arg member (canonical.arg member) (dividesByZero_of_mem_eq_false regular member)

/-- A tree does not divide by zero if all bases of its negative powers have a property that zero
does not have. -/
theorem NegativeBases.regular_of_ne_zero {ofBase : Expr → Prop} {e : Expr}
    (bases : e.NegativeBases ofBase) (nonzero : ¬ofBase zero) : e.dividesByZero = false := by
  rw [← Bool.not_eq_true, dividesByZero, List.any_eq_true]
  rintro ⟨subterm, member, inverse⟩
  cases subterm with
  | pow base exponent =>
    simp only [isInverseOfZero, Bool.and_eq_true, decide_eq_true_eq] at inverse
    obtain ⟨isZero, negative⟩ := inverse
    exact nonzero (eq_zero_of_isZero isZero ▸ bases base exponent member negative)
  | _ => cases inverse

/-- A tree that divides by invertible trees only does not divide by zero. -/
theorem NegativeBases.regular {e : Expr} (bases : e.NegativeBases Invertible) :
    e.dividesByZero = false :=
  bases.regular_of_ne_zero fun invertible => invertible.nonzero rfl

/-- Why the power of a canonical factor is canonical: it is a number or a power of the same base. -/
theorem Canonical.raise_of_not_mul {e result : Expr} {exponent : Exponent}
    {product : List Expr → Option Expr} (canonical : e.Canonical)
    (notMul : ∀ factors, e ≠ .mul factors)
    (defined : raise product e exponent = some result) :
    result.Canonical ∧ (∀ factors, result ≠ .mul factors) ∧
      (result.isNum = true ∨ result.base = e.base) := by
  have ofEntry : ∀ {base : Expr} {total : Exponent}, CanonicalEntry (base, total) →
      ∀ {power}, power = writtenPower base total →
        power.Canonical ∧ (∀ factors, power ≠ .mul factors) ∧
          (power.isNum = true ∨ power.base = base) := by
    rintro base total entry _ rfl
    by_cases isZero : total.val = 0
    · have isOne : writtenPower base total = one := by simp [writtenPower, isZero]
      rw [isOne]
      exact ⟨canonical_num 1, fun _ => by simp [one], Or.inl rfl⟩
    · obtain ⟨canonical, -, notMul, same⟩ := entry.writtenPower isZero
      exact ⟨canonical, notMul, Or.inr same⟩
  have ofGenerator : e.isGenerator = true → e.base = e → result.Canonical ∧
      (∀ factors, result ≠ .mul factors) ∧ (result.isNum = true ∨ result.base = e.base) := by
    intro generator isBase
    have entry : CanonicalEntry (e, exponent) := ⟨canonical, Or.inl generator⟩
    rw [entry.raise] at defined
    rw [isBase]
    exact ofEntry entry (Option.some.inj defined).symm
  have ofNumber : ∀ {number : Expr} {total : Exponent}, number.isNum = true →
      raise product number total = some result → result.Canonical ∧
        (∀ factors, result ≠ .mul factors) ∧ (result.isNum = true ∨ result.base = number) := by
    intro number total isNumber raised
    obtain ⟨value, rfl⟩ := eq_num_of_isNum isNumber
    unfold raise at raised
    split at raised
    · cases raised
      exact ⟨canonical_num 1, fun _ => by simp [one], Or.inl rfl⟩
    · rename_i ne_zero
      split at raised
      · cases raised
        exact ⟨canonical_num value, fun _ => by simp, Or.inl rfl⟩
      · rename_i ne_one
        dsimp only at raised
        split at raised
        · rename_i singular
          obtain ⟨rfl, negative⟩ := singular
          cases raised
          exact ⟨canonical_pow_iff.mpr ⟨⟨ne_zero, ne_one, Or.inr ⟨rfl, negative⟩⟩, canonical_num 0⟩,
            fun _ => by simp, Or.inr rfl⟩
        · cases raised
          exact ⟨canonical_num _, fun _ => by simp, Or.inl rfl⟩
  cases e with
  | mul factors => exact absurd rfl (notMul factors)
  | num value => exact ofNumber rfl defined
  | pow base inner =>
    obtain ⟨power, canonicalBase⟩ := canonical_pow_iff.mp canonical
    unfold raise at defined
    split at defined
    · cases defined
      exact ⟨canonical_num 1, fun _ => by simp [one], Or.inl rfl⟩
    · split at defined
      · cases defined
        exact ⟨canonical, notMul, Or.inr rfl⟩
      · obtain ⟨total, -, raised⟩ := Option.bind_eq_some_iff.mp defined
        rcases power.generator with generator | ⟨rfl, -⟩
        · have entry : CanonicalEntry (base, total) := ⟨canonicalBase, Or.inl generator⟩
          rw [entry.raise] at raised
          exact ofEntry entry (Option.some.inj raised).symm
        · exact ofNumber rfl raised
  | _ => exact ofGenerator rfl rfl

/-- A sum inside a factor leaves room for the sum in the nesting depth. -/
theorem productDepth_of_base {e : Expr} {terms : List Expr} (isBase : e.base = .add terms) :
    0 < e.productDepth := by
  cases e with
  | pow base exponent =>
    change base = .add terms at isBase
    rw [isBase]
    simp [productDepth]
  | add terms => simp [productDepth]
  | _ => cases isBase

/-- A tree has no deeper products than the list it is in. -/
theorem productDepth_le_of_mem {e : Expr} {es : List Expr} (member : e ∈ es) :
    e.productDepth ≤ productDepthOfAll es := by
  induction es with
  | nil => cases member
  | cons first rest ih =>
    rcases List.mem_cons.mp member with rfl | later
    · exact le_max_left _ _
    · exact (ih later).trans (le_max_right _ _)

/-- The factors of a tree have no deeper products than the tree. -/
theorem productDepth_of_mem_factors {e factor : Expr} (member : factor ∈ e.factors) :
    factor.productDepth ≤ e.productDepth := by
  cases e with
  | mul factors => exact productDepth_le_of_mem member
  | _ => exact (List.mem_singleton.mp member) ▸ le_refl _

/-- Powers of canonical trees that do not divide by zero are canonical. -/
theorem Canonical.raise {depth : Nat} {e result : Expr} {exponent : Exponent}
    (canonical : e.Canonical) (regular : e.dividesByZero = false) (deep : e.productDepth ≤ depth)
    (defined : Expr.raise (prodToDepth (depth + 1)) e exponent = some result) :
    result.Canonical := by
  cases e with
  | mul factors =>
    unfold Expr.raise at defined
    split at defined
    · cases defined
      exact canonical_num 1
    · split at defined
      · cases defined
        exact canonical
      · obtain ⟨powers, raised, multiplied⟩ := Option.bind_eq_some_iff.mp defined
        rw [raiseAll_eq_mapM] at raised
        have source : ∀ power ∈ powers, ∃ factor ∈ factors, power.Canonical ∧
            (∀ inner, power ≠ .mul inner) ∧ (power.isNum = true ∨ power.base = factor.base) := by
          intro power member
          obtain ⟨factor, inside, raises⟩ := exists_of_mem_mapM raised member
          exact ⟨factor, inside, (canonical.arg inside).raise_of_not_mul
            (canonical.not_mul_of_mem_factors inside).2 raises⟩
        refine canonical_prodToDepth (fun power member => ?_) (fun power member part inPower => ?_)
          (fun power member part inPower terms isSum => ?_) multiplied
        · obtain ⟨_, -, canonical, -⟩ := source power member
          exact canonical
        · obtain ⟨factor, inside, -, notMul, isNum | same⟩ := source power member
          all_goals
            rw [factors_of_not_mul notMul, List.mem_singleton] at inPower
            subst inPower
          · obtain ⟨value, rfl⟩ := eq_num_of_isNum isNum
            rfl
          · rw [same, ← Bool.not_eq_true]
            intro divides
            exact absurd (dividesByZero_of_mem_eq_false regular inside)
              (by simp [dividesByZero_of_base divides])
        · obtain ⟨factor, inside, -, notMul, isNum | same⟩ := source power member
          all_goals
            rw [factors_of_not_mul notMul, List.mem_singleton] at inPower
            subst inPower
          · obtain ⟨value, rfl⟩ := eq_num_of_isNum isNum
            cases isSum
          · have positive := productDepth_of_base (same ▸ isSum)
            have inner := productDepth_of_mem_factors (e := .mul factors) inside
            omega
  | _ => exact (canonical.raise_of_not_mul (fun _ => by simp) defined).1

/-- Factors of a tree that does not divide by zero have bases that do not. -/
theorem regular_bases {e : Expr} (regular : e.dividesByZero = false) :
    ∀ factor ∈ e.factors, factor.base.dividesByZero = false := by
  intro factor member
  rw [← Bool.not_eq_true] at regular ⊢
  exact fun divides => regular (dividesByZero_of_mem_factors member (dividesByZero_of_base divides))

/-- Products of canonical trees are canonical if no base of their factors divides by zero. -/
theorem canonical_prod {es : List Expr} {result : Expr} (canonical : ∀ e ∈ es, e.Canonical)
    (regular : ∀ e ∈ es, ∀ factor ∈ e.factors, factor.base.dividesByZero = false)
    (defined : prod es = some result) : result.Canonical := by
  refine canonical_prodToDepth canonical regular (fun e member factor inside terms isSum => ?_)
    defined
  have positive := productDepth_of_base isSum
  have upper := (productDepth_of_mem_factors inside).trans (productDepth_le_of_mem member)
  omega

/-- Powers of canonical trees that do not divide by zero are canonical. -/
theorem Canonical.power {e result : Expr} {exponent : Exponent} (canonical : e.Canonical)
    (regular : e.dividesByZero = false) (defined : Expr.power e exponent = some result) :
    result.Canonical :=
  canonical.raise regular (Nat.le_refl _) defined

/-- The negative of a canonical tree that does not divide by zero is canonical. -/
theorem Canonical.neg {e result : Expr} (canonical : e.Canonical)
    (regular : e.dividesByZero = false) (defined : Expr.neg e = some result) :
    result.Canonical := by
  refine canonical_prod ?_ ?_ defined
  · exact forall_mem_pair ⟨canonical_num _, canonical⟩
  · exact forall_mem_pair ⟨regular_bases rfl, regular_bases regular⟩

/-- The difference of canonical trees is canonical if what is subtracted does not divide by zero. -/
theorem Canonical.sub {left right result : Expr} (canonicalLeft : left.Canonical)
    (canonicalRight : right.Canonical) (regular : right.dividesByZero = false)
    (defined : Expr.sub left right = some result) : result.Canonical := by
  obtain ⟨negated, negates, same⟩ := Option.bind_eq_some_iff.mp defined
  cases same
  exact canonical_sum (forall_mem_pair
    ⟨canonicalLeft, canonicalRight.neg regular negates⟩)

/-- The inverse of a canonical tree divides by zero only if it is the inverse of zero, and the base
of this inverse does not divide by zero. -/
theorem Canonical.regular_bases_of_power {e result : Expr} {exponent : Exponent}
    (canonical : e.Canonical) (regular : e.dividesByZero = false)
    (defined : Expr.power e exponent = some result) :
    ∀ factor ∈ result.factors, factor.base.dividesByZero = false := by
  by_cases isZero : e = zero
  · subst isZero
    obtain ⟨-, notMul, isNum | same⟩ :=
      canonical.raise_of_not_mul (fun _ => by simp [zero]) defined
    · obtain ⟨value, rfl⟩ := eq_num_of_isNum isNum
      exact regular_bases rfl
    · rw [factors_of_not_mul notMul]
      exact List.forall_mem_singleton.mpr (same ▸ regular)
  · exact regular_bases (hereditary_invertible.power defined (canonical.negativeBases regular)
      fun _ => ⟨canonical, regular, isZero⟩).regular

/-- The quotient of canonical trees that do not divide by zero is canonical. -/
theorem Canonical.quot {left right result : Expr} (canonicalLeft : left.Canonical)
    (canonicalRight : right.Canonical) (regularLeft : left.dividesByZero = false)
    (regularRight : right.dividesByZero = false) (defined : Expr.quot left right = some result) :
    result.Canonical := by
  obtain ⟨inverse, inverts, multiplied⟩ := Option.bind_eq_some_iff.mp defined
  refine canonical_prod ?_ ?_ multiplied
  · exact forall_mem_pair ⟨canonicalLeft, canonicalRight.power regularRight inverts⟩
  · exact forall_mem_pair ⟨regular_bases regularLeft,
      canonicalRight.regular_bases_of_power regularRight inverts⟩

end FiniteVolume.Expr
