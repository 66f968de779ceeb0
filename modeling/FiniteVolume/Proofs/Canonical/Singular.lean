import FiniteVolume.Proofs.Canonical.Regrouping

/-!
# Divisions by zero under the operators

A sum divides by zero exactly when one of its operands does. A product or a power may lose a
division by zero: what divides by zero in it are the bases that are zero and raised to a negative
exponent, and the bases that divide by zero themselves and do not cancel (`Singular`). Which of the
operators keep a division by zero is read off these exponents (`dividesByZero_operators`).
-/

namespace FiniteVolume.Expr

/-- Whether a power divides by zero: its base is zero and its exponent negative, or its base
divides by zero and does not cancel. -/
def SingularAt (base : Expr) (exponent : ℤ) : Prop :=
  base = zero ∧ exponent < 0 ∨ base.dividesByZero = true ∧ exponent ≠ 0

/-- Whether powers of different bases divide by zero. -/
def Singular (powers : Expr →₀ ℤ) : Prop := ∃ base, SingularAt base (powers base)

/-- A base is not singular at exponent zero. -/
theorem not_singularAt_zero (base : Expr) : ¬SingularAt base 0 := by
  simp [SingularAt]

/-- A base is singular at a positive exponent exactly when it divides by zero. -/
theorem singularAt_of_pos {base : Expr} {exponent : ℤ} (positive : 0 < exponent) :
    SingularAt base exponent ↔ base.dividesByZero = true := by
  simp [SingularAt, positive.ne', positive.le]

/-- A power divides by zero at its base or by it. -/
theorem dividesByZero_pow (base : Expr) (exponent : Exponent) :
    (Expr.pow base exponent).dividesByZero = true ↔
      base = zero ∧ exponent.val < 0 ∨ base.dividesByZero = true := by
  have isZero : base.isZero = true ↔ base = zero :=
    ⟨eq_zero_of_isZero, fun same => by rw [same]; rfl⟩
  rw [dividesByZero_iff]
  simp [isInverseOfZero, args, isZero]

/-- A written power divides by zero exactly when its base is singular at the exponent. -/
theorem dividesByZero_writtenPower (base : Expr) (exponent : Exponent) :
    (writtenPower base exponent).dividesByZero = true ↔ SingularAt base exponent.val := by
  unfold writtenPower
  split
  · rename_i isZero
    rw [isZero]
    exact iff_of_false (by simp [one]) (not_singularAt_zero base)
  · rename_i nonzero
    split
    · rename_i isOne
      rw [isOne, singularAt_of_pos one_pos]
    · rw [dividesByZero_pow, SingularAt, and_iff_left nonzero]

/-- A factor divides by zero exactly when its base is singular at its exponent. -/
theorem Power.dividesByZero_iff {factor : Expr} (power : factor.Power) :
    factor.dividesByZero = true ↔ SingularAt factor.base factor.factorExponent.val := by
  obtain ⟨-, -, written⟩ := power.canonical.entry power.notNum power.notMul
  rw [← dividesByZero_writtenPower, written]

/-- Multiples of the exponents of factors with different bases. -/
theorem singular_smul_exponentsOf {factors : List Expr}
    (bases : factors.Pairwise fun left right => left.base ≠ right.base) (n : ℤ) :
    Singular (n • exponentsOf factors) ↔
      ∃ factor ∈ factors, SingularAt factor.base (n * factor.factorExponent.val) :=
  @exists_weights_iff _ _ _ _ _ _ _ bases (fun base exponent => SingularAt base (n * exponent))
    fun base => by
      rw [mul_zero]
      exact not_singularAt_zero base

/-- Exponents are singular exactly when one of the factors divides by zero. -/
theorem singular_exponentsOf {factors : List Expr} (powers : ∀ factor ∈ factors, factor.Power)
    (bases : factors.Pairwise fun left right => left.base ≠ right.base) :
    Singular (exponentsOf factors) ↔ ∃ factor ∈ factors, factor.dividesByZero = true := by
  have scaled := singular_smul_exponentsOf bases 1
  rw [one_smul] at scaled
  rw [scaled]
  refine exists_congr fun factor => and_congr_right fun member => ?_
  rw [one_mul, (powers factor member).dividesByZero_iff]

/-- A tree divides by zero exactly when one of its factors does. -/
theorem dividesByZero_iff_factors (e : Expr) :
    e.dividesByZero = true ↔ ∃ factor ∈ e.factors, factor.dividesByZero = true := by
  cases e with
  | mul factors => rw [dividesByZero_mul, List.any_eq_true]; rfl
  | _ => simp [factors]

/-- Numbers among the factors do not divide by zero. -/
theorem dividesByZero_of_filter (factors : List Expr) :
    (∃ factor ∈ factors, factor.dividesByZero = true) ↔
      ∃ factor ∈ factors.filter fun factor => !factor.isNum, factor.dividesByZero = true := by
  refine exists_congr fun factor => ?_
  rw [List.mem_filter, and_assoc]
  refine and_congr_right fun _ => (and_iff_right_of_imp fun divides => ?_).symm
  cases factor <;> first | rfl | cases divides

/-- Whether a canonical tree divides by zero is read off how often it multiplies every base. -/
theorem Canonical.dividesByZero_iff_singular {e : Expr} (canonical : e.Canonical) :
    e.dividesByZero = true ↔ Singular e.multiplicities := by
  rw [multiplicities, singular_exponentsOf canonical.powers canonical.factors_bases,
    ← dividesByZero_of_filter, ← dividesByZero_iff_factors]

section Sums

/-- That a tree does not divide by zero passes between sums and their terms. -/
theorem termwise_regular : Termwise fun e => e.dividesByZero = false where
  num := dividesByZero_num
  terms _ regular _ member := dividesByZero_of_mem_eq_false regular member
  add first second rest regular := by
    rw [← Bool.not_eq_true, dividesByZero_iff]
    simpa [isInverseOfZero, args] using regular
  splitCoefficient term regular := by
    rcases splitCoefficient_cases term with ⟨c, f, rfl, split⟩ | ⟨c, fs, rfl, -, split⟩ | split
    all_goals rw [split]
    · exact dividesByZero_of_mem_eq_false regular (by simp [args])
    · rw [dividesByZero_mul, List.any_cons, Bool.or_eq_false_iff] at regular
      rw [dividesByZero_mul]
      exact regular.2
    · exact regular
  scale coefficient monomial regular := (dividesByZero_scale coefficient monomial).trans regular

/-- A coefficient does not divide by zero. -/
theorem dividesByZero_splitCoefficient (e : Expr) :
    e.splitCoefficient.2.dividesByZero = e.dividesByZero := by
  rcases splitCoefficient_cases e with ⟨c, f, rfl, split⟩ | ⟨c, fs, rfl, -, split⟩ | split
  all_goals rw [split]
  all_goals simp [dividesByZero_mul]

/-- A division by zero is in one of the summands. -/
theorem exists_singular_summand (e : Expr) (divides : e.dividesByZero = true) :
    ∃ term ∈ e.summands, term.dividesByZero = true := by
  induction e with
  | add terms ih =>
    obtain inverse | ⟨term, member, divides⟩ := dividesByZero_iff.mp divides
    · cases inverse
    · obtain ⟨summand, inside, divides⟩ := ih term member divides
      refine ⟨summand, ?_, divides⟩
      rw [summands, summandsOfAll_eq_flatMap]
      exact List.mem_flatMap.mpr ⟨term, member, inside⟩
  | _ => exact ⟨_, List.mem_singleton_self _, divides⟩

/-- A term that is no number has its monomial collected. -/
theorem LikeTerms.exists_entry {terms : List Expr} {term : Expr} (member : term ∈ terms)
    (notNum : term.isNum = false) : ∃ value,
      (LikeTerms.ofTerms terms).coefficients.get? term.splitCoefficient.2 = some value := by
  induction terms with
  | nil => cases member
  | cons first rest ih =>
    change ∃ value, (LikeTerms.insert first (LikeTerms.ofTerms rest)).coefficients.get?
      term.splitCoefficient.2 = some value
    cases isNum : first.isNum with
    | true =>
      obtain ⟨value, rfl⟩ := eq_num_of_isNum isNum
      rcases List.mem_cons.mp member with rfl | later
      · cases notNum
      · exact ih later
    | false =>
      rw [insert_of_not_num isNum, Tally.get?_insert]
      split
      · exact ⟨_, rfl⟩
      · rename_i different
        rcases List.mem_cons.mp member with rfl | later
        · exact absurd rfl different
        · exact ih later

/-- A term that divides by zero has its monomial collected. -/
theorem LikeTerms.exists_singular_entry {terms : List Expr} {term : Expr} (member : term ∈ terms)
    (divides : term.dividesByZero = true) :
    ∃ entry ∈ (LikeTerms.ofTerms terms).coefficients, entry.1.dividesByZero = true := by
  have notNum : term.isNum = false := by
    cases term <;> first | rfl | cases divides
  obtain ⟨value, found⟩ := LikeTerms.exists_entry member notNum
  exact ⟨_, Tally.mem_of_get? found, (dividesByZero_splitCoefficient term).trans divides⟩

/-- A sum divides by zero if one of its terms does. -/
theorem dividesByZero_ofTerms {terms : List Expr} {term : Expr} (member : term ∈ terms)
    (divides : term.dividesByZero = true) : (ofTerms terms).dividesByZero = true := by
  match terms with
  | [only] => exact List.mem_singleton.mp member ▸ divides
  | first :: second :: rest => exact dividesByZero_of_mem_args member divides

/-- A sum divides by zero exactly when one of its operands does. -/
theorem dividesByZero_sum (es : List Expr) :
    (sum es).dividesByZero = true ↔ ∃ e ∈ es, e.dividesByZero = true := by
  constructor
  · intro divides
    by_contra! regular
    have sumRegular := termwise_regular.sum fun e member => by simpa using regular e member
    rw [sumRegular] at divides
    cases divides
  · rintro ⟨e, member, divides⟩
    obtain ⟨term, inside, divides⟩ := exists_singular_summand e divides
    have summand : term ∈ summandsOfAll es := by
      rw [summandsOfAll_eq_flatMap]
      exact List.mem_flatMap.mpr ⟨e, member, inside⟩
    obtain ⟨entry, collected, divides⟩ := LikeTerms.exists_singular_entry summand divides
    rw [sum, LikeTerms.toTerms_eq_sort]
    -- the coefficient may vanish, but the term stays because its monomial divides by zero
    have kept : LikeTerms.keeps entry.1 entry.2 = true := by simp [LikeTerms.keeps, divides]
    refine dividesByZero_ofTerms (mem_sort.mpr (List.mem_append_left _ (List.mem_map.mpr
      ⟨entry, List.mem_filter.mpr ⟨collected, kept⟩, rfl⟩))) ?_
    rw [dividesByZero_scale, divides]

end Sums

section Products

/-- A product put together from a coefficient and factors divides by zero exactly when one of the
factors does, if a coefficient that is distributed neither loses nor adds divisions by zero. -/
theorem dividesByZero_ofFactors {product : List Expr → Option Expr} {coefficient : Rat}
    {factors : List Expr} {result : Expr}
    (scaled : ∀ terms, factors = [.add terms] → ∀ term ∈ terms, ∀ multiple,
      product [.num coefficient, term] = some multiple →
        (multiple.dividesByZero = true ↔ term.dividesByZero = true))
    (formed : ofFactors product coefficient factors = some result) :
    result.dividesByZero = true ↔ ∃ factor ∈ factors, factor.dividesByZero = true := by
  have node : ∀ terms : List Expr, (Expr.add terms).dividesByZero = true ↔
      ∃ term ∈ terms, term.dividesByZero = true := by
    intro terms
    rw [dividesByZero_iff]
    simp [isInverseOfZero, args]
  unfold ofFactors at formed
  split at formed
  · cases formed
    simp
  · rename_i terms
    split at formed
    · cases formed
      simp
    · obtain ⟨multiples, multiplied, same⟩ := Option.bind_eq_some_iff.mp formed
      cases same
      simp only [dividesByZero_sum, List.mem_singleton, exists_eq_left, node]
      exact exists_mem_iff_of_mapM multiplied (scaled terms rfl)
  · cases formed
    simp
  · split at formed <;> cases formed <;> simp [dividesByZero_mul]

/-- The order of factors does not matter to a division by zero. -/
theorem dividesByZero_of_sort {factors : List Expr} :
    (∃ factor ∈ sort factors, factor.dividesByZero = true) ↔
      ∃ factor ∈ factors, factor.dividesByZero = true :=
  exists_congr fun _ => and_congr_left' mem_sort

/-- A number times a canonical term divides by zero exactly when the term does. -/
theorem dividesByZero_prodToDepth_num {depth : Nat} {value : Rat} {term result : Expr}
    (canonical : term.Canonical) (notAdd : ∀ terms, term ≠ .add terms)
    (formed : prodToDepth depth [.num value, term] = some result) :
    result.dividesByZero = true ↔ term.dividesByZero = true := by
  cases depth with
  | zero =>
    cases formed
    simp [dividesByZero_mul]
  | succ depth =>
    have flat : [Expr.num value, term].flatMap factors = .num value :: term.factors := by
      simp [factors]
    have others : (Expr.num value :: term.factors).filter (fun factor => !factor.isNum) =
        term.factors.filter fun factor => !factor.isNum :=
      List.filter_cons_of_neg (by simp [isNum, value?])
    rw [prodToDepth_of_distinct (by simpa using ⟨canonical_num value, canonical⟩)
      (by rw [flat, others]; exact canonical.factors_bases), flat, others] at formed
    split at formed
    · rename_i vanishes
      cases formed
      refine iff_of_false (by simp [zero]) fun divides => vanishes.2 ?_
      obtain ⟨factor, member, divides⟩ := (dividesByZero_iff_factors term).mp divides
      exact ⟨factor, List.mem_cons_of_mem _ member, divides⟩
    · rw [dividesByZero_ofFactors _ formed, dividesByZero_of_sort, ← dividesByZero_of_filter,
        ← dividesByZero_iff_factors]
      intro terms single
      have perm := sort_perm (term.factors.filter fun factor => !factor.isNum)
      rw [single] at perm
      exact absurd (List.perm_singleton.mp perm.symm) (canonical.factors_ne_sum notAdd terms)

/-- A sum among canonical factors is multiplied term by term. -/
theorem dividesByZero_scaled {depth : Nat} {coefficient : Rat} {factors : List Expr}
    (canonical : ∀ factor ∈ factors, factor.Canonical) :
    ∀ terms, factors = [.add terms] → ∀ term ∈ terms, ∀ multiple,
      prodToDepth depth [.num coefficient, term] = some multiple →
        (multiple.dividesByZero = true ↔ term.dividesByZero = true) := by
  rintro terms rfl term member multiple multiplies
  obtain ⟨canonicalTerm, notAdd⟩ :=
    (canonical _ List.mem_cons_self).not_add_of_mem_terms (e := .add terms) member
  exact dividesByZero_prodToDepth_num canonicalTerm notAdd multiplies

/-- A product of canonical trees divides by zero exactly when the powers of the bases do that all
of them together multiply. -/
theorem dividesByZero_prod {es : List Expr} {result : Expr} (canonical : ∀ e ∈ es, e.Canonical)
    (formed : prod es = some result) :
    result.dividesByZero = true ↔ Singular (es.map multiplicities).sum := by
  rw [prod] at formed
  obtain ⟨collected, collects, -⟩ := Option.bind_eq_some_iff.mp formed
  obtain ⟨ascending, origins⟩ := LikeFactors.of_canonical canonical collects
  have entries : ∀ entry ∈ collected.exponents, CanonicalEntry entry := fun entry member =>
    (origins entry member).1
  have powers : ∀ power ∈ collected.powers, power.Power := by
    intro power member
    obtain ⟨entry, inside, nonzero, rfl⟩ := LikeFactors.mem_powers_cases member
    obtain ⟨canonical, notNum, notMul, -⟩ := (entries entry inside).writtenPower nonzero
    exact ⟨canonical, notNum, notMul⟩
  rw [← (LikeFactors.totals_of_canonical canonical collects).2,
    singular_exponentsOf powers (LikeFactors.powers_bases ascending entries)]
  rw [prodToDepth_of_entries entries collects] at formed
  split at formed
  · rename_i vanishes
    cases formed
    refine iff_of_false (by simp [zero]) ?_
    rintro ⟨power, member, divides⟩
    obtain ⟨entry, inside, -, rfl⟩ := LikeFactors.mem_powers_cases member
    refine vanishes.2 (List.any_eq_true.mpr ⟨entry, inside, ?_⟩)
    rcases (dividesByZero_writtenPower _ _).mp divides with ⟨isZero, negative⟩ | ⟨divides, -⟩
    · simp [isZero, Expr.isZero, zero, negative]
    · simp [divides]
  · rw [dividesByZero_ofFactors (dividesByZero_scaled fun power member =>
      (powers power (mem_sort.mp member)).canonical) formed, dividesByZero_of_sort]

end Products

section Powers

variable {product : List Expr → Option Expr} {exponent : Exponent} {e result : Expr}

/-- A power of a number is a number unless it is a negative power of zero. -/
theorem raise_num {value : Rat} (defined : ¬(value = 0 ∧ exponent.val < 0))
    (raised : raise product (.num value) exponent = some result) : result.isNum = true := by
  unfold raise at raised
  dsimp only at raised
  rw [if_neg defined] at raised
  split at raised
  · cases raised
    rfl
  · split at raised <;> cases raised <;> rfl

/-- A power of a generator or of zero divides by zero as it is written. -/
theorem dividesByZero_raise_base (canonical : e.Canonical)
    (isBase : e.isGenerator = true ∨ e = zero)
    (raised : raise product e exponent = some result) :
    result.dividesByZero = true ↔ SingularAt e exponent.val := by
  by_cases entry : CanonicalEntry (e, exponent)
  · rw [entry.raise] at raised
    cases raised
    exact dividesByZero_writtenPower e exponent
  · have notNegative : ¬exponent.val < 0 := fun negative =>
      entry ⟨canonical, isBase.imp_right fun isZero => ⟨isZero, negative⟩⟩
    have isZero : e = zero := isBase.resolve_left fun generator =>
      entry ⟨canonical, Or.inl generator⟩
    subst isZero
    obtain ⟨value, rfl⟩ := eq_num_of_isNum (raise_num (by simp [notNegative]) raised)
    simp [SingularAt, notNegative, zero]

/-- A power of a canonical factor divides by zero if its base does once the exponents are
multiplied, or if it is a negative power of the number zero. -/
theorem dividesByZero_raise_of_not_mul (canonical : e.Canonical)
    (notMul : ∀ factors, e ≠ .mul factors) (nonzero : exponent.val ≠ 0)
    (raised : raise product e exponent = some result) :
    result.dividesByZero = true ↔
      e.isNum = false ∧ SingularAt e.base (exponent.val * e.factorExponent.val) ∨
        exponent.val < 0 ∧ e = zero := by
  have ofGenerator : e.isGenerator = true → e.isNum = false → e.base = e →
      e.factorExponent = Exponent.one → (result.dividesByZero = true ↔
        e.isNum = false ∧ SingularAt e.base (exponent.val * e.factorExponent.val) ∨
          exponent.val < 0 ∧ e = zero) := by
    intro generator notNum isBase isOne
    have notZero : e ≠ zero := by
      rintro rfl
      cases notNum
    rw [dividesByZero_raise_base canonical (Or.inl generator) raised, isBase, isOne]
    simp [notNum, notZero, Exponent.one]
  cases e with
  | mul factors => exact absurd rfl (notMul factors)
  | num value =>
    by_cases singular : value = 0 ∧ exponent.val < 0
    · obtain ⟨rfl, negative⟩ := singular
      rw [dividesByZero_raise_base canonical (Or.inr rfl) raised]
      simp [SingularAt, negative, zero, isNum, value?]
    · obtain ⟨number, rfl⟩ := eq_num_of_isNum (raise_num singular raised)
      refine iff_of_false (by simp) ?_
      rintro (⟨notNum, -⟩ | ⟨negative, isZero⟩)
      · cases notNum
      · injection isZero with isZero
        exact singular ⟨isZero, negative⟩
  | pow base inner =>
    obtain ⟨power, canonicalBase⟩ := canonical_pow_iff.mp canonical
    have isBase := power.generator.imp_right And.left
    have exponents : result.dividesByZero = true ↔ SingularAt base (exponent.val * inner.val) := by
      unfold raise at raised
      rw [if_neg nonzero] at raised
      split at raised
      · rename_i isOne
        cases raised
        rw [dividesByZero_pow, SingularAt, isOne, one_mul, and_iff_left power.ne_zero]
      · obtain ⟨total, multiplied, raised⟩ := Option.bind_eq_some_iff.mp raised
        rw [dividesByZero_raise_base canonicalBase isBase raised,
          Exponent.val_of_mul? multiplied, mul_comm]
    rw [exponents]
    simp [isNum, value?, Expr.base, factorExponent, zero]
  | _ => exact ofGenerator rfl rfl rfl rfl

/-- A negative power of zero is zero once it is raised to a negative exponent. -/
theorem isNum_raise_of_base_zero (canonical : e.Canonical) (notNum : e.isNum = false)
    (notMul : ∀ factors, e ≠ .mul factors) (isZero : e.base = zero) (negative : exponent.val < 0)
    (raised : raise product e exponent = some result) : result.isNum = true := by
  obtain ⟨entry, -, -⟩ := canonical.entry notNum notMul
  have less : e.factorExponent.val < 0 := by
    rcases entry.generator with generator | ⟨-, less⟩
    · change e.base.isGenerator = true at generator
      rw [isZero] at generator
      cases generator
    · exact less
  cases e with
  | pow base inner =>
    change base = zero at isZero
    change inner.val < 0 at less
    subst isZero
    unfold raise at raised
    rw [if_neg (by omega), if_neg (by omega)] at raised
    obtain ⟨total, multiplied, raised⟩ := Option.bind_eq_some_iff.mp raised
    have positive : 0 < total.val := by
      rw [Exponent.val_of_mul? multiplied]
      exact mul_pos_of_neg_of_neg less negative
    exact raise_num (fun both => absurd both.2 (by omega)) raised
  | _ => exact absurd less (show ¬Exponent.one.val < 0 by decide)

/-- Different bases of canonical factors stay different when the factors are raised, and so do the
number zero and a negative power of zero, which exchange their places. -/
theorem base_ne_of_raised {left right first second : Expr}
    (canonicalLeft : left.Canonical) (canonicalRight : right.Canonical)
    (notMulLeft : ∀ factors, left ≠ .mul factors) (notMulRight : ∀ factors, right ≠ .mul factors)
    (notNumRight : right.isNum = false)
    (different : left.isNum = false → left.base ≠ right.base)
    (raisedLeft : raise product left exponent = some first)
    (raisedRight : raise product right exponent = some second)
    (notNumFirst : first.isNum = false) (notNumSecond : second.isNum = false) :
    first.base ≠ second.base := by
  have baseLeft := (canonicalLeft.raise_of_not_mul notMulLeft raisedLeft).2.2.resolve_left
    (by simp [notNumFirst])
  have baseRight := (canonicalRight.raise_of_not_mul notMulRight raisedRight).2.2.resolve_left
    (by simp [notNumSecond])
  rw [baseLeft, baseRight]
  cases isNum : left.isNum with
  | false => exact different isNum
  | true =>
    intro same
    obtain ⟨value, rfl⟩ := eq_num_of_isNum isNum
    have singular : value = 0 ∧ exponent.val < 0 := by
      by_contra regular
      rw [raise_num regular raisedLeft] at notNumFirst
      cases notNumFirst
    obtain ⟨rfl, negative⟩ := singular
    rw [isNum_raise_of_base_zero canonicalRight notNumRight notMulRight same.symm negative
      raisedRight] at notNumSecond
    cases notNumSecond

/-- The powers of the factors of a canonical product have different bases. -/
theorem bases_of_raised {factors powers : List Expr} (canonical : (Expr.mul factors).Canonical)
    (raised : (factors.mapM fun factor => raise product factor exponent) = some powers) :
    (powers.filter fun power => !power.isNum).Pairwise fun left right =>
      left.base ≠ right.base := by
  obtain ⟨isProduct, parts⟩ := canonical_mul_iff.mp canonical
  have notMul : ∀ factor ∈ factors, ∀ inner, factor ≠ .mul inner := fun factor member =>
    (canonical.not_mul_of_mem_factors member).2
  refine List.pairwise_filter.mpr (pairwise_of_mapM raised ?_)
  obtain ⟨first, rest, rfl⟩ := List.exists_cons_of_ne_nil
    (List.ne_nil_of_length_pos (Nat.lt_of_lt_of_le Nat.two_pos isProduct.several))
  have later : ∀ factor ∈ rest, factor.isNum = false := isProduct.number_first
  obtain ⟨differentFirst, differentLater⟩ :=
    List.pairwise_cons.mp (List.pairwise_filter.mp isProduct.bases)
  have apart : ∀ left ∈ first :: rest, ∀ right ∈ rest,
      (left.isNum = false → left.base ≠ right.base) →
      ∀ power power', raise product left exponent = some power →
        raise product right exponent = some power' → (!power.isNum) = true →
        (!power'.isNum) = true → power.base ≠ power'.base := by
    intro left inLeft right inRight different power power' raises raises' notNum notNum'
    have inFactors := List.mem_cons_of_mem first inRight
    exact base_ne_of_raised (parts left inLeft) (parts right inFactors) (notMul left inLeft)
      (notMul right inFactors) (later right inRight) different raises raises'
      (by simpa using notNum) (by simpa using notNum')
  refine List.pairwise_cons.mpr ⟨fun factor member => ?_,
    differentLater.imp_of_mem fun {left right} inLeft inRight different => ?_⟩
  · exact apart first List.mem_cons_self factor member fun notNum =>
      differentFirst factor member (by simp [notNum]) (by simp [later factor member])
  · exact apart left (List.mem_cons_of_mem _ inLeft) right inRight fun notNum =>
      different (by simp [notNum]) (by simp [later right inRight])

/-- Factors of a canonical tree that are raised stay canonical and are no products. -/
theorem parts_of_raised {factors powers : List Expr} (canonical : (Expr.mul factors).Canonical)
    (raised : (factors.mapM fun factor => raise product factor exponent) = some powers) :
    ∀ power ∈ powers, power.Canonical ∧ ∀ inner, power ≠ .mul inner := by
  intro power member
  obtain ⟨factor, inside, raises⟩ := exists_of_mem_mapM raised member
  obtain ⟨canonicalPower, notMul, -⟩ := (canonical.arg inside).raise_of_not_mul
    (canonical.not_mul_of_mem_factors inside).2 raises
  exact ⟨canonicalPower, notMul⟩

/-- The product of factors with different bases that are no products. -/
theorem product_of_distinct {depth : Nat} {es : List Expr}
    (parts : ∀ e ∈ es, e.Canonical ∧ ∀ factors, e ≠ .mul factors)
    (bases : (es.filter fun e => !e.isNum).Pairwise fun left right => left.base ≠ right.base)
    (deep : ∀ terms, .add terms ∈ es → 0 < depth)
    (formed : prodToDepth (depth + 1) es = some result) :
    result.Canonical ∧ (result.dividesByZero = true ↔ ∃ e ∈ es, e.dividesByZero = true) := by
  have flat : es.flatMap factors = es :=
    flatMap_factors_of_not_mul fun e member => (parts e member).2
  have kept : ∀ e ∈ sort (es.filter fun e => !e.isNum), e ∈ es ∧ e.isNum = false := by
    intro e member
    simpa using List.mem_filter.mp (mem_sort.mp member)
  rw [prodToDepth_of_distinct (fun e member => (parts e member).1) (by rwa [flat]), flat] at formed
  split at formed
  · rename_i vanishes
    cases formed
    exact ⟨canonical_num 0, iff_of_false (by simp [zero]) vanishes.2⟩
  · rename_i singular
    have factors : (∃ e ∈ sort (es.filter fun e => !e.isNum), e.dividesByZero = true) ↔
        ∃ e ∈ es, e.dividesByZero = true :=
      dividesByZero_of_sort.trans (dividesByZero_of_filter es).symm
    refine ⟨canonical_ofFactors (fun e member => ?_) (sort_pairwise _) ?_ (fun isZero => ?_)
      (fun terms single _ scaled multiplied term member => ?_) formed, ?_⟩
    · obtain ⟨inside, notNum⟩ := kept e member
      exact ⟨(parts e inside).1, notNum, (parts e inside).2⟩
    · exact ((sort_perm _).pairwise_iff fun different => Ne.symm different).mpr bases
    · exact factors.mpr (not_not.mp fun regular => singular ⟨isZero, regular⟩)
    · have inside := (kept (.add terms) (by simp [single])).1
      obtain ⟨lower, rfl⟩ := Nat.exists_eq_succ_of_ne_zero (Nat.ne_of_gt (deep terms inside))
      obtain ⟨summand, present, multiplies⟩ := exists_of_mem_mapM multiplied member
      obtain ⟨canonicalTerm, notAdd⟩ :=
        (parts _ inside).1.not_add_of_mem_terms (e := .add terms) present
      exact canonical_prodToDepth_num canonicalTerm notAdd multiplies
    · rw [dividesByZero_ofFactors (dividesByZero_scaled fun e member =>
        (parts e (kept e member).1).1) formed, factors]

/-- Multiples of the exponents of a tree that divide by zero, and a number zero that is divided by,
are found at its factors. -/
theorem Canonical.singular_smul_iff (canonical : e.Canonical) :
    (Singular (exponent.val • e.multiplicities) ∨ exponent.val < 0 ∧ e.coefficient = 0) ↔
      ∃ factor ∈ e.factors,
        factor.isNum = false ∧ SingularAt factor.base (exponent.val * factor.factorExponent.val) ∨
          exponent.val < 0 ∧ factor = zero := by
  have bases : Singular (exponent.val • e.multiplicities) ↔ ∃ factor ∈ e.factors,
      factor.isNum = false ∧ SingularAt factor.base (exponent.val * factor.factorExponent.val) := by
    rw [multiplicities, singular_smul_exponentsOf canonical.factors_bases]
    simp only [List.mem_filter, Bool.not_eq_true', and_assoc]
  have coefficient : e.coefficient = 0 ↔ zero ∈ e.factors := by
    rw [← canonical.prod_numbers, List.prod_eq_zero_iff, List.mem_map]
    constructor
    · rintro ⟨factor, member, isZero⟩
      obtain ⟨inside, isNum⟩ := List.mem_filter.mp member
      obtain ⟨value, rfl⟩ := eq_num_of_isNum isNum
      have same : Expr.num value = zero := congrArg Expr.num isZero
      exact same ▸ inside
    · intro member
      exact ⟨zero, List.mem_filter.mpr ⟨member, rfl⟩, rfl⟩
  rw [bases, coefficient]
  simp only [and_or_left, exists_or]
  refine or_congr_right ⟨?_, ?_⟩
  · rintro ⟨negative, member⟩
    exact ⟨zero, member, negative, rfl⟩
  · rintro ⟨factor, member, negative, rfl⟩
    exact ⟨negative, member⟩

/-- Powers of canonical trees are canonical, also of those that divide by zero. A power divides by
zero if the multiplied exponents do, or if it divides by a product with the number zero. -/
theorem Canonical.power_cases (canonical : e.Canonical)
    (raised : Expr.power e exponent = some result) :
    result.Canonical ∧ (exponent.val ≠ 0 → (result.dividesByZero = true ↔
      Singular (exponent.val • e.multiplicities) ∨ exponent.val < 0 ∧ e.coefficient = 0)) := by
  have single : (∀ factors, e ≠ .mul factors) → result.Canonical ∧ (exponent.val ≠ 0 →
      (result.dividesByZero = true ↔ Singular (exponent.val • e.multiplicities) ∨
        exponent.val < 0 ∧ e.coefficient = 0)) := by
    intro notMul
    refine ⟨(canonical.raise_of_not_mul notMul raised).1, fun nonzero => ?_⟩
    rw [canonical.singular_smul_iff, factors_of_not_mul notMul,
      dividesByZero_raise_of_not_mul canonical notMul nonzero raised]
    simp
  cases e with
  | mul factors =>
    rw [Expr.power, Expr.raise] at raised
    split at raised
    · rename_i isZero
      cases raised
      exact ⟨canonical_num 1, fun nonzero => absurd isZero nonzero⟩
    · rename_i nonzero
      split at raised
      · rename_i isOne
        cases raised
        refine ⟨canonical, fun _ => ?_⟩
        rw [isOne, one_smul, canonical.dividesByZero_iff_singular]
        exact (or_iff_left fun both => absurd both.1 (by decide)).symm
      · obtain ⟨powers, raised, multiplied⟩ := Option.bind_eq_some_iff.mp raised
        rw [raiseAll_eq_mapM] at raised
        have deep : ∀ terms, .add terms ∈ powers → 0 < (Expr.mul factors).productDepth := by
          intro terms member
          obtain ⟨factor, inside, raises⟩ := exists_of_mem_mapM raised member
          have same := ((canonical.arg inside).raise_of_not_mul
            (canonical.not_mul_of_mem_factors inside).2 raises).2.2.resolve_left Bool.false_ne_true
          exact (productDepth_of_base same.symm).trans_le
            (productDepth_of_mem_factors (e := .mul factors) inside)
        obtain ⟨canonicalResult, divides⟩ := product_of_distinct (parts_of_raised canonical raised)
          (bases_of_raised canonical raised) deep multiplied
        refine ⟨canonicalResult, fun nonzero => ?_⟩
        rw [divides, canonical.singular_smul_iff]
        exact exists_mem_iff_of_mapM raised fun factor member power raises =>
          dividesByZero_raise_of_not_mul (canonical.arg member)
            (canonical.not_mul_of_mem_factors member).2 nonzero raises
  | _ => exact single fun _ => by simp

end Powers

/-- Which operators keep a division by zero. Sums and differences do. A product divides by zero
exactly when the powers do that its operands multiply together, a power when the multiplied
exponents do or it divides by zero, and a quotient is the product with the inverse. -/
theorem dividesByZero_operators {a b : Expr} (canonicalA : a.Canonical)
    (canonicalB : b.Canonical) :
    ((sum [a, b]).dividesByZero = true ↔ a.dividesByZero = true ∨ b.dividesByZero = true) ∧
    (∀ difference, sub b a = some difference →
      (difference.dividesByZero = true ↔ a.dividesByZero = true ∨ b.dividesByZero = true)) ∧
    (∀ product, prod [a, b] = some product →
      (product.dividesByZero = true ↔ Singular (a.multiplicities + b.multiplicities))) ∧
    (∀ exponent result, exponent.val ≠ 0 → power a exponent = some result →
      (result.dividesByZero = true ↔
        Singular (exponent.val • a.multiplicities) ∨ exponent.val < 0 ∧ a.coefficient = 0)) ∧
    (∀ quotient, quot a b = some quotient → ∃ inverse, power b Exponent.negOne = some inverse ∧
      (quotient.dividesByZero = true ↔ Singular (a.multiplicities + inverse.multiplicities))) ∧
    (a.dividesByZero = true ↔ Singular a.multiplicities) := by
  have product : ∀ {left right result : Expr}, left.Canonical → right.Canonical →
      prod [left, right] = some result → (result.dividesByZero = true ↔
        Singular (left.multiplicities + right.multiplicities)) := by
    intro left right result canonicalLeft canonicalRight formed
    rw [dividesByZero_prod (forall_mem_pair ⟨canonicalLeft, canonicalRight⟩) formed]
    simp
  refine ⟨by simp [dividesByZero_sum], fun difference formed => ?_,
    fun result formed => product canonicalA canonicalB formed,
    fun exponent result nonzero raised => (canonicalA.power_cases raised).2 nonzero,
    fun quotient formed => ?_, canonicalA.dividesByZero_iff_singular⟩
  · obtain ⟨negated, negates, same⟩ := Option.bind_eq_some_iff.mp formed
    cases same
    have opposite : negated.dividesByZero = true ↔ a.dividesByZero = true := by
      rw [product (canonical_num _) canonicalA negates, canonicalA.dividesByZero_iff_singular]
      have noPowers : (Expr.num (-1 : ℤ)).multiplicities = 0 := rfl
      rw [noPowers, zero_add]
    rw [dividesByZero_sum]
    simp [opposite, or_comm]
  · obtain ⟨inverse, inverts, formed⟩ := Option.bind_eq_some_iff.mp formed
    exact ⟨inverse, inverts, product canonicalA (canonicalB.power_cases inverts).1 formed⟩

/-- One over zero divides by zero in a sum, but its inverse is zero, and so is what is divided by
it. -/
theorem dividesByZero_operators_pole :
    (sum [.pow zero Exponent.negOne, .sym "x"]).dividesByZero = true ∧
      power (.pow zero Exponent.negOne) Exponent.negOne = some zero ∧
      ¬Singular (Exponent.negOne.val • (Expr.pow zero Exponent.negOne).multiplicities) ∧
      quot (.sym "x") (.pow zero Exponent.negOne) = some zero := by
  have canonicalPole : (Expr.pow zero Exponent.negOne).Canonical := canonical_pow_iff.mpr
    ⟨⟨by decide, by decide, Or.inr ⟨rfl, by decide⟩⟩, canonical_num 0⟩
  have all := dividesByZero_operators canonicalPole (canonical_sym "x")
  have inverts : power (.pow zero Exponent.negOne) Exponent.negOne = some zero := by
    decide +kernel
  refine ⟨all.1.mpr (Or.inl rfl), inverts, fun singular => ?_, by decide +kernel⟩
  have divides := (all.2.2.2.1 Exponent.negOne zero (by decide) inverts).mpr (Or.inl singular)
  cases divides

/-- A base that divides by zero is lost where it cancels. -/
example : quot (apply "sin" [.pow zero Exponent.negOne]) (apply "sin" [.pow zero Exponent.negOne]) =
    some one := by
  decide +kernel

end FiniteVolume.Expr
