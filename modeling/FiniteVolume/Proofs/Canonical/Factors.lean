import FiniteVolume.Proofs.Canonical.Basic

/-!
# Collected factors

The factors of canonical trees are numbers and powers of generators. Once they are collected, the
product is put together from their coefficient and the powers that do not cancel
(`prodToDepth_of_entries`). Factors with different bases are collected as they are
(`LikeFactors.ofFactors_perm`).
-/

namespace FiniteVolume.Expr

/-- The exponent of a factor. -/
def factorExponent : Expr → Exponent
  | .pow _ exponent => exponent
  | _ => Exponent.one

/-- How a power is written: an exponent of zero leaves one, an exponent of one is left out. -/
def writtenPower (base : Expr) (exponent : Exponent) : Expr :=
  if exponent.val = 0 then one else if exponent.val = 1 then base else .pow base exponent

/-- A base with an exponent that a canonical product may hold: the base is a generator, or it is
zero and the exponent is negative. -/
structure CanonicalEntry (entry : Expr × Exponent) : Prop where
  canonical : entry.1.Canonical
  generator : entry.1.isGenerator = true ∨ entry.1 = zero ∧ entry.2.val < 0

/-- A power with a canonical entry is written as it is. -/
theorem CanonicalEntry.raise {base : Expr} {exponent : Exponent}
    (valid : CanonicalEntry (base, exponent)) (product : List Expr → Option Expr) :
    raise product base exponent = some (writtenPower base exponent) := by
  unfold Expr.raise writtenPower
  split
  · rfl
  · split
    · rfl
    · rcases valid.generator with generator | ⟨same, negative⟩
      · change base.isGenerator = true at generator
        cases base <;> first | rfl | simp [isGenerator] at generator
      · change base = zero at same
        subst same
        change exponent.val < 0 at negative
        simp [zero, negative]

/-- The power of a canonical entry is canonical, and its base is that of the entry. -/
theorem CanonicalEntry.writtenPower {base : Expr} {exponent : Exponent}
    (valid : CanonicalEntry (base, exponent)) (nonzero : exponent.val ≠ 0) :
    (writtenPower base exponent).Canonical ∧ (Expr.writtenPower base exponent).isNum = false ∧
      (∀ factors, Expr.writtenPower base exponent ≠ .mul factors) ∧
      (Expr.writtenPower base exponent).base = base := by
  have canonical : base.Canonical := valid.canonical
  unfold Expr.writtenPower
  rw [if_neg nonzero]
  split
  · rename_i isOne
    rcases valid.generator with generator | ⟨-, negative⟩
    · change base.isGenerator = true at generator
      cases base <;> simp_all [isGenerator, isNum, value?, Expr.base]
    · change exponent.val < 0 at negative
      omega
  · rename_i ne_one
    exact ⟨canonical_pow_iff.mpr ⟨⟨nonzero, ne_one, valid.generator⟩, canonical⟩, rfl,
      fun _ => by simp, rfl⟩

/-- A canonical factor is a number or a power as it is written. -/
theorem Canonical.entry {e : Expr} (canonical : e.Canonical) (notNum : e.isNum = false)
    (notMul : ∀ factors, e ≠ .mul factors) :
    CanonicalEntry (e.base, e.factorExponent) ∧ e.factorExponent.val ≠ 0 ∧
      writtenPower e.base e.factorExponent = e := by
  cases e with
  | num value => simp [isNum, value?] at notNum
  | mul factors => exact absurd rfl (notMul factors)
  | pow base exponent =>
    obtain ⟨power, canonical⟩ := canonical_pow_iff.mp canonical
    refine ⟨⟨canonical, power.generator⟩, power.ne_zero, ?_⟩
    simp [writtenPower, Expr.base, factorExponent, power.ne_zero, power.ne_one]
  | _ => exact ⟨⟨canonical, Or.inl rfl⟩, by simp [factorExponent, Exponent.one], rfl⟩

/-- The factors of a canonical tree are not products. -/
theorem Canonical.not_mul_of_mem_factors {e factor : Expr} (canonical : e.Canonical)
    (member : factor ∈ e.factors) : factor.Canonical ∧ ∀ inner, factor ≠ .mul inner := by
  cases e with
  | mul factors =>
    obtain ⟨product, parts⟩ := canonical_mul_iff.mp canonical
    refine ⟨parts factor member, ?_⟩
    rintro inner rfl
    exact product.flat inner member
  | _ =>
    rw [List.mem_singleton.mp member]
    exact ⟨canonical, fun _ => by simp⟩

/-- A tree that is no product is its own loose factor. -/
theorem looseFactors_of_not_mul {e : Expr} (notMul : ∀ factors, e ≠ .mul factors) :
    e.looseFactors = [e] :=
  (looseFactors_cases e).resolve_left fun ⟨factors, same⟩ => notMul factors same

/-- No product is nested in a canonical product. -/
theorem Canonical.looseFactors {e : Expr} (canonical : e.Canonical) :
    e.looseFactors = e.factors := by
  cases e with
  | mul factors =>
    rw [Expr.looseFactors, looseFactorsOfAll_eq_flatMap, Expr.factors]
    have single : ∀ factor ∈ factors, factor.looseFactors = [factor] := fun factor member =>
      looseFactors_of_not_mul (canonical.not_mul_of_mem_factors member).2
    rw [List.flatMap_congr single, List.flatMap_singleton']
  | _ => rfl

/-- The loose factors of canonical trees are their factors. -/
theorem looseFactorsOfAll_of_canonical {es : List Expr} (canonical : ∀ e ∈ es, e.Canonical) :
    looseFactorsOfAll es = es.flatMap factors := by
  rw [looseFactorsOfAll_eq_flatMap]
  exact List.flatMap_congr fun e member => (canonical e member).looseFactors

namespace LikeFactors

/-- Multiplying by a factor that is no number adds its exponent to that of its base. -/
theorem insert_of_not_num {factor : Expr} (notNum : factor.isNum = false)
    (collected : LikeFactors) :
    insert factor collected = collected.insertPower factor.base factor.factorExponent := by
  cases factor <;> first | rfl | simp [isNum, value?] at notNum

/-- The powers of a collected product that do not cancel. -/
def powers (collected : LikeFactors) : List Expr :=
  (collected.exponents.filter fun entry => entry.2.val ≠ 0).map
    fun entry => writtenPower entry.1 entry.2

/-- Canonical factors are collected by the bases of canonical powers. -/
theorem entries_of_canonical {factors : List Expr}
    (canonical : ∀ factor ∈ factors, factor.Canonical ∧ ∀ inner, factor ≠ .mul inner)
    {collected : LikeFactors} (collects : ofFactors factors = some collected) :
    collected.exponents.Ascending ∧
      ∀ entry ∈ collected.exponents, CanonicalEntry entry := by
  induction factors generalizing collected with
  | nil =>
    cases collects
    exact ⟨.nil, fun _ member => nomatch member⟩
  | cons factor rest ih =>
    obtain ⟨first, later⟩ := List.forall_mem_cons.mp canonical
    obtain ⟨before, collects, inserted⟩ := Option.bind_eq_some_iff.mp collects
    obtain ⟨ascending, entries⟩ := ih later collects
    cases isNum : factor.isNum with
    | true =>
      obtain ⟨value, rfl⟩ := eq_num_of_isNum isNum
      cases inserted
      exact ⟨ascending, entries⟩
    | false =>
      rw [insert_of_not_num isNum] at inserted
      obtain ⟨total, added, same⟩ := Option.bind_eq_some_iff.mp inserted
      cases same
      obtain ⟨valid, -, -⟩ := first.1.entry isNum first.2
      refine ⟨Tally.insert_ascending ascending, fun entry member => ?_⟩
      rcases (Tally.mem_insert ascending).mp member with rfl | ⟨member, -⟩
      · refine ⟨valid.canonical, valid.generator.imp_right fun ⟨isZero, negative⟩ => ?_⟩
        refine ⟨isZero, ?_⟩
        have value := Exponent.val_of_add? added
        change factor.factorExponent.val < 0 at negative
        change total.val < 0
        -- all exponents of the base zero are negative, and so is their sum
        cases found : before.exponents.get? factor.base with
        | none =>
          rw [found] at value
          simp only [Option.getD_none, Exponent.zero, zero_add] at value
          omega
        | some old =>
          rw [found, Option.getD_some] at value
          rcases (entries _ (Tally.mem_of_get? found)).generator with generator | ⟨-, oldNegative⟩
          · change factor.base.isGenerator = true at generator
            change factor.base = zero at isZero
            rw [isZero] at generator
            cases generator
          · change old.val < 0 at oldNegative
            omega
      · exact entries entry member

/-- Factors with different bases are collected as they are. -/
theorem ofFactors_perm {factors : List Expr}
    (canonical : ∀ factor ∈ factors, factor.Canonical ∧ ∀ inner, factor ≠ .mul inner)
    (bases : (factors.filter fun factor => !factor.isNum).Pairwise fun left right =>
      left.base ≠ right.base) :
    ∃ collected, ofFactors factors = some collected ∧
      collected.exponents.Perm ((factors.filter fun factor => !factor.isNum).map
        fun factor => (factor.base, factor.factorExponent)) ∧
      collected.coefficient = ((factors.filter isNum).map Expr.coefficient).prod := by
  induction factors with
  | nil => exact ⟨{}, rfl, .refl _, rfl⟩
  | cons factor rest ih =>
    obtain ⟨first, later⟩ := List.forall_mem_cons.mp canonical
    cases isNum : factor.isNum with
    | true =>
      rw [List.filter_cons_of_neg (by simp [isNum])] at bases ⊢
      obtain ⟨collected, collects, perm, value⟩ := ih later bases
      obtain ⟨number, rfl⟩ := eq_num_of_isNum isNum
      refine ⟨_, Option.bind_eq_some_iff.mpr ⟨collected, collects, rfl⟩, perm, ?_⟩
      rw [List.filter_cons_of_pos isNum, List.map_cons, List.prod_cons, ← value]
      exact Rat.mul_comm _ _
    | false =>
      rw [List.filter_cons_of_pos (by simp [isNum])] at bases ⊢
      obtain ⟨new, bases⟩ := List.pairwise_cons.mp bases
      obtain ⟨collected, collects, perm, value⟩ := ih later bases
      have ascending := (entries_of_canonical later collects).1
      have absent : ∀ entry ∈ collected.exponents, entry.1 ≠ factor.base := by
        intro entry member same
        obtain ⟨other, inside, rfl⟩ := List.mem_map.mp (perm.mem_iff.mp member)
        exact new other inside same.symm
      have unknown : collected.exponents.get? factor.base = none := by
        cases found : collected.exponents.get? factor.base with
        | none => rfl
        | some exponent => exact absurd rfl (absent _ (Tally.mem_of_get? found))
      have added : Exponent.zero.add? factor.factorExponent = some factor.factorExponent :=
        Exponent.ofInt?_eq_some_iff.mpr (Int.zero_add _).symm
      refine ⟨{ collected with
        exponents := collected.exponents.insert factor.base factor.factorExponent }, ?_, ?_, ?_⟩
      · refine Option.bind_eq_some_iff.mpr ⟨collected, collects, ?_⟩
        rw [insert_of_not_num isNum, insertPower, unknown, Option.getD_none, added]
        rfl
      · rw [List.map_cons]
        refine (Tally.insert_perm ascending).trans ?_
        rw [Tally.without_eq_self absent]
        exact perm.cons _
      · rw [List.filter_cons_of_neg (by simp [isNum])]
        exact value

variable {collected : LikeFactors}

/-- The bases of the powers are different, and each comes with its exponent. -/
theorem mem_powers_cases {power : Expr} (member : power ∈ collected.powers) :
    ∃ entry ∈ collected.exponents, entry.2.val ≠ 0 ∧ power = writtenPower entry.1 entry.2 := by
  obtain ⟨entry, kept, rfl⟩ := List.mem_map.mp member
  obtain ⟨inside, nonzero⟩ := List.mem_filter.mp kept
  exact ⟨entry, inside, of_decide_eq_true nonzero, rfl⟩

/-- The powers that are written have different bases. -/
theorem powers_bases (ascending : collected.exponents.Ascending)
    (entries : ∀ entry ∈ collected.exponents, CanonicalEntry entry) :
    collected.powers.Pairwise fun left right => left.base ≠ right.base := by
  rw [powers, List.pairwise_map]
  refine (ascending.sublist List.filter_sublist).imp_of_mem ?_
  intro left right inLeft inRight before same
  obtain ⟨inLeft, nonzeroLeft⟩ := List.mem_filter.mp inLeft
  obtain ⟨inRight, nonzeroRight⟩ := List.mem_filter.mp inRight
  rw [((entries left inLeft).writtenPower (of_decide_eq_true nonzeroLeft)).2.2.2,
    ((entries right inRight).writtenPower (of_decide_eq_true nonzeroRight)).2.2.2] at same
  exact before_irrefl _ (same ▸ before)

/-- The powers of factors with different bases are these factors. -/
theorem powers_perm {factors : List Expr}
    (canonical : ∀ factor ∈ factors, factor.Canonical ∧ ∀ inner, factor ≠ .mul inner)
    (perm : collected.exponents.Perm ((factors.filter fun factor => !factor.isNum).map
      fun factor => (factor.base, factor.factorExponent))) :
    collected.powers.Perm (factors.filter fun factor => !factor.isNum) := by
  have entry : ∀ factor ∈ factors.filter fun factor => !factor.isNum,
      factor.factorExponent.val ≠ 0 ∧ writtenPower factor.base factor.factorExponent = factor := by
    intro factor member
    obtain ⟨inside, notNum⟩ := List.mem_filter.mp member
    obtain ⟨canonical, notMul⟩ := canonical factor inside
    exact (canonical.entry (by simpa using notNum) notMul).2
  have kept : ∀ entry ∈ collected.exponents, decide (entry.2.val ≠ 0) = true := by
    intro pair member
    obtain ⟨factor, inside, rfl⟩ := List.mem_map.mp (perm.mem_iff.mp member)
    exact decide_eq_true (entry factor inside).1
  rw [powers, List.filter_eq_self.mpr kept]
  refine (perm.map _).trans (List.Perm.of_eq ?_)
  rw [List.map_map]
  exact (List.map_congr_left fun factor member => (entry factor member).2).trans (List.map_id _)

/-- If no base divides by zero, a singular product holds a negative power of zero. -/
theorem exists_power_of_isSingular
    (regular : ∀ entry ∈ collected.exponents, entry.1.dividesByZero = false)
    (singular : collected.isSingular = true) :
    ∃ power ∈ collected.powers, power.dividesByZero = true := by
  obtain ⟨entry, inside, cause⟩ := List.any_eq_true.mp singular
  simp only [regular entry inside, Bool.or_false, Bool.and_eq_true, decide_eq_true_eq] at cause
  obtain ⟨isZero, negative⟩ := cause
  have nonzero : entry.2.val ≠ 0 := ne_of_lt negative
  have ne_one : entry.2.val ≠ 1 := by omega
  refine ⟨.pow entry.1 entry.2, List.mem_map.mpr ⟨entry, List.mem_filter.mpr
    ⟨inside, decide_eq_true nonzero⟩, by simp [writtenPower, nonzero, ne_one]⟩, ?_⟩
  exact dividesByZero_iff.mpr (Or.inl (by simp [isInverseOfZero, isZero, negative]))

end LikeFactors

/-- A tree that is no product is its own factor. -/
theorem factors_of_not_mul {e : Expr} (notMul : ∀ factors, e ≠ .mul factors) : e.factors = [e] := by
  cases e with
  | mul factors => exact absurd rfl (notMul factors)
  | _ => rfl

/-- Trees that are no products are their own factors. -/
theorem flatMap_factors_of_not_mul {es : List Expr}
    (notMul : ∀ e ∈ es, ∀ factors, e ≠ .mul factors) : es.flatMap factors = es := by
  rw [List.flatMap_congr fun e member => factors_of_not_mul (notMul e member),
    List.flatMap_singleton']

/-- The power of a canonical entry is its own factor. -/
theorem CanonicalEntry.factors_writtenPower {base : Expr} {exponent : Exponent}
    (valid : CanonicalEntry (base, exponent)) :
    (Expr.writtenPower base exponent).factors = [Expr.writtenPower base exponent] := by
  by_cases isZero : exponent.val = 0
  · simp [Expr.writtenPower, isZero, one, factors]
  · exact factors_of_not_mul (valid.writtenPower isZero).2.2.1

/-- Only the powers that cancel leave numbers, and these are one. -/
theorem CanonicalEntry.value?_writtenPower {base : Expr} {exponent : Exponent}
    (valid : CanonicalEntry (base, exponent)) :
    (Expr.writtenPower base exponent).value? = if exponent.val = 0 then some 1 else none := by
  split
  · rename_i isZero
    simp [Expr.writtenPower, isZero, one, value?]
  · rename_i nonzero
    have notNum := (valid.writtenPower nonzero).2.1
    rw [isNum] at notNum
    exact Option.not_isSome_iff_eq_none.mp (by simp [notNum])

/-- A product with ones is unchanged. -/
theorem foldl_mul_of_ones {values : List Rat} (ones : ∀ value ∈ values, value = 1)
    (coefficient : Rat) : values.foldl (· * ·) coefficient = coefficient := by
  induction values with
  | nil => rfl
  | cons value rest ih =>
    obtain ⟨first, later⟩ := List.forall_mem_cons.mp ones
    rw [List.foldl_cons, first, Rat.mul_one]
    exact ih later

section Assembly

variable {collected : LikeFactors} (entries : ∀ entry ∈ collected.exponents, CanonicalEntry entry)

include entries

/-- The written powers are their own factors. -/
theorem flatMap_factors_writtenPower :
    (collected.exponents.map fun entry => writtenPower entry.1 entry.2).flatMap factors =
      collected.exponents.map fun entry => writtenPower entry.1 entry.2 := by
  rw [List.flatMap_congr (g := fun power => [power]), List.flatMap_singleton']
  intro power member
  obtain ⟨entry, inside, rfl⟩ := List.mem_map.mp member
  exact (entries entry inside).factors_writtenPower

/-- The written powers leave the coefficient as it is. -/
theorem foldl_values_writtenPower :
    ((collected.exponents.map fun entry => writtenPower entry.1 entry.2).filterMap value?).foldl
      (· * ·) collected.coefficient = collected.coefficient := by
  apply foldl_mul_of_ones
  intro value member
  obtain ⟨power, present, valued⟩ := List.mem_filterMap.mp member
  obtain ⟨entry, inside, rfl⟩ := List.mem_map.mp present
  rw [(entries entry inside).value?_writtenPower] at valued
  split at valued <;> cases valued
  rfl

/-- The powers of a collection are the written ones that are no numbers. -/
theorem filter_writtenPower :
    ((collected.exponents.map fun entry => writtenPower entry.1 entry.2).filter
      fun factor => !factor.isNum) = collected.powers := by
  rw [List.filter_map, LikeFactors.powers]
  congr 1
  apply List.filter_congr
  intro entry inside
  simp only [Function.comp_apply, isNum, (entries entry inside).value?_writtenPower]
  split <;> simp_all

/-- Once its factors are collected, a product is put together from its coefficient and the powers
that do not cancel. -/
theorem prodToDepth_of_entries {depth : Nat} {es : List Expr}
    (collects : LikeFactors.ofFactors (looseFactorsOfAll es) = some collected) :
    prodToDepth (depth + 1) es =
      if collected.coefficient = 0 ∧ ¬collected.isSingular then
        some zero
      else
        ofFactors (prodToDepth depth) collected.coefficient (sort collected.powers) := by
  have raised : (collected.exponents.mapM fun entry =>
      raise (prodToDepth depth) entry.1 entry.2) =
        some (collected.exponents.map fun entry => writtenPower entry.1 entry.2) :=
    mapM_eq_some_map fun entry member => (entries entry member).raise _
  rw [prodToDepth, collects, Option.bind_eq_bind, Option.bind_some]
  split
  · rfl
  · rename_i regular
    rw [raised, Option.bind_eq_bind, Option.bind_some]
    dsimp only
    rw [flatMap_factors_writtenPower entries, foldl_values_writtenPower entries,
      filter_writtenPower entries, if_neg regular]

end Assembly

end FiniteVolume.Expr
