import FiniteVolume.Proofs.Canonical.Factors
import FiniteVolume.Proofs.Canonical.Sum

/-!
# Products and powers are canonical

Products of canonical trees are canonical as long as no base divides by zero, and powers of
canonical trees that do not divide by zero are. A canonical product is the product of its factors
in any order (`prodToDepth_of_perm`).
-/

namespace FiniteVolume.Expr

theorem isSingular_iff_of_perm {factors : List Expr} {collected : LikeFactors}
    (perm : collected.exponents.Perm ((factors.filter fun factor => !factor.isNum).map
      fun factor => (factor.base, factor.factorExponent))) :
    collected.isSingular = true ↔ ∃ factor ∈ factors, factor.dividesByZero = true := by
  have entry : ∀ factor : Expr, factor.isNum = false →
      ((factor.base.isZero = true ∧ factor.factorExponent.val < 0) ∨
        factor.base.dividesByZero = true ↔ factor.dividesByZero = true) := by
    intro factor notNum
    cases factor with
    | num value => simp [isNum, value?] at notNum
    | pow base exponent =>
      rw [dividesByZero_iff (e := .pow base exponent)]
      simp [Expr.base, factorExponent, isInverseOfZero, args]
    | _ => simp [Expr.base, factorExponent, Exponent.one]
  rw [LikeFactors.isSingular, List.any_eq_true]
  constructor
  · rintro ⟨pair, member, cause⟩
    obtain ⟨factor, inside, rfl⟩ := List.mem_map.mp (perm.mem_iff.mp member)
    obtain ⟨inside, notNum⟩ := List.mem_filter.mp inside
    refine ⟨factor, inside, (entry factor (by simpa using notNum)).mp ?_⟩
    simpa using cause
  · rintro ⟨factor, inside, divides⟩
    have notNum : factor.isNum = false := by
      cases factor <;> first | rfl | simp at divides
    refine ⟨(factor.base, factor.factorExponent), perm.mem_iff.mpr (List.mem_map.mpr
      ⟨factor, List.mem_filter.mpr ⟨inside, by simp [notNum]⟩, rfl⟩), ?_⟩
    simpa using (entry factor notNum).mpr divides

/-- Factors with different bases stay as they are: their product is put together from the product of
the numbers and the other factors. -/
theorem prodToDepth_of_distinct {depth : Nat} {es : List Expr}
    (canonical : ∀ e ∈ es, e.Canonical)
    (bases : ((es.flatMap factors).filter fun factor => !factor.isNum).Pairwise fun left right =>
      left.base ≠ right.base) :
    prodToDepth (depth + 1) es =
      if (((es.flatMap factors).filter isNum).map coefficient).prod = 0 ∧
          ¬∃ factor ∈ es.flatMap factors, factor.dividesByZero = true then
        some zero
      else
        ofFactors (prodToDepth depth) (((es.flatMap factors).filter isNum).map coefficient).prod
          (sort ((es.flatMap factors).filter fun factor => !factor.isNum)) := by
  have parts : ∀ factor ∈ es.flatMap factors,
      factor.Canonical ∧ ∀ inner, factor ≠ .mul inner := by
    intro factor member
    obtain ⟨e, inside, member⟩ := List.mem_flatMap.mp member
    exact (canonical e inside).not_mul_of_mem_factors member
  obtain ⟨collected, collects, perm, value⟩ := LikeFactors.ofFactors_perm parts bases
  have entries := (LikeFactors.entries_of_canonical parts collects).2
  rw [← looseFactorsOfAll_of_canonical canonical] at collects
  rw [prodToDepth_of_entries entries collects, value,
    sort_congr (LikeFactors.powers_perm parts perm)]
  simp only [isSingular_iff_of_perm perm]

/-- A canonical product is the product of its factors. -/
theorem prodToDepth_of_canonical {depth : Nat} {factors : List Expr}
    (canonical : (Expr.mul factors).Canonical) :
    prodToDepth (depth + 1) factors = some (.mul factors) := by
  obtain ⟨product, parts⟩ := canonical_mul_iff.mp canonical
  have flat : factors.flatMap Expr.factors = factors :=
    flatMap_factors_of_not_mul fun factor member => (canonical.not_mul_of_mem_factors member).2
  have sorted : sort (factors.filter fun factor => !factor.isNum) =
      factors.filter fun factor => !factor.isNum :=
    sort_of_pairwise (product.sorted.sublist List.filter_sublist)
  rw [prodToDepth_of_distinct parts (by rw [flat]; exact product.bases), flat, sorted]
  obtain ⟨first, second, rest, rfl⟩ : ∃ first second rest, factors = first :: second :: rest := by
    match factors, product.several with
    | first :: second :: rest, _ => exact ⟨first, second, rest, rfl⟩
  have noNumber : ∀ factor ∈ second :: rest, factor.isNum = false := product.number_first
  have others : (second :: rest).filter (fun factor => !factor.isNum) = second :: rest :=
    List.filter_eq_self.mpr fun factor member => by simp [noNumber factor member]
  have numbers : (second :: rest).filter isNum = [] :=
    List.filter_eq_nil_iff.mpr fun factor member => by simp [noNumber factor member]
  cases isNum : first.isNum with
  | true =>
    obtain ⟨value, rfl⟩ := eq_num_of_isNum isNum
    have ne_one : value ≠ 1 := by
      rintro rfl
      exact product.one_absent List.mem_cons_self
    have regular : ¬(value = 0 ∧
        ¬∃ factor ∈ Expr.num value :: second :: rest, factor.dividesByZero = true) := by
      rintro ⟨rfl, regular⟩
      have singular := product.zero_singular List.mem_cons_self
      rw [dividesByZero_mul, List.any_eq_true] at singular
      exact regular singular
    rw [List.filter_cons_of_pos isNum, numbers, List.filter_cons_of_neg (by simp [isNum]), others,
      List.map_singleton, List.prod_singleton, coefficient, if_neg regular]
    cases rest with
    | nil =>
      have notAdd : ∀ terms, second ≠ .add terms := by
        rintro terms rfl
        exact product.undistributed value terms rfl
      have notMul : ∀ inner, second ≠ .mul inner := by
        rintro inner rfl
        exact product.flat inner (by simp)
      have single : ofFactors (prodToDepth depth) value [second] = some (scale value second) := by
        cases second <;> first | rfl | exact absurd rfl (notAdd _)
      rw [single, scale_of_not_mul ne_one notMul]
    | cons third rest => simp [ofFactors, ne_one]
  | false =>
    rw [List.filter_cons_of_neg (by simp [isNum]), numbers,
      List.filter_cons_of_pos (by simp [isNum]), others]
    simp [ofFactors]

/-- The factors of a canonical product multiply to it in any order. -/
theorem prodToDepth_of_perm {depth : Nat} {es factors : List Expr}
    (canonical : (Expr.mul factors).Canonical) (perm : es.Perm factors) :
    prodToDepth (depth + 1) es = some (.mul factors) := by
  obtain ⟨product, parts⟩ := canonical_mul_iff.mp canonical
  have flat : (es.flatMap Expr.factors).Perm factors := by
    rw [flatMap_factors_of_not_mul fun factor member =>
      (canonical.not_mul_of_mem_factors (perm.mem_iff.mp member)).2]
    exact perm
  have same : factors.flatMap Expr.factors = factors :=
    flatMap_factors_of_not_mul fun factor member => (canonical.not_mul_of_mem_factors member).2
  rw [← @prodToDepth_of_canonical depth factors canonical,
    prodToDepth_of_distinct parts (by rw [same]; exact product.bases),
    prodToDepth_of_distinct (fun e member => parts e (perm.mem_iff.mp member))
      (((flat.filter _).pairwise_iff fun different => Ne.symm different).mpr product.bases),
    same, sort_congr (flat.filter _), ((flat.filter isNum).map coefficient).prod_eq]
  simp only [flat.mem_iff]

/-- A canonical power is the power of its base. -/
theorem power_of_canonical {base : Expr} {exponent : Exponent}
    (canonical : (Expr.pow base exponent).Canonical) :
    power base exponent = some (.pow base exponent) := by
  obtain ⟨isPower, canonicalBase⟩ := canonical_pow_iff.mp canonical
  have entry : CanonicalEntry (base, exponent) := ⟨canonicalBase, isPower.generator⟩
  rw [power, entry.raise, writtenPower, if_neg isPower.ne_zero, if_neg isPower.ne_one]

/-- Sorted factors with different bases make a canonical tree with a coefficient. -/
theorem canonical_ofFactors {product : List Expr → Option Expr} {coefficient : Rat}
    {factors : List Expr} {result : Expr}
    (parts : ∀ factor ∈ factors, factor.Canonical ∧ factor.isNum = false ∧
      ∀ inner, factor ≠ .mul inner)
    (sorted : factors.Pairwise NotAfter)
    (bases : factors.Pairwise fun left right => left.base ≠ right.base)
    (regular : coefficient = 0 → ∃ factor ∈ factors, factor.dividesByZero = true)
    (distributes : ∀ terms, factors = [.add terms] → coefficient ≠ 1 → ∀ scaled,
      (terms.mapM fun term => product [.num coefficient, term]) = some scaled →
        ∀ term ∈ scaled, term.Canonical)
    (defined : ofFactors product coefficient factors = some result) : result.Canonical := by
  have noNumber : ∀ factor ∈ factors, factor.isNum = false := fun factor member =>
    (parts factor member).2.1
  have plain : ∀ first second rest, factors = first :: second :: rest →
      (Expr.mul factors).Canonical := by
    rintro first second rest same
    refine canonical_mul_iff.mpr ⟨?_, fun factor member => (parts factor member).1⟩
    exact {
      several := by simp [same]
      sorted := sorted
      flat := fun inner member => (parts _ member).2.2 inner rfl
      number_first := fun factor member => noNumber factor (List.mem_of_mem_tail member)
      one_absent := fun member => absurd (noNumber one member) (by decide)
      zero_singular := fun member => absurd (noNumber zero member) (by decide)
      bases := bases.sublist List.filter_sublist
      undistributed := by
        rintro value terms rfl
        exact absurd (noNumber _ List.mem_cons_self) (by simp [isNum, value?]) }
  unfold ofFactors at defined
  split at defined
  · cases defined
    exact canonical_num _
  · rename_i terms
    split at defined
    · cases defined
      exact (parts _ List.mem_cons_self).1
    · rename_i ne_one
      obtain ⟨scaled, multiplied, same⟩ := Option.bind_eq_some_iff.mp defined
      cases same
      exact canonical_sum (distributes terms rfl ne_one scaled multiplied)
  · rename_i factor notAdd
    cases defined
    obtain ⟨canonical, notNum, notMul⟩ := parts factor List.mem_cons_self
    have isMonomial : factor.Monomial :=
      ⟨canonical, notNum, fun terms same => notAdd terms (by rw [same]),
        splitCoefficient_of_not_mul notMul⟩
    exact (isMonomial.scale (by simpa using regular)).1
  · rename_i notNil notAdd notSingle
    have canonical : (Expr.mul factors).Canonical := by
      rcases factors with _ | ⟨first, _ | ⟨second, rest⟩⟩
      · exact absurd rfl notNil
      · exact absurd rfl (notSingle first)
      · exact plain first second rest rfl
    split at defined
    · cases defined
      exact canonical
    · rename_i ne_one
      cases defined
      refine canonical_mul_cons canonical noNumber ne_one fun zero => ?_
      rw [dividesByZero_mul, List.any_eq_true]
      exact regular zero

/-- What remains of a canonical tree that is no sum when its number is left out is not a single
sum. -/
theorem Canonical.factors_ne_sum {e : Expr} (canonical : e.Canonical)
    (notAdd : ∀ terms, e ≠ .add terms) (terms : List Expr) :
    (e.factors.filter fun factor => !factor.isNum) ≠ [.add terms] := by
  cases e with
  | mul factors =>
    intro single
    have product := (canonical_mul_iff.mp canonical).1
    obtain ⟨first, second, rest, rfl⟩ : ∃ first second rest, factors = first :: second :: rest := by
      match factors, product.several with
      | first :: second :: rest, _ => exact ⟨first, second, rest, rfl⟩
    have noNumber : ∀ factor ∈ second :: rest, factor.isNum = false := product.number_first
    have others : (second :: rest).filter (fun factor => !factor.isNum) = second :: rest :=
      List.filter_eq_self.mpr fun factor member => by simp [noNumber factor member]
    rw [factors] at single
    cases isNum : first.isNum with
    | true =>
      obtain ⟨value, rfl⟩ := eq_num_of_isNum isNum
      rw [List.filter_cons_of_neg (by simp [isNum]), others] at single
      cases single
      exact product.undistributed value terms rfl
    | false =>
      rw [List.filter_cons_of_pos (by simp [isNum]), others] at single
      cases single
  | add terms => exact absurd rfl (notAdd terms)
  | num value => simp [factors, isNum, value?]
  | _ => simp [factors, isNum, value?]

/-- The bases of the factors of a canonical tree are different. -/
theorem Canonical.factors_bases {e : Expr} (canonical : e.Canonical) :
    (e.factors.filter fun factor => !factor.isNum).Pairwise fun left right =>
      left.base ≠ right.base := by
  cases e with
  | mul factors => exact (canonical_mul_iff.mp canonical).1.bases
  | _ => exact (List.pairwise_singleton _ _).sublist List.filter_sublist

/-- No factor of a tree that does not divide by zero does so. -/
theorem dividesByZero_of_mem_factors {e factor : Expr} (member : factor ∈ e.factors)
    (divides : factor.dividesByZero = true) : e.dividesByZero = true := by
  cases e with
  | mul factors => exact dividesByZero_of_mem_args member divides
  | _ => exact List.mem_singleton.mp member ▸ divides

theorem dividesByZero_of_base {e : Expr} (divides : e.base.dividesByZero = true) :
    e.dividesByZero = true := by
  cases e with
  | pow base exponent => exact dividesByZero_of_mem_args (List.mem_singleton_self base) divides
  | _ => exact divides

/-- A number times a canonical term is canonical. -/
theorem canonical_prodToDepth_num {depth : Nat} {value : Rat} {term result : Expr}
    (canonical : term.Canonical) (notAdd : ∀ terms, term ≠ .add terms)
    (defined : prodToDepth (depth + 1) [.num value, term] = some result) : result.Canonical := by
  have flat : [Expr.num value, term].flatMap factors = .num value :: term.factors := by
    simp [factors]
  have others : (Expr.num value :: term.factors).filter (fun factor => !factor.isNum) =
      term.factors.filter fun factor => !factor.isNum :=
    List.filter_cons_of_neg (by simp [isNum, value?])
  rw [prodToDepth_of_distinct (by simpa using ⟨canonical_num value, canonical⟩)
    (by rw [flat, others]; exact canonical.factors_bases), flat, others] at defined
  split at defined
  · cases defined
    exact canonical_num 0
  · rename_i singular
    refine canonical_ofFactors ?_ (sort_pairwise _) ?_ ?_ ?_ defined
    · intro factor member
      obtain ⟨member, notNum⟩ := List.mem_filter.mp (mem_sort.mp member)
      obtain ⟨canonical, notMul⟩ := canonical.not_mul_of_mem_factors member
      exact ⟨canonical, by simpa using notNum, notMul⟩
    · exact ((sort_perm _).pairwise_iff fun different => Ne.symm different).mpr
        canonical.factors_bases
    · intro zero
      obtain ⟨factor, member, divides⟩ := not_not.mp fun regular => singular ⟨zero, regular⟩
      rcases List.mem_cons.mp member with rfl | member
      · cases divides
      · refine ⟨factor, mem_sort.mpr (List.mem_filter.mpr ⟨member, ?_⟩), divides⟩
        cases factor <;> first | rfl | cases divides
    · intro terms single
      have perm := sort_perm (term.factors.filter fun factor => !factor.isNum)
      rw [single] at perm
      exact absurd (List.perm_singleton.mp perm.symm) (canonical.factors_ne_sum notAdd terms)

/-- Every collected base is that of a factor that is no number. -/
theorem LikeFactors.exists_factor_of_mem {factors : List Expr} {collected : LikeFactors}
    (canonical : ∀ factor ∈ factors, factor.Canonical ∧ ∀ inner, factor ≠ .mul inner)
    (collects : ofFactors factors = some collected) {entry : Expr × Exponent}
    (member : entry ∈ collected.exponents) :
    ∃ factor ∈ factors, factor.isNum = false ∧ factor.base = entry.1 := by
  induction factors generalizing collected with
  | nil =>
    cases collects
    cases member
  | cons factor rest ih =>
    obtain ⟨-, later⟩ := List.forall_mem_cons.mp canonical
    obtain ⟨before, collected, inserted⟩ := Option.bind_eq_some_iff.mp collects
    have old : entry ∈ before.exponents →
        ∃ factor' ∈ factor :: rest, factor'.isNum = false ∧ factor'.base = entry.1 := by
      intro member
      obtain ⟨factor, inside, same⟩ := ih later collected member
      exact ⟨factor, List.mem_cons_of_mem _ inside, same⟩
    cases isNum : factor.isNum with
    | true =>
      obtain ⟨value, rfl⟩ := eq_num_of_isNum isNum
      cases inserted
      exact old member
    | false =>
      rw [insert_of_not_num isNum] at inserted
      obtain ⟨total, -, same⟩ := Option.bind_eq_some_iff.mp inserted
      cases same
      rcases (Tally.mem_insert (entries_of_canonical later collected).1).mp member with
        rfl | ⟨member, -⟩
      · exact ⟨factor, List.mem_cons_self, isNum, rfl⟩
      · exact old member

/-- What canonical trees are collected into when they are multiplied, and where every base comes
from. -/
theorem LikeFactors.of_canonical {es : List Expr} {collected : LikeFactors}
    (canonical : ∀ e ∈ es, e.Canonical)
    (collects : ofFactors (looseFactorsOfAll es) = some collected) :
    collected.exponents.Ascending ∧ ∀ entry ∈ collected.exponents, CanonicalEntry entry ∧
      ∃ e ∈ es, ∃ factor ∈ e.factors, factor.isNum = false ∧ factor.base = entry.1 := by
  have flat := looseFactorsOfAll_of_canonical canonical
  have parts : ∀ factor ∈ looseFactorsOfAll es,
      factor.Canonical ∧ ∀ inner, factor ≠ .mul inner := by
    intro factor member
    rw [flat] at member
    obtain ⟨e, inside, member⟩ := List.mem_flatMap.mp member
    exact (canonical e inside).not_mul_of_mem_factors member
  obtain ⟨ascending, entries⟩ := entries_of_canonical parts collects
  refine ⟨ascending, fun entry member => ⟨entries entry member, ?_⟩⟩
  obtain ⟨factor, inside, origin⟩ := exists_factor_of_mem parts collects member
  rw [flat] at inside
  obtain ⟨e, inEs, inside⟩ := List.mem_flatMap.mp inside
  exact ⟨e, inEs, factor, inside, origin⟩

/-- The product of canonical trees is canonical if no base of their factors divides by zero and the
nesting depth allows for a number times a sum. -/
theorem canonical_prodToDepth {depth : Nat} {es : List Expr} {result : Expr}
    (canonical : ∀ e ∈ es, e.Canonical)
    (regular : ∀ e ∈ es, ∀ factor ∈ e.factors, factor.base.dividesByZero = false)
    (deep : ∀ e ∈ es, ∀ factor ∈ e.factors, ∀ terms, factor.base = .add terms → 0 < depth)
    (defined : prodToDepth (depth + 1) es = some result) : result.Canonical := by
  obtain ⟨collected, collects, -⟩ := Option.bind_eq_some_iff.mp defined
  obtain ⟨ascending, origins⟩ := LikeFactors.of_canonical canonical collects
  have entries : ∀ entry ∈ collected.exponents, CanonicalEntry entry := fun entry member =>
    (origins entry member).1
  have regularEntries : ∀ entry ∈ collected.exponents, entry.1.dividesByZero = false := by
    intro entry member
    obtain ⟨-, e, inEs, factor, inside, -, same⟩ := origins entry member
    exact same ▸ regular e inEs factor inside
  rw [prodToDepth_of_entries entries collects] at defined
  split at defined
  · cases defined
    exact canonical_num 0
  · rename_i singular
    have powers : ∀ power ∈ sort collected.powers, ∃ entry ∈ collected.exponents,
        entry.2.val ≠ 0 ∧ power = writtenPower entry.1 entry.2 := fun power member =>
      LikeFactors.mem_powers_cases (mem_sort.mp member)
    have bases := ((sort_perm collected.powers).pairwise_iff fun different => Ne.symm different).mpr
      (LikeFactors.powers_bases ascending entries)
    refine canonical_ofFactors ?_ (sort_pairwise _) bases ?_ ?_ defined
    · intro power member
      obtain ⟨entry, inside, nonzero, rfl⟩ := powers power member
      obtain ⟨canonical, notNum, notMul, -⟩ := (entries entry inside).writtenPower nonzero
      exact ⟨canonical, notNum, notMul⟩
    · intro zero
      obtain ⟨power, member, divides⟩ := LikeFactors.exists_power_of_isSingular regularEntries
        (not_not.mp fun regular => singular ⟨zero, regular⟩)
      exact ⟨power, mem_sort.mpr member, divides⟩
    · intro terms single ne_one scaled multiplied term member
      obtain ⟨entry, inside, nonzero, same⟩ := powers (.add terms) (by simp [single])
      obtain ⟨canonicalSum, -, -, base⟩ := (entries entry inside).writtenPower nonzero
      rw [← same] at canonicalSum base
      obtain ⟨-, e, inEs, factor, inFactors, -, origin⟩ := origins entry inside
      obtain ⟨lower, rfl⟩ := Nat.exists_eq_succ_of_ne_zero
        (Nat.ne_of_gt (deep e inEs factor inFactors terms (origin.trans base.symm)))
      obtain ⟨summand, summandInside, multiplies⟩ := exists_of_mem_mapM multiplied member
      obtain ⟨canonicalTerm, notAdd⟩ := canonicalSum.not_add_of_mem_terms summandInside
      exact canonical_prodToDepth_num canonicalTerm notAdd multiplies

end FiniteVolume.Expr
