import FiniteVolume.Proofs.Canonical.Factors
import FiniteVolume.Proofs.Expr.Expansion

/-!
# Gathered factors

Like factors are gathered in whatever the canonical operators return, also where it divides by zero
and need not be canonical: once nested products are dissolved, no two factors of a product have one
base, and no power is that of a product or of another power (`closed_gathered`, `gathered_power`).
The product of gathered factors always has a value (`exists_prodToDepth`).
-/

namespace FiniteVolume.Expr

/-- Factors of which no two have one base; numbers do not count. -/
def DistinctBases (factors : List Expr) : Prop :=
  (factors.filter fun factor => !factor.isNum).Pairwise fun left right => left.base ≠ right.base

/-- What a tree with gathered factors satisfies at one node. -/
def GatheredNode : Expr → Prop
  | .mul factors => DistinctBases (looseFactorsOfAll factors)
  | .pow base _ => base.isGenerator = true ∨ base.isNum = true
  | _ => True

/-- A tree in which like factors are gathered at every node. -/
def Gathered (e : Expr) : Prop := ∀ subterm ∈ e.subterms, GatheredNode subterm

/-- Factors are gathered in a tree if they are so at the root and in its children. -/
theorem gathered_iff {e : Expr} :
    e.Gathered ↔ GatheredNode e ∧ ∀ arg ∈ e.args, arg.Gathered :=
  forall_subterms_iff GatheredNode

/-- In the children of a gathered tree factors are gathered. -/
theorem Gathered.arg {e arg : Expr} (gathered : e.Gathered) (member : arg ∈ e.args) :
    arg.Gathered :=
  (gathered_iff.mp gathered).2 arg member

/-- Numbers have no factors to gather. -/
theorem gathered_num (value : Rat) : (Expr.num value).Gathered :=
  gathered_iff.mpr ⟨trivial, fun _ member => nomatch member⟩

/-- Symbols have no factors to gather. -/
theorem gathered_sym (name : String) : (Expr.sym name).Gathered :=
  gathered_iff.mpr ⟨trivial, fun _ member => nomatch member⟩

/-- Factors are gathered in a sum if they are so in its terms. -/
theorem gathered_add_iff {terms : List Expr} :
    (Expr.add terms).Gathered ↔ ∀ term ∈ terms, term.Gathered :=
  gathered_iff.trans (and_iff_right trivial)

/-- Factors are gathered in a product of different bases if they are so in its factors. -/
theorem gathered_mul_iff {factors : List Expr} :
    (Expr.mul factors).Gathered ↔
      DistinctBases (looseFactorsOfAll factors) ∧ ∀ factor ∈ factors, factor.Gathered :=
  gathered_iff

/-- Factors are gathered in a power of a generator or a number if they are so there. -/
theorem gathered_pow_iff {base : Expr} {exponent : Exponent} :
    (Expr.pow base exponent).Gathered ↔
      (base.isGenerator = true ∨ base.isNum = true) ∧ base.Gathered :=
  gathered_iff.trans (and_congr_right' List.forall_mem_singleton)

/-- Numbers do not count among the bases of factors. -/
theorem distinctBases_cons_num {value : Rat} {factors : List Expr} :
    DistinctBases (.num value :: factors) ↔ DistinctBases factors := by
  rw [DistinctBases, List.filter_cons_of_neg (by simp [isNum, value?])]
  rfl

/-- The loose factors of a tree with gathered factors have different bases. -/
theorem Gathered.distinctBases {e : Expr} (gathered : e.Gathered) :
    DistinctBases e.looseFactors := by
  rcases looseFactors_cases e with ⟨factors, rfl⟩ | single
  · exact (gathered_mul_iff.mp gathered).1
  · rw [single]
    exact (List.pairwise_singleton _ _).sublist List.filter_sublist

/-- Loose factors are not products, and their own factors are gathered. -/
theorem Gathered.of_mem_looseFactors {e factor : Expr} (gathered : e.Gathered)
    (member : factor ∈ e.looseFactors) : factor.Gathered ∧ ∀ inner, factor ≠ .mul inner := by
  induction e with
  | mul factors ih =>
    rw [Expr.looseFactors, looseFactorsOfAll_eq_flatMap, List.mem_flatMap] at member
    obtain ⟨source, inside, member⟩ := member
    exact ih source inside (gathered.arg inside) member
  | _ =>
    rw [Expr.looseFactors, List.mem_singleton] at member
    · subst member
      exact ⟨gathered, fun _ => by simp⟩
    · exact fun _ => by simp

/-- A factor that is neither a number nor a product raises a generator or a number. -/
theorem Gathered.base {factor : Expr} (gathered : factor.Gathered)
    (notNum : factor.isNum = false) (notMul : ∀ inner, factor ≠ .mul inner) :
    factor.base.Gathered ∧ (factor.base.isGenerator = true ∨ factor.base.isNum = true) := by
  cases factor with
  | num value => simp [isNum, value?] at notNum
  | mul factors => exact absurd rfl (notMul factors)
  | pow base exponent =>
    obtain ⟨isBase, gatheredBase⟩ := gathered_pow_iff.mp gathered
    exact ⟨gatheredBase, isBase⟩
  | _ => exact ⟨gathered, Or.inl rfl⟩

/-- A number in front of a tree leaves its factors gathered. -/
theorem gathered_mul_num {value : Rat} {e : Expr} (gathered : e.Gathered) :
    (Expr.mul [.num value, e]).Gathered := by
  refine gathered_mul_iff.mpr ⟨?_, forall_mem_pair ⟨gathered_num value, gathered⟩⟩
  have loose : looseFactorsOfAll [.num value, e] = .num value :: e.looseFactors := by
    simp [looseFactorsOfAll, looseFactors]
  rw [loose, distinctBases_cons_num]
  exact gathered.distinctBases

/-- A coefficient leaves factors gathered. -/
theorem gathered_scale {coefficient : Rat} {monomial : Expr} (gathered : monomial.Gathered) :
    (scale coefficient monomial).Gathered := by
  by_cases isOne : coefficient = 1
  · rw [isOne, scale_one]
    exact gathered
  · by_cases isProduct : ∃ factors, monomial = .mul factors
    · obtain ⟨factors, rfl⟩ := isProduct
      obtain ⟨distinct, parts⟩ := gathered_mul_iff.mp gathered
      rw [scale_mul isOne]
      refine gathered_mul_iff.mpr ⟨?_, List.forall_mem_cons.mpr ⟨gathered_num _, parts⟩⟩
      exact distinctBases_cons_num.mpr distinct
    · rw [scale_of_not_mul isOne fun factors same => isProduct ⟨factors, same⟩]
      exact gathered_mul_num gathered

/-- What is left without the coefficient has its factors gathered. -/
theorem gathered_splitCoefficient {term : Expr} (gathered : term.Gathered) :
    term.splitCoefficient.2.Gathered := by
  rcases splitCoefficient_cases term with
    ⟨c, factor, rfl, split⟩ | ⟨c, factors, rfl, -, split⟩ | split
  · rw [split]
    exact gathered.arg (by simp [args])
  · rw [split]
    obtain ⟨distinct, parts⟩ := gathered_mul_iff.mp gathered
    exact gathered_mul_iff.mpr
      ⟨distinctBases_cons_num.mp distinct, (List.forall_mem_cons.mp parts).2⟩
  · rw [split]
    exact gathered

/-- Sums are made of the terms of their operands. -/
theorem termwise_gathered : Termwise Gathered where
  num := gathered_num
  terms _ := gathered_add_iff.mp
  add _ _ _ := gathered_add_iff.mpr
  splitCoefficient _ gathered := gathered_splitCoefficient gathered
  scale _ _ gathered := gathered_scale gathered

namespace LikeFactors

/-- What holds of the exponents of all factors, and of sums of exponents, holds of the collected
exponents. Every base of a factor that is no number is collected. -/
theorem exponents_of_additive (holds : Expr → ℤ → Prop)
    (adds : ∀ base left right, holds base left → holds base right → holds base (left + right))
    {factors : List Expr} {collected : LikeFactors}
    (exponents : ∀ factor ∈ factors, factor.isNum = false →
      holds factor.base factor.factorExponent.val)
    (collects : ofFactors factors = some collected) :
    collected.exponents.Ascending ∧
      (∀ entry ∈ collected.exponents, holds entry.1 entry.2.val) ∧
      ∀ factor ∈ factors, factor.isNum = false →
        ∃ entry ∈ collected.exponents, entry.1 = factor.base := by
  induction factors generalizing collected with
  | nil =>
    cases collects
    exact ⟨.nil, by simp, by simp⟩
  | cons factor rest ih =>
    obtain ⟨before, collects, inserted⟩ := Option.bind_eq_some_iff.mp collects
    obtain ⟨first, later⟩ := List.forall_mem_cons.mp exponents
    obtain ⟨ascending, entries, bases⟩ := ih later collects
    cases isNum : factor.isNum with
    | true =>
      obtain ⟨value, rfl⟩ := eq_num_of_isNum isNum
      cases inserted
      exact ⟨ascending, entries, List.forall_mem_cons.mpr ⟨by simp [Expr.isNum, value?], bases⟩⟩
    | false =>
      rw [insert_of_not_num isNum] at inserted
      obtain ⟨total, added, same⟩ := Option.bind_eq_some_iff.mp inserted
      cases same
      have value := Exponent.val_of_add? added
      refine ⟨Tally.insert_ascending ascending, fun entry member => ?_,
        List.forall_mem_cons.mpr ⟨fun _ => ?_, fun other member notNum => ?_⟩⟩
      · rcases (Tally.mem_insert ascending).mp member with rfl | ⟨member, -⟩
        · cases found : before.exponents.get? factor.base with
          | none =>
            rw [found, Option.getD_none, Exponent.zero, zero_add] at value
            exact value ▸ first isNum
          | some old =>
            rw [found, Option.getD_some] at value
            exact value ▸ adds _ _ _ (entries _ (Tally.mem_of_get? found)) (first isNum)
        · exact entries entry member
      · exact ⟨_, (Tally.mem_insert ascending).mpr (Or.inl rfl), rfl⟩
      · obtain ⟨entry, inside, same⟩ := bases other member notNum
        by_cases replaced : entry.1 = factor.base
        · exact ⟨_, (Tally.mem_insert ascending).mpr (Or.inl rfl), replaced.symm.trans same⟩
        · exact ⟨entry, (Tally.mem_insert ascending).mpr (Or.inr ⟨inside, replaced⟩), same⟩

/-- Every collected base is that of a factor that is no number. -/
theorem base_of_mem {factors : List Expr} {collected : LikeFactors}
    (collects : ofFactors factors = some collected) :
    collected.exponents.Ascending ∧ ∀ entry ∈ collected.exponents,
      ∃ factor ∈ factors, factor.isNum = false ∧ factor.base = entry.1 := by
  obtain ⟨ascending, entries, -⟩ := exponents_of_additive
    (fun base _ => ∃ factor ∈ factors, factor.isNum = false ∧ factor.base = base)
    (fun _ _ _ origin _ => origin) (fun factor member notNum => ⟨factor, member, notNum, rfl⟩)
    collects
  exact ⟨ascending, entries⟩

/-- Factors with different bases can be collected: no exponents are added up. -/
theorem exists_ofFactors {factors : List Expr} (distinct : DistinctBases factors) :
    ∃ collected, ofFactors factors = some collected := by
  induction factors with
  | nil => exact ⟨{}, rfl⟩
  | cons factor rest ih =>
    cases isNum : factor.isNum with
    | true =>
      obtain ⟨value, rfl⟩ := eq_num_of_isNum isNum
      obtain ⟨before, collects⟩ := ih (distinctBases_cons_num.mp distinct)
      exact ⟨_, Option.bind_eq_some_iff.mpr ⟨before, collects, rfl⟩⟩
    | false =>
      rw [DistinctBases, List.filter_cons_of_pos (by simp [isNum]), List.pairwise_cons] at distinct
      obtain ⟨different, later⟩ := distinct
      obtain ⟨before, collects⟩ := ih later
      have absent : before.exponents.get? factor.base = none := by
        refine Option.eq_none_iff_forall_ne_some.mpr fun value found => ?_
        obtain ⟨origin, inside, notNum, same⟩ :=
          (base_of_mem collects).2 _ (Tally.mem_of_get? found)
        exact different origin (List.mem_filter.mpr ⟨inside, by simp [notNum]⟩) same.symm
      have unchanged : Exponent.zero.add? factor.factorExponent = some factor.factorExponent :=
        Exponent.ofInt?_eq_some_iff.mpr (by simp [Exponent.zero])
      have inserted : ∃ collected, insert factor before = some collected := by
        rw [insert_of_not_num isNum, insertPower, absent, Option.getD_none, unchanged]
        exact ⟨_, rfl⟩
      obtain ⟨collected, inserted⟩ := inserted
      exact ⟨collected, Option.bind_eq_some_iff.mpr ⟨before, collects, inserted⟩⟩

end LikeFactors

/-- What a power of a generator or of a number is: a number, or a power of the same base. -/
structure PowerOf (base power : Expr) : Prop where
  gathered : power.Gathered
  notMul : ∀ factors, power ≠ .mul factors
  same : power.isNum = true ∨ power.base = base

/-- A generator or a number is its own base, and neither a product nor a power. -/
theorem isBase_cases {e : Expr} (isBase : e.isGenerator = true ∨ e.isNum = true) :
    e.base = e ∧ (∀ factors, e ≠ .mul factors) ∧ ∀ base exponent, e ≠ .pow base exponent := by
  cases e <;> simp_all [isGenerator, isNum, value?, base]

/-- Generators and numbers have powers of all exponents. -/
theorem exists_raise {base : Expr} (gathered : base.Gathered)
    (isBase : base.isGenerator = true ∨ base.isNum = true) (product : List Expr → Option Expr)
    (exponent : Exponent) :
    ∃ power, raise product base exponent = some power ∧ PowerOf base power := by
  obtain ⟨same, notMul, notPow⟩ := isBase_cases isBase
  have number : ∀ value, PowerOf base (.num value) := fun value =>
    ⟨gathered_num value, fun _ => by simp, Or.inl rfl⟩
  have written : PowerOf base (.pow base exponent) :=
    ⟨gathered_pow_iff.mpr ⟨isBase, gathered⟩, fun _ => by simp, Or.inr rfl⟩
  unfold raise
  by_cases isZero : exponent.val = 0
  · rw [if_pos isZero]
    exact ⟨one, rfl, number 1⟩
  rw [if_neg isZero]
  by_cases isOne : exponent.val = 1
  · rw [if_pos isOne]
    exact ⟨base, rfl, gathered, notMul, Or.inr same⟩
  rw [if_neg isOne]
  cases base with
  | num value =>
    dsimp only
    split
    · exact ⟨_, rfl, written⟩
    · exact ⟨_, rfl, number _⟩
  | mul factors => exact absurd rfl (notMul factors)
  | pow inner exponent => exact absurd rfl (notPow inner exponent)
  | _ => exact ⟨_, rfl, written⟩

section Products

variable {product : List Expr → Option Expr} {coefficient : Rat} {factors : List Expr}

/-- Factors that are neither numbers nor products, with different bases. -/
structure Separate (factors : List Expr) : Prop where
  gathered : ∀ factor ∈ factors, factor.Gathered
  notMul : ∀ factor ∈ factors, ∀ inner, factor ≠ .mul inner
  distinct : DistinctBases factors

/-- Factors that stay apart are gathered in their product. -/
theorem Separate.mul (separate : Separate factors) : (Expr.mul factors).Gathered := by
  refine gathered_mul_iff.mpr ⟨?_, separate.gathered⟩
  have single : ∀ factor ∈ factors, factor.looseFactors = [factor] := fun factor member =>
    looseFactors_of_not_mul (separate.notMul factor member)
  rw [looseFactorsOfAll_eq_flatMap, List.flatMap_congr single, List.flatMap_singleton']
  exact separate.distinct

/-- A coefficient and separate factors make a tree with gathered factors. -/
theorem Separate.ofFactors (separate : Separate factors)
    (scaled : ∀ term : Expr, term.Gathered → ∀ result,
      product [.num coefficient, term] = some result → result.Gathered)
    {result : Expr} (defined : ofFactors product coefficient factors = some result) :
    result.Gathered := by
  unfold Expr.ofFactors at defined
  split at defined
  · cases defined
    exact gathered_num _
  · rename_i terms
    have sum := separate.gathered _ List.mem_cons_self
    split at defined
    · cases defined
      exact sum
    · obtain ⟨results, multiplied, same⟩ := Option.bind_eq_some_iff.mp defined
      cases same
      exact termwise_gathered.sum (forall_mem_of_mapM multiplied fun term member =>
        scaled term (sum.arg member))
  · cases defined
    exact gathered_scale (separate.gathered _ List.mem_cons_self)
  · have gathered := separate.mul
    split at defined
    · cases defined
      exact gathered
    · cases defined
      obtain ⟨distinct, parts⟩ := gathered_mul_iff.mp gathered
      exact gathered_mul_iff.mpr ⟨distinctBases_cons_num.mpr distinct,
        List.forall_mem_cons.mpr ⟨gathered_num _, parts⟩⟩

/-- A product is put together from a coefficient and factors if its scaled terms have values. -/
theorem exists_ofFactors
    (scaled : ∀ terms, .add terms ∈ factors → ∀ term ∈ terms, ∃ result,
      product [.num coefficient, term] = some result) :
    ∃ result, ofFactors product coefficient factors = some result := by
  unfold ofFactors
  split
  · exact ⟨_, rfl⟩
  · rename_i terms
    split
    · exact ⟨_, rfl⟩
    · obtain ⟨results, multiplied⟩ := exists_mapM_eq_some (scaled terms List.mem_cons_self)
      exact ⟨_, Option.bind_eq_some_iff.mpr ⟨results, multiplied, rfl⟩⟩
  · exact ⟨_, rfl⟩
  · exact ⟨_, rfl⟩

/-- Powers of different bases have different bases. -/
theorem distinctBases_of_powers {entries : Tally Exponent} {powers : List Expr}
    (ascending : entries.Ascending)
    (related : List.Forall₂ (fun entry power => PowerOf entry.1 power) entries powers) :
    DistinctBases powers := by
  induction related with
  | nil => exact .nil
  | @cons entry power entries powers first later ih =>
    obtain ⟨before, ascending⟩ := List.pairwise_cons.mp ascending
    rw [DistinctBases]
    cases isNum : power.isNum with
    | true =>
      rw [List.filter_cons_of_neg (by simp [isNum])]
      exact ih ascending
    | false =>
      rw [List.filter_cons_of_pos (by simp [isNum])]
      refine List.pairwise_cons.mpr ⟨fun other member => ?_, ih ascending⟩
      obtain ⟨inside, notNum⟩ := List.mem_filter.mp member
      obtain ⟨origin, paired, ofOrigin⟩ := exists_mem_zip_of_forall₂ later.flip inside
      have after := before origin (List.of_mem_zip paired).2
      rw [first.same.resolve_left (by simp [isNum]),
        ofOrigin.same.resolve_left (by simpa using notNum)]
      exact fun same => before_irrefl _ (same ▸ after)

/-- What the factors of some trees are collected into is raised to separate factors. -/
theorem exists_powers {es : List Expr} (gathered : ∀ e ∈ es, e.Gathered)
    {collected : LikeFactors}
    (collects : LikeFactors.ofFactors (looseFactorsOfAll es) = some collected)
    (product : List Expr → Option Expr) :
    ∃ powers, (collected.exponents.mapM fun (base, exponent) => raise product base exponent) =
        some powers ∧
      Separate (sort ((powers.flatMap Expr.factors).filter fun factor => !factor.isNum)) := by
  obtain ⟨ascending, origins⟩ := LikeFactors.base_of_mem collects
  have raises : ∀ entry ∈ collected.exponents, ∃ power,
      raise product entry.1 entry.2 = some power ∧ PowerOf entry.1 power := by
    intro entry member
    obtain ⟨factor, inside, notNum, same⟩ := origins entry member
    rw [looseFactorsOfAll_eq_flatMap, List.mem_flatMap] at inside
    obtain ⟨e, inEs, inside⟩ := inside
    obtain ⟨gatheredFactor, notMul⟩ := (gathered e inEs).of_mem_looseFactors inside
    obtain ⟨gatheredBase, isBase⟩ := gatheredFactor.base notNum notMul
    rw [same] at gatheredBase isBase
    exact exists_raise gatheredBase isBase product entry.2
  obtain ⟨powers, raised⟩ := exists_mapM_eq_some fun entry member =>
    (raises entry member).imp fun _ both => both.1
  have related : List.Forall₂ (fun entry power => PowerOf entry.1 power) collected.exponents
      powers := by
    refine forall₂_of_mapM raised fun entry member power found => ?_
    obtain ⟨power', found', isPower⟩ := raises entry member
    cases found.symm.trans found'
    exact isPower
  have parts : ∀ power ∈ powers, ∃ base, PowerOf base power := by
    intro power member
    obtain ⟨entry, -, isPower⟩ := exists_mem_zip_of_forall₂ related.flip member
    exact ⟨entry.1, isPower⟩
  have flat : powers.flatMap Expr.factors = powers :=
    flatMap_factors_of_not_mul fun power member => (parts power member).choose_spec.notMul
  refine ⟨powers, raised, ?_⟩
  rw [flat]
  have kept : ∀ factor ∈ sort (powers.filter fun factor => !factor.isNum),
      ∃ base, PowerOf base factor := fun factor member =>
    parts factor (List.mem_filter.mp (mem_sort.mp member)).1
  refine ⟨fun factor member => (kept factor member).choose_spec.gathered,
    fun factor member => (kept factor member).choose_spec.notMul, ?_⟩
  have distinct := distinctBases_of_powers ascending related
  exact (((sort_perm _).pairwise_iff fun different => Ne.symm different).mpr distinct).sublist
    List.filter_sublist

/-- Products gather factors if they do so for a number and a term one level deeper. -/
theorem gathered_prodToDepth_succ {depth : Nat} {es : List Expr} {result : Expr}
    (scaled : ∀ (coefficient : Rat) (term : Expr), term.Gathered → ∀ result,
      prodToDepth depth [.num coefficient, term] = some result → result.Gathered)
    (gathered : ∀ e ∈ es, e.Gathered) (defined : prodToDepth (depth + 1) es = some result) :
    result.Gathered := by
  obtain ⟨collected, collects, defined⟩ := Option.bind_eq_some_iff.mp defined
  split at defined
  · cases defined
    exact gathered_num 0
  · obtain ⟨powers, raised, defined⟩ := Option.bind_eq_some_iff.mp defined
    obtain ⟨powers', raised', separate⟩ := exists_powers gathered collects (prodToDepth depth)
    cases raised.symm.trans raised'
    dsimp only at defined
    split at defined
    · cases defined
      exact gathered_num 0
    · exact separate.ofFactors (scaled _) defined

/-- Products of trees with gathered factors have gathered factors. -/
theorem gathered_prodToDepth (depth : Nat) :
    ∀ es result, prodToDepth (depth + 1) es = some result → (∀ e ∈ es, e.Gathered) →
      result.Gathered := by
  induction depth with
  | zero =>
    intro es result defined gathered
    refine gathered_prodToDepth_succ (fun coefficient term gathered result multiplied => ?_)
      gathered
      defined
    cases multiplied
    exact gathered_mul_num gathered
  | succ depth ih =>
    intro es result defined gathered
    exact gathered_prodToDepth_succ (fun coefficient term gathered result multiplied =>
      ih _ result multiplied (forall_mem_pair ⟨gathered_num _, gathered⟩)) gathered defined

/-- Gathered factors with different bases have a product. -/
theorem exists_prodToDepth (depth : Nat) :
    ∀ es, (∀ e ∈ es, e.Gathered) → DistinctBases (looseFactorsOfAll es) →
      ∃ result, prodToDepth depth es = some result := by
  induction depth with
  | zero => exact fun es _ _ => ⟨.mul es, rfl⟩
  | succ depth ih =>
    intro es gathered distinct
    obtain ⟨collected, collects⟩ := LikeFactors.exists_ofFactors distinct
    obtain ⟨powers, raised, separate⟩ := exists_powers gathered collects (prodToDepth depth)
    rw [prodToDepth, collects]
    dsimp only [Option.bind_eq_bind, Option.bind_some]
    split
    · exact ⟨zero, rfl⟩
    · rw [raised]
      dsimp only [Option.bind_some]
      split
      · exact ⟨zero, rfl⟩
      · refine exists_ofFactors fun terms member term inside => ?_
        have gatheredTerm := (separate.gathered _ member).arg inside
        refine ih _ (forall_mem_pair ⟨gathered_num _, gatheredTerm⟩) ?_
        exact (gathered_mul_iff.mp (gathered_mul_num gatheredTerm)).1

end Products

/-- Powers of trees with gathered factors have gathered factors. -/
theorem gathered_raise (depth : Nat) (e : Expr) :
    ∀ exponent result, raise (prodToDepth (depth + 1)) e exponent = some result → e.Gathered →
      result.Gathered := by
  have ofBase : ∀ {base : Expr}, base.Gathered → base.isGenerator = true ∨ base.isNum = true →
      ∀ exponent result, raise (prodToDepth (depth + 1)) base exponent = some result →
        result.Gathered := by
    intro base gathered isBase exponent result defined
    obtain ⟨power, raised, isPower⟩ := exists_raise gathered isBase _ exponent
    cases defined.symm.trans raised
    exact isPower.gathered
  induction e with
  | mul factors ih =>
    intro exponent result defined gathered
    unfold raise at defined
    split at defined
    · cases defined
      exact gathered_num 1
    · split at defined
      · cases defined
        exact gathered
      · obtain ⟨powers, raised, multiplied⟩ := Option.bind_eq_some_iff.mp defined
        rw [raiseAll_eq_mapM] at raised
        refine gathered_prodToDepth depth powers result multiplied fun power member => ?_
        obtain ⟨factor, inside, raises⟩ := exists_of_mem_mapM raised member
        exact ih factor inside exponent power raises (gathered.arg inside)
  | pow base inner _ =>
    intro exponent result defined gathered
    unfold raise at defined
    split at defined
    · cases defined
      exact gathered_num 1
    · split at defined
      · cases defined
        exact gathered
      · obtain ⟨total, -, raised⟩ := Option.bind_eq_some_iff.mp defined
        obtain ⟨isBase, gatheredBase⟩ := gathered_pow_iff.mp gathered
        exact ofBase gatheredBase isBase total result raised
  | num value =>
    intro exponent result defined gathered
    exact ofBase gathered (Or.inr rfl) exponent result defined
  | _ =>
    intro exponent result defined gathered
    exact ofBase gathered (Or.inl rfl) exponent result defined

/-- Powers of gathered trees are gathered. -/
theorem gathered_power {e result : Expr} {exponent : Exponent} (gathered : e.Gathered)
    (defined : power e exponent = some result) : result.Gathered :=
  gathered_raise _ e exponent result defined gathered

/-- Sums and products of trees with gathered factors have gathered factors. -/
theorem closed_gathered : Closed Gathered where
  num := gathered_num
  sum _ gathered := termwise_gathered.sum gathered
  prod es result defined gathered := gathered_prodToDepth _ es result defined gathered
  terms e gathered := by
    cases e with
    | add terms => exact gathered_add_iff.mp gathered
    | _ => exact List.forall_mem_singleton.mpr gathered

end FiniteVolume.Expr
