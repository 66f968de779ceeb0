import FiniteVolume.Proofs.Canonical.Distributed
import FiniteVolume.Proofs.Split.Soundness

/-!
# Splits without the unknowns

Where none of the unknowns occurs, the constant part of an expression is all of it, expanded and
added up again (`constantPartOfAll_of_lacks`). Such an expression has only coefficients zero if its
split is accepted (`split_of_lacks`): a vector, whose derivatives are vectors of zeros, leaves
multiples of these as a nonlinear rest.
-/

namespace FiniteVolume.Expr

/-- An expression after it is expanded and its terms are added up again, several times. -/
def resummed : Nat → Expr → Option Expr
  | 0, e => some e
  | count + 1, e => do resummed count (sum (← e.expand).terms)

section Constant

variable {e result : Expr} {names : List String}

/-- The constant part of an expression without the symbols leaves no term out. -/
theorem constantPartOfAll_of_lacks (lacks : ∀ name ∈ names, e.hasSymbol name = false) :
    constantPartOfAll e names = resummed names.length e := by
  induction names generalizing e with
  | nil => rfl
  | cons name rest ih =>
    obtain ⟨first, later⟩ := List.forall_mem_cons.mp lacks
    rw [constantPartOfAll, List.foldlM_cons, List.length_cons, resummed, constantPart]
    cases expands : e.expand with
    | none => rfl
    | some expanded =>
      have kept : (expanded.terms.filter fun term => !term.hasSymbol name) = expanded.terms := by
        refine List.filter_eq_self.mpr fun term member => ?_
        have absent := (inherited_lacks name).terms ((inherited_lacks name).expand expands first)
          term member
        simpa using absent
      have lacksSum : ∀ other ∈ rest, (sum expanded.terms).hasSymbol other = false := by
        intro other member
        exact (inherited_lacks other).sum ((inherited_lacks other).terms
          ((inherited_lacks other).expand expands (later other member)))
      have resummedRest := ih lacksSum
      rw [constantPartOfAll] at resummedRest
      simp only [Option.bind_eq_bind, Option.bind_some, kept, pure, resummedRest]

/-- A distributed term is its own constant part. -/
theorem DistributedTerm.resummed_eq_self (term : e.DistributedTerm) (count : Nat) :
    resummed count e = some e := by
  induction count with
  | zero => rfl
  | succ count ih =>
    rw [resummed, term.toDistributed.expand_eq_self, Option.bind_eq_bind, Option.bind_some,
      terms_of_not_add term.notAdd, term.toOperand.sum_singleton, ih]

/-- Adding up all terms of expansions keeps the value. -/
theorem keepsValue_resummed {K : Type*} [Field K] [CharZero K] {reading : Interpretation K}
    (count : Nat) : KeepsValue reading (resummed count) := by
  induction count with
  | zero =>
    intro e result same sound
    cases same
    exact ⟨sound, rfl⟩
  | succ count ih =>
    intro e result formed sound
    obtain ⟨expanded, expands, formed⟩ := Option.bind_eq_some_iff.mp formed
    obtain ⟨soundExpanded, value⟩ := keepsValue_expand e expanded expands sound
    have soundSum := (hereditary_sound reading).sum ((hereditary_sound reading).terms soundExpanded)
    obtain ⟨soundResult, valueResult⟩ := ih _ result formed soundSum
    refine ⟨soundResult, ?_⟩
    rw [valueResult, valueIn_sum, ← value]
    cases expanded with
    | add terms => rw [valueIn_add]; rfl
    | _ => exact List.sum_singleton

end Constant

section Derivative

variable {e : Expr} {name : String}

/-- The derivative by a symbol that does not occur is zero. -/
theorem diff_of_lacks (lacks : e.hasSymbol name = false) : e.diff name = some e.zeroLike := by
  unfold diff
  rw [if_neg (by simp [lacks])]

/-- The zero of a tree is a distributed term. -/
theorem distributedTerm_zeroLike (e : Expr) : e.zeroLike.DistributedTerm := by
  cases e with
  | vector components =>
    refine ⟨distributed_of_args trivial rfl trivial fun component member => ?_,
      fun _ => by simp [zeroLike]⟩
    obtain ⟨_, -, rfl⟩ := List.mem_map.mp member
    exact (distributedTerm_num 0).toDistributed
  | _ => exact distributedTerm_num 0

/-- The zero of a tree contains no symbol. -/
theorem hasSymbol_zeroLike (e : Expr) (name : String) : e.zeroLike.hasSymbol name = false := by
  cases e with
  | vector components =>
    refine (inherited_lacks name).vector _ fun component member => ?_
    obtain ⟨_, -, rfl⟩ := List.mem_map.mp member
    rfl
  | _ => rfl

end Derivative

section Negative

variable {e result : Expr} {name : String}

/-- The terms in which a symbol occurs are distributed and have negative coefficients, so that they
cannot cancel. -/
def NegativeIn (name : String) (e : Expr) : Prop :=
  ∀ term ∈ e.terms, term.hasSymbol name = true → term.DistributedTerm ∧ term.coefficient < 0

/-- A tree is negative in a symbol that it lacks. -/
theorem negativeIn_of_lacks (lacks : e.hasSymbol name = false) : e.NegativeIn name := by
  intro term member occurs
  rw [(inherited_lacks name).terms lacks term member] at occurs
  cases occurs

/-- A symbol that occurs is in one of the terms. -/
theorem exists_term_of_hasSymbol (occurs : e.hasSymbol name = true) :
    ∃ term ∈ e.terms, term.hasSymbol name = true := by
  by_contra! absent
  have lacks : ∀ term ∈ e.terms, term.hasSymbol name = false := by simpa using absent
  cases e with
  | add terms =>
    rw [((inherited_lacks name).add_iff terms).mpr lacks] at occurs
    cases occurs
  | _ =>
    rw [lacks _ List.mem_cons_self] at occurs
    cases occurs

/-- The monomial of a term contains the symbols of the term. -/
theorem hasSymbol_splitCoefficient (e : Expr) (name : String) :
    e.splitCoefficient.2.hasSymbol name = e.hasSymbol name := by
  cases lacks : e.splitCoefficient.2.hasSymbol name with
  | true =>
    by_contra absent
    rw [(inherited_lacks name).splitCoefficient (by simpa using Ne.symm absent)] at lacks
    cases lacks
  | false =>
    symm
    rcases splitCoefficient_cases e with ⟨c, f, rfl, split⟩ | ⟨c, fs, rfl, -, split⟩ | split
    all_goals rw [split] at lacks
    · exact ((inherited_lacks name).mul_iff _).mpr (forall_mem_pair ⟨rfl, lacks⟩)
    · exact ((inherited_lacks name).mul_iff _).mpr
        (List.forall_mem_cons.mpr ⟨rfl, ((inherited_lacks name).mul_iff fs).mp lacks⟩)
    · exact lacks

/-- Collecting terms keeps the monomials with a symbol, and their coefficients negative. -/
theorem LikeTerms.negative_entries {terms : List Expr}
    (negative : ∀ term ∈ terms, term.hasSymbol name = true →
      term.DistributedTerm ∧ term.coefficient < 0) :
    (∀ entry ∈ (LikeTerms.ofTerms terms).coefficients, entry.1.hasSymbol name = true →
        entry.1.Monomial ∧ entry.1.Distributed ∧ entry.2 < 0) ∧
      ((∃ term ∈ terms, term.hasSymbol name = true) →
        ∃ entry ∈ (LikeTerms.ofTerms terms).coefficients, entry.1.hasSymbol name = true) := by
  induction terms with
  | nil =>
    refine ⟨fun _ member => (nomatch member), ?_⟩
    rintro ⟨_, member, _⟩
    cases member
  | cons term rest ih =>
    obtain ⟨first, later⟩ := List.forall_mem_cons.mp negative
    obtain ⟨entries, occurring⟩ := ih later
    have collected : LikeTerms.ofTerms (term :: rest) =
        LikeTerms.insert term (LikeTerms.ofTerms rest) := rfl
    cases isNum : term.isNum with
    | true =>
      obtain ⟨value, rfl⟩ := eq_num_of_isNum isNum
      refine ⟨entries, fun ⟨other, member, occurs⟩ => ?_⟩
      rcases List.mem_cons.mp member with rfl | member
      · cases occurs
      · exact occurring ⟨other, member, occurs⟩
    | false =>
      rw [collected, insert_of_not_num isNum]
      have inserted := @Tally.mem_insert _ term.splitCoefficient.2
        (((LikeTerms.ofTerms rest).coefficients.get? term.splitCoefficient.2).getD 0 +
          term.splitCoefficient.1) _ (ascending_ofTerms rest)
      constructor
      · intro entry member occurs
        rcases inserted.mp member with rfl | ⟨member, -⟩
        · obtain ⟨distributed, less⟩ :=
            first ((hasSymbol_splitCoefficient term name).symm.trans occurs)
          obtain ⟨isMonomial, distributed⟩ := distributed.splits isNum
          refine ⟨isMonomial, distributed, ?_⟩
          rw [coefficient_of_not_num isNum] at less
          cases found : (LikeTerms.ofTerms rest).coefficients.get? term.splitCoefficient.2 with
          | none => simpa using less
          | some before =>
            have negativeBefore := (entries _ (Tally.mem_of_get? found) occurs).2.2
            exact add_neg negativeBefore less
        · exact entries entry member occurs
      · rintro ⟨other, member, occurs⟩
        rcases List.mem_cons.mp member with rfl | member
        · exact ⟨_, inserted.mpr (Or.inl rfl),
            (hasSymbol_splitCoefficient other name).trans occurs⟩
        · obtain ⟨entry, inside, occurs⟩ := occurring ⟨other, member, occurs⟩
          by_cases same : entry.1 = term.splitCoefficient.2
          · exact ⟨_, inserted.mpr (Or.inl rfl), same ▸ occurs⟩
          · exact ⟨entry, inserted.mpr (Or.inr ⟨inside, same⟩), occurs⟩

/-- A symbol that occurs is in one of the summands. -/
theorem exists_summand_of_hasSymbol (e : Expr) (occurs : e.hasSymbol name = true) :
    ∃ term ∈ e.summands, term.hasSymbol name = true := by
  induction e with
  | add terms ih =>
    obtain ⟨term, member, occurs⟩ := exists_term_of_hasSymbol occurs
    obtain ⟨summand, inside, occurs⟩ := ih term member occurs
    refine ⟨summand, ?_, occurs⟩
    rw [summands, summandsOfAll_eq_flatMap]
    exact List.mem_flatMap.mpr ⟨term, member, inside⟩
  | _ => exact ⟨_, List.mem_singleton_self _, occurs⟩

/-- Terms with the symbol are no sums, so dissolving nested sums finds no others. -/
theorem NegativeIn.summands (negative : e.NegativeIn name) :
    ∀ term ∈ e.summands, term.hasSymbol name = true →
      term.DistributedTerm ∧ term.coefficient < 0 := by
  intro summand member occurs
  cases e with
  | add terms =>
    rw [Expr.summands, summandsOfAll_eq_flatMap, List.mem_flatMap] at member
    obtain ⟨term, inside, member⟩ := member
    cases occursTerm : term.hasSymbol name with
    | false =>
      rw [(inherited_lacks name).termwise.summands term occursTerm summand member] at occurs
      cases occurs
    | true =>
      have isNegative := negative term inside occursTerm
      rw [summands_of_not_add isNegative.1.notAdd, List.mem_singleton] at member
      exact member ▸ isNegative
  | _ =>
    cases List.mem_singleton.mp member
    exact negative _ List.mem_cons_self occurs

/-- A sum of terms with negative coefficients is negative in the symbol. -/
theorem negativeIn_ofTerms {terms : List Expr}
    (negative : ∀ term ∈ terms, term.hasSymbol name = true →
      term.DistributedTerm ∧ term.coefficient < 0) : (ofTerms terms).NegativeIn name := by
  match terms with
  | [] => exact negativeIn_of_lacks rfl
  | [only] =>
    have first := negative only List.mem_cons_self
    cases occurs : only.hasSymbol name with
    | false => exact negativeIn_of_lacks occurs
    | true =>
      rw [ofTerms, NegativeIn, terms_of_not_add (first occurs).1.notAdd]
      exact List.forall_mem_singleton.mpr first
  | first :: second :: rest => exact negative

/-- A sum contains the symbols of its terms. -/
theorem hasSymbol_ofTerms {terms : List Expr} {term : Expr} (member : term ∈ terms)
    (occurs : term.hasSymbol name = true) : (ofTerms terms).hasSymbol name = true := by
  match terms with
  | [only] => exact List.mem_singleton.mp member ▸ occurs
  | first :: second :: rest => exact hasSymbol_iff.mpr (Or.inr ⟨term, member, occurs⟩)

/-- Where all terms with the symbol are negative, the sum keeps the symbol. -/
theorem NegativeIn.sum {es : List Expr} (negative : ∀ e ∈ es, e.NegativeIn name) :
    (sum es).NegativeIn name ∧
      ((∃ e ∈ es, e.hasSymbol name = true) → (Expr.sum es).hasSymbol name = true) := by
  have summands : ∀ term ∈ summandsOfAll es, term.hasSymbol name = true →
      term.DistributedTerm ∧ term.coefficient < 0 := by
    intro term member
    rw [summandsOfAll_eq_flatMap, List.mem_flatMap] at member
    obtain ⟨e, inside, member⟩ := member
    exact (negative e inside).summands term member
  obtain ⟨entries, occurring⟩ := LikeTerms.negative_entries summands
  rw [Expr.sum, LikeTerms.toTerms_eq_sort]
  constructor
  · refine negativeIn_ofTerms fun term member occurs => ?_
    rcases LikeTerms.mem_unsorted_cases (mem_sort.mp member) with
      ⟨rfl, -⟩ | ⟨entry, inside, -, rfl⟩
    · cases occurs
    · have occursKey : entry.1.hasSymbol name = true := by
        by_contra absent
        rw [(inherited_lacks name).scale entry.2 (by simpa using absent)] at occurs
        cases occurs
      obtain ⟨isMonomial, distributed, less⟩ := entries entry inside occursKey
      obtain ⟨isTerm, coefficient⟩ := isMonomial.distributed_scale distributed less.ne
      exact ⟨isTerm, coefficient.trans_lt less⟩
  · rintro ⟨e, member, occurs⟩
    obtain ⟨summand, inside, occurs⟩ := exists_summand_of_hasSymbol e occurs
    obtain ⟨entry, collected, occurs⟩ := occurring ⟨summand, by
      rw [summandsOfAll_eq_flatMap]
      exact List.mem_flatMap.mpr ⟨e, member, inside⟩, occurs⟩
    obtain ⟨isMonomial, -, less⟩ := entries entry collected occurs
    have kept : LikeTerms.keeps entry.1 entry.2 = true := by simp [LikeTerms.keeps, less.ne]
    have split := (isMonomial.scale fun isZero => absurd isZero less.ne).2.2.2
    refine hasSymbol_ofTerms (mem_sort.mpr (List.mem_append_left _ (List.mem_map.mpr
      ⟨entry, List.mem_filter.mpr ⟨collected, kept⟩, rfl⟩))) ?_
    rw [← hasSymbol_splitCoefficient, split]
    exact occurs

/-- Expansion leaves the negative terms as they are, so it keeps the symbol. -/
theorem NegativeIn.expand (negative : e.NegativeIn name) (expands : e.expand = some result)
    (occurs : e.hasSymbol name = true) : result.hasSymbol name = true := by
  cases expand_cases expands with
  | @add terms expanded expandsTerms =>
    have kept : ∀ term ∈ terms, ∀ result, term.expand = some result →
        result.NegativeIn name ∧ (result.hasSymbol name = true ↔ term.hasSymbol name = true) := by
      intro term member result expands
      cases occursTerm : term.hasSymbol name with
      | false =>
        have lacks := (inherited_lacks name).expand expands occursTerm
        exact ⟨negativeIn_of_lacks lacks, by simp [lacks]⟩
      | true =>
        have isNegative := negative term member occursTerm
        cases isNegative.1.toDistributed.expand_eq_self.symm.trans expands
        rw [NegativeIn, terms_of_not_add isNegative.1.notAdd]
        exact ⟨List.forall_mem_singleton.mpr fun _ => isNegative, by simp [occursTerm]⟩
    refine (NegativeIn.sum ?_).2 ?_
    · exact forall_mem_of_mapM expandsTerms fun term member result expands =>
        (kept term member result expands).1
    · exact (exists_mem_iff_of_mapM expandsTerms fun term member result expands =>
        (kept term member result expands).2).mpr (exists_term_of_hasSymbol occurs)
  | _ =>
    have isNegative := negative _ List.mem_cons_self occurs
    cases isNegative.1.toDistributed.expand_eq_self.symm.trans expands
    exact occurs

end Negative

section Rest

variable {captured : List Expr} {opposite : Expr} {name : String}

/-- Items of weight one are counted. -/
theorem weights_one (es : List Expr) (e : Expr) :
    weights id (fun _ => (1 : ℚ)) es e = es.count e := by
  induction es with
  | nil => rfl
  | cons first rest ih =>
    rw [weights_cons, Finsupp.add_apply, ih, List.count_cons, id]
    by_cases same : first = e
    · rw [same, Finsupp.single_eq_same]
      simp [add_comm]
    · rw [Finsupp.single_eq_of_ne' same]
      simp [same]

/-- The monomial of a tree that lacks a symbol lacks it. -/
theorem hasSymbol_monomial {e : Expr} (lacks : e.hasSymbol name = false) :
    e.monomial.hasSymbol name = false := by
  cases isNum : e.isNum with
  | true =>
    obtain ⟨value, rfl⟩ := eq_num_of_isNum isNum
    rfl
  | false =>
    rw [monomial_of_not_num isNum]
    exact (inherited_lacks name).splitCoefficient lacks

/-- The opposite of a sum of monomials has the opposite coefficients. -/
theorem negativeIn_neg_sum
    (monomials : ∀ product ∈ captured, product.Monomial ∧ product.Distributed)
    (negates : neg (sum captured) = some opposite) :
    opposite.NegativeIn name ∧ ((∃ product ∈ captured, product.hasSymbol name = true) →
      opposite.hasSymbol name = true) := by
  have operands : ∀ product ∈ captured, product.Operand := fun product member =>
    (monomials product member).2.toOperand
  obtain ⟨result, negates', operand, combination⟩ := (operand_sum operands).exists_multiple (-1 : ℤ)
  cases negates'.symm.trans negates
  have singles : captured.map Expr.combination =
      captured.map fun product => Finsupp.single (id product) (1 : ℚ) := by
    refine List.map_congr_left fun product member => ?_
    have isMonomial := (monomials product member).1
    rw [combination_of_not_add isMonomial.notAdd, isMonomial.monomial, isMonomial.coefficient, id]
  have counts : ∀ monomial, opposite.combination monomial = -(captured.count monomial : ℚ) := by
    intro monomial
    rw [combination, combination_sum fun product member => (operands product member).canonical,
      singles, ← weights_one]
    simp [weights]
  constructor
  · intro term member occurs
    have summand := operand.summand member
    have notNum : term.isNum = false := by
      cases term <;> first | rfl | cases occurs
    have value : opposite.combination term.monomial = term.coefficient :=
      weights_of_mem operand.canonical.terms_monomials member
    have nonzero : term.coefficient ≠ 0 := summand.coefficient_ne_zero fun isZero => by
      rw [isZero] at notNum
      cases notNum
    rw [counts] at value
    have inside : term.monomial ∈ captured := by
      by_contra absent
      rw [List.count_eq_zero_of_not_mem absent] at value
      exact nonzero (value.symm.trans (by simp))
    obtain ⟨isMonomial, distributed⟩ := monomials _ inside
    obtain ⟨isTerm, -⟩ := isMonomial.distributed_scale distributed nonzero
    rw [summand.canonical.scale_coefficient notNum summand.notAdd] at isTerm
    refine ⟨isTerm, value ▸ neg_neg_of_pos ?_⟩
    exact_mod_cast List.count_pos_iff.mpr inside
  · rintro ⟨product, member, occurs⟩
    by_contra absent
    have lacks : opposite.hasSymbol name = false := by simpa using absent
    have weightless : opposite.combination product = 0 := by
      refine weights_of_absent fun term inside same => ?_
      rw [← same, hasSymbol_monomial ((inherited_lacks name).terms lacks term inside)] at occurs
      cases occurs
    rw [counts, neg_eq_zero, Nat.cast_eq_zero] at weightless
    exact absurd member (List.count_eq_zero.mp weightless)

/-- A symbol times a vector of zeros is a distributed monomial with the symbol. -/
theorem prod_sym_vector {e product : Expr} {components : List Expr}
    (isVector : e.zeroLike = .vector components)
    (multiplied : prod [.sym name, e.zeroLike] = some product) :
    product.Monomial ∧ product.Distributed ∧ product.hasSymbol name = true := by
  have symbol : (Expr.sym name).DistributedTerm :=
    ⟨distributed_of_args trivial rfl trivial fun _ member => (nomatch member), fun _ => by simp⟩
  have distributed := DistributedTerm.prod
    (forall_mem_pair ⟨symbol, distributedTerm_zeroLike e⟩) multiplied
  rw [isVector] at multiplied
  cases (show prod [.sym name, .vector components] =
    some (.mul [.sym name, .vector components]) from rfl).symm.trans multiplied
  refine ⟨monomial_mul distributed.canonical (by simp [isNum, value?]), distributed.toDistributed,
    ?_⟩
  exact hasSymbol_iff.mpr (Or.inr ⟨.sym name, List.mem_cons_self, hasSymbol_iff.mpr (Or.inl rfl)⟩)

end Rest

section Split

variable {e : Expr} {name : String} {rest : List String} {parts : AffineSplit}

/-- The coefficients of an expression without the unknowns are the derivative that it has with
respect to all of them. -/
theorem eq_zeroLike_of_mem_linear {expanded : Expr} {unknowns names : List String}
    {linear : List Expr} (lacks : ∀ name ∈ names, expanded.hasSymbol name = false)
    (formed : (names.mapM fun unknown => do
      (← expanded.diff unknown).constantPartOfAll unknowns) = some linear) :
    ∀ coefficient ∈ linear, coefficient = expanded.zeroLike := by
  intro coefficient member
  obtain ⟨unknown, inside, derivative, differentiates, formed⟩ :=
    exists_derivative_of_mem_linear formed member
  rw [diff_of_lacks (lacks unknown inside)] at differentiates
  cases differentiates
  rw [constantPartOfAll_of_lacks fun name _ => hasSymbol_zeroLike expanded name,
    (distributedTerm_zeroLike expanded).resummed_eq_self] at formed
  exact (Option.some.inj formed).symm

/-- The split of an expression without the unknowns is accepted only if its expansion is no vector,
since multiples of a vector of zeros are left over. -/
theorem isLinear_eq_false_of_vector {expanded : Expr} {components : List Expr}
    (splits : e.split (name :: rest) = some parts)
    (lacks : ∀ unknown ∈ name :: rest, e.hasSymbol unknown = false)
    (expands : e.expand = some expanded) (isVector : expanded.zeroLike = .vector components) :
    parts.isLinear = false := by
  obtain ⟨_, captured, difference, remainder, expands', affineFormed, linearFormed, capturedFormed,
    differenceFormed, restFormed, nonlinearFormed⟩ := split_cases splits
  cases expands.symm.trans expands'
  have lacksExpanded : ∀ unknown ∈ name :: rest, expanded.hasSymbol unknown = false :=
    fun unknown member => (inherited_lacks unknown).expand expands (lacks unknown member)
  have linear := eq_zeroLike_of_mem_linear lacksExpanded linearFormed
  have products : ∀ product ∈ captured, product.Monomial ∧ product.Distributed := by
    intro product member
    obtain ⟨⟨unknown, coefficient⟩, inside, multiplied⟩ := exists_of_mem_mapM capturedFormed member
    cases linear coefficient (List.of_mem_zip inside).2
    obtain ⟨isMonomial, distributed, -⟩ := prod_sym_vector isVector multiplied
    exact ⟨isMonomial, distributed⟩
  have occurs : ∃ product ∈ captured, product.hasSymbol name = true := by
    obtain ⟨coefficient, others, -, -, coefficients⟩ := mapM_cons_eq_some linearFormed
    rw [coefficients] at capturedFormed linear
    obtain ⟨product, _, multiplied, -, rfl⟩ := mapM_cons_eq_some capturedFormed
    cases linear coefficient List.mem_cons_self
    exact ⟨product, List.mem_cons_self, (prod_sym_vector isVector multiplied).2.2⟩
  obtain ⟨opposite, negates, same⟩ := Option.bind_eq_some_iff.mp restFormed
  cases same
  obtain ⟨negative, keeps⟩ := @negativeIn_neg_sum captured opposite name products negates
  have lacksDifference : difference.hasSymbol name = false := by
    have first := lacksExpanded name List.mem_cons_self
    exact (inherited_lacks name).sub differenceFormed first
      ((inherited_lacks name).constantPartOfAll affineFormed first)
  obtain ⟨negativeRest, keepsRest⟩ :=
    NegativeIn.sum (forall_mem_pair ⟨negativeIn_of_lacks lacksDifference, negative⟩)
  have survives := negativeRest.expand nonlinearFormed
    (keepsRest ⟨opposite, by simp, keeps occurs⟩)
  rw [AffineSplit.isLinear, ← Bool.not_eq_true]
  intro isZero
  rw [eq_zero_of_isZero isZero] at survives
  cases survives

/-- A tree that is all of an expression: its expansion, added up again without leaving a term out,
so that it has the value of the expression wherever this is defined. -/
structure IsAllOf (e affine : Expr) : Prop where
  expansion : ∃ count expanded, e.expand = some expanded ∧ resummed count expanded = some affine
  value : ∀ (K : Type) [Field K] [CharZero K] (reading : Interpretation K), e.Sound reading →
    affine.valueIn reading = e.valueIn reading

/-- An expression without the unknowns has only coefficients zero, and all of it is its affine part,
if its split is accepted. -/
theorem split_of_lacks (splits : e.split (name :: rest) = some parts)
    (isLinear : parts.isLinear = true)
    (lacks : ∀ unknown ∈ name :: rest, e.hasSymbol unknown = false) :
    (∀ position, parts.coefficient position = zero) ∧ e.IsAllOf parts.affine := by
  obtain ⟨expanded, _, _, _, expands, affineFormed, linearFormed, -⟩ := split_cases splits
  have lacksExpanded : ∀ unknown ∈ name :: rest, expanded.hasSymbol unknown = false :=
    fun unknown member => (inherited_lacks unknown).expand expands (lacks unknown member)
  have linear := eq_zeroLike_of_mem_linear lacksExpanded linearFormed
  rw [constantPartOfAll_of_lacks lacksExpanded] at affineFormed
  have scalar : expanded.zeroLike = zero := by
    cases expanded with
    | vector components =>
      rw [isLinear_eq_false_of_vector splits lacks expands rfl] at isLinear
      cases isLinear
    | _ => rfl
  refine ⟨fun position => ?_, ⟨_, expanded, expands, affineFormed⟩, fun K _ _ reading sound => ?_⟩
  · rw [AffineSplit.coefficient]
    cases stands : parts.linear[position]? with
    | none => rfl
    | some coefficient => exact (linear coefficient (List.mem_of_getElem? stands)).trans scalar
  · obtain ⟨soundExpanded, value⟩ := keepsValue_expand e expanded expands sound
    rw [(keepsValue_resummed _ expanded _ affineFormed soundExpanded).2, value]

end Split

end FiniteVolume.Expr
