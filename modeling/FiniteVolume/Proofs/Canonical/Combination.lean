import FiniteVolume.Proofs.Canonical.Normalization
import FiniteVolume.Proofs.Weights

/-!
# Canonical trees as linear combinations

A canonical tree that does not divide by zero is a combination of monomials with rational
coefficients, and it is known from them (`Operand.eq_of_combination_eq`). Sums add combinations and
a number multiplies them, so these trees obey the laws of a vector space over the rationals, and not
only their values do (`vectorSpace_laws`).
-/

namespace FiniteVolume.Expr

/-- An operand that is no sum. -/
structure Summand (e : Expr) : Prop extends Operand e where
  notAdd : ∀ terms, e ≠ .add terms

/-- Numbers are operands. -/
theorem operand_num (value : Rat) : (Expr.num value).Operand :=
  ⟨canonical_num value, dividesByZero_num value⟩

theorem operand_zero : zero.Operand := operand_num 0

/-- An operand inverts invertible trees only. -/
theorem Operand.invertible {e : Expr} (operand : e.Operand) : e.NegativeBases Invertible :=
  operand.canonical.negativeBases operand.regular

/-- The children of an operand are operands. -/
theorem Operand.arg {e arg : Expr} (operand : e.Operand) (member : arg ∈ e.args) : arg.Operand :=
  ⟨operand.canonical.arg member, dividesByZero_of_mem_eq_false operand.regular member⟩

/-- Sums of operands are operands. -/
theorem operand_sum {es : List Expr} (operands : ∀ e ∈ es, e.Operand) : (sum es).Operand where
  canonical := canonical_sum fun e member => (operands e member).canonical
  regular := (hereditary_invertible.sum fun e member => (operands e member).invertible).regular

/-- Products of operands are operands. -/
theorem operand_prod {es : List Expr} {result : Expr} (operands : ∀ e ∈ es, e.Operand)
    (defined : prod es = some result) : result.Operand where
  canonical := canonical_prod (fun e member => (operands e member).canonical)
    (fun e member => regular_bases (operands e member).regular) defined
  regular := (hereditary_invertible.prod defined fun e member =>
    (operands e member).invertible).regular

/-- The terms of an operand are operands, and no sums. -/
theorem Operand.summand {e term : Expr} (operand : e.Operand) (member : term ∈ e.terms) :
    term.Summand := by
  obtain ⟨canonical, notAdd⟩ := operand.canonical.not_add_of_mem_terms member
  refine ⟨⟨canonical, ?_⟩, notAdd⟩
  cases e with
  | add terms => exact (operand.arg member).regular
  | _ => exact List.mem_singleton.mp member ▸ operand.regular

/-- A tree that is no sum is its own term. -/
theorem terms_of_not_add {e : Expr} (notAdd : ∀ terms, e ≠ .add terms) : e.terms = [e] := by
  cases e with
  | add terms => exact absurd rfl (notAdd terms)
  | _ => rfl

namespace Summand

variable {e : Expr}

/-- Only numbers have the monomial one. -/
theorem isNum_iff (summand : e.Summand) : e.isNum = true ↔ e.monomial = one := by
  cases isNum : e.isNum with
  | true =>
    obtain ⟨value, rfl⟩ := eq_num_of_isNum isNum
    exact iff_of_true rfl rfl
  | false =>
    refine iff_of_false Bool.false_ne_true fun isOne => ?_
    have notNum := (summand.canonical.split isNum summand.notAdd).1.notNum
    rw [← monomial_of_not_num isNum, isOne] at notNum
    cases notNum

/-- A term is known from its coefficient and its monomial. -/
theorem ext {other : Expr} (summand : e.Summand) (summand' : other.Summand)
    (coefficient : e.coefficient = other.coefficient) (monomial : e.monomial = other.monomial) :
    e = other := by
  cases isNum : e.isNum with
  | true =>
    have isNum' : other.isNum = true :=
      summand'.isNum_iff.mpr (monomial.symm.trans (summand.isNum_iff.mp isNum))
    obtain ⟨value, rfl⟩ := eq_num_of_isNum isNum
    obtain ⟨value', rfl⟩ := eq_num_of_isNum isNum'
    exact congrArg Expr.num coefficient
  | false =>
    have notNum : other.isNum = false := by
      rw [← Bool.not_eq_true, summand'.isNum_iff, ← monomial, ← summand.isNum_iff, isNum]
      exact Bool.false_ne_true
    rw [← summand.canonical.scale_coefficient isNum summand.notAdd,
      ← summand'.canonical.scale_coefficient notNum summand'.notAdd, coefficient, monomial]

/-- Only the number zero has the coefficient zero. -/
theorem coefficient_ne_zero (summand : e.Summand) (nonzero : e ≠ zero) : e.coefficient ≠ 0 := by
  cases isNum : e.isNum with
  | true =>
    obtain ⟨value, rfl⟩ := eq_num_of_isNum isNum
    exact fun isZero => nonzero (congrArg Expr.num isZero)
  | false =>
    rw [coefficient_of_not_num isNum]
    intro isZero
    have singular : ∀ factors, e = .mul (.num 0 :: factors) → False := by
      rintro factors rfl
      have divides := (canonical_mul_iff.mp summand.canonical).1.zero_singular List.mem_cons_self
      rw [summand.regular] at divides
      cases divides
    rcases splitCoefficient_cases e with
      ⟨c, factor, rfl, split⟩ | ⟨c, factors, rfl, -, split⟩ | split
    all_goals
      rw [split] at isZero
    · exact singular [factor] (by rw [show c = 0 from isZero])
    · exact singular factors (by rw [show c = 0 from isZero])
    · exact one_ne_zero isZero

end Summand

/-- The terms of a canonical tree have different monomials. -/
theorem Canonical.terms_monomials {e : Expr} (canonical : e.Canonical) :
    e.terms.Pairwise fun left right => left.monomial ≠ right.monomial := by
  cases e with
  | add terms => exact (canonical_add_iff.mp canonical).1.monomials
  | _ => exact List.pairwise_singleton _ _

/-- The terms of a canonical tree are in order. -/
theorem Canonical.terms_ascending {e : Expr} (canonical : e.Canonical) :
    e.terms.Pairwise Before := by
  cases e with
  | add terms => exact (canonical_add_iff.mp canonical).1.ascending
  | _ => exact List.pairwise_singleton _ _

/-- An operand is put together from the terms that do not vanish. -/
theorem Operand.ofTerms_nonzero {e : Expr} (operand : e.Operand) :
    ofTerms (e.terms.filter fun term => term.coefficient ≠ 0) = e := by
  have single : e.terms = [e] → ofTerms (e.terms.filter fun term => term.coefficient ≠ 0) = e := by
    intro single
    rw [single]
    by_cases isZero : e = zero
    · rw [isZero]
      rfl
    · have summand := operand.summand (single ▸ List.mem_singleton_self e)
      rw [List.filter_cons_of_pos (by simpa using summand.coefficient_ne_zero isZero)]
      rfl
  cases e with
  | add terms =>
    obtain ⟨sum, -⟩ := canonical_add_iff.mp operand.canonical
    have kept : ∀ term ∈ terms, decide (term.coefficient ≠ 0) = true := by
      intro term member
      refine decide_eq_true fun isZero => ?_
      have divides := sum.coefficients term member isZero
      rw [(operand.arg member).regular] at divides
      cases divides
    rw [Expr.terms, List.filter_eq_self.mpr kept]
    rcases terms with _ | ⟨first, _ | ⟨second, rest⟩⟩
    · cases sum.several
    · have several := sum.several
      simp at several
    · rfl
  | _ => exact single rfl

/-- The coefficients of the monomials of a tree; a number is a multiple of the monomial one. -/
noncomputable def combination (e : Expr) : Expr →₀ ℚ := weights monomial coefficient e.terms

/-- A tree that is no sum is one multiple of its monomial. -/
theorem combination_of_not_add {e : Expr} (notAdd : ∀ terms, e ≠ .add terms) :
    e.combination = Finsupp.single e.monomial e.coefficient := by
  rw [combination, terms_of_not_add notAdd, weights_cons, weights_nil, add_zero]

/-- A number is a multiple of one. -/
@[simp]
theorem combination_num (value : Rat) : (Expr.num value).combination = Finsupp.single one value :=
  combination_of_not_add fun _ => by simp

/-- Zero is the empty combination. -/
@[simp]
theorem combination_zero : zero.combination = 0 :=
  (combination_num 0).trans (Finsupp.single_zero one)

/-- Operands with the same terms that do not vanish are the same tree. -/
theorem Operand.eq_of_terms {e e' : Expr} (operand : e.Operand) (operand' : e'.Operand)
    (included : ∀ term ∈ e.terms, term.coefficient ≠ 0 → term ∈ e'.terms)
    (included' : ∀ term ∈ e'.terms, term.coefficient ≠ 0 → term ∈ e.terms) : e = e' := by
  have terms : (e.terms.filter fun term => term.coefficient ≠ 0) =
      e'.terms.filter fun term => term.coefficient ≠ 0 := by
    refine (operand.canonical.terms_ascending.sublist List.filter_sublist).eq_of_mem_iff
      (operand'.canonical.terms_ascending.sublist List.filter_sublist) fun term => ?_
    simp only [List.mem_filter, decide_eq_true_eq]
    exact ⟨fun ⟨member, nonzero⟩ => ⟨included term member nonzero, nonzero⟩,
      fun ⟨member, nonzero⟩ => ⟨included' term member nonzero, nonzero⟩⟩
  rw [← operand.ofTerms_nonzero, ← operand'.ofTerms_nonzero, terms]

/-- Operands with the same combination are the same tree. -/
theorem Operand.eq_of_combination_eq {e e' : Expr} (operand : e.Operand) (operand' : e'.Operand)
    (same : e.combination = e'.combination) : e = e' := by
  have included : ∀ {e e' : Expr}, e.Operand → e'.Operand → e.combination = e'.combination →
      ∀ term ∈ e.terms, term.coefficient ≠ 0 → term ∈ e'.terms := by
    intro e e' operand operand' same term member nonzero
    exact mem_of_weights_eq operand.canonical.terms_monomials operand'.canonical.terms_monomials
      same (fun other inside monomial coefficient => (operand'.summand inside).ext
        (operand.summand member) coefficient monomial) member nonzero
  exact operand.eq_of_terms operand' (included operand operand' same)
    (included operand' operand same.symm)

/-- The combination of collected terms. -/
noncomputable def LikeTerms.combination (collected : LikeTerms) : Expr →₀ ℚ :=
  Finsupp.single one collected.constant + collected.coefficients.total Finsupp.single

namespace LikeTerms

/-- Collecting terms adds up the coefficients of their monomials. -/
theorem combination_ofTerms {terms : List Expr}
    (canonical : ∀ term ∈ terms, term.Canonical ∧ ∀ inner, term ≠ .add inner) :
    (ofTerms terms).combination = weights monomial Expr.coefficient terms := by
  induction terms with
  | nil =>
    change Finsupp.single one 0 + 0 = _
    rw [Finsupp.single_zero, add_zero, weights_nil]
  | cons term rest ih =>
    obtain ⟨-, later⟩ := List.forall_mem_cons.mp canonical
    obtain ⟨ascending, -⟩ := monomials_of_canonical later
    rw [weights_cons, ← ih later]
    change (insert term (ofTerms rest)).combination = _
    cases isNum : term.isNum with
    | true =>
      obtain ⟨value, rfl⟩ := eq_num_of_isNum isNum
      change Finsupp.single one ((ofTerms rest).constant + value) + _ =
        Finsupp.single one value + _
      rw [LikeTerms.combination, Finsupp.single_add]
      abel
    | false =>
      have inserted : ((ofTerms rest).coefficients.insert term.monomial
          (((ofTerms rest).coefficients.get? term.monomial).getD 0 + term.coefficient)).total
            Finsupp.single =
          (ofTerms rest).coefficients.total Finsupp.single +
            Finsupp.single term.monomial term.coefficient := by
        refine Tally.total_insert ascending (fun value found => ?_) fun absent => ?_
        · rw [found, Option.getD_some, Finsupp.single_add]
        · rw [absent, Option.getD_none, zero_add]
      rw [insert_of_not_num isNum, LikeTerms.combination, ← monomial_of_not_num isNum,
        ← coefficient_of_not_num isNum, inserted, LikeTerms.combination]
      abel

/-- Multiples of monomials that stay in a sum weigh as much as all of them: those that are dropped
weigh nothing. -/
theorem weights_kept {entries : Tally Rat} (keys : ∀ entry ∈ entries, entry.1.Monomial) :
    weights monomial Expr.coefficient ((entries.filter fun entry => keeps entry.1 entry.2).map
      fun entry => scale entry.2 entry.1) = entries.total Finsupp.single := by
  induction entries with
  | nil => rfl
  | cons entry rest ih =>
    obtain ⟨first, later⟩ := List.forall_mem_cons.mp keys
    have total : Tally.total Finsupp.single (entry :: rest) =
        Finsupp.single entry.1 entry.2 + Tally.total Finsupp.single rest := List.sum_cons
    rw [total, ← ih later]
    cases kept : keeps entry.1 entry.2 with
    | true =>
      obtain ⟨-, notNum, -, split⟩ := first.scale (regular_of_keeps kept)
      rw [List.filter_cons_of_pos (by exact kept), List.map_cons, weights_cons,
        monomial_of_not_num notNum, coefficient_of_not_num notNum, split]
    | false =>
      have isZero : entry.2 = 0 := by
        simp only [keeps, Bool.or_eq_false_iff, decide_eq_false_iff_not, not_not] at kept
        exact kept.1
      rw [List.filter_cons_of_neg (by simp [kept]), isZero, Finsupp.single_zero, zero_add]

/-- The terms that stay in a sum make up its combination. -/
theorem weights_unsorted {collected : LikeTerms}
    (keys : ∀ entry ∈ collected.coefficients, entry.1.Monomial) :
    weights monomial Expr.coefficient collected.unsorted = collected.combination := by
  have constant : weights monomial Expr.coefficient
      (if collected.constant = 0 then [] else [.num collected.constant]) =
        Finsupp.single one collected.constant := by
    split
    · rename_i isZero
      rw [isZero, Finsupp.single_zero, weights_nil]
    · rw [weights_cons, weights_nil, add_zero]
      rfl
  rw [unsorted, weights_append, weights_kept keys, constant, LikeTerms.combination, add_comm]

end LikeTerms

/-- Sorted terms that are no sums have the combination of the tree they are put together to. -/
theorem combination_ofTerms_sort {terms : List Expr}
    (notAdd : ∀ term ∈ terms, ∀ inner, term ≠ .add inner) :
    (ofTerms (sort terms)).combination = weights monomial coefficient terms := by
  rw [← weights_perm (sort_perm terms), combination]
  match sorted : sort terms with
  | [] => exact combination_zero
  | [term] =>
    rw [ofTerms, terms_of_not_add (notAdd term (mem_sort.mp (by simp [sorted])))]
  | first :: second :: rest => rfl

/-- The sum of canonical trees adds up their combinations. -/
theorem combination_sum {es : List Expr} (canonical : ∀ e ∈ es, e.Canonical) :
    (sum es).combination = (es.map combination).sum := by
  have terms : ∀ term ∈ es.flatMap terms, term.Canonical ∧ ∀ inner, term ≠ .add inner := by
    intro term member
    obtain ⟨e, inside, member⟩ := List.mem_flatMap.mp member
    exact (canonical e inside).not_add_of_mem_terms member
  obtain ⟨-, keys⟩ := LikeTerms.monomials_of_canonical terms
  have notAdd : ∀ term ∈ (LikeTerms.ofTerms (es.flatMap Expr.terms)).unsorted,
      ∀ inner, term ≠ .add inner := by
    intro term member
    rcases LikeTerms.mem_unsorted_cases member with ⟨rfl, -⟩ | ⟨entry, inside, kept, rfl⟩
    · exact fun _ => by simp
    · exact ((keys entry inside).scale (LikeTerms.regular_of_keeps kept)).2.2.1
  rw [sum, summandsOfAll_of_canonical canonical, LikeTerms.toTerms_eq_sort,
    combination_ofTerms_sort notAdd, LikeTerms.weights_unsorted keys,
    LikeTerms.combination_ofTerms terms, weights_flatMap]
  rfl

/-- Sums of lists with the same total are the same tree. -/
theorem sum_congr {es es' : List Expr} (operands : ∀ e ∈ es, e.Operand)
    (operands' : ∀ e ∈ es', e.Operand)
    (same : (es.map combination).sum = (es'.map combination).sum) : sum es = sum es' := by
  refine (operand_sum operands).eq_of_combination_eq (operand_sum operands') ?_
  rw [combination_sum fun e member => (operands e member).canonical, same,
    ← combination_sum fun e member => (operands' e member).canonical]

/-- How a coefficient is written among factors: one is left out. -/
def writtenCoefficient (coefficient : Rat) : List Expr :=
  if coefficient = 1 then [] else [.num coefficient]

/-- A coefficient and factors that are no numbers can be told apart. -/
theorem filter_writtenCoefficient (coefficient : Rat) {factors : List Expr}
    (notNum : ∀ factor ∈ factors, factor.isNum = false) :
    (((writtenCoefficient coefficient ++ factors).filter isNum).map Expr.coefficient).prod =
        coefficient ∧
      ((writtenCoefficient coefficient ++ factors).filter fun factor => !factor.isNum) =
        factors := by
  have numbers : factors.filter isNum = [] :=
    List.filter_eq_nil_iff.mpr fun factor member => by simp [notNum factor member]
  have others : (factors.filter fun factor => !factor.isNum) = factors :=
    List.filter_eq_self.mpr fun factor member => by simp [notNum factor member]
  rw [List.filter_append, List.filter_append, numbers, others, List.append_nil]
  unfold writtenCoefficient
  split
  · rename_i isOne
    exact ⟨isOne.symm, rfl⟩
  · exact ⟨mul_one coefficient, rfl⟩

namespace Monomial

variable {m : Expr}

/-- The factors of a monomial are no numbers. -/
theorem factors_notNum (isMonomial : m.Monomial) : ∀ factor ∈ m.factors, factor.isNum = false := by
  cases m with
  | mul factors => exact isMonomial.noNumber
  | _ => exact List.forall_mem_singleton.mpr isMonomial.notNum

/-- The factors of a multiple are the number, which is left out if it is one, and the factors of the
monomial. -/
theorem factors_scale {value : Rat} (isMonomial : m.Monomial) :
    (Expr.scale value m).factors = writtenCoefficient value ++ m.factors := by
  unfold writtenCoefficient
  by_cases isOne : value = 1
  · rw [isOne, scale_one, if_pos rfl, List.nil_append]
  · rw [if_neg isOne]
    cases m with
    | mul factors =>
      rw [scale_mul isOne]
      rfl
    | _ =>
      rw [scale_of_not_mul isOne fun _ => by simp]
      rfl

/-- The factors of a monomial are in order. -/
theorem sort_factors (isMonomial : m.Monomial) : sort m.factors = m.factors := by
  cases m with
  | mul factors => exact sort_of_pairwise (canonical_mul_iff.mp isMonomial.canonical).1.sorted
  | _ => rfl

/-- A number times a monomial is written as a multiple. -/
theorem ofFactors {product : List Expr → Option Expr} {value : Rat} (isMonomial : m.Monomial) :
    Expr.ofFactors product value m.factors = some (Expr.scale value m) := by
  cases m with
  | mul factors =>
    have several := (canonical_mul_iff.mp isMonomial.canonical).1.several
    rcases factors with _ | ⟨first, _ | ⟨second, rest⟩⟩
    · cases several
    · simp at several
    · simp only [Expr.factors, Expr.ofFactors, Expr.scale]
  | add terms => exact absurd rfl (isMonomial.notAdd terms)
  | _ => rfl

end Monomial

/-- The factors of a canonical tree are its coefficient, which is left out if it is one, and the
factors of its monomial. -/
theorem Canonical.factors_eq {e : Expr} (canonical : e.Canonical) (notNum : e.isNum = false) :
    e.factors = writtenCoefficient e.coefficient ++ e.monomial.factors ∧
      ∀ factor ∈ e.monomial.factors, factor.isNum = false := by
  by_cases isSum : ∃ terms, e = .add terms
  · obtain ⟨terms, rfl⟩ := isSum
    exact ⟨rfl, List.forall_mem_singleton.mpr rfl⟩
  · have notAdd : ∀ terms, e ≠ .add terms := fun terms same => isSum ⟨terms, same⟩
    have isMonomial := (canonical.split notNum notAdd).1
    rw [← monomial_of_not_num notNum] at isMonomial
    refine ⟨?_, isMonomial.factors_notNum⟩
    rw [← isMonomial.factors_scale, canonical.scale_coefficient notNum notAdd]

/-- The numbers among the factors of a canonical tree make its coefficient. -/
theorem Canonical.prod_numbers {e : Expr} (canonical : e.Canonical) :
    ((e.factors.filter isNum).map coefficient).prod = e.coefficient := by
  cases isNum : e.isNum with
  | true =>
    obtain ⟨value, rfl⟩ := eq_num_of_isNum isNum
    exact mul_one value
  | false =>
    obtain ⟨factors, notNum⟩ := canonical.factors_eq isNum
    rw [factors]
    exact (filter_writtenCoefficient e.coefficient notNum).1

/-- The other factors of a canonical tree that is no number are those of its monomial. -/
theorem Canonical.filter_factors {e : Expr} (canonical : e.Canonical) (notNum : e.isNum = false) :
    (e.factors.filter fun factor => !factor.isNum) = e.monomial.factors := by
  obtain ⟨factors, others⟩ := canonical.factors_eq notNum
  rw [factors]
  exact (filter_writtenCoefficient e.coefficient others).2

/-- A number times an operand is put together from the product of the number and the coefficient and
from the factors of the monomial. -/
theorem prodToDepth_num {e : Expr} (operand : e.Operand) (depth : Nat) (value : Rat) :
    prodToDepth (depth + 1) [.num value, e] =
      if value * e.coefficient = 0 then
        some zero
      else
        ofFactors (prodToDepth depth) (value * e.coefficient)
          (sort (e.factors.filter fun factor => !factor.isNum)) := by
  have flat : [Expr.num value, e].flatMap factors = .num value :: e.factors := by
    simp [factors]
  have others : (Expr.num value :: e.factors).filter (fun factor => !factor.isNum) =
      e.factors.filter fun factor => !factor.isNum :=
    List.filter_cons_of_neg (by simp [isNum, value?])
  have regular : ¬∃ factor ∈ Expr.num value :: e.factors, factor.dividesByZero = true := by
    rintro ⟨factor, member, divides⟩
    rcases List.mem_cons.mp member with rfl | inside
    · cases divides
    · exact absurd operand.regular (by simp [dividesByZero_of_mem_factors inside divides])
  rw [prodToDepth_of_distinct (forall_mem_pair ⟨canonical_num value, operand.canonical⟩)
    (by rw [flat, others]; exact operand.canonical.factors_bases), flat, others,
    List.filter_cons_of_pos rfl, List.map_cons, List.prod_cons, operand.canonical.prod_numbers,
    coefficient]
  simp only [regular, not_false_eq_true, and_true]

/-- A number times an operand that is no sum multiplies the combination. -/
theorem Summand.exists_prodToDepth {e : Expr} (summand : e.Summand) (depth : Nat) (value : Rat) :
    ∃ result, prodToDepth (depth + 1) [.num value, e] = some result ∧
      result.combination = value • e.combination := by
  rw [prodToDepth_num summand.toOperand, combination_of_not_add summand.notAdd,
    Finsupp.smul_single, smul_eq_mul]
  split
  · rename_i isZero
    refine ⟨zero, rfl, ?_⟩
    rw [isZero, Finsupp.single_zero, combination_zero]
  · rename_i nonzero
    cases isNum : e.isNum with
    | true =>
      obtain ⟨number, rfl⟩ := eq_num_of_isNum isNum
      exact ⟨_, rfl, combination_num _⟩
    | false =>
      have isMonomial := (summand.canonical.split isNum summand.notAdd).1
      rw [← monomial_of_not_num isNum] at isMonomial
      have regular : value * e.coefficient = 0 → e.monomial.dividesByZero = true :=
        fun isZero => absurd isZero nonzero
      obtain ⟨-, notNum, notAdd, split⟩ := isMonomial.scale regular
      refine ⟨scale (value * e.coefficient) e.monomial, ?_, ?_⟩
      · rw [summand.canonical.filter_factors isNum, isMonomial.sort_factors,
          isMonomial.ofFactors]
      · rw [combination_of_not_add notAdd, monomial_of_not_num notNum,
          coefficient_of_not_num notNum, split]

/-- The terms of an operand make up its combination. -/
theorem Operand.sum_combination {e : Expr} (operand : e.Operand) :
    (e.terms.map combination).sum = e.combination := by
  have single : ∀ term ∈ e.terms,
      term.combination = Finsupp.single term.monomial term.coefficient :=
    fun term member => combination_of_not_add (operand.summand member).notAdd
  rw [List.map_congr_left single]
  rfl

/-- A number times an operand multiplies the combination, as long as the nesting depth allows for a
number times a term. -/
theorem Operand.exists_prodToDepth {e : Expr} {depth : Nat} (operand : e.Operand)
    (deep : ∀ terms, e = .add terms → 0 < depth) (value : Rat) :
    ∃ result, prodToDepth (depth + 1) [.num value, e] = some result ∧
      result.combination = value • e.combination := by
  by_cases isSum : ∃ terms, e = .add terms
  · obtain ⟨terms, rfl⟩ := isSum
    obtain ⟨lower, rfl⟩ := Nat.exists_eq_succ_of_ne_zero (Nat.ne_of_gt (deep terms rfl))
    have single : sort ((Expr.add terms).factors.filter fun factor => !factor.isNum) =
        [.add terms] := rfl
    have plain : (Expr.add terms).coefficient = 1 := rfl
    rw [prodToDepth_num operand, single, plain, mul_one]
    split
    · rename_i isZero
      exact ⟨zero, rfl, by rw [isZero, zero_smul, combination_zero]⟩
    · unfold ofFactors
      dsimp only
      split
      · rename_i isOne
        exact ⟨_, rfl, by rw [isOne, one_smul]⟩
      · have multiples : ∀ term ∈ terms, ∃ result,
            prodToDepth (lower + 1) [.num value, term] = some result ∧
              result.combination = value • term.combination := fun term member =>
          (operand.summand member).exists_prodToDepth lower value
        obtain ⟨scaled, multiplied⟩ := exists_mapM_eq_some fun term member =>
          (multiples term member).imp fun _ both => both.1
        refine ⟨sum scaled, Option.bind_eq_some_iff.mpr ⟨scaled, multiplied, rfl⟩, ?_⟩
        have canonical : ∀ term ∈ scaled, term.Canonical := by
          intro result present
          obtain ⟨term, member, multiplies⟩ := exists_of_mem_mapM multiplied present
          have summand := operand.summand (e := .add terms) member
          exact canonical_prodToDepth_num summand.canonical summand.notAdd multiplies
        have combinations : scaled.map combination =
            terms.map fun term => value • term.combination := by
          refine map_eq_of_mapM multiplied _ fun term member result multiplies => ?_
          obtain ⟨result', multiplies', same⟩ := multiples term member
          cases multiplies.symm.trans multiplies'
          exact same
        rw [combination_sum canonical, combinations, ← operand.sum_combination, List.smul_sum,
          List.map_map]
        rfl
  · exact Summand.exists_prodToDepth ⟨operand, fun terms same => isSum ⟨terms, same⟩⟩ depth value

/-- An operand has all rational multiples. -/
theorem Operand.exists_multiple {e : Expr} (operand : e.Operand) (value : Rat) :
    ∃ result, prod [.num value, e] = some result ∧ result.Operand ∧
      result.combination = value • e.combination := by
  have deep : ∀ terms, e = .add terms → 0 < productDepthOfAll [.num value, e] := by
    rintro terms rfl
    exact (productDepth_of_base rfl).trans_le
      (productDepth_le_of_mem (List.mem_cons_of_mem _ List.mem_cons_self))
  obtain ⟨result, multiplied, same⟩ := operand.exists_prodToDepth deep value
  exact ⟨result, multiplied, operand_prod (forall_mem_pair ⟨operand_num value, operand⟩) multiplied,
    same⟩

/-- An operand with the combination of a multiple is this multiple. -/
theorem Operand.prod_num_eq {e multiple : Expr} {value : Rat} (operand : e.Operand)
    (isOperand : multiple.Operand) (same : multiple.combination = value • e.combination) :
    prod [.num value, e] = some multiple := by
  obtain ⟨result, multiplied, operandResult, combination⟩ := operand.exists_multiple value
  rw [multiplied, operandResult.eq_of_combination_eq isOperand (combination.trans same.symm)]

/-- The sum of two operands is an operand and adds their combinations. -/
theorem Operand.sum_pair {a b : Expr} (operandA : a.Operand) (operandB : b.Operand) :
    (sum [a, b]).Operand ∧ (sum [a, b]).combination = a.combination + b.combination := by
  refine ⟨operand_sum (forall_mem_pair ⟨operandA, operandB⟩), ?_⟩
  rw [combination_sum (forall_mem_pair ⟨operandA.canonical, operandB.canonical⟩)]
  simp

/-- A difference of operands is known from its combination. -/
theorem Operand.sub_eq {a b difference : Expr} (operandA : a.Operand) (operandB : b.Operand)
    (isOperand : difference.Operand)
    (same : difference.combination = a.combination - b.combination) :
    sub a b = some difference := by
  obtain ⟨negated, negates, operandNegated, opposite⟩ := operandB.exists_multiple (-1 : ℤ)
  have minus : negated.combination = -b.combination := by
    rw [opposite, Int.cast_neg, Int.cast_one, neg_one_smul]
  obtain ⟨operandSum, total⟩ := operandA.sum_pair operandNegated
  refine Option.bind_eq_some_iff.mpr ⟨negated, negates, congrArg some ?_⟩
  exact operandSum.eq_of_combination_eq isOperand
    (by rw [total, minus, same, sub_eq_add_neg])

/-- The laws of a vector space for two numbers and three trees, up to equality of trees. All
multiples and differences they speak about have values. -/
structure VectorSpaceLaws (p q : ℚ) (a b d : Expr) : Prop where
  add_comm : sum [a, b] = sum [b, a]
  add_assoc : sum [sum [a, b], d] = sum [a, sum [b, d]]
  add_zero : sum [a, zero] = a
  sub_self : sub a a = some zero
  add_sub : sub (sum [a, b]) b = some a
  one_mul : prod [.num 1, a] = some a
  zero_mul : prod [.num 0, a] = some zero
  mul_mul : ∃ multiple result, prod [.num q, a] = some multiple ∧
    prod [.num p, multiple] = some result ∧ prod [.num (p * q), a] = some result
  add_mul : ∃ left right, prod [.num p, a] = some left ∧ prod [.num q, a] = some right ∧
    prod [.num (p + q), a] = some (sum [left, right])
  mul_add : ∃ left right, prod [.num p, a] = some left ∧ prod [.num p, b] = some right ∧
    prod [.num p, sum [a, b]] = some (sum [left, right])

/-- Operands obey the laws of a vector space. -/
theorem Operand.vectorSpaceLaws {a b d : Expr} (operandA : a.Operand) (operandB : b.Operand)
    (operandD : d.Operand) (p q : ℚ) : VectorSpaceLaws p q a b d := by
  obtain ⟨operandAB, sumAB⟩ := operandA.sum_pair operandB
  obtain ⟨operandBA, sumBA⟩ := operandB.sum_pair operandA
  obtain ⟨operandBD, sumBD⟩ := operandB.sum_pair operandD
  obtain ⟨pa, multiplePA, operandPA, timesPA⟩ := operandA.exists_multiple p
  obtain ⟨pb, multiplePB, operandPB, timesPB⟩ := operandB.exists_multiple p
  obtain ⟨qa, multipleQA, operandQA, timesQA⟩ := operandA.exists_multiple q
  exact {
    add_comm := operandAB.eq_of_combination_eq operandBA (by rw [sumAB, sumBA, add_comm])
    add_assoc := by
      obtain ⟨operandLeft, left⟩ := operandAB.sum_pair operandD
      obtain ⟨operandRight, right⟩ := operandA.sum_pair operandBD
      exact operandLeft.eq_of_combination_eq operandRight
        (by rw [left, right, sumAB, sumBD, add_assoc])
    add_zero := by
      obtain ⟨operand, total⟩ := operandA.sum_pair operand_zero
      exact operand.eq_of_combination_eq operandA (by rw [total]; simp)
    sub_self := operandA.sub_eq operandA operand_zero (by simp)
    add_sub := operandAB.sub_eq operandB operandA (by rw [sumAB, add_sub_cancel_right])
    one_mul := operandA.prod_num_eq operandA (one_smul ℚ _).symm
    zero_mul := operandA.prod_num_eq operand_zero (by simp)
    mul_mul := by
      obtain ⟨result, multiplied, operand, times⟩ := operandQA.exists_multiple p
      exact ⟨qa, result, multipleQA, multiplied, operandA.prod_num_eq operand
        (by rw [times, timesQA, mul_smul])⟩
    add_mul := by
      obtain ⟨operand, total⟩ := operandPA.sum_pair operandQA
      exact ⟨pa, qa, multiplePA, multipleQA, operandA.prod_num_eq operand
        (by rw [total, timesPA, timesQA, add_smul])⟩
    mul_add := by
      obtain ⟨operand, total⟩ := operandPA.sum_pair operandPB
      exact ⟨pa, pb, multiplePA, multiplePB, operandAB.prod_num_eq operand
        (by rw [total, timesPA, timesPB, sumAB, smul_add])⟩ }

/-- Operands that are added up from left to right make the sum of the list. -/
theorem foldl_sum {first : Expr} {rest : List Expr} (operand : first.Operand)
    (operands : ∀ e ∈ rest, e.Operand) :
    rest.foldl (fun total e => sum [total, e]) first = sum (first :: rest) := by
  induction rest generalizing first with
  | nil =>
    refine operand.eq_of_combination_eq (operand_sum (List.forall_mem_singleton.mpr operand)) ?_
    rw [combination_sum (List.forall_mem_singleton.mpr operand.canonical), List.map_singleton,
      List.sum_singleton]
  | cons e rest ih =>
    obtain ⟨operandE, later⟩ := List.forall_mem_cons.mp operands
    obtain ⟨operandPair, pair⟩ := operand.sum_pair operandE
    rw [List.foldl_cons, ih operandPair later]
    refine sum_congr (List.forall_mem_cons.mpr ⟨operandPair, later⟩)
      (List.forall_mem_cons.mpr ⟨operand, operands⟩) ?_
    simp only [List.map_cons, List.sum_cons, pair, add_assoc]

/-- Canonical trees that do not divide by zero form a vector space over the rationals, up to
equality of trees, and the sum of a list is what its members add up to from left to right. -/
theorem vectorSpace_laws :
    (∀ (p q : ℚ) (a b d : Expr), a.Operand → b.Operand → d.Operand → VectorSpaceLaws p q a b d) ∧
      (∀ es : List Expr, (∀ e ∈ es, e.Operand) →
        sum es = es.foldl (fun total e => sum [total, e]) zero) ∧
      ∀ (first : Expr) (rest : List Expr), (∀ e ∈ first :: rest, e.Operand) →
        sum (first :: rest) = rest.foldl (fun total e => sum [total, e]) first := by
  refine ⟨fun p q a b d operandA operandB operandD =>
    operandA.vectorSpaceLaws operandB operandD p q, fun es operands => ?_,
    fun first rest operands => ?_⟩
  · rw [foldl_sum operand_zero operands]
    refine sum_congr operands (List.forall_mem_cons.mpr ⟨operand_zero, operands⟩) ?_
    rw [List.map_cons, List.sum_cons, combination_zero, zero_add]
  · obtain ⟨operand, later⟩ := List.forall_mem_cons.mp operands
    exact (foldl_sum operand later).symm

/-- The laws for one more than a symbol, a number and a symbol, where twice the first one is
multiplied out. -/
theorem vectorSpace_laws_succ :
    VectorSpaceLaws 2 (-2) (sum [.sym "x", .num 1]) (.num 3) (sum [.sym "y", .num 1]) ∧
      sum [sum [.sym "x", .num 1], sum [.sym "y", .num 1]] =
        sum [sum [zero, sum [.sym "x", .num 1]], sum [.sym "y", .num 1]] ∧
      sum [sum [.sym "x", .num 1], .num 3] =
        [Expr.num 3].foldl (fun total e => sum [total, e]) (sum [.sym "x", .num 1]) := by
  refine ⟨vectorSpace_laws.1 _ _ _ _ _ (operand_succ "x") (operand_num 3) (operand_succ "y"),
    vectorSpace_laws.2.1 _ (forall_mem_pair ⟨operand_succ "x", operand_succ "y"⟩),
    vectorSpace_laws.2.2 _ _ (forall_mem_pair ⟨operand_succ "x", operand_num 3⟩)⟩

end FiniteVolume.Expr
