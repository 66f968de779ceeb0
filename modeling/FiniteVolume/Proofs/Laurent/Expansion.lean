import FiniteVolume.Proofs.Canonical.Power
import FiniteVolume.Proofs.Expr.Recursion

/-!
# Expanded Laurent polynomials

A Laurent polynomial is built from numbers and symbols by sums, products and powers, where negative
powers are taken of symbols only. It expands into a canonical sum whose terms are numbers times
powers of symbols (`Laurent.expanded`).
-/

namespace FiniteVolume.Expr

/-- What a node of a Laurent polynomial may be. -/
def LaurentNode : Expr → Prop
  | .pow base exponent => exponent.val < 0 → ∃ name, base = .sym name
  | .vector _ | .call _ _ => False
  | _ => True

/-- An expression of numbers, symbols, sums, products and powers whose negative powers are powers of
symbols. -/
def Laurent (e : Expr) : Prop := ∀ subterm ∈ e.subterms, LaurentNode subterm

/-- A tree is a polynomial if it is so at the root and in its children. -/
theorem laurent_iff {e : Expr} : e.Laurent ↔ LaurentNode e ∧ ∀ arg ∈ e.args, arg.Laurent :=
  forall_subterms_iff LaurentNode

/-- The children of a polynomial are polynomials. -/
theorem Laurent.arg {e arg : Expr} (laurent : e.Laurent) (member : arg ∈ e.args) : arg.Laurent :=
  (laurent_iff.mp laurent).2 arg member

/-- A product of numbers and powers of symbols. -/
def PowerProduct (e : Expr) : Prop :=
  ∀ factor ∈ e.factors, factor.isNum = true ∨ ∃ name, factor.base = .sym name

/-- A canonical product of numbers and powers of symbols. -/
structure LaurentTerm (e : Expr) : Prop where
  canonical : e.Canonical
  product : e.PowerProduct

/-- A canonical sum of products of numbers and powers of symbols. -/
structure Expanded (e : Expr) : Prop where
  canonical : e.Canonical
  products : ∀ term ∈ e.terms, term.PowerProduct

/-- Numbers are products of powers. -/
theorem powerProduct_num (value : Rat) : (Expr.num value).PowerProduct :=
  List.forall_mem_singleton.mpr (Or.inl rfl)

/-- Powers of symbols are products of powers. -/
theorem powerProduct_of_base {e : Expr} {name : String} (isSymbol : e.base = .sym name) :
    e.PowerProduct := by
  have notMul : ∀ factors, e ≠ .mul factors := by
    rintro factors rfl
    cases isSymbol
  rw [PowerProduct, factors_of_not_mul notMul]
  exact List.forall_mem_singleton.mpr (Or.inr ⟨name, isSymbol⟩)

namespace PowerProduct

variable {e : Expr}

/-- A product of powers is no sum. -/
theorem not_add (product : e.PowerProduct) (terms : List Expr) : e ≠ .add terms := by
  rintro rfl
  obtain isNum | ⟨name, same⟩ := product (.add terms) (by simp [factors])
  · cases isNum
  · cases same

/-- A product of powers is its own term. -/
theorem terms (product : e.PowerProduct) : e.terms = [e] := by
  cases e with
  | add terms => exact absurd rfl (product.not_add terms)
  | _ => rfl

/-- The bases in a product of powers do not divide by zero. -/
theorem regular_base (product : e.PowerProduct) :
    ∀ factor ∈ e.factors, factor.base.dividesByZero = false := by
  intro factor member
  obtain isNum | ⟨name, same⟩ := product factor member
  · obtain ⟨value, rfl⟩ := eq_num_of_isNum isNum
    rfl
  · rw [same]
    rfl

/-- The bases in a product of powers are no sums. -/
theorem base_ne_add (product : e.PowerProduct) {factor : Expr} (member : factor ∈ e.factors)
    (terms : List Expr) : factor.base ≠ .add terms := by
  obtain isNum | ⟨name, same⟩ := product factor member
  · obtain ⟨value, rfl⟩ := eq_num_of_isNum isNum
    simp [base]
  · simp [same]

end PowerProduct

/-- Numbers are terms. -/
theorem laurentTerm_num (value : Rat) : (Expr.num value).LaurentTerm :=
  ⟨canonical_num value, powerProduct_num value⟩

/-- Symbols are terms. -/
theorem laurentTerm_sym (name : String) : (Expr.sym name).LaurentTerm :=
  ⟨canonical_sym name, powerProduct_of_base rfl⟩

/-- A single term is an expanded sum. -/
theorem LaurentTerm.expanded {e : Expr} (term : e.LaurentTerm) : e.Expanded where
  canonical := term.canonical
  products := by
    rw [term.product.terms]
    exact List.forall_mem_singleton.mpr term.product

/-- The terms of an expanded polynomial are terms. -/
theorem Expanded.term {e term : Expr} (expanded : e.Expanded) (member : term ∈ e.terms) :
    term.LaurentTerm :=
  ⟨(expanded.canonical.not_add_of_mem_terms member).1, expanded.products term member⟩

/-- A coefficient makes no difference to what powers a term is made of. -/
theorem powerProduct_scale_iff {coefficient : Rat} {monomial : Expr} :
    (scale coefficient monomial).PowerProduct ↔ monomial.PowerProduct := by
  by_cases ne_one : coefficient = 1
  · rw [ne_one, scale_one]
  · cases monomial with
    | mul factors =>
      rw [scale_mul ne_one]
      simp [PowerProduct, Expr.factors, isNum, value?]
    | _ =>
      rw [scale_of_not_mul ne_one fun _ => by simp]
      simp [PowerProduct, factors, isNum, value?]

/-- The monomial of a Laurent term is a product of powers of symbols as well. -/
theorem LaurentTerm.splitCoefficient {e : Expr} (term : e.LaurentTerm)
    (notNum : e.isNum = false) : e.splitCoefficient.2.PowerProduct := by
  have product := term.product
  rw [(term.canonical.split notNum product.not_add).2] at product
  exact powerProduct_scale_iff.mp product

/-- The sum of expanded sums is expanded. -/
theorem Expanded.sum {es : List Expr} (expanded : ∀ e ∈ es, e.Expanded) : (sum es).Expanded where
  canonical := canonical_sum fun e member => (expanded e member).canonical
  products := by
    have terms : ∀ term ∈ summandsOfAll es, term.LaurentTerm := by
      intro term member
      rw [summandsOfAll_of_canonical fun e member => (expanded e member).canonical,
        List.mem_flatMap] at member
      obtain ⟨e, inside, member⟩ := member
      exact (expanded e inside).term member
    have collected : ∀ term ∈ (LikeTerms.ofTerms (summandsOfAll es)).toTerms,
        term.PowerProduct := by
      intro term member
      rw [LikeTerms.toTerms_eq_sort, mem_sort] at member
      rcases LikeTerms.mem_unsorted_cases member with ⟨rfl, -⟩ | ⟨entry, inside, -, rfl⟩
      · exact powerProduct_num _
      · obtain ⟨source, inside, notNum, same⟩ := LikeTerms.exists_term_of_mem inside
        rw [powerProduct_scale_iff, ← same]
        exact (terms source inside).splitCoefficient notNum
    rw [Expr.sum]
    generalize (LikeTerms.ofTerms (summandsOfAll es)).toTerms = kept at collected
    rcases kept with _ | ⟨first, _ | ⟨second, rest⟩⟩
    · exact List.forall_mem_singleton.mpr (powerProduct_num 0)
    · have single := collected first List.mem_cons_self
      rw [ofTerms, single.terms]
      exact collected
    · exact collected

/-- Powers of symbols make a product of powers of symbols, whatever their coefficient. -/
theorem powerProduct_ofFactors {product : List Expr → Option Expr} {coefficient : Rat}
    {factors : List Expr} {result : Expr}
    (powers : ∀ factor ∈ factors, ∃ name, factor.base = .sym name)
    (formed : ofFactors product coefficient factors = some result) : result.PowerProduct := by
  have written : (Expr.mul factors).PowerProduct := fun factor member =>
    Or.inr (powers factor member)
  unfold ofFactors at formed
  split at formed
  · cases formed
    exact powerProduct_num _
  · rename_i terms
    obtain ⟨name, isSymbol⟩ := powers (.add terms) List.mem_cons_self
    cases isSymbol
  · cases formed
    obtain ⟨name, isSymbol⟩ := powers _ List.mem_cons_self
    exact powerProduct_scale_iff.mpr (powerProduct_of_base isSymbol)
  · split at formed
    · cases formed
      exact written
    · cases formed
      exact List.forall_mem_cons.mpr ⟨Or.inl rfl, written⟩

/-- The product of Laurent terms is one. -/
theorem laurentTerm_prodToDepth {depth : Nat} {es : List Expr} {result : Expr}
    (operands : ∀ e ∈ es, e.LaurentTerm)
    (formed : prodToDepth (depth + 1) es = some result) : result.LaurentTerm := by
  have canonical : ∀ e ∈ es, e.Canonical := fun e member => (operands e member).canonical
  refine ⟨canonical_prodToDepth canonical
    (fun e member => (operands e member).product.regular_base)
    (fun e member factor inside terms isSum =>
      absurd isSum ((operands e member).product.base_ne_add inside terms)) formed, ?_⟩
  obtain ⟨collected, collects, -⟩ := Option.bind_eq_some_iff.mp formed
  obtain ⟨-, origins⟩ := LikeFactors.of_canonical canonical collects
  have powers : ∀ power ∈ sort collected.powers, ∃ name, power.base = .sym name := by
    intro power member
    obtain ⟨entry, inside, nonzero, rfl⟩ := LikeFactors.mem_powers_cases (mem_sort.mp member)
    obtain ⟨valid, e, inEs, factor, inFactors, notNum, same⟩ := origins entry inside
    rw [(valid.writtenPower nonzero).2.2.2, ← same]
    obtain isNum | isSymbol := (operands e inEs).product factor inFactors
    · rw [notNum] at isNum
      cases isNum
    · exact isSymbol
  rw [prodToDepth_of_entries (fun entry member => (origins entry member).1) collects] at formed
  split at formed
  · cases formed
    exact powerProduct_num 0
  · exact powerProduct_ofFactors powers formed

/-- Laurent terms do not divide by zero. -/
theorem LaurentTerm.regular {e : Expr} (term : e.LaurentTerm) : e.dividesByZero = false := by
  have factor : ∀ factor ∈ e.factors, factor.dividesByZero = false := by
    intro factor member
    obtain isNum | ⟨name, isSymbol⟩ := term.product factor member
    · obtain ⟨value, rfl⟩ := eq_num_of_isNum isNum
      rfl
    · cases factor with
      | sym name => rfl
      | pow base exponent =>
        change base = .sym name at isSymbol
        subst isSymbol
        rfl
      | _ => cases isSymbol
  cases e with
  | mul factors =>
    rw [dividesByZero_mul, List.any_eq_false]
    exact fun part member => Bool.not_eq_true _ ▸ factor part member
  | _ => exact factor _ List.mem_cons_self

/-- The power of a number or of a power of a symbol is one of these. -/
theorem LaurentTerm.raise_of_not_mul {e result : Expr} {exponent : Exponent}
    {product : List Expr → Option Expr} (term : e.LaurentTerm)
    (notMul : ∀ factors, e ≠ .mul factors) (regular : exponent.val < 0 → e.isNum = false)
    (formed : raise product e exponent = some result) : result.LaurentTerm := by
  cases isNum : e.isNum with
  | true =>
    obtain ⟨value, rfl⟩ := eq_num_of_isNum isNum
    have notNegative : ¬exponent.val < 0 := fun negative => by
      rw [regular negative] at isNum
      cases isNum
    unfold raise at formed
    simp only [notNegative, and_false, if_false] at formed
    split at formed
    · cases formed
      exact laurentTerm_num 1
    · split at formed
      · cases formed
        exact laurentTerm_num value
      · cases formed
        exact laurentTerm_num _
  | false =>
    obtain ⟨name, isSymbol⟩ : ∃ name, e.base = .sym name := by
      have parts := term.product
      rw [PowerProduct, factors_of_not_mul notMul] at parts
      refine (parts e List.mem_cons_self).resolve_left ?_
      rw [isNum]
      exact Bool.false_ne_true
    obtain ⟨canonical, -, becomesNum | base⟩ :=
      term.canonical.raise_of_not_mul notMul formed
    · obtain ⟨value, rfl⟩ := eq_num_of_isNum becomesNum
      exact laurentTerm_num value
    · exact ⟨canonical, powerProduct_of_base (base.trans isSymbol)⟩

/-- A power of a Laurent term is one, if its exponent is not negative or the term is a symbol. -/
theorem LaurentTerm.power {e result : Expr} {exponent : Exponent} (term : e.LaurentTerm)
    (symbol : exponent.val < 0 → ∃ name, e = .sym name)
    (formed : power e exponent = some result) : result.LaurentTerm := by
  cases e with
  | mul factors =>
    have notNegative : ¬exponent.val < 0 := fun negative => by simpa using symbol negative
    unfold Expr.power raise at formed
    split at formed
    · cases formed
      exact laurentTerm_num 1
    · split at formed
      · cases formed
        exact term
      · obtain ⟨powers, raised, multiplied⟩ := Option.bind_eq_some_iff.mp formed
        rw [raiseAll_eq_mapM] at raised
        refine laurentTerm_prodToDepth (fun power member => ?_) multiplied
        obtain ⟨factor, inside, raises⟩ := exists_of_mem_mapM raised member
        have notMul := (term.canonical.not_mul_of_mem_factors inside).2
        have factorTerm : factor.LaurentTerm := by
          refine ⟨term.canonical.arg inside, ?_⟩
          rw [PowerProduct, factors_of_not_mul notMul]
          exact List.forall_mem_singleton.mpr (term.product factor inside)
        exact factorTerm.raise_of_not_mul notMul (fun negative => absurd negative notNegative)
          raises
  | _ =>
    refine term.raise_of_not_mul (fun _ => by simp) (fun negative => ?_) formed
    obtain ⟨name, same⟩ := symbol negative
    rw [same]
    rfl

/-- A power of an expanded sum that is not multiplied out is expanded as well. -/
theorem Expanded.power {e result : Expr} {exponent : Exponent} (expanded : e.Expanded)
    (small : ∀ terms, e = .add terms → ¬1 < exponent.val)
    (symbol : exponent.val < 0 → ∃ name, e = .sym name)
    (formed : power e exponent = some result) : result.Expanded := by
  cases e with
  | add terms =>
    have notGreater := small terms rfl
    have notNegative : ¬exponent.val < 0 := fun negative => by simpa using symbol negative
    unfold Expr.power raise at formed
    split at formed
    · cases formed
      exact (laurentTerm_num 1).expanded
    · split at formed
      · cases formed
        exact expanded
      · omega
  | _ => exact ((expanded.term List.mem_cons_self).power symbol formed).expanded

/-- Products of two terms are expanded, so distributing products over expanded sums is. -/
theorem distributive_expanded : Distributive Expanded where
  num value := (laurentTerm_num value).expanded
  sum _ expanded := .sum expanded
  product _ _ expandedLeft expandedRight _ inLeft _ inRight _ formed :=
    (laurentTerm_prodToDepth
      (forall_mem_pair ⟨expandedLeft.term inLeft, expandedRight.term inRight⟩) formed).expanded

/-- A Laurent polynomial expands into a sum of Laurent terms. -/
theorem Laurent.expanded {e result : Expr} (laurent : e.Laurent)
    (expands : expand e = some result) : result.Expanded := by
  refine expand_induction (motive := fun e result => e.Laurent → result.Expanded)
    (fun value _ => (laurentTerm_num value).expanded)
    (fun name _ => (laurentTerm_sym name).expanded) ?add ?mul ?powSum ?pow ?vector ?dot ?call
    expands laurent
  case add =>
    intro terms results each laurent
    exact .sum (forall_mem_results (fun _ => laurent.arg) each)
  case mul =>
    intro factors results result each distributed laurent
    exact distributive_expanded.distributeFrom distributed (laurentTerm_num 1).expanded
      (forall_mem_results (fun _ => laurent.arg) each)
  case powSum =>
    intro base terms exponent result expanded _ multiplied laurent
    exact distributive_expanded.distributeRepeatedly multiplied (laurentTerm_num 1).expanded
      (expanded (laurent.arg (List.mem_singleton_self base)))
  case pow =>
    intro base exponent inner result expands expanded small powered laurent
    refine (expanded (laurent.arg (List.mem_singleton_self base))).power small (fun negative => ?_)
      powered
    obtain ⟨name, rfl⟩ := (laurent_iff.mp laurent).1 negative
    cases expands
    exact ⟨name, rfl⟩
  case vector => exact fun _ _ _ laurent => (laurent_iff.mp laurent).1.elim
  case dot => exact fun _ _ _ _ _ _ _ laurent => (laurent_iff.mp laurent).1.elim
  case call => exact fun _ _ _ _ _ _ laurent => (laurent_iff.mp laurent).1.elim

end FiniteVolume.Expr
