import FiniteVolume.Proofs.Canonical.Written
import FiniteVolume.Proofs.Expr.Substitution
import FiniteVolume.Proofs.Laurent.Expansion
import FiniteVolume.Proofs.Value.Congruence

/-!
# Polynomials in symbols and samples

A polynomial is built from numbers, symbols and samples by sums, products, powers and inner products
of vector literals; it divides by nonzero numbers and by a few symbols named beforehand only.
Substitutions that leave these symbols alone lead from polynomials to polynomials
(`Polynomial.replaceWith`). Without samples, a polynomial expands into a canonical sum of products
of powers of symbols, however deep its inner products are nested (`Polynomial.expanded`).
-/

namespace FiniteVolume.Expr

/-- What a polynomial may be divided by: an invertible symbol, or a number other than zero. -/
def Divisor (invertible : String → Prop) (base : Expr) : Prop :=
  (∃ name, base = .sym name ∧ invertible name) ∨ ∃ value, base = .num value ∧ value ≠ 0

/-- A polynomial in symbols and given samples. -/
inductive Polynomial (invertible : String → Prop) (samples : Head → List Expr → Prop) :
    Expr → Prop where
  | num (value : Rat) : Polynomial invertible samples (.num value)
  | sym (name : String) : Polynomial invertible samples (.sym name)
  | add {terms : List Expr} (polynomials : ∀ term ∈ terms, Polynomial invertible samples term) :
    Polynomial invertible samples (.add terms)
  | mul {factors : List Expr}
    (polynomials : ∀ factor ∈ factors, Polynomial invertible samples factor) :
    Polynomial invertible samples (.mul factors)
  | pow {base : Expr} {exponent : Exponent} (polynomial : Polynomial invertible samples base)
    (divisor : exponent.val < 0 → Divisor invertible base) :
    Polynomial invertible samples (.pow base exponent)
  | dot {left right : List Expr} (sameLength : left.length = right.length)
    (polynomialsLeft : ∀ component ∈ left, Polynomial invertible samples component)
    (polynomialsRight : ∀ component ∈ right, Polynomial invertible samples component) :
    Polynomial invertible samples (.call .dot [.vector left, .vector right])
  | sample {head : Head} {args : List Expr} (isSample : samples head args) :
    Polynomial invertible samples (.call head args)

/-- No call is a sample. -/
def NoSample (_ : Head) (_ : List Expr) : Prop := False

variable {invertible : String → Prop} {samples samples' : Head → List Expr → Prop}

/-- Being a polynomial passes between sums, products and powers and their operands. -/
theorem hereditary_polynomial :
    Hereditary (Polynomial invertible samples) (Divisor invertible) where
  num value := .num value
  add_iff terms := by
    refine ⟨fun polynomial => ?_, .add⟩
    cases polynomial with
    | add polynomials => exact polynomials
  mul_iff factors := by
    refine ⟨fun polynomial => ?_, .mul⟩
    cases polynomial with
    | mul polynomials => exact polynomials
  pow_iff base exponent := by
    refine ⟨fun polynomial => ?_, fun ⟨polynomial, divisor⟩ => .pow polynomial divisor⟩
    cases polynomial with
    | pow polynomial divisor => exact ⟨polynomial, divisor⟩
  base_of_mul factors divisor := by
    obtain ⟨_, same, -⟩ | ⟨_, same, -⟩ := divisor <;> cases same
  base_of_pow base exponent divisor := by
    obtain ⟨_, same, -⟩ | ⟨_, same, -⟩ := divisor <;> cases same

/-- A polynomial in samples is one in more samples. -/
theorem Polynomial.imp {e : Expr} (polynomial : Polynomial invertible samples e)
    (implies : ∀ head args, samples head args → samples' head args) :
    Polynomial invertible samples' e := by
  induction polynomial with
  | num value => exact .num value
  | sym name => exact .sym name
  | add _ ih => exact .add ih
  | mul _ ih => exact .mul ih
  | pow _ divisor ih => exact .pow ih divisor
  | dot sameLength _ _ ihLeft ihRight => exact .dot sameLength ihLeft ihRight
  | sample isSample => exact .sample (implies _ _ isSample)

/-- A polynomial in which no sample occurs is one without samples. -/
theorem Polynomial.unsampled {e : Expr} (polynomial : Polynomial invertible samples e)
    (absent : ∀ head args, samples head args → .call head args ∉ e.subterms) :
    Polynomial invertible NoSample e := by
  have inside : ∀ (e : Expr) {arg : Expr}, arg ∈ e.args →
      (∀ head args, samples head args → .call head args ∉ e.subterms) →
      ∀ head args, samples head args → .call head args ∉ arg.subterms :=
    fun e _ member absent head args isSample inArg =>
      absent head args isSample (mem_subterms_of_arg member inArg)
  induction polynomial with
  | num value => exact .num value
  | sym name => exact .sym name
  | @add terms polynomials ih =>
    exact .add fun term member => ih term member (inside (.add terms) member absent)
  | @mul factors polynomials ih =>
    exact .mul fun factor member => ih factor member (inside (.mul factors) member absent)
  | @pow base exponent polynomial divisor ih =>
    exact .pow (ih (inside (.pow base exponent) (List.mem_singleton_self base) absent)) divisor
  | @dot left right sameLength polynomialsLeft polynomialsRight ihLeft ihRight =>
    have operand : ∀ vector ∈ [Expr.vector left, .vector right], ∀ head args,
        samples head args → .call head args ∉ vector.subterms :=
      fun vector member => inside (.call .dot [.vector left, .vector right]) member absent
    have absentLeft := operand (.vector left) (by simp)
    have absentRight := operand (.vector right) (by simp)
    exact .dot sameLength
      (fun component member => ihLeft component member (inside (.vector left) member absentLeft))
      (fun component member => ihRight component member (inside (.vector right) member absentRight))
  | sample isSample => exact absurd (self_mem_subterms _) (absent _ _ isSample)

/-- A substitution leads from a polynomial to a polynomial if it puts polynomials in the place of
anything but vectors, numbers and invertible symbols. -/
theorem Polynomial.replaceWith {replacement? : Expr → Option Expr} {e result : Expr}
    (polynomial : Polynomial invertible samples e)
    (formed : replaceWith replacement? e = some result)
    (replaced : ∀ subterm replacement, replacement? subterm = some replacement →
      Polynomial invertible samples' replacement)
    (vectors : ∀ components, replacement? (.vector components) = none)
    (numbers : ∀ value, replacement? (.num value) = none)
    (kept : ∀ name, invertible name → replacement? (.sym name) = none)
    (sampled : ∀ head args rebuilt, samples head args → replacement? (.call head args) = none →
      args.mapM (Expr.replaceWith replacement?) = some rebuilt → samples' head rebuilt) :
    Polynomial invertible samples' result := by
  induction polynomial generalizing result with
  | num value =>
    obtain found | ⟨-, rebuilds⟩ := replaceWith_cases formed
    · exact replaced _ _ found
    · cases rebuilds
      exact .num value
  | sym name =>
    obtain found | ⟨-, rebuilds⟩ := replaceWith_cases formed
    · exact replaced _ _ found
    · cases rebuilds
      exact .sym name
  | add polynomials ih =>
    obtain found | ⟨-, rebuilds⟩ := replaceWith_cases formed
    · exact replaced _ _ found
    · cases rebuilds with
      | add rebuilt =>
        exact hereditary_polynomial.sum (forall_mem_of_mapM rebuilt fun e member _ => ih e member)
  | mul polynomials ih =>
    obtain found | ⟨-, rebuilds⟩ := replaceWith_cases formed
    · exact replaced _ _ found
    · cases rebuilds with
      | mul rebuilt multiplied =>
        exact hereditary_polynomial.prod multiplied
          (forall_mem_of_mapM rebuilt fun e member _ => ih e member)
  | @pow base exponent polynomial divisor ih =>
    obtain found | ⟨-, rebuilds⟩ := replaceWith_cases formed
    · exact replaced _ _ found
    · cases rebuilds with
      | @pow _ inner _ _ rebuilt powered =>
        refine hereditary_polynomial.power powered (ih rebuilt) fun negative => ?_
        -- what a polynomial is divided by has no replacement
        have same : inner = base := by
          obtain ⟨name, rfl, isInvertible⟩ | ⟨value, rfl, -⟩ := divisor negative
          · cases rebuilds_of_none (kept name isInvertible) rebuilt
            rfl
          · cases rebuilds_of_none (numbers value) rebuilt
            rfl
        exact same ▸ divisor negative
  | dot sameLength polynomialsLeft polynomialsRight ihLeft ihRight =>
    obtain found | ⟨-, rebuilds⟩ := replaceWith_cases formed
    · exact replaced _ _ found
    · cases rebuilds with
      | call rebuilt =>
        obtain ⟨left', right', rfl, lefts, rights, sameLength'⟩ :=
          rebuilds_dot vectors sameLength rebuilt
        exact .dot sameLength' (forall_mem_of_mapM lefts fun e member _ => ihLeft e member)
          (forall_mem_of_mapM rights fun e member _ => ihRight e member)
  | sample isSample =>
    obtain found | ⟨notReplaced, rebuilds⟩ := replaceWith_cases formed
    · exact replaced _ _ found
    · cases rebuilds with
      | call rebuilt => exact .sample (sampled _ _ _ isSample notReplaced rebuilt)

/-- A power of a number other than zero is a number. -/
theorem exists_num_of_power {value : Rat} {exponent : Exponent} {result : Expr}
    (nonzero : value ≠ 0) (formed : power (.num value) exponent = some result) :
    ∃ other, result = .num other := by
  unfold power raise at formed
  simp only [nonzero, false_and, if_false] at formed
  split at formed
  · cases formed
    exact ⟨1, rfl⟩
  · split at formed
    · cases formed
      exact ⟨value, rfl⟩
    · cases formed
      exact ⟨_, rfl⟩

/-- A polynomial without samples expands into a canonical sum of products of powers of symbols. -/
theorem Polynomial.expanded {e result : Expr} (polynomial : Polynomial invertible NoSample e)
    (expands : expand e = some result) : result.Expanded := by
  have hereditary : Hereditary (Polynomial invertible NoSample) (Divisor invertible) :=
    hereditary_polynomial
  refine expand_induction
    (motive := fun e result => Polynomial invertible NoSample e → result.Expanded)
    (fun value _ => (laurentTerm_num value).expanded)
    (fun name _ => (laurentTerm_sym name).expanded) ?add ?mul ?powSum ?pow ?vector ?dot ?call
    expands polynomial
  case add =>
    intro terms results each polynomial
    exact .sum (forall_mem_results ((hereditary.add_iff terms).mp polynomial) each)
  case mul =>
    intro factors results result each distributed polynomial
    exact distributive_expanded.distributeFrom distributed (laurentTerm_num 1).expanded
      (forall_mem_results ((hereditary.mul_iff factors).mp polynomial) each)
  case powSum =>
    intro base terms exponent result expanded _ multiplied polynomial
    exact distributive_expanded.distributeRepeatedly multiplied (laurentTerm_num 1).expanded
      (expanded ((hereditary.pow_iff base exponent).mp polynomial).1)
  case pow =>
    intro base exponent inner result expands expanded small powered polynomial
    obtain ⟨polynomialBase, divisor⟩ := (hereditary.pow_iff base exponent).mp polynomial
    by_cases negative : exponent.val < 0
    · obtain ⟨name, rfl, -⟩ | ⟨value, rfl, nonzero⟩ := divisor negative
      · cases expands
        exact (laurentTerm_sym name).expanded.power small (fun _ => ⟨name, rfl⟩) powered
      · cases expands
        obtain ⟨other, rfl⟩ := exists_num_of_power nonzero powered
        exact (laurentTerm_num other).expanded
    · exact (expanded polynomialBase).power small (fun isNegative => absurd isNegative negative)
        powered
  case vector => exact fun _ _ _ polynomial => nomatch polynomial
  case dot =>
    intro left right product result _ written expanded polynomial
    cases polynomial with
    | dot _ polynomialsLeft polynomialsRight =>
      exact expanded (hereditary.innerProduct written polynomialsLeft polynomialsRight)
    | sample isSample => exact isSample.elim
  case call =>
    intro head args results notDot _ _ polynomial
    cases polynomial with
    | dot sameLength => simp [dotOperands?, sameLength] at notDot
    | sample isSample => exact isSample.elim

end FiniteVolume.Expr
