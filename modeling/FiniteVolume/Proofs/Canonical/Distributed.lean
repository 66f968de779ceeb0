import FiniteVolume.Proofs.Canonical.Singular
import FiniteVolume.Proofs.Expr.Recursion

/-!
# Distributed sums

A tree is distributed if no sum is a factor of a product, no power of a sum is left to multiply out
and no inner product of two vectors is left to evaluate. Sums of distributed trees and products of
their terms are distributed, and expansion leaves them as they are (`Distributed.expand_eq_self`).
-/

namespace FiniteVolume.Expr

/-- What a node may be where products and inner products are multiplied out: no sum is a factor of
a product, and a sum is raised to negative exponents only. -/
def MultipliedNode : Expr → Prop
  | .mul factors => ∀ terms, .add terms ∉ factors
  | .pow base exponent => ∀ terms, base = .add terms → exponent.val ≤ 1
  | .call head args => dotOperands? (.call head args) = none
  | _ => True

/-- All products and inner products in a tree are multiplied out. -/
def Multiplied (e : Expr) : Prop := ∀ subterm ∈ e.subterms, MultipliedNode subterm

/-- A tree is multiplied out if it is so at the root and in its children. -/
theorem multiplied_iff {e : Expr} :
    e.Multiplied ↔ MultipliedNode e ∧ ∀ arg ∈ e.args, arg.Multiplied :=
  forall_subterms_iff MultipliedNode

/-- The children of a tree that is multiplied out are so. -/
theorem Multiplied.arg {e arg : Expr} (multiplied : e.Multiplied) (member : arg ∈ e.args) :
    arg.Multiplied :=
  (multiplied_iff.mp multiplied).2 arg member

/-- Numbers are multiplied out. -/
theorem multiplied_num (value : Rat) : (Expr.num value).Multiplied :=
  multiplied_iff.mpr ⟨trivial, fun _ member => nomatch member⟩

/-- A product without sums is multiplied out if its factors are. -/
theorem multiplied_mul {factors : List Expr}
    (parts : ∀ factor ∈ factors, factor.Multiplied ∧ ∀ terms, factor ≠ .add terms) :
    (Expr.mul factors).Multiplied :=
  multiplied_iff.mpr ⟨fun terms member => (parts _ member).2 terms rfl,
    fun factor member => (parts factor member).1⟩

/-- A power is multiplied out if its base is, unless it is a higher power of a sum. -/
theorem multiplied_pow {base : Expr} {exponent : Exponent} (multiplied : base.Multiplied)
    (small : ∀ terms, base = .add terms → exponent.val ≤ 1) :
    (Expr.pow base exponent).Multiplied :=
  multiplied_iff.mpr ⟨small, List.forall_mem_singleton.mpr multiplied⟩

/-- The factors of a tree that is multiplied out are so. -/
theorem Multiplied.of_mem_factors {e factor : Expr} (multiplied : e.Multiplied)
    (member : factor ∈ e.factors) : factor.Multiplied := by
  cases e with
  | mul factors => exact multiplied.arg member
  | _ => exact List.mem_singleton.mp member ▸ multiplied

/-- The base of a tree that is multiplied out is so. -/
theorem Multiplied.base {e : Expr} (multiplied : e.Multiplied) : e.base.Multiplied := by
  cases e with
  | pow base exponent => exact multiplied.arg (List.mem_singleton_self base)
  | _ => exact multiplied

/-- No factor of a multiplied term is a sum. -/
theorem Multiplied.factor_ne_add {e factor : Expr} (multiplied : e.Multiplied)
    (notAdd : ∀ terms, e ≠ .add terms) (member : factor ∈ e.factors) (terms : List Expr) :
    factor ≠ .add terms := by
  cases e with
  | mul factors =>
    rintro rfl
    exact (multiplied_iff.mp multiplied).1 terms member
  | _ => exact List.mem_singleton.mp member ▸ notAdd terms

/-- Multiples of a monomial that is multiplied out are so. -/
theorem multiplied_scale {coefficient : Rat} {monomial : Expr} (multiplied : monomial.Multiplied)
    (notAdd : ∀ terms, monomial ≠ .add terms) :
    (scale coefficient monomial).Multiplied := by
  by_cases isOne : coefficient = 1
  · rw [isOne, scale_one]
    exact multiplied
  · have number : (Expr.num coefficient).Multiplied ∧ ∀ terms, Expr.num coefficient ≠ .add terms :=
      ⟨multiplied_num coefficient, fun _ => by simp⟩
    by_cases isProduct : ∃ factors, monomial = .mul factors
    · obtain ⟨factors, rfl⟩ := isProduct
      rw [scale_mul isOne]
      refine multiplied_mul (List.forall_mem_cons.mpr ⟨number, fun factor member => ?_⟩)
      exact ⟨multiplied.arg member, multiplied.factor_ne_add notAdd member⟩
    · rw [scale_of_not_mul isOne fun factors same => isProduct ⟨factors, same⟩]
      exact multiplied_mul (List.forall_mem_cons.mpr
        ⟨number, List.forall_mem_singleton.mpr ⟨multiplied, notAdd⟩⟩)

/-- Multiples of a tree that is no sum are no sums. -/
theorem scale_ne_add {coefficient : Rat} {monomial : Expr}
    (notAdd : ∀ terms, monomial ≠ .add terms) (terms : List Expr) :
    scale coefficient monomial ≠ .add terms := by
  unfold scale
  split
  · exact notAdd terms
  · split <;> simp

/-- What is left without the coefficient is multiplied out. -/
theorem multiplied_splitCoefficient {e : Expr} (multiplied : e.Multiplied) :
    e.splitCoefficient.2.Multiplied := by
  rcases splitCoefficient_cases e with ⟨c, factor, rfl, split⟩ | ⟨c, factors, rfl, -, split⟩ | split
  all_goals rw [split]
  · exact multiplied.arg (by simp [args])
  · exact multiplied_mul fun factor member =>
      have inside : factor ∈ Expr.num c :: factors := List.mem_cons_of_mem _ member
      ⟨multiplied.arg inside, multiplied.factor_ne_add (fun _ => by simp) inside⟩
  · exact multiplied

/-- A canonical tree that does not divide by zero and in which everything is multiplied out. -/
structure Distributed (e : Expr) : Prop extends Operand e where
  multiplied : e.Multiplied

/-- A distributed tree that is no sum. -/
structure DistributedTerm (e : Expr) : Prop extends Distributed e where
  notAdd : ∀ terms, e ≠ .add terms

/-- Numbers are distributed terms. -/
theorem distributedTerm_num (value : Rat) : (Expr.num value).DistributedTerm where
  toOperand := operand_num value
  multiplied := multiplied_num value
  notAdd _ := by simp

/-- The children of a distributed tree are distributed. -/
theorem Distributed.arg {e arg : Expr} (distributed : e.Distributed) (member : arg ∈ e.args) :
    arg.Distributed :=
  ⟨distributed.toOperand.arg member, distributed.multiplied.arg member⟩

/-- A node over distributed children. -/
theorem distributed_of_args {e : Expr} (canonical : CanonicalNode e)
    (regular : e.isInverseOfZero = false) (multiplied : MultipliedNode e)
    (args : ∀ arg ∈ e.args, arg.Distributed) : e.Distributed where
  canonical := canonical_iff.mpr ⟨canonical, fun arg member => (args arg member).canonical⟩
  regular := by
    rw [← Bool.not_eq_true, dividesByZero_iff]
    rintro (inverse | ⟨arg, member, divides⟩)
    · rw [regular] at inverse
      cases inverse
    · rw [(args arg member).regular] at divides
      cases divides
  multiplied := multiplied_iff.mpr ⟨multiplied, fun arg member => (args arg member).multiplied⟩

/-- The terms of a distributed sum are distributed. -/
theorem Distributed.term {e term : Expr} (distributed : e.Distributed) (member : term ∈ e.terms) :
    term.DistributedTerm := by
  obtain ⟨operand, notAdd⟩ := distributed.toOperand.summand member
  refine ⟨⟨operand, ?_⟩, notAdd⟩
  cases e with
  | add terms => exact distributed.multiplied.arg member
  | _ => exact List.mem_singleton.mp member ▸ distributed.multiplied

/-- A term other than a number splits into a coefficient and a distributed monomial. -/
theorem DistributedTerm.splits {e : Expr} (term : e.DistributedTerm) (notNum : e.isNum = false) :
    e.splitCoefficient.2.Monomial ∧ e.splitCoefficient.2.Distributed := by
  have isMonomial := (term.canonical.split notNum term.notAdd).1
  exact ⟨isMonomial, ⟨isMonomial.canonical,
    (dividesByZero_splitCoefficient e).trans term.regular⟩,
    multiplied_splitCoefficient term.multiplied⟩

/-- A multiple of a distributed monomial is a distributed term. -/
theorem Monomial.distributed_scale {e : Expr} {value : Rat} (isMonomial : e.Monomial)
    (distributed : e.Distributed) (nonzero : value ≠ 0) :
    (Expr.scale value e).DistributedTerm ∧ (Expr.scale value e).coefficient = value := by
  obtain ⟨canonical, notNum, notAdd, split⟩ :=
    isMonomial.scale fun isZero => absurd isZero nonzero
  refine ⟨⟨⟨⟨canonical, ?_⟩, multiplied_scale distributed.multiplied isMonomial.notAdd⟩, notAdd⟩,
    ?_⟩
  · rw [dividesByZero_scale]
    exact distributed.regular
  · rw [coefficient_of_not_num notNum, split]

section Sums

/-- Sums of trees that are multiplied out are so. -/
theorem multiplied_ofTerms {terms : List Expr} (multiplied : ∀ term ∈ terms, term.Multiplied) :
    (ofTerms terms).Multiplied := by
  match terms with
  | [] => exact multiplied_num 0
  | [term] => exact multiplied term List.mem_cons_self
  | first :: second :: rest => exact multiplied_iff.mpr ⟨trivial, multiplied⟩

/-- Sums of distributed trees are distributed. -/
theorem Distributed.sum {es : List Expr} (distributed : ∀ e ∈ es, e.Distributed) :
    (sum es).Distributed where
  toOperand := operand_sum fun e member => (distributed e member).toOperand
  multiplied := by
    have terms : ∀ term ∈ summandsOfAll es, term.DistributedTerm := by
      intro term member
      rw [summandsOfAll_of_canonical fun e member => (distributed e member).canonical,
        List.mem_flatMap] at member
      obtain ⟨e, inside, member⟩ := member
      exact (distributed e inside).term member
    refine multiplied_ofTerms fun term member => ?_
    rw [LikeTerms.toTerms_eq_sort, mem_sort] at member
    rcases LikeTerms.mem_unsorted_cases member with ⟨rfl, -⟩ | ⟨entry, inside, -, rfl⟩
    · exact multiplied_num _
    · obtain ⟨source, inside, notNum, same⟩ := LikeTerms.exists_term_of_mem inside
      obtain ⟨isMonomial, distributed⟩ := (terms source inside).splits notNum
      rw [← same]
      exact multiplied_scale distributed.multiplied isMonomial.notAdd

end Sums

section Products

/-- A product put together from multiplied factors other than sums is multiplied, and no sum. -/
theorem multiplied_ofFactors {product : List Expr → Option Expr} {coefficient : Rat}
    {factors : List Expr} {result : Expr}
    (parts : ∀ factor ∈ factors, factor.Multiplied ∧ ∀ terms, factor ≠ .add terms)
    (formed : ofFactors product coefficient factors = some result) :
    result.Multiplied ∧ ∀ terms, result ≠ .add terms := by
  unfold ofFactors at formed
  split at formed
  · cases formed
    exact ⟨multiplied_num _, fun _ => by simp⟩
  · rename_i terms
    exact absurd rfl ((parts _ List.mem_cons_self).2 terms)
  · cases formed
    obtain ⟨multiplied, notAdd⟩ := parts _ List.mem_cons_self
    exact ⟨multiplied_scale multiplied notAdd, scale_ne_add notAdd⟩
  · split at formed
    · cases formed
      exact ⟨multiplied_mul parts, fun _ => by simp⟩
    · cases formed
      exact ⟨multiplied_mul (List.forall_mem_cons.mpr
        ⟨⟨multiplied_num _, fun _ => by simp⟩, parts⟩), fun _ => by simp⟩

/-- A power of a multiplied base is multiplied as it is written, if sums are divided by only. -/
theorem multiplied_writtenPower {base : Expr} {exponent : Exponent} (multiplied : base.Multiplied)
    (divides : ∀ terms, base = .add terms → exponent.val < 0) :
    (writtenPower base exponent).Multiplied ∧
      ∀ terms, writtenPower base exponent ≠ .add terms := by
  unfold writtenPower
  split
  · exact ⟨multiplied_num 1, fun _ => by simp [one]⟩
  · split
    · rename_i isOne
      refine ⟨multiplied, fun terms same => ?_⟩
      have negative := divides terms same
      omega
    · refine ⟨multiplied_pow multiplied fun terms same => ?_, fun _ => by simp⟩
      have negative := divides terms same
      omega

/-- A term divides by sums, and does not multiply by them. -/
theorem DistributedTerm.multiplicities_add_le {e : Expr} (term : e.DistributedTerm)
    (terms : List Expr) : e.multiplicities (.add terms) ≤ 0 := by
  by_cases present : ∃ factor ∈ e.factors.filter fun factor => !factor.isNum,
      factor.base = .add terms
  · obtain ⟨factor, member, isBase⟩ := present
    have value : e.multiplicities factor.base = factor.factorExponent.val :=
      weights_of_mem term.canonical.factors_bases member
    rw [← isBase, value]
    have power := term.canonical.powers factor member
    have inside := (List.mem_filter.mp member).1
    have notSum := term.multiplied.factor_ne_add term.notAdd inside
    have multiplied := term.multiplied.of_mem_factors inside
    cases factor with
    | pow base exponent =>
      have small : exponent.val ≤ 1 := (multiplied_iff.mp multiplied).1 terms isBase
      have isPower := (canonical_pow_iff.mp power.canonical).1
      have nonzero := isPower.ne_zero
      have ne_one := isPower.ne_one
      change exponent.val ≤ 0
      omega
    | add others => exact absurd rfl (notSum others)
    | _ => cases isBase
  · exact (weights_of_absent fun factor member isBase => present ⟨factor, member, isBase⟩).le

/-- Exponents that are not positive add up to none that is. -/
theorem sum_apply_le {powers : List (Expr →₀ ℤ)} {base : Expr}
    (small : ∀ power ∈ powers, power base ≤ 0) : powers.sum base ≤ 0 := by
  induction powers with
  | nil => exact le_rfl
  | cons power rest ih =>
    obtain ⟨first, later⟩ := List.forall_mem_cons.mp small
    rw [List.sum_cons, Finsupp.add_apply]
    exact add_nonpos first (ih later)

/-- Terms that are multiplied divide by sums only, so their product is no sum and has none as a
factor. -/
theorem multiplied_prodToDepth {depth : Nat} {es : List Expr} {result : Expr}
    (terms : ∀ e ∈ es, e.DistributedTerm) (formed : prodToDepth (depth + 1) es = some result) :
    result.Multiplied ∧ ∀ terms, result ≠ .add terms := by
  have canonical : ∀ e ∈ es, e.Canonical := fun e member => (terms e member).canonical
  obtain ⟨collected, collects, -⟩ := Option.bind_eq_some_iff.mp formed
  obtain ⟨ascending, origins⟩ := LikeFactors.of_canonical canonical collects
  have entries : ∀ entry ∈ collected.exponents, CanonicalEntry entry := fun entry member =>
    (origins entry member).1
  have exponents := (LikeFactors.totals_of_canonical canonical collects).2
  have powers : ∀ power ∈ collected.powers, power.Multiplied ∧ ∀ terms, power ≠ .add terms := by
    intro power member
    obtain ⟨entry, inside, nonzero, rfl⟩ := LikeFactors.mem_powers_cases member
    obtain ⟨valid, e, inEs, factor, inFactors, -, origin⟩ := origins entry inside
    obtain ⟨-, -, -, isBase⟩ := valid.writtenPower nonzero
    have multiplied : entry.1.Multiplied :=
      origin ▸ ((terms e inEs).multiplied.of_mem_factors inFactors).base
    refine multiplied_writtenPower multiplied fun sum same => ?_
    -- the exponents of a sum in the operands are not positive, and so is their total
    have total : exponentsOf collected.powers (writtenPower entry.1 entry.2).base =
        (writtenPower entry.1 entry.2).factorExponent.val :=
      weights_of_mem (LikeFactors.powers_bases ascending entries) member
    rw [valid.factorExponent_writtenPower nonzero, isBase, same, exponents] at total
    have small : (es.map multiplicities).sum (.add sum) ≤ 0 := by
      refine sum_apply_le fun power present => ?_
      obtain ⟨e, member, rfl⟩ := List.mem_map.mp present
      exact (terms e member).multiplicities_add_le sum
    omega
  rw [prodToDepth_of_entries entries collects] at formed
  split at formed
  · cases formed
    exact ⟨multiplied_num 0, fun _ => by simp [zero]⟩
  · exact multiplied_ofFactors (fun power member => powers power (mem_sort.mp member)) formed

/-- Products of distributed terms are distributed terms. -/
theorem DistributedTerm.prod {es : List Expr} {result : Expr}
    (terms : ∀ e ∈ es, e.DistributedTerm) (formed : prod es = some result) :
    result.DistributedTerm := by
  obtain ⟨multiplied, notAdd⟩ := multiplied_prodToDepth terms formed
  exact ⟨⟨operand_prod (fun e member => (terms e member).toOperand) formed, multiplied⟩, notAdd⟩

/-- Products of distributed terms are distributed. -/
theorem distributive_distributed : Distributive Distributed where
  num value := (distributedTerm_num value).toDistributed
  sum _ distributed := .sum distributed
  product _ _ distributedLeft distributedRight _ inLeft _ inRight _ formed :=
    (DistributedTerm.prod (forall_mem_pair ⟨distributedLeft.term inLeft,
      distributedRight.term inRight⟩) formed).toDistributed

end Products

section Powers

variable {e result : Expr} {exponent : Exponent}

/-- What a negative power of a distributed tree has to avoid: a base zero, and negative powers of
sums among the factors, which would become factors that are sums. -/
structure PlainDivisor (e : Expr) : Prop where
  nonzero : e ≠ zero
  factors : ∀ terms inner, .pow (.add terms) inner ∉ e.factors

/-- Powers of a factor other than a sum are multiplied, unless sums are inverted twice. -/
theorem DistributedTerm.raise_of_not_mul {depth : Nat} (term : e.DistributedTerm)
    (notMul : ∀ factors, e ≠ .mul factors) (divisor : exponent.val < 0 → e.PlainDivisor)
    (raised : raise (prodToDepth (depth + 1)) e exponent = some result) :
    result.DistributedTerm := by
  have invertible : exponent.val < 0 → e.Invertible := fun negative =>
    ⟨term.canonical, term.regular, (divisor negative).nonzero⟩
  have operand : result.Operand := by
    refine ⟨(term.canonical.raise_of_not_mul notMul raised).1, ?_⟩
    have composed := hereditary_invertible.composed
    exact (composed.raise
      (fun es product formed holds => composed.prodToDepth _ es product formed holds)
      e exponent result raised term.invertible invertible).regular
  have ofEntry : ∀ {base : Expr} {total : Exponent}, base.Canonical → base.isGenerator = true →
      base.Multiplied → (∀ terms, base = .add terms → total.val < 0) →
      raise (prodToDepth (depth + 1)) base total = some result → result.DistributedTerm := by
    intro base total canonical generator multiplied divides raised
    have entry : CanonicalEntry (base, total) := ⟨canonical, Or.inl generator⟩
    rw [entry.raise] at raised
    cases raised
    obtain ⟨multiplied, notAdd⟩ := multiplied_writtenPower multiplied divides
    exact ⟨⟨operand, multiplied⟩, notAdd⟩
  cases e with
  | mul factors => exact absurd rfl (notMul factors)
  | add terms => exact absurd rfl (term.notAdd terms)
  | num value =>
    have regular : ¬(value = 0 ∧ exponent.val < 0) := fun ⟨isZero, negative⟩ =>
      (divisor negative).nonzero (congrArg Expr.num isZero)
    obtain ⟨number, rfl⟩ := eq_num_of_isNum (raise_num regular raised)
    exact distributedTerm_num number
  | pow base inner =>
    obtain ⟨isPower, canonicalBase⟩ := canonical_pow_iff.mp term.canonical
    have generator : base.isGenerator = true := by
      refine isPower.generator.resolve_right ?_
      rintro ⟨rfl, negative⟩
      exact absurd term.regular (by simp [dividesByZero_pow_zero negative])
    have small : ∀ terms, base = .add terms → inner.val ≤ 1 :=
      (multiplied_iff.mp term.multiplied).1
    have nonzero := isPower.ne_zero
    have ne_one := isPower.ne_one
    unfold raise at raised
    split at raised
    · cases raised
      exact distributedTerm_num 1
    · split at raised
      · cases raised
        exact term
      · obtain ⟨total, multiplied, raised⟩ := Option.bind_eq_some_iff.mp raised
        refine ofEntry canonicalBase generator term.multiplied.base (fun terms same => ?_) raised
        have notNegative : ¬exponent.val < 0 := by
          intro negative
          subst same
          exact (divisor negative).factors terms inner List.mem_cons_self
        have less := small terms same
        rw [Exponent.val_of_mul? multiplied]
        exact mul_neg_of_neg_of_pos (by omega) (by omega)
  | _ => exact ofEntry term.canonical rfl term.multiplied (fun _ => by simp) raised

/-- Powers of distributed trees are distributed if positive powers of sums are multiplied out and
no sum is inverted twice. -/
theorem Distributed.power (distributed : e.Distributed)
    (small : ∀ terms, e = .add terms → ¬1 < exponent.val)
    (divisor : exponent.val < 0 → e.PlainDivisor) (raised : Expr.power e exponent = some result) :
    result.Distributed := by
  by_cases isSum : ∃ terms, e = .add terms
  · obtain ⟨terms, rfl⟩ := isSum
    have notGreater := small terms rfl
    have regular := (hereditary_invertible.power raised distributed.invertible fun negative =>
      ⟨distributed.canonical, distributed.regular, (divisor negative).nonzero⟩).regular
    refine ⟨⟨distributed.canonical.power distributed.regular raised, regular⟩, ?_⟩
    unfold Expr.power raise at raised
    split at raised
    · cases raised
      exact multiplied_num 1
    · split at raised
      · cases raised
        exact distributed.multiplied
      · cases raised
        exact multiplied_pow distributed.multiplied fun _ _ => by omega
  · have term : e.DistributedTerm := ⟨distributed, fun terms same => isSum ⟨terms, same⟩⟩
    cases e with
    | mul factors =>
      have regular := (hereditary_invertible.power raised distributed.invertible fun negative =>
        ⟨distributed.canonical, distributed.regular, (divisor negative).nonzero⟩).regular
      refine ⟨⟨distributed.canonical.power distributed.regular raised, regular⟩, ?_⟩
      unfold Expr.power raise at raised
      split at raised
      · cases raised
        exact multiplied_num 1
      · split at raised
        · cases raised
          exact distributed.multiplied
        · obtain ⟨powers, raised, multiplied⟩ := Option.bind_eq_some_iff.mp raised
          rw [raiseAll_eq_mapM] at raised
          refine (multiplied_prodToDepth (fun power member => ?_) multiplied).1
          obtain ⟨factor, inside, raises⟩ := exists_of_mem_mapM raised member
          have notMul := (distributed.canonical.not_mul_of_mem_factors inside).2
          have factorTerm : factor.DistributedTerm :=
            ⟨distributed.arg inside, distributed.multiplied.factor_ne_add term.notAdd inside⟩
          refine factorTerm.raise_of_not_mul notMul (fun negative => ?_) raises
          have nonzero : factor ≠ zero := (Invertible.factor
            ⟨distributed.canonical, distributed.regular, (divisor negative).nonzero⟩ inside).nonzero
          refine ⟨nonzero, fun terms inner member => ?_⟩
          rw [factors_of_not_mul notMul, List.mem_singleton] at member
          exact (divisor negative).factors terms inner (member ▸ inside)
    | _ => exact (term.raise_of_not_mul (fun _ => by simp) divisor raised).toDistributed

end Powers

section Fixpoint

/-- The sum of one operand is the operand. -/
theorem Operand.sum_singleton {e : Expr} (operand : e.Operand) : sum [e] = e := by
  have single := List.forall_mem_singleton.mpr operand
  refine (operand_sum single).eq_of_combination_eq operand ?_
  rw [combination_sum (List.forall_mem_singleton.mpr operand.canonical), List.map_singleton,
    List.sum_singleton]

/-- Several leading factors of a distributed product make a distributed product. -/
theorem distributed_mul_of_append {before after : List Expr} (several : 2 ≤ before.length)
    (distributed : (Expr.mul (before ++ after)).Distributed) : (Expr.mul before).Distributed := by
  have leading : ∀ factor ∈ before, factor ∈ before ++ after := fun factor member =>
    List.mem_append_left after member
  obtain ⟨product, parts⟩ := canonical_mul_iff.mp distributed.canonical
  have notAdd : ∀ terms, .add terms ∉ before := fun terms member =>
    (multiplied_iff.mp distributed.multiplied).1 terms (leading _ member)
  have regular : ∀ factor ∈ before, factor.dividesByZero = false := fun factor member =>
    dividesByZero_of_mem_eq_false distributed.regular (leading factor member)
  refine ⟨⟨canonical_mul_iff.mpr ⟨?_, fun factor member => parts factor (leading factor member)⟩,
    ?_⟩, multiplied_iff.mpr ⟨notAdd, fun factor member =>
      distributed.multiplied.arg (leading factor member)⟩⟩
  · have prefixed := List.prefix_append before after
    exact {
      several := several
      sorted := product.sorted.sublist prefixed.sublist
      flat := fun inner member => product.flat inner (leading _ member)
      number_first := fun factor member =>
        product.number_first factor (prefixed.sublist.tail.subset member)
      one_absent := fun member => product.one_absent (leading one member)
      zero_singular := fun member => by
        have divides := product.zero_singular (leading zero member)
        rw [distributed.regular] at divides
        cases divides
      bases := product.bases.sublist (prefixed.sublist.filter _)
      undistributed := by
        rintro value terms rfl
        exact notAdd terms (by simp) }
  · rw [dividesByZero_mul, List.any_eq_false]
    exact fun factor member => by simp [regular factor member]

/-- A term and a factor that comes after its own make the product of all of them. -/
theorem distribute_mul {before : List Expr} {e factor : Expr} (term : e.DistributedTerm)
    (factors : e.factors = before) (product : (Expr.mul (before ++ [factor])).Distributed) :
    distribute e factor = some (.mul (before ++ [factor])) := by
  have inside : factor ∈ before ++ [factor] := by simp
  have notAdd := product.multiplied.factor_ne_add (fun _ => by simp) inside
  have canonical : ∀ part ∈ [e, factor], part.Canonical :=
    forall_mem_pair ⟨term.canonical, product.canonical.arg inside⟩
  have flat : looseFactorsOfAll [e, factor] = looseFactorsOfAll (before ++ [factor]) := by
    have single : ∀ part ∈ before ++ [factor], part.factors = [part] := fun part member =>
      factors_of_not_mul (product.canonical.not_mul_of_mem_factors member).2
    have canonicalParts : ∀ part ∈ before ++ [factor], part.Canonical := fun part member =>
      product.canonical.arg member
    rw [looseFactorsOfAll_of_canonical canonical, looseFactorsOfAll_of_canonical canonicalParts,
      List.flatMap_congr single, List.flatMap_singleton', List.flatMap_cons, factors,
      List.flatMap_singleton, single factor inside]
  have multiplied : prod [e, factor] = some (.mul (before ++ [factor])) := by
    rw [prod, ← prodToDepth_of_canonical product.canonical, prodToDepth, prodToDepth, flat]
  rw [distribute, terms_of_not_add term.notAdd, terms_of_not_add notAdd]
  simp only [List.mapM_cons, List.mapM_nil, multiplied]
  exact congrArg some product.toOperand.sum_singleton

/-- Distributing the factors of a distributed product one after the other makes the product. -/
theorem foldlM_distribute {before after : List Expr} {e : Expr} (term : e.DistributedTerm)
    (factors : e.factors = before) (nonempty : before ≠ [])
    (product : (Expr.mul (before ++ after)).Distributed) :
    after.foldlM distribute e = some (.mul (before ++ after)) := by
  induction after generalizing before e with
  | nil =>
    rw [List.append_nil] at product ⊢
    exact congrArg some (term.canonical.eq_of_factors_eq product.canonical factors)
  | cons factor rest ih =>
    rw [List.append_cons] at product ⊢
    have several : 2 ≤ (before ++ [factor]).length := by
      have positive := List.length_pos_of_ne_nil nonempty
      rw [List.length_append, List.length_singleton]
      omega
    have leading := distributed_mul_of_append several product
    rw [List.foldlM_cons, distribute_mul term factors leading]
    exact ih ⟨leading, fun _ => by simp⟩ rfl (by simp) product

/-- Distributing the factors of a distributed product changes nothing. -/
theorem distributeAll_of_distributed {factors : List Expr}
    (product : (Expr.mul factors).Distributed) : distributeAll factors = some (.mul factors) := by
  obtain ⟨isProduct, -⟩ := canonical_mul_iff.mp product.canonical
  obtain ⟨first, rest, rfl⟩ := List.exists_cons_of_ne_nil
    (List.ne_nil_of_length_pos (Nat.lt_of_lt_of_le Nat.two_pos isProduct.several))
  have inside : first ∈ first :: rest := List.mem_cons_self
  have term : first.DistributedTerm :=
    ⟨product.arg inside, product.multiplied.factor_ne_add (fun _ => by simp) inside⟩
  have single : first.factors = [first] :=
    factors_of_not_mul (product.canonical.not_mul_of_mem_factors inside).2
  have start : distribute one first = some first := by
    have multiplied : prod [one, first] = some first :=
      term.toOperand.prod_num_eq term.toOperand (one_smul ℚ _).symm
    rw [distribute, terms_of_not_add term.notAdd]
    simp only [one, terms, List.mapM_cons, List.mapM_nil]
    rw [← one, multiplied]
    exact congrArg some term.toOperand.sum_singleton
  rw [distributeAll, List.foldlM_cons, start]
  exact foldlM_distribute term single (List.cons_ne_nil _ _) product

/-- Expansion leaves distributed trees as they are. -/
theorem Distributed.expand_eq_self {e : Expr} (distributed : e.Distributed) :
    expand e = some e := by
  have children : ∀ es : List Expr, (∀ e ∈ es, expand e = some e) →
      expandAllWith expand es = some es := by
    intro es expanded
    have mapped : es.mapM expand = some (es.map id) := mapM_eq_some_map expanded
    rw [← mapM_expand_eq, mapped, List.map_id]
  induction e with
  | num value | sym name => exact expand_eq _
  | add terms ih =>
    rw [expand_eq, expandWith, children terms fun term member => ih term member
      (distributed.arg member)]
    exact congrArg some (sum_of_canonical distributed.canonical)
  | mul factors ih =>
    rw [expand_eq, expandWith, children factors fun factor member => ih factor member
      (distributed.arg member)]
    exact distributeAll_of_distributed distributed
  | pow base exponent ih =>
    have small : ∀ terms, base = .add terms → exponent.val ≤ 1 :=
      (multiplied_iff.mp distributed.multiplied).1
    have powered := power_of_canonical distributed.canonical
    rw [expand_eq, expandWith, ← expand_eq, ih (distributed.arg (List.mem_singleton_self base))]
    cases base with
    | add terms =>
      have notGreater : ¬1 < exponent.val := not_lt.mpr (small terms rfl)
      simpa [notGreater] using powered
    | _ => exact powered
  | vector es ih =>
    rw [expand_eq, expandWith, children es fun e member => ih e member (distributed.arg member)]
    rfl
  | call head es ih =>
    have notDot : dotOperands? (.call head es) = none :=
      (multiplied_iff.mp distributed.multiplied).1
    rw [expand_eq, expandWith, notDot, children es fun e member => ih e member
      (distributed.arg member)]
    rfl

end Fixpoint

end FiniteVolume.Expr
