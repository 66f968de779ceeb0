import FiniteVolume.Proofs.Canonical.Singular
import FiniteVolume.Proofs.Laurent.Polynomial

/-!
# Divisions that are not nested

A division by zero is lost only where it cancels, and it cancels only where something that divides
by zero is a divisor itself. Where divisions are not nested (`Unnested`) there is no such divisor: a
product divides by zero as soon as one of its operands does (`keepsDivisions_prodToDepth`), and so
does a positive power (`KeepsDivisions.raise`).
-/

namespace FiniteVolume.Expr

variable {invertible : String → Prop}

/-- What a tree without nested divisions satisfies at one node: it divides by zero, or by what
itself divides by numbers and given symbols only. -/
def UnnestedNode (invertible : String → Prop) : Expr → Prop
  | .add terms => terms ≠ []
  | .pow base exponent => exponent.val ≠ 0 ∧ (base = zero → exponent.val < 0) ∧
      (exponent.val < 0 → base = zero ∨ base.NegativeBases (Divisor invertible))
  | _ => True

/-- A tree in which divisions are not nested. -/
def Unnested (invertible : String → Prop) (e : Expr) : Prop :=
  ∀ subterm ∈ e.subterms, UnnestedNode invertible subterm

/-- Divisions are unnested in a tree if they are so at the root and in its children. -/
theorem unnested_iff {e : Expr} :
    e.Unnested invertible ↔
      UnnestedNode invertible e ∧ ∀ arg ∈ e.args, arg.Unnested invertible :=
  forall_subterms_iff (UnnestedNode invertible)

/-- In a canonical tree only the divisors matter. -/
theorem Canonical.unnested {e : Expr} (canonical : e.Canonical)
    (divisors : e.NegativeBases fun base =>
      base = zero ∨ base.NegativeBases (Divisor invertible)) : e.Unnested invertible := by
  intro subterm member
  have node := canonical subterm member
  cases subterm with
  | add terms =>
    exact List.ne_nil_of_length_pos (Nat.lt_of_lt_of_le Nat.two_pos (CanonicalSum.several node))
  | pow base exponent =>
    refine ⟨CanonicalPower.ne_zero node, ?_, divisors base exponent member⟩
    rintro rfl
    rcases CanonicalPower.generator node with generator | ⟨-, negative⟩
    · cases generator
    · exact negative
  | _ => trivial

/-- Zero is no divisor. -/
theorem not_divisor_zero : ¬Divisor invertible zero := by
  rintro (⟨name, same, -⟩ | ⟨value, same, nonzero⟩)
  · cases same
  · cases same
    exact nonzero rfl

/-- Dividing by given symbols and numbers only passes between trees and their parts. -/
theorem hereditary_undivided :
    Hereditary (NegativeBases (Divisor invertible)) (Divisor invertible) :=
  Hereditary.negativeBases (fun factors divisor => by
      obtain ⟨_, same, -⟩ | ⟨_, same, -⟩ := divisor <;> cases same)
    fun base exponent divisor => by obtain ⟨_, same, -⟩ | ⟨_, same, -⟩ := divisor <;> cases same

/-- Divisions that are not nested stay so when trees are composed. -/
theorem composed_unnested :
    Composed (Unnested invertible) fun base =>
      base = zero ∨ base.NegativeBases (Divisor invertible) where
  num value := unnested_iff.mpr ⟨trivial, fun _ member => nomatch member⟩
  terms terms unnested := (unnested_iff.mp unnested).2
  add first second rest unnested := unnested_iff.mpr ⟨List.cons_ne_nil _ _, unnested⟩
  mul_iff factors := unnested_iff.trans (and_iff_right trivial)
  of_pow base exponent unnested := by
    obtain ⟨⟨-, -, divisor⟩, inner⟩ := unnested_iff.mp unnested
    exact ⟨inner base (List.mem_singleton_self base), divisor⟩
  pow base exponent unnested divisor nonzero negative :=
    unnested_iff.mpr ⟨⟨nonzero, negative, divisor⟩, List.forall_mem_singleton.mpr unnested⟩
  base_of_mul factors divisor factor member := by
    obtain same | bases := divisor
    · cases same
    · exact Or.inr (bases.arg member)
  base_of_pow base exponent divisor _ := by
    obtain same | bases := divisor
    · cases same
    · exact Or.inr (bases.arg (List.mem_singleton_self base))

/-- An exponent with which a division by zero does not cancel: zero has negative exponents, and what
divides by zero has positive ones. -/
structure Uncancelled (base : Expr) (exponent : ℤ) : Prop where
  negative : base = zero → exponent < 0
  positive : base.dividesByZero = true → 0 < exponent

/-- Exponents that cannot cancel cannot cancel when they are added. -/
theorem Uncancelled.add {base : Expr} {left right : ℤ} (first : Uncancelled base left)
    (second : Uncancelled base right) : Uncancelled base (left + right) where
  negative isZero := add_neg (first.negative isZero) (second.negative isZero)
  positive divides := add_pos (first.positive divides) (second.positive divides)

/-- The exponent of a factor with unnested divisions cannot cancel. -/
theorem Unnested.uncancelled {factor : Expr} (unnested : factor.Unnested invertible)
    (notNum : factor.isNum = false) : Uncancelled factor.base factor.factorExponent.val := by
  have once : factor.base = factor → factor.factorExponent = Exponent.one →
      Uncancelled factor.base factor.factorExponent.val := by
    intro isBase isOne
    rw [isBase, isOne]
    refine ⟨?_, fun _ => by decide⟩
    rintro rfl
    cases notNum
  cases factor with
  | pow base exponent =>
    obtain ⟨⟨nonzero, negative, divisor⟩, -⟩ := unnested_iff.mp unnested
    refine ⟨negative, fun divides => ?_⟩
    change base.dividesByZero = true at divides
    change 0 < exponent.val
    by_contra notPositive
    rcases divisor (by omega) with rfl | bases
    · cases divides
    · rw [bases.regular_of_ne_zero not_divisor_zero] at divides
      cases divides
  | _ => exact once rfl rfl

/-- The loose factors of a tree that divides by zero do so as well. -/
theorem exists_singular_looseFactor (e : Expr) (divides : e.dividesByZero = true) :
    ∃ factor ∈ e.looseFactors, factor.dividesByZero = true := by
  induction e with
  | mul factors ih =>
    rw [dividesByZero_mul, List.any_eq_true] at divides
    obtain ⟨factor, member, divides⟩ := divides
    obtain ⟨loose, inside, divides⟩ := ih factor member divides
    refine ⟨loose, ?_, divides⟩
    rw [looseFactors, looseFactorsOfAll_eq_flatMap]
    exact List.mem_flatMap.mpr ⟨factor, member, inside⟩
  | _ => exact ⟨_, List.mem_singleton_self _, divides⟩

section Products

variable {product : List Expr → Option Expr}

/-- Products of trees without nested divisions that divide by zero as soon as a factor does. -/
def KeepsDivisions (invertible : String → Prop) (product : List Expr → Option Expr) : Prop :=
  ∀ es result, product es = some result → (∀ e ∈ es, e.Unnested invertible) →
    result.Unnested invertible ∧
      ((∃ e ∈ es, e.dividesByZero = true) → result.dividesByZero = true)

/-- Powers with positive exponents keep divisions by zero. -/
theorem KeepsDivisions.raise (products : KeepsDivisions invertible product) (e : Expr) :
    ∀ exponent result, raise product e exponent = some result → e.Unnested invertible →
      e.dividesByZero = true → 0 < exponent.val → result.dividesByZero = true := by
  induction e with
  | num value => exact fun _ _ _ _ divides => nomatch divides
  | pow base inner ih =>
    intro exponent result raised unnested divides positive
    have uncancelled := unnested.uncancelled rfl
    unfold Expr.raise at raised
    rw [if_neg positive.ne'] at raised
    split at raised
    · cases raised
      exact divides
    · obtain ⟨total, multiplied, raised⟩ := Option.bind_eq_some_iff.mp raised
      have value := Exponent.val_of_mul? multiplied
      rcases (dividesByZero_pow base inner).mp divides with ⟨rfl, negative⟩ | divides
      · refine (dividesByZero_raise_base (canonical_num 0) (Or.inr rfl) raised).mpr
          (Or.inl ⟨rfl, ?_⟩)
        rw [value]
        exact mul_neg_of_neg_of_pos negative positive
      · refine ih total result raised (composed_unnested.of_pow _ _ unnested).1 divides ?_
        rw [value]
        exact mul_pos (uncancelled.positive divides) positive
  | mul factors ih =>
    intro exponent result raised unnested divides positive
    have parts := (composed_unnested.mul_iff factors).mp unnested
    unfold Expr.raise at raised
    rw [if_neg positive.ne'] at raised
    split at raised
    · cases raised
      exact divides
    · obtain ⟨powers, raised, multiplied⟩ := Option.bind_eq_some_iff.mp raised
      rw [raiseAll_eq_mapM] at raised
      refine (products powers result multiplied fun power present => ?_).2 ?_
      · obtain ⟨factor, member, raises⟩ := exists_of_mem_mapM raised present
        exact composed_unnested.raise (fun es e formed holds => (products es e formed holds).1)
          factor exponent power raises (parts factor member) fun negative => by omega
      · rw [dividesByZero_mul, List.any_eq_true] at divides
        obtain ⟨factor, member, divides⟩ := divides
        obtain ⟨power, paired, raises⟩ :=
          exists_mem_zip_of_forall₂ (mapM_eq_some_iff.mp raised) member
        exact ⟨power, (List.of_mem_zip paired).2,
          ih factor member exponent power raises (parts factor member) divides positive⟩
  | _ =>
    intro exponent result raised _ divides positive
    unfold Expr.raise at raised
    rw [if_neg positive.ne'] at raised
    split at raised
    · cases raised
      exact divides
    · cases raised
      exact (dividesByZero_pow _ _).mpr (Or.inr divides)

/-- A product put together from a coefficient and factors of which one divides by zero does so. -/
theorem KeepsDivisions.ofFactors (products : KeepsDivisions invertible product)
    {coefficient : Rat} {factors : List Expr} {result : Expr}
    (formed : ofFactors product coefficient factors = some result)
    (unnested : ∀ factor ∈ factors, factor.Unnested invertible)
    (divides : ∃ factor ∈ factors, factor.dividesByZero = true) : result.dividesByZero = true := by
  obtain ⟨factor, member, divides⟩ := divides
  unfold Expr.ofFactors at formed
  split at formed
  · cases member
  · rename_i terms
    cases List.mem_singleton.mp member
    split at formed
    · cases formed
      exact divides
    · obtain ⟨multiples, multiplied, same⟩ := Option.bind_eq_some_iff.mp formed
      cases same
      obtain inverse | ⟨term, inside, divides⟩ := dividesByZero_iff.mp divides
      · cases inverse
      · obtain ⟨multiple, paired, multiplies⟩ :=
          exists_mem_zip_of_forall₂ (mapM_eq_some_iff.mp multiplied) inside
        have holds := composed_unnested.terms terms (unnested _ member) term inside
        exact (dividesByZero_sum _).mpr ⟨multiple, (List.of_mem_zip paired).2,
          (products _ multiple multiplies (forall_mem_pair ⟨composed_unnested.num _, holds⟩)).2
            ⟨term, by simp, divides⟩⟩
  · cases formed
    cases List.mem_singleton.mp member
    rw [dividesByZero_scale, divides]
  · split at formed <;> cases formed <;> rw [dividesByZero_mul, List.any_eq_true]
    · exact ⟨factor, member, divides⟩
    · exact ⟨factor, List.mem_cons_of_mem _ member, divides⟩

/-- Products keep divisions by zero, at whatever depth they are computed. -/
theorem keepsDivisions_prodToDepth (depth : Nat) :
    KeepsDivisions invertible (prodToDepth depth) := by
  induction depth with
  | zero =>
    intro es result formed unnested
    cases formed
    refine ⟨(composed_unnested.mul_iff es).mpr unnested, fun divides => ?_⟩
    rw [dividesByZero_mul, List.any_eq_true]
    exact divides
  | succ depth ih =>
    intro es result formed unnested
    refine ⟨composed_unnested.prodToDepth _ es result formed unnested, ?_⟩
    rintro ⟨e, member, divides⟩
    obtain ⟨loose, inside, divides⟩ := exists_singular_looseFactor e divides
    have member : loose ∈ looseFactorsOfAll es := by
      rw [looseFactorsOfAll_eq_flatMap]
      exact List.mem_flatMap.mpr ⟨e, member, inside⟩
    have notNum : loose.isNum = false := by
      cases loose <;> first | rfl | cases divides
    obtain ⟨collected, collects, formed⟩ := Option.bind_eq_some_iff.mp formed
    have parts := composed_unnested.looseFactorsOfAll unnested
    have entries := (composed_unnested.likeFactors parts collects).2
    obtain ⟨-, uncancelled, bases⟩ := LikeFactors.exponents_of_additive Uncancelled
      (fun _ _ _ => Uncancelled.add)
      (fun factor member notNum => (parts factor member).uncancelled notNum) collects
    obtain ⟨entry, collectsBase, same⟩ := bases loose member notNum
    have base : entry.1 = zero ∨ entry.1.dividesByZero = true := by
      rw [same]
      cases loose with
      | pow base exponent =>
        exact ((dividesByZero_pow base exponent).mp divides).imp_left And.left
      | _ => exact Or.inr divides
    have singular : collected.isSingular = true := by
      refine List.any_eq_true.mpr ⟨entry, collectsBase, ?_⟩
      rcases base with isZero | divides
      · simp [isZero, Expr.isZero, zero, (uncancelled entry collectsBase).negative isZero]
      · simp [divides]
    rw [if_neg fun both => both.2 singular] at formed
    obtain ⟨powers, raised, formed⟩ := Option.bind_eq_some_iff.mp formed
    dsimp only at formed
    rw [if_neg fun both => both.2 singular] at formed
    obtain ⟨power, paired, raises⟩ :=
      exists_mem_zip_of_forall₂ (mapM_eq_some_iff.mp raised) collectsBase
    have dividesPower : power.dividesByZero = true := by
      rcases base with isZero | divides
      · change raise _ entry.1 entry.2 = some power at raises
        rw [isZero] at raises
        exact (dividesByZero_raise_base (canonical_num 0) (Or.inr rfl) raises).mpr
          (Or.inl ⟨rfl, (uncancelled entry collectsBase).negative isZero⟩)
      · exact ih.raise entry.1 entry.2 power raises (entries entry collectsBase).1 divides
          ((uncancelled entry collectsBase).positive divides)
    obtain ⟨factor, inPower, divides⟩ := (dividesByZero_iff_factors power).mp dividesPower
    refine ih.ofFactors formed (fun factor member => ?_) ?_
    · rw [mem_sort] at member
      obtain ⟨power, present, member⟩ := List.mem_flatMap.mp (List.mem_filter.mp member).1
      obtain ⟨entry, inside, raises⟩ := exists_of_mem_mapM raised present
      obtain ⟨holdsBase, ofBase⟩ := entries entry inside
      exact composed_unnested.factors (composed_unnested.raise (fun es e formed holds =>
        (ih es e formed holds).1) entry.1 entry.2 power raises holdsBase ofBase) factor member
    · rw [dividesByZero_of_sort, ← dividesByZero_of_filter]
      exact ⟨factor, List.mem_flatMap.mpr ⟨power, (List.of_mem_zip paired).2, inPower⟩, divides⟩

end Products

/-- A positive power keeps divisions by zero, and so does a negative power of zero. -/
theorem dividesByZero_power {base result : Expr} {exponent : Exponent}
    (powered : power base exponent = some result) (unnested : base.Unnested invertible)
    (divides : base = zero ∧ exponent.val < 0 ∨
      base.dividesByZero = true ∧ 0 < exponent.val) : result.dividesByZero = true := by
  rcases divides with ⟨rfl, negative⟩ | ⟨divides, positive⟩
  · exact (dividesByZero_raise_base (canonical_num 0) (Or.inr rfl) powered).mpr
      (Or.inl ⟨rfl, negative⟩)
  · exact (keepsDivisions_prodToDepth _).raise base exponent result powered unnested divides
      positive

end FiniteVolume.Expr
