import FiniteVolume.Proofs.Canonical.Monomials
import FiniteVolume.Proofs.Laurent.Derivative

/-!
# Monomials sorted by unknowns

A collected sum is the sum of the monomials that are free of the unknowns, of those that are linear
in one of them and of all others.
-/

namespace FiniteVolume

namespace Exponents

variable {unknowns : List String} {unknown : String} {exponents : Exponents}

/-- A monomial holds none of the unknowns. -/
def Free (unknowns : List String) (exponents : Exponents) : Prop :=
  ∀ unknown ∈ unknowns, exponents unknown = 0

/-- A monomial holds one of the unknowns, to the first power, and none of the others. -/
def LinearIn (unknowns : List String) (unknown : String) (exponents : Exponents) : Prop :=
  exponents unknown = 1 ∧ ∀ other ∈ unknowns, other ≠ unknown → exponents other = 0

/-- A monomial holds at most one of the unknowns, and this one to the first power. -/
def Affine (unknowns : List String) (exponents : Exponents) : Prop :=
  Free unknowns exponents ∨ ∃ unknown ∈ unknowns, LinearIn unknowns unknown exponents

/-- A monomial that is linear in an unknown is this unknown times a monomial without unknowns. -/
theorem linearIn_single_add_iff (present : unknown ∈ unknowns) :
    LinearIn unknowns unknown (Finsupp.single unknown 1 + exponents) ↔ Free unknowns exponents := by
  constructor
  · rintro ⟨once, others⟩ other member
    by_cases same : other = unknown
    · rw [Finsupp.add_apply, Finsupp.single_eq_same] at once
      rw [same]
      omega
    · have absent := others other member same
      rwa [Finsupp.add_apply, Finsupp.single_eq_of_ne same, zero_add] at absent
  · intro free
    refine ⟨?_, fun other member different => ?_⟩
    · rw [Finsupp.add_apply, Finsupp.single_eq_same, free unknown present, add_zero]
    · rw [Finsupp.add_apply, Finsupp.single_eq_of_ne different, free other member, add_zero]

/-- A monomial that is linear in an unknown is not free of the unknowns. -/
theorem LinearIn.not_free (linear : LinearIn unknowns unknown exponents)
    (present : unknown ∈ unknowns) : ¬Free unknowns exponents := by
  intro free
  have absent := free unknown present
  rw [linear.1] at absent
  exact one_ne_zero absent

/-- A monomial is linear in at most one unknown. -/
theorem LinearIn.unique {other : String} (linear : LinearIn unknowns unknown exponents)
    (linear' : LinearIn unknowns other exponents) (present : other ∈ unknowns) :
    other = unknown := by
  by_contra different
  have absent := linear.2 other present different
  rw [linear'.1] at absent
  exact one_ne_zero absent

end Exponents

namespace Collected

open AddMonoidAlgebra Exponents

open Classical in
/-- The monomials of a sum that satisfy a condition. -/
noncomputable def restrict (keeps : Exponents → Prop) : Collected →+ Collected :=
  (coeffAddEquiv (R := ℚ) (M := Exponents)).symm.toAddMonoidHom.comp
    ((Finsupp.filterAddHom keeps).comp (coeffAddEquiv (R := ℚ) (M := Exponents)).toAddMonoidHom)

variable {keeps : Exponents → Prop} {sum : Collected} {exponents : Exponents}

/-- A restriction keeps the coefficients of the monomials it keeps. -/
theorem coeff_restrict_of_keeps (kept : keeps exponents) :
    (restrict keeps sum).coeff exponents = sum.coeff exponents := by
  classical exact Finsupp.filter_apply_pos keeps _ kept

/-- A restriction has no other monomials. -/
theorem coeff_restrict_of_not (dropped : ¬keeps exponents) :
    (restrict keeps sum).coeff exponents = 0 := by
  classical exact Finsupp.filter_apply_neg keeps _ dropped

/-- A restriction keeps a monomial of its kind. -/
theorem restrict_single_of_keeps (kept : keeps exponents) (value : ℚ) :
    restrict keeps (single exponents value) = single exponents value := by
  classical exact coeff_injective (Finsupp.filter_single_of_pos _ kept)

/-- A restriction drops a monomial of another kind. -/
theorem restrict_single_of_not (dropped : ¬keeps exponents) (value : ℚ) :
    restrict keeps (single exponents value) = 0 := by
  classical exact coeff_injective (Finsupp.filter_single_of_neg _ dropped)

/-- The monomials without several symbols are found by leaving out those with one after the other.
-/
theorem restrict_free_cons (unknown : String) (rest : List String) (sum : Collected) :
    restrict (Free rest) (restrict (fun exponents => exponents unknown = 0) sum) =
      restrict (Free (unknown :: rest)) sum := by
  apply coeff_injective
  ext exponents
  by_cases freeRest : Free rest exponents
  · rw [coeff_restrict_of_keeps freeRest]
    by_cases absent : exponents unknown = 0
    · have free : Free (unknown :: rest) exponents := List.forall_mem_cons.mpr ⟨absent, freeRest⟩
      rw [coeff_restrict_of_keeps absent, coeff_restrict_of_keeps free]
    · rw [coeff_restrict_of_not absent,
        coeff_restrict_of_not fun free => absent (free unknown List.mem_cons_self)]
  · rw [coeff_restrict_of_not freeRest, coeff_restrict_of_not fun free =>
      freeRest fun other member => free other (List.mem_cons_of_mem _ member)]

/-- The coefficient of an unknown: the monomials that are linear in it, divided by it. -/
noncomputable def linearCoefficient (unknowns : List String) (unknown : String)
    (sum : Collected) : Collected :=
  single (Finsupp.single unknown (-1)) 1 * restrict (LinearIn unknowns unknown) sum

variable {unknowns : List String} {unknown : String}

/-- An unknown times its coefficient gives back the monomials that are linear in it. -/
theorem single_mul_linearCoefficient (sum : Collected) :
    single (Finsupp.single unknown 1) 1 * linearCoefficient unknowns unknown sum =
      restrict (LinearIn unknowns unknown) sum := by
  rw [linearCoefficient, ← mul_assoc, single_mul_single, ← Finsupp.single_add, one_mul,
    add_neg_cancel, Finsupp.single_zero]
  exact one_mul _

/-- The coefficient of an unknown is the part of the derivative that is free of all unknowns. -/
theorem restrict_derivative (present : unknown ∈ unknowns) (sum : Collected) :
    restrict (Free unknowns) (derivative unknown sum) =
      linearCoefficient unknowns unknown sum := by
  apply coeff_injective
  ext exponents
  rw [linearCoefficient, coeff_single_mul_apply, one_mul, Finsupp.single_neg, neg_neg]
  by_cases free : Free unknowns exponents
  · rw [coeff_restrict_of_keeps free,
      coeff_restrict_of_keeps ((linearIn_single_add_iff present).mpr free), coeff_derivative,
      free unknown present, Int.cast_zero, zero_add, one_mul, add_comm]
  · rw [coeff_restrict_of_not free,
      coeff_restrict_of_not fun linear => free ((linearIn_single_add_iff present).mp linear)]

/-- The monomials that are linear in some unknown, together with those that are free of all of them.
-/
theorem restrict_affine (distinct : unknowns.Nodup) (sum : Collected) :
    restrict (Affine unknowns) sum = restrict (Free unknowns) sum +
      (unknowns.map fun unknown => restrict (LinearIn unknowns unknown) sum).sum := by
  apply coeff_injective
  ext exponents
  rw [coeff_add, Finsupp.add_apply, coeff_list_sum, List.map_map]
  by_cases linear : ∃ unknown ∈ unknowns, LinearIn unknowns unknown exponents
  · obtain ⟨unknown, present, linearIn⟩ := linear
    have others : ∀ other, other ≠ unknown → other ∈ unknowns →
        (restrict (LinearIn unknowns other) sum).coeff exponents = 0 :=
      fun other different inside =>
        coeff_restrict_of_not fun linear' => different (linearIn.unique linear' inside)
    rw [coeff_restrict_of_keeps (Or.inr ⟨unknown, present, linearIn⟩),
      coeff_restrict_of_not (linearIn.not_free present), zero_add]
    refine Eq.symm ((List.sum_map_eq_nsmul_single unknown _ others).trans ?_)
    rw [List.count_eq_one_of_mem distinct present, one_nsmul]
    exact coeff_restrict_of_keeps linearIn
  · have noLinear : (unknowns.map ((fun sum : Collected => sum.coeff exponents) ∘
        fun unknown => restrict (LinearIn unknowns unknown) sum)).sum = 0 := by
      apply List.sum_eq_zero
      intro value member
      obtain ⟨unknown, present, rfl⟩ := List.mem_map.mp member
      exact coeff_restrict_of_not fun linearIn => linear ⟨unknown, present, linearIn⟩
    rw [noLinear, add_zero]
    by_cases free : Free unknowns exponents
    · rw [coeff_restrict_of_keeps free, coeff_restrict_of_keeps (Or.inl free)]
    · rw [coeff_restrict_of_not free,
        coeff_restrict_of_not fun affine => affine.elim free linear]

/-- What a restriction drops is left by the opposite one. -/
theorem restrict_not (keeps : Exponents → Prop) (sum : Collected) :
    restrict (fun exponents => ¬keeps exponents) sum = sum - restrict keeps sum := by
  apply coeff_injective
  ext exponents
  rw [coeff_sub, Finsupp.sub_apply]
  by_cases kept : keeps exponents
  · rw [coeff_restrict_of_keeps kept, coeff_restrict_of_not (not_not.mpr kept), sub_self]
  · rw [coeff_restrict_of_not kept, coeff_restrict_of_keeps kept, sub_zero]

/-- Nothing is left exactly if no monomial satisfies the condition. -/
theorem restrict_eq_zero_iff :
    restrict keeps sum = 0 ↔ ∀ exponents ∈ sum.coeff.support, ¬keeps exponents := by
  constructor
  · intro isZero exponents present kept
    have coefficient := Finsupp.mem_support_iff.mp present
    rw [← coeff_restrict_of_keeps kept, isZero] at coefficient
    exact coefficient rfl
  · intro dropped
    apply coeff_injective
    ext exponents
    by_cases kept : keeps exponents
    · rw [coeff_restrict_of_keeps kept]
      by_contra nonzero
      exact dropped exponents (Finsupp.mem_support_iff.mpr nonzero) kept
    · rw [coeff_restrict_of_not kept]
      rfl

end Collected

end FiniteVolume
