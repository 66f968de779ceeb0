import Mathlib.Data.Finsupp.SMul

/-!
# Weights of keyed items

Items of a list carry a key and a weight, and the weights of equal keys are added up. As long as
different items have different keys, every weight can be read off the total (`weights_of_mem`), and
two lists with the same weights hold the same items (`mem_of_weights_eq`). The order of the items
makes no difference, also to which keys have a weight (`weight?_perm`).
-/

namespace FiniteVolume

variable {ι κ M : Type*} [AddCommMonoid M] {key : ι → κ} {weight : ι → M} {items : List ι}

/-- The weights of all items of a list, added up by their keys. -/
noncomputable def weights (key : ι → κ) (weight : ι → M) (items : List ι) : κ →₀ M :=
  (items.map fun item => Finsupp.single (key item) (weight item)).sum

@[simp]
theorem weights_nil : weights key weight [] = 0 := rfl

@[simp]
theorem weights_cons (item : ι) (rest : List ι) :
    weights key weight (item :: rest) =
      Finsupp.single (key item) (weight item) + weights key weight rest :=
  List.sum_cons

/-- The weights of two lists are added. -/
theorem weights_append (items others : List ι) :
    weights key weight (items ++ others) =
      weights key weight items + weights key weight others := by
  rw [weights, List.map_append, List.sum_append, weights, weights]

/-- The weights do not depend on the order of the items. -/
theorem weights_perm {others : List ι} (perm : items.Perm others) :
    weights key weight items = weights key weight others :=
  (perm.map _).sum_eq

/-- The weights of items that come from several sources are added source by source. -/
theorem weights_flatMap {α : Type*} (sources : List α) (items : α → List ι) :
    weights key weight (sources.flatMap items) =
      (sources.map fun source => weights key weight (items source)).sum := by
  induction sources with
  | nil => rfl
  | cons source rest ih =>
    rw [List.flatMap_cons, weights_append, ih, List.map_cons, List.sum_cons]

/-- A key that no item has weighs nothing. -/
theorem weights_of_absent {other : κ} (absent : ∀ item ∈ items, key item ≠ other) :
    weights key weight items other = 0 := by
  induction items with
  | nil => rfl
  | cons item rest ih =>
    obtain ⟨first, later⟩ := List.forall_mem_cons.mp absent
    rw [weights_cons, Finsupp.add_apply, Finsupp.single_eq_of_ne' first, zero_add, ih later]

/-- The weight of an item is the weight of its key if no other item has this key. -/
theorem weights_of_mem (distinct : items.Pairwise fun left right => key left ≠ key right)
    {item : ι} (member : item ∈ items) : weights key weight items (key item) = weight item := by
  induction items with
  | nil => cases member
  | cons first rest ih =>
    obtain ⟨new, distinct⟩ := List.pairwise_cons.mp distinct
    rw [weights_cons, Finsupp.add_apply]
    rcases List.mem_cons.mp member with rfl | later
    · rw [Finsupp.single_eq_same, weights_of_absent fun other inside same =>
        new other inside same.symm, add_zero]
    · rw [Finsupp.single_eq_of_ne' (new item later), zero_add, ih distinct later]

/-- A property that no key without weight has is that of some key exactly when an item has it. -/
theorem exists_weights_iff (distinct : items.Pairwise fun left right => key left ≠ key right)
    {property : κ → M → Prop} (weightless : ∀ other, ¬property other 0) :
    (∃ other, property other (weights key weight items other)) ↔
      ∃ item ∈ items, property (key item) (weight item) := by
  constructor
  · rintro ⟨other, holds⟩
    by_cases present : ∃ item ∈ items, key item = other
    · obtain ⟨item, member, rfl⟩ := present
      rw [weights_of_mem distinct member] at holds
      exact ⟨item, member, holds⟩
    · have unweighted : weights key weight items other = 0 :=
        weights_of_absent fun item member same => present ⟨item, member, same⟩
      rw [unweighted] at holds
      exact absurd holds (weightless other)
  · rintro ⟨item, member, holds⟩
    have weighs : weights key weight items (key item) = weight item :=
      weights_of_mem distinct member
    exact ⟨key item, weighs ▸ holds⟩

/-- What weighs something is found in every list with the same weights. -/
theorem mem_of_weights_eq {others : List ι}
    (distinct : items.Pairwise fun left right => key left ≠ key right)
    (distinct' : others.Pairwise fun left right => key left ≠ key right)
    (same : weights key weight items = weights key weight others)
    {item : ι} (ext : ∀ other ∈ others, key other = key item → weight other = weight item →
      other = item)
    (member : item ∈ items) (nonzero : weight item ≠ 0) : item ∈ others := by
  have value : weights key weight items (key item) = weight item := weights_of_mem distinct member
  by_cases present : ∃ other ∈ others, key other = key item
  · obtain ⟨other, inside, sameKey⟩ := present
    rw [same, ← sameKey, weights_of_mem distinct' inside] at value
    exact ext other inside sameKey value ▸ inside
  · rw [same, weights_of_absent fun other inside sameKey =>
      present ⟨other, inside, sameKey⟩] at value
    exact absurd value.symm nonzero

variable [DecidableEq κ]

/-- The weight of a key, if some item has it. -/
noncomputable def weight? (key : ι → κ) (weight : ι → M) (items : List ι) (wanted : κ) :
    Option M :=
  if wanted ∈ items.map key then some (weights key weight items wanted) else none

/-- The weight of a key counts the first item if it has that key. -/
theorem weight?_cons (item : ι) (rest : List ι) (wanted : κ) :
    weight? key weight (item :: rest) wanted =
      if wanted = key item then some (weight item + (weight? key weight rest wanted).getD 0)
      else weight? key weight rest wanted := by
  have others : (weight? key weight rest wanted).getD 0 = weights key weight rest wanted := by
    unfold weight?
    split
    · rfl
    · rename_i absent
      refine (weights_of_absent fun other inside same => absent ?_).symm
      exact List.mem_map.mpr ⟨other, inside, same⟩
  by_cases same : wanted = key item
  · rw [if_pos same, others, weight?, List.map_cons, if_pos (same ▸ List.mem_cons_self),
      weights_cons, Finsupp.add_apply, same, Finsupp.single_eq_same]
  · rw [if_neg same, weight?, weight?, List.map_cons, weights_cons, Finsupp.add_apply,
      Finsupp.single_eq_of_ne same, zero_add]
    exact if_congr (List.mem_cons.trans (or_iff_right same)) rfl rfl

/-- The weight of a key does not depend on the order of the items. -/
theorem weight?_perm {items others : List ι} (perm : items.Perm others) (wanted : κ) :
    weight? key weight items wanted = weight? key weight others wanted := by
  rw [weight?, weight?, weights_perm perm]
  exact if_congr (perm.map key).mem_iff rfl rfl

end FiniteVolume
