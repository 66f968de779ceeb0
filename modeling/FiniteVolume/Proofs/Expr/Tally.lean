import FiniteVolume.Expr.Tally
import FiniteVolume.Proofs.Expr.Order

/-!
# Tallies as collections

The entries of a tally are in strictly ascending order of their keys. Up to their order, inserting
an entry puts it in the place of the entry that its key had (`insert_perm`), so a total over a tally
changes by what the two entries differ in (`total_insert`). A tally is known from the values it
gives (`Ascending.ext`).
-/

namespace FiniteVolume.Tally

variable {β : Type}

/-- The keys are listed in strictly ascending order. -/
def Ascending (tally : Tally β) : Prop := tally.Pairwise fun left right => left.1.Before right.1

/-- The entries of all keys other than a given one. -/
def without (e : Expr) (tally : Tally β) : Tally β := tally.filter fun entry => entry.1 ≠ e

/-- The entries without a key are those of all other keys. -/
theorem mem_without {e : Expr} {entry : Expr × β} {tally : Tally β} :
    entry ∈ tally.without e ↔ entry ∈ tally ∧ entry.1 ≠ e := by
  simp [without]

/-- A tally without an entry of a key loses nothing by its removal. -/
theorem without_eq_self {e : Expr} {tally : Tally β} (absent : ∀ entry ∈ tally, entry.1 ≠ e) :
    tally.without e = tally :=
  List.filter_eq_self.mpr fun entry member => decide_eq_true (absent entry member)

/-- An entry of the key is removed. -/
theorem without_cons_self (e : Expr) (value : β) (tally : Tally β) :
    without e ((e, value) :: tally) = tally.without e := by
  simp [without]

/-- An entry of another key is kept. -/
theorem without_cons_of_ne {e key : Expr} (value : β) (tally : Tally β) (different : key ≠ e) :
    without e ((key, value) :: tally) = (key, value) :: tally.without e := by
  simp [without, different]

/-- What follows the first entry of an ascending tally is ascending. -/
theorem Ascending.tail {entry : Expr × β} {rest : Tally β}
    (ascending : Ascending (entry :: rest)) : rest.Ascending :=
  (List.pairwise_cons.mp ascending).2

/-- An ascending tally has no entry for a key that comes before its first one. -/
theorem Ascending.ne_of_before {e : Expr} {entry : Expr × β} {rest : Tally β}
    (ascending : Ascending (entry :: rest)) (before : e.Before entry.1 ∨ e = entry.1)
    {other : Expr × β} (member : other ∈ rest) : other.1 ≠ e := by
  rintro rfl
  have after := (List.pairwise_cons.mp ascending).1 other member
  rcases before with before | same
  · exact asymm_of Expr.Before before after
  · exact Expr.before_irrefl _ (same ▸ after)

/-- Up to their order, the entries after an insertion are the new one and those of other keys. -/
theorem insert_perm {e : Expr} {value : β} {tally : Tally β} (ascending : tally.Ascending) :
    (tally.insert e value).Perm ((e, value) :: tally.without e) := by
  induction tally with
  | nil => exact .refl _
  | cons entry rest ih =>
    obtain ⟨key, old⟩ := entry
    unfold insert
    split
    · rename_i before
      have different : key ≠ e := by
        rintro rfl
        simp at before
      rw [without_cons_of_ne old rest different,
        without_eq_self fun other member => ascending.ne_of_before (Or.inl before) member]
    · rename_i equal
      cases Expr.compare_eq_iff.mp equal
      rw [without_cons_self,
        without_eq_self fun other member => ascending.ne_of_before (Or.inr rfl) member]
    · rename_i after
      have different : key ≠ e := by
        rintro rfl
        simp at after
      rw [without_cons_of_ne old rest different]
      exact ((ih ascending.tail).cons _).trans (.swap _ _ _)

/-- The entries after an insertion are the new one and those of other keys. -/
theorem mem_insert {e : Expr} {value : β} {tally : Tally β} (ascending : tally.Ascending)
    {entry : Expr × β} :
    entry ∈ tally.insert e value ↔ entry = (e, value) ∨ entry ∈ tally ∧ entry.1 ≠ e := by
  rw [(insert_perm ascending).mem_iff, List.mem_cons, mem_without]

/-- Insertion keeps a tally in order. -/
theorem insert_ascending {e : Expr} {value : β} {tally : Tally β} (ascending : tally.Ascending) :
    (tally.insert e value).Ascending := by
  induction tally with
  | nil => exact List.pairwise_singleton _ _
  | cons entry rest ih =>
    obtain ⟨key, old⟩ := entry
    obtain ⟨first, later⟩ := List.pairwise_cons.mp ascending
    unfold insert
    split
    · rename_i before
      refine List.pairwise_cons.mpr ⟨fun other member => ?_, ascending⟩
      rcases List.mem_cons.mp member with rfl | member
      · exact before
      · exact trans_of Expr.Before before (first other member)
    · rename_i equal
      cases Expr.compare_eq_iff.mp equal
      exact List.pairwise_cons.mpr ⟨first, later⟩
    · rename_i after
      refine List.pairwise_cons.mpr ⟨fun other member => ?_, ih later⟩
      rcases (mem_insert later).mp member with rfl | ⟨member, -⟩
      · rw [← Expr.compare_swap] at after
        exact Ordering.swap_eq_gt.mp after
      · exact first other member

/-- The entries of a tally that has a value for a key are this one and those of other keys. -/
theorem perm_of_get? {e : Expr} {value : β} {tally : Tally β} (ascending : tally.Ascending)
    (found : tally.get? e = some value) : tally.Perm ((e, value) :: tally.without e) := by
  induction tally with
  | nil => cases found
  | cons entry rest ih =>
    obtain ⟨key, old⟩ := entry
    unfold get? at found
    split at found
    · rename_i same
      cases same
      cases found
      rw [without_cons_self,
        without_eq_self fun other member => ascending.ne_of_before (Or.inr rfl) member]
    · rename_i different
      rw [without_cons_of_ne old rest (Ne.symm different)]
      exact ((ih ascending.tail found).cons _).trans (.swap _ _ _)

/-- A key that is not found has no entry to remove. -/
theorem without_of_get? {e : Expr} {tally : Tally β} (absent : tally.get? e = none) :
    tally.without e = tally := by
  apply without_eq_self
  intro entry member
  induction tally with
  | nil => cases member
  | cons first rest ih =>
    obtain ⟨key, old⟩ := first
    unfold get? at absent
    split at absent
    · cases absent
    · rename_i different
      rcases List.mem_cons.mp member with rfl | member
      · exact Ne.symm different
      · exact ih absent member

/-- What is found at a key is an entry. -/
theorem mem_of_get? {e : Expr} {value : β} {tally : Tally β} (found : tally.get? e = some value) :
    (e, value) ∈ tally := by
  induction tally with
  | nil => cases found
  | cons entry rest ih =>
    obtain ⟨key, old⟩ := entry
    unfold get? at found
    split at found
    · rename_i same
      cases same
      cases found
      exact List.mem_cons_self
    · exact List.mem_cons_of_mem _ (ih found)

/-- The entries of an ascending tally are what is found at its keys. -/
theorem Ascending.mem_iff_get? {tally : Tally β} (ascending : tally.Ascending) {key : Expr}
    {value : β} : (key, value) ∈ tally ↔ tally.get? key = some value := by
  refine ⟨fun member => ?_, mem_of_get?⟩
  cases found : tally.get? key with
  | none =>
    rw [← without_of_get? found] at member
    exact absurd rfl (mem_without.mp member).2
  | some other =>
    rcases List.mem_cons.mp ((perm_of_get? ascending found).mem_iff.mp member) with same | member
    · cases same
      rfl
    · exact absurd rfl (mem_without.mp member).2

/-- No entry of an ascending tally occurs twice. -/
theorem Ascending.nodup {tally : Tally β} (ascending : tally.Ascending) : tally.Nodup := by
  refine List.Pairwise.imp ?_ ascending
  rintro left right before rfl
  exact Expr.before_irrefl _ before

/-- Ascending tallies that give the same values are the same. -/
theorem Ascending.ext {left right : Tally β} (ascending : left.Ascending)
    (ascending' : right.Ascending) (same : ∀ key, left.get? key = right.get? key) :
    left = right := by
  have perm : left.Perm right :=
    (List.perm_ext_iff_of_nodup ascending.nodup ascending'.nodup).mpr fun entry => by
      rw [ascending.mem_iff_get?, ascending'.mem_iff_get?, same]
  exact perm.eq_of_pairwise (fun _ _ _ _ before after => (asymm_of Expr.Before before after).elim)
    ascending ascending'

section Total

variable {M : Type*} [AddCommMonoid M]

/-- The sum of a quantity of all entries. -/
def total (quantity : Expr → β → M) (tally : Tally β) : M :=
  (tally.map fun entry => quantity entry.1 entry.2).sum

/-- A total over a tally changes by the quantity added to one of its keys. -/
theorem total_insert {quantity : Expr → β → M} {e : Expr} {after : β} {change : M}
    {tally : Tally β} (ascending : tally.Ascending)
    (known : ∀ value, tally.get? e = some value →
      quantity e after = quantity e value + change)
    (unknown : tally.get? e = none → quantity e after = change) :
    (tally.insert e after).total quantity = tally.total quantity + change := by
  have inserted : (tally.insert e after).total quantity =
      quantity e after + (tally.without e).total quantity := by
    simpa [total] using
      ((insert_perm ascending).map fun entry : Expr × β => quantity entry.1 entry.2).sum_eq
  rw [inserted]
  cases found : tally.get? e with
  | none => rw [unknown found, without_of_get? found, add_comm]
  | some value =>
    have split : tally.total quantity = quantity e value + (tally.without e).total quantity := by
      simpa [total] using
        ((perm_of_get? ascending found).map
          fun entry : Expr × β => quantity entry.1 entry.2).sum_eq
    rw [known value found, split]
    abel

end Total

section Product

variable {M : Type*} [CommMonoid M]

/-- The product of a quantity of all entries. -/
def product (quantity : Expr → β → M) (tally : Tally β) : M :=
  (tally.map fun entry => quantity entry.1 entry.2).prod

/-- A product over a tally changes by the quantity multiplied to one of its keys. -/
theorem product_insert {quantity : Expr → β → M} {e : Expr} {after : β} {change : M}
    {tally : Tally β} (ascending : tally.Ascending)
    (known : ∀ value, tally.get? e = some value →
      quantity e after = quantity e value * change)
    (unknown : tally.get? e = none → quantity e after = change) :
    (tally.insert e after).product quantity = tally.product quantity * change :=
  total_insert (M := Additive M) ascending known unknown

end Product

end FiniteVolume.Tally
