import Mathlib
import FiniteVolume.Expr.Order

/-!
# The order of operands is total

`Expr.compare` is a total order in which only a tree itself is equal to it. Sorting therefore has
exactly one result for every collection of operands (`sort_congr`).
-/

namespace FiniteVolume

namespace Head

/-- Exchanging two heads reverses their comparison. -/
theorem compare_swap (left right : Head) : (left.compare right).swap = right.compare left := by
  cases left <;> cases right <;>
    simp only [Head.compare, kindRank] <;> exact Std.OrientedOrd.eq_swap.symm

/-- The order of heads is transitive. -/
theorem compare_trans {left middle right : Head} (first : left.compare middle = .lt)
    (second : middle.compare right = .lt) : left.compare right = .lt := by
  cases left <;> cases middle <;> cases right <;>
    simp only [Head.compare, kindRank] at first second ⊢ <;>
    first
    | exact Std.TransCmp.lt_trans first second
    | exact first
    | contradiction

end Head

/-- The order of exponents is transitive. -/
theorem Exponent.compare_trans {left middle right : Exponent}
    (first : compare left middle = .lt) (second : compare middle right = .lt) :
    compare left right = .lt :=
  @Std.TransCmp.lt_trans Int compare _ _ _ _ first second

namespace Expr

/-- Exchanging two numbers reverses their comparison. -/
theorem compareRationals_swap (left right : Rat) :
    (compareRationals left right).swap = compareRationals right left := by
  unfold compareRationals
  rcases lt_trichotomy left right with less | same | greater
  · rw [if_pos less, if_neg (lt_asymm less), if_neg (ne_of_gt less)]
    rfl
  · subst same
    rw [if_neg (lt_irrefl left), if_pos rfl]
    rfl
  · rw [if_neg (lt_asymm greater), if_neg (ne_of_gt greater), if_pos greater]
    rfl

/-- Numbers are compared by their value. -/
theorem compareRationals_eq_lt_iff {left right : Rat} :
    compareRationals left right = .lt ↔ left < right := by
  unfold compareRationals
  constructor
  · intro less
    by_contra notLess
    rw [if_neg notLess] at less
    split at less <;> cases less
  · intro less
    rw [if_pos less]

mutual

/-- Exchanging two trees reverses their comparison. -/
theorem compare_swap : ∀ left right : Expr, (left.compare right).swap = right.compare left
  | .num _, right => by
    cases right <;> first | exact compareRationals_swap _ _ | rfl
  | .sym _, right => by
    cases right <;> exact Std.OrientedOrd.eq_swap.symm
  | .add terms, right => by
    cases right <;> first | exact compareLists_swap terms _ | rfl
  | .mul factors, right => by
    cases right <;> first | exact compareLists_swap factors _ | rfl
  | .pow base exponent, right => by
    cases right with
    | pow base' exponent' =>
      simp only [Expr.compare, Ordering.swap_then, compare_swap base base']
      exact congrArg _ (Std.OrientedOrd.eq_swap (α := Int)).symm
    | _ => rfl
  | .vector components, right => by
    cases right <;> first | exact compareLists_swap components _ | rfl
  | .call head args, right => by
    cases right with
    | call head' args' =>
      simp only [Expr.compare, Ordering.swap_then, compareLists_swap args args',
        Head.compare_swap head head']
    | _ => rfl

/-- Exchanging two lists reverses their comparison. -/
theorem compareLists_swap :
    ∀ left right : List Expr, (compareLists left right).swap = compareLists right left
  | [], [] => rfl
  | [], _ :: _ => rfl
  | _ :: _, [] => rfl
  | e :: rest, e' :: rest' => by
    simp only [compareLists, Ordering.swap_then, compare_swap e e', compareLists_swap rest rest']

end

/-- Trees of different kinds are compared by their kinds. -/
theorem compare_of_kindRank_lt {left right : Expr} (less : left.kindRank < right.kindRank) :
    left.compare right = .lt := by
  cases left <;> cases right <;> first | rfl | simp [kindRank] at less

/-- A tree that comes before another one is of no later kind. -/
theorem kindRank_le_of_compare {left right : Expr} (before : left.compare right = .lt) :
    left.kindRank ≤ right.kindRank := by
  by_contra greater
  have after : right.compare left = .lt := compare_of_kindRank_lt (not_le.mp greater)
  have swapped := compare_swap left right
  rw [before, after] at swapped
  cases swapped

/-- A lexicographic comparison is transitive if both of its parts are. -/
theorem then_eq_lt_trans {first first' first'' second second' second'' : Ordering}
    (firstTrans : first = .lt → first' = .lt → first'' = .lt)
    (firstLeft : first = .eq → first'' = first') (firstRight : first' = .eq → first'' = first)
    (secondTrans : second = .lt → second' = .lt → second'' = .lt)
    (before : first.then second = .lt) (before' : first'.then second' = .lt) :
    first''.then second'' = .lt := by
  rw [Ordering.then_eq_lt] at before before' ⊢
  rcases before with less | ⟨same, less⟩
  · rcases before' with less' | ⟨same', -⟩
    · exact Or.inl (firstTrans less less')
    · exact Or.inl ((firstRight same').trans less)
  · rcases before' with less' | ⟨same', less'⟩
    · exact Or.inl ((firstLeft same).trans less')
    · exact Or.inr ⟨(firstLeft same).trans same', secondTrans less less'⟩

mutual

/-- The order of trees is transitive. -/
theorem compare_trans : ∀ {left middle right : Expr},
    left.compare middle = .lt → middle.compare right = .lt → left.compare right = .lt
  | .num value, middle, right, first, second => by
    cases right <;> first | rfl | skip
    have rank := kindRank_le_of_compare second
    cases middle <;> simp only [kindRank] at rank <;> try omega
    simp only [Expr.compare, compareRationals_eq_lt_iff] at first second ⊢
    exact lt_trans first second
  | .sym name, middle, right, first, second => by
    have rank := kindRank_le_of_compare first
    have rank' := kindRank_le_of_compare second
    cases middle <;> cases right <;> simp only [kindRank] at rank rank' <;>
      first
      | omega
      | exact @Std.TransCmp.lt_trans String Ord.compare _ _ _ _ first second
      | rfl
  | .add terms, middle, right, first, second => by
    have rank := kindRank_le_of_compare first
    have rank' := kindRank_le_of_compare second
    cases middle <;> cases right <;> simp only [kindRank] at rank rank' <;>
      first
      | omega
      | exact @compareLists_trans terms _ _ first second
      | rfl
  | .mul factors, middle, right, first, second => by
    have rank := kindRank_le_of_compare first
    have rank' := kindRank_le_of_compare second
    cases middle <;> cases right <;> simp only [kindRank] at rank rank' <;>
      first
      | omega
      | exact @compareLists_trans factors _ _ first second
      | rfl
  | .pow base exponent, middle, right, first, second => by
    have rank := kindRank_le_of_compare first
    have rank' := kindRank_le_of_compare second
    cases middle <;> cases right <;> simp only [kindRank] at rank rank' <;>
      first
      | omega
      | exact then_eq_lt_trans (@compare_trans base _ _)
          (fun same => by rw [eq_of_compare_eq same]) (fun same => by rw [eq_of_compare_eq same])
          (@Exponent.compare_trans exponent _ _) first second
      | rfl
  | .vector components, middle, right, first, second => by
    have rank := kindRank_le_of_compare first
    have rank' := kindRank_le_of_compare second
    cases middle <;> cases right <;> simp only [kindRank] at rank rank' <;>
      first
      | omega
      | exact @compareLists_trans components _ _ first second
      | rfl
  | .call head args, middle, right, first, second => by
    have rank := kindRank_le_of_compare first
    have rank' := kindRank_le_of_compare second
    cases middle <;> cases right <;> simp only [kindRank] at rank rank' <;>
      first
      | omega
      | exact then_eq_lt_trans Head.compare_trans
          (fun same => by rw [Head.compare_eq_iff.mp same])
          (fun same => by rw [Head.compare_eq_iff.mp same])
          (@compareLists_trans args _ _) first second

/-- The order of lists is transitive. -/
theorem compareLists_trans : ∀ {left middle right : List Expr},
    compareLists left middle = .lt → compareLists middle right = .lt →
      compareLists left right = .lt
  | [], middle, right, first, second => by
    cases right with
    | nil => cases middle <;> simp [compareLists] at first second
    | cons => rfl
  | e :: rest, middle, right, first, second => by
    cases middle with
    | nil => simp [compareLists] at first
    | cons e' rest' =>
      cases right with
      | nil => simp [compareLists] at second
      | cons e'' rest'' =>
        exact then_eq_lt_trans (@compare_trans e _ _)
          (fun same => by rw [eq_of_compare_eq same]) (fun same => by rw [eq_of_compare_eq same])
          (@compareLists_trans rest _ _) first second

end

/-- An operand comes strictly before another one. -/
def Before (left right : Expr) : Prop := left.compare right = .lt

/-- An operand comes before another one or is the same. -/
def NotAfter (left right : Expr) : Prop := (left.compare right).isLE

/-- What does not come after a tree comes before it or is the tree itself. -/
theorem notAfter_iff {left right : Expr} :
    left.NotAfter right ↔ left.Before right ∨ left = right := by
  unfold NotAfter Before
  rw [← compare_eq_iff]
  cases left.compare right <;> simp

theorem Before.notAfter {left right : Expr} (before : left.Before right) : left.NotAfter right :=
  notAfter_iff.mpr (Or.inl before)

/-- No tree comes before itself. -/
theorem before_irrefl (e : Expr) : ¬e.Before e := by
  simp [Before]

/-- A tree that comes after another one leaves the other one before it. -/
theorem before_of_not_notAfter {left right : Expr} (after : ¬left.NotAfter right) :
    right.Before left := by
  unfold NotAfter at after
  unfold Before
  rw [← compare_swap left right]
  cases order : left.compare right <;> simp_all

/-- A tree of an earlier kind comes before all trees of later kinds. -/
theorem before_of_kindRank_lt {left right : Expr} (less : left.kindRank < right.kindRank) :
    left.Before right :=
  compare_of_kindRank_lt less

instance : IsTrans Expr Before := ⟨fun _ _ _ => compare_trans⟩

instance : Std.Irrefl Before := ⟨before_irrefl⟩

instance : Std.Asymm Before :=
  ⟨fun _ _ before after => before_irrefl _ (trans_of Before before after)⟩

instance : IsTrans Expr NotAfter where
  trans _ _ _ first second := by
    rcases notAfter_iff.mp first with before | same
    · rcases notAfter_iff.mp second with before' | same
      · exact (trans_of Before before before').notAfter
      · exact same ▸ first
    · exact same ▸ second

instance : Std.Antisymm NotAfter where
  antisymm _ _ first second := by
    rcases notAfter_iff.mp first with before | same
    · rcases notAfter_iff.mp second with after | same
      · exact (asymm_of Before before after).elim
      · exact same.symm
    · exact same

/-- Inserting a tree in order only moves it. -/
theorem insertOrdered_perm (e : Expr) (es : List Expr) : (insertOrdered e es).Perm (e :: es) := by
  induction es with
  | nil => exact .refl _
  | cons head rest ih =>
    unfold insertOrdered
    split
    · exact .refl _
    · exact (ih.cons head).trans (.swap e head rest)

/-- Sorting only moves trees. -/
theorem sort_perm (es : List Expr) : (sort es).Perm es := by
  induction es with
  | nil => exact .refl _
  | cons e rest ih => exact (insertOrdered_perm e (sort rest)).trans (ih.cons e)

@[simp]
theorem mem_sort {e : Expr} {es : List Expr} : e ∈ sort es ↔ e ∈ es :=
  (sort_perm es).mem_iff

/-- Inserting a tree in order keeps a list sorted. -/
theorem insertOrdered_pairwise {e : Expr} {es : List Expr} (sorted : es.Pairwise NotAfter) :
    (insertOrdered e es).Pairwise NotAfter := by
  induction es with
  | nil => exact List.pairwise_singleton NotAfter e
  | cons head rest ih =>
    obtain ⟨first, later⟩ := List.pairwise_cons.mp sorted
    unfold insertOrdered
    split
    · rename_i notAfter
      refine List.pairwise_cons.mpr ⟨fun other member => ?_, sorted⟩
      rcases List.mem_cons.mp member with rfl | member
      · exact notAfter
      · exact trans_of NotAfter notAfter (first other member)
    · rename_i after
      refine List.pairwise_cons.mpr ⟨fun other member => ?_, ih later⟩
      rcases List.mem_cons.mp ((insertOrdered_perm e rest).mem_iff.mp member) with rfl | member
      · exact (before_of_not_notAfter after).notAfter
      · exact first other member

/-- Sorting puts trees in order. -/
theorem sort_pairwise (es : List Expr) : (sort es).Pairwise NotAfter := by
  induction es with
  | nil => exact .nil
  | cons e rest ih => exact insertOrdered_pairwise ih

/-- Different operands are in strictly ascending order once they are sorted. -/
theorem sort_ascending {es : List Expr} (different : es.Nodup) : (sort es).Pairwise Before := by
  have nodup : (sort es).Pairwise (· ≠ ·) := (sort_perm es).nodup_iff.mpr different
  refine ((sort_pairwise es).and nodup).imp ?_
  intro left right ⟨notAfter, different⟩
  exact (notAfter_iff.mp notAfter).resolve_right different

/-- Lists of the same trees are sorted in the same way. -/
theorem sort_congr {left right : List Expr} (same : left.Perm right) : sort left = sort right :=
  ((sort_perm left).trans (same.trans (sort_perm right).symm)).eq_of_pairwise
    (fun _ _ _ _ => antisymm_of NotAfter) (sort_pairwise left) (sort_pairwise right)

/-- Sorting does not touch what is sorted. -/
theorem sort_of_pairwise {es : List Expr} (sorted : es.Pairwise NotAfter) : sort es = es :=
  (sort_perm es).eq_of_pairwise (fun _ _ _ _ => antisymm_of NotAfter) (sort_pairwise es) sorted

end Expr

end FiniteVolume
