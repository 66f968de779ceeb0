import FiniteVolume.Proofs.Expr.Order

/-!
# The order of operands by their parts

Trees of one kind are ordered by their parts, and lists of operands lexicographically, so that a
list comes before its extensions (`orderedByParts_before`). These rules leave no choice
(`OrderedByParts.iff_before`). The order is total, and the only tree that is neither before nor
after a given one is that tree itself (`compare_totalOrder`).
-/

namespace FiniteVolume

/-- A head comes strictly before another one. -/
def Head.Before (left right : Head) : Prop := left.compare right = .lt

namespace Expr

/-- An order that goes by the kinds of trees first, and within one kind by their parts: numbers by
value, names by code point, and lists lexicographically. -/
structure OrderedByParts (before : Expr → Expr → Prop) : Prop where
  kinds : ∀ left right, left.kindRank < right.kindRank → before left right
  numbers : ∀ value value', before (.num value) (.num value') ↔ value < value'
  names : ∀ name name', before (.sym name) (.sym name') ↔ name < name'
  sums : ∀ terms terms', before (.add terms) (.add terms') ↔ List.Lex before terms terms'
  products : ∀ factors factors',
    before (.mul factors) (.mul factors') ↔ List.Lex before factors factors'
  powers : ∀ base base' exponent exponent', before (.pow base exponent) (.pow base' exponent') ↔
    before base base' ∨ base = base' ∧ exponent.val < exponent'.val
  vectors : ∀ components components',
    before (.vector components) (.vector components') ↔ List.Lex before components components'
  calls : ∀ head head' args args', before (.call head args) (.call head' args') ↔
    head.Before head' ∨ head = head' ∧ List.Lex before args args'

/-- Lists are compared lexicographically. -/
theorem compareLists_eq_lt_iff {left right : List Expr} :
    compareLists left right = .lt ↔ List.Lex Before left right := by
  induction left generalizing right with
  | nil =>
    cases right with
    | nil => exact ⟨fun before => (nomatch before), fun before => (nomatch before)⟩
    | cons next rest => exact ⟨fun _ => .nil, fun _ => rfl⟩
  | cons e rest ih =>
    cases right with
    | nil => exact ⟨fun before => (nomatch before), fun before => (nomatch before)⟩
    | cons e' rest' =>
      rw [compareLists, Ordering.then_eq_lt, compare_eq_iff, ih, List.cons_lex_cons_iff, Before]

/-- Operands are ordered by their parts. -/
theorem orderedByParts_before : OrderedByParts Before where
  kinds _ _ := before_of_kindRank_lt
  numbers _ _ := compareRationals_eq_lt_iff
  names _ _ := compare_lt_iff_lt
  sums _ _ := compareLists_eq_lt_iff
  products _ _ := compareLists_eq_lt_iff
  powers base base' exponent exponent' := by
    rw [Before, Expr.compare, Ordering.then_eq_lt, Expr.compare_eq_iff]
    exact or_congr_right (and_congr_right fun _ => compare_lt_iff_lt (α := Int))
  vectors _ _ := compareLists_eq_lt_iff
  calls head head' args args' := by
    rw [Before, Expr.compare, Ordering.then_eq_lt, Head.compare_eq_iff, compareLists_eq_lt_iff,
      Head.Before]

namespace OrderedByParts

variable {before : Expr → Expr → Prop}

theorem lex_iff {left : List Expr}
    (agrees : ∀ e ∈ left, ∀ other, before e other ↔ e.Before other) (right : List Expr) :
    List.Lex before left right ↔ List.Lex Before left right := by
  induction left generalizing right with
  | nil => cases right <;> simp
  | cons e rest ih =>
    obtain ⟨first, later⟩ := List.forall_mem_cons.mp agrees
    cases right with
    | nil => simp
    | cons e' rest' => rw [List.cons_lex_cons_iff, List.cons_lex_cons_iff, first, ih later]

/-- Kinds and parts determine an order: one that goes by them is the order of operands. -/
theorem iff_before (ordered : OrderedByParts before)
    (asymmetric : ∀ left right, before left right → ¬before right left) (left right : Expr) :
    before left right ↔ left.Before right := by
  have given := orderedByParts_before
  have ofKinds : ∀ {left right : Expr}, left.kindRank ≠ right.kindRank →
      (before left right ↔ left.Before right) := by
    intro left right different
    rcases Nat.lt_or_gt_of_ne different with less | greater
    · exact iff_of_true (ordered.kinds left right less) (given.kinds left right less)
    · exact iff_of_false (asymmetric right left (ordered.kinds right left greater))
        (asymm_of Before (given.kinds right left greater))
  induction left generalizing right with
  | num value =>
    cases right with
    | num value' => rw [ordered.numbers, given.numbers]
    | _ => exact ofKinds (by simp [kindRank])
  | sym name =>
    cases right with
    | sym name' => rw [ordered.names, given.names]
    | _ => exact ofKinds (by simp [kindRank])
  | add terms ih =>
    cases right with
    | add terms' => rw [ordered.sums, given.sums, lex_iff ih]
    | _ => exact ofKinds (by simp [kindRank])
  | mul factors ih =>
    cases right with
    | mul factors' => rw [ordered.products, given.products, lex_iff ih]
    | _ => exact ofKinds (by simp [kindRank])
  | pow base exponent ih =>
    cases right with
    | pow base' exponent' =>
      rw [ordered.powers, given.powers]
      exact or_congr_left (ih base')
    | _ => exact ofKinds (by simp [kindRank])
  | vector components ih =>
    cases right with
    | vector components' => rw [ordered.vectors, given.vectors, lex_iff ih]
    | _ => exact ofKinds (by simp [kindRank])
  | call head args ih =>
    cases right with
    | call head' args' => rw [ordered.calls, given.calls, lex_iff ih]
    | _ => exact ofKinds (by simp [kindRank])

end OrderedByParts

theorem compare_eq_gt_iff {left right : Expr} :
    left.compare right = .gt ↔ right.Before left := by
  rw [Before, ← compare_swap left right, Ordering.swap_eq_lt]

/-- The order of operands is total: of two trees one comes before the other, unless they are the
same tree, and then they compare as equal. It is the one order that goes by the kinds of trees and
their parts, and a list comes before all of its extensions. -/
theorem compare_totalOrder :
    (∀ left right : Expr,
      (left.compare right = .lt ∧ left ≠ right ∧ left.compare right ≠ .gt) ∨
      (left.compare right ≠ .lt ∧ left = right ∧ left.compare right ≠ .gt) ∨
      (left.compare right ≠ .lt ∧ left ≠ right ∧ left.compare right = .gt)) ∧
    (∀ left right : Expr, left.compare right = .eq ↔ left = right) ∧
    (∀ left right : Expr, left.compare right = .gt ↔ right.compare left = .lt) ∧
    (∀ left middle right : Expr, (left.compare middle).isLE → (middle.compare right).isLE →
      (left.compare right).isLE) ∧
    (OrderedByParts Before ∧ ∀ before, OrderedByParts before →
      (∀ left right, before left right → ¬before right left) → before = Before) ∧
    ∀ (common : List Expr) (next : Expr) (rest : List Expr),
      compareLists common (common ++ next :: rest) = .lt := by
  refine ⟨fun left right => ?_, fun _ _ => compare_eq_iff, fun _ _ => compare_eq_gt_iff,
    fun _ _ _ => trans_of NotAfter, ⟨orderedByParts_before, fun before ordered asymmetric => ?_⟩,
    fun common next rest => ?_⟩
  · rw [Ne, ← compare_eq_iff]
    cases left.compare right <;> simp
  · funext left right
    exact propext (ordered.iff_before asymmetric left right)
  · -- the prefix ends where its extension goes on
    rw [compareLists_eq_lt_iff]
    nth_rewrite 1 [← List.append_nil common]
    exact List.Lex.append_left _ .nil common

/-- Half a symbol, the square of the symbol and a function of both, in the order of their kinds. -/
theorem compare_totalOrder_kinds :
    let product : Expr := .mul [.num (1 / 2), .sym "x"]
    let square : Expr := .pow (.sym "x") { val := 2 }
    let call : Expr := .apply "f" [product, square]
    (product.compare square).isLE ∧ (square.compare call).isLE ∧ (product.compare call).isLE := by
  intro product square call
  have first : (product.compare square).isLE := by decide +kernel
  have second : (square.compare call).isLE := by decide +kernel
  exact ⟨first, second, compare_totalOrder.2.2.2.1 product square call first second⟩

end Expr

end FiniteVolume
