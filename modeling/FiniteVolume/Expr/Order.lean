import FiniteVolume.Expr.Basic

/-!
# The order of operands

Expressions are ordered by kind first (numbers, symbols, sums, products, powers, vectors, calls)
and then by their parts from left to right: numbers by value, names by code point, lists
lexicographically with a shorter list before its extensions. Numbers therefore lead the operands
of every sorted product. Comparison finds two trees equal exactly when they are the same tree
(`compare_eq_iff`), so equality of expressions is decided by it.
-/

namespace FiniteVolume

/-- Position of a head among the kinds of heads. -/
def Head.kindRank : Head → Nat
  | .dot => 0
  | .normalDerivative => 1
  | .named _ => 2

/-- Heads are ordered by kind, and named heads by name. -/
def Head.compare : Head → Head → Ordering
  | .named left, .named right => Ord.compare left right
  | left, right => Ord.compare left.kindRank right.kindRank

/-- Heads that compare equal are the same. -/
theorem Head.compare_eq_iff {left right : Head} : left.compare right = .eq ↔ left = right := by
  cases left <;> cases right <;> simp [Head.compare, Head.kindRank]

namespace Expr

/-- Position of an expression among the kinds of expressions. -/
def kindRank : Expr → Nat
  | .num _ => 0
  | .sym _ => 1
  | .add _ => 2
  | .mul _ => 3
  | .pow _ _ => 4
  | .vector _ => 5
  | .call _ _ => 6

/-- Rationals are ordered by value. -/
def compareRationals (left right : Rat) : Ordering :=
  if left < right then .lt else if left = right then .eq else .gt

/-- Numbers that compare equal are the same. -/
theorem compareRationals_eq_iff {left right : Rat} :
    compareRationals left right = .eq ↔ left = right := by
  unfold compareRationals
  constructor
  · intro equal
    split at equal
    · cases equal
    · split at equal
      · assumption
      · cases equal
  · rintro rfl
    rw [if_neg Rat.lt_irrefl, if_pos rfl]

mutual

/-- The order of operands, on two expressions. -/
protected def compare : Expr → Expr → Ordering
  | .num left, .num right => compareRationals left right
  | .sym left, .sym right => Ord.compare left right
  | .add left, .add right => compareLists left right
  | .mul left, .mul right => compareLists left right
  | .pow left exponent, .pow right exponent' =>
    (left.compare right).then (Ord.compare exponent exponent')
  | .vector left, .vector right => compareLists left right
  | .call head left, .call head' right => (head.compare head').then (compareLists left right)
  | left, right => Ord.compare left.kindRank right.kindRank

/-- The order of operands, extended to lists. -/
def compareLists : List Expr → List Expr → Ordering
  | [], [] => .eq
  | [], _ :: _ => .lt
  | _ :: _, [] => .gt
  | left :: restLeft, right :: restRight =>
    (left.compare right).then (compareLists restLeft restRight)

end

instance : Ord Expr := ⟨Expr.compare⟩

mutual

/-- Only a tree itself compares as equal to it. -/
theorem eq_of_compare_eq : ∀ {left right : Expr}, left.compare right = .eq → left = right
  | .num _, right, equal => by
    cases right <;> simp [Expr.compare, kindRank] at equal
    rw [compareRationals_eq_iff.mp equal]
  | .sym _, right, equal => by
    cases right <;> simp_all [Expr.compare, kindRank]
  | .add _, right, equal => by
    cases right <;> simp [Expr.compare, kindRank] at equal
    rw [eq_of_compareLists_eq equal]
  | .mul _, right, equal => by
    cases right <;> simp [Expr.compare, kindRank] at equal
    rw [eq_of_compareLists_eq equal]
  | .pow _ _, right, equal => by
    cases right <;> simp [Expr.compare, kindRank, Ordering.then_eq_eq] at equal
    rw [eq_of_compare_eq equal.1, Exponent.ext (Std.LawfulEqOrd.eq_of_compare equal.2)]
  | .vector _, right, equal => by
    cases right <;> simp [Expr.compare, kindRank] at equal
    rw [eq_of_compareLists_eq equal]
  | .call _ _, right, equal => by
    cases right <;> simp [Expr.compare, kindRank, Ordering.then_eq_eq] at equal
    rw [Head.compare_eq_iff.mp equal.1, eq_of_compareLists_eq equal.2]

/-- Lists of trees that compare equal are the same. -/
theorem eq_of_compareLists_eq :
    ∀ {left right : List Expr}, compareLists left right = .eq → left = right
  | [], right, equal => by
    cases right with
    | nil => rfl
    | cons => simp [compareLists] at equal
  | _ :: _, right, equal => by
    cases right with
    | nil => simp [compareLists] at equal
    | cons =>
      simp only [compareLists, Ordering.then_eq_eq] at equal
      rw [eq_of_compare_eq equal.1, eq_of_compareLists_eq equal.2]

end

mutual

/-- A tree compares equal to itself. -/
@[simp]
theorem compare_self : ∀ e : Expr, e.compare e = .eq
  | .num _ => by simp [Expr.compare, compareRationals_eq_iff]
  | .sym _ => by simp [Expr.compare]
  | .add terms => by simp [Expr.compare, compareLists_self terms]
  | .mul factors => by simp [Expr.compare, compareLists_self factors]
  | .pow base _ => by
    simp only [Expr.compare, compare_self base]
    exact Std.ReflOrd.compare_self (α := Int)
  | .vector components => by simp [Expr.compare, compareLists_self components]
  | .call _ args => by
    simp [Expr.compare, compareLists_self args, Head.compare_eq_iff.mpr rfl]

/-- A list of trees compares equal to itself. -/
theorem compareLists_self : ∀ es : List Expr, compareLists es es = .eq
  | [] => by simp [compareLists]
  | e :: rest => by simp [compareLists, compare_self e, compareLists_self rest]

end

/-- Trees that compare equal are the same. -/
theorem compare_eq_iff {left right : Expr} : left.compare right = .eq ↔ left = right :=
  ⟨eq_of_compare_eq, fun same => same ▸ compare_self left⟩

/-- Two expressions are equal when comparison says so. -/
instance : DecidableEq Expr := fun left right =>
  decidable_of_iff (left.compare right = .eq) compare_eq_iff

/-- Inserts an expression before the first one that does not precede it. -/
def insertOrdered (e : Expr) : List Expr → List Expr
  | [] => [e]
  | head :: rest =>
    if (e.compare head).isLE then e :: head :: rest else head :: insertOrdered e rest

/-- The expressions of a list in ascending order. -/
def sort (es : List Expr) : List Expr := es.foldr insertOrdered []

/-- The distinct expressions of a list in ascending order. -/
def sortDistinct (es : List Expr) : List Expr := (sort es).eraseReps

end Expr

end FiniteVolume
