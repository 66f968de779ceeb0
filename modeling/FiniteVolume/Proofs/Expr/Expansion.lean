import FiniteVolume.Expr.Expansion
import FiniteVolume.Proofs.Expr.Rearrangement

/-!
# What expansions are made of

Distributing products over sums only rearranges the parts of an expression, so it keeps every
property that sums, products and powers share with their operands.
-/

namespace FiniteVolume.Expr

/-- Several trees are expanded one by one. -/
theorem expandAllWith_eq_mapM (expandProduct : Expr → Option Expr) (es : List Expr) :
    expandAllWith expandProduct es = es.mapM (expandWith expandProduct) := by
  induction es with
  | nil => rfl
  | cons e rest ih => simp [expandAllWith, ih]

/-- Only inner products of two vectors of equal length are written out. -/
theorem dotOperands?_eq_some_iff {e : Expr} {left right : List Expr} :
    e.dotOperands? = some (left, right) ↔
      e = .call .dot [.vector left, .vector right] ∧ left.length = right.length := by
  unfold dotOperands?
  split
  · rename_i left' right'
    split
    · rename_i sameLength
      simp only [Option.some.injEq, Prod.mk.injEq, call.injEq, List.cons.injEq, vector.injEq,
        and_true, true_and]
      constructor
      · rintro ⟨rfl, rfl⟩
        exact ⟨⟨rfl, rfl⟩, sameLength⟩
      · exact fun same => same.1
    · rename_i different
      simp only [reduceCtorEq, false_iff, not_and]
      intro same
      cases same
      exact different
  · rename_i other
    simp only [reduceCtorEq, false_iff, not_and]
    rintro rfl
    exact absurd rfl (other left right)

/-- Only inner products can be written out. -/
theorem dotOperands?_of_ne {head : Head} (notDot : head ≠ .dot) (args : List Expr) :
    dotOperands? (.call head args) = none := by
  refine Option.eq_none_iff_forall_ne_some.mpr fun (left, right) operands => ?_
  cases (dotOperands?_eq_some_iff.mp operands).1
  exact notDot rfl

/-- A property that sums have if their terms do, and that passes from two trees to the product of a
term of one and a term of the other. -/
structure Distributive (property : Expr → Prop) : Prop where
  num : ∀ value, property (.num value)
  sum : ∀ es, (∀ e ∈ es, property e) → property (sum es)
  product : ∀ left right, property left → property right → ∀ a ∈ left.terms, ∀ b ∈ right.terms,
    ∀ result, prod [a, b] = some result → property result

namespace Distributive

variable {property : Expr → Prop}

/-- The property passes to a distributed product. -/
theorem distribute (distributive : Distributive property) {left right result : Expr}
    (formed : Expr.distribute left right = some result) (holdsLeft : property left)
    (holdsRight : property right) : property result := by
  obtain ⟨products, multiplied, same⟩ := Option.bind_eq_some_iff.mp formed
  cases same
  refine distributive.sum _ fun e present => ?_
  obtain ⟨row, inRows, inRow⟩ := List.mem_flatten.mp present
  obtain ⟨a, inLeft, multiplied⟩ := exists_of_mem_mapM multiplied inRows
  obtain ⟨b, inRight, formed⟩ := exists_of_mem_mapM multiplied inRow
  exact distributive.product left right holdsLeft holdsRight a inLeft b inRight e formed

/-- The property passes to a product that is distributed from left to right. -/
theorem distributeFrom (distributive : Distributive property) {es : List Expr}
    {start result : Expr} (formed : es.foldlM Expr.distribute start = some result)
    (holdsStart : property start) (holds : ∀ e ∈ es, property e) : property result := by
  induction es generalizing start with
  | nil =>
    cases formed
    exact holdsStart
  | cons e rest ih =>
    obtain ⟨first, later⟩ := List.forall_mem_cons.mp holds
    rw [List.foldlM_cons] at formed
    obtain ⟨product, distributed, formed⟩ := Option.bind_eq_some_iff.mp formed
    exact ih formed (distributive.distribute distributed holdsStart first) later

/-- The property passes to a power that is multiplied out. -/
theorem distributeRepeatedly (distributive : Distributive property) {e : Expr} {count : Nat}
    {start result : Expr} (formed : Expr.distributeRepeatedly e count start = some result)
    (holdsStart : property start) (holds : property e) : property result := by
  induction count generalizing start with
  | zero =>
    cases formed
    exact holdsStart
  | succ count ih =>
    obtain ⟨product, distributed, formed⟩ := Option.bind_eq_some_iff.mp formed
    exact ih formed (distributive.distribute distributed holdsStart holds)

end Distributive

/-- A quantity that sums add up and that products of two terms multiply, on trees with a
property. -/
structure DistributiveQuantity {R : Type*} [CommSemiring R] (property : Expr → Prop)
    (quantity : Expr → R) : Prop extends Distributive property where
  terms : ∀ e, property e → (e.terms.map quantity).sum = quantity e
  quantity_sum : ∀ es, (∀ e ∈ es, property e) → quantity (Expr.sum es) = (es.map quantity).sum
  quantity_product : ∀ left right, property left → property right → ∀ a ∈ left.terms,
    ∀ b ∈ right.terms, ∀ result, prod [a, b] = some result →
      quantity result = quantity a * quantity b

namespace DistributiveQuantity

variable {R : Type*} [CommSemiring R] {property : Expr → Prop} {quantity : Expr → R}

/-- Distributing multiplies the quantities. -/
theorem quantity_distribute (distributive : DistributiveQuantity property quantity)
    {left right result : Expr} (formed : Expr.distribute left right = some result)
    (holdsLeft : property left) (holdsRight : property right) :
    quantity result = quantity left * quantity right := by
  obtain ⟨products, multiplied, same⟩ := Option.bind_eq_some_iff.mp formed
  cases same
  have row : ∀ a ∈ left.terms, ∀ entries, (right.terms.mapM fun b => prod [a, b]) = some entries →
      (entries.map quantity).sum = quantity a * quantity right := by
    intro a inLeft entries formed
    have values : entries.map quantity = right.terms.map fun b => quantity a * quantity b :=
      map_eq_of_mapM formed _ fun b inRight product formed =>
        distributive.quantity_product left right holdsLeft holdsRight a inLeft b inRight _ formed
    rw [values, List.sum_map_mul_left, distributive.terms right holdsRight]
  have rows : (products.map fun entries => (entries.map quantity).sum) =
      left.terms.map fun a => quantity a * quantity right :=
    map_eq_of_mapM multiplied _ row
  have holds : ∀ product ∈ products.flatten, property product := by
    intro product member
    obtain ⟨entries, inside, member⟩ := List.mem_flatten.mp member
    obtain ⟨a, inLeft, formed⟩ := exists_of_mem_mapM multiplied inside
    obtain ⟨b, inRight, formed⟩ := exists_of_mem_mapM formed member
    exact distributive.product left right holdsLeft holdsRight a inLeft b inRight product formed
  rw [distributive.quantity_sum _ holds, List.map_flatten, List.sum_flatten, List.map_map]
  refine (congrArg List.sum rows).trans ?_
  rw [List.sum_map_mul_right, distributive.terms left holdsLeft]

/-- Distributing one factor after the other multiplies all of their quantities. -/
theorem quantity_distributeFrom (distributive : DistributiveQuantity property quantity)
    {es : List Expr} {start result : Expr} (formed : es.foldlM Expr.distribute start = some result)
    (holdsStart : property start) (holds : ∀ e ∈ es, property e) :
    quantity result = quantity start * (es.map quantity).prod := by
  induction es generalizing start with
  | nil =>
    cases formed
    rw [List.map_nil, List.prod_nil, mul_one]
  | cons e rest ih =>
    obtain ⟨first, later⟩ := List.forall_mem_cons.mp holds
    rw [List.foldlM_cons] at formed
    obtain ⟨product, distributed, formed⟩ := Option.bind_eq_some_iff.mp formed
    rw [ih formed (distributive.distribute distributed holdsStart first) later,
      distributive.quantity_distribute distributed holdsStart first, List.map_cons, List.prod_cons,
      mul_assoc]

/-- Distributing by one factor several times multiplies by a power of its quantity. -/
theorem quantity_distributeRepeatedly (distributive : DistributiveQuantity property quantity)
    {e : Expr} {count : Nat} {start result : Expr}
    (formed : Expr.distributeRepeatedly e count start = some result) (holdsStart : property start)
    (holds : property e) : quantity result = quantity start * quantity e ^ count := by
  induction count generalizing start with
  | zero =>
    cases formed
    rw [pow_zero, mul_one]
  | succ count ih =>
    obtain ⟨product, distributed, formed⟩ := Option.bind_eq_some_iff.mp formed
    rw [ih formed (distributive.distribute distributed holdsStart holds),
      distributive.quantity_distribute distributed holdsStart holds, pow_succ', mul_assoc]

end DistributiveQuantity

/-- A property that sums and products have if their operands do, and that the terms of a sum have if
the sum does. -/
structure Closed (property : Expr → Prop) : Prop where
  num : ∀ value, property (.num value)
  sum : ∀ es, (∀ e ∈ es, property e) → property (sum es)
  prod : ∀ es result, prod es = some result → (∀ e ∈ es, property e) → property result
  terms : ∀ e, property e → ∀ term ∈ e.terms, property term

namespace Closed

variable {property : Expr → Prop}

theorem prod_pair (closed : Closed property) {left right result : Expr}
    (formed : Expr.prod [left, right] = some result) (holdsLeft : property left)
    (holdsRight : property right) : property result :=
  closed.prod _ _ formed (forall_mem_pair ⟨holdsLeft, holdsRight⟩)

/-- The property passes to the negative of a tree. -/
theorem neg (closed : Closed property) {e result : Expr}
    (formed : Expr.neg e = some result) (holds : property e) : property result :=
  closed.prod_pair formed (closed.num _) holds

/-- The property passes to a difference. -/
theorem sub (closed : Closed property) {left right result : Expr}
    (formed : Expr.sub left right = some result) (holdsLeft : property left)
    (holdsRight : property right) : property result := by
  obtain ⟨negated, negates, same⟩ := Option.bind_eq_some_iff.mp formed
  cases same
  exact closed.sum _ (forall_mem_pair ⟨holdsLeft, closed.neg negates holdsRight⟩)

/-- Distributing takes the terms of trees only, and multiplies them. -/
theorem distributive (closed : Closed property) : Distributive property where
  num := closed.num
  sum := closed.sum
  product left right holdsLeft holdsRight a inLeft b inRight _ formed :=
    closed.prod_pair formed (closed.terms left holdsLeft a inLeft)
      (closed.terms right holdsRight b inRight)

theorem distributeFrom (closed : Closed property) {es : List Expr}
    {start result : Expr} (formed : es.foldlM Expr.distribute start = some result)
    (holdsStart : property start) (holds : ∀ e ∈ es, property e) : property result :=
  closed.distributive.distributeFrom formed holdsStart holds

theorem distributeRepeatedly (closed : Closed property) {e : Expr} {count : Nat}
    {start result : Expr} (formed : Expr.distributeRepeatedly e count start = some result)
    (holdsStart : property start) (holds : property e) : property result :=
  closed.distributive.distributeRepeatedly formed holdsStart holds

/-- The property passes from all components of two vectors to their inner product. -/
theorem innerProduct (closed : Closed property) {left right : List Expr}
    {result : Expr} (formed : Expr.innerProduct left right = some result)
    (holdsLeft : ∀ e ∈ left, property e) (holdsRight : ∀ e ∈ right, property e) :
    property result := by
  obtain ⟨products, multiplied, same⟩ := Option.bind_eq_some_iff.mp formed
  cases same
  refine closed.sum _ fun e present => ?_
  obtain ⟨⟨a, b⟩, member, formed⟩ := exists_of_mem_mapM multiplied present
  exact closed.prod_pair formed (holdsLeft a (List.of_mem_zip member).1)
    (holdsRight b (List.of_mem_zip member).2)

end Closed

/-- A property that sums, products and powers have if their operands do, where the bases of negative
powers have a second property. -/
structure Powered (property ofBase : Expr → Prop) : Prop extends Closed property where
  power : ∀ e exponent result, Expr.power e exponent = some result → property e →
    (exponent.val < 0 → ofBase e) → property result

/-- The property passes to a quotient if the divisor may be the base of a negative power. -/
theorem Powered.quot {property ofBase : Expr → Prop} (powered : Powered property ofBase)
    {left right result : Expr} (formed : Expr.quot left right = some result)
    (holdsLeft : property left) (holdsRight : property right) (nonzero : ofBase right) :
    property result := by
  obtain ⟨inverse, inverts, multiplied⟩ := Option.bind_eq_some_iff.mp formed
  exact powered.prod_pair multiplied holdsLeft
    (powered.power _ _ _ inverts holdsRight fun _ => nonzero)

namespace Composed

variable {property ofBase : Expr → Prop}

/-- The terms of a sum have the property. -/
theorem of_mem_terms (composed : Composed property ofBase) {e : Expr} (holds : property e) :
    ∀ term ∈ e.terms, property term := by
  cases e with
  | add terms => exact composed.terms terms holds
  | _ => simpa [Expr.terms] using holds

/-- What sums, products and powers are composed of is closed under sums and products. -/
theorem closed (composed : Composed property ofBase) : Closed property where
  num := composed.num
  sum _ holds := composed.sum holds
  prod _ _ formed holds := composed.prod formed holds
  terms _ holds := composed.of_mem_terms holds

theorem powered (composed : Composed property ofBase) : Powered property ofBase where
  toClosed := composed.closed
  power _ _ _ formed holds base := composed.power formed holds base

end Composed

namespace Hereditary

variable {property ofBase : Expr → Prop}

/-- A property of all nodes that sums, products and powers cannot violate. -/
theorem ofNodes (ofNode : Expr → Prop) (num : ∀ value, ofNode (.num value))
    (add : ∀ terms, ofNode (.add terms)) (mul : ∀ factors, ofNode (.mul factors))
    (pow : ∀ base exponent, ofNode (.pow base exponent)) :
    Hereditary (fun e => ∀ subterm ∈ e.subterms, ofNode subterm) fun _ => True where
  num value := (forall_subterms_iff ofNode).mpr ⟨num value, fun _ member => nomatch member⟩
  add_iff terms := (forall_subterms_iff ofNode).trans (and_iff_right (add terms))
  mul_iff factors := (forall_subterms_iff ofNode).trans (and_iff_right (mul factors))
  pow_iff base exponent := by
    rw [forall_subterms_iff ofNode, and_iff_right (pow base exponent)]
    simp [args]
  base_of_mul _ _ _ _ := trivial
  base_of_pow _ _ _ _ := trivial

/-- The terms of a sum have the property if the sum does. -/
theorem terms (hereditary : Hereditary property ofBase) {e : Expr} (holds : property e) :
    ∀ term ∈ e.terms, property term :=
  hereditary.composed.of_mem_terms holds

/-- A tree has the property if all of its terms do. -/
theorem of_terms (hereditary : Hereditary property ofBase) {e : Expr}
    (holds : ∀ term ∈ e.terms, property term) : property e := by
  cases e with
  | add terms => exact (hereditary.add_iff terms).mpr holds
  | _ => exact holds _ (List.mem_singleton_self _)

/-- A tree has the property if all of its factors do. -/
theorem of_factors (hereditary : Hereditary property ofBase) {e : Expr}
    (holds : ∀ factor ∈ e.factors, property factor) : property e := by
  cases e with
  | mul factors => exact (hereditary.mul_iff factors).mpr holds
  | _ => exact holds _ (List.mem_singleton_self _)

/-- A property that passes between trees and their parts is closed under sums and products. -/
theorem closed (hereditary : Hereditary property ofBase) : Closed property :=
  hereditary.composed.closed

theorem powered (hereditary : Hereditary property ofBase) : Powered property ofBase :=
  hereditary.composed.powered

theorem prod_pair (hereditary : Hereditary property ofBase) {left right result : Expr}
    (formed : Expr.prod [left, right] = some result) (holdsLeft : property left)
    (holdsRight : property right) : property result :=
  hereditary.closed.prod_pair formed holdsLeft holdsRight

/-- The property passes to the negative of a tree. -/
theorem neg (hereditary : Hereditary property ofBase) {e result : Expr}
    (formed : Expr.neg e = some result) (holds : property e) : property result :=
  hereditary.closed.neg formed holds

/-- The property passes to a difference. -/
theorem sub (hereditary : Hereditary property ofBase) {left right result : Expr}
    (formed : Expr.sub left right = some result) (holdsLeft : property left)
    (holdsRight : property right) : property result :=
  hereditary.closed.sub formed holdsLeft holdsRight

/-- The property passes to a quotient if the divisor may be the base of a negative power. -/
theorem quot (hereditary : Hereditary property ofBase) {left right result : Expr}
    (formed : Expr.quot left right = some result) (holdsLeft : property left)
    (holdsRight : property right) (nonzero : ofBase right) : property result :=
  hereditary.powered.quot formed holdsLeft holdsRight nonzero

/-- The property passes to a distributed product. -/
theorem distribute (hereditary : Hereditary property ofBase) {left right result : Expr}
    (formed : Expr.distribute left right = some result) (holdsLeft : property left)
    (holdsRight : property right) : property result :=
  hereditary.closed.distributive.distribute formed holdsLeft holdsRight

/-- The property passes to a product that is distributed from left to right. -/
theorem distributeFrom (hereditary : Hereditary property ofBase) {es : List Expr}
    {start result : Expr} (formed : es.foldlM Expr.distribute start = some result)
    (holdsStart : property start) (holds : ∀ e ∈ es, property e) : property result :=
  hereditary.closed.distributeFrom formed holdsStart holds

/-- The property passes to a power that is multiplied out. -/
theorem distributeRepeatedly (hereditary : Hereditary property ofBase) {e : Expr} {count : Nat}
    {start result : Expr} (formed : Expr.distributeRepeatedly e count start = some result)
    (holdsStart : property start) (holds : property e) : property result :=
  hereditary.closed.distributeRepeatedly formed holdsStart holds

/-- The property passes from all components of two vectors to their inner product. -/
theorem innerProduct (hereditary : Hereditary property ofBase) {left right : List Expr}
    {result : Expr} (formed : Expr.innerProduct left right = some result)
    (holdsLeft : ∀ e ∈ left, property e) (holdsRight : ∀ e ∈ right, property e) :
    property result :=
  hereditary.closed.innerProduct formed holdsLeft holdsRight

end Hereditary

end FiniteVolume.Expr
