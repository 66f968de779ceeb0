import FiniteVolume.Expr.Product
import FiniteVolume.Proofs.Expr.Tally
import FiniteVolume.Proofs.PartialMap

/-!
# What sums, products and powers are made of

Canonical sums, products and powers only rearrange the parts of their operands. A property of trees
that passes to parts and back to what the operators write (`Composed`), such as one that sums,
products and powers have exactly when their operands have it (`Hereditary`), is therefore kept by
all three (`Composed.sum`, `Composed.prod`, `Composed.power`). Negative powers may ask for more: a
second property of their bases, which passes from products to factors and from powers to bases.
-/

namespace FiniteVolume.Expr

/-- A property of trees that passes between sums, products and powers and their operands, and a
property that it asks of every base of a negative power. -/
structure Hereditary (property ofBase : Expr → Prop) : Prop where
  num : ∀ value, property (.num value)
  add_iff : ∀ terms, property (.add terms) ↔ ∀ term ∈ terms, property term
  mul_iff : ∀ factors, property (.mul factors) ↔ ∀ factor ∈ factors, property factor
  pow_iff : ∀ base exponent, property (.pow base exponent) ↔
    property base ∧ (exponent.val < 0 → ofBase base)
  base_of_mul : ∀ factors, ofBase (.mul factors) → ∀ factor ∈ factors, ofBase factor
  base_of_pow : ∀ base exponent, ofBase (.pow base exponent) → exponent.val ≠ 0 → ofBase base

section Hereditary

variable {property ofBase : Expr → Prop}

/-- A sum of one term has the property exactly when the term does. -/
theorem Hereditary.add_singleton_iff (hereditary : Hereditary property ofBase) (term : Expr) :
    property (.add [term]) ↔ property term := by
  rw [hereditary.add_iff, List.forall_mem_singleton]

/-- A product of one factor has the property exactly when the factor does. -/
theorem Hereditary.mul_singleton_iff (hereditary : Hereditary property ofBase) (factor : Expr) :
    property (.mul [factor]) ↔ property factor := by
  rw [hereditary.mul_iff, List.forall_mem_singleton]

/-- A sum has the property if its last term and the sum of the terms before it do. -/
theorem Hereditary.add_concat_iff (hereditary : Hereditary property ofBase) (terms : List Expr)
    (term : Expr) : property (.add (terms ++ [term])) ↔ property (.add terms) ∧ property term := by
  rw [hereditary.add_iff, hereditary.add_iff, List.forall_mem_append, List.forall_mem_singleton]

/-- A product has the property if its last factor and the product of the factors before it do. -/
theorem Hereditary.mul_concat_iff (hereditary : Hereditary property ofBase) (factors : List Expr)
    (factor : Expr) :
    property (.mul (factors ++ [factor])) ↔ property (.mul factors) ∧ property factor := by
  rw [hereditary.mul_iff, hereditary.mul_iff, List.forall_mem_append, List.forall_mem_singleton]

end Hereditary

/-- A statement about trees holds if it passes from the children of every tree to the tree. -/
@[elab_as_elim]
theorem induction_args {motive : Expr → Prop}
    (step : ∀ e, (∀ arg ∈ e.args, motive arg) → motive e) (e : Expr) : motive e := by
  induction e with
  | num value | sym name => exact step _ fun _ member => nomatch member
  | pow base exponent ih => exact step _ (List.forall_mem_singleton.mpr ih)
  | add es ih | mul es ih | vector es ih | call head es ih => exact step _ ih

/-- A statement about all subtrees is one about the tree itself and all subtrees of its children. -/
theorem forall_subterms_iff (property : Expr → Prop) {e : Expr} :
    (∀ subterm ∈ e.subterms, property subterm) ↔
      property e ∧ ∀ arg ∈ e.args, ∀ subterm ∈ arg.subterms, property subterm := by
  rw [subterms_eq_cons, List.forall_mem_cons]
  simp only [List.mem_flatMap, forall_exists_index, and_imp]
  exact and_congr_right' ⟨fun all arg member subterm inside => all subterm arg member inside,
    fun all subterm arg member inside => all arg member subterm inside⟩

/-- The subtrees of a child are subtrees of the tree. -/
theorem mem_subterms_of_arg {e arg subterm : Expr} (member : arg ∈ e.args)
    (inside : subterm ∈ arg.subterms) : subterm ∈ e.subterms := by
  rw [subterms_eq_cons e]
  exact List.mem_cons_of_mem _ (List.mem_flatMap.mpr ⟨arg, member, inside⟩)

/-- The subtrees of a subtree are subtrees. -/
theorem mem_subterms_trans {e subterm inner : Expr} (member : subterm ∈ e.subterms)
    (inside : inner ∈ subterm.subterms) : inner ∈ e.subterms := by
  induction e using induction_args with
  | step e ih =>
    rw [subterms_eq_cons, List.mem_cons, List.mem_flatMap] at member
    obtain rfl | ⟨arg, isArg, member⟩ := member
    · exact inside
    · exact mem_subterms_of_arg isArg (ih arg isArg member)

/-- The tree that tests as zero is the number zero. -/
theorem eq_zero_of_isZero {e : Expr} (isZero : e.isZero = true) : e = zero := by
  cases e with
  | num value => exact congrArg Expr.num (of_decide_eq_true isZero)
  | _ => cases isZero

/-- Every base of a negative power in a tree has a property. -/
def NegativeBases (ofBase : Expr → Prop) (e : Expr) : Prop :=
  ∀ base exponent, .pow base exponent ∈ e.subterms → exponent.val < 0 → ofBase base

/-- The condition on negative powers is asked of a tree itself and of its children. -/
theorem negativeBases_iff {ofBase : Expr → Prop} {e : Expr} :
    e.NegativeBases ofBase ↔
      (∀ base exponent, e = .pow base exponent → exponent.val < 0 → ofBase base) ∧
        ∀ arg ∈ e.args, arg.NegativeBases ofBase := by
  have node := forall_subterms_iff (fun subterm => ∀ base exponent,
    subterm = .pow base exponent → exponent.val < 0 → ofBase base) (e := e)
  have restate : ∀ e : Expr, e.NegativeBases ofBase ↔ ∀ subterm ∈ e.subterms,
      ∀ base exponent, subterm = .pow base exponent → exponent.val < 0 → ofBase base := by
    intro e
    constructor
    · rintro bases subterm member base exponent rfl
      exact bases base exponent member
    · intro bases base exponent member
      exact bases _ member base exponent rfl
  simpa only [restate] using node

/-- The children of a tree keep its condition on negative powers. -/
theorem NegativeBases.arg {ofBase : Expr → Prop} {e arg : Expr} (bases : e.NegativeBases ofBase)
    (member : arg ∈ e.args) : arg.NegativeBases ofBase :=
  (negativeBases_iff.mp bases).2 arg member

/-- That all bases of negative powers have a property passes between sums, products and powers and
their operands. -/
theorem Hereditary.negativeBases {ofBase : Expr → Prop}
    (base_of_mul : ∀ factors, ofBase (.mul factors) → ∀ factor ∈ factors, ofBase factor)
    (base_of_pow : ∀ base exponent, ofBase (.pow base exponent) → exponent.val ≠ 0 → ofBase base) :
    Hereditary (NegativeBases ofBase) ofBase where
  num value := negativeBases_iff.mpr ⟨fun _ _ => by simp, fun _ member => nomatch member⟩
  add_iff terms := negativeBases_iff.trans ⟨fun bases => bases.2, fun bases =>
    ⟨fun _ _ => by simp, bases⟩⟩
  mul_iff factors := negativeBases_iff.trans ⟨fun bases => bases.2, fun bases =>
    ⟨fun _ _ => by simp, bases⟩⟩
  pow_iff base exponent := by
    rw [negativeBases_iff, and_comm]
    refine and_congr ?_ ?_
    · simp [args]
    · refine ⟨fun bases => bases base exponent rfl, fun bases _ _ same => ?_⟩
      cases same
      exact bases
  base_of_mul := base_of_mul
  base_of_pow := base_of_pow

/-- A symbol occurs in a tree that is this symbol or has a child with it. -/
theorem hasSymbol_iff {e : Expr} {name : String} :
    e.hasSymbol name = true ↔ e = .sym name ∨ ∃ arg ∈ e.args, arg.hasSymbol name = true := by
  have symbol : e.symbol? = some name ↔ e = .sym name := by
    cases e <;> simp [symbol?]
  simp only [hasSymbol, subterms_eq_cons e, List.any_cons, Bool.or_eq_true, List.any_flatMap,
    List.any_eq_true, beq_iff_eq, symbol]

/-- A symbol is absent from a tree that is not the symbol if it is absent from all children. -/
theorem hasSymbol_eq_false_iff {e : Expr} {name : String} :
    e.hasSymbol name = false ↔ e ≠ .sym name ∧ ∀ arg ∈ e.args, arg.hasSymbol name = false := by
  rw [← Bool.not_eq_true, hasSymbol_iff]
  simp

/-- A symbol occurs in a tree that has it among its subtrees. -/
theorem hasSymbol_iff_mem {e : Expr} {name : String} :
    e.hasSymbol name = true ↔ .sym name ∈ e.subterms := by
  rw [hasSymbol, List.any_eq_true]
  constructor
  · rintro ⟨subterm, member, same⟩
    cases subterm with
    | sym other =>
      cases (show other = name by simpa [symbol?] using same)
      exact member
    | _ => simp [symbol?] at same
  · exact fun member => ⟨.sym name, member, by simp [symbol?]⟩

/-- The search for a symbol finds it exactly when it is one of the subtrees. -/
theorem hasSymbol_eq_false_iff_not_mem {e : Expr} {name : String} :
    e.hasSymbol name = false ↔ .sym name ∉ e.subterms := by
  rw [← Bool.not_eq_true, hasSymbol_iff_mem]

theorem forall_mem_pair {property : Expr → Prop} {left right : Expr}
    (both : property left ∧ property right) : ∀ e ∈ [left, right], property e :=
  List.forall_mem_cons.mpr ⟨both.1, List.forall_mem_singleton.mpr both.2⟩

/-- A tree that tests as a number is one. -/
theorem eq_num_of_isNum {e : Expr} (isNum : e.isNum = true) : ∃ value, e = .num value := by
  cases e with
  | num value => exact ⟨value, rfl⟩
  | _ => simp [Expr.isNum, value?] at isNum

/-- The summands of a tree are the terms of a sum, and the tree itself otherwise. -/
theorem summands_cases (e : Expr) : (∃ terms, e = .add terms) ∨ e.summands = [e] := by
  cases e <;> simp [summands]

/-- The loose factors of a tree are those of a product, and the tree itself otherwise. -/
theorem looseFactors_cases (e : Expr) : (∃ factors, e = .mul factors) ∨ e.looseFactors = [e] := by
  cases e <;> simp [looseFactors]

/-- The coefficient of a term is its first factor, if this is a number. -/
theorem splitCoefficient_cases (e : Expr) :
    (∃ coefficient factor, e = .mul [.num coefficient, factor] ∧
      e.splitCoefficient = (coefficient, factor)) ∨
    (∃ coefficient factors, e = .mul (.num coefficient :: factors) ∧ factors.length ≠ 1 ∧
      e.splitCoefficient = (coefficient, .mul factors)) ∨
    e.splitCoefficient = (1, e) := by
  unfold splitCoefficient
  split
  · exact Or.inl ⟨_, _, rfl, rfl⟩
  · rename_i coefficient factors notPair
    refine Or.inr (Or.inl ⟨coefficient, factors, rfl, fun single => ?_, rfl⟩)
    obtain ⟨factor, rfl⟩ := List.length_eq_one_iff.mp single
    exact notPair factor rfl
  · exact Or.inr (Or.inr rfl)

/-- A number among the terms of a sum goes to the constant. -/
theorem LikeTerms.insert_num (value : Rat) (collected : LikeTerms) :
    LikeTerms.insert (.num value) collected =
      { collected with constant := collected.constant + value } :=
  rfl

/-- Adding a term that is no number adds its coefficient to that of its monomial. -/
theorem LikeTerms.insert_of_not_num {term : Expr} (notNum : term.isNum = false)
    (collected : LikeTerms) :
    LikeTerms.insert term collected =
      { collected with
        coefficients := collected.coefficients.insert term.splitCoefficient.2
          ((collected.coefficients.get? term.splitCoefficient.2).getD 0 +
            term.splitCoefficient.1) } := by
  cases term <;> first | rfl | simp [isNum, value?] at notNum

/-- A property of trees that passes between sums and their terms, and between terms and their
monomials. -/
structure Termwise (property : Expr → Prop) : Prop where
  num : ∀ value, property (.num value)
  terms : ∀ terms, property (.add terms) → ∀ term ∈ terms, property term
  add : ∀ first second rest, (∀ term ∈ first :: second :: rest, property term) →
    property (.add (first :: second :: rest))
  splitCoefficient : ∀ term, property term → property term.splitCoefficient.2
  scale : ∀ coefficient monomial, property monomial → property (scale coefficient monomial)

namespace Termwise

variable {property : Expr → Prop}

/-- The summands of a tree have the property. -/
theorem summands (termwise : Termwise property) (e : Expr) (holds : property e) :
    ∀ term ∈ e.summands, property term := by
  induction e with
  | add terms ih =>
    intro term member
    rw [Expr.summands, summandsOfAll_eq_flatMap, List.mem_flatMap] at member
    obtain ⟨source, inside, member⟩ := member
    exact ih source inside (termwise.terms terms holds source inside) term member
  | _ => simpa [Expr.summands] using holds

/-- Collecting like terms keeps them in order, and their monomials have the property. -/
theorem likeTerms (termwise : Termwise property) {terms : List Expr}
    (holds : ∀ term ∈ terms, property term) :
    (LikeTerms.ofTerms terms).coefficients.Ascending ∧
      ∀ entry ∈ (LikeTerms.ofTerms terms).coefficients, property entry.1 := by
  induction terms with
  | nil => exact ⟨.nil, fun _ member => nomatch member⟩
  | cons term rest ih =>
    obtain ⟨first, later⟩ := List.forall_mem_cons.mp holds
    obtain ⟨ascending, keys⟩ := ih later
    change (LikeTerms.insert term (LikeTerms.ofTerms rest)).coefficients.Ascending ∧
      ∀ entry ∈ (LikeTerms.insert term (LikeTerms.ofTerms rest)).coefficients, property entry.1
    cases isNum : term.isNum with
    | true =>
      obtain ⟨value, rfl⟩ := eq_num_of_isNum isNum
      exact ⟨ascending, keys⟩
    | false =>
      rw [LikeTerms.insert_of_not_num isNum]
      refine ⟨Tally.insert_ascending ascending, fun entry member => ?_⟩
      rcases (Tally.mem_insert ascending).mp member with rfl | ⟨member, -⟩
      · exact termwise.splitCoefficient _ first
      · exact keys entry member

/-- The sum of the terms collected from trees with the property has it. -/
theorem ofTerms (termwise : Termwise property) {terms : List Expr}
    (holds : ∀ term ∈ terms, property term) : property (ofTerms terms) := by
  match terms with
  | [] => exact termwise.num 0
  | [term] => exact holds term List.mem_cons_self
  | first :: second :: rest => exact termwise.add first second rest holds

/-- A sum is made of the parts of its terms. -/
theorem sum (termwise : Termwise property) {es : List Expr}
    (holds : ∀ e ∈ es, property e) : property (sum es) := by
  have summands : ∀ term ∈ summandsOfAll es, property term := by
    intro term member
    rw [summandsOfAll_eq_flatMap, List.mem_flatMap] at member
    obtain ⟨e, inside, member⟩ := member
    exact termwise.summands e (holds e inside) term member
  have keys := (termwise.likeTerms summands).2
  apply termwise.ofTerms
  intro term member
  rw [LikeTerms.toTerms, mem_sort] at member
  have scaled : ∀ term ∈ ((LikeTerms.ofTerms (summandsOfAll es)).coefficients.filter
      fun entry => LikeTerms.keeps entry.1 entry.2).map fun entry => Expr.scale entry.2 entry.1,
      property term := by
    intro term member
    obtain ⟨entry, kept, rfl⟩ := List.mem_map.mp member
    exact termwise.scale _ _ (keys entry (List.mem_filter.mp kept).1)
  split at member
  · exact scaled term member
  · rcases List.mem_append.mp member with member | member
    · exact scaled term member
    · rw [List.mem_singleton.mp member]
      exact termwise.num _

end Termwise

/-- Collected monomials are listed in ascending order. -/
theorem LikeTerms.ascending_ofTerms (terms : List Expr) :
    (LikeTerms.ofTerms terms).coefficients.Ascending := by
  have always : Termwise fun _ => True := by
    constructor <;> simp
  exact (always.likeTerms fun _ _ => trivial).1

/-- A property of trees that passes to the terms, factors and bases that trees are composed of, and
back to what sums, products and powers are written as: sums of several terms, products, and powers
that are no positive powers of zero. Bases of negative powers have a second property. -/
structure Composed (property ofBase : Expr → Prop) : Prop where
  num : ∀ value, property (.num value)
  terms : ∀ terms, property (.add terms) → ∀ term ∈ terms, property term
  add : ∀ first second rest, (∀ term ∈ first :: second :: rest, property term) →
    property (.add (first :: second :: rest))
  mul_iff : ∀ factors, property (.mul factors) ↔ ∀ factor ∈ factors, property factor
  of_pow : ∀ base exponent, property (.pow base exponent) →
    property base ∧ (exponent.val < 0 → ofBase base)
  pow : ∀ base exponent, property base → (exponent.val < 0 → ofBase base) →
    exponent.val ≠ 0 → (base = zero → exponent.val < 0) → property (.pow base exponent)
  base_of_mul : ∀ factors, ofBase (.mul factors) → ∀ factor ∈ factors, ofBase factor
  base_of_pow : ∀ base exponent, ofBase (.pow base exponent) → exponent.val ≠ 0 → ofBase base

/-- Sums, products and powers compose a property that they have exactly when their operands do. -/
theorem Hereditary.composed {property ofBase : Expr → Prop}
    (hereditary : Hereditary property ofBase) : Composed property ofBase where
  num := hereditary.num
  terms terms := (hereditary.add_iff terms).mp
  add _ _ _ := (hereditary.add_iff _).mpr
  mul_iff := hereditary.mul_iff
  of_pow base exponent := (hereditary.pow_iff base exponent).mp
  pow base exponent holds negative _ _ := (hereditary.pow_iff base exponent).mpr ⟨holds, negative⟩
  base_of_mul := hereditary.base_of_mul
  base_of_pow := hereditary.base_of_pow

namespace Composed

variable {property ofBase : Expr → Prop}

/-- The property passes to the monomial of a term without its coefficient. -/
theorem splitCoefficient (composed : Composed property ofBase) {e : Expr}
    (holds : property e) : property e.splitCoefficient.2 := by
  rcases splitCoefficient_cases e with ⟨c, factor, rfl, split⟩ | ⟨c, factors, rfl, -, split⟩ | split
  · rw [split]
    exact (composed.mul_iff _).mp holds factor (by simp)
  · rw [split]
    refine (composed.mul_iff factors).mpr fun factor member => ?_
    exact (composed.mul_iff _).mp holds factor (List.mem_cons_of_mem _ member)
  · rw [split]
    exact holds

/-- The property passes to multiples of a monomial. -/
theorem scale (composed : Composed property ofBase) (coefficient : Rat) {monomial : Expr}
    (holds : property monomial) : property (scale coefficient monomial) := by
  unfold Expr.scale
  split
  · exact holds
  · cases monomial with
    | mul factors =>
      simp only [composed.mul_iff, List.forall_mem_cons] at holds ⊢
      exact ⟨composed.num coefficient, holds⟩
    | _ =>
      simp only [composed.mul_iff, List.forall_mem_cons]
      exact ⟨composed.num coefficient, holds, fun _ member => nomatch member⟩

/-- A property of what is composed passes from term to term. -/
theorem termwise (composed : Composed property ofBase) : Termwise property where
  num := composed.num
  terms := composed.terms
  add := composed.add
  splitCoefficient _ holds := composed.splitCoefficient holds
  scale coefficient _ holds := composed.scale coefficient holds

/-- A sum is made of the parts of its terms. -/
theorem sum (composed : Composed property ofBase) {es : List Expr}
    (holds : ∀ e ∈ es, property e) : property (sum es) :=
  composed.termwise.sum holds

/-- The loose factors of a tree have the property. -/
theorem looseFactors (composed : Composed property ofBase) (e : Expr) (holds : property e) :
    ∀ factor ∈ e.looseFactors, property factor := by
  induction e with
  | mul factors ih =>
    intro factor member
    rw [Expr.looseFactors, looseFactorsOfAll_eq_flatMap, List.mem_flatMap] at member
    obtain ⟨source, inside, member⟩ := member
    exact ih source inside ((composed.mul_iff factors).mp holds source inside) factor member
  | _ => simpa [Expr.looseFactors] using holds

/-- The loose factors of several trees have the property. -/
theorem looseFactorsOfAll (composed : Composed property ofBase) {es : List Expr}
    (holds : ∀ e ∈ es, property e) : ∀ factor ∈ looseFactorsOfAll es, property factor := by
  intro factor member
  rw [looseFactorsOfAll_eq_flatMap, List.mem_flatMap] at member
  obtain ⟨e, inside, member⟩ := member
  exact composed.looseFactors e (holds e inside) factor member

/-- An entry of collected factors whose power has the property. -/
def Entry (property ofBase : Expr → Prop) (entry : Expr × Exponent) : Prop :=
  property entry.1 ∧ (entry.2.val < 0 → ofBase entry.1)

/-- One more power keeps the collected factors in order and their powers with the property. -/
theorem insertPower {collected after : LikeFactors} {base : Expr} {exponent : Exponent}
    (ascending : collected.exponents.Ascending)
    (entries : ∀ entry ∈ collected.exponents, Entry property ofBase entry)
    (new : Entry property ofBase (base, exponent))
    (inserted : collected.insertPower base exponent = some after) :
    after.exponents.Ascending ∧ ∀ entry ∈ after.exponents, Entry property ofBase entry := by
  obtain ⟨total, added, same⟩ := Option.bind_eq_some_iff.mp inserted
  cases same
  refine ⟨Tally.insert_ascending ascending, fun entry member => ?_⟩
  rcases (Tally.mem_insert ascending).mp member with rfl | ⟨member, -⟩
  · refine ⟨new.1, fun negative => ?_⟩
    change total.val < 0 at negative
    have value := Exponent.val_of_add? added
    cases found : collected.exponents.get? base with
    | none =>
      rw [found] at value
      simp only [Option.getD_none, Exponent.zero, zero_add] at value
      exact new.2 (value ▸ negative)
    | some before =>
      rw [found, Option.getD_some] at value
      by_cases newNegative : exponent.val < 0
      · exact new.2 newNegative
      · exact (entries _ (Tally.mem_of_get? found)).2 (by simp only; omega)
  · exact entries entry member

/-- Collecting like factors keeps them in order, and their powers have the property. -/
theorem likeFactors (composed : Composed property ofBase) {factors : List Expr}
    (holds : ∀ factor ∈ factors, property factor) {collected : LikeFactors}
    (defined : LikeFactors.ofFactors factors = some collected) :
    collected.exponents.Ascending ∧
      ∀ entry ∈ collected.exponents, Entry property ofBase entry := by
  induction factors generalizing collected with
  | nil =>
    cases defined
    exact ⟨.nil, fun _ member => nomatch member⟩
  | cons factor rest ih =>
    obtain ⟨first, later⟩ := List.forall_mem_cons.mp holds
    obtain ⟨before, collects, inserted⟩ := Option.bind_eq_some_iff.mp defined
    obtain ⟨ascending, entries⟩ := ih later collects
    have single : Entry property ofBase (factor, Exponent.one) :=
      ⟨first, fun negative => absurd negative (show ¬Exponent.one.val < 0 by decide)⟩
    cases factor with
    | num value =>
      cases inserted
      exact ⟨ascending, entries⟩
    | pow base exponent =>
      exact insertPower ascending entries (composed.of_pow base exponent first) inserted
    | _ => exact insertPower ascending entries single inserted

/-- A power is made of the parts of its base, if products are. -/
theorem raise (composed : Composed property ofBase) {product : List Expr → Option Expr}
    (products : ∀ es e, product es = some e → (∀ x ∈ es, property x) → property e) (e : Expr) :
    ∀ exponent result, raise product e exponent = some result → property e →
      (exponent.val < 0 → ofBase e) → property result := by
  induction e with
  | num value =>
    intro exponent result defined holds ofBase
    unfold Expr.raise at defined
    split at defined
    · cases defined
      exact composed.num 1
    · rename_i nonzero
      split at defined
      · cases defined
        exact holds
      · dsimp only at defined
        split at defined
        · rename_i singular
          cases defined
          exact composed.pow _ _ holds ofBase nonzero fun _ => singular.2
        · cases defined
          exact composed.num _
  | pow base inner ih =>
    intro exponent result defined holds ofBase
    unfold Expr.raise at defined
    split at defined
    · cases defined
      exact composed.num 1
    · split at defined
      · cases defined
        exact holds
      · obtain ⟨total, multiplied, raised⟩ := Option.bind_eq_some_iff.mp defined
        obtain ⟨holdsBase, innerBase⟩ := composed.of_pow _ _ holds
        refine ih total result raised holdsBase fun negative => ?_
        rw [Exponent.val_of_mul? multiplied] at negative
        rcases mul_neg_iff.mp negative with ⟨positive, negative⟩ | ⟨negative, -⟩
        · exact composed.base_of_pow _ _ (ofBase negative) (ne_of_gt positive)
        · exact innerBase negative
  | mul factors ih =>
    intro exponent result defined holds ofBase
    unfold Expr.raise at defined
    split at defined
    · cases defined
      exact composed.num 1
    · split at defined
      · cases defined
        exact holds
      · obtain ⟨powers, raised, multiplied⟩ := Option.bind_eq_some_iff.mp defined
        rw [raiseAll_eq_mapM] at raised
        refine products powers result multiplied fun power present => ?_
        obtain ⟨factor, member, raises⟩ := exists_of_mem_mapM raised present
        exact ih factor member exponent power raises ((composed.mul_iff _).mp holds factor member)
          fun negative => composed.base_of_mul _ (ofBase negative) factor member
  | _ =>
    intro exponent result defined holds ofBase
    unfold Expr.raise at defined
    split at defined
    · cases defined
      exact composed.num 1
    · rename_i nonzero
      split at defined
      · cases defined
        exact holds
      · cases defined
        exact composed.pow _ _ holds ofBase nonzero (by simp [zero])

/-- The product of the factors collected from trees with the property has it. -/
theorem ofFactors (composed : Composed property ofBase) {product : List Expr → Option Expr}
    (products : ∀ es e, product es = some e → (∀ x ∈ es, property x) → property e)
    {coefficient : Rat} {factors : List Expr} {result : Expr}
    (defined : ofFactors product coefficient factors = some result)
    (holds : ∀ factor ∈ factors, property factor) : property result := by
  unfold Expr.ofFactors at defined
  split at defined
  · cases defined
    exact composed.num _
  · rename_i terms
    have holdsSum : property (.add terms) := holds _ List.mem_cons_self
    split at defined
    · cases defined
      exact holdsSum
    · obtain ⟨scaled, multiplied, same⟩ := Option.bind_eq_some_iff.mp defined
      cases same
      refine composed.sum fun e present => ?_
      obtain ⟨term, member, multiplies⟩ := exists_of_mem_mapM multiplied present
      refine products _ e multiplies fun x member' => ?_
      rcases List.mem_cons.mp member' with rfl | member'
      · exact composed.num _
      · rw [List.mem_singleton.mp member']
        exact composed.terms terms holdsSum term member
  · cases defined
    exact composed.scale _ (holds _ List.mem_cons_self)
  · split at defined
    · cases defined
      exact (composed.mul_iff _).mpr holds
    · cases defined
      exact (composed.mul_iff _).mpr (List.forall_mem_cons.mpr ⟨composed.num _, holds⟩)

/-- The factors of a tree have the property. -/
theorem factors (composed : Composed property ofBase) {e : Expr} (holds : property e) :
    ∀ factor ∈ e.factors, property factor := by
  cases e with
  | mul factors => exact (composed.mul_iff factors).mp holds
  | _ => simpa [Expr.factors] using holds

/-- Products of operands with the property have it, at whatever depth they are computed. -/
theorem prodToDepth (composed : Composed property ofBase) (depth : Nat) :
    ∀ es e, prodToDepth depth es = some e → (∀ x ∈ es, property x) → property e := by
  induction depth with
  | zero =>
    intro es e defined holds
    cases defined
    exact (composed.mul_iff es).mpr holds
  | succ depth ih =>
    intro es e defined holds
    obtain ⟨collected, collects, defined⟩ := Option.bind_eq_some_iff.mp defined
    have entries := (composed.likeFactors (composed.looseFactorsOfAll holds) collects).2
    split at defined
    · cases defined
      exact composed.num 0
    · obtain ⟨powers, raised, defined⟩ := Option.bind_eq_some_iff.mp defined
      dsimp only at defined
      split at defined
      · cases defined
        exact composed.num 0
      · refine composed.ofFactors ih defined fun factor member => ?_
        rw [mem_sort] at member
        obtain ⟨power, present, member⟩ := List.mem_flatMap.mp (List.mem_filter.mp member).1
        obtain ⟨entry, inside, raises⟩ := exists_of_mem_mapM raised present
        obtain ⟨holdsBase, ofBase⟩ := entries entry inside
        exact composed.factors (composed.raise ih entry.1 entry.2 power raises holdsBase ofBase)
          factor member

/-- A product is made of the parts of its factors. -/
theorem prod (composed : Composed property ofBase) {es : List Expr} {result : Expr}
    (defined : prod es = some result) (holds : ∀ e ∈ es, property e) : property result :=
  composed.prodToDepth _ es result defined holds

/-- A power is made of the parts of its base. -/
theorem power (composed : Composed property ofBase) {e result : Expr} {exponent : Exponent}
    (defined : power e exponent = some result) (holds : property e)
    (base : exponent.val < 0 → ofBase e) : property result :=
  composed.raise (composed.prodToDepth _) e exponent result defined holds base

end Composed

namespace Hereditary

variable {property ofBase : Expr → Prop} {e result : Expr} {es : List Expr}

/-- Two properties together pass between trees and their parts if each of them does. -/
theorem and {property' : Expr → Prop} (left : Hereditary property ofBase)
    (right : Hereditary property' fun _ => True) :
    Hereditary (fun e => property e ∧ property' e) ofBase where
  num value := ⟨left.num value, right.num value⟩
  add_iff terms := by
    rw [left.add_iff, right.add_iff, ← forall₂_and]
  mul_iff factors := by
    rw [left.mul_iff, right.mul_iff, ← forall₂_and]
  pow_iff base exponent := by
    rw [left.pow_iff, right.pow_iff, and_right_comm]
    simp
  base_of_mul := left.base_of_mul
  base_of_pow := left.base_of_pow

/-- The property passes to the monomial of a term without its coefficient. -/
theorem splitCoefficient (hereditary : Hereditary property ofBase) (holds : property e) :
    property e.splitCoefficient.2 :=
  hereditary.composed.splitCoefficient holds

/-- The property passes to multiples of a monomial. -/
theorem scale (hereditary : Hereditary property ofBase) (coefficient : Rat) {monomial : Expr}
    (holds : property monomial) : property (scale coefficient monomial) :=
  hereditary.composed.scale coefficient holds

/-- A hereditary property passes from term to term. -/
theorem termwise (hereditary : Hereditary property ofBase) : Termwise property :=
  hereditary.composed.termwise

/-- The property passes to sums. -/
theorem sum (hereditary : Hereditary property ofBase) (holds : ∀ e ∈ es, property e) :
    property (sum es) :=
  hereditary.composed.sum holds

/-- The property passes to products. -/
theorem prod (hereditary : Hereditary property ofBase) (defined : prod es = some result)
    (holds : ∀ e ∈ es, property e) : property result :=
  hereditary.composed.prod defined holds

/-- The property passes to powers if the bases of negative ones may be such. -/
theorem power (hereditary : Hereditary property ofBase) {exponent : Exponent}
    (defined : power e exponent = some result) (holds : property e)
    (base : exponent.val < 0 → ofBase e) : property result :=
  hereditary.composed.power defined holds base

end Hereditary

end FiniteVolume.Expr
