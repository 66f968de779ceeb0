import FiniteVolume.Expr.Product
import FiniteVolume.Proofs.Expr.Rearrangement

/-!
# Canonical trees

What a tree looks like at every node once its sums, products and powers are formed canonically. A
term of a canonical sum is a coefficient in front of a monomial, and both can be read off it
(`Canonical.split`).
-/

namespace FiniteVolume.Expr

/-- What a factor raises to a power: the base of a power, any other factor itself. -/
def base : Expr → Expr
  | .pow base _ => base
  | e => e

/-- The numeric coefficient of a term. -/
def coefficient : Expr → Rat
  | .num value => value
  | e => e.splitCoefficient.1

/-- A term without its numeric coefficient. -/
def monomial : Expr → Expr
  | .num _ => one
  | e => e.splitCoefficient.2

/-- The kinds of trees that a power of any exponent may have as its base. -/
def isGenerator : Expr → Bool
  | .sym _ | .add _ | .vector _ | .call _ _ => true
  | _ => false

/-- A canonical sum has several terms in strictly ascending order, none of them a sum, at most one
of them a number and no two of them multiples of one monomial. Only a term that divides by zero may
have the coefficient zero. -/
structure CanonicalSum (terms : List Expr) : Prop where
  several : 2 ≤ terms.length
  ascending : terms.Pairwise Before
  flat : ∀ inner, .add inner ∉ terms
  constants : (terms.filter isNum).length ≤ 1
  monomials : terms.Pairwise fun left right => left.monomial ≠ right.monomial
  coefficients : ∀ term ∈ terms, term.coefficient = 0 → term.dividesByZero = true

/-- A canonical product has several factors in ascending order, none of them a product. Only the
first one may be a number, which is not one, and is zero only if the product divides by zero. The
other factors have different bases. A number is not the coefficient of a single sum. -/
structure CanonicalProduct (factors : List Expr) : Prop where
  several : 2 ≤ factors.length
  sorted : factors.Pairwise NotAfter
  flat : ∀ inner, .mul inner ∉ factors
  number_first : ∀ factor ∈ factors.tail, factor.isNum = false
  one_absent : one ∉ factors
  zero_singular : zero ∈ factors → (Expr.mul factors).dividesByZero = true
  bases : (factors.filter fun factor => !factor.isNum).Pairwise fun left right =>
    left.base ≠ right.base
  undistributed : ∀ value terms, factors ≠ [.num value, .add terms]

/-- A canonical power has an exponent other than zero and one. Its base is a symbol, a sum, a vector
or a call, or it is a negative power of zero. -/
structure CanonicalPower (base : Expr) (exponent : Exponent) : Prop where
  ne_zero : exponent.val ≠ 0
  ne_one : exponent.val ≠ 1
  generator : base.isGenerator = true ∨ base = zero ∧ exponent.val < 0

/-- What a canonical tree satisfies at one node. -/
def CanonicalNode : Expr → Prop
  | .add terms => CanonicalSum terms
  | .mul factors => CanonicalProduct factors
  | .pow base exponent => CanonicalPower base exponent
  | _ => True

/-- A tree all of whose nodes are canonical. -/
def Canonical (e : Expr) : Prop := ∀ subterm ∈ e.subterms, CanonicalNode subterm

/-- A tree is canonical if it is so at the root and all of its children are canonical. -/
theorem canonical_iff {e : Expr} :
    e.Canonical ↔ CanonicalNode e ∧ ∀ arg ∈ e.args, arg.Canonical :=
  forall_subterms_iff CanonicalNode

/-- The children of a canonical tree are canonical. -/
theorem Canonical.arg {e arg : Expr} (canonical : e.Canonical) (member : arg ∈ e.args) :
    arg.Canonical :=
  (canonical_iff.mp canonical).2 arg member

/-- Numbers are canonical. -/
theorem canonical_num (value : Rat) : (Expr.num value).Canonical :=
  canonical_iff.mpr ⟨trivial, fun _ member => nomatch member⟩

/-- Symbols are canonical. -/
theorem canonical_sym (name : String) : (Expr.sym name).Canonical :=
  canonical_iff.mpr ⟨trivial, fun _ member => nomatch member⟩

/-- What a canonical sum is. -/
theorem canonical_add_iff {terms : List Expr} :
    (Expr.add terms).Canonical ↔ CanonicalSum terms ∧ ∀ term ∈ terms, term.Canonical :=
  canonical_iff

/-- What a canonical product is. -/
theorem canonical_mul_iff {factors : List Expr} :
    (Expr.mul factors).Canonical ↔
      CanonicalProduct factors ∧ ∀ factor ∈ factors, factor.Canonical :=
  canonical_iff

/-- What a canonical power is. -/
theorem canonical_pow_iff {base : Expr} {exponent : Exponent} :
    (Expr.pow base exponent).Canonical ↔ CanonicalPower base exponent ∧ base.Canonical := by
  rw [canonical_iff]
  simp [CanonicalNode, args]

/-- A tree divides by zero if it is a negative power of zero or one of its children divides by
zero. -/
theorem dividesByZero_iff {e : Expr} :
    e.dividesByZero = true ↔
      e.isInverseOfZero = true ∨ ∃ arg ∈ e.args, arg.dividesByZero = true := by
  simp only [dividesByZero, subterms_eq_cons e, List.any_cons, Bool.or_eq_true, List.any_flatMap,
    List.any_eq_true]

/-- A tree divides by zero if one of its children does. -/
theorem dividesByZero_of_mem_args {e arg : Expr} (member : arg ∈ e.args)
    (divides : arg.dividesByZero = true) : e.dividesByZero = true :=
  dividesByZero_iff.mpr (Or.inr ⟨arg, member, divides⟩)

/-- A product divides by zero exactly when one of its factors does. -/
theorem dividesByZero_mul (factors : List Expr) :
    (Expr.mul factors).dividesByZero = factors.any dividesByZero := by
  rw [Bool.eq_iff_iff, dividesByZero_iff, List.any_eq_true]
  simp [isInverseOfZero, args]

@[simp]
theorem dividesByZero_num (value : Rat) : (Expr.num value).dividesByZero = false := rfl

/-- A tree that does not test as a number is none. -/
theorem isNum_eq_false_iff {e : Expr} : e.isNum = false ↔ ∀ value, e ≠ .num value := by
  cases e <;> simp [isNum, value?]

/-- The coefficient of a tree that is no number is split off. -/
theorem coefficient_of_not_num {e : Expr} (notNum : e.isNum = false) :
    e.coefficient = e.splitCoefficient.1 := by
  cases e <;> first | rfl | simp [isNum, value?] at notNum

/-- The monomial of a tree that is no number is what is left without the coefficient. -/
theorem monomial_of_not_num {e : Expr} (notNum : e.isNum = false) :
    e.monomial = e.splitCoefficient.2 := by
  cases e <;> first | rfl | simp [isNum, value?] at notNum

/-- The value of a number comes before every other kind of tree. -/
theorem num_before {e : Expr} (value : Rat) (notNum : e.isNum = false) :
    (Expr.num value).Before e := by
  apply before_of_kindRank_lt
  cases e <;> simp_all [kindRank, isNum, value?]

/-- A canonical tree that is neither a number nor a sum and has no coefficient of its own. -/
structure Monomial (e : Expr) : Prop where
  canonical : e.Canonical
  notNum : e.isNum = false
  notAdd : ∀ terms, e ≠ .add terms
  split : e.splitCoefficient = (1, e)

@[simp]
theorem scale_one (monomial : Expr) : scale 1 monomial = monomial := rfl

/-- A coefficient is written before the factors of a product. -/
theorem scale_mul {coefficient : Rat} (ne_one : coefficient ≠ 1) (factors : List Expr) :
    scale coefficient (.mul factors) = .mul (.num coefficient :: factors) := by
  simp only [scale, if_neg ne_one]

/-- A coefficient and a monomial that is no product make a product of two. -/
theorem scale_of_not_mul {coefficient : Rat} {monomial : Expr} (ne_one : coefficient ≠ 1)
    (notMul : ∀ factors, monomial ≠ .mul factors) :
    scale coefficient monomial = .mul [.num coefficient, monomial] := by
  unfold scale
  rw [if_neg ne_one]
  cases monomial with
  | mul factors => exact absurd rfl (notMul factors)
  | _ => rfl

/-- A coefficient divides by nothing. -/
@[simp]
theorem dividesByZero_scale (coefficient : Rat) (monomial : Expr) :
    (scale coefficient monomial).dividesByZero = monomial.dividesByZero := by
  unfold scale
  split
  · rfl
  · cases monomial <;> simp [dividesByZero_mul]

/-- A tree that is no product has no coefficient of its own. -/
theorem splitCoefficient_of_not_mul {e : Expr} (notMul : ∀ factors, e ≠ .mul factors) :
    e.splitCoefficient = (1, e) := by
  rcases splitCoefficient_cases e with ⟨_, _, rfl, -⟩ | ⟨_, _, rfl, -, -⟩ | split
  · exact absurd rfl (notMul _)
  · exact absurd rfl (notMul _)
  · exact split

/-- A product that does not begin with a number has no coefficient of its own. -/
theorem splitCoefficient_mul_of_head {factors : List Expr}
    (head : ∀ value rest, factors ≠ .num value :: rest) :
    (Expr.mul factors).splitCoefficient = (1, .mul factors) := by
  rcases splitCoefficient_cases (.mul factors) with ⟨c, f, same, -⟩ | ⟨c, fs, same, -, -⟩ | split
  · cases same
    exact absurd rfl (head c [f])
  · cases same
    exact absurd rfl (head c fs)
  · exact split

/-- The product of a coefficient and several factors splits into these. -/
theorem splitCoefficient_mul_num {value : Rat} {factors : List Expr}
    (several : 2 ≤ factors.length) :
    (Expr.mul (.num value :: factors)).splitCoefficient = (value, .mul factors) := by
  match factors, several with
  | first :: second :: rest, _ => rfl

/-- The coefficient of a monomial is one. -/
theorem Monomial.coefficient {e : Expr} (monomial : e.Monomial) : e.coefficient = 1 := by
  rw [coefficient_of_not_num monomial.notNum, monomial.split]

/-- The monomial of a monomial is the tree itself. -/
theorem Monomial.monomial {e : Expr} (isMonomial : e.Monomial) : e.monomial = e := by
  rw [monomial_of_not_num isMonomial.notNum, isMonomial.split]

/-- A product without a number is a monomial. -/
theorem monomial_mul {factors : List Expr} (canonical : (Expr.mul factors).Canonical)
    (noNumber : ∀ factor ∈ factors, factor.isNum = false) : (Expr.mul factors).Monomial where
  canonical := canonical
  notNum := rfl
  notAdd _ same := nomatch same
  split := by
    apply splitCoefficient_mul_of_head
    rintro value rest rfl
    exact absurd (noNumber _ List.mem_cons_self) (by simp [isNum, value?])

/-- Without its leading number, a canonical product of at least three factors is canonical. -/
theorem canonical_mul_tail {value : Rat} {factors : List Expr} (several : 2 ≤ factors.length)
    (canonical : (Expr.mul (.num value :: factors)).Canonical) :
    (Expr.mul factors).Canonical := by
  obtain ⟨product, parts⟩ := canonical_mul_iff.mp canonical
  have noNumber : ∀ factor ∈ factors, factor.isNum = false := product.number_first
  refine canonical_mul_iff.mpr ⟨?_, fun factor member => parts factor (by simp [member])⟩
  exact {
    several := several
    sorted := (List.pairwise_cons.mp product.sorted).2
    flat := fun inner member => product.flat inner (List.mem_cons_of_mem _ member)
    number_first := fun factor member => noNumber factor (List.mem_of_mem_tail member)
    one_absent := fun member => product.one_absent (List.mem_cons_of_mem _ member)
    zero_singular := fun member => absurd (noNumber zero member) (by decide)
    bases := by
      have bases := product.bases
      rwa [List.filter_cons_of_neg (by simp [isNum, value?])] at bases
    undistributed := by
      rintro value terms rfl
      exact absurd (noNumber _ List.mem_cons_self) (by simp [isNum, value?]) }

/-- A canonical term that is neither a number nor a sum is a coefficient in front of a monomial. -/
theorem Canonical.split {e : Expr} (canonical : e.Canonical) (notNum : e.isNum = false)
    (notAdd : ∀ terms, e ≠ .add terms) :
    e.splitCoefficient.2.Monomial ∧ e = scale e.splitCoefficient.1 e.splitCoefficient.2 := by
  rcases splitCoefficient_cases e with
    ⟨c, factor, rfl, split⟩ | ⟨c, factors, rfl, notSingle, split⟩ | split
  · obtain ⟨product, parts⟩ := canonical_mul_iff.mp canonical
    have notMul : ∀ inner, factor ≠ .mul inner := by
      rintro inner rfl
      exact product.flat inner (by simp)
    have ne_one : c ≠ 1 := by
      rintro rfl
      exact product.one_absent (by simp [one])
    rw [split]
    refine ⟨⟨parts factor (by simp), product.number_first factor (by simp), ?_,
      splitCoefficient_of_not_mul notMul⟩, ?_⟩
    · rintro terms rfl
      exact product.undistributed c terms rfl
    · exact (scale_of_not_mul ne_one notMul).symm
  · obtain ⟨product, parts⟩ := canonical_mul_iff.mp canonical
    have ne_one : c ≠ 1 := by
      rintro rfl
      exact product.one_absent (by simp [one])
    have several : 2 ≤ factors.length := by
      have several := product.several
      rw [List.length_cons] at several
      omega
    rw [split]
    exact ⟨monomial_mul (canonical_mul_tail several canonical) product.number_first,
      (scale_mul ne_one factors).symm⟩
  · rw [split]
    exact ⟨⟨canonical, notNum, notAdd, split⟩, (scale_one e).symm⟩

/-- A multiple of a canonical product without a number. -/
theorem canonical_mul_cons {value : Rat} {factors : List Expr}
    (canonical : (Expr.mul factors).Canonical)
    (noNumber : ∀ factor ∈ factors, factor.isNum = false) (ne_one : value ≠ 1)
    (regular : value = 0 → (Expr.mul factors).dividesByZero = true) :
    (Expr.mul (.num value :: factors)).Canonical := by
  obtain ⟨product, parts⟩ := canonical_mul_iff.mp canonical
  refine canonical_mul_iff.mpr ⟨?_, List.forall_mem_cons.mpr ⟨canonical_num value, parts⟩⟩
  exact {
    several := Nat.le_succ_of_le product.several
    sorted := List.pairwise_cons.mpr
      ⟨fun factor member => (num_before value (noNumber factor member)).notAfter, product.sorted⟩
    flat := fun inner member => product.flat inner (by simpa using member)
    number_first := noNumber
    one_absent := by
      rw [List.mem_cons, not_or]
      exact ⟨fun same => ne_one (by injection same with same; exact same.symm),
        product.one_absent⟩
    zero_singular := by
      intro member
      have divides : (Expr.mul factors).dividesByZero = true := by
        rcases List.mem_cons.mp member with same | member
        · injection same with same
          exact regular same.symm
        · exact product.zero_singular member
      rw [dividesByZero_mul] at divides ⊢
      exact (List.any_cons).trans (by rw [divides, Bool.or_true])
    bases := by
      rw [List.filter_cons_of_neg (by simp [isNum, value?])]
      exact product.bases
    undistributed := by
      intro other terms same
      injection same with _ same
      exact absurd (same ▸ product.several) (by simp) }

/-- A multiple of a monomial that is no product. -/
theorem canonical_mul_pair {value : Rat} {factor : Expr} (canonical : factor.Canonical)
    (notNum : factor.isNum = false) (notAdd : ∀ terms, factor ≠ .add terms)
    (notMul : ∀ factors, factor ≠ .mul factors) (ne_one : value ≠ 1)
    (regular : value = 0 → factor.dividesByZero = true) :
    (Expr.mul [.num value, factor]).Canonical := by
  refine canonical_mul_iff.mpr ⟨?_, by simpa using ⟨canonical_num value, canonical⟩⟩
  exact {
    several := le_refl 2
    sorted := List.pairwise_pair.mpr (num_before value notNum).notAfter
    flat := by
      intro inner member
      simp only [List.mem_cons, reduceCtorEq, List.not_mem_nil, or_false, false_or] at member
      exact notMul inner member.symm
    number_first := by simpa using notNum
    one_absent := by
      simp only [List.mem_cons, List.not_mem_nil, or_false, not_or]
      refine ⟨fun same => ne_one (by injection same with same; exact same.symm), ?_⟩
      rintro rfl
      exact absurd notNum (by decide)
    zero_singular := by
      intro member
      simp only [List.mem_cons, List.not_mem_nil, or_false] at member
      rcases member with same | rfl
      · injection same with same
        exact dividesByZero_of_mem_args (by simp [args]) (regular same.symm)
      · exact absurd notNum (by decide)
    bases := by
      rw [List.filter_cons_of_neg (by simp [isNum, value?])]
      rw [List.filter_cons_of_pos (by simp [notNum])]
      exact List.pairwise_singleton _ _
    undistributed := by
      intro other terms same
      injection same with _ same
      injection same with same
      exact notAdd terms same }

/-- No factor of a monomial is a number. -/
theorem Monomial.noNumber {factors : List Expr} (isMonomial : (Expr.mul factors).Monomial) :
    ∀ factor ∈ factors, factor.isNum = false := by
  obtain ⟨product, -⟩ := canonical_mul_iff.mp isMonomial.canonical
  match factors, product.several with
  | first :: rest, several =>
    refine List.forall_mem_cons.mpr ⟨?_, product.number_first⟩
    rw [isNum_eq_false_iff]
    rintro value rfl
    have ne_one : value ≠ 1 := by
      rintro rfl
      exact product.one_absent List.mem_cons_self
    have split := isMonomial.split
    rcases Nat.lt_or_ge rest.length 2 with short | several'
    · obtain ⟨factor, rfl⟩ := List.length_eq_one_iff.mp (show rest.length = 1 by
        rw [List.length_cons] at several
        omega)
      exact ne_one (congrArg Prod.fst split)
    · rw [splitCoefficient_mul_num several'] at split
      exact ne_one (congrArg Prod.fst split)

/-- A coefficient in front of a monomial is a canonical term that splits into the two. -/
theorem Monomial.scale {monomial : Expr} (isMonomial : monomial.Monomial) {value : Rat}
    (regular : value = 0 → monomial.dividesByZero = true) :
    (Expr.scale value monomial).Canonical ∧ (Expr.scale value monomial).isNum = false ∧
      (∀ terms, Expr.scale value monomial ≠ .add terms) ∧
      (Expr.scale value monomial).splitCoefficient = (value, monomial) := by
  by_cases ne_one : value = 1
  · subst ne_one
    exact ⟨isMonomial.canonical, isMonomial.notNum, isMonomial.notAdd, isMonomial.split⟩
  · cases monomial with
    | mul factors =>
      have several := (canonical_mul_iff.mp isMonomial.canonical).1.several
      rw [scale_mul ne_one]
      exact ⟨canonical_mul_cons isMonomial.canonical isMonomial.noNumber ne_one regular, rfl,
        fun _ => by simp, splitCoefficient_mul_num several⟩
    | num value => exact absurd isMonomial.notNum (by simp [isNum, value?])
    | _ =>
      rw [scale_of_not_mul ne_one (fun _ => by simp)]
      exact ⟨canonical_mul_pair isMonomial.canonical isMonomial.notNum isMonomial.notAdd
        (fun _ => by simp) ne_one regular, rfl, fun _ => by simp, rfl⟩

end FiniteVolume.Expr
