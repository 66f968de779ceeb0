import FiniteVolume.Proofs.Canonical.Product
import FiniteVolume.Proofs.Expr.Substitution

/-!
# Renaming symbols

A permutation of symbols changes the order of operands everywhere in a tree, but it keeps what makes
the tree canonical: different names stay different, so no operands merge, and coefficients and
divisions by zero stay where they are (`Canonical.rename`). A substitution by the rules of the
permutation therefore only renames symbols and sorts operands (`subst_rules`), and the inverse
permutation leads back to the same tree (`Canonical.rename_back`).
-/

namespace FiniteVolume

namespace Expr

mutual

/-- The tree with its symbols renamed and the operands of every sum and product sorted again. -/
def rename (newName : String → String) : Expr → Expr
  | .num value => .num value
  | .sym name => .sym (newName name)
  | .add terms => .add (sort (renameAll newName terms))
  | .mul factors => .mul (sort (renameAll newName factors))
  | .pow base exponent => .pow (base.rename newName) exponent
  | .vector components => .vector (renameAll newName components)
  | .call head args => .call head (renameAll newName args)

/-- Renames symbols in every expression of a list. -/
def renameAll (newName : String → String) : List Expr → List Expr
  | [] => []
  | e :: rest => e.rename newName :: renameAll newName rest

end

variable {newName : String → String}

/-- Several trees are renamed one by one. -/
theorem renameAll_eq_map (newName : String → String) (es : List Expr) :
    renameAll newName es = es.map (rename newName) := by
  induction es with
  | nil => rfl
  | cons e rest ih => rw [renameAll, ih, List.map_cons]

theorem rename_add (terms : List Expr) :
    (Expr.add terms).rename newName = .add (sort (terms.map (rename newName))) :=
  congrArg (fun operands => Expr.add (sort operands)) (renameAll_eq_map newName terms)

theorem rename_mul (factors : List Expr) :
    (Expr.mul factors).rename newName = .mul (sort (factors.map (rename newName))) :=
  congrArg (fun operands => Expr.mul (sort operands)) (renameAll_eq_map newName factors)

theorem rename_vector (components : List Expr) :
    (Expr.vector components).rename newName = .vector (components.map (rename newName)) :=
  congrArg Expr.vector (renameAll_eq_map newName components)

theorem rename_call (head : Head) (args : List Expr) :
    (Expr.call head args).rename newName = .call head (args.map (rename newName)) :=
  congrArg (Expr.call head) (renameAll_eq_map newName args)

/-- Renaming neither makes numbers nor unmakes them. -/
theorem isNum_rename (e : Expr) : (e.rename newName).isNum = e.isNum := by
  cases e <;> rfl

/-- Only a number is renamed to that number. -/
theorem rename_eq_num_iff {e : Expr} {value : Rat} :
    e.rename newName = .num value ↔ e = .num value := by
  cases e <;> simp [rename]

/-- Only zero is renamed to zero. -/
theorem isZero_rename (e : Expr) : (e.rename newName).isZero = e.isZero := by
  cases e <;> rfl

/-- Renaming keeps what kind of base a tree is. -/
theorem isGenerator_rename (e : Expr) : (e.rename newName).isGenerator = e.isGenerator := by
  cases e <;> rfl

/-- The base of a renamed tree is the renamed base. -/
theorem base_rename (e : Expr) : (e.rename newName).base = e.base.rename newName := by
  cases e <;> rfl

/-- Only sums are renamed to sums. -/
theorem rename_ne_add {e : Expr} (notAdd : ∀ terms, e ≠ .add terms) (terms : List Expr) :
    e.rename newName ≠ .add terms := by
  cases e with
  | add inner => exact absurd rfl (notAdd inner)
  | _ => simp [rename]

/-- Only products are renamed to products. -/
theorem rename_ne_mul {e : Expr} (notMul : ∀ factors, e ≠ .mul factors) (factors : List Expr) :
    e.rename newName ≠ .mul factors := by
  cases e with
  | mul inner => exact absurd rfl (notMul inner)
  | _ => simp [rename]

/-- The children of a renamed tree are the renamed children in some order. -/
theorem args_rename (newName : String → String) (e : Expr) :
    (e.rename newName).args.Perm (e.args.map (rename newName)) := by
  cases e with
  | num value | sym name => exact .refl _
  | add terms => rw [rename_add]; exact sort_perm _
  | mul factors => rw [rename_mul]; exact sort_perm _
  | pow base exponent => exact .refl _
  | vector components => rw [rename_vector]; rfl
  | call head args => rw [rename_call]; rfl

/-- Renaming symbols does not change what is divided by zero. -/
theorem dividesByZero_rename (e : Expr) : (e.rename newName).dividesByZero = e.dividesByZero := by
  induction e using induction_args with
  | step e ih =>
    have node : (e.rename newName).isInverseOfZero = e.isInverseOfZero := by
      cases e with
      | pow base exponent => simp only [rename, isInverseOfZero, isZero_rename]
      | _ => rfl
    have children : (∃ arg ∈ (e.rename newName).args, arg.dividesByZero = true) ↔
        ∃ arg ∈ e.args, arg.dividesByZero = true := by
      simp only [(args_rename newName e).mem_iff, List.mem_map, exists_exists_and_eq_and]
      exact exists_congr fun arg => and_congr_right fun member => by rw [ih arg member]
    rw [Bool.eq_iff_iff, dividesByZero_iff, dividesByZero_iff, node, children]

/-- Renaming twice is renaming by both maps, one after the other. -/
theorem rename_rename (first second : String → String) (e : Expr) :
    (e.rename first).rename second = e.rename (second ∘ first) := by
  have operands : ∀ {es : List Expr}, (∀ e ∈ es,
      (e.rename first).rename second = e.rename (second ∘ first)) →
      ((sort (es.map (rename first))).map (rename second)).Perm
        (es.map (rename (second ∘ first))) := by
    intro es ih
    refine ((sort_perm _).map _).trans (List.Perm.of_eq ?_)
    rw [List.map_map]
    exact List.map_congr_left ih
  induction e with
  | num value | sym name => rfl
  | add terms ih => rw [rename_add, rename_add, rename_add, sort_congr (operands ih)]
  | mul factors ih => rw [rename_mul, rename_mul, rename_mul, sort_congr (operands ih)]
  | pow base exponent ih => rw [rename, rename, rename, ih]
  | vector components ih =>
    rw [rename_vector, rename_vector, rename_vector, List.map_map]
    exact congrArg Expr.vector (List.map_congr_left ih)
  | call head args ih =>
    rw [rename_call, rename_call, rename_call, List.map_map]
    exact congrArg (Expr.call head) (List.map_congr_left ih)

/-- The operands of a canonical tree are sorted already. -/
theorem Canonical.rename_id {e : Expr} (canonical : e.Canonical) : e.rename id = e := by
  induction e using induction_args with
  | step e ih =>
    have operands : e.args.map (rename id) = e.args :=
      (List.map_congr_left fun arg member => ih arg member (canonical.arg member)).trans
        (List.map_id _)
    cases e with
    | num value | sym name => rfl
    | add terms =>
      have sorted := (canonical_add_iff.mp canonical).1.ascending.imp Before.notAfter
      rw [rename_add, show terms.map (rename id) = terms from operands, sort_of_pairwise sorted]
    | mul factors =>
      have sorted := (canonical_mul_iff.mp canonical).1.sorted
      rw [rename_mul, show factors.map (rename id) = factors from operands, sort_of_pairwise sorted]
    | pow base exponent => rw [rename, List.singleton_inj.mp operands]
    | vector components => exact (rename_vector components).trans (congrArg _ operands)
    | call head args => exact (rename_call head args).trans (congrArg _ operands)

/-- Names that are mapped back give the canonical tree back. -/
theorem Canonical.rename_back {e : Expr} (canonical : e.Canonical) {back : String → String}
    (inverse : Function.LeftInverse back newName) : (e.rename newName).rename back = e := by
  rw [rename_rename, inverse.comp_eq_id, canonical.rename_id]

/-- Renaming that can be undone tells canonical trees apart. -/
theorem Canonical.rename_inj {left right : Expr} (canonicalLeft : left.Canonical)
    (canonicalRight : right.Canonical) {back : String → String}
    (inverse : Function.LeftInverse back newName)
    (same : left.rename newName = right.rename newName) : left = right := by
  rw [← canonicalLeft.rename_back inverse, same, canonicalRight.rename_back inverse]

/-- A number leads sorted operands. -/
theorem sort_num_cons {value : Rat} {es : List Expr} (noNumber : ∀ e ∈ es, e.isNum = false) :
    sort (.num value :: es) = .num value :: sort es := by
  rw [sort_congr ((sort_perm es).symm.cons (.num value))]
  refine sort_of_pairwise (List.pairwise_cons.mpr ⟨fun e member => ?_, sort_pairwise es⟩)
  exact (num_before value (noNumber e (mem_sort.mp member))).notAfter

/-- A canonical product has a number in front of its other factors, or none. -/
theorem CanonicalProduct.leading {factors : List Expr} (product : CanonicalProduct factors) :
    (∃ value rest, factors = .num value :: rest ∧ value ≠ 1 ∧
      ∀ factor ∈ rest, factor.isNum = false) ∨ ∀ factor ∈ factors, factor.isNum = false := by
  match factors, product.several with
  | first :: rest, _ =>
    cases isNum : first.isNum with
    | true =>
      obtain ⟨value, rfl⟩ := eq_num_of_isNum isNum
      refine Or.inl ⟨value, rest, rfl, ?_, product.number_first⟩
      rintro rfl
      exact product.one_absent List.mem_cons_self
    | false => exact Or.inr (List.forall_mem_cons.mpr ⟨isNum, product.number_first⟩)

/-- Renaming makes no numbers. -/
theorem noNumber_rename {es : List Expr} (noNumber : ∀ e ∈ es, e.isNum = false) :
    ∀ e ∈ es.map (rename newName), e.isNum = false := by
  intro e member
  obtain ⟨source, inside, rfl⟩ := List.mem_map.mp member
  rw [isNum_rename]
  exact noNumber source inside

/-- Renaming symbols leaves the coefficient of a canonical term and renames its monomial. -/
theorem Canonical.splitCoefficient_rename {e : Expr} (canonical : e.Canonical) :
    (e.rename newName).splitCoefficient =
      (e.splitCoefficient.1, e.splitCoefficient.2.rename newName) := by
  cases e with
  | mul factors =>
    have product := (canonical_mul_iff.mp canonical).1
    rw [rename_mul]
    obtain ⟨value, rest, rfl, -, noNumber⟩ | noNumber := product.leading
    · rw [List.map_cons, rename, sort_num_cons (noNumber_rename noNumber)]
      match rest, product.several with
      | [factor], _ => rfl
      | first :: second :: rest, _ =>
        rw [splitCoefficient_mul_num (by rw [(sort_perm _).length_eq]; simp),
          splitCoefficient_mul_num (by simp), rename_mul]
    · have headless : ∀ {es : List Expr}, (∀ e ∈ es, e.isNum = false) →
          (Expr.mul es).splitCoefficient = (1, .mul es) := by
        intro es noNumber
        refine splitCoefficient_mul_of_head fun value rest same => ?_
        exact absurd (noNumber (.num value) (by simp [same])) (by simp [isNum, value?])
      rw [headless fun e member => noNumber_rename noNumber e (mem_sort.mp member),
        headless noNumber, rename_mul]
  | _ => rfl

/-- Renaming keeps the coefficient of a canonical tree. -/
theorem Canonical.coefficient_rename {e : Expr} (canonical : e.Canonical) :
    (e.rename newName).coefficient = e.coefficient := by
  cases isNum : e.isNum with
  | true =>
    obtain ⟨value, rfl⟩ := eq_num_of_isNum isNum
    rfl
  | false =>
    rw [coefficient_of_not_num isNum, coefficient_of_not_num (isNum_rename e ▸ isNum),
      canonical.splitCoefficient_rename]

/-- Renaming a canonical tree renames its monomial. -/
theorem Canonical.monomial_rename {e : Expr} (canonical : e.Canonical) :
    (e.rename newName).monomial = e.monomial.rename newName := by
  cases isNum : e.isNum with
  | true =>
    obtain ⟨value, rfl⟩ := eq_num_of_isNum isNum
    rfl
  | false =>
    rw [monomial_of_not_num isNum, monomial_of_not_num (isNum_rename e ▸ isNum),
      canonical.splitCoefficient_rename]

/-- The monomial of a canonical term is canonical. -/
theorem Canonical.monomial {e : Expr} (canonical : e.Canonical)
    (notAdd : ∀ terms, e ≠ .add terms) : e.monomial.Canonical := by
  cases isNum : e.isNum with
  | true =>
    obtain ⟨value, rfl⟩ := eq_num_of_isNum isNum
    exact canonical_num 1
  | false =>
    rw [monomial_of_not_num isNum]
    exact (canonical.split isNum notAdd).1.canonical

/-- The base of a canonical tree is canonical. -/
theorem Canonical.base {e : Expr} (canonical : e.Canonical) : e.base.Canonical := by
  cases e with
  | pow base exponent => exact (canonical_pow_iff.mp canonical).2
  | _ => exact canonical

section Injective

variable {back : String → String} (inverse : Function.LeftInverse back newName)

include inverse

/-- A canonical sum stays one when its symbols are renamed and its terms are sorted. -/
theorem CanonicalSum.rename {terms : List Expr} (canonical : (Expr.add terms).Canonical) :
    CanonicalSum (sort (terms.map (Expr.rename newName))) := by
  obtain ⟨sum, parts⟩ := canonical_add_iff.mp canonical
  have perm := sort_perm (terms.map (Expr.rename newName))
  have source : ∀ term ∈ sort (terms.map (Expr.rename newName)),
      ∃ before ∈ terms, before.rename newName = term :=
    fun term member => List.mem_map.mp (mem_sort.mp member)
  have notAdd : ∀ term ∈ terms, ∀ inner, term ≠ .add inner := fun term member =>
    (canonical.not_add_of_mem_terms member).2
  have monomials : (terms.map (Expr.rename newName)).Pairwise fun left right =>
      left.monomial ≠ right.monomial := by
    rw [List.pairwise_map]
    refine sum.monomials.imp_of_mem fun {left right} inLeft inRight different same => different ?_
    rw [(parts left inLeft).monomial_rename, (parts right inRight).monomial_rename] at same
    exact ((parts left inLeft).monomial (notAdd left inLeft)).rename_inj
      ((parts right inRight).monomial (notAdd right inRight)) inverse same
  have different : (sort (terms.map (Expr.rename newName))).Pairwise fun left right =>
      left.monomial ≠ right.monomial :=
    (perm.pairwise_iff fun different => Ne.symm different).mpr monomials
  exact {
    several := by
      rw [perm.length_eq, List.length_map]
      exact sum.several
    ascending := sort_ascending (monomials.imp fun different same => different (congrArg _ same))
    flat := fun inner member => by
      obtain ⟨term, inside, same⟩ := source _ member
      exact rename_ne_add (notAdd term inside) inner same
    constants := constants_of_monomials different
    monomials := different
    coefficients := fun term member zero => by
      obtain ⟨term, inside, rfl⟩ := source _ member
      rw [(parts term inside).coefficient_rename] at zero
      rw [dividesByZero_rename]
      exact sum.coefficients term inside zero }

/-- A canonical product stays one when its symbols are renamed and its factors are sorted. -/
theorem CanonicalProduct.rename {factors : List Expr} (canonical : (Expr.mul factors).Canonical) :
    CanonicalProduct (sort (factors.map (Expr.rename newName))) := by
  obtain ⟨product, parts⟩ := canonical_mul_iff.mp canonical
  have perm := sort_perm (factors.map (Expr.rename newName))
  have source : ∀ factor ∈ sort (factors.map (Expr.rename newName)),
      ∃ before ∈ factors, before.rename newName = factor :=
    fun factor member => List.mem_map.mp (mem_sort.mp member)
  have number : ∀ value, .num value ∈ sort (factors.map (Expr.rename newName)) →
      .num value ∈ factors := by
    intro value member
    obtain ⟨factor, inside, same⟩ := source _ member
    exact rename_eq_num_iff.mp same ▸ inside
  have bases : (factors.map (Expr.rename newName)).filter (fun factor => !factor.isNum) =
      (factors.filter fun factor => !factor.isNum).map (Expr.rename newName) := by
    rw [List.filter_map]
    congr 1
    exact List.filter_congr fun factor _ => by rw [Function.comp_apply, isNum_rename]
  exact {
    several := by
      rw [perm.length_eq, List.length_map]
      exact product.several
    sorted := sort_pairwise _
    flat := fun inner member => by
      obtain ⟨factor, inside, same⟩ := source _ member
      exact rename_ne_mul (canonical.not_mul_of_mem_factors inside).2 inner same
    number_first := by
      obtain ⟨value, rest, rfl, -, noNumber⟩ | noNumber := product.leading
      · rw [List.map_cons, Expr.rename, sort_num_cons (noNumber_rename noNumber), List.tail_cons]
        exact fun factor member => noNumber_rename noNumber factor (mem_sort.mp member)
      · exact fun factor member =>
          noNumber_rename noNumber factor (mem_sort.mp (List.mem_of_mem_tail member))
    one_absent := fun member => product.one_absent (number 1 member)
    zero_singular := fun member => by
      have divides := product.zero_singular (number 0 member)
      rwa [← @dividesByZero_rename newName, rename_mul] at divides
    bases := by
      refine ((perm.filter _).pairwise_iff fun different => Ne.symm different).mpr ?_
      rw [bases, List.pairwise_map]
      refine product.bases.imp_of_mem fun {left right} inLeft inRight different same => different ?_
      rw [base_rename, base_rename] at same
      exact (parts left (List.mem_filter.mp inLeft).1).base.rename_inj
        (parts right (List.mem_filter.mp inRight).1).base inverse same
    undistributed := fun value terms same => by
      have member : .num value ∈ factors := number value (by simp [same])
      obtain ⟨first, rest, rfl, -, noNumber⟩ | noNumber := product.leading
      · rw [List.map_cons, Expr.rename, sort_num_cons (noNumber_rename noNumber)] at same
        injection same with _ same
        have single : rest.map (Expr.rename newName) = [.add terms] :=
          List.perm_singleton.mp (same ▸ (sort_perm _).symm)
        obtain ⟨factor, rfl, renamed⟩ := List.map_eq_singleton_iff.mp single
        cases factor with
        | add inner => exact product.undistributed first inner rfl
        | _ => cases renamed
      · exact absurd (noNumber _ member) (by simp [isNum, value?]) }

/-- A canonical tree stays canonical when its symbols are renamed. -/
theorem Canonical.rename {e : Expr} (canonical : e.Canonical) : (e.rename newName).Canonical := by
  induction e using induction_args with
  | step e ih =>
    refine canonical_iff.mpr ⟨?_, fun arg member => ?_⟩
    · cases e with
      | add terms => rw [rename_add]; exact CanonicalSum.rename inverse canonical
      | mul factors => rw [rename_mul]; exact CanonicalProduct.rename inverse canonical
      | pow base exponent =>
        obtain ⟨power, -⟩ := canonical_pow_iff.mp canonical
        refine ⟨power.ne_zero, power.ne_one, ?_⟩
        rw [isGenerator_rename]
        exact power.generator.imp_right fun ⟨isZero, negative⟩ =>
          ⟨rename_eq_num_iff.mpr isZero, negative⟩
      | _ => trivial
    · obtain ⟨before, inside, rfl⟩ := List.mem_map.mp ((args_rename newName e).mem_iff.mp member)
      exact ih before inside (canonical.arg inside)

end Injective

end Expr

open FiniteVolume.Expr

/-- A permutation of finitely many symbols: what takes the place of each of them. -/
structure SymbolPermutation where
  pairs : List (String × String)
  distinct : (pairs.map Prod.fst).Nodup
  permutes : (pairs.map Prod.snd).Perm (pairs.map Prod.fst)

namespace SymbolPermutation

/-- The name that takes the place of a name. -/
def apply (permutation : SymbolPermutation) (name : String) : String :=
  (permutation.pairs.lookup name).getD name

/-- The permutation as a list of rules. -/
def rules (permutation : SymbolPermutation) : List Rule :=
  symbolRules (permutation.pairs.map fun (name, replacement) => (name, .sym replacement))

/-- The permutation backwards. -/
def inverse (permutation : SymbolPermutation) : SymbolPermutation where
  pairs := permutation.pairs.map Prod.swap
  distinct := by
    rw [List.map_map]
    exact permutation.permutes.nodup_iff.mpr permutation.distinct
  permutes := by
    rw [List.map_map, List.map_map]
    exact permutation.permutes.symm

variable (permutation : SymbolPermutation)

/-- A pair of distinct first names is found by its first name. -/
theorem lookup_of_mem {pairs : List (String × String)} (distinct : (pairs.map Prod.fst).Nodup)
    {pair : String × String} (member : pair ∈ pairs) : pairs.lookup pair.1 = some pair.2 := by
  induction pairs with
  | nil => cases member
  | cons first rest ih =>
    obtain ⟨new, later⟩ := List.nodup_cons.mp distinct
    rcases List.mem_cons.mp member with rfl | member
    · exact List.lookup_cons_self
    · have different : pair.1 ≠ first.1 := fun same =>
        new (same ▸ List.mem_map_of_mem member)
      rw [List.lookup_cons, beq_false_of_ne different]
      exact ih later member

/-- A name of a pair is replaced by its partner. -/
theorem apply_of_mem {pair : String × String} (member : pair ∈ permutation.pairs) :
    permutation.apply pair.1 = pair.2 := by
  rw [apply, lookup_of_mem permutation.distinct member, Option.getD_some]

/-- Names outside all pairs stay. -/
theorem apply_of_not_mem {name : String} (absent : name ∉ permutation.pairs.map Prod.fst) :
    permutation.apply name = name := by
  have missing : permutation.pairs.lookup name = none := by
    rw [List.lookup_eq_none_iff]
    intro pair member
    rw [bne_iff_ne]
    rintro rfl
    exact absent (List.mem_map_of_mem member)
  rw [apply, missing, Option.getD_none]

/-- The inverse permutation undoes the permutation. -/
theorem leftInverse : Function.LeftInverse permutation.inverse.apply permutation.apply := by
  intro name
  by_cases member : name ∈ permutation.pairs.map Prod.fst
  · obtain ⟨pair, inside, rfl⟩ := List.mem_map.mp member
    rw [permutation.apply_of_mem inside]
    exact permutation.inverse.apply_of_mem (List.mem_map_of_mem inside)
  · rw [permutation.apply_of_not_mem member]
    refine permutation.inverse.apply_of_not_mem fun moved => member ?_
    rw [inverse, List.map_map] at moved
    exact permutation.permutes.mem_iff.mp moved

/-- The rules of a permutation rename the symbols of a canonical tree. -/
theorem subst_rules {e : Expr} (canonical : e.Canonical) :
    e.subst permutation.rules = some (e.rename permutation.apply) := by
  induction e using induction_args with
  | step e ih =>
    have operands : replaceAllWith (replacement? permutation.rules) e.args =
        some (e.args.map (Expr.rename permutation.apply)) := by
      rw [replaceAllWith_eq_mapM]
      exact mapM_eq_some_map fun arg member => ih arg member (canonical.arg member)
    have kept : e.symbol? = none → replacement? permutation.rules e = none := by
      intro notSymbol
      rw [rules, replacement?_symbolRules, notSymbol, Option.bind_none]
    have renamed := canonical.rename permutation.leftInverse
    cases e with
    | num value =>
      rw [subst, replaceWith, kept rfl]
      rfl
    | sym name =>
      rw [rules, subst_sym, lookup_map_snd, Expr.rename, apply]
      cases permutation.pairs.lookup name <;> rfl
    | add terms =>
      rw [rename_add] at renamed ⊢
      rw [subst, replaceWith, kept rfl]
      refine Option.bind_eq_some_iff.mpr ⟨_, operands, ?_⟩
      exact congrArg some (sum_of_perm renamed (sort_perm _).symm)
    | mul factors =>
      rw [rename_mul] at renamed ⊢
      rw [subst, replaceWith, kept rfl]
      refine Option.bind_eq_some_iff.mpr ⟨_, operands, ?_⟩
      exact prodToDepth_of_perm renamed (sort_perm _).symm
    | pow base exponent =>
      rw [subst, replaceWith, kept rfl]
      refine Option.bind_eq_some_iff.mpr
        ⟨_, ih base (List.mem_singleton_self base) (canonical_pow_iff.mp canonical).2, ?_⟩
      exact power_of_canonical renamed
    | vector components =>
      rw [rename_vector, subst, replaceWith, kept rfl]
      exact Option.bind_eq_some_iff.mpr ⟨_, operands, rfl⟩
    | call head args =>
      rw [rename_call, subst, replaceWith, kept rfl]
      exact Option.bind_eq_some_iff.mpr ⟨_, operands, rfl⟩

/-- A permutation that exchanges symbols in pairs is its own inverse. -/
theorem involutive (symmetric : ∀ pair ∈ permutation.pairs, pair.swap ∈ permutation.pairs) :
    Function.Involutive permutation.apply := by
  intro name
  by_cases member : name ∈ permutation.pairs.map Prod.fst
  · obtain ⟨pair, inside, rfl⟩ := List.mem_map.mp member
    rw [permutation.apply_of_mem inside]
    exact permutation.apply_of_mem (symmetric pair inside)
  · rw [permutation.apply_of_not_mem member, permutation.apply_of_not_mem member]

end SymbolPermutation

end FiniteVolume
