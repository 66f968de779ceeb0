import FiniteVolume.Proofs.Canonical.Unnested

/-!
# Divisions by zero that stay

Substitution and expansion rebuild a tree from its leaves up. What is rebuilt from a tree in which
divisions are not nested divides by zero if the tree does (`Retains.replaceWith`, `Retains.expand`).
One such term of a sum is enough: it is never dropped, whatever else there is in the sum
(`exposed_sum`, `Exposed.replaceWith`, `Exposed.expand`).
-/

namespace FiniteVolume.Expr

variable {invertible : String → Prop}

/-- What a tree has in common with one that is rebuilt from it: divisions stay unnested, and so no
division by zero is lost. -/
structure Retains (invertible : String → Prop) (e result : Expr) : Prop where
  zero : e = zero → result = zero
  divisor : Divisor invertible e → Divisor invertible result
  undivided : e.NegativeBases (Divisor invertible) → result.NegativeBases (Divisor invertible)
  unnested : e.Unnested invertible → result.Unnested invertible
  divides : e.Unnested invertible → e.dividesByZero = true → result.dividesByZero = true

namespace Retains

variable {e result : Expr} {es results : List Expr}

/-- A tree loses nothing to itself. -/
theorem refl (e : Expr) : Retains invertible e e where
  zero := id
  divisor := id
  undivided := id
  unnested := id
  divides _ := id

/-- Nothing is lost in two steps if nothing is lost in each. -/
theorem trans {middle : Expr} (first : Retains invertible e middle)
    (second : Retains invertible middle result) : Retains invertible e result where
  zero isZero := second.zero (first.zero isZero)
  divisor divisor := second.divisor (first.divisor divisor)
  undivided undivided := second.undivided (first.undivided undivided)
  unnested unnested := second.unnested (first.unnested unnested)
  divides unnested divides :=
    second.divides (first.unnested unnested) (first.divides unnested divides)

/-- What takes the place of a tree that has no divisions by zero. -/
theorem of_replacement (nonzero : e ≠ Expr.zero) (notDivisor : ¬Divisor invertible e)
    (regular : e.dividesByZero = false) (undivided : result.NegativeBases (Divisor invertible))
    (unnested : result.Unnested invertible) : Retains invertible e result where
  zero isZero := absurd isZero nonzero
  divisor divisor := absurd divisor notDivisor
  undivided _ := undivided
  unnested _ := unnested
  divides _ divides := absurd divides (by simp [regular])

/-- What is neither a number nor a symbol is no divisor itself. -/
theorem of_composite (notNum : e.isNum = false) (notSymbol : e.symbol? = none)
    (undivided : e.NegativeBases (Divisor invertible) → result.NegativeBases (Divisor invertible))
    (unnested : e.Unnested invertible → result.Unnested invertible)
    (divides : e.Unnested invertible → e.dividesByZero = true → result.dividesByZero = true) :
    Retains invertible e result where
  zero := by
    rintro rfl
    cases notNum
  divisor divisor := by
    obtain ⟨name, rfl, -⟩ | ⟨value, rfl, -⟩ := divisor
    · cases notSymbol
    · cases notNum
  undivided := undivided
  unnested := unnested
  divides := divides

/-- What retained trees pass on holds of all of them. -/
theorem forall_of_forall₂ {property property' : Expr → Prop}
    (retains : List.Forall₂ (Retains invertible) es results) (holds : ∀ e ∈ es, property e)
    (passes : ∀ e result, Retains invertible e result → property e → property' result) :
    ∀ result ∈ results, property' result := by
  intro result present
  obtain ⟨e, paired, retained⟩ := exists_mem_zip_of_forall₂ retains.flip present
  exact passes e result retained (holds e (List.of_mem_zip paired).2)

/-- A division by zero in one of several trees is retained in one of those rebuilt from them. -/
theorem exists_of_forall₂ (retains : List.Forall₂ (Retains invertible) es results)
    (unnested : ∀ e ∈ es, e.Unnested invertible) (divides : ∃ e ∈ es, e.dividesByZero = true) :
    ∃ result ∈ results, result.dividesByZero = true := by
  obtain ⟨e, member, divides⟩ := divides
  obtain ⟨result, paired, retained⟩ := exists_mem_zip_of_forall₂ retains member
  exact ⟨result, (List.of_mem_zip paired).2, retained.divides (unnested e member) divides⟩

/-- Sums lose no division by zero. -/
theorem add (retains : List.Forall₂ (Retains invertible) es results) :
    Retains invertible (.add es) (sum results) := by
  refine of_composite rfl rfl (fun undivided => ?_) (fun unnested => ?_) fun unnested divides => ?_
  · exact hereditary_undivided.sum (forall_of_forall₂ retains
      ((hereditary_undivided.add_iff es).mp undivided) fun _ _ => Retains.undivided)
  · exact composed_unnested.sum (forall_of_forall₂ retains
      (composed_unnested.terms es unnested) fun _ _ => Retains.unnested)
  · refine (dividesByZero_sum results).mpr
      (exists_of_forall₂ retains (composed_unnested.terms es unnested) ?_)
    exact (dividesByZero_iff.mp divides).resolve_left (by simp [isInverseOfZero])

/-- Products lose no division by zero. -/
theorem mul (retains : List.Forall₂ (Retains invertible) es results)
    (formed : prod results = some result) : Retains invertible (.mul es) result := by
  refine of_composite rfl rfl (fun undivided => ?_) (fun unnested => ?_) fun unnested divides => ?_
  · exact hereditary_undivided.prod formed (forall_of_forall₂ retains
      ((hereditary_undivided.mul_iff es).mp undivided) fun _ _ => Retains.undivided)
  · exact composed_unnested.prod formed (forall_of_forall₂ retains
      ((composed_unnested.mul_iff es).mp unnested) fun _ _ => Retains.unnested)
  · have parts := (composed_unnested.mul_iff es).mp unnested
    rw [dividesByZero_mul, List.any_eq_true] at divides
    exact (keepsDivisions_prodToDepth _ results result formed
      (forall_of_forall₂ retains parts fun _ _ => Retains.unnested)).2
        (exists_of_forall₂ retains parts divides)

/-- Powers lose no division by zero. -/
theorem pow {base inner : Expr} {exponent : Exponent} (retains : Retains invertible base inner)
    (powered : power inner exponent = some result) :
    Retains invertible (.pow base exponent) result := by
  refine of_composite rfl rfl (fun undivided => ?_) (fun unnested => ?_) fun unnested divides => ?_
  · obtain ⟨undivided, divisor⟩ := (hereditary_undivided.pow_iff base exponent).mp undivided
    exact hereditary_undivided.power powered (retains.undivided undivided) fun negative =>
      retains.divisor (divisor negative)
  · obtain ⟨inside, divisor⟩ := composed_unnested.of_pow base exponent unnested
    exact composed_unnested.power powered (retains.unnested inside) fun negative =>
      (divisor negative).imp retains.zero retains.undivided
  · have inside := (composed_unnested.of_pow base exponent unnested).1
    refine dividesByZero_power powered (retains.unnested inside) ?_
    exact ((dividesByZero_pow base exponent).mp divides).imp
      (fun both => ⟨retains.zero both.1, both.2⟩)
      fun divides => ⟨retains.divides inside divides, (unnested.uncancelled rfl).positive divides⟩

/-- Vectors and calls that are rebuilt from their children. -/
theorem of_args (notNum : e.isNum = false) (notSymbol : e.symbol? = none)
    (inverse : e.isInverseOfZero = false) (notPow : ∀ base exponent, result ≠ .pow base exponent)
    (trivialNode : UnnestedNode invertible result)
    (retains : List.Forall₂ (Retains invertible) e.args result.args) :
    Retains invertible e result := by
  refine of_composite notNum notSymbol (fun undivided => ?_) (fun unnested => ?_)
    fun unnested divides => ?_
  · exact negativeBases_iff.mpr ⟨fun base exponent same => absurd same (notPow base exponent),
      forall_of_forall₂ retains (fun _ member => undivided.arg member) fun _ _ => Retains.undivided⟩
  · exact unnested_iff.mpr ⟨trivialNode, forall_of_forall₂ retains (unnested_iff.mp unnested).2
      fun _ _ => Retains.unnested⟩
  · refine dividesByZero_iff.mpr (Or.inr
      (exists_of_forall₂ retains (unnested_iff.mp unnested).2 ?_))
    exact (dividesByZero_iff.mp divides).resolve_left (by simp [inverse])

/-- Vectors lose no division by zero. -/
theorem vector (retains : List.Forall₂ (Retains invertible) es results) :
    Retains invertible (.vector es) (.vector results) :=
  of_args rfl rfl rfl (by simp) trivial retains

/-- Calls lose no division by zero. -/
theorem call (head : Head) (retains : List.Forall₂ (Retains invertible) es results) :
    Retains invertible (.call head es) (.call head results) :=
  of_args rfl rfl rfl (by simp) trivial retains

/-- The last factor of a product may be split off. -/
theorem mul_append (before : List Expr) (e : Expr) :
    Retains invertible (.mul (before ++ [e])) (.mul [.mul before, e]) := by
  refine of_composite rfl rfl (fun undivided => ?_) (fun unnested => ?_) fun _ divides => ?_
  · obtain ⟨first, last⟩ :=
      List.forall_mem_append.mp ((hereditary_undivided.mul_iff _).mp undivided)
    exact (hereditary_undivided.mul_iff _).mpr (forall_mem_pair
      ⟨(hereditary_undivided.mul_iff _).mpr first, last e (List.mem_singleton_self e)⟩)
  · obtain ⟨first, last⟩ := List.forall_mem_append.mp ((composed_unnested.mul_iff _).mp unnested)
    exact (composed_unnested.mul_iff _).mpr (forall_mem_pair
      ⟨(composed_unnested.mul_iff _).mpr first, last e (List.mem_singleton_self e)⟩)
  · simpa [dividesByZero_mul] using divides

/-- A substitution retains divisions by zero if its replacements do. -/
theorem replaceWith {replacement? : Expr → Option Expr}
    (replaced : ∀ subterm new, replacement? subterm = some new → Retains invertible subterm new)
    (formed : Expr.replaceWith replacement? e = some result) : Retains invertible e result := by
  induction e using induction_args generalizing result with
  | step e ih =>
    have children : ∀ {results : List Expr},
        e.args.mapM (Expr.replaceWith replacement?) = some results →
        List.Forall₂ (Retains invertible) e.args results := fun rebuilt =>
      forall₂_of_mapM rebuilt fun arg member _ => ih arg member
    obtain found | ⟨-, rebuilds⟩ := replaceWith_cases formed
    · exact replaced e result found
    · cases rebuilds with
      | num value => exact refl _
      | sym name => exact refl _
      | add rebuilt => exact add (children rebuilt)
      | mul rebuilt formed => exact mul (children rebuilt) formed
      | pow rebuilt formed => exact pow (ih _ (List.mem_singleton_self _) rebuilt) formed
      | vector rebuilt => exact vector (children rebuilt)
      | call rebuilt => exact call _ (children rebuilt)

end Retains

section Expansion

variable {e left right result : Expr} {es results : List Expr}

/-- A tree with unnested divisions has a term. -/
theorem Unnested.exists_term (unnested : e.Unnested invertible) : ∃ term, term ∈ e.terms := by
  cases e with
  | add terms => exact List.exists_mem_of_ne_nil terms (unnested_iff.mp unnested).1
  | _ => exact ⟨_, List.mem_singleton_self _⟩

/-- A division by zero is in one of the terms. -/
theorem exists_singular_term (divides : e.dividesByZero = true) :
    ∃ term ∈ e.terms, term.dividesByZero = true := by
  cases e with
  | add terms => exact (dividesByZero_iff.mp divides).resolve_left (by simp [isInverseOfZero])
  | _ => exact ⟨_, List.mem_singleton_self _, divides⟩

/-- Every product of two terms contributes to the distributed product. -/
theorem exists_product_of_distribute {a b : Expr}
    (formed : Expr.distribute left right = some result) (inLeft : a ∈ left.terms)
    (inRight : b ∈ right.terms) :
    ∃ products product, result = sum products ∧ product ∈ products ∧
      prod [a, b] = some product := by
  obtain ⟨rows, multiplied, same⟩ := Option.bind_eq_some_iff.mp formed
  cases same
  obtain ⟨row, inRows, multiplied⟩ :=
    exists_mem_zip_of_forall₂ (mapM_eq_some_iff.mp multiplied) inLeft
  obtain ⟨product, inRow, multiplied⟩ :=
    exists_mem_zip_of_forall₂ (mapM_eq_some_iff.mp multiplied) inRight
  exact ⟨rows.flatten, product, rfl, List.mem_flatten.mpr
    ⟨row, (List.of_mem_zip inRows).2, (List.of_mem_zip inRow).2⟩, multiplied⟩

/-- A distributed product divides by zero if one of its factors does. -/
theorem dividesByZero_distribute (formed : Expr.distribute left right = some result)
    (unnestedLeft : left.Unnested invertible) (unnestedRight : right.Unnested invertible)
    (divides : left.dividesByZero = true ∨ right.dividesByZero = true) :
    result.dividesByZero = true := by
  obtain ⟨a, inLeft, b, inRight, divides⟩ : ∃ a ∈ left.terms, ∃ b ∈ right.terms,
      ∃ e ∈ [a, b], e.dividesByZero = true := by
    rcases divides with divides | divides
    · obtain ⟨a, inLeft, divides⟩ := exists_singular_term divides
      obtain ⟨b, inRight⟩ := unnestedRight.exists_term
      exact ⟨a, inLeft, b, inRight, a, by simp, divides⟩
    · obtain ⟨a, inLeft⟩ := unnestedLeft.exists_term
      obtain ⟨b, inRight, divides⟩ := exists_singular_term divides
      exact ⟨a, inLeft, b, inRight, b, by simp, divides⟩
  obtain ⟨products, product, rfl, member, multiplied⟩ :=
    exists_product_of_distribute formed inLeft inRight
  exact (dividesByZero_sum products).mpr ⟨product, member,
    (keepsDivisions_prodToDepth _ _ product multiplied (forall_mem_pair
      ⟨composed_unnested.of_mem_terms unnestedLeft a inLeft,
        composed_unnested.of_mem_terms unnestedRight b inRight⟩)).2 divides⟩

/-- A power that is multiplied out divides by zero if its base does. -/
theorem dividesByZero_distributeRepeatedly {count : Nat}
    (formed : distributeRepeatedly e count left = some result)
    (unnestedLeft : left.Unnested invertible) (unnested : e.Unnested invertible)
    (divides : left.dividesByZero = true ∨ 0 < count ∧ e.dividesByZero = true) :
    result.dividesByZero = true := by
  induction count generalizing left with
  | zero =>
    cases formed
    exact divides.resolve_right fun both => absurd both.1 (Nat.lt_irrefl 0)
  | succ count ih =>
    obtain ⟨product, distributed, formed⟩ := Option.bind_eq_some_iff.mp formed
    refine ih formed (composed_unnested.closed.distributive.distribute distributed unnestedLeft
      unnested) (Or.inl ?_)
    exact dividesByZero_distribute distributed unnestedLeft unnested (divides.imp_right And.right)

/-- What holds of two trees of a list holds of each. -/
theorem forall_of_mem_pair {property : Expr → Prop} (holds : ∀ e ∈ [left, right], property e) :
    property left ∧ property right :=
  ⟨holds left (by simp), holds right (by simp)⟩

namespace Retains

/-- Distributing a product of two trees loses no division by zero. -/
theorem distribute {a b : Expr} (retainsLeft : Retains invertible a left)
    (retainsRight : Retains invertible b right)
    (formed : Expr.distribute left right = some result) :
    Retains invertible (.mul [a, b]) result := by
  refine of_composite rfl rfl (fun undivided => ?_) (fun unnested => ?_) fun unnested divides => ?_
  · obtain ⟨first, second⟩ := forall_of_mem_pair ((hereditary_undivided.mul_iff _).mp undivided)
    exact hereditary_undivided.distribute formed (retainsLeft.undivided first)
      (retainsRight.undivided second)
  · obtain ⟨first, second⟩ := forall_of_mem_pair ((composed_unnested.mul_iff _).mp unnested)
    exact composed_unnested.closed.distributive.distribute formed (retainsLeft.unnested first)
      (retainsRight.unnested second)
  · obtain ⟨first, second⟩ := forall_of_mem_pair ((composed_unnested.mul_iff _).mp unnested)
    refine dividesByZero_distribute formed (retainsLeft.unnested first)
      (retainsRight.unnested second) ?_
    rw [dividesByZero_mul] at divides
    simp only [List.any_cons, List.any_nil, Bool.or_false, Bool.or_eq_true] at divides
    exact divides.imp (retainsLeft.divides first) (retainsRight.divides second)

/-- Distributing a product by one factor after the other retains divisions by zero. -/
theorem distributeFrom {before : List Expr} {start : Expr}
    (starts : Retains invertible (.mul before) start)
    (retains : List.Forall₂ (Retains invertible) es results)
    (formed : results.foldlM Expr.distribute start = some result) :
    Retains invertible (.mul (before ++ es)) result := by
  induction retains generalizing before start with
  | nil =>
    cases formed
    rwa [List.append_nil]
  | @cons e expanded es results first _ ih =>
    rw [List.foldlM_cons] at formed
    obtain ⟨product, distributed, formed⟩ := Option.bind_eq_some_iff.mp formed
    rw [List.append_cons]
    exact ih ((mul_append before e).trans (starts.distribute first distributed)) formed

/-- Multiplying out a power retains divisions by zero. -/
theorem distributeRepeatedly {base : Expr} {terms : List Expr} {exponent : Exponent}
    (retains : Retains invertible base (.add terms)) (greater : 1 < exponent.val)
    (formed : Expr.distributeRepeatedly (.add terms) exponent.val.toNat one = some result) :
    Retains invertible (.pow base exponent) result := by
  refine of_composite rfl rfl (fun undivided => ?_) (fun unnested => ?_) fun unnested divides => ?_
  · exact hereditary_undivided.distributeRepeatedly formed (hereditary_undivided.num 1)
      (retains.undivided ((hereditary_undivided.pow_iff base exponent).mp undivided).1)
  · exact composed_unnested.closed.distributeRepeatedly formed (composed_unnested.num 1)
      (retains.unnested (composed_unnested.of_pow base exponent unnested).1)
  · have inside := (composed_unnested.of_pow base exponent unnested).1
    rcases (dividesByZero_pow base exponent).mp divides with ⟨-, negative⟩ | divides
    · omega
    · exact dividesByZero_distributeRepeatedly formed (composed_unnested.num 1)
        (retains.unnested inside) (Or.inr ⟨by omega, retains.divides inside divides⟩)

/-- Writing out an inner product retains divisions by zero. -/
theorem innerProduct {left right : List Expr} (sameLength : left.length = right.length)
    (written : Expr.innerProduct left right = some result) :
    Retains invertible (.call .dot [.vector left, .vector right]) result := by
  have vectors : ∀ {e : Expr}, e ∈ left ∨ e ∈ right →
      ∃ arg ∈ [Expr.vector left, .vector right], e ∈ arg.args := by
    rintro e (inside | inside)
    · exact ⟨.vector left, by simp, inside⟩
    · exact ⟨.vector right, by simp, inside⟩
  have unnestedPart : (Expr.call .dot [.vector left, .vector right]).Unnested invertible →
      ∀ e, e ∈ left ∨ e ∈ right → e.Unnested invertible := by
    intro unnested e part
    obtain ⟨arg, member, inside⟩ := vectors part
    exact (unnested_iff.mp ((unnested_iff.mp unnested).2 arg member)).2 e inside
  refine of_composite rfl rfl (fun undivided => ?_) (fun unnested => ?_) fun unnested divides => ?_
  · have part : ∀ e, e ∈ left ∨ e ∈ right → e.NegativeBases (Divisor invertible) := by
      intro e part
      obtain ⟨arg, member, inside⟩ := vectors part
      exact ((negativeBases_iff.mp undivided).2 arg member).arg inside
    exact hereditary_undivided.innerProduct written (fun e inside => part e (Or.inl inside))
      fun e inside => part e (Or.inr inside)
  · exact composed_unnested.closed.innerProduct written
      (fun e inside => unnestedPart unnested e (Or.inl inside))
      fun e inside => unnestedPart unnested e (Or.inr inside)
  · obtain ⟨products, multiplied, same⟩ := Option.bind_eq_some_iff.mp written
    cases same
    obtain ⟨pair, member, divides⟩ : ∃ pair ∈ left.zip right,
        ∃ e ∈ [pair.1, pair.2], e.dividesByZero = true := by
      rw [dividesByZero_iff] at divides
      simp only [isInverseOfZero, args, List.mem_cons, List.not_mem_nil, or_false,
        exists_eq_or_imp, exists_eq_left, dividesByZero_iff (e := .vector _), Bool.false_eq_true,
        false_or] at divides
      rcases divides with ⟨e, inside, divides⟩ | ⟨e, inside, divides⟩
      · rw [← List.map_fst_zip sameLength.le] at inside
        obtain ⟨pair, member, rfl⟩ := List.mem_map.mp inside
        exact ⟨pair, member, pair.1, by simp, divides⟩
      · rw [← List.map_snd_zip sameLength.ge] at inside
        obtain ⟨pair, member, rfl⟩ := List.mem_map.mp inside
        exact ⟨pair, member, pair.2, by simp, divides⟩
    obtain ⟨inLeft, inRight⟩ := List.of_mem_zip member
    obtain ⟨product, paired, multiplied⟩ :=
      exists_mem_zip_of_forall₂ (mapM_eq_some_iff.mp multiplied) member
    exact (dividesByZero_sum products).mpr ⟨product, (List.of_mem_zip paired).2,
      (keepsDivisions_prodToDepth _ _ product multiplied (forall_mem_pair
        ⟨unnestedPart unnested _ (Or.inl inLeft), unnestedPart unnested _ (Or.inr inRight)⟩)).2
          divides⟩

/-- Expansion retains divisions by zero. -/
theorem expand (expands : Expr.expand e = some result) : Retains invertible e result := by
  refine expand_induction (motive := Retains invertible) (fun _ => refl _) (fun _ => refl _)
    (fun _ _ => add) ?mul ?powSum ?pow (fun _ _ => vector) ?dot ?call expands
  case mul =>
    intro factors results result each distributed
    have starts : Retains invertible (.mul []) one :=
      of_composite rfl rfl (fun _ => hereditary_undivided.num 1)
        (fun _ => composed_unnested.num 1) fun _ divides => nomatch divides
    exact starts.distributeFrom each distributed
  case powSum =>
    intro base terms exponent result retains greater multiplied
    exact retains.distributeRepeatedly greater multiplied
  case pow =>
    intro base exponent inner result _ retains _ powered
    exact retains.pow powered
  case dot =>
    intro left right product result sameLength written retains
    exact (innerProduct sameLength written).trans retains
  case call =>
    intro head args results _ _ each
    exact call head each

end Retains

end Expansion

section Exposure

variable {e result : Expr} {es results : List Expr}

/-- A term in which divisions are not nested divides by zero. -/
def Exposed (invertible : String → Prop) (e : Expr) : Prop :=
  ∃ term ∈ e.terms, term.Unnested invertible ∧ term.dividesByZero = true

/-- A tree with an exposed division by zero divides by zero. -/
theorem Exposed.dividesByZero (exposed : e.Exposed invertible) : e.dividesByZero = true := by
  obtain ⟨term, member, -, divides⟩ := exposed
  cases e with
  | add terms => exact dividesByZero_of_mem_args member divides
  | _ => exact List.mem_singleton.mp member ▸ divides

/-- A division by zero is exposed if divisions are not nested. -/
theorem Unnested.exposed (unnested : e.Unnested invertible) (divides : e.dividesByZero = true) :
    e.Exposed invertible := by
  obtain ⟨term, member, divides⟩ := exists_singular_term divides
  exact ⟨term, member, composed_unnested.of_mem_terms unnested term member, divides⟩

/-- A division by zero in a summand is exposed in the sum. -/
theorem exposed_ofTerms {terms : List Expr} {term : Expr} (member : term ∈ terms)
    (unnested : term.Unnested invertible) (divides : term.dividesByZero = true) :
    (ofTerms terms).Exposed invertible := by
  rcases terms with _ | ⟨first, _ | ⟨second, rest⟩⟩
  · cases member
  · exact List.mem_singleton.mp member ▸ unnested.exposed divides
  · exact ⟨term, member, unnested, divides⟩

/-- A sum keeps an exposed division by zero of an operand, whatever is added to it. -/
theorem exposed_sum (member : e ∈ es) (exposed : e.Exposed invertible) :
    (sum es).Exposed invertible := by
  obtain ⟨term, inside, unnested, divides⟩ := exposed
  obtain ⟨summand, inTerm, divides⟩ := exists_singular_summand term divides
  have unnested := composed_unnested.termwise.summands term unnested summand inTerm
  have present : summand ∈ summandsOfAll es := by
    rw [summandsOfAll_eq_flatMap]
    refine List.mem_flatMap.mpr ⟨e, member, ?_⟩
    cases e with
    | add terms =>
      rw [summands, summandsOfAll_eq_flatMap]
      exact List.mem_flatMap.mpr ⟨term, inside, inTerm⟩
    | _ => exact List.mem_singleton.mp inside ▸ inTerm
  have notNum : summand.isNum = false := by
    cases summand <;> first | rfl | cases divides
  obtain ⟨coefficient, found⟩ := LikeTerms.exists_entry present notNum
  have dividesMonomial := (dividesByZero_splitCoefficient summand).trans divides
  -- the coefficient may vanish, but the term stays because its monomial divides by zero
  have kept : LikeTerms.keeps summand.splitCoefficient.2 coefficient = true := by
    simp [LikeTerms.keeps, dividesMonomial]
  have collected : scale coefficient summand.splitCoefficient.2 ∈
      (LikeTerms.ofTerms (summandsOfAll es)).toTerms := by
    rw [LikeTerms.toTerms_eq_sort, mem_sort]
    exact List.mem_append_left _ (List.mem_map.mpr
      ⟨_, List.mem_filter.mpr ⟨Tally.mem_of_get? found, kept⟩, rfl⟩)
  have unnestedTerm := composed_unnested.scale coefficient
    (composed_unnested.splitCoefficient unnested)
  have dividesTerm : (scale coefficient summand.splitCoefficient.2).dividesByZero = true := by
    rw [dividesByZero_scale, dividesMonomial]
  rw [sum]
  exact exposed_ofTerms collected unnestedTerm dividesTerm

/-- Rebuilding a tree term by term keeps an exposed division by zero. -/
theorem Exposed.rebuilt (exposed : e.Exposed invertible)
    (sums : ∀ terms, e = .add terms → ∃ results,
      List.Forall₂ (Retains invertible) terms results ∧ result = sum results)
    (others : (∀ terms, e ≠ .add terms) → Retains invertible e result) :
    result.Exposed invertible := by
  obtain ⟨term, member, unnested, divides⟩ := exposed
  by_cases isSum : ∃ terms, e = .add terms
  · obtain ⟨terms, rfl⟩ := isSum
    obtain ⟨results, retains, rfl⟩ := sums terms rfl
    obtain ⟨rebuilt, paired, retained⟩ := exists_mem_zip_of_forall₂ retains member
    exact exposed_sum (List.of_mem_zip paired).2
      ((retained.unnested unnested).exposed (retained.divides unnested divides))
  · have notSum : ∀ terms, e ≠ .add terms := fun terms same => isSum ⟨terms, same⟩
    rw [terms_of_not_add notSum, List.mem_singleton] at member
    subst member
    have retained := others notSum
    exact (retained.unnested unnested).exposed (retained.divides unnested divides)

/-- Replacing subtrees keeps an exposed division by zero. -/
theorem Exposed.replaceWith (exposed : e.Exposed invertible) {replacement? : Expr → Option Expr}
    (replaced : ∀ subterm new, replacement? subterm = some new → Retains invertible subterm new)
    (sums : ∀ terms, replacement? (.add terms) = none)
    (formed : Expr.replaceWith replacement? e = some result) : result.Exposed invertible := by
  refine exposed.rebuilt (fun terms same => ?_) fun _ => Retains.replaceWith replaced formed
  subst same
  cases rebuilds_of_none (sums terms) formed with
  | add rebuilt =>
    exact ⟨_, forall₂_of_mapM rebuilt fun e _ result formed =>
      Retains.replaceWith replaced formed, rfl⟩

/-- Expansion keeps an exposed division by zero. -/
theorem Exposed.expand (exposed : e.Exposed invertible) (expands : Expr.expand e = some result) :
    result.Exposed invertible := by
  refine exposed.rebuilt (fun terms same => ?_) fun _ => Retains.expand expands
  subst same
  cases expand_cases expands with
  | add expanded =>
    exact ⟨_, forall₂_of_mapM expanded fun e _ result expands => Retains.expand expands, rfl⟩

/-- Subtracting from a tree keeps an exposed division by zero. -/
theorem exposed_sub {left right difference : Expr} (exposed : left.Exposed invertible)
    (subtracts : left.sub right = some difference) : difference.Exposed invertible := by
  obtain ⟨negated, -, same⟩ := Option.bind_eq_some_iff.mp subtracts
  cases same
  exact exposed_sum List.mem_cons_self exposed

end Exposure

section Plainness

variable {e result : Expr} {es : List Expr}

/-- A tree that divides by nonzero numbers and invertible symbols only, in which divisions are not
nested. -/
structure Plain (invertible : String → Prop) (e : Expr) : Prop where
  undivided : e.NegativeBases (Divisor invertible)
  unnested : e.Unnested invertible

/-- Sums, products and powers of plain trees are plain where their divisors are. -/
theorem composed_plain : Composed (Plain invertible) (Divisor invertible) where
  num value := ⟨hereditary_undivided.num value, composed_unnested.num value⟩
  terms terms plain term member :=
    ⟨(hereditary_undivided.add_iff terms).mp plain.undivided term member,
      composed_unnested.terms terms plain.unnested term member⟩
  add first second rest plain :=
    ⟨(hereditary_undivided.add_iff _).mpr fun term member => (plain term member).undivided,
      composed_unnested.add first second rest fun term member => (plain term member).unnested⟩
  mul_iff factors :=
    ⟨fun plain factor member =>
      ⟨(hereditary_undivided.mul_iff factors).mp plain.undivided factor member,
        (composed_unnested.mul_iff factors).mp plain.unnested factor member⟩,
      fun plain =>
        ⟨(hereditary_undivided.mul_iff factors).mpr fun factor member =>
          (plain factor member).undivided,
          (composed_unnested.mul_iff factors).mpr fun factor member =>
            (plain factor member).unnested⟩⟩
  of_pow base exponent plain :=
    have undivided := (hereditary_undivided.pow_iff base exponent).mp plain.undivided
    ⟨⟨undivided.1, (composed_unnested.of_pow base exponent plain.unnested).1⟩, undivided.2⟩
  pow base exponent plain divisor nonzero negative :=
    ⟨(hereditary_undivided.pow_iff base exponent).mpr ⟨plain.undivided, divisor⟩,
      composed_unnested.pow base exponent plain.unnested (fun _ => Or.inr plain.undivided) nonzero
        negative⟩
  base_of_mul := hereditary_undivided.base_of_mul
  base_of_pow := hereditary_undivided.base_of_pow

/-- Vectors and calls of plain trees are plain. -/
theorem plain_of_args (notPow : ∀ base exponent, e ≠ .pow base exponent)
    (trivialNode : UnnestedNode invertible e) (plain : ∀ arg ∈ e.args, arg.Plain invertible) :
    e.Plain invertible where
  undivided := negativeBases_iff.mpr ⟨fun base exponent same => absurd same (notPow base exponent),
    fun arg member => (plain arg member).undivided⟩
  unnested := unnested_iff.mpr ⟨trivialNode, fun arg member => (plain arg member).unnested⟩

/-- Symbols are plain. -/
theorem plain_sym (name : String) : (Expr.sym name).Plain invertible :=
  plain_of_args (by simp) trivial fun _ member => nomatch member

namespace Retains

/-- A plain tree may take the place of one that neither is a divisor nor divides by zero. -/
theorem of_plain (nonzero : e ≠ Expr.zero) (notDivisor : ¬Divisor invertible e)
    (regular : e.dividesByZero = false) (plain : result.Plain invertible) :
    Retains invertible e result :=
  of_replacement nonzero notDivisor regular plain.undivided plain.unnested

/-- A sum of one term loses nothing to the term. -/
theorem add_singleton (e : Expr) : Retains invertible (.add [e]) e := by
  refine of_composite rfl rfl (fun undivided => ?_) (fun unnested => ?_) fun _ divides => ?_
  · exact (hereditary_undivided.add_iff [e]).mp undivided e (List.mem_singleton_self e)
  · exact composed_unnested.terms [e] unnested e (List.mem_singleton_self e)
  · simpa [dividesByZero_iff (e := .add [e]), isInverseOfZero, args] using divides

/-- A product of one factor loses nothing to the factor. -/
theorem mul_singleton (e : Expr) : Retains invertible (.mul [e]) e := by
  refine of_composite rfl rfl (fun undivided => ?_) (fun unnested => ?_) fun _ divides => ?_
  · exact (hereditary_undivided.mul_iff [e]).mp undivided e (List.mem_singleton_self e)
  · exact (composed_unnested.mul_iff [e]).mp unnested e (List.mem_singleton_self e)
  · simpa [dividesByZero_mul] using divides

/-- The last term of a sum may be split off. -/
theorem add_append {before : List Expr} (nonempty : before ≠ []) (e : Expr) :
    Retains invertible (.add (before ++ [e])) (.add [.add before, e]) := by
  refine of_composite rfl rfl (fun undivided => ?_) (fun unnested => ?_) fun _ divides => ?_
  · obtain ⟨first, last⟩ :=
      List.forall_mem_append.mp ((hereditary_undivided.add_iff _).mp undivided)
    exact (hereditary_undivided.add_iff _).mpr (forall_mem_pair
      ⟨(hereditary_undivided.add_iff _).mpr first, last e (List.mem_singleton_self e)⟩)
  · obtain ⟨first, last⟩ := List.forall_mem_append.mp (composed_unnested.terms _ unnested)
    refine unnested_iff.mpr ⟨List.cons_ne_nil _ _, forall_mem_pair
      ⟨unnested_iff.mpr ⟨nonempty, first⟩, last e (List.mem_singleton_self e)⟩⟩
  · simpa [dividesByZero_iff (e := .add _), isInverseOfZero, args, or_and_right, exists_or]
      using divides

/-- Forming all sums and products anew retains divisions by zero. -/
theorem normalize (formed : e.normalize = some result) : Retains invertible e result := by
  refine .replaceWith (fun subterm new found => ?_) formed
  cases found

end Retains

end Plainness

end FiniteVolume.Expr
