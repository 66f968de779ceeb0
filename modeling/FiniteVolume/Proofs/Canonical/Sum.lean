import FiniteVolume.Proofs.Canonical.Basic

/-!
# Sums are canonical

The sum of canonical trees is canonical, and a canonical sum is the sum of its terms in any order
(`sum_of_perm`).
-/

namespace FiniteVolume.Expr

/-- The terms of a canonical tree are not sums. -/
theorem Canonical.not_add_of_mem_terms {e term : Expr} (canonical : e.Canonical)
    (member : term ∈ e.terms) : term.Canonical ∧ ∀ inner, term ≠ .add inner := by
  cases e with
  | add terms =>
    obtain ⟨sum, parts⟩ := canonical_add_iff.mp canonical
    refine ⟨parts term member, ?_⟩
    rintro inner rfl
    exact sum.flat inner member
  | _ =>
    rw [List.mem_singleton.mp member]
    exact ⟨canonical, fun _ => by simp⟩

/-- A tree that is no sum is its own summand. -/
theorem summands_of_not_add {e : Expr} (notAdd : ∀ terms, e ≠ .add terms) : e.summands = [e] :=
  (summands_cases e).resolve_left fun ⟨terms, same⟩ => notAdd terms same

/-- Trees that are no sums are their own summands. -/
theorem summandsOfAll_of_not_add {es : List Expr} (notAdd : ∀ e ∈ es, ∀ terms, e ≠ .add terms) :
    summandsOfAll es = es := by
  rw [summandsOfAll_eq_flatMap,
    List.flatMap_congr fun e member => summands_of_not_add (notAdd e member),
    List.flatMap_singleton']

/-- No sum is nested in a canonical sum. -/
theorem Canonical.summands {e : Expr} (canonical : e.Canonical) : e.summands = e.terms := by
  cases e with
  | add terms =>
    exact summandsOfAll_of_not_add fun term member => (canonical.not_add_of_mem_terms member).2
  | _ => rfl

/-- The summands of canonical trees are their terms. -/
theorem summandsOfAll_of_canonical {es : List Expr} (canonical : ∀ e ∈ es, e.Canonical) :
    summandsOfAll es = es.flatMap terms := by
  rw [summandsOfAll_eq_flatMap]
  exact List.flatMap_congr fun e member => (canonical e member).summands

namespace LikeTerms

/-- Canonical terms are collected by their monomials. -/
theorem monomials_of_canonical {terms : List Expr}
    (canonical : ∀ term ∈ terms, term.Canonical ∧ ∀ inner, term ≠ .add inner) :
    (ofTerms terms).coefficients.Ascending ∧
      ∀ entry ∈ (ofTerms terms).coefficients, entry.1.Monomial := by
  induction terms with
  | nil => exact ⟨.nil, fun _ member => nomatch member⟩
  | cons term rest ih =>
    obtain ⟨first, later⟩ := List.forall_mem_cons.mp canonical
    obtain ⟨ascending, keys⟩ := ih later
    change (insert term (ofTerms rest)).coefficients.Ascending ∧
      ∀ entry ∈ (insert term (ofTerms rest)).coefficients, entry.1.Monomial
    cases isNum : term.isNum with
    | true =>
      obtain ⟨value, rfl⟩ := eq_num_of_isNum isNum
      exact ⟨ascending, keys⟩
    | false =>
      rw [insert_of_not_num isNum]
      refine ⟨Tally.insert_ascending ascending, fun entry member => ?_⟩
      rcases (Tally.mem_insert ascending).mp member with rfl | ⟨member, -⟩
      · exact (first.1.split isNum first.2).1
      · exact keys entry member

/-- Every monomial of a collected sum is that of a term. -/
theorem exists_term_of_mem {terms : List Expr} {entry : Expr × Rat}
    (member : entry ∈ (ofTerms terms).coefficients) :
    ∃ term ∈ terms, term.isNum = false ∧ term.splitCoefficient.2 = entry.1 := by
  induction terms with
  | nil => cases member
  | cons term rest ih =>
    have old : entry ∈ (ofTerms rest).coefficients →
        ∃ term' ∈ term :: rest, term'.isNum = false ∧ term'.splitCoefficient.2 = entry.1 := by
      intro member
      obtain ⟨source, inside, same⟩ := ih member
      exact ⟨source, List.mem_cons_of_mem _ inside, same⟩
    change entry ∈ (insert term (ofTerms rest)).coefficients at member
    cases isNum : term.isNum with
    | true =>
      obtain ⟨value, rfl⟩ := eq_num_of_isNum isNum
      exact old member
    | false =>
      rw [insert_of_not_num isNum] at member
      rcases (Tally.mem_insert (ascending_ofTerms rest)).mp member with rfl | ⟨member, -⟩
      · exact ⟨term, List.mem_cons_self, isNum, rfl⟩
      · exact old member

/-- A monomial is kept with coefficient zero only if it divides by zero. -/
theorem regular_of_keeps {monomial : Expr} {coefficient : Rat} (kept : keeps monomial coefficient) :
    coefficient = 0 → monomial.dividesByZero = true := by
  rintro rfl
  simpa [keeps] using kept

/-- The terms that stay in a sum before they are sorted. -/
def unsorted (collected : LikeTerms) : List Expr :=
  ((collected.coefficients.filter fun entry => keeps entry.1 entry.2).map
      fun entry => scale entry.2 entry.1) ++
    if collected.constant = 0 then [] else [.num collected.constant]

/-- The terms that are written are the collected ones in order. -/
theorem toTerms_eq_sort (collected : LikeTerms) : collected.toTerms = sort collected.unsorted := by
  unfold toTerms unsorted
  split <;> simp

variable {collected : LikeTerms}

/-- What is left of collected canonical terms is a number or a coefficient in front of one of the
monomials. -/
theorem mem_unsorted_cases {term : Expr} (member : term ∈ collected.unsorted) :
    (term = .num collected.constant ∧ collected.constant ≠ 0) ∨
      ∃ entry ∈ collected.coefficients, keeps entry.1 entry.2 = true ∧
        term = scale entry.2 entry.1 := by
  rcases List.mem_append.mp member with scaled | constant
  · obtain ⟨entry, kept, rfl⟩ := List.mem_map.mp scaled
    obtain ⟨inside, kept⟩ := List.mem_filter.mp kept
    exact Or.inr ⟨entry, inside, kept, rfl⟩
  · split at constant
    · cases constant
    · exact Or.inl ⟨List.mem_singleton.mp constant, ‹_›⟩

/-- The collected terms have different monomials. -/
theorem unsorted_monomials (ascending : collected.coefficients.Ascending)
    (keys : ∀ entry ∈ collected.coefficients, entry.1.Monomial) :
    collected.unsorted.Pairwise fun left right => left.monomial ≠ right.monomial := by
  have monomial_scale : ∀ entry ∈ collected.coefficients.filter fun entry => keeps entry.1 entry.2,
      (scale entry.2 entry.1).monomial = entry.1 := by
    intro entry member
    obtain ⟨inside, kept⟩ := List.mem_filter.mp member
    obtain ⟨-, notNum, -, split⟩ := (keys entry inside).scale (regular_of_keeps kept)
    rw [monomial_of_not_num notNum, split]
  refine List.pairwise_append.mpr ⟨?_, ?_, ?_⟩
  · rw [List.pairwise_map]
    refine ((ascending.sublist List.filter_sublist).imp_of_mem ?_)
    intro left right inLeft inRight before same
    rw [monomial_scale left inLeft, monomial_scale right inRight] at same
    exact before_irrefl _ (same ▸ before)
  · split
    · exact .nil
    · exact List.pairwise_singleton _ _
  · intro term member constant isConstant
    obtain ⟨entry, inside, rfl⟩ := List.mem_map.mp member
    rw [monomial_scale entry inside]
    split at isConstant
    · cases isConstant
    · rw [List.mem_singleton.mp isConstant]
      intro same
      have notNum := (keys entry (List.mem_filter.mp inside).1).notNum
      rw [same] at notNum
      cases notNum

end LikeTerms

/-- At most one of several terms with different monomials is a number. -/
theorem constants_of_monomials {terms : List Expr}
    (monomials : terms.Pairwise fun left right => left.monomial ≠ right.monomial) :
    (terms.filter isNum).length ≤ 1 := by
  have different := monomials.sublist (List.filter_sublist (p := isNum))
  match numbers : terms.filter isNum with
  | [] => exact Nat.zero_le 1
  | [_] => exact le_refl 1
  | first :: second :: rest =>
    have isNum : ∀ term ∈ first :: second :: rest, term.isNum = true := fun term member =>
      List.of_mem_filter (numbers ▸ member)
    obtain ⟨value, rfl⟩ := eq_num_of_isNum (isNum first (by simp))
    obtain ⟨value', rfl⟩ := eq_num_of_isNum (isNum second (by simp))
    rw [numbers] at different
    exact absurd rfl ((List.pairwise_cons.mp different).1 (.num value') List.mem_cons_self)

/-- Terms with different monomials make a canonical tree once they are sorted. -/
theorem canonical_ofTerms_sort {terms : List Expr}
    (canonical : ∀ term ∈ terms, term.Canonical ∧ ∀ inner, term ≠ .add inner)
    (monomials : terms.Pairwise fun left right => left.monomial ≠ right.monomial)
    (regular : ∀ term ∈ terms, term.coefficient = 0 → term.dividesByZero = true) :
    (ofTerms (sort terms)).Canonical := by
  have parts : ∀ term ∈ sort terms, term.Canonical ∧ ∀ inner, term ≠ .add inner :=
    fun term member => canonical term (mem_sort.mp member)
  have different : (sort terms).Pairwise fun left right => left.monomial ≠ right.monomial :=
    ((sort_perm terms).pairwise_iff fun different => Ne.symm different).mpr monomials
  have nodup : terms.Nodup := monomials.imp fun different same => different (congrArg _ same)
  match sorted : sort terms with
  | [] => exact canonical_num 0
  | [term] => exact (parts term (by simp [sorted])).1
  | first :: second :: rest =>
    rw [sorted] at parts different
    refine canonical_add_iff.mpr ⟨?_, fun term member => (parts term member).1⟩
    exact {
      several := by simp
      ascending := sorted ▸ sort_ascending nodup
      flat := fun inner member => (parts _ member).2 inner rfl
      constants := constants_of_monomials different
      monomials := different
      coefficients := fun term member => regular term (mem_sort.mp (sorted ▸ member)) }

/-- The sum of canonical trees is canonical. -/
theorem canonical_sum {es : List Expr} (canonical : ∀ e ∈ es, e.Canonical) :
    (sum es).Canonical := by
  have terms : ∀ term ∈ summandsOfAll es, term.Canonical ∧ ∀ inner, term ≠ .add inner := by
    intro term member
    rw [summandsOfAll_of_canonical canonical, List.mem_flatMap] at member
    obtain ⟨e, inside, member⟩ := member
    exact (canonical e inside).not_add_of_mem_terms member
  obtain ⟨ascending, keys⟩ := LikeTerms.monomials_of_canonical terms
  rw [sum, LikeTerms.toTerms_eq_sort]
  refine canonical_ofTerms_sort ?_ (LikeTerms.unsorted_monomials ascending keys) ?_
  · intro term member
    rcases LikeTerms.mem_unsorted_cases member with ⟨rfl, -⟩ | ⟨entry, inside, kept, rfl⟩
    · exact ⟨canonical_num _, fun _ => by simp⟩
    · obtain ⟨canonical, -, notAdd, -⟩ :=
        (keys entry inside).scale (LikeTerms.regular_of_keeps kept)
      exact ⟨canonical, notAdd⟩
  · intro term member zero
    rcases LikeTerms.mem_unsorted_cases member with ⟨rfl, nonzero⟩ | ⟨entry, inside, kept, rfl⟩
    · exact absurd zero nonzero
    · have regular := LikeTerms.regular_of_keeps kept
      obtain ⟨-, notNum, -, split⟩ := (keys entry inside).scale regular
      rw [coefficient_of_not_num notNum, split] at zero
      rw [dividesByZero_scale]
      exact regular zero

namespace LikeTerms

/-- Terms with different monomials are collected as they are. -/
theorem ofTerms_perm {terms : List Expr}
    (canonical : ∀ term ∈ terms, term.Canonical ∧ ∀ inner, term ≠ .add inner)
    (monomials : terms.Pairwise fun left right => left.monomial ≠ right.monomial) :
    (ofTerms terms).coefficients.Perm ((terms.filter fun term => !term.isNum).map
        fun term => (term.monomial, term.coefficient)) ∧
      (ofTerms terms).constant = ((terms.filter isNum).map coefficient).sum := by
  induction terms with
  | nil => exact ⟨.refl _, rfl⟩
  | cons term rest ih =>
    obtain ⟨first, later⟩ := List.forall_mem_cons.mp canonical
    obtain ⟨new, monomials⟩ := List.pairwise_cons.mp monomials
    obtain ⟨perm, constant⟩ := ih later monomials
    have ascending := (monomials_of_canonical later).1
    change (insert term (ofTerms rest)).coefficients.Perm _ ∧
      (insert term (ofTerms rest)).constant = _
    cases isNum : term.isNum with
    | true =>
      obtain ⟨value, rfl⟩ := eq_num_of_isNum isNum
      rw [List.filter_cons_of_neg (by simp [isNum]), List.filter_cons_of_pos isNum, List.map_cons,
        List.sum_cons, ← constant]
      exact ⟨perm, Rat.add_comm _ _⟩
    | false =>
      have absent : ∀ entry ∈ (ofTerms rest).coefficients, entry.1 ≠ term.monomial := by
        intro entry member same
        obtain ⟨other, inside, rfl⟩ := List.mem_map.mp (perm.mem_iff.mp member)
        exact new other (List.mem_filter.mp inside).1 same.symm
      have unknown : (ofTerms rest).coefficients.get? term.monomial = none := by
        cases found : (ofTerms rest).coefficients.get? term.monomial with
        | none => rfl
        | some value => exact absurd rfl (absent _ (Tally.mem_of_get? found))
      rw [List.filter_cons_of_pos (by simp [isNum]), List.filter_cons_of_neg (by simp [isNum]),
        insert_of_not_num isNum, ← monomial_of_not_num isNum, ← coefficient_of_not_num isNum,
        unknown, Option.getD_none, Rat.zero_add]
      refine ⟨(Tally.insert_perm ascending).trans ?_, constant⟩
      rw [Tally.without_eq_self absent]
      exact perm.cons _

end LikeTerms

/-- A canonical term is put together from its coefficient and its monomial. -/
theorem Canonical.scale_coefficient {e : Expr} (canonical : e.Canonical)
    (notNum : e.isNum = false) (notAdd : ∀ terms, e ≠ .add terms) :
    scale e.coefficient e.monomial = e := by
  rw [coefficient_of_not_num notNum, monomial_of_not_num notNum]
  exact (canonical.split notNum notAdd).2.symm

/-- Terms with different monomials are what is left after they are collected. -/
theorem unsorted_perm {terms : List Expr}
    (canonical : ∀ term ∈ terms, term.Canonical ∧ ∀ inner, term ≠ .add inner)
    (different : terms.Pairwise fun left right => left.monomial ≠ right.monomial)
    (regular : ∀ term ∈ terms, term.coefficient = 0 → term.dividesByZero = true) :
    (LikeTerms.ofTerms terms).unsorted.Perm terms := by
  obtain ⟨perm, constant⟩ := LikeTerms.ofTerms_perm canonical different
  have scaled : ∀ term ∈ terms.filter fun term => !term.isNum,
      scale term.coefficient term.monomial = term := by
    intro term member
    obtain ⟨inside, notNum⟩ := List.mem_filter.mp member
    obtain ⟨canonical, notAdd⟩ := canonical term inside
    exact canonical.scale_coefficient (by simpa using notNum) notAdd
  have kept : ∀ entry ∈ (LikeTerms.ofTerms terms).coefficients,
      LikeTerms.keeps entry.1 entry.2 = true := by
    intro entry member
    obtain ⟨term, inside, rfl⟩ := List.mem_map.mp (perm.mem_iff.mp member)
    have divides : term.coefficient = 0 → term.monomial.dividesByZero = true := by
      rw [← dividesByZero_scale term.coefficient, scaled term inside]
      exact regular term (List.mem_filter.mp inside).1
    by_cases zero : term.coefficient = 0
    · simp [LikeTerms.keeps, divides zero]
    · simp [LikeTerms.keeps, zero]
  have monomials : (((LikeTerms.ofTerms terms).coefficients.filter fun entry =>
      LikeTerms.keeps entry.1 entry.2).map fun entry => scale entry.2 entry.1).Perm
        (terms.filter fun term => !term.isNum) := by
    rw [List.filter_eq_self.mpr kept]
    refine (perm.map _).trans (List.Perm.of_eq ?_)
    rw [List.map_map]
    exact (List.map_congr_left scaled).trans (List.map_id _)
  have constants : (if (LikeTerms.ofTerms terms).constant = 0 then []
      else [Expr.num (LikeTerms.ofTerms terms).constant]) = terms.filter isNum := by
    rw [constant]
    match numbers : terms.filter isNum, constants_of_monomials different with
    | [], _ => rfl
    | [number], _ =>
      obtain ⟨inside, isNum⟩ := List.mem_filter.mp
        (show number ∈ terms.filter isNum by simp [numbers])
      obtain ⟨value, rfl⟩ := eq_num_of_isNum isNum
      have nonzero : value ≠ 0 := fun zero => by
        have divides := regular _ inside zero
        simp at divides
      simp [coefficient, nonzero]
  rw [LikeTerms.unsorted, constants]
  refine (monomials.append_right _).trans (List.perm_append_comm.trans ?_)
  exact List.filter_append_perm isNum terms

/-- The terms of a canonical sum add up to it in any order. -/
theorem sum_of_perm {es terms : List Expr} (canonical : (Expr.add terms).Canonical)
    (perm : es.Perm terms) : sum es = .add terms := by
  obtain ⟨isSum, -⟩ := canonical_add_iff.mp canonical
  have parts : ∀ term ∈ es, term.Canonical ∧ ∀ inner, term ≠ .add inner :=
    fun term member => canonical.not_add_of_mem_terms (perm.mem_iff.mp member)
  have monomials : es.Pairwise fun left right => left.monomial ≠ right.monomial :=
    (perm.pairwise_iff fun different => Ne.symm different).mpr isSum.monomials
  have unsorted := unsorted_perm parts monomials fun term member =>
    isSum.coefficients term (perm.mem_iff.mp member)
  rw [sum, summandsOfAll_of_not_add fun term member => (parts term member).2,
    LikeTerms.toTerms_eq_sort, sort_congr (unsorted.trans perm),
    sort_of_pairwise (isSum.ascending.imp Before.notAfter)]
  match terms, isSum.several with
  | first :: second :: rest, _ => rfl

/-- A canonical sum is the sum of its terms. -/
theorem sum_of_canonical {terms : List Expr} (canonical : (Expr.add terms).Canonical) :
    sum terms = .add terms :=
  sum_of_perm canonical (.refl _)

end FiniteVolume.Expr
