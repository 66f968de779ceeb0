import FiniteVolume.Expr.Substitution
import FiniteVolume.Proofs.Canonical.Power

/-!
# The canonical form

Trees that are put together by the canonical operators from canonical operands stay canonical, and
normalization brings any other tree into this form. What is canonical already is left as it is, so
equal trees are recognised by their structure (`canonical_form`).
-/

namespace FiniteVolume.Expr

/-- A canonical tree that does not divide by zero. -/
structure Operand (e : Expr) : Prop where
  canonical : e.Canonical
  regular : e.dividesByZero = false

/-- A node that is rebuilt from operands is canonical. -/
theorem canonical_of_children {e result : Expr} (defined : e.normalize = some result)
    (children : ∀ arg ∈ e.args, ∀ normalized, arg.normalize = some normalized →
      normalized.Operand) :
    result.Canonical := by
  have operands : ∀ {es results : List Expr}, es = e.args →
      replaceAllWith (fun _ => none) es = some results → ∀ operand ∈ results, operand.Operand := by
    rintro es results rfl normalizes
    rw [replaceAllWith_eq_mapM] at normalizes
    exact forall_mem_of_mapM normalizes children
  cases e with
  | num value =>
    cases defined
    exact canonical_num value
  | sym name =>
    cases defined
    exact canonical_sym name
  | add terms =>
    obtain ⟨results, normalizes, built⟩ := Option.bind_eq_some_iff.mp defined
    cases built
    exact canonical_sum fun e present => (operands rfl normalizes e present).canonical
  | mul factors =>
    obtain ⟨results, normalizes, built⟩ := Option.bind_eq_some_iff.mp defined
    exact canonical_prod (fun e present => (operands rfl normalizes e present).canonical)
      (fun e present => regular_bases (operands rfl normalizes e present).regular) built
  | pow base exponent =>
    obtain ⟨inner, normalizes, powered⟩ := Option.bind_eq_some_iff.mp defined
    have operand := children base (by simp [args]) inner normalizes
    exact operand.canonical.power operand.regular powered
  | vector es | call head es =>
    obtain ⟨results, normalizes, built⟩ := Option.bind_eq_some_iff.mp defined
    cases built
    exact canonical_iff.mpr
      ⟨trivial, fun e present => (operands rfl normalizes e present).canonical⟩

/-- Normalization reaches the canonical form if no subtree below the root divides by zero once it is
normalized. -/
theorem canonical_of_normalize {e result : Expr} (defined : e.normalize = some result)
    (regular : ∀ arg ∈ e.args, ∀ subterm ∈ arg.subterms, ∀ normalized,
      subterm.normalize = some normalized → normalized.dividesByZero = false) :
    result.Canonical := by
  induction e using induction_args generalizing result with
  | step e ih =>
    refine canonical_of_children defined fun arg member normalized normalizes => ?_
    refine ⟨ih arg member normalizes fun inner inside subterm below => ?_,
      regular arg member arg (self_mem_subterms arg) normalized normalizes⟩
    refine regular arg member subterm ?_
    rw [subterms_eq_cons]
    exact List.mem_cons_of_mem _ (List.mem_flatMap.mpr ⟨inner, inside, below⟩)

/-- Normalization leaves a canonical tree as it is. -/
theorem normalize_of_canonical {e : Expr} (canonical : e.Canonical) : e.normalize = some e := by
  have children : ∀ es : List Expr, (∀ e ∈ es, e.normalize = some e) →
      replaceAllWith (fun _ => none) es = some es := by
    intro es normalized
    have mapped : es.mapM (replaceWith fun _ => none) = some (es.map id) :=
      mapM_eq_some_map normalized
    rw [replaceAllWith_eq_mapM, mapped, List.map_id]
  induction e with
  | num value => rfl
  | sym name => rfl
  | add terms ih =>
    refine Option.bind_eq_some_iff.mpr
      ⟨terms, children terms fun term member => ih term member (canonical.arg member), ?_⟩
    exact congrArg some (sum_of_canonical canonical)
  | mul factors ih =>
    refine Option.bind_eq_some_iff.mpr
      ⟨factors, children factors fun factor member => ih factor member (canonical.arg member), ?_⟩
    exact prodToDepth_of_canonical canonical
  | pow base exponent ih =>
    exact Option.bind_eq_some_iff.mpr
      ⟨base, ih (canonical_pow_iff.mp canonical).2, power_of_canonical canonical⟩
  | vector es ih | call head es ih =>
    refine Option.bind_eq_some_iff.mpr
      ⟨es, children es fun e member => ih e member (canonical.arg member), rfl⟩

/-- The canonical form is kept by all operators on canonical trees that do not divide by zero, it is
reached by normalization, and normalization stops there. -/
theorem canonical_form :
    (∀ operands : List Expr, (∀ e ∈ operands, e.Operand) →
      (sum operands).Canonical ∧ ∀ result, prod operands = some result → result.Canonical) ∧
    (∀ e : Expr, e.Operand →
      (∀ exponent result, power e exponent = some result → result.Canonical) ∧
        ∀ result, neg e = some result → result.Canonical) ∧
    (∀ left right : Expr, left.Operand → right.Operand →
      (∀ result, sub left right = some result → result.Canonical) ∧
        ∀ result, quot left right = some result → result.Canonical) ∧
    (∀ e result : Expr, e.normalize = some result →
      (∀ arg ∈ e.args, ∀ subterm ∈ arg.subterms, ∀ normalized,
        subterm.normalize = some normalized → normalized.dividesByZero = false) →
      result.Canonical) ∧
    ∀ e : Expr, e.Canonical → e.normalize = some e := by
  refine ⟨fun operands valid => ⟨?_, fun result defined => ?_⟩,
    fun e valid => ⟨fun exponent result defined => ?_, fun result defined => ?_⟩,
    fun left right validLeft validRight =>
      ⟨fun result defined => ?_, fun result defined => ?_⟩,
    fun e result defined regular => canonical_of_normalize defined regular,
    fun e canonical => normalize_of_canonical canonical⟩
  · exact canonical_sum fun e member => (valid e member).canonical
  · exact canonical_prod (fun e member => (valid e member).canonical)
      (fun e member => regular_bases (valid e member).regular) defined
  · exact valid.canonical.power valid.regular defined
  · exact valid.canonical.neg valid.regular defined
  · exact validLeft.canonical.sub validRight.canonical validRight.regular defined
  · exact validLeft.canonical.quot validRight.canonical validLeft.regular validRight.regular defined

/-- One and a symbol, added up: an operand to try the operators on. -/
theorem operand_succ (name : String) : (sum [.sym name, .num 1]).Operand where
  canonical := canonical_sum (forall_mem_pair ⟨canonical_sym name, canonical_num 1⟩)
  regular := (hereditary_invertible.sum (forall_mem_pair
    ⟨(canonical_sym name).negativeBases rfl, (canonical_num 1).negativeBases rfl⟩)).regular

/-- Twice a sum is multiplied out, a sum divided by zero stays a quotient, and a raw square of a
symbol becomes a power: all of them are canonical, and stay as they are. -/
theorem canonical_form_samples :
    (Expr.add [.num 2, .mul [.num 2, .sym "x"]]).Canonical ∧
      (Expr.mul [.add [.num 1, .sym "x"], .pow (.num 0) Exponent.negOne]).Canonical ∧
      (Expr.pow (.sym "x") ⟨2, by decide, by decide⟩).normalize =
        some (.pow (.sym "x") ⟨2, by decide, by decide⟩) := by
  have two : (Expr.num 2).Operand := ⟨canonical_num 2, rfl⟩
  have zero : (Expr.num 0).Operand := ⟨canonical_num 0, rfl⟩
  refine ⟨?_, ?_, ?_⟩
  · exact (canonical_form.1 [.num 2, sum [.sym "x", .num 1]]
      (forall_mem_pair ⟨two, operand_succ "x"⟩)).2 _ (by decide +kernel)
  · exact (canonical_form.2.2.1 (sum [.sym "x", .num 1]) (.num 0) (operand_succ "x") zero).2 _
      (by decide +kernel)
  · refine canonical_form.2.2.2.2 _ (canonical_form.2.2.2.1 (.mul [.sym "x", .sym "x"]) _
      (by decide +kernel) ?_)
    intro arg member subterm below normalized normalizes
    have same : arg = .sym "x" := by simpa [args] using member
    subst same
    rw [List.mem_singleton.mp below] at normalizes
    cases normalizes
    rfl

end FiniteVolume.Expr
