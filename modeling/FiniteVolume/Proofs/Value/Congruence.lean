import FiniteVolume.Proofs.Value.Substitution

/-!
# Interpretations that agree

The value of an expression depends on how the symbols and calls in it are read, and on nothing else
(`ReadsAlike.valueIn`), and so does whether it divides by zero (`ReadsAlike.defined`).
-/

namespace FiniteVolume.Expr

variable {K : Type*} {left right : Interpretation K} {e : Expr}

/-- Two interpretations that read all symbols and calls in an expression in the same way. -/
structure ReadsAlike (left right : Interpretation K) (e : Expr) : Prop where
  symbol : ∀ name, .sym name ∈ e.subterms → left.symbol name = right.symbol name
  call : ∀ head args, .call head args ∈ e.subterms → left.call head = right.call head
  vector : left.vector = right.vector

/-- Expressions are read alike if their subtrees are among those of one that is. -/
theorem ReadsAlike.subterm {inner : Expr} (alike : ReadsAlike left right e)
    (inside : ∀ subterm ∈ inner.subterms, subterm ∈ e.subterms) : ReadsAlike left right inner where
  symbol name member := alike.symbol name (inside _ member)
  call head args member := alike.call head args (inside _ member)
  vector := alike.vector

/-- The children of an expression are read alike if it is. -/
theorem ReadsAlike.arg {arg : Expr} (alike : ReadsAlike left right e) (member : arg ∈ e.args) :
    ReadsAlike left right arg :=
  alike.subterm fun _ inside => mem_subterms_of_arg member inside

variable [Field K]

/-- Interpretations that agree on an expression give it the same value, and if it is a vector, they
give the same values to its components. -/
theorem ReadsAlike.valueIn_components (alike : ReadsAlike left right e) :
    e.valueIn left = e.valueIn right ∧ ∀ components, e = .vector components →
      components.map (Expr.valueIn left) = components.map (Expr.valueIn right) := by
  induction e with
  | num value => exact ⟨by rw [valueIn_num, valueIn_num], by simp⟩
  | sym name =>
    refine ⟨?_, by simp⟩
    rw [valueIn_sym, valueIn_sym, alike.symbol name (self_mem_subterms _)]
  | add terms ih =>
    refine ⟨?_, by simp⟩
    rw [valueIn_add, valueIn_add]
    exact congrArg List.sum (List.map_congr_left fun term member =>
      (ih term member (alike.arg member)).1)
  | mul factors ih =>
    refine ⟨?_, by simp⟩
    rw [valueIn_mul, valueIn_mul]
    exact congrArg List.prod (List.map_congr_left fun factor member =>
      (ih factor member (alike.arg member)).1)
  | pow base exponent ih =>
    refine ⟨?_, by simp⟩
    rw [valueIn_pow, valueIn_pow, (ih (alike.arg (List.mem_singleton_self base))).1]
  | vector components ih =>
    have values : components.map (Expr.valueIn left) = components.map (Expr.valueIn right) :=
      List.map_congr_left fun component member => (ih component member (alike.arg member)).1
    refine ⟨?_, ?_⟩
    · rw [valueIn_vector, valueIn_vector, values, alike.vector]
    · rintro _ same
      cases same
      exact values
  | call head args ih =>
    refine ⟨?_, by simp⟩
    cases operands : dotOperands? (.call head args) with
    | none =>
      have values : args.map (Expr.valueIn left) = args.map (Expr.valueIn right) :=
        List.map_congr_left fun arg member => (ih arg member (alike.arg member)).1
      rw [valueIn_call operands, valueIn_call operands, values,
        alike.call head args (self_mem_subterms _)]
    | some pair =>
      obtain ⟨a, b⟩ := pair
      obtain ⟨same, sameLength⟩ := dotOperands?_eq_some_iff.mp operands
      cases same
      have component := fun operand member => (ih operand member (alike.arg member)).2
      exact (valueIn_dot_congr sameLength (component (.vector a) (by simp) a rfl)
        (component (.vector b) (by simp) b rfl)).2

/-- What is read alike has the same value. -/
theorem ReadsAlike.valueIn (alike : ReadsAlike left right e) : e.valueIn left = e.valueIn right :=
  alike.valueIn_components.1

/-- Interpretations that agree on the bases of negative powers find the same zeros there. -/
theorem defined_of_bases
    (alike : e.NegativeBases fun base => ReadsAlike left right base) (defined : e.Defined left) :
    e.Defined right := by
  intro base exponent member negative
  rw [← (alike base exponent member negative).valueIn]
  exact defined base exponent member negative

/-- What is read alike is defined under both interpretations. -/
theorem ReadsAlike.defined (alike : ReadsAlike left right e) (defined : e.Defined left) :
    e.Defined right :=
  defined_of_bases (fun _ _ member _ => alike.subterm fun _ inside =>
    mem_subterms_trans member (mem_subterms_of_arg (List.mem_singleton_self _) inside)) defined

end FiniteVolume.Expr
