import FiniteVolume.Proofs.Numeric.Scope

/-!
# The grammar of coefficients

Compilation accepts an expression exactly if every node of it can be computed and vectors stand only
where an inner product uses them up (`Expr.Numeric`). A symbol that is no parameter is reported
before anything else, and what is compiled refers to its parameters only (`compile_grammar`).

The rules of the grammar say of each kind of node what it asks of its operands. They leave no choice
(`Grammar.unique`), so it is enough that compilation follows them and that the description node by
node does.
-/

namespace FiniteVolume

section Symbols

/-- Inserting a name keeps names in ascending order. -/
theorem insertName_ascending (name : String) {names : List String}
    (ascending : names.Pairwise (· < ·)) : (insertName name names).Pairwise (· < ·) := by
  induction names with
  | nil => exact List.pairwise_singleton _ _
  | cons head rest ih =>
    obtain ⟨least, later⟩ := List.pairwise_cons.mp ascending
    unfold insertName
    split
    · rename_i before
      have below : name < head := compare_lt_iff_lt.mp before
      exact List.pairwise_cons.mpr ⟨List.forall_mem_cons.mpr
        ⟨below, fun other member => below.trans (least other member)⟩, ascending⟩
    · exact ascending
    · rename_i after
      have above : head < name := compare_gt_iff_gt.mp after
      refine List.pairwise_cons.mpr ⟨fun other member => ?_, ih later⟩
      obtain rfl | member := mem_insertName.mp member
      · exact above
      · exact least other member

/-- The symbols of an expression are listed in order. -/
theorem Expr.symbols_ascending (e : Expr) : e.symbols.Pairwise (· < ·) := by
  unfold symbols
  induction e.subterms.filterMap symbol? with
  | nil => exact .nil
  | cons name rest ih => exact insertName_ascending name ih

/-- The first of some names in ascending order that has a property is the least one. -/
theorem le_of_find?_eq_some {names : List String} (ascending : names.Pairwise (· < ·))
    {property : String → Bool} {first other : String} (found : names.find? property = some first)
    (member : other ∈ names) (holds : property other = true) : first ≤ other := by
  obtain ⟨-, before, after, rfl, lacking⟩ := List.find?_eq_some_iff_append.mp found
  obtain inBefore | inRest := List.mem_append.mp member
  · simpa [holds] using lacking other inBefore
  · obtain rfl | inAfter := List.mem_cons.mp inRest
    · exact le_rfl
    · have rest := (List.pairwise_append.mp ascending).2.1
      exact le_of_lt ((List.pairwise_cons.mp rest).1 other inAfter)

end Symbols

/-- The rules by which coefficients in some parameters are formed from their operands. -/
structure Grammar (α : Type) [Arithmetic α] (params : List String) (accepts : Expr → Prop) :
    Prop where
  num : ∀ value, accepts (.num value) ↔
    ∃ number : α, Arithmetic.ofRational? value = some number
  sym : ∀ name, accepts (.sym name) ↔ name ∈ params
  add : ∀ terms, accepts (.add terms) ↔ ∀ term ∈ terms, accepts term
  mul : ∀ factors, accepts (.mul factors) ↔ ∀ factor ∈ factors, accepts factor
  pow : ∀ base exponent, accepts (.pow base exponent) ↔
    ((base = .zero → 0 ≤ exponent.val) ∧
      -2147483648 ≤ exponent.val ∧ exponent.val ≤ 2147483647) ∧ accepts base
  vector : ∀ components, ¬accepts (.vector components)
  dot : ∀ args, accepts (.call .dot args) ↔ ∃ left right, left.length = right.length ∧
    args = [.vector left, .vector right] ∧ (∀ component ∈ left, accepts component) ∧
      ∀ component ∈ right, accepts component
  derivative : ∀ args, ¬accepts (.call .normalDerivative args)
  named : ∀ name args, accepts (.call (.named name) args) ↔
    (∃ function, Pointwise.ofName? name = some function) ∧ ∃ arg, args = [arg] ∧ accepts arg

variable {α : Type} [Arithmetic α] {params : List String}

/-- What follows the rules of the grammar accepts the same expressions. -/
theorem Grammar.unique {accepts accepts' : Expr → Prop} (grammar : Grammar α params accepts)
    (grammar' : Grammar α params accepts') (e : Expr) : accepts e ↔ accepts' e := by
  -- An inner product looks below its operands, so the children of operands take part as well.
  suffices deep : (accepts e ↔ accepts' e) ∧ ∀ arg ∈ e.args, (accepts arg ↔ accepts' arg) from
    deep.1
  induction e using Expr.induction_args with
  | step e ih =>
    refine ⟨?_, fun arg member => (ih arg member).1⟩
    have all : ∀ es : List Expr, (∀ e ∈ es, (accepts e ↔ accepts' e)) →
        ((∀ e ∈ es, accepts e) ↔ ∀ e ∈ es, accepts' e) :=
      fun _ same => forall₂_congr same
    cases e with
    | num value => rw [grammar.num, grammar'.num]
    | sym name => rw [grammar.sym, grammar'.sym]
    | add terms => rw [grammar.add, grammar'.add, all terms fun e member => (ih e member).1]
    | mul factors => rw [grammar.mul, grammar'.mul, all factors fun e member => (ih e member).1]
    | pow base exponent =>
      rw [grammar.pow, grammar'.pow, (ih base (List.mem_singleton_self base)).1]
    | vector components => exact iff_of_false (grammar.vector _) (grammar'.vector _)
    | call head args =>
      cases head with
      | dot =>
        rw [grammar.dot, grammar'.dot]
        refine exists_congr fun left => exists_congr fun right => and_congr_right fun _ =>
          and_congr_right fun vectors => ?_
        subst vectors
        rw [all left (ih (.vector left) List.mem_cons_self).2,
          all right (ih (.vector right) (List.mem_cons_of_mem _ List.mem_cons_self)).2]
      | normalDerivative => exact iff_of_false (grammar.derivative _) (grammar'.derivative _)
      | named name =>
        rw [grammar.named, grammar'.named]
        refine and_congr_right fun _ => exists_congr fun arg => and_congr_right fun single => ?_
        subst single
        exact (ih arg (List.mem_singleton_self arg)).1

namespace Expr

/-- What the computation of a node asks of the node itself: a number in range for a constant, a
parameter for a symbol, an exponent of 32 bits that is not negative over zero, two vectors of equal
length for an inner product, and a known function of one argument for any other call. -/
def NumericNode (α : Type) [Arithmetic α] (params : List String) : Expr → Prop
  | .num value => ∃ number : α, Arithmetic.ofRational? value = some number
  | .sym name => name ∈ params
  | .pow base exponent => (base = .zero → 0 ≤ exponent.val) ∧
      -2147483648 ≤ exponent.val ∧ exponent.val ≤ 2147483647
  | .call .dot args => ∃ left right, left.length = right.length ∧
      args = [.vector left, .vector right]
  | .call .normalDerivative _ => False
  | .call (.named name) args =>
    (∃ function, Pointwise.ofName? name = some function) ∧ ∃ arg, args = [arg]
  | .add _ | .mul _ | .vector _ => True

/-- An expression that has a number whenever its parameters have one. Each of its nodes can be
computed, and every vector in it is an operand of an inner product of two vectors of equal
length. -/
structure Numeric (α : Type) [Arithmetic α] (params : List String) (e : Expr) : Prop where
  nodes : ∀ node ∈ e.subterms, node.NumericNode α params
  vectors : ∀ node ∈ e.subterms, ∀ components, .vector components ∈ node.args →
    ∃ left right, left.length = right.length ∧ node = .call .dot [.vector left, .vector right]
  notVector : ∀ components, e ≠ .vector components

variable {e : Expr}

/-- The subtrees of a numeric expression are numeric, vectors apart. -/
theorem Numeric.subterm {inner : Expr} (numeric : e.Numeric α params) (member : inner ∈ e.subterms)
    (notVector : ∀ components, inner ≠ .vector components) : inner.Numeric α params where
  nodes node inside := numeric.nodes node (mem_subterms_trans member inside)
  vectors node inside := numeric.vectors node (mem_subterms_trans member inside)
  notVector := notVector

/-- Apart from vectors and inner products, an expression is numeric if its node can be computed and
its operands are numeric. -/
theorem numeric_iff (notVector : ∀ components, e ≠ .vector components)
    (notDot : ∀ args, e ≠ .call .dot args) :
    e.Numeric α params ↔ e.NumericNode α params ∧ ∀ arg ∈ e.args, arg.Numeric α params := by
  constructor
  · intro numeric
    refine ⟨numeric.nodes e (self_mem_subterms e), fun arg member => ?_⟩
    refine numeric.subterm (mem_subterms_of_arg member (self_mem_subterms arg)) ?_
    rintro components rfl
    obtain ⟨left, right, -, isDot⟩ := numeric.vectors e (self_mem_subterms e) components member
    exact notDot _ isDot
  · rintro ⟨node, operands⟩
    refine ⟨(forall_subterms_iff _).mpr ⟨node, fun arg member => (operands arg member).nodes⟩,
      (forall_subterms_iff _).mpr ⟨fun components member => ?_,
        fun arg member => (operands arg member).vectors⟩, notVector⟩
    exact absurd rfl ((operands _ member).notVector components)

/-- An inner product is numeric if its operands are two vectors of equal length with numeric
components. -/
theorem numeric_dot_iff {args : List Expr} :
    (Expr.call .dot args).Numeric α params ↔ ∃ left right, left.length = right.length ∧
      args = [.vector left, .vector right] ∧ (∀ component ∈ left, component.Numeric α params) ∧
        ∀ component ∈ right, component.Numeric α params := by
  constructor
  · intro numeric
    obtain ⟨left, right, sameLength, rfl⟩ := numeric.nodes _ (self_mem_subterms _)
    have component : ∀ es, .vector es ∈ [Expr.vector left, .vector right] → ∀ e ∈ es,
        e.Numeric α params := by
      intro es isArg e member
      have vectorInside : .vector es ∈ (Expr.call .dot [.vector left, .vector right]).subterms :=
        mem_subterms_of_arg isArg (self_mem_subterms _)
      refine numeric.subterm
        (mem_subterms_trans vectorInside (mem_subterms_of_arg member (self_mem_subterms e))) ?_
      rintro components rfl
      obtain ⟨_, _, -, isDot⟩ := numeric.vectors _ vectorInside components member
      cases isDot
    exact ⟨left, right, sameLength, rfl, component left (by simp), component right (by simp)⟩
  · rintro ⟨left, right, sameLength, rfl, lefts, rights⟩
    -- Below the node there are the two vectors and what is inside their components.
    have below : ∀ {property : Expr → Prop} {es : List Expr}, property (.vector es) →
        (∀ e ∈ es, ∀ node ∈ e.subterms, property node) →
        ∀ node ∈ (Expr.vector es).subterms, property node :=
      fun holds inside => (forall_subterms_iff _).mpr ⟨holds, inside⟩
    have noVectors : ∀ {es : List Expr}, (∀ e ∈ es, e.Numeric α params) →
        ∀ components, .vector components ∈ es → ∃ left right : List Expr,
          left.length = right.length ∧ Expr.vector es = .call .dot [.vector left, .vector right] :=
      fun numeric components member => absurd rfl ((numeric _ member).notVector components)
    refine ⟨(forall_subterms_iff _).mpr ⟨⟨left, right, sameLength, rfl⟩, forall_mem_pair ⟨?_, ?_⟩⟩,
      (forall_subterms_iff _).mpr ⟨fun _ _ => ⟨left, right, sameLength, rfl⟩,
        forall_mem_pair ⟨?_, ?_⟩⟩, by simp⟩
    · exact below trivial fun e member => (lefts e member).nodes
    · exact below trivial fun e member => (rights e member).nodes
    · exact below (noVectors lefts) fun e member => (lefts e member).vectors
    · exact below (noVectors rights) fun e member => (rights e member).vectors

/-- The description of numeric expressions node by node follows the rules of the grammar. -/
theorem grammar_numeric : Grammar α params (Numeric α params) where
  num value := (numeric_iff (by simp) (by simp)).trans (and_iff_left (List.forall_mem_nil _))
  sym name := (numeric_iff (by simp) (by simp)).trans (and_iff_left (List.forall_mem_nil _))
  add terms := (numeric_iff (by simp) (by simp)).trans (and_iff_right trivial)
  mul factors := (numeric_iff (by simp) (by simp)).trans (and_iff_right trivial)
  pow base exponent := (numeric_iff (by simp) (by simp)).trans
    (and_congr_right fun _ => List.forall_mem_singleton)
  vector components numeric := numeric.notVector components rfl
  dot args := numeric_dot_iff
  derivative args numeric := numeric.nodes _ (self_mem_subterms _)
  named name args := by
    rw [numeric_iff (by simp) (by simp), NumericNode, and_assoc]
    refine and_congr_right fun _ => ?_
    constructor
    · rintro ⟨⟨arg, rfl⟩, operands⟩
      exact ⟨arg, rfl, operands arg (List.mem_singleton_self arg)⟩
    · rintro ⟨arg, rfl, operand⟩
      exact ⟨⟨arg, rfl⟩, List.forall_mem_singleton.mpr operand⟩

end Expr

namespace Node

/-- The expression has a computation. -/
def Compiles (α : Type) [Arithmetic α] (params : List String) (e : Expr) : Prop :=
  ∃ node : Node α, compile params e = .ok node

/-- An expression compiles exactly when it is composed. -/
theorem compiles_iff {e : Expr} :
    Compiles α params e ↔ ∃ node : Node α, Composes params e node :=
  exists_congr fun _ => compile_iff_composes

/-- Several expressions are compiled exactly when each of them compiles. -/
theorem exists_nodes_iff {es : List Expr} :
    (∃ nodes : List (Node α), List.Forall₂ (fun e node => compile params e = .ok node) es nodes) ↔
      ∀ e ∈ es, Compiles α params e := by
  constructor
  · rintro ⟨nodes, each⟩ e member
    exact Outcome.exists_of_mapM (Outcome.mapM_eq_ok_iff.mpr each) member
  · intro each
    obtain ⟨nodes, mapped⟩ := Outcome.exists_mapM each
    exact ⟨nodes, Outcome.mapM_eq_ok_iff.mp mapped⟩

/-- Compilation follows the rules of the grammar. -/
theorem grammar_compiles : Grammar α params (Compiles α params) where
  num value := by
    rw [compiles_iff]
    constructor
    · rintro ⟨node, composes⟩
      cases composes with
      | num found => exact ⟨_, found⟩
    · rintro ⟨number, found⟩
      exact ⟨_, .num found⟩
  sym name := by
    rw [compiles_iff, ← List.isSome_idxOf?, Option.isSome_iff_exists]
    constructor
    · rintro ⟨node, composes⟩
      cases composes with
      | sym found => exact ⟨_, found⟩
    · rintro ⟨position, found⟩
      exact ⟨_, .sym found⟩
  add terms := by
    rw [compiles_iff, ← exists_nodes_iff]
    constructor
    · rintro ⟨node, composes⟩
      cases composes with
      | add compiled => exact ⟨_, compiled⟩
    · rintro ⟨nodes, compiled⟩
      exact ⟨_, .add compiled⟩
  mul factors := by
    rw [compiles_iff, ← exists_nodes_iff]
    constructor
    · rintro ⟨node, composes⟩
      cases composes with
      | mul compiled => exact ⟨_, compiled⟩
    · rintro ⟨nodes, compiled⟩
      exact ⟨_, .mul compiled⟩
  pow base exponent := by
    have noPole : ¬(base.isZero = true ∧ exponent.val < 0) ↔ (base = .zero → 0 ≤ exponent.val) := by
      rw [not_and, not_lt]
      exact imp_congr_left ⟨Expr.eq_zero_of_isZero, fun isZero => isZero ▸ rfl⟩
    have short : exponent.isShort = true ↔
        -2147483648 ≤ exponent.val ∧ exponent.val ≤ 2147483647 := by
      rw [Exponent.isShort, Bool.and_eq_true, decide_eq_true_eq, decide_eq_true_eq]
    rw [compiles_iff, ← noPole, ← short]
    constructor
    · rintro ⟨node, composes⟩
      cases composes with
      | pow regular isShort compiled => exact ⟨⟨regular, isShort⟩, _, compiled⟩
    · rintro ⟨⟨regular, isShort⟩, node, compiled⟩
      exact ⟨_, .pow regular isShort compiled⟩
  vector components := by
    rw [compiles_iff]
    rintro ⟨node, composes⟩
    cases composes
  dot args := by
    rw [compiles_iff]
    constructor
    · rintro ⟨node, composes⟩
      cases composes with
      | dot sameLength compiledLeft compiledRight =>
        exact ⟨_, _, sameLength, rfl, exists_nodes_iff.mp ⟨_, compiledLeft⟩,
          exists_nodes_iff.mp ⟨_, compiledRight⟩⟩
    · rintro ⟨left, right, sameLength, rfl, lefts, rights⟩
      obtain ⟨nodesLeft, compiledLeft⟩ := exists_nodes_iff.mpr lefts
      obtain ⟨nodesRight, compiledRight⟩ := exists_nodes_iff.mpr rights
      exact ⟨_, .dot sameLength compiledLeft compiledRight⟩
  derivative args := by
    rw [compiles_iff]
    rintro ⟨node, composes⟩
    cases composes
  named name args := by
    rw [compiles_iff]
    constructor
    · rintro ⟨node, composes⟩
      cases composes with
      | call known compiled => exact ⟨⟨_, known⟩, _, rfl, _, compiled⟩
    · rintro ⟨⟨function, known⟩, arg, rfl, node, compiled⟩
      exact ⟨_, .call known compiled⟩

end Node

namespace NumericFunction

/-- Compilation accepts exactly the numeric expressions. If there is a symbol that is no parameter,
the least one is reported, whatever else is wrong with the expression. A compiled function refers to
its parameters only. -/
theorem compile_grammar (params : List String) (e : Expr) :
    ((∃ function : NumericFunction α, compile params e = .ok function) ↔ e.Numeric α params) ∧
    ((∃ name, .sym name ∈ e.subterms ∧ name ∉ params) →
      ∃ name, (compile params e : Outcome (NumericFunction α)) =
          Outcome.reject (.unboundSymbol name) ∧
        .sym name ∈ e.subterms ∧ name ∉ params ∧
        ∀ other, .sym other ∈ e.subterms → other ∉ params → name ≤ other) ∧
    ∀ function : NumericFunction α, compile params e = .ok function →
      function.params = params ∧
        ∀ position ∈ function.root.positions, position < function.params.length := by
  refine ⟨?accepts, ?unbound, ?slots⟩
  case accepts =>
    rw [← Node.grammar_compiles.unique Expr.grammar_numeric e]
    constructor
    · rintro ⟨function, compiled⟩
      obtain ⟨root, compiledRoot, -⟩ := compile_eq_ok_iff.mp compiled
      exact ⟨root, compiledRoot⟩
    · rintro ⟨root, compiledRoot⟩
      have numeric := (Node.grammar_compiles.unique Expr.grammar_numeric e).mp ⟨root, compiledRoot⟩
      exact ⟨_, compile_eq_ok_iff.mpr ⟨root, compiledRoot, fun name member =>
        numeric.nodes _ (Expr.mem_symbols.mp member), rfl⟩⟩
  case unbound =>
    rintro ⟨name, occurs, free⟩
    have isUnbound : ∀ name, (!params.contains name) = true ↔ name ∉ params := by simp
    obtain ⟨first, found⟩ : ∃ first,
        e.symbols.find? (fun name => !params.contains name) = some first := by
      rw [← Option.isSome_iff_exists, List.find?_isSome]
      exact ⟨name, Expr.mem_symbols.mpr occurs, (isUnbound name).mpr free⟩
    have lacking := List.find?_some found
    refine ⟨first, ?_, Expr.mem_symbols.mp (List.mem_of_find?_eq_some found),
      (isUnbound first).mp lacking, fun other occurs free => ?_⟩
    · rw [compile, found]
    · exact le_of_find?_eq_some e.symbols_ascending found (Expr.mem_symbols.mpr occurs)
        ((isUnbound other).mpr free)
  case slots =>
    intro function compiled
    obtain ⟨root, compiledRoot, -, rfl⟩ := compile_eq_ok_iff.mp compiled
    exact ⟨rfl, Node.position_lt_of_compile compiledRoot⟩

/-- The vector is wrong as well, but the least symbol that is no parameter is reported. -/
example : (compile ["x"] (.add [.vector [.sym "z"], .sym "x", .sym "y"]) :
    Outcome (NumericFunction ℚ)) = Outcome.reject (.unboundSymbol "y") := by
  rfl

end NumericFunction

end FiniteVolume
