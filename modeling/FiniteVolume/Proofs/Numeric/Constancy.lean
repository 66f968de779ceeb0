import FiniteVolume.Proofs.Numeric.Scope

/-!
# Constant functions

A function that is compiled from an expression without symbols has one value for all arguments. It
shows this value without being evaluated, unless somewhere in the expression there is an inner
product of vectors that have components: their products are left to evaluation even if both factors
are constant (`const?_compiled`).
-/

namespace FiniteVolume

/-- A node whose computation is carried out as soon as those of its operands are. -/
def Expr.CarriedOut : Expr → Prop
  | .sym _ => False
  | .call .dot args => ∀ left right, args = [.vector left, .vector right] → left = []
  | _ => True

/-- What keeps constants from being carried out are symbols and inner products. -/
theorem Expr.forall_carriedOut_iff {e : Expr} :
    (∀ node ∈ e.subterms, node.CarriedOut) ↔ e.symbols = [] ∧
      ∀ left right, .call .dot [.vector left, .vector right] ∈ e.subterms → left = [] := by
  rw [List.eq_nil_iff_forall_not_mem]
  constructor
  · intro carriedOut
    exact ⟨fun name occurs => carriedOut _ (mem_symbols.mp occurs),
      fun left right occurs => carriedOut _ occurs left right rfl⟩
  · rintro ⟨noSymbol, noProduct⟩ node member
    cases node with
    | sym name => exact noSymbol name (mem_symbols.mpr member)
    | call head args =>
      cases head with
      | dot =>
        rintro left right rfl
        exact noProduct left right member
      | _ => trivial
    | _ => trivial

namespace Node

variable {α : Type}

section Constants

/-- Every computation of a list is a constant. -/
theorem isSome_mapM_const?_iff {nodes : List (Node α)} :
    (nodes.mapM const?).isSome ↔ ∀ node ∈ nodes, node.const?.isSome := by
  simp only [Option.isSome_iff_exists]
  constructor
  · rintro ⟨values, mapped⟩ node member
    obtain ⟨value, -, found⟩ := exists_mem_zip_of_forall₂ (mapM_eq_some_iff.mp mapped) member
    exact ⟨value, found⟩
  · exact exists_mapM_eq_some

variable [Arithmetic α]

/-- A sum is folded to a constant exactly when all of its terms are constants. -/
theorem isSome_const?_add {nodes : List (Node α)} :
    (foldConstants (add nodes)).const?.isSome ↔ ∀ node ∈ nodes, node.const?.isSome := by
  rw [← isSome_mapM_const?_iff, foldConstants]
  cases nodes.mapM const? with
  | some values => exact iff_of_true rfl rfl
  | none => exact Iff.rfl

/-- A product is folded to a constant exactly when all of its factors are constants. -/
theorem isSome_const?_mul {nodes : List (Node α)} :
    (foldConstants (mul nodes)).const?.isSome ↔ ∀ node ∈ nodes, node.const?.isSome := by
  rw [← isSome_mapM_const?_iff, foldConstants]
  cases nodes.mapM const? with
  | some values => exact iff_of_true rfl rfl
  | none => exact Iff.rfl

/-- A power is folded to a constant exactly when its base is one. -/
theorem isSome_const?_pow {base : Node α} {exponent : Int} :
    (foldConstants (pow base exponent)).const?.isSome ↔ base.const?.isSome := by
  cases base <;> exact Iff.rfl

/-- A call is folded to a constant exactly when its argument is one. -/
theorem isSome_const?_call {function : Pointwise} {arg : Node α} :
    (foldConstants (call function arg)).const?.isSome ↔ arg.const?.isSome := by
  cases arg <;> exact Iff.rfl

/-- A compiled computation is a constant exactly if every node of its expression is carried out. -/
theorem isSome_const?_iff {params : List String} {e : Expr} {node : Node α}
    (compiled : compile params e = .ok node) :
    node.const?.isSome ↔ ∀ inner ∈ e.subterms, inner.CarriedOut := by
  have operands : ∀ {es : List Expr} {nodes : List (Node α)},
      List.Forall₂ (fun e (node : Node α) =>
        node.const?.isSome ↔ ∀ inner ∈ e.subterms, inner.CarriedOut) es nodes →
      ((∀ node ∈ nodes, node.const?.isSome) ↔
        ∀ e ∈ es, ∀ inner ∈ e.subterms, inner.CarriedOut) := by
    intro es nodes each
    induction each with
    | nil => exact iff_of_true (List.forall_mem_nil _) (List.forall_mem_nil _)
    | cons first _ ih => rw [List.forall_mem_cons, List.forall_mem_cons, first, ih]
  refine compile_induction
    (motive := fun e node => node.const?.isSome ↔ ∀ inner ∈ e.subterms, inner.CarriedOut)
    ?num ?sym ?add ?mul ?pow ?dot ?call e node compiled
  case num =>
    intro value number _
    exact iff_of_true rfl
      ((Expr.forall_subterms_iff _).mpr ⟨trivial, List.forall_mem_nil _⟩)
  case sym =>
    intro name position _
    exact iff_of_false Bool.false_ne_true fun carriedOut => carriedOut _ (Expr.self_mem_subterms _)
  case add =>
    intro terms nodes each
    rw [isSome_const?_add, Expr.forall_subterms_iff, operands each]
    exact (and_iff_right trivial).symm
  case mul =>
    intro factors nodes each
    rw [isSome_const?_mul, Expr.forall_subterms_iff, operands each]
    exact (and_iff_right trivial).symm
  case pow =>
    intro base exponent node holds
    rw [isSome_const?_pow, Expr.forall_subterms_iff, holds]
    exact ⟨fun inside => ⟨trivial, List.forall_mem_singleton.mpr inside⟩,
      fun inside => inside.2 base (List.mem_singleton_self base)⟩
  case dot =>
    intro left right lefts rights sameLength eachLeft eachRight
    rw [isSome_const?_add]
    cases eachLeft with
    | nil =>
      obtain rfl := List.length_eq_zero_iff.mp sameLength.symm
      refine iff_of_true (fun _ member => by simp [products] at member)
        ((Expr.forall_subterms_iff _).mpr ⟨fun _ _ same => ?_, Expr.forall_mem_pair ⟨?_, ?_⟩⟩)
      · cases same
        rfl
      · exact (Expr.forall_subterms_iff _).mpr ⟨trivial, List.forall_mem_nil _⟩
      · exact (Expr.forall_subterms_iff _).mpr ⟨trivial, List.forall_mem_nil _⟩
    | cons =>
      -- The first product is not a constant, whatever its factors are.
      cases eachRight with
      | nil => cases sameLength
      | cons =>
        refine iff_of_false (fun constants => ?_) fun carriedOut => ?_
        · exact Bool.false_ne_true (constants _ List.mem_cons_self)
        · cases carriedOut _ (Expr.self_mem_subterms _) _ _ rfl
  case call =>
    intro name function arg node _ holds
    rw [isSome_const?_call, Expr.forall_subterms_iff, holds]
    exact ⟨fun inside => ⟨trivial, List.forall_mem_singleton.mpr inside⟩,
      fun inside => inside.2 arg (List.mem_singleton_self arg)⟩

end Constants

variable [Arithmetic α]

mutual

/-- A computation that refers to no argument has the same value on all of them. -/
theorem exists_eval_of_positions_eq_nil (node : Node α) (closed : node.positions = []) :
    ∃ value, ∀ args, node.eval args = .ok (.constant value) := by
  cases node with
  | const value => exact ⟨value, fun _ => rfl⟩
  | param position => cases closed
  | add terms => exact exists_evalChain_of_positions_eq_nil Arithmetic.add _ terms closed
  | mul factors => exact exists_evalChain_of_positions_eq_nil Arithmetic.mul _ factors closed
  | pow base exponent =>
    obtain ⟨value, evaluates⟩ := exists_eval_of_positions_eq_nil base closed
    refine ⟨Arithmetic.powInt value exponent, fun args => ?_⟩
    rw [eval, evaluates args]
    rfl
  | call function arg =>
    obtain ⟨value, evaluates⟩ := exists_eval_of_positions_eq_nil arg closed
    refine ⟨Arithmetic.pointwise function value, fun args => ?_⟩
    rw [eval, evaluates args]
    rfl

/-- A chain of operands that read no parameters has one value for all arguments. -/
theorem exists_evalChain_of_positions_eq_nil (join : α → α → α) (start : α)
    (nodes : List (Node α)) (closed : positionsOfAll nodes = []) :
    ∃ value, ∀ args, evalChain args join (.constant start) nodes = .ok (.constant value) := by
  cases nodes with
  | nil => exact ⟨start, fun _ => rfl⟩
  | cons node rest =>
    obtain ⟨closedNode, closedRest⟩ := List.append_eq_nil_iff.mp closed
    obtain ⟨operand, evaluates⟩ := exists_eval_of_positions_eq_nil node closedNode
    obtain ⟨value, chained⟩ :=
      exists_evalChain_of_positions_eq_nil join (join start operand) rest closedRest
    refine ⟨value, fun args => ?_⟩
    rw [evalChain, evaluates args]
    exact chained args

end

end Node

namespace NumericFunction

variable {α : Type} [Arithmetic α]

/-- A compiled function is recognized as constant exactly if its expression has no symbols and no
inner product of vectors that have components. Without symbols it has the same value on all
arguments, and one that is recognized has the value that it shows. -/
theorem const?_compiled {params : List String} {e : Expr} {function : NumericFunction α}
    (compiled : compile params e = .ok function) :
    (function.const?.isSome ↔ e.symbols = [] ∧
      ∀ left right, .call .dot [.vector left, .vector right] ∈ e.subterms → left = []) ∧
    (e.symbols = [] → ∃ value, ∀ args, args.length = params.length →
      function.eval args = .ok (.constant value)) ∧
    ∀ value, function.const? = some value → ∀ args, args.length = params.length →
      function.eval args = .ok (.constant value) := by
  obtain ⟨root, compiledRoot, -, rfl⟩ := compile_eq_ok_iff.mp compiled
  refine ⟨?recognized, ?closed, ?shown⟩
  case recognized =>
    exact (Node.isSome_const?_iff compiledRoot).trans Expr.forall_carriedOut_iff
  case closed =>
    intro noSymbol
    have closed : root.positions = [] := by
      refine List.eq_nil_iff_forall_not_mem.mpr fun position refers => ?_
      obtain ⟨name, occurs, -⟩ := Node.symbol_of_position compiledRoot refers
      exact absurd (Expr.mem_symbols.mpr occurs) (noSymbol ▸ List.not_mem_nil)
    obtain ⟨value, evaluates⟩ := Node.exists_eval_of_positions_eq_nil root closed
    refine ⟨value, fun args complete => ?_⟩
    rw [eval, if_pos complete, evaluates args]
  case shown =>
    intro value shown args complete
    rw [eval, if_pos complete]
    cases root with
    | const number =>
      cases shown
      rfl
    | _ => cases shown

/-- The inner product of two vectors of numbers is 2 on all arguments, but is not recognized. -/
theorem const?_compiled_dot :
    ∃ function : NumericFunction ℚ,
      compile ["a"] (.call .dot [.vector [.num 1], .vector [.num 2]]) = .ok function ∧
      function.const? = none ∧
      ∀ args, args.length = 1 → function.eval args = .ok (.constant 2) := by
  let e : Expr := .call .dot [.vector [.num 1], .vector [.num 2]]
  have compiled : compile ["a"] e =
      .ok (⟨["a"], .add [.mul [.const 1, .const 2]], e⟩ : NumericFunction ℚ) := by rfl
  obtain ⟨recognized, closed, -⟩ := const?_compiled compiled
  obtain ⟨value, evaluates⟩ := closed rfl
  have product : (0 + 1 * 1 * 2 : ℚ) = 2 := by norm_num
  have same : value = 0 + 1 * 1 * 2 := by
    cases evaluates [.constant 0] rfl
    rfl
  rw [same, product] at evaluates
  refine ⟨_, compiled, ?_, evaluates⟩
  rw [← Option.not_isSome_iff_eq_none, recognized]
  rintro ⟨-, noProduct⟩
  cases noProduct _ _ (Expr.self_mem_subterms e)

end NumericFunction

end FiniteVolume
