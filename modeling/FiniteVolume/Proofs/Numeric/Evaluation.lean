import FiniteVolume.Proofs.Numeric.Compilation
import FiniteVolume.Proofs.Numeric.Field
import FiniteVolume.Proofs.Value.Scalar

/-!
# Values of compiled functions

In a field, a compiled function computes the value of the expression it was compiled from
(`eval_compiled_eq_value`). Carrying out constants at compile time takes part in this without
changing any result (`eval_spelled`).
-/

namespace FiniteVolume

namespace Node

variable {α : Type}

/-- A parameter is bound to the argument at its position. -/
theorem lookup_zip_of_idxOf? {params : List String} {values : List α} {name : String}
    {position : Nat} (found : params.idxOf? name = some position) :
    (params.zip values).lookup name = values[position]? := by
  induction params generalizing values position with
  | nil => cases found
  | cons param rest ih =>
    cases values with
    | nil => rfl
    | cons value values =>
      rw [List.idxOf?_cons] at found
      rw [List.zip_cons_cons, List.lookup_cons]
      split at found
      · rename_i same
        cases found
        rw [beq_iff_eq.mp same, beq_self_eq_true]
        rfl
      · rename_i different
        obtain ⟨later, foundLater, rfl⟩ := Option.map_eq_some_iff.mp found
        have otherName : name ≠ param := fun same => different (beq_iff_eq.mpr same.symm)
        rw [beq_false_of_ne otherName]
        exact ih foundLater

variable [Arithmetic α]

section Folding

variable {args : List (Quantity α)} {nodes others : List (Node α)} {values : List α}

/-- Computations that evaluate to constants are joined to a constant. -/
theorem evalChain_of_constants (join : α → α → α) (start : α)
    (evaluate : List.Forall₂ (fun node value => node.eval args = .ok (.constant value)) nodes
      values) :
    evalChain args join (.constant start) nodes = .ok (.constant (values.foldl join start)) := by
  induction evaluate generalizing start with
  | nil => rfl
  | cons first _ ih =>
    rw [evalChain, first]
    exact ih _

/-- Chains of computations with the same values have the same value. -/
theorem evalChain_congr (join : α → α → α) (before : Quantity α)
    (same : List.Forall₂ (fun node other => node.eval args = other.eval args) nodes others) :
    evalChain args join before nodes = evalChain args join before others := by
  induction same generalizing before with
  | nil => rfl
  | cons first _ ih =>
    rw [evalChain, evalChain, first]
    simp only [ih]

theorem constants_of_mapM (constant : nodes.mapM const? = some values) :
    List.Forall₂ (fun node value => node.eval args = .ok (.constant value)) nodes values := by
  refine (mapM_eq_some_iff.mp constant).imp fun node value found => ?_
  cases node with
  | const number =>
    cases found
    rfl
  | _ => cases found

/-- Constants may be joined at compile time if an empty sum is zero. -/
theorem eval_foldConstants (emptySum : (Arithmetic.emptySum : α) = Arithmetic.zero)
    (node : Node α) : node.foldConstants.eval args = node.eval args := by
  cases node with
  | const value | param position => rfl
  | add terms =>
    rw [foldConstants]
    split
    · rename_i values constant
      rw [emptySum]
      exact (evalChain_of_constants Arithmetic.add _ (constants_of_mapM constant)).symm
    · rfl
  | mul factors =>
    rw [foldConstants]
    split
    · rename_i values constant
      exact (evalChain_of_constants Arithmetic.mul _ (constants_of_mapM constant)).symm
    · rfl
  | pow base exponent => cases base <;> rfl
  | call function arg => cases arg <;> rfl

end Folding

mutual

/-- The computation that an expression writes out, with no constant carried out. What has no
computation stands for zero. -/
def spelled (params : List String) : Expr → Node α
  | .num value => const ((Arithmetic.ofRational? value).getD Arithmetic.zero)
  | .sym name => param (params.idxOf name)
  | .add terms => add (spelledEach params terms)
  | .mul factors => mul (spelledEach params factors)
  | .pow base exponent => pow (spelled params base) exponent.val
  | .call .dot [.vector left, .vector right] =>
    add (products (spelledEach params left) (spelledEach params right))
  | .call (.named name) [arg] =>
    match Pointwise.ofName? name with
    | some function => call function (spelled params arg)
    | none => const Arithmetic.zero
  | _ => const Arithmetic.zero

/-- The computations that the expressions of a list write out. -/
def spelledEach (params : List String) : List Expr → List (Node α)
  | [] => []
  | e :: rest => spelled params e :: spelledEach params rest

end

/-- Carrying out constants at compile time changes no result. -/
theorem eval_spelled (emptySum : (Arithmetic.emptySum : α) = Arithmetic.zero)
    {params : List String} {e : Expr} {node : Node α} (compiled : compile params e = .ok node)
    (args : List (Quantity α)) : (spelled params e : Node α).eval args = node.eval args := by
  have each : ∀ {es : List Expr} {nodes : List (Node α)},
      List.Forall₂ (fun e node => (spelled params e : Node α).eval args = node.eval args) es nodes →
      List.Forall₂ (fun (spelled node : Node α) => spelled.eval args = node.eval args)
        (spelledEach params es) nodes := by
    intro es nodes same
    induction same with
    | nil => exact .nil
    | cons first _ ih => exact .cons first ih
  have eachProduct : ∀ {left right lefts rights : List (Node α)},
      List.Forall₂ (fun (spelled node : Node α) => spelled.eval args = node.eval args) left lefts →
      List.Forall₂ (fun (spelled node : Node α) => spelled.eval args = node.eval args) right
        rights →
      List.Forall₂ (fun (spelled node : Node α) => spelled.eval args = node.eval args)
        (products left right) (products lefts rights) := by
    intro left right lefts rights sameLeft sameRight
    induction sameLeft generalizing right rights with
    | nil => exact .nil
    | cons first _ ih =>
      cases sameRight with
      | nil => exact .nil
      | cons second later =>
        exact .cons (evalChain_congr _ _ (.cons first (.cons second .nil))) (ih later)
  refine compile_induction
    (motive := fun e node => (spelled params e : Node α).eval args = node.eval args)
    ?num ?sym ?add ?mul ?pow ?dot ?call e node compiled
  case num =>
    intro value number found
    rw [spelled, found, Option.getD_some]
  case sym =>
    intro name position found
    rw [spelled, List.idxOf_eq_getD_idxOf?, found, Option.getD_some]
  case add =>
    intro terms nodes same
    rw [eval_foldConstants emptySum, spelled]
    exact evalChain_congr _ _ (each same)
  case mul =>
    intro factors nodes same
    rw [eval_foldConstants emptySum, spelled]
    exact evalChain_congr _ _ (each same)
  case pow =>
    intro base exponent node same
    rw [eval_foldConstants emptySum, spelled, eval, eval, same]
  case dot =>
    intro left right lefts rights _ sameLeft sameRight
    rw [eval_foldConstants emptySum, spelled]
    exact evalChain_congr _ _ (eachProduct (each sameLeft) (each sameRight))
  case call =>
    intro name function arg node known same
    rw [eval_foldConstants emptySum, spelled, known]
    dsimp only
    rw [eval, eval, same]

section Field

variable [Field α] [FieldArithmetic α]

theorem emptySum_eq_zero : (Arithmetic.emptySum : α) = Arithmetic.zero := by
  rw [FieldArithmetic.emptySum_eq, ExactArithmetic.zero_eq]

variable {args : List (Quantity α)} {nodes : List (Node α)} {values : List α}

/-- In a field, computations that evaluate to constants are added to their sum. -/
theorem eval_add_of_constants
    (evaluate : List.Forall₂ (fun node value => node.eval args = .ok (.constant value)) nodes
      values) : (add nodes).eval args = .ok (.constant values.sum) := by
  have total := evalChain_of_constants Arithmetic.add Arithmetic.zero evaluate
  rw [FieldArithmetic.add_eq_add, ExactArithmetic.zero_eq, ← List.sum_eq_foldl] at total
  rw [eval, FieldArithmetic.add_eq_add, ExactArithmetic.zero_eq, total]

/-- In a field, computations that evaluate to constants are multiplied to their product. -/
theorem eval_mul_of_constants
    (evaluate : List.Forall₂ (fun node value => node.eval args = .ok (.constant value)) nodes
      values) : (mul nodes).eval args = .ok (.constant values.prod) := by
  have total := evalChain_of_constants Arithmetic.mul Arithmetic.one evaluate
  rw [FieldArithmetic.mul_eq_mul, FieldArithmetic.one_eq, ← List.prod_eq_foldl] at total
  rw [eval, FieldArithmetic.mul_eq_mul, FieldArithmetic.one_eq, total]

theorem eval_products_of_constants {lefts rights : List (Node α)} {a b : List α}
    (evaluateLeft : List.Forall₂ (fun node value => node.eval args = .ok (.constant value)) lefts a)
    (evaluateRight : List.Forall₂ (fun node value => node.eval args = .ok (.constant value)) rights
      b) :
    List.Forall₂ (fun node value => node.eval args = .ok (.constant value))
      (products lefts rights) (List.zipWith (· * ·) a b) := by
  induction evaluateLeft generalizing rights b with
  | nil => exact .nil
  | cons first _ ih =>
    cases evaluateRight with
    | nil => exact .nil
    | cons second later =>
      refine .cons ?_ (ih later)
      have product := eval_mul_of_constants (.cons first (.cons second .nil))
      rwa [List.prod_cons, List.prod_singleton] at product

/-- A compiled computation has the value of its expression, with every parameter bound to its
argument. -/
theorem eval_compiled {params : List String} {e : Expr} {node : Node α}
    (compiled : compile params e = .ok node) (sameLength : values.length = params.length)
    {reading : Expr.Interpretation α}
    (known : ∀ function value,
      reading.call (.named function.name) [value] = Arithmetic.pointwise function value) :
    node.eval (values.map .constant) =
      .ok (.constant (e.valueIn (reading.bind (params.zip values)))) := by
  have each : ∀ {es : List Expr} {nodes : List (Node α)},
      List.Forall₂ (fun e node => node.eval (values.map .constant) =
        .ok (.constant (e.valueIn (reading.bind (params.zip values))))) es nodes →
      List.Forall₂
        (fun node value => node.eval (values.map .constant) = .ok (.constant value)) nodes
        (es.map (Expr.valueIn (reading.bind (params.zip values)))) := fun evaluate =>
    List.forall₂_map_right_iff.mpr evaluate.flip
  refine compile_induction
    (motive := fun e node => node.eval (values.map .constant) =
      .ok (.constant (e.valueIn (reading.bind (params.zip values)))))
    ?num ?sym ?add ?mul ?pow ?dot ?call e node compiled
  case num =>
    intro value number found
    rw [Expr.valueIn_num, ← FieldArithmetic.eq_of_ofRational? found, eval]
  case sym =>
    intro name position found
    obtain ⟨inRange, -⟩ := List.idxOf?_eq_some_iff.mp found
    rw [← sameLength] at inRange
    rw [Expr.valueIn_sym, Expr.Interpretation.bind_symbol, lookup_zip_of_idxOf? found, eval,
      List.getElem?_map, List.getElem?_eq_getElem inRange]
    rfl
  case add =>
    intro terms nodes evaluate
    rw [eval_foldConstants emptySum_eq_zero, Expr.valueIn_add]
    exact eval_add_of_constants (each evaluate)
  case mul =>
    intro factors nodes evaluate
    rw [eval_foldConstants emptySum_eq_zero, Expr.valueIn_mul]
    exact eval_mul_of_constants (each evaluate)
  case pow =>
    intro base exponent node evaluate
    rw [eval_foldConstants emptySum_eq_zero, Expr.valueIn_pow, eval, evaluate,
      ← FieldArithmetic.powInt_eq_zpow]
    rfl
  case dot =>
    intro left right lefts rights sameLength evaluateLeft evaluateRight
    have total := eval_add_of_constants
      (eval_products_of_constants (each evaluateLeft) (each evaluateRight))
    rw [List.zipWith_map] at total
    rw [eval_foldConstants emptySum_eq_zero, total, Expr.valueIn_dot sameLength,
      @List.zip_eq_zipWith _ _ left right, List.map_zipWith]
  case call =>
    intro name function arg node named evaluate
    have sameName : function.name = name := by
      simpa using List.find?_some named
    rw [eval_foldConstants emptySum_eq_zero, Expr.valueIn_call_of_ne (by simp), List.map_singleton,
      ← sameName, eval, evaluate]
    refine congrArg (fun value => Except.ok (Quantity.constant value)) ?_
    exact (known function _).symm

end Field

end Node

namespace NumericFunction

variable {α : Type} [Arithmetic α] [Field α] [FieldArithmetic α]

/-- In a field, a compiled function has the value of its expression at the arguments that its
parameters are bound to, and it has the same value as the computation that the expression writes
out, whatever was carried out at compile time. -/
theorem eval_compiled_eq_value {params : List String} {e : Expr} {function : NumericFunction α}
    {values : List α} {reading : Expr.Interpretation α}
    (compiled : compile params e = .ok function) (sameLength : values.length = params.length)
    (known : ∀ function value,
      reading.call (.named function.name) [value] = Arithmetic.pointwise function value) :
    function.eval (values.map .constant) =
        .ok (.constant (e.valueIn (reading.bind (params.zip values)))) ∧
      (Node.spelled params e : Node α).eval (values.map .constant) =
        .ok (.constant (e.valueIn (reading.bind (params.zip values)))) ∧
      ∀ args, (Node.spelled params e : Node α).eval args = function.root.eval args := by
  obtain ⟨root, compiledRoot, -, rfl⟩ := compile_eq_ok_iff.mp compiled
  have value := Node.eval_compiled compiledRoot sameLength known
  have spelled := Node.eval_spelled Node.emptySum_eq_zero compiledRoot
  refine ⟨?_, (spelled _).trans value, spelled⟩
  rw [eval, if_pos (by rw [List.length_map, sameLength]), value]

/-- `x^(-1) * dot([x, 2], [y, 1/2]) + sqrt(2 + 3)`, an expression with constants to carry out. -/
def mixed : Expr :=
  .add [.mul [.pow (.sym "x") Exponent.negOne,
      .call .dot [.vector [.sym "x", .num 2], .vector [.sym "y", .num (1 / 2)]]],
    .call (.named "sqrt") [.add [.num 2, .num 3]]]

/-- At `x = 2` and `y = 3`, with the root taken for the identity. -/
theorem eval_compiled_eq_value_mixed :
    ∃ function : NumericFunction ℚ, compile ["x", "y"] mixed = .ok function ∧
      function.eval [.constant 2, .constant 3] = .ok (.constant (17 / 2)) ∧
      function.root.eval [.constant 2, .constant 3] = .ok (.constant (17 / 2)) := by
  obtain ⟨function, compiled⟩ : ∃ function : NumericFunction ℚ,
      compile ["x", "y"] mixed = .ok function := Outcome.exists_of_isOk (by decide +kernel)
  let reading : Expr.Interpretation ℚ :=
    ⟨fun _ => 0, fun _ => 0, fun _ values => values.headD 0⟩
  have values : ([2, 3] : List ℚ).length = ["x", "y"].length := rfl
  obtain ⟨value, spelled, same⟩ :=
    eval_compiled_eq_value compiled values (show ∀ function value,
      reading.call (.named function.name) [value] = Arithmetic.pointwise function value from
        fun _ _ => rfl)
  have number : mixed.valueIn (reading.bind (["x", "y"].zip [2, 3])) = 17 / 2 := by
    simp [mixed, Expr.valueIn_add, Expr.valueIn_mul, Expr.valueIn_pow, Expr.valueIn_dot,
      Expr.valueIn_call_of_ne, Expr.Interpretation.bind, List.lookup_cons, reading,
      Exponent.negOne]
    norm_num
  rw [number] at value spelled
  exact ⟨function, compiled, value, (same _).symm.trans spelled⟩

end NumericFunction

end FiniteVolume
