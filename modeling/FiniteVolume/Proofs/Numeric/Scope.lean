import FiniteVolume.Proofs.Expr.Rearrangement
import FiniteVolume.Proofs.Numeric.Batch
import FiniteVolume.Proofs.Numeric.Compilation
import FiniteVolume.Proofs.Numeric.Exact
import FiniteVolume.Proofs.Rejection

/-!
# Evaluation succeeds

A compiled function refers to its own parameters only (`symbol_of_position`), and an expression that
is not compiled for lack of a symbol has this symbol (`errorsAre_compile`). So a compiled function
has a value on as many arguments as it has parameters if all of them are given for the same number
of entities (`exists_evalBatch`). For every entity it is the value of the function on the numbers of
this entity alone (`evalBatch_pointwise`).
-/

namespace FiniteVolume

variable {α : Type}

namespace Quantity

/-- A quantity that is constant or given for a number of entities. -/
def Fits (count : Nat) : Quantity α → Prop
  | constant _ => True
  | batch values => values.size = count

variable {count : Nat} {left right : Quantity α}

/-- A quantity has as many values after a function is applied to each. -/
theorem Fits.map {quantity : Quantity α} (fits : quantity.Fits count) (f : α → α) :
    (quantity.map f).Fits count := by
  cases quantity with
  | constant value => trivial
  | batch values => exact Array.size_map.trans fits

/-- Quantities of one length are combined to one of that length. -/
theorem Fits.zipWith (fitsLeft : left.Fits count) (fitsRight : right.Fits count)
    (f : α → α → α) : ∃ result, left.zipWith f right = .ok result ∧ result.Fits count := by
  cases left with
  | constant a =>
    cases right with
    | constant b => exact ⟨_, rfl, trivial⟩
    | batch values => exact ⟨_, rfl, Array.size_map.trans fitsRight⟩
  | batch numbers =>
    cases right with
    | constant b => exact ⟨_, rfl, Array.size_map.trans fitsLeft⟩
    | batch values =>
      have sameSize : numbers.size = values.size := Eq.trans fitsLeft (Eq.symm fitsRight)
      refine ⟨.batch (Array.zipWith f numbers values), if_pos sameSize, ?_⟩
      change (Array.zipWith f numbers values).size = count
      rw [Array.size_zipWith, ← sameSize, Nat.min_self]
      exact fitsLeft

/-- A quantity of the right length is broadcast. -/
theorem Fits.broadcast {quantity : Quantity α} (fits : quantity.Fits count) :
    ∃ values, quantity.broadcast count = .ok values := by
  cases quantity with
  | constant value => exact ⟨_, rfl⟩
  | batch values => exact ⟨values, if_pos fits⟩

/-- The number for the entity at a position. -/
def numberAt? (position : Nat) : Quantity α → Option α
  | constant value => some value
  | batch values => values[position]?

/-- A quantity that is given for enough entities has a number for each of them. -/
theorem Fits.exists_numberAt {quantity : Quantity α} {position : Nat} (fits : quantity.Fits count)
    (inRange : position < count) :
    ∃ value, quantity.numberAt? position = some value ∧ quantity.Selects count position value := by
  cases quantity with
  | constant value => exact ⟨value, rfl, .constant value⟩
  | batch values =>
    have inBatch : position < values.size := lt_of_lt_of_eq inRange (Eq.symm fits)
    have stands : values[position]? = some values[position] := Array.getElem?_eq_getElem inBatch
    exact ⟨values[position], stands, .batch fits stands⟩

/-- Quantities of the right length have a value at every position. -/
theorem Fits.exists_numbersAt {quantities : List (Quantity α)} {position : Nat}
    (fit : ∀ quantity ∈ quantities, quantity.Fits count) (inRange : position < count) :
    ∃ values, quantities.mapM (numberAt? position) = some values ∧
      List.Forall₂ (Selects count position) quantities values := by
  induction quantities with
  | nil => exact ⟨[], rfl, .nil⟩
  | cons quantity rest ih =>
    obtain ⟨first, later⟩ := List.forall_mem_cons.mp fit
    obtain ⟨value, found, selects⟩ := first.exists_numberAt inRange
    obtain ⟨values, mapped, selected⟩ := ih later
    exact ⟨value :: values, mapM_eq_some_iff.mpr (.cons found (mapM_eq_some_iff.mp mapped)),
      .cons selects selected⟩

end Quantity

variable [Arithmetic α]

namespace Node

section Positions

omit [Arithmetic α]

mutual

/-- The positions of all arguments that a computation refers to. -/
def positions : Node α → List Nat
  | const _ => []
  | param position => [position]
  | add nodes | mul nodes => positionsOfAll nodes
  | pow base _ => base.positions
  | call _ arg => arg.positions

/-- The positions that the computations of a list refer to. -/
def positionsOfAll : List (Node α) → List Nat
  | [] => []
  | node :: rest => node.positions ++ positionsOfAll rest

end

/-- The positions that several nodes read are those of each node. -/
theorem mem_positionsOfAll {nodes : List (Node α)} {position : Nat} :
    position ∈ positionsOfAll nodes ↔ ∃ node ∈ nodes, position ∈ node.positions := by
  induction nodes with
  | nil => simp [positionsOfAll]
  | cons node rest ih => simp [positionsOfAll, ih]

end Positions

/-- Carrying out constants leaves no new reference to an argument. -/
theorem mem_positions_of_foldConstants {node : Node α} {position : Nat}
    (refers : position ∈ node.foldConstants.positions) : position ∈ node.positions := by
  cases node with
  | const value | param position => exact refers
  | add nodes | mul nodes =>
    rw [foldConstants] at refers
    split at refers
    · exact absurd refers List.not_mem_nil
    · exact refers
  | pow base exponent =>
    cases base with
    | const value => exact absurd refers List.not_mem_nil
    | _ => exact refers
  | call function arg =>
    cases arg with
    | const value => exact absurd refers List.not_mem_nil
    | _ => exact refers

/-- A compiled computation refers to an argument only where its expression has a symbol that is a
parameter at the position of this argument. -/
theorem symbol_of_position {params : List String} {e : Expr} {node : Node α}
    (compiled : compile params e = .ok node) {position : Nat}
    (refers : position ∈ node.positions) :
    ∃ name, .sym name ∈ e.subterms ∧ params.idxOf? name = some position := by
  -- A position in one of several computations comes from a symbol of one of the expressions.
  have operands : ∀ {es : List Expr} {nodes : List (Node α)},
      List.Forall₂ (fun e (node : Node α) => position ∈ node.positions →
        ∃ name, .sym name ∈ e.subterms ∧ params.idxOf? name = some position) es nodes →
      ∀ node ∈ nodes, position ∈ node.positions →
        ∃ e ∈ es, ∃ name, .sym name ∈ e.subterms ∧ params.idxOf? name = some position := by
    intro es nodes each node member refers
    obtain ⟨e, paired, named⟩ := exists_mem_zip_of_forall₂ each.flip member
    exact ⟨e, (List.of_mem_zip paired).2, named refers⟩
  refine compile_induction
    (motive := fun e node => position ∈ node.positions →
      ∃ name, .sym name ∈ e.subterms ∧ params.idxOf? name = some position)
    ?num ?sym ?add ?mul ?pow ?dot ?call e node compiled refers
  case num =>
    intro value number _ refers
    exact absurd refers List.not_mem_nil
  case sym =>
    intro name index found refers
    cases List.mem_singleton.mp refers
    exact ⟨name, Expr.self_mem_subterms _, found⟩
  case add =>
    intro terms nodes each refers
    obtain ⟨node, member, refers⟩ :=
      mem_positionsOfAll.mp (mem_positions_of_foldConstants refers)
    obtain ⟨term, isTerm, name, occurs, found⟩ := operands each node member refers
    exact ⟨name, Expr.mem_subterms_of_arg isTerm occurs, found⟩
  case mul =>
    intro factors nodes each refers
    obtain ⟨node, member, refers⟩ :=
      mem_positionsOfAll.mp (mem_positions_of_foldConstants refers)
    obtain ⟨factor, isFactor, name, occurs, found⟩ := operands each node member refers
    exact ⟨name, Expr.mem_subterms_of_arg isFactor occurs, found⟩
  case pow =>
    intro base exponent node named refers
    have inOperand := mem_positions_of_foldConstants refers
    obtain ⟨name, occurs, found⟩ := named inOperand
    exact ⟨name, Expr.mem_subterms_of_arg (List.mem_singleton_self base) occurs, found⟩
  case dot =>
    intro left right lefts rights _ eachLeft eachRight refers
    obtain ⟨product, member, refers⟩ :=
      mem_positionsOfAll.mp (mem_positions_of_foldConstants refers)
    rw [products, ← List.map_uncurry_zip_eq_zipWith] at member
    obtain ⟨pair, inside, rfl⟩ := List.mem_map.mp member
    obtain ⟨inLeft, inRight⟩ := List.of_mem_zip inside
    obtain ⟨node, isFactor, refers⟩ := mem_positionsOfAll.mp refers
    obtain rfl | rfl := List.mem_pair.mp isFactor
    · obtain ⟨component, inVector, name, occurs, found⟩ := operands eachLeft _ inLeft refers
      exact ⟨name, Expr.mem_subterms_of_arg (List.mem_cons_self)
        (Expr.mem_subterms_of_arg inVector occurs), found⟩
    · obtain ⟨component, inVector, name, occurs, found⟩ := operands eachRight _ inRight refers
      exact ⟨name, Expr.mem_subterms_of_arg (List.mem_cons_of_mem _ List.mem_cons_self)
        (Expr.mem_subterms_of_arg inVector occurs), found⟩
  case call =>
    intro name function arg node _ named refers
    have inOperand := mem_positions_of_foldConstants refers
    obtain ⟨name, occurs, found⟩ := named inOperand
    exact ⟨name, Expr.mem_subterms_of_arg (List.mem_singleton_self arg) occurs, found⟩

/-- A compiled computation refers to its parameters only. -/
theorem position_lt_of_compile {params : List String} {e : Expr} {node : Node α}
    (compiled : compile params e = .ok node) :
    ∀ position ∈ node.positions, position < params.length := by
  intro position refers
  obtain ⟨name, -, found⟩ := symbol_of_position compiled refers
  exact (List.idxOf?_eq_some_iff.mp found).1

section Errors

open Outcome

/-- An error names a symbol only if it is one of an expression and no parameter. -/
def NamesUnbound (params : List String) (e : Expr) (error : Error) : Prop :=
  ∀ name, error = .unboundSymbol name → .sym name ∈ e.subterms ∧ name ∉ params

/-- A name that is unbound in a child is unbound in the expression. -/
theorem NamesUnbound.of_arg {params : List String} {e arg : Expr} {error : Error}
    (names : NamesUnbound params arg error) (member : arg ∈ e.args) :
    NamesUnbound params e error := fun name same =>
  ⟨Expr.mem_subterms_of_arg member (names name same).1, (names name same).2⟩

/-- Compiling an inner product fails as one of its operands does. -/
theorem errorsAre_compileProducts {kind : Error → Prop} {params : List String}
    {left right : List Expr}
    (lefts : ∀ e ∈ left, (compile params e : Outcome (Node α)).ErrorsAre kind)
    (rights : ∀ e ∈ right, (compile params e : Outcome (Node α)).ErrorsAre kind) :
    (((compileEach params left).zip (compileEach params right)).mapM
      (fun (left, right) => do return mul [← left, ← right]) :
        Outcome (List (Node α))).ErrorsAre kind := by
  rw [compileEach_eq_map, compileEach_eq_map]
  refine errorsAre_mapM ?_
  rintro ⟨first, second⟩ member
  obtain ⟨inLeft, inRight⟩ := List.of_mem_zip member
  obtain ⟨a, isLeft, rfl⟩ := List.mem_map.mp inLeft
  obtain ⟨b, isRight, rfl⟩ := List.mem_map.mp inRight
  exact (lefts a isLeft).bind fun _ _ => (rights b isRight).bind fun _ _ => errorsAre_ok _

section Reasons

omit [Arithmetic α]

variable {params : List String} {e : Expr}

/-- Constructs that are not supported are no symbols. -/
theorem errorsAre_unsupported (construct : Expr) (reason : Unsupported) :
    (construct.reject reason : Outcome (Node α)).ErrorsAre (NamesUnbound params e) :=
  (rejectsAs_reject _ _).errors.imp fun error unsupported name same => by
    cases same
    exact unsupported.elim

/-- A mismatch of shapes names no symbol. -/
theorem errorsAre_shape (construct : Expr) (mismatch : String → ShapeMismatch) :
    (do Outcome.reject (.shape (mismatch (← construct.text))) :
      Outcome (Node α)).ErrorsAre (NamesUnbound params e) :=
  (errorsAre_ofPower? _).bind fun text _ => errorsAre_reject_of fun name same => by cases same

/-- An unknown function names no symbol. -/
theorem errorsAre_unknownFunction (function : String) :
    (Outcome.reject (.unknownFunction function) : Outcome (Node α)).ErrorsAre
      (NamesUnbound params e) :=
  errorsAre_reject_of fun name same => by cases same

end Reasons

/-- Calls name no symbol themselves. Inner products compile the components of their operands. -/
theorem errorsAre_compile_call {params : List String} {head : Head} {args : List Expr}
    (operands : ∀ arg ∈ args,
      (compile params arg : Outcome (Node α)).ErrorsAre (NamesUnbound params (.call head args)))
    (components : ∀ vector, .vector vector ∈ args → ∀ component ∈ vector,
      (compile params component : Outcome (Node α)).ErrorsAre
        (NamesUnbound params (.call head args))) :
    (compile params (.call head args) : Outcome (Node α)).ErrorsAre
      (NamesUnbound params (.call head args)) := by
  cases head with
  | dot =>
    by_cases vectors : ∃ left right, args = [.vector left, .vector right]
    · obtain ⟨left, right, rfl⟩ := vectors
      rw [compile]
      split
      · exact (errorsAre_compileProducts (components left List.mem_cons_self)
          (components right (List.mem_cons_of_mem _ List.mem_cons_self))).bind
            fun _ _ => errorsAre_ok _
      · exact errorsAre_shape _ _
    · rw [compile]
      · exact errorsAre_shape _ _
      · exact fun left right same => vectors ⟨left, right, same⟩
  | normalDerivative =>
    rw [compile]
    exact errorsAre_unsupported _ _
  | named name =>
    by_cases single : ∃ arg, args = [arg]
    · obtain ⟨arg, rfl⟩ := single
      rw [compile]
      split
      · exact (operands arg (List.mem_singleton_self arg)).bind fun _ _ => errorsAre_ok _
      · exact errorsAre_unknownFunction name
    · rw [compile]
      · exact errorsAre_unknownFunction name
      · exact fun arg same => single ⟨arg, same⟩

/-- Compilation rejects no symbol but those of the expression that are no parameters. -/
theorem errorsAre_compile (params : List String) (e : Expr) :
    (compile params e : Outcome (Node α)).ErrorsAre (NamesUnbound params e) := by
  -- Inner products compile the components of vectors, which do not compile themselves.
  suffices deep : (compile params e : Outcome (Node α)).ErrorsAre (NamesUnbound params e) ∧
      ∀ arg ∈ e.args, (compile params arg : Outcome (Node α)).ErrorsAre (NamesUnbound params e) from
    deep.1
  induction e using Expr.induction_args with
  | step e ih =>
    have parts : ∀ arg ∈ e.args,
        (compile params arg : Outcome (Node α)).ErrorsAre (NamesUnbound params e) :=
      fun arg member => (ih arg member).1.imp fun _ names => names.of_arg member
    have operands : ((compileEach params e.args : List (Outcome (Node α))).mapM id).ErrorsAre
        (NamesUnbound params e) := by
      rw [compileEach_eq_map]
      refine errorsAre_mapM fun outcome member => ?_
      obtain ⟨arg, inside, rfl⟩ := List.mem_map.mp member
      exact parts arg inside
    refine ⟨?_, parts⟩
    cases e with
    | num value =>
      rw [compile]
      split
      · exact errorsAre_ok _
      · exact errorsAre_unsupported _ _
    | sym name =>
      rw [compile]
      split
      · exact errorsAre_ok _
      · rename_i free
        refine errorsAre_reject_of fun other same => ?_
        cases same
        exact ⟨Expr.self_mem_subterms _, List.idxOf?_eq_none_iff.mp free⟩
    | add terms | mul factors =>
      rw [compile]
      exact operands.bind fun _ _ => errorsAre_ok _
    | pow base exponent =>
      rw [compile]
      split
      · exact errorsAre_unsupported _ _
      · split
        · exact (parts base (List.mem_singleton_self base)).bind fun _ _ => errorsAre_ok _
        · exact errorsAre_unsupported _ _
    | vector vector =>
      rw [compile]
      exact errorsAre_shape _ _
    | call head args =>
      exact errorsAre_compile_call parts fun vector member component inside =>
        ((ih (.vector vector) member).2 component inside).imp fun _ names => names.of_arg member

end Errors

variable {count : Nat} {args : List (Quantity α)}

/-- A computation has a value on some arguments that goes with a number of entities. -/
def Evaluates (args : List (Quantity α)) (count : Nat) (node : Node α) : Prop :=
  ∃ result, node.eval args = .ok result ∧ result.Fits count

/-- A chain of sums or products is evaluated if its operands are. -/
theorem exists_evalChain (join : α → α → α) {before : Quantity α} (fits : before.Fits count)
    {nodes : List (Node α)} (evaluate : ∀ node ∈ nodes, node.Evaluates args count) :
    ∃ result, evalChain args join before nodes = .ok result ∧ result.Fits count := by
  induction nodes generalizing before with
  | nil => exact ⟨before, rfl, fits⟩
  | cons node rest ih =>
    obtain ⟨⟨operand, evaluates, fitsOperand⟩, later⟩ := List.forall_mem_cons.mp evaluate
    obtain ⟨joined, joins, fitsJoined⟩ := fits.zipWith fitsOperand join
    obtain ⟨result, chained, fitsResult⟩ := ih fitsJoined later
    exact ⟨result, Outcome.bind_eq_ok_iff.mpr ⟨operand, evaluates,
      Outcome.bind_eq_ok_iff.mpr ⟨joined, joins, chained⟩⟩, fitsResult⟩

/-- Carrying out constants keeps a computation that has a value from losing it. -/
theorem Evaluates.foldConstants {node : Node α} (evaluates : node.Evaluates args count) :
    node.foldConstants.Evaluates args count := by
  cases node with
  | const value | param position => exact evaluates
  | add nodes | mul nodes =>
    rw [Node.foldConstants]
    split
    · exact ⟨_, rfl, trivial⟩
    · exact evaluates
  | pow base exponent =>
    cases base with
    | const value => exact ⟨_, rfl, trivial⟩
    | _ => exact evaluates
  | call function arg =>
    cases arg with
    | const value => exact ⟨_, rfl, trivial⟩
    | _ => exact evaluates

/-- A function of a node is evaluated if the node is. -/
theorem Evaluates.map {node result : Node α} {f : α → α} (evaluates : node.Evaluates args count)
    (maps : result.eval args = do return (← node.eval args).map f) :
    result.Evaluates args count := by
  obtain ⟨value, evaluates, fits⟩ := evaluates
  refine ⟨value.map f, ?_, fits.map f⟩
  rw [maps, evaluates]
  rfl

/-- A sum is evaluated if its terms are. -/
theorem evaluates_add {nodes : List (Node α)}
    (evaluate : ∀ node ∈ nodes, node.Evaluates args count) :
    (add nodes).Evaluates args count :=
  exists_evalChain Arithmetic.add (show (Quantity.constant _).Fits count from trivial) evaluate

/-- A product is evaluated if its factors are. -/
theorem evaluates_mul {nodes : List (Node α)}
    (evaluate : ∀ node ∈ nodes, node.Evaluates args count) :
    (mul nodes).Evaluates args count :=
  exists_evalChain Arithmetic.mul (show (Quantity.constant _).Fits count from trivial) evaluate

/-- Compiled computations have values on arguments for all parameters. -/
theorem evaluates_of_compile {params : List String} {e : Expr} {node : Node α}
    (compiled : compile params e = .ok node) (complete : args.length = params.length)
    (fit : ∀ arg ∈ args, arg.Fits count) : node.Evaluates args count := by
  have members : ∀ {es : List Expr} {nodes : List (Node α)},
      List.Forall₂ (fun _ node => node.Evaluates args count) es nodes →
      ∀ node ∈ nodes, node.Evaluates args count :=
    fun evaluate => forall_mem_of_forall₂ evaluate.flip
  refine compile_induction (motive := fun _ node => node.Evaluates args count)
    ?num ?sym ?add ?mul ?pow ?dot ?call e node compiled
  case num =>
    intro value number _
    exact ⟨_, rfl, trivial⟩
  case sym =>
    intro name position found
    obtain ⟨inRange, -⟩ := List.idxOf?_eq_some_iff.mp found
    rw [← complete] at inRange
    refine ⟨args[position], ?_, fit _ (List.getElem_mem inRange)⟩
    rw [eval, List.getElem?_eq_getElem inRange]
    rfl
  case add =>
    intro terms nodes evaluate
    exact (evaluates_add (members evaluate)).foldConstants
  case mul =>
    intro factors nodes evaluate
    exact (evaluates_mul (members evaluate)).foldConstants
  case pow =>
    intro base exponent node evaluates
    exact (evaluates.map (by rw [eval])).foldConstants
  case dot =>
    intro left right lefts rights _ evaluateLeft evaluateRight
    refine (evaluates_add fun product member => ?_).foldConstants
    rw [products, ← List.map_uncurry_zip_eq_zipWith] at member
    obtain ⟨pair, inside, rfl⟩ := List.mem_map.mp member
    have operands := List.of_mem_zip inside
    exact evaluates_mul (List.forall_mem_cons.mpr ⟨members evaluateLeft _ operands.1,
      List.forall_mem_singleton.mpr (members evaluateRight _ operands.2)⟩)
  case call =>
    intro name function arg node _ evaluates
    exact (evaluates.map (by rw [eval])).foldConstants

end Node

namespace NumericFunction

/-- Compilation reports a symbol as unbound only if it is. -/
theorem errorsAre_compile (params : List String) (e : Expr) :
    (compile params e : Outcome (NumericFunction α)).ErrorsAre (Node.NamesUnbound params e) := by
  unfold compile
  split
  · rename_i unbound found
    refine Outcome.errorsAre_reject_of fun name same => ?_
    cases same
    have lacking := List.find?_some found
    exact ⟨Expr.mem_symbols.mp (List.mem_of_find?_eq_some found), by simpa using lacking⟩
  · exact (Node.errorsAre_compile params e).bind fun _ _ => Outcome.errorsAre_ok _

/-- A compiled function has values for every number of entities. -/
theorem exists_evalBatch {params : List String} {e : Expr} {function : NumericFunction α}
    {args : List (Quantity α)} {count : Nat} (compiled : compile params e = .ok function)
    (complete : args.length = params.length) (fit : ∀ arg ∈ args, arg.Fits count) :
    ∃ results, function.evalBatch args count = .ok results := by
  obtain ⟨root, compiledRoot, -, rfl⟩ := compile_eq_ok_iff.mp compiled
  obtain ⟨result, evaluates, fits⟩ := Node.evaluates_of_compile compiledRoot complete fit
  obtain ⟨results, broadcasts⟩ := fits.broadcast
  refine ⟨results, Outcome.bind_eq_ok_iff.mpr ⟨result, ?_, broadcasts⟩⟩
  rw [eval, if_pos complete, evaluates]

/-- On constants and batches for a number of entities, a compiled function has a value for each of
the entities, and it is the value that the function has on the numbers of this entity alone. -/
theorem evalBatch_pointwise {params : List String} {e : Expr} {function : NumericFunction α}
    {args : List (Quantity α)} {count : Nat} (compiled : compile params e = .ok function)
    (complete : args.length = params.length) (fit : ∀ arg ∈ args, arg.Fits count) :
    ∃ results, function.evalBatch args count = .ok results ∧ results.size = count ∧
      ∀ position < count, ∃ values value, args.mapM (Quantity.numberAt? position) = some values ∧
        function.eval (values.map .constant) = .ok (.constant value) ∧
        results[position]? = some value := by
  obtain ⟨results, evaluates⟩ := exists_evalBatch compiled complete fit
  refine ⟨results, evaluates, size_of_evalBatch evaluates, fun position inRange => ?_⟩
  obtain ⟨values, numbers, selected⟩ := Quantity.Fits.exists_numbersAt fit inRange
  obtain ⟨result, evaluates, broadcasts⟩ := Outcome.bind_eq_ok_iff.mp evaluates
  obtain ⟨value, single, selects⟩ := eval_selects selected evaluates
  exact ⟨values, value, numbers, single, selects.broadcast inRange broadcasts⟩

/-- `a * b + 1` for a batch of three numbers and a constant, at the last of the three. -/
theorem evalBatch_pointwise_affine :
    ∃ function : NumericFunction ℚ,
      compile ["a", "b"] (.add [.num 1, .mul [.sym "a", .sym "b"]]) = .ok function ∧
      ∃ results, function.evalBatch [.batch #[1, 2, 3], .constant 2] 3 = .ok results ∧
        results.size = 3 ∧ function.eval [.constant 3, .constant 2] = .ok (.constant 7) ∧
        results[2]? = some 7 := by
  let function : NumericFunction ℚ :=
    ⟨["a", "b"], .add [.const 1, .mul [.param 0, .param 1]],
      .add [.num 1, .mul [.sym "a", .sym "b"]]⟩
  have compiled : compile ["a", "b"] (.add [.num 1, .mul [.sym "a", .sym "b"]]) =
      .ok function := by rfl
  have fit : ∀ arg ∈ [Quantity.batch #[(1 : ℚ), 2, 3], .constant 2], arg.Fits 3 :=
    List.forall_mem_cons.mpr ⟨rfl, List.forall_mem_singleton.mpr trivial⟩
  obtain ⟨results, evaluates, size, pointwise⟩ := evalBatch_pointwise compiled rfl fit
  obtain ⟨values, value, numbers, single, stands⟩ := pointwise 2 (by decide)
  cases numbers
  have sum : (0 + 1 + 1 * 3 * 2 : ℚ) = 7 := by norm_num
  have single' : function.eval [.constant 3, .constant 2] =
      .ok (.constant (0 + 1 + 1 * 3 * 2)) := rfl
  rw [sum] at single'
  cases single.symm.trans single'
  exact ⟨function, compiled, results, evaluates, size, single', stands⟩

end NumericFunction

end FiniteVolume
