import FiniteVolume.Numeric.Function
import FiniteVolume.Proofs.Expr.Rearrangement
import FiniteVolume.Proofs.Outcome

/-!
# Compilation

Compilation goes through an expression operation by operation: it puts the computation of an
expression together from those of its operands, or rejects the expression (`compile_iff_composes`).
What passes from the operands of every operation to its compiled computation holds of all that is
compiled (`compile_induction`).
-/

namespace FiniteVolume

namespace Node

variable {α : Type} [Arithmetic α]

section Induction

variable {params : List String} {motive : Expr → Node α → Prop}

theorem compileEach_eq_map (params : List String) (es : List Expr) :
    (compileEach params es : List (Outcome (Node α))) = es.map (compile params) := by
  induction es with
  | nil => rfl
  | cons e rest ih => rw [compileEach, ih, List.map_cons]

/-- Compiling every expression of a list is compiling it one after the other. -/
theorem mapM_compileEach_iff {es : List Expr} {nodes : List (Node α)} :
    (compileEach params es).mapM id = .ok nodes ↔
      List.Forall₂ (fun e node => compile params e = .ok node) es nodes := by
  rw [compileEach_eq_map, Outcome.mapM_eq_ok_iff, List.forall₂_map_left_iff]
  rfl

/-- The products of the computations at every position of two lists. -/
def products (lefts rights : List (Node α)) : List (Node α) :=
  List.zipWith (fun left right => mul [left, right]) lefts rights

/-- The compiled products of an inner product. -/
theorem forall₂_of_compileProducts {left right : List Expr} {nodes : List (Node α)}
    (sameLength : left.length = right.length)
    (compiled : ((compileEach params left).zip (compileEach params right)).mapM
      (fun (left, right) => do return mul [← left, ← right]) = Except.ok nodes) :
    ∃ lefts rights, List.Forall₂ (fun e node => compile params e = .ok node) left lefts ∧
      List.Forall₂ (fun e node => compile params e = .ok node) right rights ∧
      nodes = products lefts rights := by
  rw [compileEach_eq_map, compileEach_eq_map, Outcome.mapM_eq_ok_iff] at compiled
  induction left generalizing right nodes with
  | nil =>
    cases right with
    | nil =>
      cases compiled
      exact ⟨[], [], .nil, .nil, rfl⟩
    | cons e rest => cases sameLength
  | cons a left ih =>
    cases right with
    | nil => cases sameLength
    | cons b right =>
      cases compiled with
      | cons first later =>
        obtain ⟨lefts, rights, compiledLeft, compiledRight, rfl⟩ :=
          ih (Nat.succ.inj sameLength) later
        obtain ⟨nodeLeft, compiledA, first⟩ := Outcome.bind_eq_ok_iff.mp first
        obtain ⟨nodeRight, compiledB, same⟩ := Outcome.bind_eq_ok_iff.mp first
        cases same
        exact ⟨nodeLeft :: lefts, nodeRight :: rights, .cons compiledA compiledLeft,
          .cons compiledB compiledRight, rfl⟩

theorem mapM_compileProducts {left right : List Expr} {lefts rights : List (Node α)}
    (compiledLeft : List.Forall₂ (fun e node => compile params e = .ok node) left lefts)
    (compiledRight : List.Forall₂ (fun e node => compile params e = .ok node) right rights) :
    ((compileEach params left).zip (compileEach params right)).mapM
      (fun (left, right) => do return mul [← left, ← right]) =
        Except.ok (products lefts rights) := by
  rw [compileEach_eq_map, compileEach_eq_map, Outcome.mapM_eq_ok_iff]
  induction compiledLeft generalizing right rights with
  | nil => exact .nil
  | cons compilesLeft _ ih =>
    cases compiledRight with
    | nil => exact .nil
    | cons compilesRight later =>
      refine .cons ?_ (ih later)
      dsimp only
      rw [compilesLeft, compilesRight]
      rfl

/-- How a computation is put together from the computations of the operands. -/
inductive Composes (params : List String) : Expr → Node α → Prop where
  | num {value : Rat} {number : α} (found : Arithmetic.ofRational? value = some number) :
    Composes params (.num value) (const number)
  | sym {name : String} {position : Nat} (found : params.idxOf? name = some position) :
    Composes params (.sym name) (param position)
  | add {terms : List Expr} {nodes : List (Node α)}
    (compiled : List.Forall₂ (fun e node => compile params e = .ok node) terms nodes) :
    Composes params (.add terms) (foldConstants (add nodes))
  | mul {factors : List Expr} {nodes : List (Node α)}
    (compiled : List.Forall₂ (fun e node => compile params e = .ok node) factors nodes) :
    Composes params (.mul factors) (foldConstants (mul nodes))
  | pow {base : Expr} {exponent : Exponent} {node : Node α}
    (regular : ¬(base.isZero = true ∧ exponent.val < 0)) (short : exponent.isShort = true)
    (compiled : compile params base = .ok node) :
    Composes params (.pow base exponent) (foldConstants (pow node exponent.val))
  | dot {left right : List Expr} {lefts rights : List (Node α)}
    (sameLength : left.length = right.length)
    (compiledLeft : List.Forall₂ (fun e node => compile params e = .ok node) left lefts)
    (compiledRight : List.Forall₂ (fun e node => compile params e = .ok node) right rights) :
    Composes params (.call .dot [.vector left, .vector right])
      (foldConstants (add (products lefts rights)))
  | call {name : String} {function : Pointwise} {arg : Expr} {node : Node α}
    (known : Pointwise.ofName? name = some function) (compiled : compile params arg = .ok node) :
    Composes params (.call (.named name) [arg]) (foldConstants (call function node))

/-- Only inner products of vectors of equal length and known functions of one argument compile. -/
theorem composes_call {head : Head} {args : List Expr} {node : Node α}
    (compiled : compile params (.call head args) = .ok node) :
    Composes params (.call head args) node := by
  cases head with
  | dot =>
    by_cases vectors : ∃ left right, args = [.vector left, .vector right]
    · obtain ⟨left, right, rfl⟩ := vectors
      rw [compile] at compiled
      split at compiled
      · rename_i sameLength
        obtain ⟨nodes, each, same⟩ := Outcome.bind_eq_ok_iff.mp compiled
        cases same
        obtain ⟨lefts, rights, compiledLeft, compiledRight, rfl⟩ :=
          forall₂_of_compileProducts sameLength each
        exact .dot sameLength compiledLeft compiledRight
      · obtain ⟨text, -, rejected⟩ := Outcome.bind_eq_ok_iff.mp compiled
        exact absurd rejected (Outcome.reject_ne_ok _ _)
    · rw [compile] at compiled
      · obtain ⟨text, -, rejected⟩ := Outcome.bind_eq_ok_iff.mp compiled
        exact absurd rejected (Outcome.reject_ne_ok _ _)
      · exact fun left right same => vectors ⟨left, right, same⟩
  | normalDerivative =>
    rw [compile] at compiled
    exact absurd compiled (Outcome.expr_reject_ne_ok _ _ _)
  | named name =>
    by_cases single : ∃ arg, args = [arg]
    · obtain ⟨arg, rfl⟩ := single
      rw [compile] at compiled
      split at compiled
      · rename_i function known
        obtain ⟨inner, compiledArg, same⟩ := Outcome.bind_eq_ok_iff.mp compiled
        cases same
        exact .call known compiledArg
      · exact absurd compiled (Outcome.reject_ne_ok _ _)
    · rw [compile] at compiled
      · exact absurd compiled (Outcome.reject_ne_ok _ _)
      · exact fun arg same => single ⟨arg, same⟩

/-- What is compiled is put together from the operands. -/
theorem composes_of_compile {e : Expr} {node : Node α} (compiled : compile params e = .ok node) :
    Composes params e node := by
  cases e with
  | num value =>
    rw [compile] at compiled
    split at compiled
    · rename_i number found
      cases compiled
      exact .num found
    · exact absurd compiled (Outcome.expr_reject_ne_ok _ _ _)
  | sym name =>
    rw [compile] at compiled
    split at compiled
    · rename_i position found
      cases compiled
      exact .sym found
    · exact absurd compiled (Outcome.reject_ne_ok _ _)
  | add terms =>
    rw [compile] at compiled
    obtain ⟨nodes, each, same⟩ := Outcome.bind_eq_ok_iff.mp compiled
    cases same
    exact .add (mapM_compileEach_iff.mp each)
  | mul factors =>
    rw [compile] at compiled
    obtain ⟨nodes, each, same⟩ := Outcome.bind_eq_ok_iff.mp compiled
    cases same
    exact .mul (mapM_compileEach_iff.mp each)
  | pow base exponent =>
    rw [compile] at compiled
    split at compiled
    · exact absurd compiled (Outcome.expr_reject_ne_ok _ _ _)
    · rename_i regular
      split at compiled
      · rename_i short
        obtain ⟨inner, compiledBase, same⟩ := Outcome.bind_eq_ok_iff.mp compiled
        cases same
        exact .pow (by simpa using regular) short compiledBase
      · exact absurd compiled (Outcome.expr_reject_ne_ok _ _ _)
  | vector components =>
    rw [compile] at compiled
    obtain ⟨text, -, rejected⟩ := Outcome.bind_eq_ok_iff.mp compiled
    exact absurd rejected (Outcome.reject_ne_ok _ _)
  | call head args => exact composes_call compiled

/-- Compilation puts computations together in this way and in no other. -/
theorem compile_iff_composes {e : Expr} {node : Node α} :
    compile params e = .ok node ↔ Composes params e node := by
  refine ⟨composes_of_compile, fun composes => ?_⟩
  cases composes with
  | num found => rw [compile, found]
  | sym found => rw [compile, found]
  | add compiled => rw [compile, mapM_compileEach_iff.mpr compiled, Outcome.ok_bind]; rfl
  | mul compiled => rw [compile, mapM_compileEach_iff.mpr compiled, Outcome.ok_bind]; rfl
  | pow regular short compiled =>
    rw [compile, if_neg (by simpa using regular), if_pos short, compiled]
    rfl
  | dot sameLength compiledLeft compiledRight =>
    rw [compile, if_pos sameLength, mapM_compileProducts compiledLeft compiledRight]
    rfl
  | call known compiled =>
    rw [compile, known, compiled]
    rfl

/-- A relation between expressions and computations holds of all that is compiled if every operation
passes it on from its operands. -/
theorem compile_induction
    (num : ∀ value number, Arithmetic.ofRational? value = some number →
      motive (.num value) (const number))
    (sym : ∀ name position, params.idxOf? name = some position →
      motive (.sym name) (param position))
    (add : ∀ terms nodes, List.Forall₂ motive terms nodes →
      motive (.add terms) (foldConstants (add nodes)))
    (mul : ∀ factors nodes, List.Forall₂ motive factors nodes →
      motive (.mul factors) (foldConstants (mul nodes)))
    (pow : ∀ base exponent node, motive base node →
      motive (.pow base exponent) (foldConstants (pow node exponent.val)))
    (dot : ∀ left right lefts rights, left.length = right.length →
      List.Forall₂ motive left lefts → List.Forall₂ motive right rights →
      motive (.call .dot [.vector left, .vector right])
        (foldConstants (.add (products lefts rights))))
    (call : ∀ name function arg node, Pointwise.ofName? name = some function → motive arg node →
      motive (.call (.named name) [arg]) (foldConstants (call function node)))
    (e : Expr) (node : Node α) (compiled : compile params e = .ok node) : motive e node := by
  have operands : ∀ {es : List Expr} {nodes : List (Node α)},
      (∀ e ∈ es, ∀ node, compile params e = .ok node → motive e node) →
      List.Forall₂ (fun e node => compile params e = .ok node) es nodes →
      List.Forall₂ motive es nodes := fun holds compiled =>
    forall₂_of_forall_mem holds (compiled.imp fun _ node compiles passes => passes node compiles)
  -- A vector itself does not compile, but its components do inside an inner product.
  suffices deep : (∀ node, compile params e = .ok node → motive e node) ∧
      ∀ arg ∈ e.args, ∀ node, compile params arg = .ok node → motive arg node from
    deep.1 node compiled
  clear compiled node
  induction e using Expr.induction_args with
  | step e ih =>
    have parts := fun arg member => (ih arg member).1
    refine ⟨fun node compiled => ?_, parts⟩
    cases composes_of_compile compiled with
    | num found => exact num _ _ found
    | sym found => exact sym _ _ found
    | add each => exact add _ _ (operands parts each)
    | mul each => exact mul _ _ (operands parts each)
    | pow _ _ compiledBase => exact pow _ _ _ (parts _ (List.mem_singleton_self _) _ compiledBase)
    | @dot left right lefts rights sameLength compiledLeft compiledRight =>
      exact dot left right lefts rights sameLength
        (operands (ih (.vector left) List.mem_cons_self).2 compiledLeft)
        (operands (ih (.vector right) (List.mem_cons_of_mem _ List.mem_cons_self)).2 compiledRight)
    | call known compiledArg =>
      exact call _ _ _ _ known (parts _ (List.mem_singleton_self _) _ compiledArg)

end Induction

end Node

namespace NumericFunction

variable {α : Type} [Arithmetic α]

/-- A function is compiled from an expression whose computation is compiled and whose symbols are
all parameters. -/
theorem compile_eq_ok_iff {params : List String} {e : Expr} {function : NumericFunction α} :
    compile params e = .ok function ↔
      ∃ root, Node.compile params e = .ok root ∧ (∀ name ∈ e.symbols, name ∈ params) ∧
        function = { params, root, source := e } := by
  unfold compile
  cases unbound : e.symbols.find? fun name => !params.contains name with
  | some name =>
    refine ⟨fun rejected => absurd rejected (Outcome.reject_ne_ok _ _), ?_⟩
    rintro ⟨_, -, bound, -⟩
    have missing := List.find?_some unbound
    simp [bound name (List.mem_of_find?_eq_some unbound)] at missing
  | none =>
    have bound : ∀ name ∈ e.symbols, name ∈ params := by
      simpa using List.find?_eq_none.mp unbound
    dsimp only
    rw [Outcome.bind_eq_ok_iff]
    refine exists_congr fun root => and_congr_right fun _ => ?_
    rw [and_iff_right bound]
    exact ⟨fun same => (Except.ok.inj same).symm, fun same => congrArg Except.ok same.symm⟩

end NumericFunction

end FiniteVolume
