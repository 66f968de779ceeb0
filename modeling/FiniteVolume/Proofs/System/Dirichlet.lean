import FiniteVolume.Proofs.Kernel.Entity
import FiniteVolume.Proofs.Sparse.Stored
import FiniteVolume.System.Dirichlet

/-!
# Dirichlet rows

Enforcing a Dirichlet kernel gives every vertex of its subdomain the row of its condition there, and
leaves all other rows as they are (`replaces_of_enforceDirichlet`). Of several kernels the last one
that fixes a vertex decides (`replaces_enforceAll`).
-/

namespace FiniteVolume.LinearSystem

variable {α : Type}

/-- Two systems have the same equation at a vertex. -/
def SameRow (left right : LinearSystem α) (vertex : Nat) : Prop :=
  left.matrix.rows[vertex]? = right.matrix.rows[vertex]? ∧ left.rhs[vertex]? = right.rhs[vertex]?

theorem SameRow.trans {first second third : LinearSystem α} {vertex : Nat}
    (left : SameRow first second vertex) (right : SameRow second third vertex) :
    SameRow first third vertex :=
  ⟨left.1.trans right.1, left.2.trans right.2⟩

theorem SameRow.symm {left right : LinearSystem α} {vertex : Nat}
    (same : SameRow left right vertex) : SameRow right left vertex :=
  ⟨same.1.symm, same.2.symm⟩

/-- Systems of as many columns are the same if they have the same equation at every vertex. -/
theorem ext_of_sameRow {left right : LinearSystem α}
    (cols : left.matrix.colCount = right.matrix.colCount)
    (same : ∀ vertex, SameRow left right vertex) : left = right := by
  obtain ⟨⟨leftCols, leftRows⟩, leftRhs⟩ := left
  obtain ⟨⟨rightCols, rightRows⟩, rightRhs⟩ := right
  obtain rfl : leftCols = rightCols := cols
  obtain rfl : leftRows = rightRows := Array.ext_getElem? fun vertex => (same vertex).1
  obtain rfl : leftRhs = rightRhs := Array.ext_getElem? fun vertex => (same vertex).2
  rfl

/-- A system with one equation for each of some vertices. -/
structure OfSize (count : Nat) (system : LinearSystem α) : Prop where
  rows : system.matrix.rows.size = count
  cols : system.matrix.colCount = count
  rhs : system.rhs.size = count

/-- Two systems have as many rows, columns and right-hand sides. -/
structure SameSize (left right : LinearSystem α) : Prop where
  rows : left.matrix.rows.size = right.matrix.rows.size
  cols : left.matrix.colCount = right.matrix.colCount
  rhs : left.rhs.size = right.rhs.size

theorem SameSize.trans {first second third : LinearSystem α} (left : SameSize first second)
    (right : SameSize second third) : SameSize first third :=
  ⟨left.rows.trans right.rows, left.cols.trans right.cols, left.rhs.trans right.rhs⟩

theorem OfSize.of_sameSize {left right : LinearSystem α} {count : Nat}
    (size : right.OfSize count) (same : SameSize left right) : left.OfSize count :=
  ⟨same.rows.trans size.rows, same.cols.trans size.cols, same.rhs.trans size.rhs⟩

/-- The equations of a condition at some vertices. -/
def equations (vertices : List Nat) (values : DirichletBlock (Array α)) : List (Nat × α × α) :=
  vertices.zip (values.coeff.toList.zip values.rhs.toList)

/-- A system has an equation at all of some vertices. -/
def Covers (system : LinearSystem α) (vertices : List Nat) : Prop :=
  ∀ vertex ∈ vertices, vertex < system.matrix.rowCount ∧ vertex < system.rhs.size

section Setting

variable {system result : LinearSystem α} {vertex index : Nat} {diagonal value : α}

/-- A row fails to be set for its index alone. -/
theorem indexRange_of_setRow {failure : Failure}
    (fails : system.setRow index diagonal value = .error failure) : failure = .indexRange := by
  apply (Outcome.bind_eq_error_iff.mp fails).elim
  · intro fails
    apply (Outcome.bind_eq_error_iff.mp fails).elim
    · exact fun missing => (Outcome.ofLookup?_eq_error_iff.mp missing).2
    · intro ⟨row, _, fails⟩
      split at fails <;> cases fails
      rfl
  · intro ⟨_, _, fails⟩
    cases fails

/-- A row is set by setting its diagonal and its right side. -/
theorem setRow_eq_ok_iff :
    system.setRow index diagonal value = .ok result ↔
      ∃ matrix, system.matrix.setDiagonal index diagonal = .ok matrix ∧
        result = ⟨matrix, system.rhs.setIfInBounds index value⟩ := by
  rw [setRow, Outcome.bind_eq_ok_iff]
  exact exists_congr fun matrix => and_congr_right fun _ =>
    ⟨fun same => (Except.ok.inj same).symm, fun same => congrArg Except.ok same.symm⟩

/-- Setting a row leaves all other rows. -/
theorem sameRow_setRow (formed : system.setRow index diagonal value = .ok result)
    (other : vertex ≠ index) : SameRow result system vertex := by
  obtain ⟨matrix, sets, rfl⟩ := setRow_eq_ok_iff.mp formed
  obtain ⟨-, rfl⟩ := SparseMatrix.setDiagonal_eq_ok_iff.mp sets
  constructor
  · rw [Array.getElem?_modify, if_neg (Ne.symm other)]
  · rw [Array.getElem?_setIfInBounds_ne (Ne.symm other)]

/-- Setting a row keeps the size of the system. -/
theorem sameSize_setRow (formed : system.setRow index diagonal value = .ok result) :
    SameSize result system := by
  obtain ⟨matrix, sets, rfl⟩ := setRow_eq_ok_iff.mp formed
  obtain ⟨-, rfl⟩ := SparseMatrix.setDiagonal_eq_ok_iff.mp sets
  exact ⟨Array.size_modify, rfl, Array.size_setIfInBounds⟩

/-- A diagonal entry can be set in a row and a column of the system. -/
theorem exists_setRow (row : index < system.matrix.rows.size)
    (col : index < system.matrix.colCount) (diagonal value : α) :
    ∃ next, system.setRow index diagonal value = .ok next := by
  have stands := Array.getElem?_eq_getElem row
  exact ⟨_, setRow_eq_ok_iff.mpr ⟨_, SparseMatrix.setDiagonal_eq_ok_iff.mpr
    ⟨⟨_, stands, Or.inr col⟩, rfl⟩, rfl⟩⟩

/-- The first of several rows is set before the others. -/
theorem setRows_cons_iff {equation : Nat × α × α} {rest : List (Nat × α × α)} :
    system.setRows (equation :: rest) = (result, .ok ()) ↔
      ∃ next, system.setRow equation.1 equation.2.1 equation.2.2 = .ok next ∧
        next.setRows rest = (result, .ok ()) := by
  rw [setRows]
  cases sets : system.setRow equation.1 equation.2.1 equation.2.2 with
  | error failure => simp
  | ok next => simp

/-- Rows that can all be set one after the other, whatever is kept meanwhile. -/
theorem exists_setRows_of_invariant {equations : List (Nat × α × α)}
    {invariant : LinearSystem α → Prop}
    (each : ∀ equation ∈ equations, ∀ state, invariant state →
      ∃ next, state.setRow equation.1 equation.2.1 equation.2.2 = .ok next ∧ invariant next)
    (holds : invariant system) :
    ∃ result, system.setRows equations = (result, .ok ()) ∧ invariant result := by
  induction equations generalizing system with
  | nil => exact ⟨system, rfl, holds⟩
  | cons equation rest ih =>
    obtain ⟨first, later⟩ := List.forall_mem_cons.mp each
    obtain ⟨next, sets, holdsNext⟩ := first system holds
    obtain ⟨result, setsRest, holdsResult⟩ := ih later holdsNext
    exact ⟨result, setRows_cons_iff.mpr ⟨next, sets, setsRest⟩, holdsResult⟩

/-- Rows and columns of the system can be set. -/
theorem exists_setRows {equations : List (Nat × α × α)}
    (inRange : ∀ equation ∈ equations,
      equation.1 < system.matrix.rows.size ∧ equation.1 < system.matrix.colCount) :
    ∃ result, system.setRows equations = (result, .ok ()) ∧ SameSize result system := by
  have each : ∀ equation ∈ equations, ∀ state, SameSize state system →
      ∃ next, state.setRow equation.1 equation.2.1 equation.2.2 = .ok next ∧
        SameSize next system := by
    intro equation member state size
    obtain ⟨row, col⟩ := inRange equation member
    rw [← size.rows] at row
    rw [← size.cols] at col
    obtain ⟨next, sets⟩ := exists_setRow row col equation.2.1 equation.2.2
    exact ⟨next, sets, (sameSize_setRow sets).trans size⟩
  exact exists_setRows_of_invariant each ⟨rfl, rfl, rfl⟩

/-- Setting rows keeps the size of the system. -/
theorem sameSize_setRows {equations : List (Nat × α × α)}
    (formed : system.setRows equations = (result, .ok ())) : SameSize result system := by
  induction equations generalizing system with
  | nil =>
    cases formed
    exact ⟨rfl, rfl, rfl⟩
  | cons equation rest ih =>
    obtain ⟨next, sets, formed⟩ := setRows_cons_iff.mp formed
    exact (ih formed).trans (sameSize_setRow sets)

/-- When a row cannot be set, the rows before it have been set. -/
theorem exists_of_setRows_error {equations : List (Nat × α × α)} {failure : Failure}
    (fails : system.setRows equations = (result, .error failure)) :
    ∃ before equation after, equations = before ++ equation :: after ∧
      system.setRows before = (result, .ok ()) ∧
      result.setRow equation.1 equation.2.1 equation.2.2 = .error failure := by
  induction equations generalizing system with
  | nil => cases fails
  | cons equation rest ih =>
    rw [setRows] at fails
    cases sets : system.setRow equation.1 equation.2.1 equation.2.2 with
    | error other =>
      rw [sets] at fails
      cases fails
      exact ⟨[], equation, rest, rfl, rfl, sets⟩
    | ok next =>
      rw [sets] at fails
      obtain ⟨before, stopped, after, rfl, setsBefore, failsThere⟩ := ih fails
      exact ⟨equation :: before, stopped, after, rfl,
        setRows_cons_iff.mpr ⟨next, sets, setsBefore⟩, failsThere⟩

/-- Setting several rows, each once. -/
theorem rows_of_setRows {equations : List (Nat × α × α)}
    (distinct : (equations.map Prod.fst).Nodup)
    (formed : system.setRows equations = (result, .ok ())) :
    (∀ vertex ∉ equations.map Prod.fst, SameRow result system vertex) ∧
      ∀ equation ∈ equations,
        (∃ row, system.matrix.rows[equation.1]? = some row ∧
          result.matrix.rows[equation.1]? = some (SparseMatrix.insertEntry
            (fun _ => equation.2.1) equation.1 equation.2.1 row)) ∧
        result.rhs[equation.1]? = system.rhs[equation.1]?.map fun _ => equation.2.2 := by
  induction equations generalizing system with
  | nil =>
    cases formed
    exact ⟨fun _ _ => ⟨rfl, rfl⟩, fun _ member => nomatch member⟩
  | cons equation rest ih =>
    obtain ⟨next, sets, formed⟩ := setRows_cons_iff.mp formed
    rw [List.map_cons, List.nodup_cons] at distinct
    obtain ⟨unchanged, replaced⟩ := ih distinct.2 formed
    constructor
    · intro vertex absent
      rw [List.map_cons, List.mem_cons, not_or] at absent
      exact (unchanged vertex absent.2).trans (sameRow_setRow sets absent.1)
    · refine List.forall_mem_cons.mpr ⟨?_, fun later member => ?_⟩
      · obtain ⟨matrix, setsDiagonal, rfl⟩ := setRow_eq_ok_iff.mp sets
        obtain ⟨⟨row, stands, -⟩, rfl⟩ := SparseMatrix.setDiagonal_eq_ok_iff.mp setsDiagonal
        obtain ⟨sameRow, sameRhs⟩ := unchanged equation.1 distinct.1
        refine ⟨⟨row, stands, sameRow.trans ?_⟩, sameRhs.trans ?_⟩
        · rw [Array.getElem?_modify, if_pos rfl, stands]
          rfl
        · rw [Array.getElem?_setIfInBounds_self]
          cases old : system.rhs[equation.1]? with
          | none => exact if_neg (not_lt.mpr (Array.getElem?_eq_none_iff.mp old))
          | some _ => exact if_pos (Array.getElem?_eq_some_iff.mp old).1
      · have other : later.1 ≠ equation.1 := fun same =>
          distinct.1 (same ▸ List.mem_map_of_mem member)
        obtain ⟨sameRow, sameRhs⟩ := sameRow_setRow sets other
        rw [← sameRow, ← sameRhs]
        exact replaced later member

/-- In a system with the rows of all vertices none is missing. -/
theorem find?_eq_none_of_covers {vertices : List Nat} (covers : system.Covers vertices) :
    (vertices.find? fun vertex =>
      system.matrix.rowCount ≤ vertex || system.rhs.size ≤ vertex) = none := by
  refine List.find?_eq_none.mpr fun vertex member => ?_
  simpa only [Bool.or_eq_true, decide_eq_true_eq, not_or, not_le] using covers vertex member

end Setting

variable [Arithmetic α] {system next result : LinearSystem α} {vertex : Nat} {coeff rhs : α}

/-- The equation at a vertex is replaced by that of a condition, in the same row. -/
structure Replaces (result system : LinearSystem α) (vertex : Nat) (coeff rhs : α) : Prop where
  row : ∃ row, system.matrix.rows[vertex]? = some row ∧
    result.matrix.rows[vertex]? = some (SparseMatrix.fixedRow vertex coeff row)
  rhs : result.rhs[vertex]? = some rhs

namespace Replaces

/-- A replaced row stays replaced in a system with the same row. -/
theorem of_sameRow (replaces : Replaces next system vertex coeff rhs)
    (same : SameRow result next vertex) : Replaces result system vertex coeff rhs := by
  obtain ⟨⟨row, stands, fixed⟩, value⟩ := replaces
  exact ⟨⟨row, stands, same.1.trans fixed⟩, same.2.trans value⟩

/-- A row is replaced alike in systems that had it in common. -/
theorem after_sameRow (replaces : Replaces result next vertex coeff rhs)
    (same : SameRow next system vertex) : Replaces result system vertex coeff rhs := by
  obtain ⟨⟨row, stands, fixed⟩, value⟩ := replaces
  exact ⟨⟨row, same.1.symm.trans stands, fixed⟩, value⟩

/-- A replaced equation leaves nothing behind when it is replaced itself. -/
theorem after_replaces {coeff' rhs' : α} (replaces : Replaces result next vertex coeff rhs)
    (earlier : Replaces next system vertex coeff' rhs') :
    Replaces result system vertex coeff rhs := by
  obtain ⟨⟨row, stands, fixed⟩, value⟩ := replaces
  obtain ⟨⟨row', stands', fixed'⟩, -⟩ := earlier
  cases stands.symm.trans fixed'
  rw [SparseMatrix.fixedRow_fixedRow] at fixed
  exact ⟨⟨row', stands', fixed⟩, value⟩

/-- Equal equations that have replaced the same one have equal coefficients. -/
theorem coefficients_eq {coeff' rhs' : α} (replaces : Replaces result system vertex coeff rhs)
    (replaces' : Replaces next system vertex coeff' rhs') (same : SameRow result next vertex) :
    coeff = coeff' ∧ rhs = rhs' := by
  obtain ⟨⟨row, stands, fixed⟩, value⟩ := replaces
  obtain ⟨⟨row', stands', fixed'⟩, value'⟩ := replaces'
  cases stands.symm.trans stands'
  have sameFixed := Option.some.inj (fixed.symm.trans (same.1.trans fixed'))
  exact ⟨SparseMatrix.fixedRow_injective sameFixed,
    Option.some.inj (value.symm.trans (same.2.trans value'))⟩

/-- A row is replaced in one way only. -/
theorem sameRow (replaces : Replaces result system vertex coeff rhs)
    (replaces' : Replaces next system vertex coeff rhs) : SameRow result next vertex := by
  obtain ⟨⟨row, stands, fixed⟩, value⟩ := replaces
  obtain ⟨⟨row', stands', fixed'⟩, value'⟩ := replaces'
  cases stands.symm.trans stands'
  exact ⟨fixed.trans fixed'.symm, value.trans value'.symm⟩

end Replaces

/-- Clearing rows leaves all other rows and the right-hand side as they are. -/
theorem rows_clearRows (system : LinearSystem α) (vertices : List Nat) (vertex : Nat) :
    (system.clearRows vertices).matrix.rows[vertex]? =
      if vertex ∈ vertices then system.matrix.rows[vertex]?.map SparseMatrix.zeroed
      else system.matrix.rows[vertex]? := by
  have fold : ∀ matrix : SparseMatrix α,
      (vertices.foldl SparseMatrix.clearRow matrix).rows[vertex]? =
        if vertex ∈ vertices then matrix.rows[vertex]?.map SparseMatrix.zeroed
        else matrix.rows[vertex]? := by
    induction vertices with
    | nil => exact fun matrix => rfl
    | cons first rest ih =>
      intro matrix
      rw [List.foldl_cons, ih, SparseMatrix.rows_clearRow]
      by_cases same : first = vertex
      · have zeroedOnce : SparseMatrix.zeroed ∘ SparseMatrix.zeroed =
            (SparseMatrix.zeroed : List (Nat × α) → _) := funext SparseMatrix.zeroed_zeroed
        rw [if_pos same, if_pos (List.mem_cons.mpr (Or.inl same.symm)), Option.map_map, zeroedOnce,
          ite_self]
      · simp only [if_neg same, List.mem_cons, or_iff_right (Ne.symm same)]
  exact fold system.matrix

/-- Clearing rows keeps the size of the system. -/
theorem sameSize_clearRows (system : LinearSystem α) (vertices : List Nat) :
    SameSize (system.clearRows vertices) system := by
  obtain ⟨rows, cols⟩ := SparseMatrix.size_clearRows system.matrix vertices
  exact ⟨rows, cols, rfl⟩

section Enforcement

variable {mesh : Mesh α} {kernel : DirichletKernel (NumericFunction α)}

/-- What enforcing a Dirichlet kernel can come to, and the system it leaves. -/
inductive Enforcement (system : LinearSystem α) (mesh : Mesh α)
    (kernel : DirichletKernel (NumericFunction α)) : LinearSystem α × Outcome Unit → Prop where
  | unresolved {failure : Failure} (fails : mesh.verticesOf kernel.subdomain = .error failure) :
    Enforcement system mesh kernel (system, .error failure)
  | outside {vertices : List Nat} {vertex : Nat}
    (answers : mesh.verticesOf kernel.subdomain = .ok vertices) (listed : vertex ∈ vertices)
    (beyond : system.matrix.rowCount ≤ vertex ∨ system.rhs.size ≤ vertex) :
    Enforcement system mesh kernel
      (system, Outcome.reject (.shape (.dirichletVertex vertex system.matrix.rowCount)))
  | unevaluated {vertices : List Nat} {failure : Failure}
    (answers : mesh.verticesOf kernel.subdomain = .ok vertices) (covers : system.Covers vertices)
    (fails : kernel.block.eval mesh vertices = .error failure) :
    Enforcement system mesh kernel (system.clearRows vertices, .error failure)
  | unset {vertices : List Nat} {values : DirichletBlock (Array α)} {left : LinearSystem α}
    {failure : Failure}
    (answers : mesh.verticesOf kernel.subdomain = .ok vertices) (covers : system.Covers vertices)
    (evaluates : kernel.block.eval mesh vertices = .ok values)
    (fails : (system.clearRows vertices).setRows (equations vertices values) =
      (left, .error failure)) :
    Enforcement system mesh kernel (left, .error failure)
  | enforced {vertices : List Nat} {values : DirichletBlock (Array α)} {result : LinearSystem α}
    (answers : mesh.verticesOf kernel.subdomain = .ok vertices) (covers : system.Covers vertices)
    (evaluates : kernel.block.eval mesh vertices = .ok values)
    (sets : (system.clearRows vertices).setRows (equations vertices values) =
      (result, .ok ())) :
    Enforcement system mesh kernel (result, .ok ())

/-- What enforcing a condition does is one of the ways it can end. -/
theorem enforcement_of_enforceDirichlet (system : LinearSystem α) (mesh : Mesh α)
    (kernel : DirichletKernel (NumericFunction α)) :
    Enforcement system mesh kernel (system.enforceDirichlet mesh kernel) := by
  unfold enforceDirichlet
  split
  · rename_i failure fails
    exact .unresolved fails
  · rename_i vertices answers
    dsimp only
    split
    · rename_i vertex found
      have beyond := List.find?_some found
      simp only [Bool.or_eq_true, decide_eq_true_eq] at beyond
      exact .outside answers (List.mem_of_find?_eq_some found) beyond
    · rename_i noneOutside
      have covers : system.Covers vertices := by
        intro vertex member
        have inside := List.find?_eq_none.mp noneOutside vertex member
        simp only [Bool.or_eq_true, decide_eq_true_eq, not_or, not_le] at inside
        exact inside
      split
      · rename_i failure fails
        exact .unevaluated answers covers fails
      · rename_i values evaluates
        generalize reached : (system.clearRows vertices).setRows _ = outcome
        obtain ⟨left, failure | ⟨⟩⟩ := outcome
        · exact .unset answers covers evaluates reached
        · exact .enforced answers covers evaluates reached

/-- The rows of vertices that have an equation and a column can be cleared and set. -/
theorem exists_enforced {vertices : List Nat} (covers : system.Covers vertices)
    (cols : ∀ vertex ∈ vertices, vertex < system.matrix.colCount)
    (values : DirichletBlock (Array α)) :
    ∃ result, (system.clearRows vertices).setRows (equations vertices values) = (result, .ok ()) ∧
      SameSize result system := by
  have size := sameSize_clearRows system vertices
  have inRange : ∀ equation ∈ equations vertices values,
      equation.1 < (system.clearRows vertices).matrix.rows.size ∧
        equation.1 < (system.clearRows vertices).matrix.colCount := by
    intro equation member
    have listed : equation.1 ∈ vertices := (List.of_mem_zip member).1
    rw [size.rows, size.cols]
    exact ⟨(covers equation.1 listed).1, cols equation.1 listed⟩
  obtain ⟨result, sets, sizeResult⟩ := exists_setRows inRange
  exact ⟨result, sets, sizeResult.trans size⟩

/-- A Dirichlet kernel that can be evaluated at vertices with equations is enforced there. -/
theorem enforceDirichlet_of_evaluated {vertices : List Nat} {values : DirichletBlock (Array α)}
    (answers : mesh.verticesOf kernel.subdomain = .ok vertices) (covers : system.Covers vertices)
    (evaluates : kernel.block.eval mesh vertices = .ok values)
    (sets : (system.clearRows vertices).setRows (equations vertices values) = (result, .ok ())) :
    system.enforceDirichlet mesh kernel = (result, .ok ()) := by
  rw [equations] at sets
  simp only [enforceDirichlet, answers, find?_eq_none_of_covers covers, evaluates, sets]

/-- A Dirichlet kernel that cannot be evaluated at vertices with equations clears their rows. -/
theorem enforceDirichlet_of_unevaluated {vertices : List Nat} {failure : Failure}
    (answers : mesh.verticesOf kernel.subdomain = .ok vertices) (covers : system.Covers vertices)
    (fails : kernel.block.eval mesh vertices = .error failure) :
    system.enforceDirichlet mesh kernel = (system.clearRows vertices, .error failure) := by
  simp only [enforceDirichlet, answers, find?_eq_none_of_covers covers, fails]

/-- Rows that have been set replace their equations. All other rows are left as they are cleared. -/
theorem replaces_of_setRows {vertices before : List Nat} {blocks : List (DirichletBlock α)}
    (covers : system.Covers vertices) (listed : ∀ vertex ∈ before, vertex ∈ vertices)
    (distinct : before.Nodup) (enough : before.length ≤ blocks.length)
    (sets : (system.clearRows vertices).setRows
      (before.zip (blocks.map fun block => (block.coeff, block.rhs))) = (result, .ok ())) :
    (∀ vertex ∉ before, SameRow result (system.clearRows vertices) vertex) ∧
      ∀ equation ∈ before.zip blocks,
        Replaces result system equation.1 equation.2.coeff equation.2.rhs := by
  have keys : (before.zip (blocks.map fun block => (block.coeff, block.rhs))).map Prod.fst =
      before := by
    apply List.map_fst_zip
    rwa [List.length_map]
  obtain ⟨unchanged, replaced⟩ := rows_of_setRows (by rwa [keys]) sets
  rw [keys] at unchanged
  refine ⟨unchanged, fun equation member => ?_⟩
  have inside : equation.1 ∈ vertices := listed _ (List.of_mem_zip member).1
  obtain ⟨⟨row, cleared, fixed⟩, value⟩ :=
    replaced (equation.1, equation.2.coeff, equation.2.rhs) (by
      rw [List.zip_map_right]
      exact List.mem_map.mpr ⟨equation, member, rfl⟩)
  rw [rows_clearRows, if_pos inside] at cleared
  obtain ⟨old, stands, rfl⟩ := Option.map_eq_some_iff.mp cleared
  have hasRhs := Array.getElem?_eq_getElem (covers _ inside).2
  exact ⟨⟨old, stands, fixed⟩, value.trans (congrArg (Option.map _) hasRhs)⟩

/-- A Dirichlet kernel replaces the equations at the vertices of its subdomain and no others. -/
theorem replaces_of_enforceDirichlet
    (enforces : system.enforceDirichlet mesh kernel = (result, .ok ())) :
    ∃ vertices blocks, mesh.verticesOf kernel.subdomain = .ok vertices ∧
      vertices.mapM (kernel.block.at mesh) = .ok blocks ∧
      (∀ vertex ∉ vertices, SameRow result system vertex) ∧
      ∀ equation ∈ vertices.zip blocks,
        Replaces result system equation.1 equation.2.coeff equation.2.rhs := by
  have steps := enforcement_of_enforceDirichlet system mesh kernel
  rw [enforces] at steps
  cases steps with
  | @enforced vertices values _ answers covers evaluates sets =>
    obtain ⟨blocks, formed, zipped⟩ := DirichletBlock.eval_blocks evaluates
    rw [equations, zipped] at sets
    obtain ⟨unchanged, replaced⟩ := replaces_of_setRows covers (fun _ => id)
      (Mesh.nodup_verticesOf answers) (Outcome.mapM_eq_ok_iff.mp formed).length_eq.le sets
    refine ⟨vertices, blocks, answers, formed, fun vertex absent => ?_, replaced⟩
    apply (unchanged vertex absent).trans
    constructor
    · rw [rows_clearRows, if_neg absent]
    · rfl

/-- When a row cannot be set, it is one of a vertex without a column. The rows of the vertices
before it have been set, and all others are as they were cleared. -/
theorem left_of_setRows_error {vertices : List Nat} {values : DirichletBlock (Array α)}
    {failure : Failure} (answers : mesh.verticesOf kernel.subdomain = .ok vertices)
    (covers : system.Covers vertices) (evaluates : kernel.block.eval mesh vertices = .ok values)
    (fails : (system.clearRows vertices).setRows (equations vertices values) =
      (result, .error failure)) :
    failure = .indexRange ∧ ∃ blocks before vertex rest,
      vertices.mapM (kernel.block.at mesh) = .ok blocks ∧
      vertices = before ++ vertex :: rest ∧ system.matrix.colCount ≤ vertex ∧
      (∀ equation ∈ before.zip blocks,
        Replaces result system equation.1 equation.2.coeff equation.2.rhs) ∧
      ∀ other ∉ before, SameRow result (system.clearRows vertices) other := by
  obtain ⟨blocks, formed, zipped⟩ := DirichletBlock.eval_blocks evaluates
  obtain ⟨setBefore, equation, setAfter, split, sets, failsThere⟩ := exists_of_setRows_error fails
  rw [equations, zipped] at split
  obtain ⟨before, others, first, second, sameLength, rfl, blocksSplit, rfl, others_eq⟩ :=
    List.zip_eq_append_iff.mp split
  obtain ⟨rest, later, rfl, rfl, -⟩ := List.zip_eq_cons_iff.mp others_eq.symm
  obtain ⟨blocksBefore, blocksAfter, rfl, rfl, -⟩ := List.map_eq_append_iff.mp blocksSplit
  rw [List.length_map] at sameLength
  have listed : ∀ vertex ∈ before, vertex ∈ before ++ equation.1 :: rest := fun _ member =>
    List.mem_append_left _ member
  obtain ⟨unchanged, replaced⟩ := replaces_of_setRows covers listed
    (Mesh.nodup_verticesOf answers).of_append_left sameLength.le sets
  have size := (sameSize_setRows sets).trans (sameSize_clearRows system _)
  refine ⟨indexRange_of_setRow failsThere, blocksBefore ++ blocksAfter, before, equation.1, rest,
    formed, rfl, ?_, ?_, unchanged⟩
  · by_contra inside
    have isVertex : equation.1 ∈ before ++ equation.1 :: rest := by simp
    have row : equation.1 < result.matrix.rows.size := size.rows ▸ (covers _ isVertex).1
    have col : equation.1 < result.matrix.colCount := size.cols ▸ not_le.mp inside
    obtain ⟨_, setsThere⟩ := exists_setRow row col equation.2.1 equation.2.2
    cases setsThere.symm.trans failsThere
  · have zippedBefore : before.zip (blocksBefore ++ blocksAfter) = before.zip blocksBefore := by
      conv_lhs => rw [← List.append_nil before, List.zip_append sameLength, List.zip_nil_left,
        List.append_nil]
    rwa [zippedBefore]

end Enforcement

section Several

variable {mesh : Mesh α} {kernel : DirichletKernel (NumericFunction α)}
  {kernels before after : List (DirichletKernel (NumericFunction α))}

/-- The steps of assembly that enforce Dirichlet kernels one after the other. -/
def enforceAll (mesh : Mesh α) (kernels : List (DirichletKernel (NumericFunction α)))
    (system : LinearSystem α) : Outcome (LinearSystem α) :=
  kernels.foldlM
    (fun system kernel => do
      let (enforced, outcome) := system.enforceDirichlet mesh kernel
      outcome
      return enforced)
    system

/-- A vertex is in the subdomain of a Dirichlet kernel. -/
def Fixes (mesh : Mesh α) (kernel : DirichletKernel (NumericFunction α)) (vertex : Nat) : Prop :=
  ∃ vertices, mesh.verticesOf kernel.subdomain = .ok vertices ∧ vertex ∈ vertices

/-- One Dirichlet kernel of several is enforced. -/
theorem enforceAll_cons_iff :
    enforceAll mesh (kernel :: kernels) system = .ok result ↔
      ∃ next, system.enforceDirichlet mesh kernel = (next, .ok ()) ∧
        enforceAll mesh kernels next = .ok result := by
  rw [enforceAll, List.foldlM_cons, Outcome.bind_eq_ok_iff]
  refine exists_congr fun next => and_congr_left fun _ => ?_
  rw [Outcome.bind_eq_ok_iff]
  constructor
  · intro ⟨_, succeeds, same⟩
    cases same
    exact Prod.ext rfl succeeds
  · intro enforces
    rw [enforces]
    exact ⟨(), rfl, rfl⟩

/-- Conditions of two lists are enforced list by list. -/
theorem enforceAll_append_iff :
    enforceAll mesh (before ++ after) system = .ok result ↔
      ∃ next, enforceAll mesh before system = .ok next ∧
        enforceAll mesh after next = .ok result := by
  rw [enforceAll, List.foldlM_append, Outcome.bind_eq_ok_iff]
  rfl

/-- A kernel replaces the equation at a vertex that it fixes. -/
theorem replaces_of_fixes (enforces : system.enforceDirichlet mesh kernel = (result, .ok ()))
    (fixes : Fixes mesh kernel vertex) :
    ∃ block, kernel.block.at mesh vertex = .ok block ∧
      Replaces result system vertex block.coeff block.rhs := by
  obtain ⟨vertices, blocks, answers, given, -, replaced⟩ := replaces_of_enforceDirichlet enforces
  obtain ⟨_, answers', member⟩ := fixes
  cases answers.symm.trans answers'
  obtain ⟨block, paired, gives⟩ :=
    exists_mem_zip_of_forall₂ (Outcome.mapM_eq_ok_iff.mp given) member
  exact ⟨block, gives, replaced _ paired⟩

/-- A condition leaves the rows of the vertices it does not fix. -/
theorem sameRow_of_not_fixes (enforces : system.enforceDirichlet mesh kernel = (result, .ok ()))
    (free : ¬Fixes mesh kernel vertex) : SameRow result system vertex := by
  obtain ⟨vertices, _, answers, -, unchanged, -⟩ := replaces_of_enforceDirichlet enforces
  exact unchanged vertex fun member => free ⟨vertices, answers, member⟩

/-- Rows at vertices that no kernel fixes are left as they are. -/
theorem sameRow_enforceAll (formed : enforceAll mesh kernels system = .ok result)
    (free : ∀ kernel ∈ kernels, ¬Fixes mesh kernel vertex) : SameRow result system vertex := by
  induction kernels generalizing system with
  | nil =>
    cases formed
    exact ⟨rfl, rfl⟩
  | cons kernel rest ih =>
    obtain ⟨next, enforces, formed⟩ := enforceAll_cons_iff.mp formed
    obtain ⟨notFixed, later⟩ := List.forall_mem_cons.mp free
    exact (ih formed later).trans (sameRow_of_not_fixes enforces notFixed)

/-- The equation at a vertex is left as it is or replaced. -/
theorem sameRow_or_replaces_enforceAll (formed : enforceAll mesh kernels system = .ok result)
    (vertex : Nat) :
    SameRow result system vertex ∨ ∃ coeff rhs, Replaces result system vertex coeff rhs := by
  induction kernels generalizing system with
  | nil =>
    cases formed
    exact Or.inl ⟨rfl, rfl⟩
  | cons kernel rest ih =>
    obtain ⟨next, enforces, formed⟩ := enforceAll_cons_iff.mp formed
    by_cases fixes : Fixes mesh kernel vertex
    · obtain ⟨block, -, replaces⟩ := replaces_of_fixes enforces fixes
      apply Or.inr
      apply (ih formed).elim
      · exact fun same => ⟨_, _, replaces.of_sameRow same⟩
      · exact fun ⟨_, _, later⟩ => ⟨_, _, later.after_replaces replaces⟩
    · have same := sameRow_of_not_fixes enforces fixes
      exact (ih formed).imp (fun later => later.trans same)
        fun ⟨_, _, later⟩ => ⟨_, _, later.after_sameRow same⟩

/-- The last kernel that fixes a vertex replaces the equation there. -/
theorem replaces_enforceAll
    (formed : enforceAll mesh (before ++ kernel :: after) system = .ok result)
    (fixes : Fixes mesh kernel vertex) (last : ∀ later ∈ after, ¬Fixes mesh later vertex) :
    ∃ block, kernel.block.at mesh vertex = .ok block ∧
      Replaces result system vertex block.coeff block.rhs := by
  obtain ⟨start, enforcesBefore, formed⟩ := enforceAll_append_iff.mp formed
  obtain ⟨next, enforces, formed⟩ := enforceAll_cons_iff.mp formed
  obtain ⟨block, gives, replaces⟩ := replaces_of_fixes enforces fixes
  have replacesStart := replaces.of_sameRow (sameRow_enforceAll formed last)
  refine ⟨block, gives, ?_⟩
  apply (sameRow_or_replaces_enforceAll enforcesBefore vertex).elim
  · exact replacesStart.after_sameRow
  · exact fun ⟨_, _, earlier⟩ => replacesStart.after_replaces earlier

end Several

section Exact

variable [AddCommGroup α] {mesh : Mesh α} {kernel : DirichletKernel (NumericFunction α)}
  {before after : List (DirichletKernel (NumericFunction α))}

/-- The equation at a vertex fixes the value there. -/
structure HasRow (system : LinearSystem α) (vertex : Nat) (coeff rhs : α) : Prop where
  entry : ∀ col, system.matrix.entry vertex col = if vertex = col then coeff else 0
  rhs : system.rhs[vertex]? = some rhs

/-- An equation that has replaced another fixes the value. -/
theorem Replaces.hasRow [ExactArithmetic α] (replaces : Replaces result system vertex coeff rhs) :
    result.HasRow vertex coeff rhs := by
  obtain ⟨⟨row, -, fixed⟩, value⟩ := replaces
  refine ⟨fun col => ?_, value⟩
  rw [SparseMatrix.entry, fixed, Option.getD_some, SparseMatrix.fixedRow]
  exact SparseMatrix.total_insertEntry_of_zeros SparseMatrix.eq_zero_of_mem_zeroed vertex coeff col

/-- The last kernel that fixes a vertex gives it its row. -/
theorem hasRow_enforceAll [ExactArithmetic α]
    (formed : enforceAll mesh (before ++ kernel :: after) system = .ok result)
    (fixes : Fixes mesh kernel vertex) (last : ∀ later ∈ after, ¬Fixes mesh later vertex) :
    ∃ block, kernel.block.at mesh vertex = .ok block ∧
      result.HasRow vertex block.coeff block.rhs := by
  obtain ⟨block, gives, replaces⟩ := replaces_enforceAll formed fixes last
  exact ⟨block, gives, replaces.hasRow⟩

end Exact

end FiniteVolume.LinearSystem
