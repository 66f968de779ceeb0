import FiniteVolume.Proofs.Sparse.Pattern
import FiniteVolume.Proofs.System.Reported
import FiniteVolume.Proofs.System.Resolution

/-!
# The pattern of an assembled system

Assembly stores the whole diagonal, and besides it the positions of the blocks of edges where they
are not zero. Dirichlet kernels find the diagonal entries of their vertices stored, whatever was
enforced before them, so the pattern of the matrix stays as it is (`assemble_keeps_pattern`).
-/

namespace FiniteVolume

variable {α : Type}

/-- The linear coefficients of the block of an edge at their positions in the matrix. -/
def EdgeBlock.positioned (ends : Ends Nat) (block : EdgeBlock α) : List (Triplet α) :=
  [⟨ends.first, ends.first, block.linear.first.first⟩,
    ⟨ends.first, ends.second, block.linear.first.second⟩,
    ⟨ends.second, ends.first, block.linear.second.first⟩,
    ⟨ends.second, ends.second, block.linear.second.second⟩]

variable [Arithmetic α]

namespace Contribution

/-- A value is written as a triplet unless it is zero. -/
theorem mem_tripletUnlessZero {row col : Nat} {value : α} {triplet : Triplet α} :
    triplet ∈ tripletUnlessZero row col value ↔
      triplet = ⟨row, col, value⟩ ∧ Arithmetic.isZero triplet.value = false := by
  rw [tripletUnlessZero]
  split
  · rename_i isZero
    refine ⟨fun member => absurd member List.not_mem_nil, ?_⟩
    rintro ⟨rfl, notZero⟩
    exact absurd isZero (by simp [notZero])
  · rename_i notZero
    rw [List.mem_singleton]
    refine ⟨?_, And.left⟩
    rintro rfl
    exact ⟨rfl, by simpa using notZero⟩

/-- An edge contributes its coefficients other than zero. -/
theorem mem_triplets_ofEdgeBlock {ends : Ends Nat} {block : EdgeBlock α} {triplet : Triplet α} :
    triplet ∈ (ofEdgeBlock ends block).triplets ↔
      triplet ∈ block.positioned ends ∧ Arithmetic.isZero triplet.value = false := by
  simp only [ofEdgeBlock, EdgeBlock.positioned, List.mem_append, mem_tripletUnlessZero,
    List.mem_cons, List.not_mem_nil, or_false, or_assoc, or_and_right]

omit [Arithmetic α] in
/-- The triplets of several contributions are those of each. -/
theorem mem_triplets_sum {contributions : List (Contribution α)} {triplet : Triplet α} :
    triplet ∈ (sum contributions).triplets ↔
      ∃ contribution ∈ contributions, triplet ∈ contribution.triplets := by
  induction contributions with
  | nil => simp [sum]
  | cons first rest ih =>
    rw [List.exists_mem_cons_iff, ← ih]
    exact List.mem_append

end Contribution

namespace KernelBlocks

/-- A position of the matrix where the block of an edge is not zero. -/
def OccupiedByEdge (blocks : KernelBlocks α) (row col : Nat) : Prop :=
  ∃ edge ∈ blocks.edge, ∃ triplet ∈ edge.2.positioned edge.1,
    triplet.row = row ∧ triplet.col = col ∧ Arithmetic.isZero triplet.value = false

variable {blocks : KernelBlocks α}

/-- Blocks contribute to the diagonal and to the positions that edges occupy. -/
theorem diagonal_or_occupiedByEdge {triplet : Triplet α}
    (member : triplet ∈ blocks.contribution.triplets) :
    triplet.row = triplet.col ∨ blocks.OccupiedByEdge triplet.row triplet.col := by
  rw [contribution, Contribution.append, List.mem_append, Contribution.mem_triplets_sum,
    Contribution.mem_triplets_sum] at member
  obtain ⟨_, listed, member⟩ | ⟨_, listed, member⟩ := member
  · obtain ⟨edge, inEdges, rfl⟩ := List.mem_map.mp listed
    obtain ⟨positioned, notZero⟩ := Contribution.mem_triplets_ofEdgeBlock.mp member
    exact Or.inr ⟨edge, inEdges, triplet, positioned, rfl, rfl, notZero⟩
  · obtain ⟨point, -, rfl⟩ := List.mem_map.mp listed
    obtain ⟨rfl, -⟩ := Contribution.mem_tripletUnlessZero.mp member
    exact Or.inl rfl

/-- A position that an edge occupies has a triplet. -/
theorem OccupiedByEdge.exists_triplet {row col : Nat} (occupied : blocks.OccupiedByEdge row col) :
    ∃ triplet ∈ blocks.contribution.triplets, triplet.row = row ∧ triplet.col = col := by
  obtain ⟨edge, inEdges, triplet, positioned, isRow, isCol, notZero⟩ := occupied
  refine ⟨triplet, List.mem_append_left _ (Contribution.mem_triplets_sum.mpr ?_), isRow, isCol⟩
  exact ⟨_, List.mem_map.mpr ⟨edge, inEdges, rfl⟩,
    Contribution.mem_triplets_ofEdgeBlock.mpr ⟨positioned, notZero⟩⟩

end KernelBlocks

namespace LinearSystem

variable {system start result : LinearSystem α} {mesh : Mesh α}

section Start

variable {count : Nat} {contribution : Contribution α}

/-- The system of a contribution stores the diagonal and the positions that are contributed to. -/
theorem columns_of_ofContribution (formed : ofContribution count contribution = .ok system) :
    system.matrix.rowCount = count ∧
      (∀ row, (system.matrix.columns row).Pairwise (· < ·)) ∧
      ∀ row col, col ∈ system.matrix.columns row ↔ row = col ∧ row < count ∨
        ∃ triplet ∈ contribution.triplets, triplet.row = row ∧ triplet.col = col := by
  have size := (ofSize_of_ofContribution formed).rows
  obtain ⟨rhs, -, formed⟩ := Outcome.bind_eq_ok_iff.mp formed
  obtain ⟨triplets, accepts, same⟩ := Outcome.bind_eq_ok_iff.mp formed
  cases same
  obtain ⟨rfl, inRange⟩ := SparseMatrix.triplets_eq_ok accepts
  refine ⟨size, SparseMatrix.ascending_ofTriplets _, fun row col => ?_⟩
  rw [SparseMatrix.mem_columns_ofTriplets inRange]
  simp only [List.mem_append, or_and_right, exists_or, List.mem_map, List.mem_range]
  rw [or_comm]
  refine or_congr_left ⟨?_, ?_⟩
  · rintro ⟨_, ⟨vertex, inside, rfl⟩, rfl, rfl⟩
    exact ⟨rfl, inside⟩
  · rintro ⟨rfl, inside⟩
    exact ⟨_, ⟨row, inside, rfl⟩, rfl, rfl⟩

/-- An assembled system stores its diagonal. -/
theorem storesDiagonal_of_ofContribution (formed : ofContribution count contribution = .ok system) :
    system.matrix.StoresDiagonal := by
  obtain ⟨size, ascending, stored⟩ := columns_of_ofContribution formed
  exact ⟨ascending, fun index inside => (stored index index).mpr (Or.inl ⟨rfl, size ▸ inside⟩)⟩

end Start

section Enforcement

/-- Clearing rows keeps the pattern. -/
theorem pattern_clearRows (system : LinearSystem α) (vertices : List Nat) :
    (system.clearRows vertices).matrix.pattern = system.matrix.pattern :=
  List.foldlRecOn (motive := fun matrix : SparseMatrix α => matrix.pattern = system.matrix.pattern)
    vertices _ rfl fun matrix same index _ => (matrix.pattern_clearRow index).trans same

omit [Arithmetic α] in
/-- In a matrix that stores its diagonal a row can be set, and the pattern is as before. -/
theorem exists_setRow_of_storesDiagonal (stores : system.matrix.StoresDiagonal) {index : Nat}
    (inside : index < system.matrix.rowCount) (diagonal value : α) :
    ∃ next, system.setRow index diagonal value = .ok next ∧
      next.matrix.pattern = system.matrix.pattern := by
  have stored := stores.diagonal index inside
  have stands := Array.getElem?_eq_getElem inside
  have present : ∃ entry ∈ system.matrix.rows[index], entry.1 = index := by
    rw [SparseMatrix.columns_of_rows stands] at stored
    exact List.mem_map.mp stored
  have sets : system.matrix.setDiagonal index diagonal = .ok _ :=
    SparseMatrix.setDiagonal_eq_ok_iff.mpr ⟨⟨_, stands, Or.inl present⟩, rfl⟩
  exact ⟨_, setRow_eq_ok_iff.mpr ⟨_, sets, rfl⟩,
    SparseMatrix.pattern_setDiagonal (stores.ascending index) stored sets⟩

omit [Arithmetic α] in
/-- Rows of a matrix that stores its diagonal can be set, and keep the pattern. -/
theorem exists_setRows_of_storesDiagonal {equations : List (Nat × α × α)}
    (stores : system.matrix.StoresDiagonal)
    (inside : ∀ equation ∈ equations, equation.1 < system.matrix.rowCount) :
    ∃ result, system.setRows equations = (result, .ok ()) ∧
      result.matrix.pattern = system.matrix.pattern := by
  have each : ∀ equation ∈ equations, ∀ state : LinearSystem α,
      state.matrix.pattern = system.matrix.pattern →
      ∃ next, state.setRow equation.1 equation.2.1 equation.2.2 = .ok next ∧
        next.matrix.pattern = system.matrix.pattern := by
    intro equation member state same
    obtain ⟨next, sets, sameNext⟩ := exists_setRow_of_storesDiagonal (stores.of_pattern same)
      (SparseMatrix.rowCount_of_pattern same ▸ inside equation member) equation.2.1 equation.2.2
    exact ⟨next, sets, sameNext.trans same⟩
  exact exists_setRows_of_invariant each rfl

variable {kernel : DirichletKernel (NumericFunction α)}
  {kernels : List (DirichletKernel (NumericFunction α))}

/-- A Dirichlet kernel finds the diagonal entry of each of its vertices when it sets it: the entry
is stored in a row in order, and the matrix is not rebuilt with one put in. -/
def FindsDiagonal (mesh : Mesh α) (kernel : DirichletKernel (NumericFunction α))
    (system : LinearSystem α) : Prop :=
  ∃ vertices values, mesh.verticesOf kernel.subdomain = .ok vertices ∧
    kernel.block.eval mesh vertices = .ok values ∧
    ∀ before equation after, equations vertices values = before ++ equation :: after →
      ∃ reached, (system.clearRows vertices).setRows before = (reached, .ok ()) ∧
        (reached.matrix.columns equation.1).Pairwise (· < ·) ∧
        equation.1 ∈ reached.matrix.columns equation.1

/-- What a Dirichlet kernel does to a matrix that stores its diagonal. -/
theorem enforceDirichlet_keeps_pattern (stores : system.matrix.StoresDiagonal)
    (enforces : system.enforceDirichlet mesh kernel = (result, .ok ())) :
    result.matrix.pattern = system.matrix.pattern ∧ FindsDiagonal mesh kernel system := by
  have steps := enforcement_of_enforceDirichlet system mesh kernel
  rw [enforces] at steps
  cases steps with
  | @enforced vertices values _ answers covers evaluates sets =>
    have cleared := pattern_clearRows system vertices
    have storesCleared := stores.of_pattern cleared
    have inside : ∀ equation ∈ equations vertices values,
        equation.1 < (system.clearRows vertices).matrix.rowCount := by
      intro equation member
      rw [SparseMatrix.rowCount_of_pattern cleared]
      exact (covers equation.1 (List.of_mem_zip member).1).1
    constructor
    · obtain ⟨_, sets', same⟩ := exists_setRows_of_storesDiagonal storesCleared inside
      cases sets.symm.trans sets'
      exact same.trans cleared
    · refine ⟨vertices, values, answers, evaluates, fun before equation after split => ?_⟩
      rw [split, List.forall_mem_append, List.forall_mem_cons] at inside
      obtain ⟨reached, setsBefore, same⟩ :=
        exists_setRows_of_storesDiagonal storesCleared inside.1
      have storesReached := storesCleared.of_pattern same
      refine ⟨reached, setsBefore, storesReached.ascending _, storesReached.diagonal _ ?_⟩
      exact SparseMatrix.rowCount_of_pattern same ▸ inside.2.1

/-- Enforcing conditions keeps the pattern of a matrix that stores its diagonal. -/
theorem pattern_enforceAll (stores : system.matrix.StoresDiagonal)
    (formed : enforceAll mesh kernels system = .ok result) :
    result.matrix.pattern = system.matrix.pattern := by
  induction kernels generalizing system with
  | nil =>
    cases formed
    rfl
  | cons kernel rest ih =>
    obtain ⟨next, enforces, formed⟩ := enforceAll_cons_iff.mp formed
    have same := (enforceDirichlet_keeps_pattern stores enforces).1
    exact (ih (stores.of_pattern same) formed).trans same

/-- Of several Dirichlet kernels each one finds its diagonal entries. -/
theorem findsDiagonal_enforceAll {before after : List (DirichletKernel (NumericFunction α))}
    (stores : system.matrix.StoresDiagonal)
    (formed : enforceAll mesh (before ++ kernel :: after) system = .ok result) :
    ∃ reached, enforceAll mesh before system = .ok reached ∧
      FindsDiagonal mesh kernel reached := by
  obtain ⟨reached, formedBefore, formed⟩ := enforceAll_append_iff.mp formed
  obtain ⟨next, enforces, -⟩ := enforceAll_cons_iff.mp formed
  have storesReached := stores.of_pattern (pattern_enforceAll stores formedBefore)
  exact ⟨reached, formedBefore, (enforceDirichlet_keeps_pattern storesReached enforces).2⟩

end Enforcement

/-- The matrix of an assembled system stores, in ascending order, the diagonal and the positions
where the block of an edge is not zero. This is the pattern before any Dirichlet kernel is enforced,
and each of them finds all of its diagonal entries stored. -/
theorem assemble_keeps_pattern {kernels : LinearKernels α}
    (formed : assemble mesh kernels = .ok system) :
    ∃ blocks contributions start, kernels.blocks mesh = .ok blocks ∧
      kernels.contributions mesh = .ok contributions ∧
      ofContribution mesh.vertexCount (Contribution.sum contributions) = .ok start ∧
      enforceAll mesh kernels.dirichlet start = .ok system ∧
      (∀ row, (system.matrix.columns row).Pairwise (· < ·)) ∧
      (∀ row col, col ∈ system.matrix.columns row ↔
        row = col ∧ row < mesh.vertexCount ∨ blocks.OccupiedByEdge row col) ∧
      system.matrix.pattern = start.matrix.pattern ∧
      ∀ before kernel after, kernels.dirichlet = before ++ kernel :: after →
        ∃ reached, enforceAll mesh before start = .ok reached ∧
          FindsDiagonal mesh kernel reached := by
  obtain ⟨contributions, contributes, formed⟩ := Outcome.bind_eq_ok_iff.mp formed
  obtain ⟨start, sums, formed⟩ := Outcome.bind_eq_ok_iff.mp formed
  change enforceAll mesh kernels.dirichlet start = .ok system at formed
  obtain ⟨blocks, gives, same⟩ := LinearKernels.contributions_sum contributes
  have stores := storesDiagonal_of_ofContribution sums
  have pattern := pattern_enforceAll stores formed
  obtain ⟨size, ascending, stored⟩ := columns_of_ofContribution sums
  refine ⟨blocks, contributions, start, gives, contributes, sums, formed, fun row => ?_,
    fun row col => ?_, pattern, fun before kernel after split => ?_⟩
  · rw [SparseMatrix.columns_of_pattern pattern]
    exact ascending row
  · rw [SparseMatrix.columns_of_pattern pattern]
    constructor
    · intro member
      have inside : row < mesh.vertexCount := by
        by_contra outside
        rw [SparseMatrix.columns_of_rowCount_le (by omega)] at member
        cases member
      obtain diagonal | ⟨triplet, listed, rfl, rfl⟩ := (stored row col).mp member
      · exact Or.inl diagonal
      · exact (KernelBlocks.diagonal_or_occupiedByEdge (same ▸ listed)).imp_left
          fun isDiagonal => ⟨isDiagonal, inside⟩
    · intro position
      exact (stored row col).mpr (position.imp_right fun occupied =>
        same ▸ occupied.exists_triplet)
  · exact findsDiagonal_enforceAll stores (split ▸ formed)

/-- The fixed row of an interval still stores the zero beside its diagonal entry. -/
theorem assemble_keeps_pattern_interval :
    ∃ system, assemble Mesh.interval LinearKernels.onInterval = .ok system ∧
      system.matrix.columns 0 = [0, 1] ∧ system.matrix.entry 0 1 = 0 := by
  obtain ⟨system, formed⟩ := Outcome.exists_of_isOk
    (show (assemble Mesh.interval LinearKernels.onInterval).isOk = true by decide +kernel)
  obtain ⟨blocks, contributions, start, -, contributes, sums, -, -, -, pattern, -⟩ :=
    assemble_keeps_pattern formed
  have starts : ((LinearKernels.onInterval.contributions Mesh.interval >>= fun contributions =>
      ofContribution Mesh.interval.vertexCount (Contribution.sum contributions)).map
        fun start => start.matrix.pattern) = .ok #[[0, 1], [0, 1]] := by
    decide +kernel
  rw [contributes, Outcome.ok_bind, sums] at starts
  have value : ((assemble Mesh.interval LinearKernels.onInterval).map fun system =>
      system.matrix.entry 0 1) = .ok 0 := by
    decide +kernel
  rw [formed] at value
  refine ⟨system, formed, ?_, Except.ok.inj value⟩
  have stored : start.matrix.pattern = #[[0, 1], [0, 1]] := Except.ok.inj starts
  rw [SparseMatrix.columns, pattern, stored]
  rfl

end LinearSystem

end FiniteVolume
