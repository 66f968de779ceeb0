import FiniteVolume.Proofs.Kernel.Reading
import FiniteVolume.Proofs.Mesh.Subdomains
import FiniteVolume.Proofs.System.Assembly

/-!
# One Dirichlet kernel

On a well-formed square matrix, enforcing a Dirichlet kernel replaces the equations of its vertices
and no others, and enforcing it again changes nothing (`enforceDirichlet_replaces`). When
enforcement fails, the system is as before, unless its rows had been cleared for a kernel that
cannot be evaluated, or cleared and some of them set up to a vertex without a column
(`enforceDirichlet_leaves`). The first happens on every mesh of another dimension
(`clears_of_otherDim`), and neither on a mesh of the dimension that the kernel is compiled for
(`keeps_of_sameDim`).
-/

namespace FiniteVolume.LinearSystem

variable {α : Type} [Arithmetic α] {system result after : LinearSystem α} {mesh : Mesh α}
  {kernel : DirichletKernel (NumericFunction α)} {count : Nat}

section Success

omit [Arithmetic α] in
/-- In a square matrix every vertex with an equation has a column. -/
theorem OfSize.lt_of_covers {vertices : List Nat} (size : system.OfSize count)
    (covers : system.Covers vertices) :
    ∀ vertex ∈ vertices, vertex < system.matrix.colCount := by
  intro vertex member
  rw [size.cols, ← size.rows]
  exact (covers vertex member).1

/-- Whether a Dirichlet kernel can be enforced depends on the size of a square system only. -/
theorem OfSize.exists_enforceDirichlet {other : LinearSystem α} (sizeOther : other.OfSize count)
    (size : system.OfSize count)
    (enforces : system.enforceDirichlet mesh kernel = (result, .ok ())) :
    ∃ next, other.enforceDirichlet mesh kernel = (next, .ok ()) ∧ next.OfSize count := by
  have steps := enforcement_of_enforceDirichlet system mesh kernel
  rw [enforces] at steps
  cases steps with
  | @enforced vertices values _ answers covers evaluates _ =>
    have coversOther : other.Covers vertices := by
      intro vertex member
      rw [SparseMatrix.rowCount, sizeOther.rows, sizeOther.rhs, and_self, ← size.rows]
      exact (covers vertex member).1
    obtain ⟨next, sets, same⟩ :=
      exists_enforced coversOther (sizeOther.lt_of_covers coversOther) values
    exact ⟨next, enforceDirichlet_of_evaluated answers coversOther evaluates sets,
      sizeOther.of_sameSize same⟩

/-- Enforcing a Dirichlet kernel keeps the size of the system. -/
theorem OfSize.of_enforceDirichlet (size : system.OfSize count)
    (enforces : system.enforceDirichlet mesh kernel = (result, .ok ())) : result.OfSize count := by
  obtain ⟨next, enforces', sizeNext⟩ := size.exists_enforceDirichlet size enforces
  cases enforces.symm.trans enforces'
  exact sizeNext

/-- The rows of the result are in order, whether a diagonal entry was stored or not. -/
theorem wellFormed_of_enforceDirichlet (wellFormed : system.matrix.WellFormed)
    (size : system.OfSize count)
    (enforces : system.enforceDirichlet mesh kernel = (result, .ok ())) :
    result.matrix.WellFormed := by
  have cols : result.matrix.colCount = system.matrix.colCount :=
    (size.of_enforceDirichlet enforces).cols.trans size.cols.symm
  have formed : ∀ row ∈ result.matrix.rows, SparseMatrix.Ascending row ∧
      ∀ stored ∈ row, stored.1 < system.matrix.colCount := by
    intro row member
    obtain ⟨vertex, stands⟩ := Array.mem_iff_getElem?.mp member
    by_cases fixes : Fixes mesh kernel vertex
    · obtain ⟨block, -, ⟨old, standsOld, fixed⟩, -⟩ := replaces_of_fixes enforces fixes
      cases stands.symm.trans fixed
      have inside : vertex < system.matrix.colCount := by
        rw [size.cols, ← size.rows]
        exact (Array.getElem?_eq_some_iff.mp standsOld).1
      have present := Array.mem_of_getElem? standsOld
      exact SparseMatrix.fixedRow_wellFormed (wellFormed.ascending old present)
        (wellFormed.inRange old present) inside
    · have same := (sameRow_of_not_fixes enforces fixes).1
      have present := Array.mem_of_getElem? (same.symm.trans stands)
      exact ⟨wellFormed.ascending row present, wellFormed.inRange row present⟩
  exact ⟨fun row member => (formed row member).1, fun row member => cols ▸ (formed row member).2⟩

/-- A Dirichlet kernel that has been enforced leaves the system as it is. -/
theorem enforceDirichlet_again (size : system.OfSize count)
    (enforces : system.enforceDirichlet mesh kernel = (result, .ok ())) :
    result.enforceDirichlet mesh kernel = (result, .ok ()) := by
  have sizeResult := size.of_enforceDirichlet enforces
  obtain ⟨again, enforcesAgain, sizeAgain⟩ := sizeResult.exists_enforceDirichlet size enforces
  have same : again = result := by
    refine ext_of_sameRow (sizeAgain.cols.trans sizeResult.cols.symm) fun vertex => ?_
    by_cases fixes : Fixes mesh kernel vertex
    · obtain ⟨block, gives, replaces⟩ := replaces_of_fixes enforces fixes
      obtain ⟨block', gives', replacesAgain⟩ := replaces_of_fixes enforcesAgain fixes
      cases gives.symm.trans gives'
      exact (replacesAgain.after_replaces replaces).sameRow replaces
    · exact sameRow_of_not_fixes enforcesAgain fixes
  rw [enforcesAgain, same]

/-- Enforcing a Dirichlet kernel on a well-formed square matrix gives every vertex of its subdomain
the equation of the condition, with zero everywhere but on the diagonal, and leaves all other
equations and stored entries as they are. The matrix stays well-formed, and enforcing the kernel
once more changes nothing. -/
theorem enforceDirichlet_replaces (wellFormed : system.matrix.WellFormed)
    (size : system.OfSize count)
    (enforces : system.enforceDirichlet mesh kernel = (result, .ok ())) :
    ∃ vertices blocks, mesh.verticesOf kernel.subdomain = .ok vertices ∧
      vertices.mapM (kernel.block.at mesh) = .ok blocks ∧
      (∀ equation ∈ vertices.zip blocks,
        (∀ col, result.matrix.denseEntry equation.1 col =
          if equation.1 = col then equation.2.coeff else Arithmetic.zero) ∧
        result.rhs[equation.1]? = some equation.2.rhs) ∧
      (∀ vertex ∉ vertices, result.matrix.rows[vertex]? = system.matrix.rows[vertex]? ∧
        (∀ col, result.matrix.denseEntry vertex col = system.matrix.denseEntry vertex col) ∧
        result.rhs[vertex]? = system.rhs[vertex]?) ∧
      result.matrix.WellFormed ∧ result.OfSize count ∧
      result.enforceDirichlet mesh kernel = (result, .ok ()) := by
  obtain ⟨vertices, blocks, answers, given, unchanged, replaced⟩ :=
    replaces_of_enforceDirichlet enforces
  refine ⟨vertices, blocks, answers, given, fun equation member => ?_, fun vertex absent => ?_,
    wellFormed_of_enforceDirichlet wellFormed size enforces, size.of_enforceDirichlet enforces,
    enforceDirichlet_again size enforces⟩
  · obtain ⟨⟨row, stands, fixed⟩, value⟩ := replaced equation member
    refine ⟨fun col => ?_, value⟩
    rw [SparseMatrix.denseEntry, fixed, Option.getD_some]
    exact SparseMatrix.lookup_fixedRow
      (wellFormed.ascending row (Array.mem_of_getElem? stands)) equation.1 equation.2.coeff col
  · obtain ⟨sameRow, sameRhs⟩ := unchanged vertex absent
    refine ⟨sameRow, fun col => ?_, sameRhs⟩
    rw [SparseMatrix.denseEntry, SparseMatrix.denseEntry, sameRow]

/-- A fixed value at one end of an interval, in a row that does not store its diagonal entry. -/
theorem enforceDirichlet_replaces_missing :
    let kernel : DirichletKernel (NumericFunction ℚ) :=
      ⟨⟨.number ["x"] 2, ⟨["x"], .param 0, .sym "x"⟩⟩, .named "left"⟩
    let system : LinearSystem ℚ := ⟨⟨2, #[[(1, 3)], [(0, 4), (1, 5)]]⟩, #[6, 7]⟩
    let result : LinearSystem ℚ := ⟨⟨2, #[[(0, 2), (1, 0)], [(0, 4), (1, 5)]]⟩, #[0, 7]⟩
    system.matrix.WellFormed ∧ system.OfSize 2 ∧
      system.enforceDirichlet Mesh.interval kernel = (result, .ok ()) ∧
      result.matrix.WellFormed ∧
      result.enforceDirichlet Mesh.interval kernel = (result, .ok ()) := by
  intro kernel system result
  have wellFormed : system.matrix.WellFormed := by decide
  have size : system.OfSize 2 := ⟨rfl, rfl, rfl⟩
  have enforces : system.enforceDirichlet Mesh.interval kernel = (result, .ok ()) := rfl
  obtain ⟨_, _, -, -, -, -, wellFormedResult, -, again⟩ :=
    enforceDirichlet_replaces wellFormed size enforces
  exact ⟨wellFormed, size, enforces, wellFormedResult, again⟩

end Success

section Failure

variable {failure : Failure}

/-- When a Dirichlet kernel is not enforced, the system is as before if the subdomain is unknown or
has a vertex without an equation. If the kernel cannot be evaluated, the rows of the subdomain have
been cleared. Otherwise there is a vertex without a column: the equations of the vertices before it
have been replaced, and all other rows are as they were cleared. -/
theorem enforceDirichlet_leaves
    (fails : system.enforceDirichlet mesh kernel = (after, .error failure)) :
    (mesh.verticesOf kernel.subdomain = .error failure ∧ after = system) ∨
      ∃ vertices, mesh.verticesOf kernel.subdomain = .ok vertices ∧
        ((∃ vertex ∈ vertices,
            (system.matrix.rowCount ≤ vertex ∨ system.rhs.size ≤ vertex) ∧
            failure = .rejected (.shape (.dirichletVertex vertex system.matrix.rowCount)) ∧
            after = system) ∨
          system.Covers vertices ∧ kernel.block.eval mesh vertices = .error failure ∧
            after = system.clearRows vertices ∨
          system.Covers vertices ∧ failure = .indexRange ∧ ∃ blocks before vertex rest,
            vertices.mapM (kernel.block.at mesh) = .ok blocks ∧
            vertices = before ++ vertex :: rest ∧ system.matrix.colCount ≤ vertex ∧
            (∀ equation ∈ before.zip blocks,
              Replaces after system equation.1 equation.2.coeff equation.2.rhs) ∧
            ∀ other ∉ before, SameRow after (system.clearRows vertices) other) := by
  have steps := enforcement_of_enforceDirichlet system mesh kernel
  rw [fails] at steps
  cases steps with
  | unresolved fails => exact Or.inl ⟨fails, rfl⟩
  | outside answers listed beyond =>
    exact Or.inr ⟨_, answers, Or.inl ⟨_, listed, beyond, rfl, rfl⟩⟩
  | unevaluated answers covers fails =>
    exact Or.inr ⟨_, answers, Or.inr (Or.inl ⟨covers, fails, rfl⟩)⟩
  | unset answers covers evaluates fails =>
    obtain ⟨rfl, left⟩ := left_of_setRows_error answers covers evaluates fails
    exact Or.inr ⟨_, answers, Or.inr (Or.inr ⟨covers, rfl, left⟩)⟩

/-- A condition in the plane on a line: it has one argument too few, and its row has been cleared
when that is noticed. -/
theorem enforceDirichlet_leaves_cleared :
    let kernel : DirichletKernel (NumericFunction ℚ) :=
      ⟨⟨.number ["x_0", "x_1"] 1, .number ["x_0", "x_1"] 7⟩, .named "left"⟩
    let system : LinearSystem ℚ := ⟨⟨2, #[[(0, 3)], [(1, 5)]]⟩, #[6, 7]⟩
    let after : LinearSystem ℚ := ⟨⟨2, #[[(0, 0)], [(1, 5)]]⟩, #[6, 7]⟩
    let failure := .rejected (.shape (.argumentCount "1" 2 1))
    system.enforceDirichlet Mesh.interval kernel = (after, .error failure) ∧ after ≠ system ∧
      ∃ vertices, Mesh.interval.verticesOf kernel.subdomain = .ok vertices ∧
        after = system.clearRows vertices ∧
        kernel.block.eval Mesh.interval vertices = .error failure := by
  intro kernel system after failure
  have fails : system.enforceDirichlet Mesh.interval kernel = (after, .error failure) := rfl
  have changed : after ≠ system := by
    intro same
    have sameRows := congrArg (fun system => system.matrix.rows) same
    revert sameRows
    decide
  rcases enforceDirichlet_leaves fails with ⟨-, unchanged⟩ | ⟨vertices, answers, left⟩
  · exact absurd unchanged changed
  · rcases left with ⟨_, -, -, -, unchanged⟩ | ⟨-, notEvaluated, cleared⟩ | ⟨-, unset, -⟩
    · exact absurd unchanged changed
    · exact ⟨fails, changed, vertices, answers, cleared, notEvaluated⟩
    · exact nomatch unset

/-- The second vertex of an interval has no column in a matrix of one column. The equation of the
first one has been replaced when that is noticed. -/
example :
    let kernel : DirichletKernel (NumericFunction ℚ) :=
      ⟨⟨.number ["x_0"] 1, .number ["x_0"] 2⟩, .everywhere⟩
    let system : LinearSystem ℚ := ⟨⟨1, #[[(0, 7)], [(0, 8)]]⟩, #[1, 2]⟩
    let after : LinearSystem ℚ := ⟨⟨1, #[[(0, 1)], [(0, 0)]]⟩, #[2, 2]⟩
    system.enforceDirichlet Mesh.interval kernel = (after, .error .indexRange) :=
  rfl

variable {stencil : Stencil} {exprs : KernelSet Expr} {kernels : KernelSet (NumericFunction α)}

/-- On a mesh of another dimension a compiled kernel is rejected after its rows are cleared. -/
theorem clears_of_otherDim (wellFormed : mesh.WellFormed)
    (compiled : exprs.compile stencil = .ok kernels) (written : exprs.Written)
    (otherDim : mesh.dim ≠ stencil.dim) (member : kernel ∈ kernels.dirichlet)
    {vertices : List Nat} (answers : mesh.verticesOf kernel.subdomain = .ok vertices)
    (covers : system.Covers vertices) :
    ∃ text, system.enforceDirichlet mesh kernel = (system.clearRows vertices,
      .error (.rejected (.shape (.argumentCount text stencil.dim mesh.dim)))) := by
  obtain ⟨text, rejected⟩ :=
    (KernelSet.rejects_of_compile wellFormed compiled otherDim written).dirichlet kernel member
      vertices ((Mesh.resolves_verticesOf kernel.subdomain).holds answers)
  exact ⟨text, enforceDirichlet_of_unevaluated answers covers rejected⟩

/-- On a mesh of the dimension of a compiled kernel and for a square matrix, nothing changes when
the kernel is not enforced. -/
theorem keeps_of_sameDim (wellFormed : mesh.WellFormed)
    (compiled : exprs.compile stencil = .ok kernels) (sameDim : mesh.dim = stencil.dim)
    (member : kernel ∈ kernels.dirichlet)
    (square : system.matrix.rowCount = system.matrix.colCount)
    (fails : system.enforceDirichlet mesh kernel = (after, .error failure)) : after = system := by
  rcases enforceDirichlet_leaves fails with ⟨-, unchanged⟩ | ⟨vertices, answers, left⟩
  · exact unchanged
  · rcases left with ⟨_, -, -, -, unchanged⟩ | ⟨-, notEvaluated, -⟩ |
      ⟨covers, -, _, before, vertex, rest, -, rfl, beyond, -⟩
    · exact unchanged
    · obtain ⟨values, evaluates, -⟩ :=
        (KernelSet.reads_of_compile wellFormed compiled sameDim).dirichlet kernel member vertices
          ((Mesh.resolves_verticesOf kernel.subdomain).holds answers)
      cases evaluates.symm.trans notEvaluated
    · have inside := (covers vertex (by simp)).1
      omega

end Failure

end FiniteVolume.LinearSystem
