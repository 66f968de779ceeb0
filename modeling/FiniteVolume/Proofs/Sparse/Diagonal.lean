import FiniteVolume.Proofs.Sparse.Pattern

/-!
# Setting a diagonal entry

A diagonal entry that is stored is written in its place (`insertEntry_of_stored`); one that is not
stored is put in, and the matrix is the one rebuilt from its triplets and the new one. On a
well-formed matrix both do the same: the diagonal has the new value, every other entry is what it
was, and nothing that was stored is lost (`setDiagonal_sets`).
-/

namespace FiniteVolume.SparseMatrix

variable {α : Type} {matrix result : SparseMatrix α} {index : Nat} {value : α}

/-- A value put into a column that is stored is written in its place. -/
theorem insertEntry_of_stored {entries : List (Nat × α)} {col position : Nat} {old : α}
    (ascending : Ascending entries) (stands : entries[position]? = some (col, old)) :
    insertEntry (fun _ => value) col value entries = entries.set position (col, value) := by
  induction entries generalizing position with
  | nil => cases stands
  | cons first rest ih =>
    obtain ⟨beforeRest, ascendingRest⟩ := List.pairwise_cons.mp ascending
    rw [insertEntry]
    cases position with
    | zero =>
      cases stands
      rw [if_neg (lt_irrefl col), if_pos rfl, List.set_cons_zero]
    | succ position =>
      have after : first.1 < col := beforeRest _ (List.mem_of_getElem? stands)
      rw [if_neg (by omega), if_neg (by omega), ih ascendingRest stands, List.set_cons_succ]

/-- Only the row of the diagonal entry is changed. -/
theorem rows_setDiagonal (formed : matrix.setDiagonal index value = .ok result) (row : Nat) :
    result.rows[row]? = if index = row then
      matrix.rows[row]?.map (insertEntry (fun _ => value) index value) else matrix.rows[row]? := by
  obtain ⟨-, rfl⟩ := setDiagonal_eq_ok_iff.mp formed
  exact Array.getElem?_modify

theorem size_setDiagonal (formed : matrix.setDiagonal index value = .ok result) :
    result.colCount = matrix.colCount ∧ result.rowCount = matrix.rowCount := by
  obtain ⟨-, rfl⟩ := setDiagonal_eq_ok_iff.mp formed
  exact ⟨rfl, Array.size_modify⟩

/-- What is stored at a position of the result. -/
theorem lookup_setDiagonal (wellFormed : matrix.WellFormed)
    (formed : matrix.setDiagonal index value = .ok result) (row col : Nat) :
    (result.rows[row]?.getD []).lookup col =
      if row = index ∧ col = index then some value else (matrix.rows[row]?.getD []).lookup col := by
  rw [rows_setDiagonal formed]
  by_cases same : index = row
  · subst same
    obtain ⟨⟨entries, stands, -⟩, -⟩ := setDiagonal_eq_ok_iff.mp formed
    have ascending := wellFormed.ascending entries (Array.mem_of_getElem? stands)
    rw [if_pos rfl, stands, Option.map_some, Option.getD_some, lookup_insertEntry ascending]
    by_cases diagonal : col = index
    · subst diagonal
      cases entries.lookup col <;> simp
    · simp [diagonal]
  · rw [if_neg same, if_neg fun both => same both.1.symm]

/-- Setting a diagonal entry keeps the rows in order. -/
theorem WellFormed.setDiagonal (wellFormed : matrix.WellFormed)
    (hasColumn : index < matrix.colCount) (formed : matrix.setDiagonal index value = .ok result) :
    result.WellFormed := by
  have cols := (size_setDiagonal formed).1
  have rows : ∀ entries ∈ result.rows, Ascending entries ∧
      ∀ stored ∈ entries, stored.1 < matrix.colCount := by
    intro entries member
    obtain ⟨row, stands⟩ := Array.mem_iff_getElem?.mp member
    rw [rows_setDiagonal formed] at stands
    split at stands
    · obtain ⟨old, standsOld, rfl⟩ := Option.map_eq_some_iff.mp stands
      have present := Array.mem_of_getElem? standsOld
      refine ⟨(wellFormed.ascending old present).insertEntry, fun stored member => ?_⟩
      apply (col_of_mem_insertEntry member).elim
      · exact fun isDiagonal => isDiagonal ▸ hasColumn
      · intro ⟨source, inside, same⟩
        exact same ▸ wellFormed.inRange old present source inside
    · have present := Array.mem_of_getElem? stands
      exact ⟨wellFormed.ascending entries present, wellFormed.inRange entries present⟩
  exact ⟨fun entries member => (rows entries member).1,
    fun entries member => cols ▸ (rows entries member).2⟩

/-- Setting a diagonal entry of a well-formed square matrix succeeds whether it is stored or not.
Afterwards the diagonal has the value and every other entry is what it was; the entry is stored
besides all that were stored before. One that was stored is written in its place, and one that was
not makes the matrix that is rebuilt from all triplets and the new one. -/
theorem setDiagonal_sets [Arithmetic α] (wellFormed : matrix.WellFormed)
    (square : matrix.colCount = matrix.rowCount) (inside : index < matrix.rowCount) (value : α) :
    ∃ result, matrix.setDiagonal index value = .ok result ∧
      (∀ row col, result.denseEntry row col =
        if row = index ∧ col = index then value else matrix.denseEntry row col) ∧
      (∀ row col, col ∈ result.columns row ↔
        (row = index ∧ col = index) ∨ col ∈ matrix.columns row) ∧
      result.WellFormed ∧ result.colCount = matrix.colCount ∧
      result.rowCount = matrix.rowCount ∧
      (∀ row, row ≠ index → result.rows[row]? = matrix.rows[row]?) ∧
      (∀ entries position old, matrix.rows[index]? = some entries →
        entries[position]? = some (index, old) →
          result.rows[index]? = some (entries.set position (index, value))) ∧
      (index ∉ matrix.columns index → result = ofTriplets matrix.rowCount matrix.colCount
        (matrix.toTriplets ++ [⟨index, index, value⟩])) := by
  have hasColumn : index < matrix.colCount := square ▸ inside
  obtain ⟨result, formed⟩ : ∃ result, matrix.setDiagonal index value = .ok result :=
    ⟨_, setDiagonal_eq_ok_iff.mpr
      ⟨⟨_, Array.getElem?_eq_getElem inside, Or.inr hasColumn⟩, rfl⟩⟩
  have stored := lookup_setDiagonal wellFormed formed
  obtain ⟨cols, rows⟩ := size_setDiagonal formed
  refine ⟨result, formed, fun row col => ?_, fun row col => ?_,
    wellFormed.setDiagonal hasColumn formed, cols, rows, fun row different => ?_,
    fun entries position old stands standsOld => ?_, fun absent => ?_⟩
  · rw [denseEntry, stored]
    split <;> rfl
  · rw [mem_columns_iff_isSome, stored, mem_columns_iff_isSome]
    split <;> simp_all
  · rw [rows_setDiagonal formed, if_neg (Ne.symm different)]
  · have ascending := wellFormed.ascending entries (Array.mem_of_getElem? stands)
    rw [rows_setDiagonal formed, if_pos rfl, stands, Option.map_some,
      insertEntry_of_stored ascending standsOld]
  · refine setDiagonal_eq_ofTriplets wellFormed formed fun stored member same => absent ?_
    rw [columns_eq]
    exact List.mem_map.mpr ⟨stored, member, same⟩

/-- A diagonal entry that is not stored yet, between two that are. -/
theorem setDiagonal_sets_missing :
    let matrix : SparseMatrix ℚ := ⟨3, #[[(0, 1), (2, 3)], [(0, 4), (2, 5)], [(2, 6)]]⟩
    let result : SparseMatrix ℚ := ⟨3, #[[(0, 1), (2, 3)], [(0, 4), (1, 7), (2, 5)], [(2, 6)]]⟩
    matrix.WellFormed ∧ matrix.colCount = matrix.rowCount ∧ 1 < matrix.rowCount ∧
      matrix.setDiagonal 1 7 = .ok result ∧ result.WellFormed ∧
      result = ofTriplets 3 3 (matrix.toTriplets ++ [⟨1, 1, 7⟩]) := by
  intro matrix result
  have wellFormed : matrix.WellFormed := by decide
  have inside : 1 < matrix.rowCount := by decide
  have absent : 1 ∉ matrix.columns 1 := by
    rw [columns_of_rows rfl]
    decide
  obtain ⟨_, formed, -, -, wellFormedResult, -, -, -, -, rebuilt⟩ :=
    setDiagonal_sets wellFormed rfl inside 7
  cases formed
  exact ⟨wellFormed, rfl, inside, rfl, wellFormedResult, rebuilt absent⟩

end FiniteVolume.SparseMatrix
