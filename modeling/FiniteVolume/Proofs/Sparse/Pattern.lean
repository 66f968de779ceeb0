import FiniteVolume.Proofs.Sparse.Stored

/-!
# The pattern of a sparse matrix

The pattern of a matrix tells which columns every row stores, whatever their values are. The matrix
of some triplets stores their positions (`mem_columns_ofTriplets`), also where the values add up to
zero. Clearing a row keeps the pattern, and so does setting a diagonal entry that is stored already
(`pattern_setDiagonal`). One that is not stored has to be put in, and the pattern grows; so a matrix
that stores its whole diagonal (`StoresDiagonal`) never changes its pattern in this way.
-/

namespace FiniteVolume.SparseMatrix

variable {α : Type} {matrix : SparseMatrix α} {row col index : Nat}

/-- The stored columns of all rows. -/
def pattern (matrix : SparseMatrix α) : Array (List Nat) :=
  matrix.rows.map fun row => row.map Prod.fst

/-- The stored columns of a row. -/
def columns (matrix : SparseMatrix α) (row : Nat) : List Nat := matrix.pattern[row]?.getD []

/-- The columns of a row are those of its entries. -/
theorem columns_eq (matrix : SparseMatrix α) (row : Nat) :
    matrix.columns row = (matrix.rows[row]?.getD []).map Prod.fst := by
  rw [columns, pattern, Array.getElem?_map]
  cases matrix.rows[row]? <;> rfl

/-- The columns of a row that stands in the matrix are those of its entries. -/
theorem columns_of_rows {entries : List (Nat × α)} (stands : matrix.rows[row]? = some entries) :
    matrix.columns row = entries.map Prod.fst := by
  rw [columns_eq, stands, Option.getD_some]

/-- Rows outside the matrix have no columns. -/
theorem columns_of_rowCount_le (outside : matrix.rowCount ≤ row) : matrix.columns row = [] := by
  rw [columns_eq, Array.getElem?_eq_none outside]
  rfl

/-- A column is stored in a row if a value is found there. -/
theorem mem_columns_iff_isSome :
    col ∈ matrix.columns row ↔ ((matrix.rows[row]?.getD []).lookup col).isSome = true := by
  rw [columns_eq, List.lookup_isSome_iff, List.mem_map]
  exact exists_congr fun stored => and_congr_right fun _ => by rw [beq_iff_eq, eq_comm]

/-- A value at a stored position leaves the columns of the row. -/
theorem map_fst_insertEntry {join : α → α} {value : α} {row : List (Nat × α)}
    (ascending : Ascending row) (stored : col ∈ row.map Prod.fst) :
    (insertEntry join col value row).map Prod.fst = row.map Prod.fst := by
  induction row with
  | nil => cases stored
  | cons first rest ih =>
    obtain ⟨beforeRest, ascendingRest⟩ := List.pairwise_cons.mp ascending
    rw [insertEntry]
    rw [List.map_cons, List.mem_cons] at stored
    by_cases same : col = first.1
    · rw [if_neg (by omega), if_pos same, List.map_cons, List.map_cons]
    · have later := stored.resolve_left same
      obtain ⟨entry, inside, rfl⟩ := List.mem_map.mp later
      have after := beforeRest entry inside
      rw [if_neg (by omega), if_neg same, List.map_cons, List.map_cons, ih ascendingRest later]

/-- A diagonal entry that is stored is set in its place. -/
theorem pattern_setDiagonal {value : α} {result : SparseMatrix α}
    (ascending : (matrix.columns index).Pairwise (· < ·)) (stored : index ∈ matrix.columns index)
    (formed : matrix.setDiagonal index value = .ok result) : result.pattern = matrix.pattern := by
  obtain ⟨⟨entries, stands, -⟩, rfl⟩ := setDiagonal_eq_ok_iff.mp formed
  rw [columns_of_rows stands] at ascending stored
  refine Array.ext_getElem? fun position => ?_
  rw [pattern, pattern, Array.getElem?_map, Array.getElem?_map, Array.getElem?_modify]
  split
  · rename_i same
    rw [← same, stands, Option.map_some, Option.map_some, Option.map_some,
      map_fst_insertEntry (List.pairwise_map.mp ascending) stored]
  · rfl

/-- The rows of a matrix ascend and store the whole diagonal. -/
structure StoresDiagonal (matrix : SparseMatrix α) : Prop where
  ascending : ∀ row, (matrix.columns row).Pairwise (· < ·)
  diagonal : ∀ index < matrix.rowCount, index ∈ matrix.columns index

/-- Matrices of the same pattern have as many rows. -/
theorem rowCount_of_pattern {left right : SparseMatrix α} (same : left.pattern = right.pattern) :
    left.rowCount = right.rowCount := by
  have sizes := congrArg Array.size same
  rwa [pattern, pattern, Array.size_map, Array.size_map] at sizes

/-- Matrices of the same pattern have the same columns in every row. -/
theorem columns_of_pattern {left right : SparseMatrix α} (same : left.pattern = right.pattern)
    (row : Nat) : left.columns row = right.columns row := by
  rw [columns, columns, same]

/-- A matrix stores its diagonal if one of the same pattern does. -/
theorem StoresDiagonal.of_pattern {left right : SparseMatrix α} (stores : right.StoresDiagonal)
    (same : left.pattern = right.pattern) : left.StoresDiagonal where
  ascending row := columns_of_pattern same row ▸ stores.ascending row
  diagonal index inside :=
    columns_of_pattern same index ▸ stores.diagonal index (rowCount_of_pattern same ▸ inside)

variable [Arithmetic α]

/-- A cleared row stores zeros. -/
theorem pattern_clearRow (matrix : SparseMatrix α) (index : Nat) :
    (matrix.clearRow index).pattern = matrix.pattern := by
  refine Array.ext_getElem? fun position => ?_
  rw [pattern, pattern, Array.getElem?_map, Array.getElem?_map, rows_clearRow]
  split
  · rw [Option.map_map]
    refine congrArg (Option.map · _) (funext fun row => ?_)
    rw [Function.comp_apply, zeroed, List.map_map]
    rfl
  · rfl

/-- The matrix of some triplets has ascending rows. -/
theorem ascending_ofTriplets {rowCount colCount : Nat} (triplets : List (Triplet α)) (row : Nat) :
    ((ofTriplets rowCount colCount triplets).columns row).Pairwise (· < ·) := by
  by_cases inside : row < rowCount
  · rw [columns_of_rows (rows_ofTriplets triplets inside), List.pairwise_map]
    exact ascending_addTriplets _ .nil
  · rw [columns_of_rowCount_le (by rw [SparseMatrix.rowCount, size_ofTriplets]; omega)]
    exact .nil

/-- Values add up to something unless there are none. -/
theorem isSome_addUp (values : List α) : (addUp none values).isSome = true ↔ values ≠ [] := by
  cases values with
  | nil => simp [addUp]
  | cons first rest =>
    have kept : ∀ (values : List α) (total : α), (addUp (some total) values).isSome = true := by
      intro values
      induction values with
      | nil => exact fun _ => rfl
      | cons value rest ih => exact fun total => ih (Arithmetic.add total value)
    simpa [addUp] using kept rest first

/-- The matrix of some triplets stores their positions. -/
theorem mem_columns_ofTriplets {rowCount colCount : Nat} {triplets : List (Triplet α)}
    (inRange : ∀ triplet ∈ triplets, triplet.row < rowCount) :
    col ∈ (ofTriplets rowCount colCount triplets).columns row ↔
      ∃ triplet ∈ triplets, triplet.row = row ∧ triplet.col = col := by
  by_cases inside : row < rowCount
  · rw [mem_columns_iff_isSome, lookup_ofTriplets triplets inside, isSome_addUp, Ne,
      List.map_eq_nil_iff, List.filter_eq_nil_iff]
    simp
  · rw [columns_of_rowCount_le (by rw [SparseMatrix.rowCount, size_ofTriplets]; omega)]
    refine ⟨fun member => (nomatch member), ?_⟩
    rintro ⟨triplet, member, rfl, -⟩
    exact absurd (inRange triplet member) inside

end FiniteVolume.SparseMatrix
