import FiniteVolume.Proofs.Numeric.Exact
import FiniteVolume.Proofs.Outcome
import FiniteVolume.Sparse.Matrix

/-!
# Entries of sparse matrices

The entry of a matrix at a position is what its row stores for the column (`SparseMatrix.entry`).
Triplets are added up (`entry_ofTriplets`), and a value put into a row of zeros is its only entry
(`total_insertEntry_of_zeros`).
-/

namespace FiniteVolume.SparseMatrix

variable {α : Type} [AddCommGroup α]

/-- What a row stores for a column. -/
def total (row : List (Nat × α)) (col : Nat) : α :=
  (row.map fun (stored, value) => if stored = col then value else 0).sum

/-- The entry of a matrix at a position. -/
def entry (matrix : SparseMatrix α) (row col : Nat) : α := total (matrix.rows[row]?.getD []) col

/-- The total of a column counts the first entry if it is there. -/
theorem total_cons (stored : Nat) (value : α) (rest : List (Nat × α)) (col : Nat) :
    total ((stored, value) :: rest) col = (if stored = col then value else 0) + total rest col := by
  rw [total, total, List.map_cons, List.sum_cons]

/-- A row of zeros has no entry other than zero. -/
theorem total_eq_zero {row : List (Nat × α)} (zeros : ∀ stored ∈ row, stored.2 = 0) (col : Nat) :
    total row col = 0 := by
  rw [total, List.sum_eq_zero]
  intro value member
  obtain ⟨stored, inside, rfl⟩ := List.mem_map.mp member
  simp [zeros stored inside]

/-- Entries are read from one row of the matrix. -/
theorem entry_congr {left right : SparseMatrix α} {row : Nat}
    (same : left.rows[row]? = right.rows[row]?) (col : Nat) :
    left.entry row col = right.entry row col := by
  rw [entry, entry, same]

/-- A value put into a row of zeros is its only entry. -/
theorem total_insertEntry_of_zeros {row : List (Nat × α)} (zeros : ∀ stored ∈ row, stored.2 = 0)
    (index : Nat) (value : α) (col : Nat) :
    total (insertEntry (fun _ => value) index value row) col =
      if index = col then value else 0 := by
  induction row with
  | nil => simp [insertEntry, total]
  | cons first rest ih =>
    obtain ⟨isZero, later⟩ := List.forall_mem_cons.mp zeros
    rw [insertEntry]
    split
    · rw [total_cons, total_eq_zero zeros, add_zero]
    · split
      · rename_i same
        rw [total_cons, total_eq_zero later, add_zero, same]
      · rw [total_cons, ih later, isZero]
        simp

omit [AddCommGroup α] in
/-- Triplets that are accepted keep their values, and their rows exist. -/
theorem triplets_eq_ok {rowCount colCount : Nat} {entries result : List (Triplet α)}
    (formed : triplets rowCount colCount (entries.map Triplet.row) (entries.map Triplet.col)
      (entries.map Triplet.value) = .ok result) :
    result = entries ∧ ∀ triplet ∈ entries, triplet.row < rowCount := by
  unfold triplets at formed
  rw [if_neg (by simp), if_neg (by simp)] at formed
  split at formed
  · exact absurd formed (Outcome.reject_ne_ok _ _)
  · rename_i rowsInRange
    split at formed
    · exact absurd formed (Outcome.reject_ne_ok _ _)
    · cases formed
      constructor
      · rw [List.zip_map', List.zip_map', List.map_map]
        exact List.map_id entries
      · simpa using rowsInRange

omit [AddCommGroup α] in
/-- Triplets at positions of the matrix are accepted. -/
theorem exists_triplets {rowCount colCount : Nat} {entries : List (Triplet α)}
    (inRange : ∀ triplet ∈ entries, triplet.row < rowCount ∧ triplet.col < colCount) :
    ∃ result, triplets rowCount colCount (entries.map Triplet.row) (entries.map Triplet.col)
      (entries.map Triplet.value) = .ok result := by
  have rows : ¬((entries.map Triplet.row).any fun row => rowCount ≤ row) = true := by
    simpa using fun triplet member => (inRange triplet member).1
  have cols : ¬((entries.map Triplet.col).any fun col => colCount ≤ col) = true := by
    simpa using fun triplet member => (inRange triplet member).2
  rw [triplets, if_neg (by simp), if_neg (by simp), if_neg rows, if_neg cols]
  exact ⟨_, rfl⟩

omit [AddCommGroup α] in
/-- A diagonal entry can be set in a row that stores it, and in one of a matrix that has it. -/
theorem setDiagonal_eq_ok_iff {matrix result : SparseMatrix α} {index : Nat} {value : α} :
    matrix.setDiagonal index value = .ok result ↔
      (∃ row, matrix.rows[index]? = some row ∧
        ((∃ stored ∈ row, stored.1 = index) ∨ index < matrix.colCount)) ∧
      result = { matrix with
        rows := matrix.rows.modify index (insertEntry (fun _ => value) index value) } := by
  rw [setDiagonal, Outcome.bind_eq_ok_iff, ← exists_and_right]
  refine exists_congr fun row => ?_
  rw [Outcome.ofLookup?_eq_ok_iff, and_assoc]
  refine and_congr_right fun _ => ?_
  by_cases found : (row.any fun (col, _) => col == index) || index < matrix.colCount
  · rw [if_pos found]
    have found : (∃ stored ∈ row, stored.1 = index) ∨ index < matrix.colCount := by
      simpa using found
    exact ⟨fun same => ⟨found, (Except.ok.inj same).symm⟩, fun both => congrArg _ both.2.symm⟩
  · rw [if_neg found]
    have notFound : ¬((∃ stored ∈ row, stored.1 = index) ∨ index < matrix.colCount) := by
      simpa using found
    exact ⟨fun same => (nomatch same), fun both => absurd both.1 notFound⟩

variable [Arithmetic α] [ExactArithmetic α]

/-- A row with the same stored columns and zero at all of them. -/
def zeroed {α : Type} [Arithmetic α] (row : List (Nat × α)) : List (Nat × α) :=
  row.map fun (col, _) => (col, Arithmetic.zero)

omit [AddCommGroup α] [ExactArithmetic α] in
/-- Clearing a row changes that row only. -/
theorem rows_clearRow (matrix : SparseMatrix α) (index row : Nat) :
    (matrix.clearRow index).rows[row]? =
      if index = row then matrix.rows[row]?.map zeroed else matrix.rows[row]? :=
  Array.getElem?_modify

omit [AddCommGroup α] [ExactArithmetic α] in
theorem zeroed_zeroed (row : List (Nat × α)) : zeroed (zeroed row) = zeroed row := by
  rw [zeroed, zeroed, List.map_map]
  rfl

/-- All values of a cleared row are zero. -/
theorem eq_zero_of_mem_zeroed {row : List (Nat × α)} : ∀ stored ∈ zeroed row, stored.2 = 0 := by
  intro stored member
  obtain ⟨_, -, rfl⟩ := List.mem_map.mp member
  exact ExactArithmetic.zero_eq

omit [AddCommGroup α] [ExactArithmetic α] in
/-- A matrix of triplets has as many rows as asked for. -/
theorem size_ofTriplets (rowCount colCount : Nat) (triplets : List (Triplet α)) :
    (ofTriplets rowCount colCount triplets).rows.size = rowCount := by
  rw [ofTriplets]
  exact List.foldlRecOn (motive := fun rows : Array (List (Nat × α)) => rows.size = rowCount)
    triplets _ Array.size_replicate fun rows size _ _ => Array.size_modify.trans size

omit [AddCommGroup α] [ExactArithmetic α] in
/-- Clearing rows keeps the size of the matrix. -/
theorem size_clearRows (matrix : SparseMatrix α) (indices : List Nat) :
    (indices.foldl clearRow matrix).rows.size = matrix.rows.size ∧
      (indices.foldl clearRow matrix).colCount = matrix.colCount := by
  refine List.foldlRecOn (motive := fun cleared : SparseMatrix α =>
    cleared.rows.size = matrix.rows.size ∧ cleared.colCount = matrix.colCount)
    indices _ ⟨rfl, rfl⟩ fun cleared size index _ => ⟨?_, size.2⟩
  exact Array.size_modify.trans size.1

/-- A value is added to what a row stores for its column. -/
theorem total_insertEntry (index : Nat) (value : α) (row : List (Nat × α)) (col : Nat) :
    total (insertEntry (fun old => Arithmetic.add old value) index value row) col =
      total row col + if index = col then value else 0 := by
  induction row with
  | nil => simp [insertEntry, total]
  | cons first rest ih =>
    rw [insertEntry]
    split
    · rw [total_cons, add_comm]
    · split
      · rename_i same
        rw [total_cons, total_cons, ExactArithmetic.add_eq, ← same]
        split
        · rw [add_right_comm]
        · rw [add_zero]
      · rw [total_cons, total_cons, ih, add_assoc]

/-- The matrix of some triplets has the sum of their values at every position. -/
theorem entry_ofTriplets {rowCount colCount : Nat} {triplets : List (Triplet α)}
    (inRange : ∀ triplet ∈ triplets, triplet.row < rowCount) (row col : Nat) :
    (ofTriplets rowCount colCount triplets).entry row col =
      (triplets.map fun triplet =>
        if triplet.row = row ∧ triplet.col = col then triplet.value else 0).sum := by
  have fold : ∀ rows : Array (List (Nat × α)), rows.size = rowCount →
      total ((triplets.foldl (fun rows triplet => rows.modify triplet.row (insertEntry
        (fun old => Arithmetic.add old triplet.value) triplet.col triplet.value))
          rows)[row]?.getD [])
          col =
        total (rows[row]?.getD []) col + (triplets.map fun triplet =>
          if triplet.row = row ∧ triplet.col = col then triplet.value else 0).sum := by
    induction triplets with
    | nil => simp
    | cons triplet rest ih =>
      intro rows size
      obtain ⟨inside, later⟩ := List.forall_mem_cons.mp inRange
      rw [List.foldl_cons, ih later _ (by rw [Array.size_modify, size]), List.map_cons,
        List.sum_cons, ← add_assoc]
      congr 1
      rw [Array.getElem?_modify]
      by_cases same : triplet.row = row
      · subst same
        rw [if_pos rfl, Array.getElem?_eq_getElem (by omega)]
        simp [total_insertEntry]
      · simp [same]
  rw [entry, ofTriplets, fold _ Array.size_replicate, Array.getElem?_replicate]
  split <;> simp [total]

end FiniteVolume.SparseMatrix
