import FiniteVolume.Error
import FiniteVolume.Numeric.Arithmetic

/-!
# Sparse matrices

A sparse matrix stores for every row the columns with an entry, in ascending order, and their
values; an entry may be stored although it is zero. It is built from triplets, whose values at one
position are added up in their order, and `columnIndices`, `values` and `offsets` give its
compressed form.
-/

namespace FiniteVolume

/-- A value at a position of a matrix. -/
structure Triplet (α : Type) where
  row : Nat
  col : Nat
  value : α

/-- A matrix that stores some of its entries row by row. -/
structure SparseMatrix (α : Type) where
  colCount : Nat
  /-- The columns and values of the entries of every row. -/
  rows : Array (List (Nat × α))

namespace SparseMatrix

variable {α : Type}

def rowCount (matrix : SparseMatrix α) : Nat := matrix.rows.size

/-- The stored columns, row by row. -/
def columnIndices (matrix : SparseMatrix α) : List Nat :=
  matrix.rows.toList.flatMap fun row => row.map Prod.fst

/-- The stored values, row by row. -/
def values (matrix : SparseMatrix α) : List α :=
  matrix.rows.toList.flatMap fun row => row.map Prod.snd

/-- Running totals of the lengths of rows, from a given one on. -/
def runningLengths (total : Nat) : List (List (Nat × α)) → List Nat
  | [] => [total]
  | row :: rest => total :: runningLengths (total + row.length) rest

/-- How many entries are stored before each row, and in all rows. -/
def offsets (matrix : SparseMatrix α) : List Nat := runningLengths 0 matrix.rows.toList

/-- Puts a value into a row: where the column is stored already, `join` makes the new value from
the old one. -/
def insertEntry (join : α → α) (col : Nat) (value : α) : List (Nat × α) → List (Nat × α)
  | [] => [(col, value)]
  | (stored, old) :: rest =>
    if col < stored then (col, value) :: (stored, old) :: rest
    else if col = stored then (stored, join old) :: rest
    else (stored, old) :: insertEntry join col value rest

/-- The triplets of three lists, if these are equally long and all positions are in a matrix of
the given size. -/
def triplets (rowCount colCount : Nat) (rows cols : List Nat) (values : List α) :
    Outcome (List (Triplet α)) :=
  if rows.length ≠ cols.length then
    Outcome.reject (.sparse .indexCounts)
  else if cols.length ≠ values.length then
    Outcome.reject (.sparse .valueCount)
  else if rows.any fun row => rowCount ≤ row then
    Outcome.reject (.sparse .rowBounds)
  else if cols.any fun col => colCount ≤ col then
    Outcome.reject (.sparse .columnBounds)
  else
    .ok ((rows.zip (cols.zip values)).map fun (row, col, value) => ⟨row, col, value⟩)

/-- Sets a diagonal entry. One that is not stored yet is put in its place, if the matrix has such
an entry. -/
def setDiagonal (matrix : SparseMatrix α) (index : Nat) (value : α) :
    Outcome (SparseMatrix α) := do
  let row ← Outcome.ofLookup? matrix.rows[index]?
  if (row.any fun (col, _) => col == index) || index < matrix.colCount then
    return { matrix with
      rows := matrix.rows.modify index (insertEntry (fun _ => value) index value) }
  else
    .error .indexRange

variable [Arithmetic α]

/-- The matrix with the sum of the given triplets at every position. -/
def ofTriplets (rowCount colCount : Nat) (triplets : List (Triplet α)) : SparseMatrix α where
  colCount
  rows := triplets.foldl
    (fun rows triplet => rows.modify triplet.row
      (insertEntry (fun old => Arithmetic.add old triplet.value) triplet.col triplet.value))
    (Array.replicate rowCount [])

/-- Makes every stored entry of a row zero. -/
def clearRow (matrix : SparseMatrix α) (index : Nat) : SparseMatrix α :=
  { matrix with
    rows := matrix.rows.modify index fun row => row.map fun (col, _) => (col, Arithmetic.zero) }

end SparseMatrix

end FiniteVolume
