import FiniteVolume.Proofs.Sparse.Entry

/-!
# Stored entries

In a well-formed matrix the columns of every row ascend, so a row stores at most one value for each
column and a value put into it is the one found there (`lookup_insertEntry`). Rows that store the
same values are the same (`Ascending.ext`). The matrix of some triplets adds up their values from
the left (`lookup_ofTriplets`), and setting a diagonal entry that is not stored has the effect of
rebuilding the matrix from all of its triplets and the new one (`setDiagonal_eq_ofTriplets`).
-/

namespace FiniteVolume.SparseMatrix

variable {α : Type} {row : List (Nat × α)} {join : α → α} {col : Nat} {value : α}

/-- The stored columns of a row ascend. -/
def Ascending (row : List (Nat × α)) : Prop :=
  row.Pairwise fun first second => first.1 < second.1

/-- Every row stores columns of the matrix in ascending order. -/
structure WellFormed (matrix : SparseMatrix α) : Prop where
  ascending : ∀ row ∈ matrix.rows, Ascending row
  inRange : ∀ row ∈ matrix.rows, ∀ stored ∈ row, stored.1 < matrix.colCount

instance (row : List (Nat × α)) : Decidable (Ascending row) :=
  inferInstanceAs (Decidable (row.Pairwise fun first second => first.1 < second.1))

instance (matrix : SparseMatrix α) : Decidable matrix.WellFormed :=
  decidable_of_iff
    ((∀ row ∈ matrix.rows, Ascending row) ∧
      ∀ row ∈ matrix.rows, ∀ stored ∈ row, stored.1 < matrix.colCount)
    ⟨fun both => ⟨both.1, both.2⟩, fun wellFormed => ⟨wellFormed.ascending, wellFormed.inRange⟩⟩

/-- What a matrix has at a position: the stored value, or zero. -/
def denseEntry [Arithmetic α] (matrix : SparseMatrix α) (row col : Nat) : α :=
  ((matrix.rows[row]?.getD []).lookup col).getD Arithmetic.zero

/-- A lookup finds the first entry of its index. -/
theorem lookup_cons_eq_ite (first : Nat × α) (rest : List (Nat × α)) (index : Nat) :
    (first :: rest).lookup index = if index = first.1 then some first.2 else rest.lookup index := by
  obtain ⟨stored, old⟩ := first
  by_cases same : index = stored
  · rw [if_pos same, same, List.lookup_cons_self]
  · rw [if_neg same, List.lookup_cons, beq_eq_false_iff_ne.mpr same]

section Insertion

/-- An insertion brings in no column but its own. -/
theorem col_of_mem_insertEntry {stored : Nat × α}
    (member : stored ∈ insertEntry join col value row) :
    stored.1 = col ∨ ∃ old ∈ row, old.1 = stored.1 := by
  induction row with
  | nil =>
    rw [insertEntry, List.mem_singleton] at member
    exact Or.inl (congrArg Prod.fst member)
  | cons first rest ih =>
    rw [insertEntry] at member
    by_cases before : col < first.1
    · rw [if_pos before, List.mem_cons] at member
      exact member.imp (congrArg Prod.fst) fun later => ⟨stored, later, rfl⟩
    · by_cases same : col = first.1
      · rw [if_neg before, if_pos same, List.mem_cons] at member
        refine Or.inr (member.elim (fun isFirst => ?_) fun later => ?_)
        · exact ⟨first, List.mem_cons_self, (congrArg Prod.fst isFirst).symm⟩
        · exact ⟨stored, List.mem_cons_of_mem _ later, rfl⟩
      · rw [if_neg before, if_neg same, List.mem_cons] at member
        apply member.elim
        · exact fun isFirst => Or.inr ⟨first, List.mem_cons_self, (congrArg Prod.fst isFirst).symm⟩
        · intro later
          refine (ih later).imp_right ?_
          rintro ⟨old, inside, equal⟩
          exact ⟨old, List.mem_cons_of_mem _ inside, equal⟩

/-- Insertion keeps a row in order. -/
theorem Ascending.insertEntry (ascending : Ascending row) :
    Ascending (insertEntry join col value row) := by
  induction row with
  | nil => exact List.pairwise_singleton _ _
  | cons first rest ih =>
    obtain ⟨beforeRest, ascendingRest⟩ := List.pairwise_cons.mp ascending
    rw [SparseMatrix.insertEntry]
    by_cases before : col < first.1
    · rw [if_pos before]
      refine List.pairwise_cons.mpr ⟨fun stored member => ?_, ascending⟩
      apply (List.mem_cons.mp member).elim
      · exact fun isFirst => isFirst ▸ before
      · exact fun later => before.trans (beforeRest stored later)
    · by_cases same : col = first.1
      · rw [if_neg before, if_pos same]
        exact List.pairwise_cons.mpr ⟨beforeRest, ascendingRest⟩
      · rw [if_neg before, if_neg same]
        refine List.pairwise_cons.mpr ⟨fun stored member => ?_, ih ascendingRest⟩
        apply (col_of_mem_insertEntry member).elim
        · intro isNew
          change first.1 < stored.1
          omega
        · rintro ⟨old, inside, equal⟩
          exact equal ▸ beforeRest old inside

/-- A column that comes before all stored ones is not stored. -/
theorem lookup_eq_none (before : ∀ stored ∈ row, col < stored.1) : row.lookup col = none := by
  rw [List.lookup_eq_none_iff]
  intro stored member
  have := before stored member
  simp only [bne_iff_ne, Ne]
  omega

/-- A value that is put into a row is found at its column, and nothing else changes. -/
theorem lookup_insertEntry (ascending : Ascending row) (index : Nat) :
    (insertEntry join col value row).lookup index =
      if index = col then some ((row.lookup col).elim value join) else row.lookup index := by
  induction row with
  | nil => rw [insertEntry, lookup_cons_eq_ite, List.lookup_nil, List.lookup_nil, Option.elim_none]
  | cons first rest ih =>
    obtain ⟨beforeRest, ascendingRest⟩ := List.pairwise_cons.mp ascending
    rw [insertEntry]
    by_cases before : col < first.1
    · have absent : (first :: rest).lookup col = none :=
        lookup_eq_none (List.forall_mem_cons.mpr
          ⟨before, fun later member => before.trans (beforeRest later member)⟩)
      rw [if_pos before, absent, lookup_cons_eq_ite, Option.elim_none]
    · rw [if_neg before, lookup_cons_eq_ite first rest col, lookup_cons_eq_ite first rest index]
      by_cases same : col = first.1
      · rw [if_pos same, if_pos same, lookup_cons_eq_ite, same, Option.elim_some]
        by_cases found : index = first.1
        · rw [if_pos found, if_pos found]
        · simp only [if_neg found]
      · rw [if_neg same, if_neg same, lookup_cons_eq_ite, ih ascendingRest]
        by_cases found : index = first.1
        · rw [if_pos found, if_pos found, if_neg (found ▸ Ne.symm same)]
        · simp only [if_neg found]

/-- A value that replaces what is stored is found at its column. -/
theorem lookup_insertEntry_self :
    (insertEntry (fun _ => value) col value row).lookup col = some value := by
  induction row with
  | nil => rw [insertEntry, List.lookup_cons_self]
  | cons first rest ih =>
    rw [insertEntry]
    by_cases before : col < first.1
    · rw [if_pos before, List.lookup_cons_self]
    · by_cases same : col = first.1
      · rw [if_neg before, if_pos same, same, List.lookup_cons_self]
      · rw [if_neg before, if_neg same, lookup_cons_eq_ite, if_neg same, ih]

/-- A value put into a row twice is the second one. -/
theorem insertEntry_insertEntry (old : α) :
    insertEntry (fun _ => value) col value (insertEntry (fun _ => old) col old row) =
      insertEntry (fun _ => value) col value row := by
  induction row with
  | nil => simp [insertEntry]
  | cons first rest ih =>
    by_cases before : col < first.1
    · simp [insertEntry, before]
    · by_cases same : col = first.1
      · simp [insertEntry, same]
      · simp [insertEntry, before, same, ih]

end Insertion

/-- Rows with ascending columns that store the same values are the same. -/
theorem Ascending.ext {left right : List (Nat × α)} (ascendingLeft : Ascending left)
    (ascendingRight : Ascending right) (same : ∀ col, left.lookup col = right.lookup col) :
    left = right := by
  -- A column that comes before all those of a row is not the first one of another.
  have notFirst : ∀ {first : Nat × α} {rest row : List (Nat × α)},
      (∀ col, (first :: rest).lookup col = row.lookup col) →
      ¬∀ stored ∈ row, first.1 < stored.1 := by
    intro first rest row same before
    have absent := same first.1
    rw [lookup_eq_none before, lookup_cons_eq_ite, if_pos rfl] at absent
    cases absent
  induction left generalizing right with
  | nil =>
    cases right with
    | nil => rfl
    | cons first rest =>
      exact (notFirst (fun col => (same col).symm) (List.forall_mem_nil _)).elim
  | cons first rest ih =>
    obtain ⟨beforeRest, ascendingRest⟩ := List.pairwise_cons.mp ascendingLeft
    cases right with
    | nil => exact (notFirst same (List.forall_mem_nil _)).elim
    | cons other others =>
      obtain ⟨beforeOthers, ascendingOthers⟩ := List.pairwise_cons.mp ascendingRight
      have notBefore : ¬first.1 < other.1 := fun before => notFirst same (List.forall_mem_cons.mpr
        ⟨before, fun later member => before.trans (beforeOthers later member)⟩)
      have notAfter : ¬other.1 < first.1 := fun before =>
        notFirst (fun col => (same col).symm) (List.forall_mem_cons.mpr
          ⟨before, fun later member => before.trans (beforeRest later member)⟩)
      have sameCol : first.1 = other.1 := by omega
      have sameFirst : first = other := by
        have sameValue := same first.1
        rw [lookup_cons_eq_ite, lookup_cons_eq_ite, if_pos rfl, if_pos sameCol] at sameValue
        exact Prod.ext sameCol (Option.some.inj sameValue)
      subst sameFirst
      congr 1
      refine ih ascendingRest ascendingOthers fun col => ?_
      by_cases isFirst : col = first.1
      · rw [isFirst, lookup_eq_none beforeRest, lookup_eq_none beforeOthers]
      · have sameRest := same col
        rwa [lookup_cons_eq_ite, lookup_cons_eq_ite, if_neg isFirst, if_neg isFirst] at sameRest

variable [Arithmetic α]

section Fixed

/-- Zeroing a row commutes with writing to it. -/
theorem zeroed_insertEntry :
    zeroed (insertEntry (fun _ => value) col value row) =
      insertEntry (fun _ => Arithmetic.zero) col Arithmetic.zero (zeroed row) := by
  induction row with
  | nil => rfl
  | cons first rest ih =>
    rw [zeroed, zeroed, insertEntry, List.map_cons, insertEntry]
    by_cases before : col < first.1
    · rw [if_pos before, if_pos before]
      rfl
    · by_cases same : col = first.1
      · rw [if_neg before, if_pos same, if_neg before, if_pos same]
        rfl
      · rw [if_neg before, if_neg same, if_neg before, if_neg same, List.map_cons]
        exact congrArg _ ih

/-- Zeroing keeps the columns that are found, with value zero. -/
theorem lookup_zeroed (row : List (Nat × α)) (col : Nat) :
    (zeroed row).lookup col = (row.lookup col).map fun _ => Arithmetic.zero := by
  induction row with
  | nil => rfl
  | cons first rest ih =>
    rw [zeroed, List.map_cons, lookup_cons_eq_ite, lookup_cons_eq_ite, ← zeroed, ih]
    by_cases same : col = first.1
    · simp only [if_pos same, Option.map_some]
    · simp only [if_neg same]

/-- A row with a diagonal entry and zero at all other stored columns. -/
def fixedRow (index : Nat) (diagonal : α) (row : List (Nat × α)) : List (Nat × α) :=
  insertEntry (fun _ => diagonal) index diagonal (zeroed row)

/-- Of two diagonal entries that a row is given, the second one stays. -/
theorem fixedRow_fixedRow (index : Nat) (diagonal old : α) (row : List (Nat × α)) :
    fixedRow index diagonal (fixedRow index old row) = fixedRow index diagonal row := by
  rw [fixedRow, fixedRow, zeroed_insertEntry, zeroed_zeroed, insertEntry_insertEntry, fixedRow]

/-- The diagonal of a fixed row can be told. -/
theorem fixedRow_injective {index : Nat} {diagonal diagonal' : α}
    (same : fixedRow index diagonal row = fixedRow index diagonal' row) : diagonal = diagonal' := by
  have sameEntry := congrArg (fun row => row.lookup index) same
  simp only [fixedRow, lookup_insertEntry_self] at sameEntry
  exact Option.some.inj sameEntry

/-- Zeroing keeps a row in order. -/
theorem Ascending.zeroed (ascending : Ascending row) : Ascending (zeroed row) :=
  List.pairwise_map.mpr ascending

/-- A fixed row has its diagonal and is zero elsewhere. -/
theorem lookup_fixedRow (ascending : Ascending row) (index : Nat) (diagonal : α) (col : Nat) :
    ((fixedRow index diagonal row).lookup col).getD Arithmetic.zero =
      if index = col then diagonal else Arithmetic.zero := by
  rw [fixedRow, lookup_insertEntry ascending.zeroed, lookup_zeroed, lookup_zeroed]
  by_cases same : index = col
  · rw [if_pos same.symm, if_pos same, Option.getD_some]
    cases row.lookup index <;> rfl
  · rw [if_neg (Ne.symm same), if_neg same]
    cases row.lookup col <;> rfl

/-- A fixed row of a well-formed matrix is again in order. -/
theorem fixedRow_wellFormed {index colCount : Nat} {diagonal : α} (ascending : Ascending row)
    (inRange : ∀ stored ∈ row, stored.1 < colCount) (inside : index < colCount) :
    Ascending (fixedRow index diagonal row) ∧
      ∀ stored ∈ fixedRow index diagonal row, stored.1 < colCount := by
  refine ⟨ascending.zeroed.insertEntry, fun stored member => ?_⟩
  apply (col_of_mem_insertEntry member).elim
  · exact fun isDiagonal => isDiagonal ▸ inside
  · intro ⟨cleared, member, same⟩
    obtain ⟨old, present, rfl⟩ := List.mem_map.mp member
    exact same ▸ inRange old present

end Fixed

section Triplets

variable {rowCount colCount : Nat}

/-- Puts a triplet into its row, where it is added to what is stored at its column. -/
def addTriplet (row : List (Nat × α)) (triplet : Triplet α) : List (Nat × α) :=
  insertEntry (fun old => Arithmetic.add old triplet.value) triplet.col triplet.value row

/-- A row of the matrix of some triplets is formed by those of this row, in their order. -/
theorem rows_ofTriplets (triplets : List (Triplet α)) {index : Nat} (inRange : index < rowCount) :
    (ofTriplets rowCount colCount triplets).rows[index]? =
      some ((triplets.filter fun triplet => triplet.row = index).foldl addTriplet []) := by
  have fold : ∀ (rows : Array (List (Nat × α))) row, rows[index]? = some row →
      (triplets.foldl (fun rows triplet => rows.modify triplet.row
        (insertEntry (fun old => Arithmetic.add old triplet.value) triplet.col triplet.value))
          rows)[index]? =
        some ((triplets.filter fun triplet => triplet.row = index).foldl addTriplet row) := by
    induction triplets with
    | nil => exact fun _ _ stands => stands
    | cons triplet rest ih =>
      intro rows row stands
      have next : (rows.modify triplet.row (insertEntry
          (fun old => Arithmetic.add old triplet.value) triplet.col triplet.value))[index]? =
          some (if triplet.row = index then addTriplet row triplet else row) := by
        rw [Array.getElem?_modify, stands]
        split <;> rfl
      rw [List.foldl_cons, ih _ _ next, List.filter_cons]
      by_cases same : triplet.row = index <;> simp [same]
  refine fold _ [] ?_
  rw [Array.getElem?_replicate, if_pos inRange]

/-- The rows of the matrix of some triplets ascend. -/
theorem ascending_addTriplets (triplets : List (Triplet α)) {row : List (Nat × α)}
    (ascending : Ascending row) : Ascending (triplets.foldl addTriplet row) :=
  List.foldlRecOn triplets _ ascending fun _ ascending _ _ => ascending.insertEntry

/-- Values added up from the left, to a first one if there is any. -/
def addUp (first? : Option α) (values : List α) : Option α :=
  values.foldl
    (fun total? value => some (total?.elim value fun total => Arithmetic.add total value)) first?

/-- Triplets of one row are added up at their columns. -/
theorem lookup_addTriplets (triplets : List (Triplet α)) {row : List (Nat × α)}
    (ascending : Ascending row) (col : Nat) :
    (triplets.foldl addTriplet row).lookup col = addUp (row.lookup col)
      ((triplets.filter fun triplet => triplet.col = col).map Triplet.value) := by
  induction triplets generalizing row with
  | nil => rfl
  | cons triplet rest ih =>
    have ascendingNext : Ascending (addTriplet row triplet) := ascending.insertEntry
    rw [List.foldl_cons, ih ascendingNext, addTriplet, lookup_insertEntry ascending,
      List.filter_cons]
    by_cases same : triplet.col = col
    · subst same
      simp [addUp]
    · simp [same, Ne.symm same]

/-- The matrix of some triplets stores what their values at a position add up to. -/
theorem lookup_ofTriplets (triplets : List (Triplet α)) {row : Nat} (inRange : row < rowCount)
    (col : Nat) :
    ((ofTriplets rowCount colCount triplets).rows[row]?.getD []).lookup col = addUp none
      ((triplets.filter fun triplet => triplet.row = row ∧ triplet.col = col).map
        Triplet.value) := by
  have empty : Ascending ([] : List (Nat × α)) := List.Pairwise.nil
  rw [rows_ofTriplets triplets inRange, Option.getD_some, lookup_addTriplets _ empty,
    List.filter_filter]
  simp only [List.lookup_nil, Bool.decide_and, Bool.and_comm]

/-- The stored entries of a matrix as triplets, row by row. -/
def toTriplets (matrix : SparseMatrix α) : List (Triplet α) :=
  matrix.rows.toList.zipIdx.flatMap fun (row, index) =>
    row.map fun (col, value) => ⟨index, col, value⟩

omit [Arithmetic α] in
/-- The triplets of a matrix in one row are the entries of that row. -/
theorem filter_toTriplets (matrix : SparseMatrix α) {index : Nat} {row : List (Nat × α)}
    (stands : matrix.rows[index]? = some row) :
    (matrix.toTriplets.filter fun triplet => triplet.row = index) =
      row.map fun (col, value) => ⟨index, col, value⟩ := by
  have fold : ∀ (rows : List (List (Nat × α))) (start position : Nat),
      (((rows.zipIdx start).flatMap fun (row, index) =>
        row.map fun (col, value) => (⟨index, col, value⟩ : Triplet α)).filter
          fun triplet => triplet.row = start + position) =
        (rows[position]?.getD []).map fun (col, value) => ⟨start + position, col, value⟩ := by
    intro rows
    induction rows with
    | nil => exact fun _ _ => rfl
    | cons first rest ih =>
      intro start position
      rw [List.zipIdx_cons, List.flatMap_cons, List.filter_append, List.filter_map]
      cases position with
      | zero =>
        have later : (((rest.zipIdx (start + 1)).flatMap fun (row, index) =>
            row.map fun (col, value) => (⟨index, col, value⟩ : Triplet α)).filter
              fun triplet => triplet.row = start + 0) = [] := by
          refine List.filter_eq_nil_iff.mpr fun triplet member => ?_
          obtain ⟨⟨row, index⟩, inside, member⟩ := List.mem_flatMap.mp member
          obtain ⟨stored, -, rfl⟩ := List.mem_map.mp member
          have := List.le_snd_of_mem_zipIdx inside
          simp only [decide_eq_true_eq]
          omega
        rw [later]
        simp [Function.comp_def]
      | succ position =>
        have next := ih (start + 1) position
        rw [Nat.add_right_comm, Nat.add_assoc] at next
        rw [next]
        simp [Function.comp_def]
  have rows := fold matrix.rows.toList 0 index
  rwa [Nat.zero_add, Array.getElem?_toList, stands] at rows

omit [Arithmetic α] in
/-- A column after all stored ones is put at the end. -/
theorem insertEntry_of_last (after : ∀ stored ∈ row, stored.1 < col) :
    insertEntry join col value row = row ++ [(col, value)] := by
  induction row with
  | nil => rfl
  | cons first rest ih =>
    obtain ⟨afterFirst, afterRest⟩ := List.forall_mem_cons.mp after
    rw [insertEntry, if_neg (by omega), if_neg (by omega), ih afterRest, List.cons_append]

/-- A row is formed from its own entries. -/
theorem addTriplets_self {index : Nat} (ascending : Ascending row) :
    (row.map fun (col, value) => (⟨index, col, value⟩ : Triplet α)).foldl addTriplet [] = row := by
  have fold : ∀ rest start : List (Nat × α), Ascending (start ++ rest) →
      (rest.map fun (col, value) => (⟨index, col, value⟩ : Triplet α)).foldl addTriplet start =
        start ++ rest := by
    intro rest
    induction rest with
    | nil => exact fun start _ => (List.append_nil start).symm
    | cons first rest ih =>
      intro start ascending
      have after : ∀ stored ∈ start, stored.1 < first.1 := fun stored member =>
        (List.pairwise_append.mp ascending).2.2 stored member first List.mem_cons_self
      have next : addTriplet start ⟨index, first.1, first.2⟩ = start ++ [first] :=
        insertEntry_of_last after
      rw [List.map_cons, List.foldl_cons, next, ih _ (by simpa using ascending)]
      simp
  exact fold row [] ascending

omit [Arithmetic α] in
/-- It makes no difference how values are joined at a column that is not stored. -/
theorem insertEntry_of_absent {join' : α → α} (absent : ∀ stored ∈ row, stored.1 ≠ col) :
    insertEntry join col value row = insertEntry join' col value row := by
  induction row with
  | nil => rfl
  | cons first rest ih =>
    obtain ⟨notFirst, notLater⟩ := List.forall_mem_cons.mp absent
    rw [insertEntry, insertEntry, if_neg (Ne.symm notFirst), if_neg (Ne.symm notFirst),
      ih notLater]

/-- Setting a diagonal entry that is not stored has the effect of rebuilding the matrix from its
triplets and that entry. -/
theorem setDiagonal_eq_ofTriplets {matrix result : SparseMatrix α} {index : Nat}
    (wellFormed : matrix.WellFormed) (formed : matrix.setDiagonal index value = .ok result)
    (absent : ∀ stored ∈ matrix.rows[index]?.getD [], stored.1 ≠ index) :
    result = ofTriplets matrix.rowCount matrix.colCount
      (matrix.toTriplets ++ [⟨index, index, value⟩]) := by
  obtain ⟨-, rfl⟩ := setDiagonal_eq_ok_iff.mp formed
  have sameRows : matrix.rows.modify index (insertEntry (fun _ => value) index value) =
      (ofTriplets matrix.rowCount matrix.colCount
        (matrix.toTriplets ++ [⟨index, index, value⟩])).rows := by
    refine Array.ext_getElem? fun position => ?_
    cases stands : matrix.rows[position]? with
    | none =>
      have outside := Array.getElem?_eq_none_iff.mp stands
      rw [Array.getElem?_eq_none_iff.mpr (by rwa [Array.size_modify]),
        Array.getElem?_eq_none_iff.mpr (by rwa [size_ofTriplets])]
    | some row =>
      have inside : position < matrix.rowCount := (Array.getElem?_eq_some_iff.mp stands).1
      have ascending := wellFormed.ascending row (Array.mem_of_getElem? stands)
      rw [rows_ofTriplets _ inside, List.filter_append, filter_toTriplets matrix stands,
        List.foldl_append, addTriplets_self ascending, Array.getElem?_modify]
      by_cases same : index = position
      · subst same
        rw [stands, Option.getD_some] at absent
        rw [if_pos rfl, stands, List.filter_singleton, decide_eq_true rfl, Option.map_some,
          insertEntry_of_absent absent]
        rfl
      · rw [if_neg same, stands, List.filter_singleton, decide_eq_false same]
        rfl
  rw [sameRows]
  rfl

end Triplets

end FiniteVolume.SparseMatrix
