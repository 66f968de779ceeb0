import FiniteVolume.Proofs.Kernel.Conservation
import FiniteVolume.Proofs.Kernel.Reading
import FiniteVolume.Proofs.Numeric.Evaluation
import FiniteVolume.Proofs.System.Assembly

/-!
# Conservative systems

A system assembled from odd integrands over the surfaces of control volumes loses and gains nothing:
every column of its matrix and its right-hand side sum to zero (`fluxes_conserved`). Each block of
such a kernel has opposite rows, so whatever it adds to one row of a column it takes from another
one.
-/

namespace FiniteVolume

open FiniteVolume.Expr

variable {α : Type}

section Blocks

variable [AddCommGroup α] {ends : Ends Nat} {block : EdgeBlock α} {count : Nat}

/-- The entries of a block with opposite rows sum to zero in every column. -/
theorem EdgeBlock.Balanced.sum_entry (balanced : block.Balanced id) (first : ends.first < count)
    (second : ends.second < count) (col : Nat) :
    ∑ row ∈ Finset.range count, block.entry ends row col = 0 := by
  have opposite := balanced.first
  have opposite' := balanced.second
  simp only [id_eq] at opposite opposite'
  simp only [EdgeBlock.entry, Finset.sum_add_distrib, ite_and, Finset.sum_ite_eq, Finset.mem_range,
    first, second, if_true, opposite, opposite']
  split_ifs <;> simp

/-- The constants of a balanced block cancel. -/
theorem EdgeBlock.Balanced.sum_constant (balanced : block.Balanced id) (first : ends.first < count)
    (second : ends.second < count) :
    ∑ vertex ∈ Finset.range count, block.constant ends vertex = 0 := by
  have opposite := balanced.affine
  simp only [id_eq] at opposite
  simp only [EdgeBlock.constant, Finset.sum_add_distrib, Finset.sum_ite_eq, Finset.mem_range, first,
    second, if_true, opposite, add_neg_cancel]

/-- Sums over all blocks of parts that each sum to zero. -/
theorem sum_map_eq_zero {β : Type} (rows : Finset Nat) {blocks : List β} {part : β → Nat → α}
    (each : ∀ block ∈ blocks, ∑ row ∈ rows, part block row = 0) :
    ∑ row ∈ rows, (blocks.map fun block => part block row).sum = 0 := by
  induction blocks with
  | nil => simp
  | cons block rest ih =>
    obtain ⟨first, later⟩ := List.forall_mem_cons.mp each
    simp only [List.map_cons, List.sum_cons, Finset.sum_add_distrib, first, ih later, add_zero]

end Blocks

namespace LinearSystem

variable [AddCommGroup α] [Arithmetic α] [ExactArithmetic α]

/-- The right-hand side of a contribution, vertex by vertex. -/
theorem rhs_of_ofContribution {count : Nat} {contribution : Contribution α}
    {system : LinearSystem α} (formed : ofContribution count contribution = .ok system) :
    system.rhs.toList = (List.range count).map contribution.rhsAt := by
  refine List.ext_getElem? fun vertex => ?_
  rw [Array.getElem?_toList, List.getElem?_map]
  by_cases inside : vertex < count
  · rw [(entry_of_ofContribution formed).2 vertex inside, List.getElem?_range inside]
    rfl
  · obtain ⟨rhs, adds, formed⟩ := Outcome.bind_eq_ok_iff.mp formed
    obtain ⟨_, -, same⟩ := Outcome.bind_eq_ok_iff.mp formed
    cases same
    rw [rhs_of_foldlM_addTo adds, Array.getElem?_replicate, if_neg inside,
      List.getElem?_eq_none (by rw [List.length_range]; omega)]
    rfl

end LinearSystem

variable {mesh : Mesh α} {stencil : Stencil}

section Values

/-- The coordinates of a vertex are what the symbols that locate it stand for. -/
theorem Mesh.Locates.eq_of_position {symbol : String → α} {kind : String} {vertex : Nat}
    {numbers : List α} (sameDim : mesh.dim = stencil.dim)
    (locates : mesh.Locates symbol kind vertex) (position : mesh.position vertex = .ok numbers) :
    numbers = (stencil.components kind).map symbol := by
  have related := mapM_eq_some_iff.mp (Outcome.ofLookup?_eq_ok_iff.mp position)
  refine List.ext_getElem? fun index => ?_
  rw [List.getElem?_map, Stencil.components, List.getElem?_map]
  by_cases inside : index < mesh.dim
  · have stands : mesh.coords.rows.toList[index]? = some mesh.coords.rows[index] := by
      rw [Array.getElem?_toList, Array.getElem?_eq_getElem inside]
    obtain ⟨number, standsNumber, looked⟩ := exists_getElem?_of_forall₂ related stands
    rw [standsNumber, List.getElem?_range (sameDim ▸ inside), ← looked,
      locates index _ (Array.getElem?_eq_getElem inside)]
    rfl
  · rw [List.getElem?_eq_none (by rw [Mesh.length_of_position position]; omega),
      List.getElem?_eq_none (by rw [List.length_range]; omega)]
    rfl

/-- The numbers of an edge are what the symbols that stand for its quantities stand for. -/
theorem Mesh.OnEdge.eq_of_edgeNumbers {symbol : String → α} {edge : Nat} {ends : Ends Nat}
    {numbers : List α} (sameDim : mesh.dim = stencil.dim) (onEdge : mesh.OnEdge symbol edge ends)
    (isNumbers : mesh.EdgeNumbers edge numbers) : numbers = stencil.edgeParams.map symbol := by
  obtain ⟨pair, first, second, ratio, length, joins, positionFirst, positionSecond, lookedRatio,
    lookedLength, rfl⟩ := isNumbers
  cases joins.symm.trans onEdge.joins
  cases lookedRatio.symm.trans onEdge.ratio
  cases lookedLength.symm.trans onEdge.length
  rw [onEdge.first.eq_of_position sameDim positionFirst,
    onEdge.second.eq_of_position sameDim positionSecond, Stencil.edgeParams, List.map_append,
    List.map_append]
  rfl

/-- An edge has as many numbers as its kernel has parameters. -/
theorem Mesh.EdgeNumbers.length {edge : Nat} {numbers : List α}
    (isNumbers : mesh.EdgeNumbers edge numbers) : numbers.length = 2 * mesh.dim + 2 := by
  obtain ⟨pair, first, second, ratio, length, -, positionFirst, positionSecond, -, -, rfl⟩ :=
    isNumbers
  rw [List.length_append, List.length_append, Mesh.length_of_position positionFirst,
    Mesh.length_of_position positionSecond, Nat.two_mul]
  rfl

variable [Arithmetic α]

/-- The block at an edge consists of the coefficients on the numbers of the edge. -/
theorem EdgeBlock.at_cases {block : EdgeBlock (NumericFunction α)} {edge : Nat} {ends : Ends Nat}
    {values : EdgeBlock α} (gives : block.at mesh edge = .ok (ends, values)) :
    mesh.edges[edge]? = some ends ∧ ∃ numbers, mesh.EdgeNumbers edge numbers ∧
      block.mapM (fun coefficient : NumericFunction α => coefficient.valueAt numbers) =
        .ok values := by
  obtain ⟨pair, lookedPair, gives⟩ := Outcome.bind_eq_ok_iff.mp gives
  obtain ⟨first, positionFirst, gives⟩ := Outcome.bind_eq_ok_iff.mp gives
  obtain ⟨second, positionSecond, gives⟩ := Outcome.bind_eq_ok_iff.mp gives
  obtain ⟨ratio, lookedRatio, gives⟩ := Outcome.bind_eq_ok_iff.mp gives
  obtain ⟨length, lookedLength, gives⟩ := Outcome.bind_eq_ok_iff.mp gives
  obtain ⟨results, formed, same⟩ := Outcome.bind_eq_ok_iff.mp gives
  cases same
  rw [Outcome.ofLookup?_eq_ok_iff] at lookedPair lookedRatio lookedLength
  exact ⟨lookedPair, _, ⟨ends, first, second, ratio, length, lookedPair, positionFirst,
    positionSecond, lookedRatio, lookedLength, rfl⟩, formed⟩

/-- A function has values on as many numbers as it has parameters only. -/
theorem NumericFunction.length_of_valueAt {function : NumericFunction α} {numbers : List α}
    {value : α} (gives : function.valueAt numbers = .ok value) :
    numbers.length = function.params.length := by
  obtain ⟨results, evaluates, -⟩ := Outcome.bind_eq_ok_iff.mp gives
  obtain ⟨result, evaluates, -⟩ := Outcome.bind_eq_ok_iff.mp evaluates
  unfold eval at evaluates
  split at evaluates
  · rename_i fits
    rwa [List.length_map] at fits
  · obtain ⟨text, -, rejected⟩ := Outcome.bind_eq_ok_iff.mp evaluates
    exact absurd rejected (Outcome.reject_ne_ok _ _)

/-- Binding symbols to what they stand for changes nothing. -/
theorem Expr.Interpretation.bind_self {K : Type*} (reading : Interpretation K)
    (names : List String) :
    reading.bind (names.zip (names.map reading.symbol)) = reading := by
  have symbols : (reading.bind (names.zip (names.map reading.symbol))).symbol = reading.symbol := by
    funext name
    rw [Interpretation.bind_symbol]
    induction names with
    | nil => rfl
    | cons first rest ih =>
      rw [List.map_cons, List.zip_cons_cons, List.lookup_cons]
      split
      · rename_i same
        rw [beq_iff_eq.mp same]
        rfl
      · exact ih
  unfold Interpretation.bind at symbols ⊢
  dsimp only at symbols
  rw [symbols]

variable [Field α] [FieldArithmetic α]

/-- On the numbers that its parameters stand for, a compiled function has the value of its
expression. -/
theorem NumericFunction.valueAt_compiled {params : List String} {e : Expr}
    {function : NumericFunction α} {reading : Interpretation α} {value : α}
    (compiled : compile params e = .ok function)
    (known : ∀ function value,
      reading.call (.named function.name) [value] = Arithmetic.pointwise function value)
    (gives : function.valueAt (params.map reading.symbol) = .ok value) :
    value = e.valueIn reading := by
  obtain ⟨root, compiledRoot, -, rfl⟩ := compile_eq_ok_iff.mp compiled
  have evaluates := Node.eval_compiled compiledRoot (List.length_map reading.symbol) known
  rw [Interpretation.bind_self] at evaluates
  rw [valueAt, evalBatch, eval, if_pos (by rw [List.length_map, List.length_map]), evaluates]
    at gives
  exact (Except.ok.inj gives).symm

/-- The block of a compiled edge kernel at an edge has the values of its coefficients there. -/
theorem EdgeBlock.Balanced.at {exprs : EdgeBlock Expr} {block : EdgeBlock (NumericFunction α)}
    {edge : Nat} {ends : Ends Nat} {values : EdgeBlock α} {reading : Interpretation α}
    (balanced : exprs.Balanced (valueIn reading))
    (compiled : exprs.mapM (NumericFunction.compile stencil.edgeParams) = .ok block)
    (known : ∀ function value,
      reading.call (.named function.name) [value] = Arithmetic.pointwise function value)
    (onEdge : ∀ ends, mesh.edges[edge]? = some ends → mesh.OnEdge reading.symbol edge ends)
    (gives : block.at mesh edge = .ok (ends, values)) : values.Balanced id := by
  obtain ⟨joins, numbers, isNumbers, evaluates⟩ := at_cases gives
  simp only [mapM_eq_ok_iff, coefficients, List.forall₂_cons] at compiled evaluates
  obtain ⟨c00, c01, c10, c11, a0, a1, -⟩ := compiled
  obtain ⟨v00, v01, v10, v11, w0, w1, -⟩ := evaluates
  have sameDim : mesh.dim = stencil.dim := by
    obtain ⟨root, -, -, same⟩ := NumericFunction.compile_eq_ok_iff.mp c00
    have params := NumericFunction.length_of_valueAt v00
    rw [isNumbers.length, same] at params
    have count : 2 * mesh.dim + 2 = 2 * stencil.dim + 2 :=
      params.trans Stencil.length_edgeParams
    omega
  have named := (onEdge ends joins).eq_of_edgeNumbers sameDim isNumbers
  rw [named] at v00 v01 v10 v11 w0 w1
  refine ⟨?_, ?_, ?_⟩ <;> simp only [id_eq]
  · rw [NumericFunction.valueAt_compiled c10 known v10,
      NumericFunction.valueAt_compiled c00 known v00, balanced.first]
  · rw [NumericFunction.valueAt_compiled c11 known v11,
      NumericFunction.valueAt_compiled c01 known v01, balanced.second]
  · rw [NumericFunction.valueAt_compiled a1 known w1, NumericFunction.valueAt_compiled a0 known w0,
      balanced.affine]

end Values

section Assembly

variable [Arithmetic α]

/-- A reading of the quantities of an edge in which all pointwise functions are read as they are
computed. -/
structure Mesh.ReadsEdge [Field α] (mesh : Mesh α) (edge : Nat) (ends : Ends Nat)
    (reading : Interpretation α) : Prop where
  onEdge : mesh.OnEdge reading.symbol edge ends
  known : ∀ function value,
    reading.call (.named function.name) [value] = Arithmetic.pointwise function value

/-- The blocks of edge kernels alone, each at an edge of the mesh. -/
theorem KernelSet.blocks_of_edge {kernels : KernelSet (NumericFunction α)} {blocks : KernelBlocks α}
    (noVertex : kernels.vertex = []) (noFace : kernels.face = [])
    (gives : kernels.toLinear.blocks mesh = .ok blocks) :
    blocks.point = [] ∧ ∀ pair ∈ blocks.edge, ∃ kernel ∈ kernels.edge, ∃ edge,
      kernel.block.at mesh edge = .ok pair := by
  obtain ⟨edge, givesEdge, gives⟩ := Outcome.bind_eq_ok_iff.mp gives
  obtain ⟨vertex, givesVertex, gives⟩ := Outcome.bind_eq_ok_iff.mp gives
  obtain ⟨face, givesFace, same⟩ := Outcome.bind_eq_ok_iff.mp gives
  cases same
  rw [toLinear, noVertex] at givesVertex
  rw [toLinear, noFace] at givesFace
  cases givesVertex
  cases givesFace
  refine ⟨rfl, fun pair member => ?_⟩
  obtain ⟨inKernel, isInKernel, member⟩ := List.mem_flatten.mp member
  obtain ⟨onEach, isOnEach, isInKernel⟩ := List.mem_flatten.mp isInKernel
  obtain ⟨_, paired, givesKernel⟩ :=
    exists_mem_zip_of_forall₂ (Outcome.mapM_eq_ok_iff.mp givesEdge).flip isOnEach
  obtain ⟨kernel, isKernel, rfl⟩ := List.mem_map.mp (List.of_mem_zip paired).2
  obtain ⟨subdomain, -, givesBlocks⟩ :=
    exists_mem_zip_of_forall₂ (Outcome.mapM_eq_ok_iff.mp givesKernel).flip isInKernel
  obtain ⟨edges, -, givesBlocks⟩ := EdgeKernel.blocksOn_ofCompiled givesBlocks
  obtain ⟨edge, -, givesPair⟩ :=
    exists_mem_zip_of_forall₂ (Outcome.mapM_eq_ok_iff.mp givesBlocks).flip member
  exact ⟨kernel, isKernel, edge, givesPair⟩

/-- Where there are no sources, nothing has a source. -/
theorem eq_nil_of_sources {β γ : Type} {sources : List β} {results : List γ}
    {related : β → γ → Prop} (none : sources = [])
    (each : ∀ result ∈ results, ∃ source ∈ sources, related source result) : results = [] := by
  subst none
  refine List.eq_nil_iff_forall_not_mem.mpr fun result member => ?_
  obtain ⟨source, inside, -⟩ := each result member
  exact List.not_mem_nil inside

variable {K : Type*} [Field K] [CharZero K] [Field α] [CharZero α] [FieldArithmetic α]

omit [CharZero α] in
/-- The blocks of compiled kernels with opposite rows on every edge have opposite rows, at vertices
of the mesh. -/
theorem KernelSet.balanced_blocks {exprs : KernelSet Expr}
    {kernels : KernelSet (NumericFunction α)} {blocks : KernelBlocks α}
    (wellFormed : mesh.WellFormed)
    (balanced : ∀ kernel ∈ exprs.edge, ∀ edge ends, mesh.edges[edge]? = some ends →
      ∃ reading, mesh.ReadsEdge edge ends reading ∧ kernel.block.Balanced (valueIn reading))
    (noVertex : exprs.vertex = []) (noFace : exprs.face = [])
    (compiled : exprs.compile stencil = .ok kernels)
    (gives : kernels.toLinear.blocks mesh = .ok blocks) :
    blocks.point = [] ∧ ∀ pair ∈ blocks.edge, pair.2.Balanced id ∧
      pair.1.first < mesh.vertexCount ∧ pair.1.second < mesh.vertexCount := by
  obtain ⟨sourceEdge, sourceVertex, sourceFace, -⟩ := KernelSet.exists_source compiled
  obtain ⟨noPoint, atEdges⟩ := KernelSet.blocks_of_edge (eq_nil_of_sources noVertex sourceVertex)
    (eq_nil_of_sources noFace sourceFace) gives
  refine ⟨noPoint, fun pair member => ?_⟩
  obtain ⟨kernel, isKernel, edge, givesPair⟩ := atEdges pair member
  obtain ⟨source, isSource, compiledBlock⟩ := sourceEdge kernel isKernel
  obtain ⟨joins, -⟩ := EdgeBlock.at_cases givesPair
  obtain ⟨reading, reads, isBalanced⟩ := balanced source isSource edge _ joins
  refine ⟨isBalanced.at compiledBlock reads.known (fun ends joins' => ?_) givesPair,
    wellFormed.ends _ (Array.mem_of_getElem? joins)⟩
  cases joins.symm.trans joins'
  exact reads.onEdge

/-- The contributions of an odd integrand to the endpoints of an edge are opposite wherever the
integrand does not divide by zero and its contributions are split off regularly. So all columns of
a system that is assembled from such integrands alone, on a mesh with such quantities, sum to zero,
and so does its right-hand side. -/
theorem fluxes_conserved (positive : 0 < stencil.dim) :
    (∀ (reading : Interpretation K) (integrand : Integrand) (e : Expr) (block : EdgeBlock Expr),
      stencil.Flux reading integrand e block →
      (∀ contribution, stencil.forwardContribution integrand = .ok contribution →
        Stencil.SplitsRegularly reading contribution
          [block.linear.first.first, block.linear.first.second]) →
      (∀ contribution, stencil.backwardContribution integrand = .ok contribution →
        Stencil.SplitsRegularly reading contribution
          [block.linear.second.first, block.linear.second.second]) →
      block.Balanced (valueIn reading)) ∧
    ∀ (mesh : Mesh α) (exprs : KernelSet Expr) (kernels : KernelSet (NumericFunction α))
      (system : LinearSystem α), mesh.Built →
      exprs.vertex = [] → exprs.face = [] → exprs.dirichlet = [] →
      (∀ kernel ∈ exprs.edge, ∀ edge ends, mesh.edges[edge]? = some ends →
        ∃ (reading : Interpretation α) (integrand : Integrand) (e : Expr),
          mesh.ReadsEdge edge ends reading ∧ stencil.Flux reading integrand e kernel.block ∧
          (∀ contribution, stencil.forwardContribution integrand = .ok contribution →
            Stencil.SplitsRegularly reading contribution
              [kernel.block.linear.first.first, kernel.block.linear.first.second]) ∧
          ∀ contribution, stencil.backwardContribution integrand = .ok contribution →
            Stencil.SplitsRegularly reading contribution
              [kernel.block.linear.second.first, kernel.block.linear.second.second]) →
      exprs.compile stencil = .ok kernels →
      LinearSystem.assemble mesh kernels.toLinear = .ok system →
      (∀ col, ∑ row ∈ Finset.range mesh.vertexCount, system.matrix.entry row col = 0) ∧
        system.rhs.toList.sum = 0 := by
  refine ⟨fun reading integrand e block flux => flux.balanced positive, ?_⟩
  intro mesh exprs kernels system built noVertex noFace noDirichlet carries compiled formed
  have balancedKernels : ∀ kernel ∈ exprs.edge, ∀ edge ends, mesh.edges[edge]? = some ends →
      ∃ reading, mesh.ReadsEdge edge ends reading ∧ kernel.block.Balanced (valueIn reading) := by
    intro kernel isKernel edge ends joins
    obtain ⟨reading, integrand, e, reads, flux, forward, backward⟩ :=
      carries kernel isKernel edge ends joins
    exact ⟨reading, reads, flux.balanced positive forward backward⟩
  obtain ⟨-, -, -, sourceDirichlet⟩ := KernelSet.exists_source compiled
  obtain ⟨contributions, contributes, formed⟩ := Outcome.bind_eq_ok_iff.mp formed
  obtain ⟨start, sums, enforced⟩ := Outcome.bind_eq_ok_iff.mp formed
  have sameSystem : start = system := by
    rw [KernelSet.toLinear, eq_nil_of_sources noDirichlet sourceDirichlet] at enforced
    exact Except.ok.inj enforced
  subst sameSystem
  obtain ⟨blocks, gives, entry, rhs⟩ := LinearKernels.contributions_blocks contributes
  obtain ⟨noPoint, balanced⟩ :=
    KernelSet.balanced_blocks built.wellFormed balancedKernels noVertex noFace compiled gives
  constructor
  · intro col
    simp only [(LinearSystem.entry_of_ofContribution sums).1, entry, KernelBlocks.entry, noPoint,
      List.map_nil, List.sum_nil, add_zero]
    refine sum_map_eq_zero _ fun pair member => ?_
    obtain ⟨isBalanced, first, second⟩ := balanced pair member
    exact isBalanced.sum_entry first second col
  · have total : ∑ vertex ∈ Finset.range mesh.vertexCount, blocks.constant vertex = 0 := by
      simp only [KernelBlocks.constant, noPoint, List.map_nil, List.sum_nil, add_zero]
      refine sum_map_eq_zero _ fun pair member => ?_
      obtain ⟨isBalanced, first, second⟩ := balanced pair member
      exact isBalanced.sum_constant first second
    rw [LinearSystem.rhs_of_ofContribution sums, funext rhs, sum_map_neg]
    exact neg_eq_zero.mpr total

end Assembly

/-- A rod of two edges of different lengths. -/
def Mesh.rod : Mesh ℚ where
  coords := { rows := #[#[0, 1, 3]], count := 3, size_eq := by simp }
  edges := #[⟨0, 1⟩, ⟨1, 2⟩]
  ratios := #[1, 1 / 2]
  lengths := #[1, 2]
  volumes := #[1 / 2, 3 / 2, 1]

/-- The quantities of an edge on the line. -/
def Mesh.lineReading (first second ratio length : ℚ) : Interpretation ℚ where
  symbol name :=
    if name = "x0_0" then first else if name = "x1_0" then second
    else if name = "edge_ce_ratio" then ratio else length
  vector _ := 0
  call _ values := values.headD 0

/-- The edges of a rod have the quantities of edges on the line. -/
theorem Mesh.onEdge_rod {edge : Nat} {ends : Ends Nat} (joins : Mesh.rod.edges[edge]? = some ends) :
    ∃ first second ratio length : ℚ, length ≠ 0 ∧
      Mesh.rod.OnEdge (lineReading first second ratio length).symbol edge ends := by
  have locates : ∀ (symbol : String → ℚ) (kind : String) (vertex : Nat),
      #[(0 : ℚ), 1, 3][vertex]? = some (symbol (kind ++ "_" ++ toString 0)) →
      Mesh.rod.Locates symbol kind vertex := by
    intro symbol kind vertex located index row stands
    match index with
    | 0 =>
      cases stands
      exact located
    | index + 1 => cases stands
  match edge with
  | 0 =>
    cases joins
    exact ⟨0, 1, 1, 1, by decide, rfl, locates _ _ _ (by decide +kernel),
      locates _ _ _ (by decide +kernel), by decide +kernel, by decide +kernel⟩
  | 1 =>
    cases joins
    exact ⟨1, 3, 1 / 2, 2, by decide, rfl, locates _ _ _ (by decide +kernel),
      locates _ _ _ (by decide +kernel), by decide +kernel, by decide +kernel⟩
  | edge + 2 => cases joins

namespace Stencil

/-- Conduction along the line, with a conductance that grows with the position. -/
def conduction : Expr :=
  .mul [.sym "x_0", .call .normalDerivative [line.field.sample line.point]]

/-- The edge block of conduction along the line. -/
def conductionBlock : EdgeBlock Expr :=
  let flux (factor : Rat) : Expr := .add [.mul [.num factor, .sym "edge_ce_ratio", .sym "x0_0"],
    .mul [.num factor, .sym "edge_ce_ratio", .sym "x1_0"]]
  ⟨⟨⟨flux (-1 / 2), flux (1 / 2)⟩, ⟨flux (1 / 2), flux (-1 / 2)⟩⟩, ⟨.num 0, .num 0⟩⟩

/-- The flux of heat conduction changes its sign with the direction. -/
theorem oddAt_conduction (reading : Interpretation ℚ) : line.OddAt reading conduction := by
  intro other _ _ _ _
  have sample : (line.field.sample line.point).valueIn (line.reflected other) =
      (line.field.sample line.point).valueIn other := by
    refine (alike_reflected ?_ ?_).valueIn
    · decide +kernel
    · simp [ScalarField.sample, ScalarField.valueAt, apply, line, point, Point.position,
        coordSymbols, components, subterms, subtermsOfAll]
  have coord : (Expr.sym "x_0").valueIn (line.reflected other) =
      (Expr.sym "x_0").valueIn other := by
    refine (alike_reflected ?_ ?_).valueIn
    · decide +kernel
    · simp [subterms]
  have derivative : ∀ values, (line.reflected other).call .normalDerivative values =
      -other.call .normalDerivative values := fun values => by simp [reflected]
  rw [conduction, valueIn_mul, valueIn_mul]
  simp only [List.map_cons, List.map_nil, List.prod_cons, List.prod_nil, mul_one,
    valueIn_call_of_ne (show Head.normalDerivative ≠ .dot by simp), coord, sample, derivative,
    mul_neg]

/-- Conduction divides by the length of the edge only. -/
theorem flux_conduction {reading : Interpretation ℚ} (length : reading.symbol edgeLength ≠ 0) :
    line.Flux reading (fun _ => pure conduction) conduction conductionBlock := by
  have powerless : ∀ ofBase, conduction.NegativeBases ofBase := by
    simp [conduction, NegativeBases, subterms, subtermsOfAll, ScalarField.sample,
      ScalarField.valueAt, apply, line, point, Point.position, coordSymbols, components]
  exact {
    evaluates := rfl
    isFlux := ⟨.mul (forall_mem_pair ⟨.sym ⟨by decide +kernel, by decide +kernel⟩,
      .sample (Or.inr ⟨rfl, rfl⟩)⟩), by decide +kernel, by decide +kernel, powerless _⟩
    formed := by decide +kernel
    odd := oddAt_conduction reading
    length := length
    forward := powerless _
    backward := powerless _ }

/-- The coefficients of conduction divide by nothing. -/
theorem defined_conductionBlock (reading : Interpretation ℚ) :
    ∀ row ∈ [conductionBlock.linear.first, conductionBlock.linear.second],
      ∀ coefficient ∈ [row.first, row.second], coefficient.Defined reading := by
  simp [conductionBlock, Defined, NegativeBases, subterms, subtermsOfAll]

end Stencil

/-- Conduction along a rod. -/
theorem fluxes_conserved_rod :
    ∃ (kernels : KernelSet (NumericFunction ℚ)) (system : LinearSystem ℚ),
      KernelSet.compile ⟨[⟨Stencil.conductionBlock, [.everywhere]⟩], [], [], []⟩ Stencil.line =
        .ok kernels ∧
      LinearSystem.assemble Mesh.rod kernels.toLinear = .ok system ∧
      (∀ first second ratio length, length ≠ 0 →
        Stencil.conductionBlock.Balanced (valueIn (Mesh.lineReading first second ratio length))) ∧
      system.matrix.entry 1 1 = -3 / 2 ∧
      (∀ col, ∑ row ∈ Finset.range 3, system.matrix.entry row col = 0) ∧
      system.rhs.toList.sum = 0 := by
  have results : ((KernelSet.compile ⟨[⟨Stencil.conductionBlock, [.everywhere]⟩], [], [], []⟩
      Stencil.line >>= fun kernels : KernelSet (NumericFunction ℚ) =>
        LinearSystem.assemble Mesh.rod kernels.toLinear).map fun system =>
          system.matrix.entry 1 1) = .ok (-3 / 2) := by
    decide +kernel
  obtain ⟨system, assembled, entry⟩ := Outcome.map_eq_ok_iff.mp results
  obtain ⟨kernels, compiled, assembled⟩ := Outcome.bind_eq_ok_iff.mp assembled
  have built : Mesh.rod.Built := .build (show Mesh.build Mesh.rod.coords Mesh.rod.edges
    Mesh.rod.ratios Mesh.rod.lengths Mesh.rod.volumes = .ok Mesh.rod from rfl)
  have regular : ∀ reading, ∀ row ∈ [Stencil.conductionBlock.linear.first,
      Stencil.conductionBlock.linear.second], ∀ contribution : Expr,
      Stencil.SplitsRegularly reading contribution [row.first, row.second] :=
    fun reading row member _ => Or.inr (Stencil.defined_conductionBlock reading row member)
  obtain ⟨balanced, conserved⟩ := @fluxes_conserved ℚ Stencil.line _ ℚ _ _ _ _ _ (by decide)
  obtain ⟨columns, rhs⟩ := conserved Mesh.rod
    ⟨[⟨Stencil.conductionBlock, [.everywhere]⟩], [], [], []⟩ kernels system built rfl rfl rfl
    (List.forall_mem_singleton.mpr fun edge ends joins => by
      obtain ⟨first, second, ratio, length, nonzero, onEdge⟩ := Mesh.onEdge_rod joins
      exact ⟨_, _, _, ⟨onEdge, fun _ _ => rfl⟩, Stencil.flux_conduction nonzero,
        fun contribution _ => regular _ _ (by simp) contribution,
        fun contribution _ => regular _ _ (by simp) contribution⟩) compiled assembled
  refine ⟨kernels, system, compiled, assembled, fun first second ratio length nonzero => ?_, entry,
    columns, rhs⟩
  exact balanced _ _ _ _ (Stencil.flux_conduction nonzero)
    (fun contribution _ => regular _ _ (by simp) contribution)
    fun contribution _ => regular _ _ (by simp) contribution

end FiniteVolume
