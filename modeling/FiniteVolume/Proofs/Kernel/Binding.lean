import FiniteVolume.Proofs.Kernel.Discretized
import FiniteVolume.Proofs.Mesh.Built
import FiniteVolume.Proofs.Numeric.Scope
import FiniteVolume.Proofs.Stencil.Names

/-!
# Parameters of kernels on a mesh

Compiled kernels bind every parameter to the quantity of the mesh that its symbol stands for
(`EdgeBlock.reads`, `PointBlock.readsVertices`, `PointBlock.readsFaces`, `DirichletBlock.reads`).
The numbers that evaluation gathers for an entity stand in the order of the parameters of the
stencil, and parameters have different names, so the numbers are the values of an assignment to
names.
-/

namespace FiniteVolume

variable {α : Type}

namespace Mesh

/-- The symbols of the components of a vector stand for the coordinates of a vertex. -/
def Locates (mesh : Mesh α) (symbol : String → α) (kind : String) (vertex : Nat) : Prop :=
  ∀ (index : Nat) (row : Array α), mesh.coords.rows[index]? = some row →
    row[vertex]? = some (symbol (kind ++ "_" ++ toString index))

/-- Symbols stand for the quantities of an edge with given endpoints. -/
structure OnEdge (mesh : Mesh α) (symbol : String → α) (edge : Nat) (ends : Ends Nat) : Prop where
  joins : mesh.edges[edge]? = some ends
  first : mesh.Locates symbol "x0" ends.first
  second : mesh.Locates symbol "x1" ends.second
  ratio : mesh.ratios[edge]? = some (symbol "edge_ce_ratio")
  length : mesh.lengths[edge]? = some (symbol "edge_length")

/-- Symbols stand for the quantities of a vertex. -/
structure AtVertex (mesh : Mesh α) (symbol : String → α) (vertex : Nat) : Prop where
  volume : mesh.volumes[vertex]? = some (symbol "control_volume")
  coords : mesh.Locates symbol "x" vertex

/-- Symbols stand for the quantities of a boundary face with a given owner. -/
structure OnFace (mesh : Mesh α) (symbol : String → α) (face owner : Nat) : Prop where
  belongs : mesh.owners[face]? = some owner
  area : mesh.areas[face]? = some (symbol "surface_area")
  coords : mesh.Locates symbol "x" owner

/-- Different names can stand for any numbers. -/
theorem exists_symbol [Nonempty α] {params : List String} {numbers : List α}
    (nodup : params.Nodup) (sameLength : numbers.length = params.length) :
    ∃ symbol : String → α, params.map symbol = numbers := by
  induction params generalizing numbers with
  | nil =>
    rw [List.length_eq_zero_iff.mp sameLength]
    exact ⟨fun _ => Classical.arbitrary α, rfl⟩
  | cons param rest ih =>
    cases numbers with
    | nil => cases sameLength
    | cons number numbers =>
      obtain ⟨absent, nodup⟩ := List.nodup_cons.mp nodup
      obtain ⟨symbol, named⟩ := ih nodup (Nat.succ.inj sameLength)
      refine ⟨Function.update symbol param number, ?_⟩
      have others : ∀ name ∈ rest, Function.update symbol param number name = symbol name := by
        rintro name member
        refine Function.update_of_ne ?_ _ _
        rintro rfl
        exact absent member
      rw [List.map_cons, Function.update_self, List.map_congr_left others, named]

variable {mesh : Mesh α} {stencil : Stencil}

/-- Symbols that stand for the coordinates of a vertex in their order locate it. -/
theorem locates_of_position {symbol : String → α} {kind : String} {vertex : Nat} {numbers : List α}
    (sameDim : mesh.dim = stencil.dim) (position : mesh.position vertex = .ok numbers)
    (named : (stencil.components kind).map symbol = numbers) :
    mesh.Locates symbol kind vertex := by
  intro index row stands
  have inRange : index < stencil.dim := by
    rw [← sameDim]
    exact (Array.getElem?_eq_some_iff.mp stands).1
  obtain ⟨number, standsNumber, looked⟩ := exists_getElem?_of_forall₂
    (mapM_eq_some_iff.mp (Outcome.ofLookup?_eq_ok_iff.mp position))
    (by rw [Array.getElem?_toList]; exact stands)
  rw [← named, List.getElem?_map, Stencil.components, List.getElem?_map,
    List.getElem?_range inRange] at standsNumber
  rw [looked, ← standsNumber]
  rfl

/-- A position has one number for each dimension. -/
theorem length_of_position {vertex : Nat} {numbers : List α}
    (position : mesh.position vertex = .ok numbers) : numbers.length = mesh.dim := by
  rw [← (mapM_eq_some_iff.mp (Outcome.ofLookup?_eq_ok_iff.mp position)).length_eq,
    Array.length_toList]
  rfl

/-- Arguments for some entities: at the position of an entity stand its numbers. -/
structure Arguments (args : List (Quantity α)) (entities : List Nat)
    (numbers : Nat → List α → Prop) : Prop where
  fit : ∀ arg ∈ args, arg.Fits entities.length
  selects : ∀ position entity : Nat, entities[position]? = some entity → ∃ values,
    numbers entity values ∧
      List.Forall₂ (Quantity.Selects entities.length position) args values

/-- The coordinates of vertices that exist, as arguments. -/
theorem exists_coordinates {vertices : List Nat}
    (inRange : ∀ vertex ∈ vertices, vertex < mesh.vertexCount) :
    ∃ coords, mesh.coordsOf vertices = .ok coords ∧ coords.length = mesh.dim ∧
      Arguments (coords.map Quantity.batch) vertices
        fun vertex numbers => mesh.position vertex = .ok numbers := by
  obtain ⟨coords, gathers, rows, complete⟩ := exists_coordsOf inRange
  refine ⟨coords, gathers, rows, fun arg member => ?_, fun position vertex stands =>
    selects_of_coordsOf gathers stands⟩
  obtain ⟨row, inside, rfl⟩ := List.mem_map.mp member
  exact complete row inside

/-- The numbers that an edge has for the parameters of its coefficients. -/
def EdgeNumbers (mesh : Mesh α) (edge : Nat) (numbers : List α) : Prop :=
  ∃ (ends : Ends Nat) (first second : List α) (ratio length : α),
    mesh.edges[edge]? = some ends ∧ mesh.position ends.first = .ok first ∧
      mesh.position ends.second = .ok second ∧ mesh.ratios[edge]? = some ratio ∧
      mesh.lengths[edge]? = some length ∧ numbers = first ++ second ++ [ratio, length]

/-- The arguments of edge coefficients at edges that exist. -/
theorem WellFormed.exists_edgeArguments (wellFormed : mesh.WellFormed) {edges : List Nat}
    (inRange : ∀ edge ∈ edges, edge < mesh.edges.size) :
    ∃ ends first second ratios lengths, gather mesh.edges edges = .ok ends ∧
      mesh.coordsOf (ends.map Ends.first) = .ok first ∧
      mesh.coordsOf (ends.map Ends.second) = .ok second ∧
      gather mesh.ratios edges = .ok ratios ∧ gather mesh.lengths edges = .ok lengths ∧
      (first ++ second ++ [ratios.toArray, lengths.toArray]).length = 2 * mesh.dim + 2 ∧
      Arguments ((first ++ second ++ [ratios.toArray, lengths.toArray]).map .batch) edges
        mesh.EdgeNumbers := by
  obtain ⟨ends, gathersEnds, exist⟩ := exists_gather inRange
  have count : ends.length = edges.length := length_of_gather gathersEnds
  have countFirst : (ends.map Ends.first).length = edges.length := by rw [List.length_map, count]
  have countSecond : (ends.map Ends.second).length = edges.length := by rw [List.length_map, count]
  have inFirst : ∀ vertex ∈ ends.map Ends.first, vertex < mesh.vertexCount := by
    intro vertex member
    obtain ⟨pair, inside, rfl⟩ := List.mem_map.mp member
    exact (wellFormed.ends pair (exist pair inside)).1
  have inSecond : ∀ vertex ∈ ends.map Ends.second, vertex < mesh.vertexCount := by
    intro vertex member
    obtain ⟨pair, inside, rfl⟩ := List.mem_map.mp member
    exact (wellFormed.ends pair (exist pair inside)).2
  obtain ⟨first, gathersFirst, rowsFirst, argumentsFirst⟩ := exists_coordinates inFirst
  obtain ⟨second, gathersSecond, rowsSecond, argumentsSecond⟩ := exists_coordinates inSecond
  have inRatios := inRange
  rw [← wellFormed.ratios] at inRatios
  have inLengths := inRange
  rw [← wellFormed.lengths] at inLengths
  obtain ⟨ratios, gathersRatios, -⟩ := exists_gather inRatios
  obtain ⟨lengths, gathersLengths, -⟩ := exists_gather inLengths
  refine ⟨ends, first, second, ratios, lengths, gathersEnds, gathersFirst, gathersSecond,
    gathersRatios, gathersLengths, ?_, ?_, ?_⟩
  · rw [List.length_append, List.length_append, rowsFirst, rowsSecond, List.length_cons,
      List.length_singleton, Nat.two_mul]
  · intro arg member
    rw [List.map_append, List.map_append, List.mem_append, List.mem_append] at member
    rcases member with (inside | inside) | inside
    · exact countFirst ▸ argumentsFirst.fit arg inside
    · exact countSecond ▸ argumentsSecond.fit arg inside
    · rcases List.mem_cons.mp inside with rfl | inside
      · exact length_of_gather gathersRatios
      · rw [List.mem_singleton.mp inside]
        exact length_of_gather gathersLengths
  · intro position edge stands
    obtain ⟨pair, standsPair, joins⟩ := gather_getElem? gathersEnds stands
    obtain ⟨numbersFirst, positionFirst, selectsFirst⟩ :=
      argumentsFirst.selects position pair.first (by rw [List.getElem?_map, standsPair]; rfl)
    obtain ⟨numbersSecond, positionSecond, selectsSecond⟩ :=
      argumentsSecond.selects position pair.second (by rw [List.getElem?_map, standsPair]; rfl)
    obtain ⟨ratio, lookedRatio, selectsRatio⟩ := selects_of_gather gathersRatios stands
    obtain ⟨length, lookedLength, selectsLength⟩ := selects_of_gather gathersLengths stands
    rw [countFirst] at selectsFirst
    rw [countSecond] at selectsSecond
    refine ⟨_, ⟨pair, numbersFirst, numbersSecond, ratio, length, joins, positionFirst,
      positionSecond, lookedRatio, lookedLength, rfl⟩, ?_⟩
    rw [List.map_append, List.map_append]
    exact List.rel_append (List.rel_append selectsFirst selectsSecond)
      (.cons selectsRatio (.cons selectsLength .nil))

/-- The numbers that an entity has for the parameters of its point coefficients: its size and the
coordinates of the vertex that it belongs to. -/
def PointNumbers (mesh : Mesh α) (sizes : Array α) (belongs : Nat → Nat → Prop) (entity : Nat)
    (numbers : List α) : Prop :=
  ∃ (vertex : Nat) (size : α) (coords : List α), belongs entity vertex ∧
    sizes[entity]? = some size ∧ mesh.position vertex = .ok coords ∧ numbers = size :: coords

/-- The arguments of point coefficients for entities of given sizes at vertices that exist. -/
theorem exists_pointArguments {sizes : Array α} {entities vertices : List Nat} {weights : List α}
    {belongs : Nat → Nat → Prop} (gathersWeights : gather sizes entities = .ok weights)
    (count : vertices.length = entities.length)
    (inRange : ∀ vertex ∈ vertices, vertex < mesh.vertexCount)
    (belong : ∀ position entity : Nat, entities[position]? = some entity →
      ∃ vertex, vertices[position]? = some vertex ∧ belongs entity vertex) :
    ∃ coords, mesh.coordsOf vertices = .ok coords ∧
      (weights.toArray :: coords).length = mesh.dim + 1 ∧
      Arguments ((weights.toArray :: coords).map .batch) entities
        (mesh.PointNumbers sizes belongs) := by
  obtain ⟨coords, gathers, rows, arguments⟩ := exists_coordinates inRange
  refine ⟨coords, gathers, by rw [List.length_cons, rows], ?_, fun position entity stands => ?_⟩
  · intro arg member
    rcases List.mem_cons.mp member with rfl | inside
    · exact length_of_gather gathersWeights
    · exact count ▸ arguments.fit arg inside
  · obtain ⟨vertex, standsVertex, belongsTo⟩ := belong position entity stands
    obtain ⟨numbers, positioned, selected⟩ := arguments.selects position vertex standsVertex
    obtain ⟨size, looked, selects⟩ := selects_of_gather gathersWeights stands
    rw [count] at selected
    exact ⟨size :: numbers, ⟨vertex, size, numbers, belongsTo, looked, positioned, rfl⟩,
      .cons selects selected⟩

/-- Names for the numbers of an entity stand for its size and the coordinates of its vertex. -/
theorem locates_of_pointNumbers {sizes : Array α} {belongs : Nat → Nat → Prop} {entity : Nat}
    {symbol : String → α} {name : String} (sameDim : mesh.dim = stencil.dim)
    (numbers : mesh.PointNumbers sizes belongs entity
      ((name :: stencil.coordSymbols).map symbol)) :
    ∃ vertex, belongs entity vertex ∧ sizes[entity]? = some (symbol name) ∧
      mesh.Locates symbol "x" vertex := by
  obtain ⟨vertex, size, coords, belongsTo, looked, positioned, named⟩ := numbers
  obtain ⟨rfl, namedCoords⟩ := List.cons_eq_cons.mp named
  exact ⟨vertex, belongsTo, looked, locates_of_position sameDim positioned namedCoords⟩

/-- Names for the numbers of an edge stand for its quantities. -/
theorem onEdge_of_edgeNumbers {edge : Nat} {symbol : String → α} (sameDim : mesh.dim = stencil.dim)
    (numbers : mesh.EdgeNumbers edge (stencil.edgeParams.map symbol)) :
    ∃ ends, mesh.OnEdge symbol edge ends := by
  obtain ⟨ends, first, second, ratio, length, joins, positionFirst, positionSecond, lookedRatio,
    lookedLength, named⟩ := numbers
  have lengthFirst := (length_of_position positionFirst).trans sameDim
  have lengthSecond := (length_of_position positionSecond).trans sameDim
  rw [Stencil.edgeParams, List.map_append, List.map_append] at named
  obtain ⟨namedCoords, namedGeometry⟩ := List.append_inj' named rfl
  obtain ⟨namedFirst, namedSecond⟩ := List.append_inj namedCoords (by
    rw [List.length_map, Stencil.firstSymbols, Stencil.length_components, lengthFirst])
  obtain ⟨rfl, namedLength⟩ := List.cons_eq_cons.mp namedGeometry
  obtain ⟨rfl, -⟩ := List.cons_eq_cons.mp namedLength
  exact ⟨ends, joins, locates_of_position sameDim positionFirst namedFirst,
    locates_of_position sameDim positionSecond namedSecond, lookedRatio, lookedLength⟩

end Mesh

section Evaluation

variable [Arithmetic α]

namespace NumericFunction

/-- A result holds at a position what a function is on some numbers. -/
def StandsAt (values : List α) (position : Nat) (function : NumericFunction α)
    (result : Array α) : Prop :=
  ∃ value, function.valueAt values = .ok value ∧ result[position]? = some value

/-- A function is not evaluated on too few or too many arguments. -/
theorem evalBatch_of_ne {function : NumericFunction α} {args : List (Quantity α)} {count : Nat}
    {text : String} (writes : function.source.text = .ok text)
    (different : args.length ≠ function.params.length) :
    function.evalBatch args count =
      .error (.rejected (.shape (.argumentCount text function.params.length args.length))) := by
  rw [evalBatch, eval, if_neg different, writes]
  rfl

end NumericFunction

section Coefficients

variable {params : List String} {exprs : List Expr} {functions : List (NumericFunction α)}
  {args : List (Quantity α)} {entities : List Nat} {numbers : Nat → List α → Prop}

/-- Compiled coefficients have values on arguments for all parameters. -/
theorem exists_evalBatch_of_compile
    (compiled : List.Forall₂ (fun e function => NumericFunction.compile params e = .ok function)
      exprs functions) (complete : args.length = params.length)
    (arguments : Mesh.Arguments args entities numbers) :
    ∀ function ∈ functions, ∃ result, function.evalBatch args entities.length = .ok result := by
  intro function member
  obtain ⟨e, -, compiles⟩ := exists_mem_zip_of_forall₂ compiled.flip member
  exact NumericFunction.exists_evalBatch compiles complete arguments.fit

/-- The results have one number for each entity: the coefficients on the numbers of the entity,
which are the values of an assignment to the parameters. -/
theorem stand_of_evalBatch {results : List (Array α)} (nodup : params.Nodup)
    (complete : args.length = params.length) (arguments : Mesh.Arguments args entities numbers)
    (formed : List.Forall₂ (fun function result => function.evalBatch args entities.length =
      .ok result) functions results) :
    (∀ result ∈ results, result.size = entities.length) ∧
      ∀ position entity : Nat, entities[position]? = some entity → ∃ symbol : String → α,
        numbers entity (params.map symbol) ∧
          List.Forall₂ (NumericFunction.StandsAt (params.map symbol) position) functions
            results := by
  refine ⟨fun result member => ?_, fun position entity stands => ?_⟩
  · obtain ⟨function, -, evaluates⟩ := exists_mem_zip_of_forall₂ formed.flip member
    exact NumericFunction.size_of_evalBatch evaluates
  · obtain ⟨values, isNumbers, selected⟩ := arguments.selects position entity stands
    have : Nonempty α := ⟨Arithmetic.zero⟩
    obtain ⟨symbol, named⟩ :=
      Mesh.exists_symbol nodup (selected.length_eq.symm.trans complete)
    have inRange : position < entities.length := (List.getElem?_eq_some_iff.mp stands).1
    rw [← named] at isNumbers selected
    exact ⟨symbol, isNumbers, formed.imp fun function result evaluates =>
      NumericFunction.evalBatch_selects selected inRange evaluates⟩

end Coefficients

variable {mesh : Mesh α} {stencil : Stencil}

/-- Evaluation of an edge block at some edges gives, for each of them, its endpoints and every
coefficient on its quantities. -/
def EdgeBlock.Reads (block : EdgeBlock (NumericFunction α)) (stencil : Stencil) (mesh : Mesh α)
    (edges : List Nat) : Prop :=
  ∃ values, block.eval mesh edges = .ok values ∧ values.ends.length = edges.length ∧
    (∀ result ∈ values.block.coefficients, result.size = edges.length) ∧
    ∀ position edge : Nat, edges[position]? = some edge → ∃ ends symbol,
      values.ends[position]? = some ends ∧ mesh.OnEdge symbol edge ends ∧
      List.Forall₂ (NumericFunction.StandsAt (stencil.edgeParams.map symbol) position)
        block.coefficients values.block.coefficients

/-- Evaluation of a vertex block at some vertices gives these vertices and, for each of them, both
coefficients on its quantities. -/
def PointBlock.ReadsVertices (block : PointBlock (NumericFunction α)) (stencil : Stencil)
    (mesh : Mesh α) (vertices : List Nat) : Prop :=
  ∃ values, block.evalVertices mesh vertices = .ok values ∧ values.vertices = vertices ∧
    (∀ result ∈ values.block.coefficients, result.size = vertices.length) ∧
    ∀ position vertex : Nat, vertices[position]? = some vertex → ∃ symbol,
      mesh.AtVertex symbol vertex ∧
      List.Forall₂ (NumericFunction.StandsAt (stencil.vertexParams.map symbol) position)
        block.coefficients values.block.coefficients

/-- Evaluation of a face block at some boundary faces gives, for each of them, its owner and both
coefficients on its quantities. -/
def PointBlock.ReadsFaces (block : PointBlock (NumericFunction α)) (stencil : Stencil)
    (mesh : Mesh α) (faces : List Nat) : Prop :=
  ∃ values, block.evalFaces mesh faces = .ok values ∧ values.vertices.length = faces.length ∧
    (∀ result ∈ values.block.coefficients, result.size = faces.length) ∧
    ∀ position face : Nat, faces[position]? = some face → ∃ owner symbol,
      values.vertices[position]? = some owner ∧ mesh.OnFace symbol face owner ∧
      List.Forall₂ (NumericFunction.StandsAt (stencil.faceParams.map symbol) position)
        block.coefficients values.block.coefficients

/-- Evaluation of a Dirichlet block at some vertices gives, for each of them, both coefficients on
its coordinates. -/
def DirichletBlock.Reads (block : DirichletBlock (NumericFunction α)) (stencil : Stencil)
    (mesh : Mesh α) (vertices : List Nat) : Prop :=
  ∃ values, block.eval mesh vertices = .ok values ∧
    (∀ result ∈ values.coefficients, result.size = vertices.length) ∧
    ∀ position vertex : Nat, vertices[position]? = some vertex → ∃ symbol,
      mesh.Locates symbol "x" vertex ∧
      List.Forall₂ (NumericFunction.StandsAt (stencil.dirichletParams.map symbol) position)
        block.coefficients values.coefficients

/-- The kernel of an edge reads meshes of its own dimension. -/
theorem EdgeBlock.reads (wellFormed : mesh.WellFormed) (sameDim : mesh.dim = stencil.dim)
    {exprs : EdgeBlock Expr} {block : EdgeBlock (NumericFunction α)}
    (compiled : exprs.mapM (NumericFunction.compile stencil.edgeParams) = .ok block)
    {edges : List Nat} (inRange : ∀ edge ∈ edges, edge < mesh.edges.size) :
    block.Reads stencil mesh edges := by
  obtain ⟨ends, first, second, ratios, lengths, gathersEnds, gathersFirst, gathersSecond,
    gathersRatios, gathersLengths, count, arguments⟩ := wellFormed.exists_edgeArguments inRange
  have complete : ((first ++ second ++ [ratios.toArray, lengths.toArray]).map
      Quantity.batch).length = stencil.edgeParams.length := by
    rw [List.length_map, count, sameDim, Stencil.length_edgeParams]
  obtain ⟨results, formed⟩ := EdgeBlock.exists_mapM
    (exists_evalBatch_of_compile (EdgeBlock.mapM_eq_ok_iff.mp compiled) complete arguments)
  obtain ⟨sizes, stand⟩ := stand_of_evalBatch Stencil.nodup_edgeParams complete arguments
    (EdgeBlock.mapM_eq_ok_iff.mp formed)
  refine ⟨⟨results, ends⟩, ?_, Mesh.length_of_gather gathersEnds, sizes,
    fun position edge stands => ?_⟩
  · rw [EdgeBlock.eval, gathersEnds, Outcome.ok_bind, gathersFirst, Outcome.ok_bind, gathersSecond,
      Outcome.ok_bind, gathersRatios, Outcome.ok_bind, gathersLengths, Outcome.ok_bind]
    dsimp only
    rw [formed]
    rfl
  · obtain ⟨symbol, numbers, coefficients⟩ := stand position edge stands
    obtain ⟨pair, onEdge⟩ := Mesh.onEdge_of_edgeNumbers sameDim numbers
    obtain ⟨standing, standsEnds, joins⟩ := Mesh.gather_getElem? gathersEnds stands
    cases joins.symm.trans onEdge.joins
    exact ⟨_, symbol, standsEnds, onEdge, coefficients⟩

/-- A compiled point block has a value on arguments for its parameters. -/
theorem PointBlock.exists_eval {params : List String} {weights : List α} {vertices : List Nat}
    {exprs : PointBlock Expr} {block : PointBlock (NumericFunction α)} {coords : List (Array α)}
    {numbers : Nat → List α → Prop} {entities : List Nat} (nodup : params.Nodup)
    (compiled : exprs.mapM (NumericFunction.compile params) = .ok block)
    (gathers : mesh.coordsOf vertices = .ok coords)
    (count : vertices.length = entities.length)
    (complete : (weights.toArray :: coords).length = params.length)
    (arguments : Mesh.Arguments ((weights.toArray :: coords).map .batch) entities numbers) :
    ∃ results, block.eval mesh weights vertices = .ok ⟨results, vertices⟩ ∧
      (∀ result ∈ results.coefficients, result.size = entities.length) ∧
      ∀ position entity : Nat, entities[position]? = some entity → ∃ symbol : String → α,
        numbers entity (params.map symbol) ∧
          List.Forall₂ (NumericFunction.StandsAt (params.map symbol) position)
            block.coefficients results.coefficients := by
  have complete' : ((weights.toArray :: coords).map Quantity.batch).length = params.length := by
    rw [List.length_map, complete]
  obtain ⟨results, formed⟩ := PointBlock.exists_mapM
    (exists_evalBatch_of_compile (PointBlock.mapM_eq_ok_iff.mp compiled) complete' arguments)
  obtain ⟨sizes, stand⟩ := stand_of_evalBatch nodup complete' arguments
    (PointBlock.mapM_eq_ok_iff.mp formed)
  refine ⟨results, ?_, sizes, stand⟩
  rw [PointBlock.eval, gathers, Outcome.ok_bind]
  dsimp only
  rw [count, formed]
  rfl

/-- The kernel of a vertex reads meshes of its own dimension. -/
theorem PointBlock.readsVertices (wellFormed : mesh.WellFormed) (sameDim : mesh.dim = stencil.dim)
    {exprs : PointBlock Expr} {block : PointBlock (NumericFunction α)}
    (compiled : exprs.mapM (NumericFunction.compile stencil.vertexParams) = .ok block)
    {vertices : List Nat} (inRange : ∀ vertex ∈ vertices, vertex < mesh.vertexCount) :
    block.ReadsVertices stencil mesh vertices := by
  have inVolumes := inRange
  rw [← wellFormed.volumes] at inVolumes
  obtain ⟨weights, gathersWeights, -⟩ := Mesh.exists_gather inVolumes
  obtain ⟨coords, gathers, complete, arguments⟩ := Mesh.exists_pointArguments gathersWeights rfl
    inRange fun position vertex stands => ⟨vertex, stands, (rfl : vertex = vertex)⟩
  rw [sameDim, ← Stencil.length_vertexParams] at complete
  obtain ⟨results, evaluates, sizes, stand⟩ := PointBlock.exists_eval Stencil.nodup_vertexParams
    compiled gathers rfl complete arguments
  refine ⟨⟨results, vertices⟩, ?_, rfl, sizes, fun position vertex stands => ?_⟩
  · rw [PointBlock.evalVertices, gathersWeights, Outcome.ok_bind, evaluates]
  · obtain ⟨symbol, numbers, coefficients⟩ := stand position vertex stands
    obtain ⟨_, rfl, volume, located⟩ := Mesh.locates_of_pointNumbers sameDim numbers
    exact ⟨symbol, ⟨volume, located⟩, coefficients⟩

/-- The kernel of a face reads meshes of its own dimension. -/
theorem PointBlock.readsFaces (wellFormed : mesh.WellFormed) (sameDim : mesh.dim = stencil.dim)
    {exprs : PointBlock Expr} {block : PointBlock (NumericFunction α)}
    (compiled : exprs.mapM (NumericFunction.compile stencil.faceParams) = .ok block)
    {faces : List Nat} (inRange : ∀ face ∈ faces, face < mesh.owners.size) :
    block.ReadsFaces stencil mesh faces := by
  have inAreas := inRange
  rw [← wellFormed.areas] at inAreas
  obtain ⟨weights, gathersWeights, -⟩ := Mesh.exists_gather inAreas
  obtain ⟨owners, gathersOwners, exist⟩ := Mesh.exists_gather inRange
  have count : owners.length = faces.length := Mesh.length_of_gather gathersOwners
  obtain ⟨coords, gathers, complete, arguments⟩ := Mesh.exists_pointArguments gathersWeights count
    (fun owner member => wellFormed.owners owner (exist owner member))
    fun position face stands => Mesh.gather_getElem? gathersOwners stands
  rw [sameDim, ← Stencil.length_faceParams] at complete
  obtain ⟨results, evaluates, sizes, stand⟩ := PointBlock.exists_eval Stencil.nodup_faceParams
    compiled gathers count complete arguments
  refine ⟨⟨results, owners⟩, ?_, count, sizes, fun position face stands => ?_⟩
  · rw [PointBlock.evalFaces, gathersWeights, Outcome.ok_bind, gathersOwners, Outcome.ok_bind,
      evaluates]
  · obtain ⟨symbol, numbers, coefficients⟩ := stand position face stands
    obtain ⟨owner, belongs, area, located⟩ := Mesh.locates_of_pointNumbers sameDim numbers
    obtain ⟨_, standsOwner, belongs'⟩ := Mesh.gather_getElem? gathersOwners stands
    cases belongs.symm.trans belongs'
    exact ⟨owner, symbol, standsOwner, ⟨belongs, area, located⟩, coefficients⟩

/-- The kernel of a condition reads meshes of its own dimension. -/
theorem DirichletBlock.reads (sameDim : mesh.dim = stencil.dim)
    {exprs : DirichletBlock Expr} {block : DirichletBlock (NumericFunction α)}
    (compiled : exprs.mapM (NumericFunction.compile stencil.dirichletParams) = .ok block)
    {vertices : List Nat} (inRange : ∀ vertex ∈ vertices, vertex < mesh.vertexCount) :
    block.Reads stencil mesh vertices := by
  obtain ⟨coords, gathers, rows, arguments⟩ := Mesh.exists_coordinates inRange
  have complete : (coords.map Quantity.batch).length = stencil.dirichletParams.length := by
    rw [List.length_map, rows, sameDim, Stencil.dirichletParams, Stencil.coordSymbols,
      Stencil.length_components]
  obtain ⟨results, formed⟩ := DirichletBlock.exists_mapM
    (exists_evalBatch_of_compile (DirichletBlock.mapM_eq_ok_iff.mp compiled) complete arguments)
  obtain ⟨sizes, stand⟩ := stand_of_evalBatch (Stencil.nodup_components "x") complete arguments
    (DirichletBlock.mapM_eq_ok_iff.mp formed)
  refine ⟨results, ?_, sizes, fun position vertex stands => ?_⟩
  · rw [DirichletBlock.eval, gathers, Outcome.ok_bind]
    exact formed
  · obtain ⟨symbol, positioned, coefficients⟩ := stand position vertex stands
    exact ⟨symbol, Mesh.locates_of_position sameDim positioned rfl, coefficients⟩

end Evaluation

end FiniteVolume
