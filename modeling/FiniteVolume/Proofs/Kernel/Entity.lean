import FiniteVolume.Kernel.Evaluation
import FiniteVolume.Proofs.Numeric.Batch

/-!
# Kernels at single entities

The blocks of a kernel at one edge, vertex or face of a mesh: every parameter of a coefficient has
the number that the entity has for it. Evaluation on a list of entities returns the blocks of its
members in their order (`EdgeBlock.eval_blocks`, `PointBlock.evalVertices_blocks`,
`PointBlock.evalFaces_blocks`, `DirichletBlock.eval_blocks`).
-/

namespace FiniteVolume

variable {α : Type}

namespace Mesh

/-- The coordinates of a vertex. -/
def position (mesh : Mesh α) (vertex : Nat) : Outcome (List α) :=
  Outcome.ofLookup? (mesh.coords.rows.toList.mapM fun row => row[vertex]?)

variable {mesh : Mesh α} {subdomain : Subdomain} {entities : List Nat}

/-- No vertex is selected twice. -/
theorem nodup_verticesOf (answers : mesh.verticesOf subdomain = .ok entities) :
    entities.Nodup := by
  obtain ⟨listed, -, same⟩ := Outcome.bind_eq_ok_iff.mp answers
  cases same
  exact List.nodup_range.filter _

/-- The positions of some members of a list ascend. -/
theorem positions_ascending {β : Type} (members : List β) (keeps : β × Nat → Bool) :
    ((members.zipIdx.filter keeps).map Prod.snd).Pairwise (· < ·) := by
  have positions : (members.zipIdx.map Prod.snd).Pairwise (· < ·) := by
    rw [List.zipIdx_map_snd]
    exact List.pairwise_lt_range'
  exact positions.sublist (List.filter_sublist.map _)

/-- The positions of the members of a list that a test keeps. -/
theorem mem_positions_iff {β : Type} {members : List β} {keeps : β × Nat → Bool} {position : Nat} :
    position ∈ (members.zipIdx.filter keeps).map Prod.snd ↔
      ∃ member, members[position]? = some member ∧ keeps (member, position) = true := by
  rw [List.mem_map]
  constructor
  · rintro ⟨⟨member, index⟩, kept, rfl⟩
    obtain ⟨inside, keeps⟩ := List.mem_filter.mp kept
    exact ⟨member, List.mem_zipIdx_iff_getElem?.mp inside, keeps⟩
  · rintro ⟨member, stands, keeps⟩
    exact ⟨(member, position),
      List.mem_filter.mpr ⟨List.mem_zipIdx_iff_getElem?.mpr stands, keeps⟩, rfl⟩

/-- No position of a list occurs twice. -/
theorem nodup_positions {β : Type} (members : List β) (keeps : β × Nat → Bool) :
    ((members.zipIdx.filter keeps).map Prod.snd).Nodup :=
  (positions_ascending members keeps).imp Nat.ne_of_lt

/-- No edge is selected twice. -/
theorem nodup_edgesOf (answers : mesh.edgesOf subdomain = .ok entities) : entities.Nodup := by
  obtain ⟨listed, -, same⟩ := Outcome.bind_eq_ok_iff.mp answers
  cases same
  exact nodup_positions _ _

/-- No face is selected twice. -/
theorem nodup_facesOf (answers : mesh.facesOf subdomain = .ok entities) : entities.Nodup := by
  cases subdomain with
  | everywhere | boundary =>
    cases answers
    exact List.nodup_range
  | named name =>
    obtain ⟨listed, -, same⟩ := Outcome.bind_eq_ok_iff.mp answers
    cases same
    exact nodup_positions _ _

/-- As many values are gathered as there are entities. -/
theorem length_of_gather {β : Type} {quantity : Array β} {entities : List Nat} {values : List β}
    (gathers : gather quantity entities = .ok values) : values.length = entities.length :=
  (mapM_eq_some_iff.mp (Outcome.ofLookup?_eq_ok_iff.mp gathers)).length_eq.symm

/-- The value of a quantity at the entity at a position. -/
theorem gather_getElem? {β : Type} {quantity : Array β} {entities : List Nat} {values : List β}
    (gathers : gather quantity entities = .ok values) {position entity : Nat}
    (stands : entities[position]? = some entity) :
    ∃ value, values[position]? = some value ∧ quantity[entity]? = some value :=
  exists_getElem?_of_forall₂ (mapM_eq_some_iff.mp (Outcome.ofLookup?_eq_ok_iff.mp gathers)) stands

/-- A gathered quantity selects its value at the entity at a position. -/
theorem selects_of_gather {quantity : Array α} {entities : List Nat} {values : List α}
    (gathers : gather quantity entities = .ok values) {position entity : Nat}
    (stands : entities[position]? = some entity) :
    ∃ value, quantity[entity]? = some value ∧
      (Quantity.batch values.toArray).Selects entities.length position value := by
  obtain ⟨value, standsValue, looked⟩ := gather_getElem? gathers stands
  exact ⟨value, looked, .batch (length_of_gather gathers) (by simpa using standsValue)⟩

/-- The coordinates of some vertices select those of the vertex at a position. -/
theorem selects_of_coordsOf {vertices : List Nat} {coords : List (Array α)}
    (gathers : mesh.coordsOf vertices = .ok coords) {position vertex : Nat}
    (stands : vertices[position]? = some vertex) :
    ∃ numbers, mesh.position vertex = .ok numbers ∧
      List.Forall₂ (Quantity.Selects vertices.length position) (coords.map .batch) numbers := by
  have related := Outcome.mapM_eq_ok_iff.mp gathers
  have selected : ∃ numbers,
      List.Forall₂ (fun row number => row[vertex]? = some number) mesh.coords.rows.toList numbers ∧
      List.Forall₂ (Quantity.Selects vertices.length position) (coords.map .batch) numbers := by
    clear gathers
    generalize mesh.coords.rows.toList = rows at related
    induction related with
    | nil => exact ⟨[], .nil, .nil⟩
    | cons first _ ih =>
      obtain ⟨values, gathersRow, same⟩ := Outcome.bind_eq_ok_iff.mp first
      cases same
      obtain ⟨number, looked, selects⟩ := selects_of_gather gathersRow stands
      obtain ⟨numbers, lookedRest, selectsRest⟩ := ih
      exact ⟨number :: numbers, .cons looked lookedRest, .cons selects selectsRest⟩
  obtain ⟨numbers, looked, selects⟩ := selected
  exact ⟨numbers, Outcome.ofLookup?_eq_ok_iff.mpr (mapM_eq_some_iff.mpr looked), selects⟩

end Mesh

section Blocks

variable {κ ρ σ : Type} {f : κ → Outcome ρ} {g : κ → Outcome σ} {pick : ρ → Option σ}

/-- Two ends that are mapped position by position are mapped at one position. -/
theorem Ends.mapM_picks
    (picks : ∀ coefficient result, f coefficient = .ok result →
      ∃ single, g coefficient = .ok single ∧ pick result = some single)
    {ends : Ends κ} {results : Ends ρ} (formed : ends.mapM f = .ok results) :
    ∃ singles, ends.mapM g = .ok singles ∧ results.mapM pick = some singles := by
  obtain ⟨first, formsFirst, formed⟩ := Outcome.bind_eq_ok_iff.mp formed
  obtain ⟨second, formsSecond, same⟩ := Outcome.bind_eq_ok_iff.mp formed
  cases same
  obtain ⟨singleFirst, givesFirst, picksFirst⟩ := picks _ _ formsFirst
  obtain ⟨singleSecond, givesSecond, picksSecond⟩ := picks _ _ formsSecond
  refine ⟨⟨singleFirst, singleSecond⟩, ?_, ?_⟩
  · rw [Ends.mapM, givesFirst, givesSecond]
    rfl
  · rw [Ends.mapM, picksFirst, picksSecond]
    rfl

/-- An edge block that is mapped position by position is mapped at one position. -/
theorem EdgeBlock.mapM_picks
    (picks : ∀ coefficient result, f coefficient = .ok result →
      ∃ single, g coefficient = .ok single ∧ pick result = some single)
    {block : EdgeBlock κ} {results : EdgeBlock ρ} (formed : block.mapM f = .ok results) :
    ∃ singles, block.mapM g = .ok singles ∧ results.mapM pick = some singles := by
  obtain ⟨linear, formsLinear, formed⟩ := Outcome.bind_eq_ok_iff.mp formed
  obtain ⟨affine, formsAffine, same⟩ := Outcome.bind_eq_ok_iff.mp formed
  cases same
  obtain ⟨singleLinear, givesLinear, picksLinear⟩ :=
    Ends.mapM_picks (fun row result formed => Ends.mapM_picks picks formed) formsLinear
  obtain ⟨singleAffine, givesAffine, picksAffine⟩ := Ends.mapM_picks picks formsAffine
  refine ⟨⟨singleLinear, singleAffine⟩, ?_, ?_⟩
  · rw [EdgeBlock.mapM, givesLinear, givesAffine]
    rfl
  · rw [EdgeBlock.mapM, picksLinear, picksAffine]
    rfl

/-- The block of a point that is mapped position by position is mapped at one position. -/
theorem PointBlock.mapM_picks
    (picks : ∀ coefficient result, f coefficient = .ok result →
      ∃ single, g coefficient = .ok single ∧ pick result = some single)
    {block : PointBlock κ} {results : PointBlock ρ} (formed : block.mapM f = .ok results) :
    ∃ singles, block.mapM g = .ok singles ∧ pick results.linear = some singles.linear ∧
      pick results.affine = some singles.affine := by
  obtain ⟨linear, formsLinear, formed⟩ := Outcome.bind_eq_ok_iff.mp formed
  obtain ⟨affine, formsAffine, same⟩ := Outcome.bind_eq_ok_iff.mp formed
  cases same
  obtain ⟨singleLinear, givesLinear, picksLinear⟩ := picks _ _ formsLinear
  obtain ⟨singleAffine, givesAffine, picksAffine⟩ := picks _ _ formsAffine
  refine ⟨⟨singleLinear, singleAffine⟩, ?_, picksLinear, picksAffine⟩
  rw [PointBlock.mapM, givesLinear, givesAffine]
  rfl

/-- The block of a condition that is mapped position by position is mapped at one position. -/
theorem DirichletBlock.mapM_picks
    (picks : ∀ coefficient result, f coefficient = .ok result →
      ∃ single, g coefficient = .ok single ∧ pick result = some single)
    {block : DirichletBlock κ} {results : DirichletBlock ρ} (formed : block.mapM f = .ok results) :
    ∃ singles, block.mapM g = .ok singles ∧ pick results.coeff = some singles.coeff ∧
      pick results.rhs = some singles.rhs := by
  obtain ⟨coeff, formsCoeff, formed⟩ := Outcome.bind_eq_ok_iff.mp formed
  obtain ⟨rhs, formsRhs, same⟩ := Outcome.bind_eq_ok_iff.mp formed
  cases same
  obtain ⟨singleCoeff, givesCoeff, picksCoeff⟩ := picks _ _ formsCoeff
  obtain ⟨singleRhs, givesRhs, picksRhs⟩ := picks _ _ formsRhs
  refine ⟨⟨singleCoeff, singleRhs⟩, ?_, picksCoeff, picksRhs⟩
  rw [DirichletBlock.mapM, givesCoeff, givesRhs]
  rfl

end Blocks

section Evaluation

variable [Arithmetic α] {mesh : Mesh α}

/-- The endpoints of an edge, and the coefficients of an edge block there. -/
def EdgeBlock.at (block : EdgeBlock (NumericFunction α)) (mesh : Mesh α) (edge : Nat) :
    Outcome (Ends Nat × EdgeBlock α) := do
  let ends ← Outcome.ofLookup? mesh.edges[edge]?
  let first ← mesh.position ends.first
  let second ← mesh.position ends.second
  let ratio ← Outcome.ofLookup? mesh.ratios[edge]?
  let length ← Outcome.ofLookup? mesh.lengths[edge]?
  let block ← block.mapM fun coefficient =>
    coefficient.valueAt (first ++ second ++ [ratio, length])
  return (ends, block)

/-- The coefficients of a point block at a vertex, for an entity of a given size. -/
def PointBlock.sized (block : PointBlock (NumericFunction α)) (mesh : Mesh α) (weight : α)
    (vertex : Nat) : Outcome (Nat × PointBlock α) := do
  let position ← mesh.position vertex
  let block ← block.mapM fun coefficient => coefficient.valueAt (weight :: position)
  return (vertex, block)

/-- The coefficients of a vertex block at a vertex. -/
def PointBlock.atVertex (block : PointBlock (NumericFunction α)) (mesh : Mesh α) (vertex : Nat) :
    Outcome (Nat × PointBlock α) := do
  block.sized mesh (← Outcome.ofLookup? mesh.volumes[vertex]?) vertex

/-- The owner of a boundary face, and the coefficients of a face block there. -/
def PointBlock.atFace (block : PointBlock (NumericFunction α)) (mesh : Mesh α) (face : Nat) :
    Outcome (Nat × PointBlock α) := do
  let area ← Outcome.ofLookup? mesh.areas[face]?
  let owner ← Outcome.ofLookup? mesh.owners[face]?
  block.sized mesh area owner

/-- The coefficients of a Dirichlet block at a vertex. -/
def DirichletBlock.at (block : DirichletBlock (NumericFunction α)) (mesh : Mesh α)
    (vertex : Nat) : Outcome (DirichletBlock α) := do
  let position ← mesh.position vertex
  block.mapM fun coefficient => coefficient.valueAt position

/-- The kernel of an edge reports the ends of as many edges as it is given. -/
theorem EdgeBlock.length_ends_of_eval {block : EdgeBlock (NumericFunction α)} {edges : List Nat}
    {values : EdgeValues α} (evaluates : block.eval mesh edges = .ok values) :
    values.ends.length = edges.length := by
  obtain ⟨ends, gathersEnds, evaluates⟩ := Outcome.bind_eq_ok_iff.mp evaluates
  obtain ⟨_, -, evaluates⟩ := Outcome.bind_eq_ok_iff.mp evaluates
  obtain ⟨_, -, evaluates⟩ := Outcome.bind_eq_ok_iff.mp evaluates
  obtain ⟨_, -, evaluates⟩ := Outcome.bind_eq_ok_iff.mp evaluates
  obtain ⟨_, -, evaluates⟩ := Outcome.bind_eq_ok_iff.mp evaluates
  obtain ⟨_, -, same⟩ := Outcome.bind_eq_ok_iff.mp evaluates
  cases same
  exact Mesh.length_of_gather gathersEnds

/-- Evaluation at some edges returns their endpoints and their blocks. -/
theorem EdgeBlock.eval_blocks {block : EdgeBlock (NumericFunction α)} {edges : List Nat}
    {values : EdgeValues α} (evaluates : block.eval mesh edges = .ok values) :
    ∃ blocks, edges.mapM (block.at mesh) = .ok blocks ∧
      ∀ (position : Nat) (single : Ends Nat × EdgeBlock α), blocks[position]? = some single →
        values.ends[position]? = some single.1 ∧
          (values.block.mapM fun coefficient => coefficient[position]?) = some single.2 := by
  obtain ⟨ends, gathersEnds, evaluates⟩ := Outcome.bind_eq_ok_iff.mp evaluates
  obtain ⟨first, gathersFirst, evaluates⟩ := Outcome.bind_eq_ok_iff.mp evaluates
  obtain ⟨second, gathersSecond, evaluates⟩ := Outcome.bind_eq_ok_iff.mp evaluates
  obtain ⟨ratios, gathersRatios, evaluates⟩ := Outcome.bind_eq_ok_iff.mp evaluates
  obtain ⟨lengths, gathersLengths, evaluates⟩ := Outcome.bind_eq_ok_iff.mp evaluates
  obtain ⟨results, formed, same⟩ := Outcome.bind_eq_ok_iff.mp evaluates
  cases same
  have count : ends.length = edges.length := Mesh.length_of_gather gathersEnds
  refine Outcome.exists_mapM_eq_ok fun position edge stands => ?_
  obtain ⟨pair, standsPair, lookedPair⟩ := Mesh.gather_getElem? gathersEnds stands
  obtain ⟨numbersFirst, positionFirst, selectsFirst⟩ :=
    Mesh.selects_of_coordsOf gathersFirst (by rw [List.getElem?_map, standsPair]; rfl)
  obtain ⟨numbersSecond, positionSecond, selectsSecond⟩ :=
    Mesh.selects_of_coordsOf gathersSecond (by rw [List.getElem?_map, standsPair]; rfl)
  obtain ⟨ratio, lookedRatio, selectsRatio⟩ := Mesh.selects_of_gather gathersRatios stands
  obtain ⟨length, lookedLength, selectsLength⟩ := Mesh.selects_of_gather gathersLengths stands
  rw [List.length_map, count] at selectsFirst selectsSecond
  have selected : List.Forall₂ (Quantity.Selects edges.length position)
      ((first ++ second ++ [ratios.toArray, lengths.toArray]).map .batch)
      (numbersFirst ++ numbersSecond ++ [ratio, length]) := by
    rw [List.map_append, List.map_append]
    exact List.rel_append (List.rel_append selectsFirst selectsSecond)
      (.cons selectsRatio (.cons selectsLength .nil))
  have inRange : position < edges.length := (List.getElem?_eq_some_iff.mp stands).1
  obtain ⟨single, gives, picks⟩ := EdgeBlock.mapM_picks
    (fun _ _ => NumericFunction.evalBatch_selects selected inRange) formed
  refine ⟨(pair, single), ?_, standsPair, picks⟩
  exact Outcome.bind_eq_ok_iff.mpr ⟨pair, Outcome.ofLookup?_eq_ok_iff.mpr lookedPair,
    Outcome.bind_eq_ok_iff.mpr ⟨numbersFirst, positionFirst,
    Outcome.bind_eq_ok_iff.mpr ⟨numbersSecond, positionSecond,
    Outcome.bind_eq_ok_iff.mpr ⟨ratio, Outcome.ofLookup?_eq_ok_iff.mpr lookedRatio,
    Outcome.bind_eq_ok_iff.mpr ⟨length, Outcome.ofLookup?_eq_ok_iff.mpr lookedLength,
    Outcome.bind_eq_ok_iff.mpr ⟨single, gives, rfl⟩⟩⟩⟩⟩⟩

/-- Evaluation at some vertices, for entities of given sizes, returns their blocks. -/
theorem PointBlock.eval_blocks {block : PointBlock (NumericFunction α)} {vertices : List Nat}
    {weights : List α} {values : PointValues α} (sizes : weights.length = vertices.length)
    (evaluates : block.eval mesh weights vertices = .ok values) :
    values.vertices = vertices ∧ values.block.linear.size = vertices.length ∧
      values.block.affine.size = vertices.length ∧
      ∀ (position vertex : Nat) (weight : α), vertices[position]? = some vertex →
        weights[position]? = some weight →
        ∃ single, block.sized mesh weight vertex = .ok (vertex, single) ∧
          values.block.linear[position]? = some single.linear ∧
          values.block.affine[position]? = some single.affine := by
  obtain ⟨coords, gathers, evaluates⟩ := Outcome.bind_eq_ok_iff.mp evaluates
  obtain ⟨results, formed, same⟩ := Outcome.bind_eq_ok_iff.mp evaluates
  cases same
  have complete :
      results.linear.size = vertices.length ∧ results.affine.size = vertices.length := by
    obtain ⟨linear, formsLinear, formed⟩ := Outcome.bind_eq_ok_iff.mp formed
    obtain ⟨affine, formsAffine, same⟩ := Outcome.bind_eq_ok_iff.mp formed
    cases same
    exact ⟨NumericFunction.size_of_evalBatch formsLinear,
      NumericFunction.size_of_evalBatch formsAffine⟩
  refine ⟨rfl, complete.1, complete.2, fun position vertex weight stands standsWeight => ?_⟩
  obtain ⟨numbers, positioned, selectsCoords⟩ := Mesh.selects_of_coordsOf gathers stands
  have selected : List.Forall₂ (Quantity.Selects vertices.length position)
      ((weights.toArray :: coords).map .batch) (weight :: numbers) :=
    .cons (.batch sizes (by simpa using standsWeight)) selectsCoords
  have inRange : position < vertices.length := (List.getElem?_eq_some_iff.mp stands).1
  obtain ⟨single, gives, linear, affine⟩ := PointBlock.mapM_picks
    (fun _ _ => NumericFunction.evalBatch_selects selected inRange) formed
  exact ⟨single, Outcome.bind_eq_ok_iff.mpr ⟨numbers, positioned,
    Outcome.bind_eq_ok_iff.mpr ⟨single, gives, rfl⟩⟩, linear, affine⟩

omit [Arithmetic α] in
/-- The values of a point kernel are its blocks, if they are so at every position. -/
theorem PointValues.zip_eq_map {values : PointValues α} {blocks : List (Nat × PointBlock α)}
    (vertices : blocks.length = values.vertices.length)
    (linear : values.block.linear.size = values.vertices.length)
    (affine : values.block.affine.size = values.vertices.length)
    (stand : ∀ (position : Nat) (single : Nat × PointBlock α), blocks[position]? = some single →
      values.vertices[position]? = some single.1 ∧
        values.block.linear[position]? = some single.2.linear ∧
        values.block.affine[position]? = some single.2.affine) :
    values.vertices.zip (values.block.linear.toList.zip values.block.affine.toList) =
      blocks.map fun (vertex, block) => (vertex, block.linear, block.affine) := by
  refine List.ext_getElem? fun position => ?_
  cases standsBlock : blocks[position]? with
  | some single =>
    obtain ⟨standsVertex, standsLinear, standsAffine⟩ := stand position single standsBlock
    rw [← Array.getElem?_toList] at standsLinear standsAffine
    have entry : (values.vertices.zip (values.block.linear.toList.zip
        values.block.affine.toList))[position]? =
        some (single.1, single.2.linear, single.2.affine) :=
      List.getElem?_zip_eq_some.mpr ⟨standsVertex,
        List.getElem?_zip_eq_some.mpr ⟨standsLinear, standsAffine⟩⟩
    rw [List.getElem?_map, standsBlock, entry]
    rfl
  | none =>
    have outside := List.getElem?_eq_none_iff.mp standsBlock
    rw [List.getElem?_map, standsBlock, Option.map_none, List.getElem?_eq_none_iff]
    simp only [List.length_zip, Array.length_toList]
    omega

/-- Evaluation of a vertex kernel at some vertices returns its blocks there. -/
theorem PointBlock.evalVertices_blocks {block : PointBlock (NumericFunction α)}
    {vertices : List Nat} {values : PointValues α}
    (evaluates : block.evalVertices mesh vertices = .ok values) :
    ∃ blocks, vertices.mapM (block.atVertex mesh) = .ok blocks ∧
      values.vertices.zip (values.block.linear.toList.zip values.block.affine.toList) =
        blocks.map fun (vertex, block) => (vertex, block.linear, block.affine) := by
  obtain ⟨weights, gathers, evaluates⟩ := Outcome.bind_eq_ok_iff.mp evaluates
  obtain ⟨same, linear, affine, singles⟩ := eval_blocks (Mesh.length_of_gather gathers) evaluates
  obtain ⟨blocks, formed, stand⟩ : ∃ blocks, vertices.mapM (block.atVertex mesh) = .ok blocks ∧
      ∀ (position : Nat) (single : Nat × PointBlock α), blocks[position]? = some single →
        values.vertices[position]? = some single.1 ∧
          values.block.linear[position]? = some single.2.linear ∧
          values.block.affine[position]? = some single.2.affine := by
    refine Outcome.exists_mapM_eq_ok fun position vertex stands => ?_
    obtain ⟨weight, standsWeight, looked⟩ := Mesh.gather_getElem? gathers stands
    obtain ⟨single, sized, standsSingle⟩ := singles position vertex weight stands standsWeight
    exact ⟨(vertex, single), Outcome.bind_eq_ok_iff.mpr
      ⟨weight, Outcome.ofLookup?_eq_ok_iff.mpr looked, sized⟩, same ▸ stands, standsSingle⟩
  have count := (Outcome.mapM_eq_ok_iff.mp formed).length_eq
  exact ⟨blocks, formed, PointValues.zip_eq_map (by rw [same, count]) (by rw [same, linear])
    (by rw [same, affine]) stand⟩

/-- Evaluation of a face kernel at some boundary faces returns its blocks there. -/
theorem PointBlock.evalFaces_blocks {block : PointBlock (NumericFunction α)} {faces : List Nat}
    {values : PointValues α} (evaluates : block.evalFaces mesh faces = .ok values) :
    ∃ blocks, faces.mapM (block.atFace mesh) = .ok blocks ∧
      values.vertices.zip (values.block.linear.toList.zip values.block.affine.toList) =
        blocks.map fun (vertex, block) => (vertex, block.linear, block.affine) := by
  obtain ⟨areas, gathersAreas, evaluates⟩ := Outcome.bind_eq_ok_iff.mp evaluates
  obtain ⟨owners, gathersOwners, evaluates⟩ := Outcome.bind_eq_ok_iff.mp evaluates
  have countOwners : owners.length = faces.length := Mesh.length_of_gather gathersOwners
  have sizes : areas.length = owners.length := by
    rw [countOwners, Mesh.length_of_gather gathersAreas]
  obtain ⟨same, linear, affine, singles⟩ := eval_blocks sizes evaluates
  obtain ⟨blocks, formed, stand⟩ : ∃ blocks, faces.mapM (block.atFace mesh) = .ok blocks ∧
      ∀ (position : Nat) (single : Nat × PointBlock α), blocks[position]? = some single →
        values.vertices[position]? = some single.1 ∧
          values.block.linear[position]? = some single.2.linear ∧
          values.block.affine[position]? = some single.2.affine := by
    refine Outcome.exists_mapM_eq_ok fun position face stands => ?_
    obtain ⟨area, standsArea, lookedArea⟩ := Mesh.gather_getElem? gathersAreas stands
    obtain ⟨owner, standsOwner, lookedOwner⟩ := Mesh.gather_getElem? gathersOwners stands
    obtain ⟨single, sized, standsSingle⟩ := singles position owner area standsOwner standsArea
    exact ⟨(owner, single), Outcome.bind_eq_ok_iff.mpr
      ⟨area, Outcome.ofLookup?_eq_ok_iff.mpr lookedArea, Outcome.bind_eq_ok_iff.mpr
        ⟨owner, Outcome.ofLookup?_eq_ok_iff.mpr lookedOwner, sized⟩⟩,
      same ▸ standsOwner, standsSingle⟩
  have count := (Outcome.mapM_eq_ok_iff.mp formed).length_eq
  exact ⟨blocks, formed, PointValues.zip_eq_map (by rw [same, countOwners, count])
    (by rw [same, linear]) (by rw [same, affine]) stand⟩

/-- Evaluation of a Dirichlet kernel at some vertices returns its blocks there. -/
theorem DirichletBlock.eval_blocks {block : DirichletBlock (NumericFunction α)}
    {vertices : List Nat} {values : DirichletBlock (Array α)}
    (evaluates : block.eval mesh vertices = .ok values) :
    ∃ blocks, vertices.mapM (block.at mesh) = .ok blocks ∧
      values.coeff.toList.zip values.rhs.toList =
        blocks.map fun block => (block.coeff, block.rhs) := by
  obtain ⟨coords, gathers, formed⟩ := Outcome.bind_eq_ok_iff.mp evaluates
  obtain ⟨blocks, formedBlocks, stand⟩ : ∃ blocks, vertices.mapM (block.at mesh) = .ok blocks ∧
      ∀ (position : Nat) (single : DirichletBlock α), blocks[position]? = some single →
        values.coeff[position]? = some single.coeff ∧
          values.rhs[position]? = some single.rhs := by
    refine Outcome.exists_mapM_eq_ok fun position vertex stands => ?_
    obtain ⟨numbers, positioned, selected⟩ := Mesh.selects_of_coordsOf gathers stands
    have inRange : position < vertices.length := (List.getElem?_eq_some_iff.mp stands).1
    obtain ⟨single, gives, standsSingle⟩ := DirichletBlock.mapM_picks
      (fun _ _ => NumericFunction.evalBatch_selects selected inRange) formed
    exact ⟨single, Outcome.bind_eq_ok_iff.mpr ⟨numbers, positioned, gives⟩, standsSingle⟩
  refine ⟨blocks, formedBlocks, List.ext_getElem? fun position => ?_⟩
  have count := (Outcome.mapM_eq_ok_iff.mp formedBlocks).length_eq
  have size : values.coeff.size = vertices.length := by
    obtain ⟨coeff, formsCoeff, formed⟩ := Outcome.bind_eq_ok_iff.mp formed
    obtain ⟨rhs, -, same⟩ := Outcome.bind_eq_ok_iff.mp formed
    cases same
    exact NumericFunction.size_of_evalBatch formsCoeff
  cases standsBlock : blocks[position]? with
  | some single =>
    obtain ⟨standsCoeff, standsRhs⟩ := stand position single standsBlock
    rw [← Array.getElem?_toList] at standsCoeff standsRhs
    have entry : (values.coeff.toList.zip values.rhs.toList)[position]? =
        some (single.coeff, single.rhs) :=
      List.getElem?_zip_eq_some.mpr ⟨standsCoeff, standsRhs⟩
    rw [List.getElem?_map, standsBlock, entry]
    rfl
  | none =>
    have outside := List.getElem?_eq_none_iff.mp standsBlock
    rw [List.getElem?_map, standsBlock, Option.map_none, List.getElem?_eq_none_iff]
    simp only [List.length_zip, Array.length_toList]
    omega

end Evaluation

end FiniteVolume
