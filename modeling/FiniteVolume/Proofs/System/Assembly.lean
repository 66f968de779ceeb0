import FiniteVolume.Proofs.System.Dirichlet
import FiniteVolume.System.Assembly

/-!
# Assembled systems

The system of a list of compiled kernels is the sum of their blocks over the entities of their
subdomains, with the rows of the Dirichlet kernels on top (`assemble_sums_blocks`). Only the sums
have to be exact; how coefficients are evaluated does not matter.
-/

namespace FiniteVolume

variable {α : Type}

section Blocks

variable [AddCommGroup α]

/-- What the block of an edge adds to an entry of the matrix. -/
def EdgeBlock.entry (ends : Ends Nat) (block : EdgeBlock α) (row col : Nat) : α :=
  (if ends.first = row ∧ ends.first = col then block.linear.first.first else 0) +
    (if ends.first = row ∧ ends.second = col then block.linear.first.second else 0) +
    (if ends.second = row ∧ ends.first = col then block.linear.second.first else 0) +
    (if ends.second = row ∧ ends.second = col then block.linear.second.second else 0)

/-- The constant part of the block of an edge at a vertex. -/
def EdgeBlock.constant (ends : Ends Nat) (block : EdgeBlock α) (vertex : Nat) : α :=
  (if ends.first = vertex then block.affine.first else 0) +
    (if ends.second = vertex then block.affine.second else 0)

/-- What the block of a vertex or face adds to an entry of the matrix. -/
def PointBlock.entry (owner : Nat) (block : PointBlock α) (row col : Nat) : α :=
  if owner = row ∧ owner = col then block.linear else 0

/-- The constant part of the block of a vertex or face at a vertex. -/
def PointBlock.constant (owner : Nat) (block : PointBlock α) (vertex : Nat) : α :=
  if owner = vertex then block.affine else 0

namespace Contribution

/-- What a contribution adds to an entry of the matrix. -/
def entry (contribution : Contribution α) (row col : Nat) : α :=
  (contribution.triplets.map fun triplet =>
    if triplet.row = row ∧ triplet.col = col then triplet.value else 0).sum

/-- What a contribution adds to the right-hand side at a vertex. -/
def rhsAt (contribution : Contribution α) (vertex : Nat) : α :=
  (contribution.rhs.map fun (index, value) => if index = vertex then value else 0).sum

/-- The entries of two contributions are added. -/
theorem entry_append (first second : Contribution α) (row col : Nat) :
    (first.append second).entry row col = first.entry row col + second.entry row col := by
  rw [entry, append, List.map_append, List.sum_append]
  rfl

/-- The right sides of two contributions are added. -/
theorem rhsAt_append (first second : Contribution α) (vertex : Nat) :
    (first.append second).rhsAt vertex = first.rhsAt vertex + second.rhsAt vertex := by
  rw [rhsAt, append, List.map_append, List.sum_append]
  rfl

/-- The entries of several contributions are added. -/
theorem entry_sum (contributions : List (Contribution α)) (row col : Nat) :
    (sum contributions).entry row col =
      (contributions.map fun contribution => contribution.entry row col).sum := by
  induction contributions with
  | nil => rfl
  | cons first rest ih =>
    rw [List.map_cons, List.sum_cons, ← ih, ← entry_append]
    rfl

/-- The right sides of several contributions are added. -/
theorem rhsAt_sum (contributions : List (Contribution α)) (vertex : Nat) :
    (sum contributions).rhsAt vertex =
      (contributions.map fun contribution => contribution.rhsAt vertex).sum := by
  induction contributions with
  | nil => rfl
  | cons first rest ih =>
    rw [List.map_cons, List.sum_cons, ← ih, ← rhsAt_append]
    rfl

variable [Arithmetic α] [ExactArithmetic α]

/-- Leaving out a value of zero makes no difference. -/
theorem sum_tripletUnlessZero (row' col' : Nat) (value : α) (row col : Nat) :
    ((tripletUnlessZero row' col' value).map fun triplet =>
      if triplet.row = row ∧ triplet.col = col then triplet.value else 0).sum =
      if row' = row ∧ col' = col then value else 0 := by
  rw [tripletUnlessZero]
  split
  · rename_i isZero
    rw [ExactArithmetic.eq_zero_of_isZero isZero, ite_self]
    rfl
  · rw [List.map_singleton, List.sum_singleton]

/-- The block of an edge contributes its entries. -/
theorem entry_ofEdgeBlock (ends : Ends Nat) (block : EdgeBlock α) (row col : Nat) :
    (ofEdgeBlock ends block).entry row col = block.entry ends row col := by
  rw [entry, ofEdgeBlock]
  simp only [List.map_append, List.sum_append, sum_tripletUnlessZero]
  rfl

/-- The block of an edge takes its constant from the right side. -/
theorem rhsAt_ofEdgeBlock (ends : Ends Nat) (block : EdgeBlock α) (vertex : Nat) :
    (ofEdgeBlock ends block).rhsAt vertex = -block.constant ends vertex := by
  rw [rhsAt, ofEdgeBlock]
  simp only [List.map_cons, List.map_nil, List.sum_cons, List.sum_nil, add_zero,
    ExactArithmetic.neg_eq, EdgeBlock.constant]
  split_ifs <;> simp [add_comm]

/-- The block of a point contributes its entry. -/
theorem entry_ofPointBlock (owner : Nat) (block : PointBlock α) (row col : Nat) :
    (ofPointBlock owner block).entry row col = block.entry owner row col :=
  sum_tripletUnlessZero owner owner block.linear row col

/-- The block of a point takes its constant from the right side. -/
theorem rhsAt_ofPointBlock (owner : Nat) (block : PointBlock α) (vertex : Nat) :
    (ofPointBlock owner block).rhsAt vertex = -block.constant owner vertex := by
  rw [rhsAt, ofPointBlock]
  simp only [List.map_singleton, List.sum_singleton, ExactArithmetic.neg_eq, PointBlock.constant]
  split_ifs <;> simp

end Contribution

end Blocks

section Blocks

variable [Arithmetic α] {mesh : Mesh α} {subdomain : Subdomain}

/-- The blocks that an edge kernel returns on a subdomain, and the endpoints they belong to. -/
def EdgeKernel.blocksOn (kernel : EdgeKernel α) (mesh : Mesh α) (subdomain : Subdomain) :
    Outcome (List (Ends Nat × EdgeBlock α)) := do
  let values ← kernel.eval mesh (← mesh.edgesOf subdomain)
  values.ends.zipIdx.mapM fun (ends, position) => do
    let block ← Outcome.ofLookup? (values.block.mapM fun coefficient => coefficient[position]?)
    return (ends, block)

/-- The blocks of a vertex kernel on a subdomain, and the vertices they belong to. -/
def PointBlock.blocksOnVertices (block : PointBlock (NumericFunction α)) (mesh : Mesh α)
    (subdomain : Subdomain) : Outcome (List (Nat × PointBlock α)) := do
  (← mesh.verticesOf subdomain).mapM (block.atVertex mesh)

/-- The blocks of a face kernel on a subdomain, and the owners they belong to. -/
def PointBlock.blocksOnFaces (block : PointBlock (NumericFunction α)) (mesh : Mesh α)
    (subdomain : Subdomain) : Outcome (List (Nat × PointBlock α)) := do
  (← mesh.facesOf subdomain).mapM (block.atFace mesh)

/-- A compiled edge kernel returns its block at every edge of the subdomain. -/
theorem EdgeKernel.blocksOn_ofCompiled {kernel : Kernel (EdgeBlock (NumericFunction α))}
    {blocks : List (Ends Nat × EdgeBlock α)}
    (formed : (ofCompiled kernel).blocksOn mesh subdomain = .ok blocks) :
    ∃ edges, mesh.edgesOf subdomain = .ok edges ∧
      edges.mapM (kernel.block.at mesh) = .ok blocks := by
  obtain ⟨edges, answers, formed⟩ := Outcome.bind_eq_ok_iff.mp formed
  obtain ⟨values, evaluates, formed⟩ := Outcome.bind_eq_ok_iff.mp formed
  obtain ⟨singles, formedSingles, stand⟩ := EdgeBlock.eval_blocks evaluates
  have complete : values.ends.length = edges.length := EdgeBlock.length_ends_of_eval evaluates
  have related := Outcome.mapM_eq_ok_iff.mp formed
  have countSingles := (Outcome.mapM_eq_ok_iff.mp formedSingles).length_eq
  have countBlocks := related.length_eq
  rw [List.length_zipIdx] at countBlocks
  refine ⟨edges, answers, ?_⟩
  rw [formedSingles]
  congr 1
  refine List.ext_getElem? fun position => ?_
  cases standsSingle : singles[position]? with
  | none =>
    have outside := List.getElem?_eq_none_iff.mp standsSingle
    exact (List.getElem?_eq_none_iff.mpr (by omega)).symm
  | some single =>
    obtain ⟨standsEnds, picks⟩ := stand position single standsSingle
    have standsPair : values.ends.zipIdx[position]? = some (single.1, position) := by
      rw [List.getElem?_zipIdx, standsEnds, Option.map_some, Nat.zero_add]
    obtain ⟨block, standsBlock, gives⟩ := exists_getElem?_of_forall₂ related standsPair
    obtain ⟨picked, looked, same⟩ := Outcome.bind_eq_ok_iff.mp gives
    cases same
    rw [Outcome.ofLookup?_eq_ok_iff, picks] at looked
    cases looked
    rw [standsBlock]

namespace Contribution

/-- The contribution of some blocks of edges. -/
theorem ofEdgeValues_blocks {kernel : EdgeKernel α} {contribution : Contribution α}
    (contributes : (do
      let edges ← mesh.edgesOf subdomain
      ofEdgeValues (← kernel.eval mesh edges) edges) = .ok contribution) :
    ∃ blocks, kernel.blocksOn mesh subdomain = .ok blocks ∧
      contribution = sum (blocks.map fun (ends, block) => ofEdgeBlock ends block) := by
  obtain ⟨edges, answers, contributes⟩ := Outcome.bind_eq_ok_iff.mp contributes
  obtain ⟨values, evaluates, contributes⟩ := Outcome.bind_eq_ok_iff.mp contributes
  obtain ⟨parts, formed, same⟩ : ∃ parts, (values.ends.zipIdx.mapM fun (ends, position) => do
      let block ← Outcome.ofLookup? (values.block.mapM fun coefficient => coefficient[position]?)
      return ofEdgeBlock ends block) = Except.ok parts ∧ contribution = sum parts := by
    unfold ofEdgeValues at contributes
    split at contributes
    · cases contributes
    · obtain ⟨parts, formed, same⟩ := Outcome.bind_eq_ok_iff.mp contributes
      cases same
      exact ⟨parts, formed, rfl⟩
  have each : ∀ (member : Ends Nat × Nat) (part : Contribution α), (do
      let block ← Outcome.ofLookup? (values.block.mapM fun coefficient => coefficient[member.2]?)
      return ofEdgeBlock member.1 block) = Except.ok part →
      ∃ single, (do
        let block ← Outcome.ofLookup? (values.block.mapM fun coefficient => coefficient[member.2]?)
        return (member.1, block)) = Except.ok single ∧ part = ofEdgeBlock single.1 single.2 := by
    rintro ⟨ends, position⟩ part gives
    obtain ⟨block, looked, same⟩ := Outcome.bind_eq_ok_iff.mp gives
    cases same
    exact ⟨(ends, block), Outcome.bind_eq_ok_iff.mpr ⟨block, looked, rfl⟩, rfl⟩
  obtain ⟨blocks, gives, related⟩ := Outcome.exists_related_mapM each formed
  refine ⟨blocks, Outcome.bind_eq_ok_iff.mpr
    ⟨edges, answers, Outcome.bind_eq_ok_iff.mpr ⟨values, evaluates, gives⟩⟩, ?_⟩
  rw [← List.forall₂_map_right_iff, List.forall₂_eq_eq_eq] at related
  rw [same, related]

/-- The contribution of values that are given by blocks. -/
theorem ofPointValues_eq_sum {values : PointValues α} {blocks : List (Nat × PointBlock α)}
    (same : values.vertices.zip (values.block.linear.toList.zip values.block.affine.toList) =
      blocks.map fun (vertex, block) => (vertex, block.linear, block.affine)) :
    ofPointValues values = sum (blocks.map fun (vertex, block) => ofPointBlock vertex block) := by
  rw [ofPointValues, same, List.map_map]
  rfl

variable {block : PointBlock (NumericFunction α)} {contribution : Contribution α}

/-- The kernel of a vertex contributes one block for each vertex. -/
theorem ofVertexValues_blocks
    (contributes : (do
      let vertices ← mesh.verticesOf subdomain
      return ofPointValues (← block.evalVertices mesh vertices)) = Except.ok contribution) :
    ∃ blocks, block.blocksOnVertices mesh subdomain = .ok blocks ∧
      contribution = sum (blocks.map fun (vertex, block) => ofPointBlock vertex block) := by
  obtain ⟨vertices, answers, contributes⟩ := Outcome.bind_eq_ok_iff.mp contributes
  obtain ⟨values, evaluates, same⟩ := Outcome.bind_eq_ok_iff.mp contributes
  cases same
  obtain ⟨blocks, formed, zipped⟩ := PointBlock.evalVertices_blocks evaluates
  exact ⟨blocks, Outcome.bind_eq_ok_iff.mpr ⟨vertices, answers, formed⟩,
    ofPointValues_eq_sum zipped⟩

/-- The kernel of a face contributes one block for each face. -/
theorem ofFaceValues_blocks
    (contributes : (do
      let faces ← mesh.facesOf subdomain
      return ofPointValues (← block.evalFaces mesh faces)) = Except.ok contribution) :
    ∃ blocks, block.blocksOnFaces mesh subdomain = .ok blocks ∧
      contribution = sum (blocks.map fun (vertex, block) => ofPointBlock vertex block) := by
  obtain ⟨faces, answers, contributes⟩ := Outcome.bind_eq_ok_iff.mp contributes
  obtain ⟨values, evaluates, same⟩ := Outcome.bind_eq_ok_iff.mp contributes
  cases same
  obtain ⟨blocks, formed, zipped⟩ := PointBlock.evalFaces_blocks evaluates
  exact ⟨blocks, Outcome.bind_eq_ok_iff.mpr ⟨faces, answers, formed⟩,
    ofPointValues_eq_sum zipped⟩

end Contribution

end Blocks

namespace LinearSystem

section Rounded

variable [Arithmetic α]

/-- Values added to a vector one after the other: every entry has its own added from the left. -/
theorem rhs_of_foldlM_addTo {entries : List (Nat × α)} {start result : Array α}
    (formed : entries.foldlM (fun rhs (vertex, value) => addTo rhs vertex value) start =
      .ok result) (vertex : Nat) :
    result[vertex]? = start[vertex]?.map fun old =>
      ((entries.filter fun entry => entry.1 = vertex).map Prod.snd).foldl Arithmetic.add old := by
  induction entries generalizing start with
  | nil =>
    cases formed
    simp
  | cons first rest ih =>
    obtain ⟨index, value⟩ := first
    obtain ⟨next, adds, formed⟩ := Outcome.bind_eq_ok_iff.mp formed
    have next_eq : next = start.modify index fun old => Arithmetic.add old value := by
      change addTo start index value = .ok next at adds
      unfold addTo at adds
      split at adds
      · cases adds
        rfl
      · cases adds
    rw [ih formed, next_eq, Array.getElem?_modify, List.filter_cons]
    by_cases same : index = vertex
    · rw [if_pos same, if_pos (decide_eq_true same), Option.map_map]
      rfl
    · rw [if_neg same, if_neg (by simpa using same)]

end Rounded

variable [AddCommGroup α] [Arithmetic α] [ExactArithmetic α]

/-- Adding from the left is adding up. -/
theorem foldl_add_eq_sum (values : List α) (start : α) :
    values.foldl Arithmetic.add start = start + values.sum := by
  induction values generalizing start with
  | nil => simp
  | cons value rest ih => rw [List.foldl_cons, ih, List.sum_cons, ExactArithmetic.add_eq, add_assoc]

/-- What is added to one entry of a vector, as a sum over all entries. -/
theorem foldl_add_filter (entries : List (Nat × α)) (vertex : Nat) (start : α) :
    ((entries.filter fun entry => entry.1 = vertex).map Prod.snd).foldl Arithmetic.add start =
      start + (entries.map fun (index, value) => if index = vertex then value else 0).sum := by
  rw [foldl_add_eq_sum]
  congr 1
  induction entries with
  | nil => rfl
  | cons first rest ih =>
    rw [List.filter_cons, List.map_cons, List.sum_cons, ← ih]
    by_cases same : first.1 = vertex <;> simp [same]

/-- The system of a contribution holds what it adds everywhere. -/
theorem entry_of_ofContribution {count : Nat} {contribution : Contribution α}
    {system : LinearSystem α} (formed : ofContribution count contribution = .ok system) :
    (∀ row col, system.matrix.entry row col = contribution.entry row col) ∧
      ∀ vertex < count, system.rhs[vertex]? = some (contribution.rhsAt vertex) := by
  obtain ⟨rhs, adds, formed⟩ := Outcome.bind_eq_ok_iff.mp formed
  obtain ⟨triplets, accepts, same⟩ := Outcome.bind_eq_ok_iff.mp formed
  cases same
  obtain ⟨rfl, inRange⟩ := SparseMatrix.triplets_eq_ok accepts
  constructor
  · intro row col
    have diagonal : (((List.range count).map fun vertex =>
        (⟨vertex, vertex, Arithmetic.zero⟩ : Triplet α)).map fun triplet =>
          if triplet.row = row ∧ triplet.col = col then triplet.value else 0).sum = 0 := by
      rw [List.map_map]
      refine List.sum_eq_zero fun value member => ?_
      obtain ⟨vertex, -, rfl⟩ := List.mem_map.mp member
      rw [Function.comp_apply, ExactArithmetic.zero_eq, ite_self]
    rw [SparseMatrix.entry_ofTriplets inRange, List.map_append, List.sum_append, diagonal, add_zero]
    rfl
  · intro vertex inside
    rw [rhs_of_foldlM_addTo adds, Array.getElem?_replicate, if_pos inside, Option.map_some,
      foldl_add_filter, ExactArithmetic.zero_eq, zero_add]
    rfl

end LinearSystem

section Total

variable {β : Type}

theorem sum_map_neg [AddCommGroup α] (f : β → α) (members : List β) :
    (members.map fun member => -f member).sum = -(members.map f).sum := by
  rw [List.sum_neg, List.map_map]
  rfl

namespace Contribution

/-- Contributions may be joined in any grouping. -/
theorem append_assoc (first second third : Contribution α) :
    (first.append second).append third = first.append (second.append third) := by
  simp [append]

/-- Contributions of two lists are joined list by list. -/
theorem sum_append (first second : List (Contribution α)) :
    sum (first ++ second) = (sum first).append (sum second) := by
  induction first with
  | nil => simp [sum, append]
  | cons contribution rest ih =>
    rw [List.cons_append]
    change contribution.append (sum (rest ++ second)) = (contribution.append (sum rest)).append _
    rw [ih, append_assoc]

/-- The sum of contributions, if each is the sum of those of some blocks. -/
theorem sum_of_forall₂ {part : β → Contribution α} {contributions : List (Contribution α)}
    {blocks : List (List β)}
    (related : List.Forall₂ (fun contribution blocks => contribution = sum (blocks.map part))
      contributions blocks) :
    sum contributions = sum (blocks.flatten.map part) := by
  induction related with
  | nil => rfl
  | @cons contribution block _ _ first _ ih =>
    rw [List.flatten_cons, List.map_append, sum_append, ← first, ← ih]
    rfl

end Contribution

end Total

/-- The blocks of all kernels but the Dirichlet kernels, with the vertices they belong to. -/
structure KernelBlocks (α : Type) where
  edge : List (Ends Nat × EdgeBlock α)
  point : List (Nat × PointBlock α)

/-- What all blocks add up to at an entry of the matrix. -/
def KernelBlocks.entry [AddCommGroup α] (blocks : KernelBlocks α) (row col : Nat) : α :=
  (blocks.edge.map fun (ends, block) => block.entry ends row col).sum +
    (blocks.point.map fun (owner, block) => block.entry owner row col).sum

/-- What the constant parts of all blocks add up to at a vertex. -/
def KernelBlocks.constant [AddCommGroup α] (blocks : KernelBlocks α) (vertex : Nat) : α :=
  (blocks.edge.map fun (ends, block) => block.constant ends vertex).sum +
    (blocks.point.map fun (owner, block) => block.constant owner vertex).sum

/-- The blocks of all kernels on all of their subdomains; a kernel returns them once for each time a
subdomain is listed. -/
def LinearKernels.blocks [Arithmetic α] (kernels : LinearKernels α) (mesh : Mesh α) :
    Outcome (KernelBlocks α) := do
  let edge ← kernels.edge.mapM fun kernel => kernel.subdomains.mapM (kernel.blocksOn mesh)
  let vertex ← kernels.vertex.mapM fun kernel =>
    kernel.subdomains.mapM (kernel.block.blocksOnVertices mesh)
  let face ← kernels.face.mapM fun kernel =>
    kernel.subdomains.mapM (kernel.block.blocksOnFaces mesh)
  return { edge := edge.flatten.flatten, point := vertex.flatten.flatten ++ face.flatten.flatten }

/-- What all blocks contribute, those of edges first. -/
def KernelBlocks.contribution [Arithmetic α] (blocks : KernelBlocks α) : Contribution α :=
  (Contribution.sum (blocks.edge.map fun (ends, block) => .ofEdgeBlock ends block)).append
    (Contribution.sum (blocks.point.map fun (owner, block) => .ofPointBlock owner block))

/-- The contributions of all kernels are those of their blocks. -/
theorem LinearKernels.contributions_sum [Arithmetic α] {mesh : Mesh α} {kernels : LinearKernels α}
    {contributions : List (Contribution α)}
    (formed : kernels.contributions mesh = .ok contributions) :
    ∃ blocks, kernels.blocks mesh = .ok blocks ∧
      Contribution.sum contributions = blocks.contribution := by
  obtain ⟨edge, formsEdge, formed⟩ := Outcome.bind_eq_ok_iff.mp formed
  obtain ⟨vertex, formsVertex, formed⟩ := Outcome.bind_eq_ok_iff.mp formed
  obtain ⟨face, formsFace, same⟩ := Outcome.bind_eq_ok_iff.mp formed
  cases same
  obtain ⟨edges, givesEdges, relatedEdges⟩ := Outcome.exists_related_mapM
    (fun kernel _ formed => Outcome.exists_related_mapM
      (fun _ _ => Contribution.ofEdgeValues_blocks) formed) formsEdge
  obtain ⟨vertices, givesVertices, relatedVertices⟩ := Outcome.exists_related_mapM
    (fun kernel _ formed => Outcome.exists_related_mapM
      (fun _ _ => Contribution.ofVertexValues_blocks) formed) formsVertex
  obtain ⟨faces, givesFaces, relatedFaces⟩ := Outcome.exists_related_mapM
    (fun kernel _ formed => Outcome.exists_related_mapM
      (fun _ _ => Contribution.ofFaceValues_blocks) formed) formsFace
  refine ⟨_, Outcome.bind_eq_ok_iff.mpr ⟨edges, givesEdges, Outcome.bind_eq_ok_iff.mpr
    ⟨vertices, givesVertices, Outcome.bind_eq_ok_iff.mpr ⟨faces, givesFaces, rfl⟩⟩⟩, ?_⟩
  rw [KernelBlocks.contribution, Contribution.sum_append, Contribution.sum_append,
    Contribution.sum_of_forall₂ (List.rel_flatten relatedEdges),
    Contribution.sum_of_forall₂ (List.rel_flatten relatedVertices),
    Contribution.sum_of_forall₂ (List.rel_flatten relatedFaces),
    List.map_append, Contribution.sum_append, Contribution.append_assoc]

section Assembly

variable [AddCommGroup α] [Arithmetic α] [ExactArithmetic α] {mesh : Mesh α}
  {kernels : LinearKernels α}

/-- The contributions of all kernels add up to the blocks. -/
theorem LinearKernels.contributions_blocks {contributions : List (Contribution α)}
    (formed : kernels.contributions mesh = .ok contributions) :
    ∃ blocks, kernels.blocks mesh = .ok blocks ∧
      (∀ row col, (Contribution.sum contributions).entry row col = blocks.entry row col) ∧
      ∀ vertex, (Contribution.sum contributions).rhsAt vertex = -blocks.constant vertex := by
  obtain ⟨blocks, gives, same⟩ := contributions_sum formed
  refine ⟨blocks, gives, fun row col => ?_, fun vertex => ?_⟩
  · rw [same, KernelBlocks.contribution, Contribution.entry_append, Contribution.entry_sum,
      Contribution.entry_sum, List.map_map, List.map_map, KernelBlocks.entry]
    simp only [Function.comp_def, Contribution.entry_ofEdgeBlock, Contribution.entry_ofPointBlock]
  · rw [same, KernelBlocks.contribution, Contribution.rhsAt_append, Contribution.rhsAt_sum,
      Contribution.rhsAt_sum, List.map_map, List.map_map, KernelBlocks.constant]
    simp only [Function.comp_def, Contribution.rhsAt_ofEdgeBlock, Contribution.rhsAt_ofPointBlock,
      sum_map_neg, neg_add]

/-- The assembled system is the sum of its kernels, with Dirichlet rows on top: at a vertex that no
Dirichlet kernel fixes the blocks of all other kernels add up, where every listed subdomain has its
entities once, and at all others the last Dirichlet kernel decides. -/
theorem LinearSystem.assemble_sums_blocks {system : LinearSystem α}
    (formed : assemble mesh kernels = .ok system) :
    ∃ blocks, kernels.blocks mesh = .ok blocks ∧
      (∀ vertex < mesh.vertexCount, (∀ kernel ∈ kernels.dirichlet, ¬Fixes mesh kernel vertex) →
        (∀ col, system.matrix.entry vertex col = blocks.entry vertex col) ∧
          system.rhs[vertex]? = some (-blocks.constant vertex)) ∧
      (∀ before kernel after vertex, kernels.dirichlet = before ++ kernel :: after →
        Fixes mesh kernel vertex → (∀ later ∈ after, ¬Fixes mesh later vertex) →
        ∃ block, kernel.block.at mesh vertex = .ok block ∧
          system.HasRow vertex block.coeff block.rhs) ∧
      (∀ kernel, EdgeKernel.ofCompiled kernel ∈ kernels.edge → ∀ subdomain ∈ kernel.subdomains,
        ∃ edges, mesh.edgesOf subdomain = .ok edges ∧
          edges.mapM (kernel.block.at mesh) =
            (EdgeKernel.ofCompiled kernel).blocksOn mesh subdomain) ∧
      ∀ subdomain entities, (mesh.edgesOf subdomain = .ok entities ∨
        mesh.verticesOf subdomain = .ok entities ∨ mesh.facesOf subdomain = .ok entities) →
        entities.Nodup := by
  obtain ⟨contributions, contributes, formed⟩ := Outcome.bind_eq_ok_iff.mp formed
  obtain ⟨start, sums, formed⟩ := Outcome.bind_eq_ok_iff.mp formed
  obtain ⟨blocks, gives, entry, rhs⟩ := LinearKernels.contributions_blocks contributes
  obtain ⟨entryStart, rhsStart⟩ := entry_of_ofContribution sums
  refine ⟨blocks, gives, ?_, ?_, ?_, ?_⟩
  · intro vertex inside free
    have unchanged := sameRow_enforceAll formed free
    constructor
    · intro col
      rw [SparseMatrix.entry_congr unchanged.1 col, entryStart, entry]
    · rw [unchanged.2, rhsStart vertex inside, rhs]
  · intro before kernel after vertex split fixes last
    rw [split] at formed
    exact hasRow_enforceAll formed fixes last
  · intro kernel present subdomain listed
    obtain ⟨_, givesEdges, -⟩ := Outcome.bind_eq_ok_iff.mp gives
    obtain ⟨_, -, givesKernel⟩ :=
      exists_mem_zip_of_forall₂ (Outcome.mapM_eq_ok_iff.mp givesEdges) present
    obtain ⟨_, -, formed⟩ :=
      exists_mem_zip_of_forall₂ (Outcome.mapM_eq_ok_iff.mp givesKernel) listed
    obtain ⟨edges, answers, same⟩ := EdgeKernel.blocksOn_ofCompiled formed
    exact ⟨edges, answers, same.trans formed.symm⟩
  · rintro subdomain entities (answers | answers | answers)
    · exact Mesh.nodup_edgesOf answers
    · exact Mesh.nodup_verticesOf answers
    · exact Mesh.nodup_facesOf answers

end Assembly

/-- An interval of one edge, with a boundary face at each end. -/
def Mesh.interval : Mesh ℚ where
  coords := { rows := #[#[0, 1]], count := 2, size_eq := by simp }
  edges := #[⟨0, 1⟩]
  ratios := #[1]
  lengths := #[1]
  volumes := #[1 / 2, 1 / 2]
  owners := #[0, 1]
  areas := #[1, 1]
  subdomains := [("left", [0])]

/-- A coefficient that is a number. -/
def NumericFunction.number (params : List String) (value : ℚ) : NumericFunction ℚ :=
  ⟨params, .const value, .num value⟩

/-- Kernels of every kind on an interval, the edge kernel on all edges twice. -/
def LinearKernels.onInterval : LinearKernels ℚ :=
  let onEdge := NumericFunction.number ["x0", "x1", "r", "l"]
  let atPoint := NumericFunction.number ["s", "x"]
  { edge := [.ofCompiled ⟨⟨⟨⟨onEdge 2, onEdge (-2)⟩, ⟨onEdge (-2), onEdge 2⟩⟩,
      ⟨onEdge 0, onEdge 3⟩⟩, [.everywhere, .everywhere]⟩]
    vertex := [⟨⟨⟨["s", "x"], .param 0, .sym "s"⟩, atPoint 1⟩, [.everywhere]⟩]
    face := [⟨⟨atPoint 5, ⟨["s", "x"], .param 1, .sym "x"⟩⟩, [.boundary]⟩]
    dirichlet := [⟨⟨.number ["x"] 1, .number ["x"] 7⟩, .named "left"⟩] }

/-- A system with one free and one fixed vertex. -/
theorem LinearSystem.assemble_sums_blocks_interval :
    ∃ system, assemble Mesh.interval LinearKernels.onInterval = .ok system ∧
      system.matrix.entry 1 0 = -4 ∧ system.matrix.entry 1 1 = 19 / 2 ∧
      system.rhs[1]? = some (-8 : ℚ) ∧ system.HasRow 0 1 7 := by
  obtain ⟨system, formed⟩ :
      ∃ system, assemble Mesh.interval LinearKernels.onInterval = .ok system := by
    have accepted : (assemble Mesh.interval LinearKernels.onInterval).isOk = true := by
      decide +kernel
    generalize assemble Mesh.interval LinearKernels.onInterval = outcome at accepted
    cases outcome with
    | ok system => exact ⟨system, rfl⟩
    | error failure => cases accepted
  obtain ⟨blocks, gives, free, fixed, -⟩ := assemble_sums_blocks formed
  have sums : ((LinearKernels.onInterval.blocks Mesh.interval).map fun blocks =>
      (blocks.entry 1 0, blocks.entry 1 1, blocks.constant 1)) = .ok (-4, 19 / 2, 8) := by
    decide +kernel
  have left : Mesh.interval.verticesOf (.named "left") = .ok [0] := by decide +kernel
  obtain ⟨entry, rhs⟩ := free 1 (by decide) (by
    intro kernel member
    rw [List.mem_singleton.mp member]
    rintro ⟨vertices, answers, listed⟩
    cases left.symm.trans answers
    simp at listed)
  obtain ⟨block, given, row⟩ := fixed [] _ [] 0 rfl ⟨[0], left, by simp⟩ (by simp)
  have conditioned : DirichletBlock.at ⟨.number ["x"] 1, .number ["x"] 7⟩ Mesh.interval 0 =
      .ok ⟨1, 7⟩ := by
    decide +kernel
  cases conditioned.symm.trans given
  rw [gives] at sums
  obtain ⟨entries, constant⟩ := Prod.mk.inj (Prod.mk.inj (Except.ok.inj sums)).2
  refine ⟨system, formed, ?_, ?_, ?_, row⟩
  · rw [entry]
    exact (Prod.mk.inj (Except.ok.inj sums)).1
  · rw [entry]
    exact entries
  · rw [rhs, constant]

end FiniteVolume
