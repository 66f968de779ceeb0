import FiniteVolume.Proofs.Kernel.Binding
import FiniteVolume.Proofs.Numeric.Exact

/-!
# Kernels and the dimension of a mesh

Compiled kernels can be evaluated on any entities of a mesh of the dimension they are compiled for,
and read the quantities of these entities there. On a mesh of another dimension every one of them is
rejected, since it gets too few or too many arguments (`kernels_read_mesh`).
-/

namespace FiniteVolume

variable {α : Type} {stencil : Stencil} {exprs : KernelSet Expr}

/-- An outcome that says how many arguments are missing or too many. -/
def Outcome.RejectsArguments {β : Type} (outcome : Outcome β) (expected actual : Nat) : Prop :=
  ∃ text, outcome = .error (.rejected (.shape (.argumentCount text expected actual)))

/-- All coefficients of some kernels have a written form. -/
structure KernelSet.Written (exprs : KernelSet Expr) : Prop where
  edge : ∀ kernel ∈ exprs.edge, ∀ coefficient ∈ kernel.block.coefficients,
    ∃ text, coefficient.text = .ok text
  vertex : ∀ kernel ∈ exprs.vertex, ∀ coefficient ∈ kernel.block.coefficients,
    ∃ text, coefficient.text = .ok text
  face : ∀ kernel ∈ exprs.face, ∀ coefficient ∈ kernel.block.coefficients,
    ∃ text, coefficient.text = .ok text
  dirichlet : ∀ kernel ∈ exprs.dirichlet, ∀ coefficient ∈ kernel.block.coefficients,
    ∃ text, coefficient.text = .ok text

/-- Discretized kernels can be written down. -/
theorem Problem.written_of_discretize {problem : Problem}
    (discretizes : problem.discretize stencil = .ok exprs) : exprs.Written := by
  obtain ⟨edge, vertex, face, dirichlet⟩ := gathered_coefficients discretizes
  exact {
    edge := fun kernel member coefficient inside =>
      Expr.exists_text (edge kernel member coefficient inside)
    vertex := fun kernel member coefficient inside =>
      Expr.exists_text (vertex kernel member coefficient inside)
    face := fun kernel member coefficient inside =>
      Expr.exists_text (face kernel member coefficient inside)
    dirichlet := fun kernel member coefficient inside =>
      Expr.exists_text (dirichlet kernel member coefficient inside) }

variable [Arithmetic α] {mesh : Mesh α}

section Rejection

variable {params : List String} {args : List (Quantity α)}

/-- The first of some compiled coefficients is not evaluated on another number of arguments than it
has parameters. -/
theorem exists_rejection {sources : List Expr} {function : NumericFunction α}
    {others : List (NumericFunction α)}
    (compiled : List.Forall₂ (fun e function => NumericFunction.compile params e = .ok function)
      sources (function :: others))
    (written : ∀ coefficient ∈ sources, ∃ text, coefficient.text = .ok text)
    (different : args.length ≠ params.length) (count : Nat) :
    (function.evalBatch args count).RejectsArguments params.length args.length := by
  obtain ⟨source, rest, first, -, rfl⟩ := List.forall₂_cons_right_iff.mp compiled
  obtain ⟨text, writes⟩ := written source List.mem_cons_self
  obtain ⟨root, -, -, rfl⟩ := NumericFunction.compile_eq_ok_iff.mp first
  exact ⟨text, NumericFunction.evalBatch_of_ne writes different⟩

/-- An edge block rejects arguments of another number than it has parameters. -/
theorem EdgeBlock.rejects_mapM {exprs : EdgeBlock Expr} {block : EdgeBlock (NumericFunction α)}
    (compiled : exprs.mapM (NumericFunction.compile params) = .ok block)
    (written : ∀ coefficient ∈ exprs.coefficients, ∃ text, coefficient.text = .ok text)
    (different : args.length ≠ params.length) (count : Nat) :
    (block.mapM fun function : NumericFunction α =>
      function.evalBatch args count).RejectsArguments params.length args.length := by
  obtain ⟨text, rejected⟩ := exists_rejection (mapM_eq_ok_iff.mp compiled) written different count
  refine ⟨text, ?_⟩
  rw [EdgeBlock.mapM, Ends.mapM, Ends.mapM, rejected]
  rfl

/-- The block of a point rejects arguments of another number than it has parameters. -/
theorem PointBlock.rejects_mapM {exprs : PointBlock Expr} {block : PointBlock (NumericFunction α)}
    (compiled : exprs.mapM (NumericFunction.compile params) = .ok block)
    (written : ∀ coefficient ∈ exprs.coefficients, ∃ text, coefficient.text = .ok text)
    (different : args.length ≠ params.length) (count : Nat) :
    (block.mapM fun function : NumericFunction α =>
      function.evalBatch args count).RejectsArguments params.length args.length := by
  obtain ⟨text, rejected⟩ := exists_rejection (mapM_eq_ok_iff.mp compiled) written different count
  refine ⟨text, ?_⟩
  rw [PointBlock.mapM, rejected]
  rfl

/-- The block of a condition rejects arguments of another number than it has parameters. -/
theorem DirichletBlock.rejects_mapM {exprs : DirichletBlock Expr}
    {block : DirichletBlock (NumericFunction α)}
    (compiled : exprs.mapM (NumericFunction.compile params) = .ok block)
    (written : ∀ coefficient ∈ exprs.coefficients, ∃ text, coefficient.text = .ok text)
    (different : args.length ≠ params.length) (count : Nat) :
    (block.mapM fun function : NumericFunction α =>
      function.evalBatch args count).RejectsArguments params.length args.length := by
  obtain ⟨text, rejected⟩ := exists_rejection (mapM_eq_ok_iff.mp compiled) written different count
  refine ⟨text, ?_⟩
  rw [DirichletBlock.mapM, rejected]
  rfl

end Rejection

/-- The kernel of an edge rejects meshes of another dimension. -/
theorem EdgeBlock.rejects (wellFormed : mesh.WellFormed) (otherDim : mesh.dim ≠ stencil.dim)
    {exprs : EdgeBlock Expr} {block : EdgeBlock (NumericFunction α)}
    (compiled : exprs.mapM (NumericFunction.compile stencil.edgeParams) = .ok block)
    (written : ∀ coefficient ∈ exprs.coefficients, ∃ text, coefficient.text = .ok text)
    {edges : List Nat} (inRange : ∀ edge ∈ edges, edge < mesh.edges.size) :
    (block.eval mesh edges).RejectsArguments (2 * stencil.dim + 2) (2 * mesh.dim + 2) := by
  obtain ⟨ends, first, second, ratios, lengths, gathersEnds, gathersFirst, gathersSecond,
    gathersRatios, gathersLengths, complete, -⟩ := wellFormed.exists_edgeArguments inRange
  have different : ((first ++ second ++ [ratios.toArray, lengths.toArray]).map
      Quantity.batch).length ≠ stencil.edgeParams.length := by
    rw [List.length_map, complete, Stencil.length_edgeParams]
    omega
  obtain ⟨text, rejected⟩ := rejects_mapM compiled written different edges.length
  rw [List.length_map, complete, Stencil.length_edgeParams] at rejected
  refine ⟨text, ?_⟩
  rw [EdgeBlock.eval, gathersEnds, Outcome.ok_bind, gathersFirst, Outcome.ok_bind, gathersSecond,
    Outcome.ok_bind, gathersRatios, Outcome.ok_bind, gathersLengths, Outcome.ok_bind]
  dsimp only
  rw [rejected, Outcome.error_bind]

/-- A point block is rejected at vertices of a mesh of another dimension. -/
theorem PointBlock.rejects {params : List String} {exprs : PointBlock Expr}
    {block : PointBlock (NumericFunction α)}
    (compiled : exprs.mapM (NumericFunction.compile params) = .ok block)
    (written : ∀ coefficient ∈ exprs.coefficients, ∃ text, coefficient.text = .ok text)
    (different : mesh.dim + 1 ≠ params.length) {vertices : List Nat} {weights : List α}
    (inRange : ∀ vertex ∈ vertices, vertex < mesh.vertexCount) :
    (block.eval mesh weights vertices).RejectsArguments params.length (mesh.dim + 1) := by
  obtain ⟨coords, gathers, rows, -⟩ := Mesh.exists_coordinates inRange
  have complete : ((weights.toArray :: coords).map Quantity.batch).length = mesh.dim + 1 := by
    rw [List.length_map, List.length_cons, rows]
  obtain ⟨text, rejected⟩ := rejects_mapM compiled written (complete ▸ different)
    vertices.length
  rw [complete] at rejected
  refine ⟨text, ?_⟩
  rw [PointBlock.eval, gathers, Outcome.ok_bind]
  dsimp only
  rw [rejected, Outcome.error_bind]

/-- The kernel of a vertex rejects meshes of another dimension. -/
theorem PointBlock.rejects_vertices (wellFormed : mesh.WellFormed)
    (otherDim : mesh.dim ≠ stencil.dim) {exprs : PointBlock Expr}
    {block : PointBlock (NumericFunction α)}
    (compiled : exprs.mapM (NumericFunction.compile stencil.vertexParams) = .ok block)
    (written : ∀ coefficient ∈ exprs.coefficients, ∃ text, coefficient.text = .ok text)
    {vertices : List Nat} (inRange : ∀ vertex ∈ vertices, vertex < mesh.vertexCount) :
    (block.evalVertices mesh vertices).RejectsArguments (stencil.dim + 1) (mesh.dim + 1) := by
  have inVolumes := inRange
  rw [← wellFormed.volumes] at inVolumes
  obtain ⟨weights, gathers, -⟩ := Mesh.exists_gather inVolumes
  rw [PointBlock.evalVertices, gathers, Outcome.ok_bind, ← Stencil.length_vertexParams]
  refine PointBlock.rejects compiled written ?_ inRange
  rw [Stencil.length_vertexParams]
  omega

/-- The kernel of a face rejects meshes of another dimension. -/
theorem PointBlock.rejects_faces (wellFormed : mesh.WellFormed)
    (otherDim : mesh.dim ≠ stencil.dim) {exprs : PointBlock Expr}
    {block : PointBlock (NumericFunction α)}
    (compiled : exprs.mapM (NumericFunction.compile stencil.faceParams) = .ok block)
    (written : ∀ coefficient ∈ exprs.coefficients, ∃ text, coefficient.text = .ok text)
    {faces : List Nat} (inRange : ∀ face ∈ faces, face < mesh.owners.size) :
    (block.evalFaces mesh faces).RejectsArguments (stencil.dim + 1) (mesh.dim + 1) := by
  have inAreas := inRange
  rw [← wellFormed.areas] at inAreas
  obtain ⟨weights, gathersWeights, -⟩ := Mesh.exists_gather inAreas
  obtain ⟨owners, gathersOwners, exist⟩ := Mesh.exists_gather inRange
  rw [PointBlock.evalFaces, gathersWeights, Outcome.ok_bind, gathersOwners, Outcome.ok_bind,
    ← Stencil.length_faceParams]
  refine PointBlock.rejects compiled written ?_ fun owner member =>
    wellFormed.owners owner (exist owner member)
  rw [Stencil.length_faceParams]
  omega

/-- The kernel of a condition rejects meshes of another dimension. -/
theorem DirichletBlock.rejects (otherDim : mesh.dim ≠ stencil.dim) {exprs : DirichletBlock Expr}
    {block : DirichletBlock (NumericFunction α)}
    (compiled : exprs.mapM (NumericFunction.compile stencil.dirichletParams) = .ok block)
    (written : ∀ coefficient ∈ exprs.coefficients, ∃ text, coefficient.text = .ok text)
    {vertices : List Nat} (inRange : ∀ vertex ∈ vertices, vertex < mesh.vertexCount) :
    (block.eval mesh vertices).RejectsArguments stencil.dim mesh.dim := by
  obtain ⟨coords, gathers, rows, -⟩ := Mesh.exists_coordinates inRange
  have params : stencil.dirichletParams.length = stencil.dim := Stencil.length_components "x"
  have complete : (coords.map Quantity.batch).length = mesh.dim := by rw [List.length_map, rows]
  rw [DirichletBlock.eval, gathers, Outcome.ok_bind, ← params, ← complete]
  refine rejects_mapM compiled written ?_ vertices.length
  rwa [complete, params]

/-- Kernels are compiled one by one. -/
theorem KernelSet.compile_eq_ok_iff {kernels : KernelSet (NumericFunction α)} :
    exprs.compile stencil = .ok kernels ↔
      exprs.edge.mapM (Kernel.mapM (EdgeBlock.mapM (NumericFunction.compile stencil.edgeParams))) =
        .ok kernels.edge ∧
      exprs.vertex.mapM
        (Kernel.mapM (PointBlock.mapM (NumericFunction.compile stencil.vertexParams))) =
          .ok kernels.vertex ∧
      exprs.face.mapM
        (Kernel.mapM (PointBlock.mapM (NumericFunction.compile stencil.faceParams))) =
          .ok kernels.face ∧
      exprs.dirichlet.mapM
        (DirichletKernel.mapM (NumericFunction.compile stencil.dirichletParams)) =
          .ok kernels.dirichlet := by
  constructor
  · intro compiled
    obtain ⟨edge, compilesEdge, compiled⟩ := Outcome.bind_eq_ok_iff.mp compiled
    obtain ⟨vertex, compilesVertex, compiled⟩ := Outcome.bind_eq_ok_iff.mp compiled
    obtain ⟨face, compilesFace, compiled⟩ := Outcome.bind_eq_ok_iff.mp compiled
    obtain ⟨dirichlet, compilesDirichlet, same⟩ := Outcome.bind_eq_ok_iff.mp compiled
    cases same
    exact ⟨compilesEdge, compilesVertex, compilesFace, compilesDirichlet⟩
  · rintro ⟨compilesEdge, compilesVertex, compilesFace, compilesDirichlet⟩
    rw [compile, compilesEdge, Outcome.ok_bind, compilesVertex, Outcome.ok_bind, compilesFace,
      Outcome.ok_bind, compilesDirichlet]
    rfl

/-- Every compiled kernel is compiled from one of the kernels given. -/
theorem KernelSet.exists_source {kernels : KernelSet (NumericFunction α)}
    (compiled : exprs.compile stencil = .ok kernels) :
    (∀ kernel ∈ kernels.edge, ∃ source ∈ exprs.edge,
      source.block.mapM (NumericFunction.compile stencil.edgeParams) = .ok kernel.block) ∧
    (∀ kernel ∈ kernels.vertex, ∃ source ∈ exprs.vertex,
      source.block.mapM (NumericFunction.compile stencil.vertexParams) = .ok kernel.block) ∧
    (∀ kernel ∈ kernels.face, ∃ source ∈ exprs.face,
      source.block.mapM (NumericFunction.compile stencil.faceParams) = .ok kernel.block) ∧
    ∀ kernel ∈ kernels.dirichlet, ∃ source ∈ exprs.dirichlet,
      source.block.mapM (NumericFunction.compile stencil.dirichletParams) = .ok kernel.block := by
  have sources : ∀ {β γ : Type} {f : β → Outcome γ} {members : List (Kernel β)}
      {results : List (Kernel γ)}, members.mapM (Kernel.mapM f) = .ok results →
      ∀ result ∈ results, ∃ source ∈ members, f source.block = .ok result.block := by
    intro β γ f members results mapped result member
    obtain ⟨source, paired, forms⟩ :=
      exists_mem_zip_of_forall₂ (Outcome.mapM_eq_ok_iff.mp mapped).flip member
    obtain ⟨block, formed, same⟩ := Outcome.bind_eq_ok_iff.mp forms
    cases same
    exact ⟨source, (List.of_mem_zip paired).2, formed⟩
  obtain ⟨compilesEdge, compilesVertex, compilesFace, compilesDirichlet⟩ :=
    compile_eq_ok_iff.mp compiled
  refine ⟨sources compilesEdge, sources compilesVertex, sources compilesFace,
    fun kernel member => ?_⟩
  obtain ⟨source, paired, forms⟩ :=
    exists_mem_zip_of_forall₂ (Outcome.mapM_eq_ok_iff.mp compilesDirichlet).flip member
  obtain ⟨block, formed, same⟩ := Outcome.bind_eq_ok_iff.mp forms
  cases same
  exact ⟨source, (List.of_mem_zip paired).2, formed⟩

/-- Mapping kernels keeps their subdomains. -/
theorem Kernel.subdomains_of_mapM {β γ : Type} {f : β → Outcome γ} {members : List (Kernel β)}
    {results : List (Kernel γ)} (mapped : members.mapM (Kernel.mapM f) = .ok results) :
    results.map subdomains = members.map subdomains := by
  have related : List.Forall₂ (fun member result => subdomains result = subdomains member)
      members results := by
    refine (Outcome.mapM_eq_ok_iff.mp mapped).imp fun member result forms => ?_
    obtain ⟨_, -, same⟩ := Outcome.bind_eq_ok_iff.mp forms
    cases same
    rfl
  rw [← List.forall₂_eq_eq_eq, List.forall₂_map_left_iff, List.forall₂_map_right_iff]
  exact related.flip

/-- Compiled kernels apply to the same subdomains. -/
theorem KernelSet.subdomains_of_compile {kernels : KernelSet (NumericFunction α)}
    (compiled : exprs.compile stencil = .ok kernels) :
    kernels.edge.map Kernel.subdomains = exprs.edge.map Kernel.subdomains ∧
      kernels.vertex.map Kernel.subdomains = exprs.vertex.map Kernel.subdomains ∧
      kernels.face.map Kernel.subdomains = exprs.face.map Kernel.subdomains := by
  obtain ⟨compilesEdge, compilesVertex, compilesFace, -⟩ := compile_eq_ok_iff.mp compiled
  exact ⟨Kernel.subdomains_of_mapM compilesEdge, Kernel.subdomains_of_mapM compilesVertex,
    Kernel.subdomains_of_mapM compilesFace⟩

/-- Evaluation of every kernel reads the quantities of the entities it is evaluated at. -/
structure KernelSet.Reads (kernels : KernelSet (NumericFunction α)) (stencil : Stencil)
    (mesh : Mesh α) : Prop where
  edge : ∀ kernel ∈ kernels.edge, ∀ edges : List Nat, (∀ edge ∈ edges, edge < mesh.edges.size) →
    kernel.block.Reads stencil mesh edges
  vertex : ∀ kernel ∈ kernels.vertex, ∀ vertices : List Nat,
    (∀ vertex ∈ vertices, vertex < mesh.vertexCount) →
      kernel.block.ReadsVertices stencil mesh vertices
  face : ∀ kernel ∈ kernels.face, ∀ faces : List Nat, (∀ face ∈ faces, face < mesh.owners.size) →
    kernel.block.ReadsFaces stencil mesh faces
  dirichlet : ∀ kernel ∈ kernels.dirichlet, ∀ vertices : List Nat,
    (∀ vertex ∈ vertices, vertex < mesh.vertexCount) → kernel.block.Reads stencil mesh vertices

/-- Evaluation of every kernel is rejected for the number of its arguments. -/
structure KernelSet.Rejects (kernels : KernelSet (NumericFunction α)) (stencil : Stencil)
    (mesh : Mesh α) : Prop where
  edge : ∀ kernel ∈ kernels.edge, ∀ edges : List Nat, (∀ edge ∈ edges, edge < mesh.edges.size) →
    (kernel.block.eval mesh edges).RejectsArguments (2 * stencil.dim + 2) (2 * mesh.dim + 2)
  vertex : ∀ kernel ∈ kernels.vertex, ∀ vertices : List Nat,
    (∀ vertex ∈ vertices, vertex < mesh.vertexCount) →
      (kernel.block.evalVertices mesh vertices).RejectsArguments (stencil.dim + 1) (mesh.dim + 1)
  face : ∀ kernel ∈ kernels.face, ∀ faces : List Nat, (∀ face ∈ faces, face < mesh.owners.size) →
    (kernel.block.evalFaces mesh faces).RejectsArguments (stencil.dim + 1) (mesh.dim + 1)
  dirichlet : ∀ kernel ∈ kernels.dirichlet, ∀ vertices : List Nat,
    (∀ vertex ∈ vertices, vertex < mesh.vertexCount) →
      (kernel.block.eval mesh vertices).RejectsArguments stencil.dim mesh.dim

/-- Compiled kernels read the quantities of entities on a mesh of their dimension. -/
theorem KernelSet.reads_of_compile (wellFormed : mesh.WellFormed)
    {kernels : KernelSet (NumericFunction α)} (compiled : exprs.compile stencil = .ok kernels)
    (sameDim : mesh.dim = stencil.dim) : kernels.Reads stencil mesh := by
  obtain ⟨edge, vertex, face, dirichlet⟩ := KernelSet.exists_source compiled
  refine ⟨?_, ?_, ?_, ?_⟩
  · intro kernel member edges inRange
    obtain ⟨source, -, formed⟩ := edge kernel member
    exact EdgeBlock.reads wellFormed sameDim formed inRange
  · intro kernel member vertices inRange
    obtain ⟨source, -, formed⟩ := vertex kernel member
    exact PointBlock.readsVertices wellFormed sameDim formed inRange
  · intro kernel member faces inRange
    obtain ⟨source, -, formed⟩ := face kernel member
    exact PointBlock.readsFaces wellFormed sameDim formed inRange
  · intro kernel member vertices inRange
    obtain ⟨source, -, formed⟩ := dirichlet kernel member
    exact DirichletBlock.reads sameDim formed inRange

/-- Compiled kernels are rejected on a mesh of another dimension. -/
theorem KernelSet.rejects_of_compile (wellFormed : mesh.WellFormed)
    {kernels : KernelSet (NumericFunction α)} (compiled : exprs.compile stencil = .ok kernels)
    (otherDim : mesh.dim ≠ stencil.dim) (written : exprs.Written) :
    kernels.Rejects stencil mesh := by
  obtain ⟨edge, vertex, face, dirichlet⟩ := KernelSet.exists_source compiled
  refine ⟨?_, ?_, ?_, ?_⟩
  · intro kernel member edges inRange
    obtain ⟨source, inside, formed⟩ := edge kernel member
    exact EdgeBlock.rejects wellFormed otherDim formed (written.edge source inside) inRange
  · intro kernel member vertices inRange
    obtain ⟨source, inside, formed⟩ := vertex kernel member
    exact PointBlock.rejects_vertices wellFormed otherDim formed (written.vertex source inside)
      inRange
  · intro kernel member faces inRange
    obtain ⟨source, inside, formed⟩ := face kernel member
    exact PointBlock.rejects_faces wellFormed otherDim formed (written.face source inside) inRange
  · intro kernel member vertices inRange
    obtain ⟨source, inside, formed⟩ := dirichlet kernel member
    exact DirichletBlock.rejects otherDim formed (written.dirichlet source inside) inRange

/-- On a mesh that can be built, compiled kernels read the quantities of the entities they are
evaluated at if the mesh has their dimension. If it has another one they are rejected, given that
the error can be written, as for all discretized kernels. -/
theorem kernels_read_mesh (built : mesh.Built) {kernels : KernelSet (NumericFunction α)}
    (compiled : exprs.compile stencil = .ok kernels) :
    (mesh.dim = stencil.dim → kernels.Reads stencil mesh) ∧
      (mesh.dim ≠ stencil.dim → exprs.Written → kernels.Rejects stencil mesh) ∧
      ∀ problem : Problem, problem.discretize stencil = .ok exprs → exprs.Written :=
  ⟨KernelSet.reads_of_compile built.wellFormed compiled,
    KernelSet.rejects_of_compile built.wellFormed compiled,
    fun problem discretizes => problem.written_of_discretize discretizes⟩

/-- Conduction with a source, a flux through the boundary and a fixed value, each of them dependent
on the position. -/
def Problem.conduction : Problem where
  integrals := [
    ⟨fun point => do Expr.prod [← point.coord 0,
      .call .normalDerivative [.apply "u" [point.position]]], .controlVolumeSurface, [.everywhere]⟩,
    ⟨fun point => point.coord 0, .controlVolume, [.everywhere]⟩,
    ⟨fun point => do Expr.prod [← point.coord 0, .apply "u" [point.position]], .boundarySurface,
      [.boundary]⟩]
  conditions := [⟨fun point => do return Expr.sum [← point.coord 0, .apply "u" [point.position]],
    .boundary⟩]

/-- On the line, and in the plane. -/
theorem kernels_read_mesh_conduction :
    ∃ (kernels : KernelSet (NumericFunction ℚ)) (line plane : Mesh ℚ),
      (Problem.conduction.discretize ⟨1, ⟨"u"⟩⟩ >>= fun exprs => exprs.compile ⟨1, ⟨"u"⟩⟩) =
        .ok kernels ∧
      line.edges.size = 1 ∧ kernels.Reads ⟨1, ⟨"u"⟩⟩ line ∧
      plane.edges.size = 1 ∧ kernels.Rejects ⟨1, ⟨"u"⟩⟩ plane := by
  obtain ⟨kernels, compiles⟩ : ∃ kernels : KernelSet (NumericFunction ℚ),
      (Problem.conduction.discretize ⟨1, ⟨"u"⟩⟩ >>= fun exprs => exprs.compile ⟨1, ⟨"u"⟩⟩) =
        .ok kernels := Outcome.exists_of_isOk (by decide +kernel)
  obtain ⟨exprs, discretizes, compiled⟩ := Outcome.bind_eq_ok_iff.mp compiles
  have line : @Mesh.Built ℚ _ := .build
    (show Mesh.build ⟨#[#[0, 2]], 2, by simp⟩ #[⟨0, 1⟩] #[1] #[2] #[1, 1] = .ok _ from rfl)
  have plane : @Mesh.Built ℚ _ := .build
    (show Mesh.build ⟨#[#[0, 3], #[0, 4]], 2, by simp⟩ #[⟨0, 1⟩] #[1] #[5] #[1, 1] = .ok _ from rfl)
  exact ⟨kernels, _, _, compiles, rfl, (kernels_read_mesh line compiled).1 rfl, rfl,
    (kernels_read_mesh plane compiled).2.1 (by decide)
      ((kernels_read_mesh plane compiled).2.2 _ discretizes)⟩

end FiniteVolume
