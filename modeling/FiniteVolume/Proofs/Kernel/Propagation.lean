import FiniteVolume.Proofs.Kernel.Reading
import FiniteVolume.Proofs.Mesh.Subdomains

/-!
# Compiled kernels return values or are rejected

A compiled function has values on arguments for all of its parameters and is rejected on any other
number of arguments, provided that the expression it was compiled from can be written down. So
nothing is looked up in vain when compiled kernels are evaluated at entities that exist, whatever
parameters each of their coefficients has (`EdgeBlock.propagates_eval` and its companions).
-/

namespace FiniteVolume

variable {α β : Type} {property : β → Prop} {cause : Prop} {outcome : Outcome β}

/-- A computation that fails only for undefined subdomains is answered or rejected. -/
theorem Resolves.propagates {mesh : Mesh α} {asked : List Subdomain}
    (resolves : Resolves mesh asked property outcome) : outcome.Propagates property cause := by
  cases resolves with
  | answered _ holds => exact .answered holds
  | undefined => exact .rejected _

section Blocks

variable {κ ρ : Type} {f : κ → Outcome ρ}

/-- Mapping an edge block propagates a cause if mapping each coefficient does. -/
theorem EdgeBlock.propagates_mapM {block : EdgeBlock κ}
    (each : ∀ coefficient ∈ block.coefficients, (f coefficient).Propagates (fun _ => True) cause) :
    (block.mapM f).Propagates (fun _ => True) cause :=
  holds_mapM (fun outcome => outcome.Propagates (fun _ => True) cause)
    (fun _ => .answered trivial) (fun first next => first.bind fun answer _ => next answer) each

/-- Mapping the block of a point propagates a cause if mapping each coefficient does. -/
theorem PointBlock.propagates_mapM {block : PointBlock κ}
    (each : ∀ coefficient ∈ block.coefficients, (f coefficient).Propagates (fun _ => True) cause) :
    (block.mapM f).Propagates (fun _ => True) cause := by
  simp only [coefficients, List.forall_mem_cons] at each
  exact each.1.bind fun _ _ => each.2.1.bind fun _ _ => .answered trivial

/-- Mapping the block of a condition propagates a cause if mapping each coefficient does. -/
theorem DirichletBlock.propagates_mapM {block : DirichletBlock κ}
    (each : ∀ coefficient ∈ block.coefficients, (f coefficient).Propagates (fun _ => True) cause) :
    (block.mapM f).Propagates (fun _ => True) cause := by
  simp only [coefficients, List.forall_mem_cons] at each
  exact each.1.bind fun _ _ => each.2.1.bind fun _ _ => .answered trivial

end Blocks

variable [Arithmetic α] {mesh : Mesh α}

namespace NumericFunction

/-- A function is compiled, for some parameters, from an expression that can be written down. -/
def Compiled (function : NumericFunction α) : Prop :=
  ∃ (params : List String) (source : Expr),
    (∃ text, source.text = .ok text) ∧ compile params source = .ok function

variable {function : NumericFunction α}

/-- A compiled function does not fail on arguments of the right length. -/
theorem Compiled.propagates_evalBatch (compiled : function.Compiled) {args : List (Quantity α)}
    {count : Nat} (fit : ∀ arg ∈ args, arg.Fits count) :
    (function.evalBatch args count).Propagates (fun _ => True) cause := by
  obtain ⟨params, source, ⟨text, writes⟩, compiles⟩ := compiled
  obtain ⟨root, -, -, rfl⟩ := compile_eq_ok_iff.mp compiles
  by_cases complete : args.length = params.length
  · obtain ⟨results, evaluates⟩ := exists_evalBatch compiles complete fit
    rw [evaluates]
    exact .answered trivial
  · rw [evalBatch_of_ne writes complete]
    exact .rejected _

end NumericFunction

section Evaluation

/-- An edge block has values at edges that exist or is rejected. -/
theorem EdgeBlock.propagates_eval {block : EdgeBlock (NumericFunction α)}
    (compiled : ∀ function ∈ block.coefficients, function.Compiled) (wellFormed : mesh.WellFormed)
    {edges : List Nat} (inRange : ∀ edge ∈ edges, edge < mesh.edges.size) :
    (block.eval mesh edges).Propagates (fun _ => True) cause := by
  obtain ⟨ends, first, second, ratios, lengths, gathersEnds, gathersFirst, gathersSecond,
    gathersRatios, gathersLengths, -, arguments⟩ := wellFormed.exists_edgeArguments inRange
  rw [EdgeBlock.eval, gathersEnds, Outcome.ok_bind, gathersFirst, Outcome.ok_bind, gathersSecond,
    Outcome.ok_bind, gathersRatios, Outcome.ok_bind, gathersLengths, Outcome.ok_bind]
  exact (propagates_mapM fun function member =>
    (compiled function member).propagates_evalBatch arguments.fit).bind fun _ _ => .answered trivial

/-- A point block has values at vertices that exist or is rejected. -/
theorem PointBlock.propagates_eval {block : PointBlock (NumericFunction α)}
    (compiled : ∀ function ∈ block.coefficients, function.Compiled) {weights : List α}
    {vertices : List Nat} (inRange : ∀ vertex ∈ vertices, vertex < mesh.vertexCount)
    (count : weights.length = vertices.length) :
    (block.eval mesh weights vertices).Propagates (fun values => values.vertices = vertices)
      cause := by
  obtain ⟨coords, gathers, -, arguments⟩ := Mesh.exists_coordinates inRange
  have fit : ∀ arg ∈ (weights.toArray :: coords).map Quantity.batch, arg.Fits vertices.length :=
    List.forall_mem_cons.mpr ⟨count, arguments.fit⟩
  rw [PointBlock.eval, gathers, Outcome.ok_bind]
  exact (propagates_mapM fun function member =>
    (compiled function member).propagates_evalBatch fit).bind fun _ _ => .answered rfl

/-- The kernel of a vertex does not fail on the vertices of the mesh. -/
theorem PointBlock.propagates_evalVertices {block : PointBlock (NumericFunction α)}
    (compiled : ∀ function ∈ block.coefficients, function.Compiled) (wellFormed : mesh.WellFormed)
    {vertices : List Nat} (inRange : ∀ vertex ∈ vertices, vertex < mesh.vertexCount) :
    (block.evalVertices mesh vertices).Propagates (fun values => values.vertices = vertices)
      cause := by
  have inVolumes := inRange
  rw [← wellFormed.volumes] at inVolumes
  obtain ⟨weights, gathers, -⟩ := Mesh.exists_gather inVolumes
  rw [PointBlock.evalVertices, gathers, Outcome.ok_bind]
  exact propagates_eval compiled inRange (Mesh.length_of_gather gathers)

/-- The kernel of a face does not fail on the faces of the mesh, and reports vertices of the
mesh. -/
theorem PointBlock.propagates_evalFaces {block : PointBlock (NumericFunction α)}
    (compiled : ∀ function ∈ block.coefficients, function.Compiled) (wellFormed : mesh.WellFormed)
    {faces : List Nat} (inRange : ∀ face ∈ faces, face < mesh.owners.size) :
    (block.evalFaces mesh faces).Propagates
      (fun values => ∀ vertex ∈ values.vertices, vertex < mesh.vertexCount) cause := by
  have inAreas := inRange
  rw [← wellFormed.areas] at inAreas
  obtain ⟨weights, gathersWeights, -⟩ := Mesh.exists_gather inAreas
  obtain ⟨owners, gathersOwners, exist⟩ := Mesh.exists_gather inRange
  have inVertices : ∀ owner ∈ owners, owner < mesh.vertexCount := fun owner member =>
    wellFormed.owners owner (exist owner member)
  have count : weights.length = owners.length :=
    (Mesh.length_of_gather gathersWeights).trans (Mesh.length_of_gather gathersOwners).symm
  rw [PointBlock.evalFaces, gathersWeights, Outcome.ok_bind, gathersOwners, Outcome.ok_bind]
  exact (propagates_eval compiled inVertices count).imp (fun _ same => same ▸ inVertices) id

/-- A Dirichlet block has values at vertices that exist or is rejected. -/
theorem DirichletBlock.propagates_eval {block : DirichletBlock (NumericFunction α)}
    (compiled : ∀ function ∈ block.coefficients, function.Compiled) {vertices : List Nat}
    (inRange : ∀ vertex ∈ vertices, vertex < mesh.vertexCount) :
    (block.eval mesh vertices).Propagates (fun _ => True) cause := by
  obtain ⟨coords, gathers, -, arguments⟩ := Mesh.exists_coordinates inRange
  rw [DirichletBlock.eval, gathers, Outcome.ok_bind]
  exact propagates_mapM fun function member =>
    (compiled function member).propagates_evalBatch arguments.fit

end Evaluation

/-- All kernels but the edge kernels are compiled. -/
structure LinearKernels.Compiled (kernels : LinearKernels α) : Prop where
  vertex : ∀ kernel ∈ kernels.vertex, ∀ function ∈ kernel.block.coefficients, function.Compiled
  face : ∀ kernel ∈ kernels.face, ∀ function ∈ kernel.block.coefficients, function.Compiled
  dirichlet : ∀ kernel ∈ kernels.dirichlet,
    ∀ function ∈ kernel.block.coefficients, function.Compiled

/-- All kernels of a problem are compiled, the edge kernels included. -/
theorem Problem.compiled_of_compile {problem : Problem} {stencil : Stencil}
    {kernels : LinearKernels α} (compiles : problem.compile stencil = .ok kernels) :
    kernels.Compiled ∧ ∀ kernel ∈ kernels.edge, ∃ source, kernel = EdgeKernel.ofCompiled source ∧
      ∀ function ∈ source.block.coefficients, function.Compiled := by
  obtain ⟨exprs, discretizes, forms⟩ := Outcome.bind_eq_ok_iff.mp compiles
  obtain ⟨set, compilesSet, same⟩ := Outcome.bind_eq_ok_iff.mp forms
  cases same
  have written := problem.written_of_discretize discretizes
  obtain ⟨edge, vertex, face, dirichlet⟩ := KernelSet.exists_source compilesSet
  have each : ∀ {params : List String} {exprs : List Expr} {functions : List (NumericFunction α)},
      (∀ e ∈ exprs, ∃ text, e.text = .ok text) →
      List.Forall₂ (fun e function => NumericFunction.compile params e = .ok function) exprs
        functions → ∀ function ∈ functions, function.Compiled := by
    intro params exprs functions written compiled function member
    obtain ⟨e, paired, forms⟩ := exists_mem_zip_of_forall₂ compiled.flip member
    exact ⟨params, e, written e (List.of_mem_zip paired).2, forms⟩
  refine ⟨⟨fun kernel member => ?_, fun kernel member => ?_, fun kernel member => ?_⟩,
    fun kernel member => ?_⟩
  · obtain ⟨source, inside, forms⟩ := vertex kernel member
    exact each (written.vertex source inside) (PointBlock.mapM_eq_ok_iff.mp forms)
  · obtain ⟨source, inside, forms⟩ := face kernel member
    exact each (written.face source inside) (PointBlock.mapM_eq_ok_iff.mp forms)
  · obtain ⟨source, inside, forms⟩ := dirichlet kernel member
    exact each (written.dirichlet source inside) (DirichletBlock.mapM_eq_ok_iff.mp forms)
  · obtain ⟨compiled, inside, rfl⟩ := List.mem_map.mp member
    obtain ⟨source, insideSource, forms⟩ := edge compiled inside
    exact ⟨compiled, rfl, each (written.edge source insideSource)
      (EdgeBlock.mapM_eq_ok_iff.mp forms)⟩

end FiniteVolume
