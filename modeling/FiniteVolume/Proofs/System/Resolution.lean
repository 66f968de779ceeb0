import FiniteVolume.Proofs.Kernel.Reading
import FiniteVolume.Proofs.Mesh.Subdomains
import FiniteVolume.Proofs.System.Reported

/-!
# When assembly fails

The kernels of a problem can be assembled on every mesh of their dimension that defines the
subdomains they are asked for; nothing else can go wrong (`assemble_resolves`). All positions that
kernels contribute to belong to vertices, so the triplets are accepted, every vertex has an entry in
the right-hand side, and every diagonal entry can be set. On a mesh of another dimension no system
is assembled as soon as there is one kernel.
-/

namespace FiniteVolume

variable {α : Type}

/-- The subdomains of all kernels. -/
def LinearKernels.subdomains (kernels : LinearKernels α) : List Subdomain :=
  kernels.edge.flatMap EdgeKernel.subdomains ++ kernels.vertex.flatMap Kernel.subdomains ++
    kernels.face.flatMap Kernel.subdomains ++ kernels.dirichlet.map DirichletKernel.subdomain

section Contributions

variable [Arithmetic α] {mesh : Mesh α} {stencil : Stencil} {subdomain : Subdomain}

/-- An edge kernel that can be evaluated contributes at vertices. -/
theorem EdgeBlock.Reads.exists_contribution {block : EdgeBlock (NumericFunction α)}
    {edges : List Nat} (reads : block.Reads stencil mesh edges) (wellFormed : mesh.WellFormed) :
    ∃ contribution,
      (block.eval mesh edges >>= fun values => Contribution.ofEdgeValues values edges) =
        .ok contribution ∧ contribution.InRange mesh.vertexCount := by
  obtain ⟨values, evaluates, complete, -, quantities⟩ := reads
  obtain ⟨contribution, contributes, inRange⟩ :=
    (EdgeValues.fits_of_eval wellFormed evaluates).exists_contribution complete
  exact ⟨contribution, Outcome.bind_eq_ok_iff.mpr ⟨values, evaluates, contributes⟩, inRange⟩

/-- A vertex kernel that can be evaluated contributes at its vertices. -/
theorem PointBlock.ReadsVertices.exists_contribution {block : PointBlock (NumericFunction α)}
    {vertices : List Nat} (reads : block.ReadsVertices stencil mesh vertices)
    (inRange : ∀ vertex ∈ vertices, vertex < mesh.vertexCount) :
    ∃ contribution,
      (do return Contribution.ofPointValues (← block.evalVertices mesh vertices)) =
        Except.ok contribution ∧ contribution.InRange mesh.vertexCount := by
  obtain ⟨values, evaluates, same, -⟩ := reads
  rw [← same] at inRange
  exact ⟨_, Outcome.bind_eq_ok_iff.mpr ⟨values, evaluates, rfl⟩,
    Contribution.inRange_ofPointValues inRange⟩

/-- A face kernel that can be evaluated contributes at the owners of its faces. -/
theorem PointBlock.ReadsFaces.exists_contribution {block : PointBlock (NumericFunction α)}
    {faces : List Nat} (reads : block.ReadsFaces stencil mesh faces)
    (wellFormed : mesh.WellFormed) :
    ∃ contribution,
      (do return Contribution.ofPointValues (← block.evalFaces mesh faces)) =
        Except.ok contribution ∧ contribution.InRange mesh.vertexCount := by
  obtain ⟨values, evaluates, complete, -, quantities⟩ := reads
  refine ⟨_, Outcome.bind_eq_ok_iff.mpr ⟨values, evaluates, rfl⟩,
    Contribution.inRange_ofPointValues fun owner member => ?_⟩
  obtain ⟨position, stands⟩ := List.mem_iff_getElem?.mp member
  have inside : position < values.vertices.length := (List.getElem?_eq_some_iff.mp stands).1
  have standsFace := List.getElem?_eq_getElem (complete ▸ inside : position < faces.length)
  obtain ⟨owner', symbol, stands', onFace, -⟩ := quantities position _ standsFace
  cases stands.symm.trans stands'
  exact wellFormed.owners owner (Array.mem_of_getElem? onFace.belongs)

omit [Arithmetic α] in
/-- What a kernel contributes on each of its subdomains. -/
theorem resolves_subdomains {subdomains : List Subdomain} {β : Type} {property : β → Prop}
    {contribute : Subdomain → Outcome β}
    (each : ∀ subdomain, Resolves mesh [subdomain] property (contribute subdomain)) :
    Resolves mesh subdomains (fun results => ∀ result ∈ results, property result)
      (subdomains.mapM contribute) := by
  have resolves : Resolves mesh (subdomains.flatMap fun subdomain => [subdomain]) _
      (subdomains.mapM contribute) := Resolves.mapM fun subdomain _ => each subdomain
  rwa [List.flatMap_singleton'] at resolves

/-- All kernels but the Dirichlet kernels contribute at vertices. -/
theorem KernelSet.Reads.resolves_contributions {kernels : KernelSet (NumericFunction α)}
    (reads : kernels.Reads stencil mesh) (wellFormed : mesh.WellFormed) :
    Resolves mesh (kernels.toLinear.edge.flatMap EdgeKernel.subdomains ++
        (kernels.vertex.flatMap Kernel.subdomains ++ kernels.face.flatMap Kernel.subdomains))
      (fun contributions => ∀ contribution ∈ contributions, contribution.InRange mesh.vertexCount)
      (kernels.toLinear.contributions mesh) := by
  have flatten : ∀ {lists : List (List (Contribution α))},
      (∀ list ∈ lists, ∀ contribution ∈ list, contribution.InRange mesh.vertexCount) →
      ∀ contribution ∈ lists.flatten, contribution.InRange mesh.vertexCount := by
    intro lists inRange contribution member
    obtain ⟨list, inside, present⟩ := List.mem_flatten.mp member
    exact inRange list inside contribution present
  refine Resolves.bind (Resolves.mapM fun kernel member => resolves_subdomains fun subdomain => ?_)
    fun edge inEdge => Resolves.bind
      (Resolves.mapM fun kernel member => resolves_subdomains fun subdomain => ?_)
      fun vertex inVertex => Resolves.bind_ok
        (Resolves.mapM fun kernel member => resolves_subdomains fun subdomain => ?_)
        fun face inFace => ⟨_, rfl, List.forall_mem_append.mpr
          ⟨List.forall_mem_append.mpr ⟨flatten inEdge, flatten inVertex⟩, flatten inFace⟩⟩
  · obtain ⟨kernel, inside, rfl⟩ := List.mem_map.mp member
    exact (Mesh.resolves_edgesOf subdomain).bind_ok fun edges inRange =>
      (reads.edge kernel inside edges inRange).exists_contribution wellFormed
  · exact (Mesh.resolves_verticesOf subdomain).bind_ok fun vertices inRange =>
      (reads.vertex kernel member vertices inRange).exists_contribution inRange
  · exact (Mesh.resolves_facesOf subdomain).bind_ok fun faces inRange =>
      (reads.face kernel member faces inRange).exists_contribution wellFormed

end Contributions

namespace LinearSystem

variable {count : Nat}

variable [Arithmetic α] {mesh : Mesh α} {stencil : Stencil}

theorem exists_addTo {vector : Array α} {index : Nat} (inRange : index < vector.size) (value : α) :
    ∃ next, addTo vector index value = .ok next ∧ next.size = vector.size := by
  rw [addTo, if_pos inRange]
  exact ⟨_, rfl, Array.size_modify⟩

/-- A contribution at vertices has a system. -/
theorem exists_ofContribution {contribution : Contribution α}
    (inRange : contribution.InRange count) :
    ∃ system, ofContribution count contribution = .ok system ∧ system.OfSize count := by
  obtain ⟨rhs, adds, size⟩ : ∃ rhs, contribution.rhs.foldlM
      (fun rhs entry => addTo rhs entry.1 entry.2)
      (Array.replicate count Arithmetic.zero) = .ok rhs ∧ rhs.size = count := by
    refine Outcome.exists_foldlM (fun entry member vector size => ?_) Array.size_replicate
    obtain ⟨next, added, sameSize⟩ :=
      exists_addTo (size ▸ inRange.rhs entry member : entry.1 < vector.size) entry.2
    exact ⟨next, added, sameSize.trans size⟩
  have diagonal : ∀ triplet ∈ (List.range count).map fun vertex =>
      (⟨vertex, vertex, Arithmetic.zero⟩ : Triplet α),
      triplet.row < count ∧ triplet.col < count := by
    intro triplet member
    obtain ⟨vertex, inside, rfl⟩ := List.mem_map.mp member
    exact ⟨List.mem_range.mp inside, List.mem_range.mp inside⟩
  obtain ⟨triplets, accepted⟩ :=
    SparseMatrix.exists_triplets (List.forall_mem_append.mpr ⟨inRange.triplets, diagonal⟩)
  exact ⟨_, Outcome.bind_eq_ok_iff.mpr
    ⟨rhs, adds, Outcome.bind_eq_ok_iff.mpr ⟨triplets, accepted, rfl⟩⟩,
    SparseMatrix.size_ofTriplets count count triplets, rfl, size⟩

/-- The system of a contribution is square, with an equation for every vertex. -/
theorem ofSize_of_ofContribution {contribution : Contribution α} {system : LinearSystem α}
    (formed : ofContribution count contribution = .ok system) : system.OfSize count := by
  obtain ⟨rhs, adds, formed⟩ := Outcome.bind_eq_ok_iff.mp formed
  obtain ⟨triplets, -, same⟩ := Outcome.bind_eq_ok_iff.mp formed
  cases same
  refine ⟨SparseMatrix.size_ofTriplets count count triplets, rfl, ?_⟩
  refine Outcome.property_of_foldlM (fun rhs : Array α => rhs.size = count) adds
    Array.size_replicate fun entry _ rhs next size adds => ?_
  change addTo rhs entry.1 entry.2 = .ok next at adds
  by_cases inside : entry.1 < rhs.size
  · obtain ⟨_, adds', sameSize⟩ := exists_addTo inside entry.2
    cases adds.symm.trans adds'
    exact sameSize.trans size
  · rw [addTo, if_neg inside] at adds
    cases adds

/-- Enforcing a Dirichlet kernel that can be evaluated. -/
theorem resolves_enforceDirichlet {kernel : DirichletKernel (NumericFunction α)}
    (reads : ∀ vertices : List Nat, (∀ vertex ∈ vertices, vertex < mesh.vertexCount) →
      kernel.block.Reads stencil mesh vertices)
    {system : LinearSystem α} (size : system.OfSize mesh.vertexCount) :
    Resolves mesh [kernel.subdomain] (OfSize mesh.vertexCount) (do
      let (enforced, outcome) := system.enforceDirichlet mesh kernel
      outcome
      return enforced) := by
  have resolves : Resolves mesh _ _ (mesh.verticesOf kernel.subdomain) :=
    Mesh.resolves_verticesOf kernel.subdomain
  cases answers : mesh.verticesOf kernel.subdomain with
  | error failure =>
    rw [answers] at resolves
    have fails : system.enforceDirichlet mesh kernel = (system, .error failure) := by
      simp only [enforceDirichlet, answers]
    rw [fails]
    cases resolves with
    | undefined isAsked missing => exact .undefined isAsked missing
  | ok vertices =>
    rw [answers] at resolves
    cases resolves with
    | answered defined inRange =>
      obtain ⟨values, evaluates, -⟩ := reads vertices inRange
      have covers : system.Covers vertices := by
        intro vertex member
        rw [SparseMatrix.rowCount, size.rows, size.rhs]
        exact ⟨inRange vertex member, inRange vertex member⟩
      obtain ⟨result, sets, same⟩ := exists_enforced covers
        (fun vertex member => size.cols ▸ inRange vertex member) values
      rw [enforceDirichlet_of_evaluated answers covers evaluates sets]
      exact .answered defined (size.of_sameSize same)

/-- Kernels that can be evaluated on a mesh are assembled there. -/
theorem resolves_assemble {kernels : KernelSet (NumericFunction α)}
    (reads : kernels.Reads stencil mesh) (wellFormed : mesh.WellFormed) :
    Resolves mesh kernels.toLinear.subdomains (OfSize mesh.vertexCount)
      (assemble mesh kernels.toLinear) := by
  have enforces : ∀ start : LinearSystem α, start.OfSize mesh.vertexCount →
      Resolves mesh (kernels.dirichlet.flatMap fun kernel => [kernel.subdomain])
        (OfSize mesh.vertexCount) (enforceAll mesh kernels.dirichlet start) := fun start =>
    Resolves.foldlM fun kernel member system =>
      resolves_enforceDirichlet (reads.dirichlet kernel member)
  have resolves : Resolves mesh _ (OfSize mesh.vertexCount) (assemble mesh kernels.toLinear) :=
    (reads.resolves_contributions wellFormed).bind fun contributions inRange => by
      obtain ⟨start, formed, size⟩ := exists_ofContribution (Contribution.InRange.sum inRange)
      rw [formed]
      exact enforces start size
  rwa [← List.map_eq_flatMap, ← List.append_assoc] at resolves

/-- A Dirichlet kernel of an assembled system has been evaluated at vertices of its subdomain. -/
theorem exists_eval_of_enforceAll {kernels : List (DirichletKernel (NumericFunction α))}
    {system result : LinearSystem α} (formed : enforceAll mesh kernels system = .ok result)
    {kernel : DirichletKernel (NumericFunction α)} (member : kernel ∈ kernels) :
    ∃ vertices values, mesh.verticesOf kernel.subdomain = .ok vertices ∧
      kernel.block.eval mesh vertices = .ok values := by
  obtain ⟨before, after, rfl⟩ := List.append_of_mem member
  obtain ⟨start, -, formed⟩ := enforceAll_append_iff.mp formed
  obtain ⟨next, enforces, -⟩ := enforceAll_cons_iff.mp formed
  have steps := enforcement_of_enforceDirichlet start mesh kernel
  rw [enforces] at steps
  cases steps with
  | enforced answers covers evaluates sets => exact ⟨_, _, answers, evaluates⟩

/-- A kernel with subdomains has contributed on one of them. -/
theorem exists_contributed {κ β : Type} {kernels : List κ} {subdomains : κ → List Subdomain}
    {contribute : κ → Subdomain → Outcome β} {results : List (List β)}
    (formed : (kernels.mapM fun kernel => (subdomains kernel).mapM (contribute kernel)) =
      .ok results) {kernel : κ} (member : kernel ∈ kernels) (nonempty : subdomains kernel ≠ []) :
    ∃ subdomain result, contribute kernel subdomain = .ok result := by
  obtain ⟨subdomain, listed⟩ := List.exists_mem_of_ne_nil _ nonempty
  obtain ⟨_, formsKernel⟩ := Outcome.exists_of_mapM formed member
  obtain ⟨result, contributes⟩ := Outcome.exists_of_mapM formsKernel listed
  exact ⟨subdomain, result, contributes⟩

/-- Kernels with subdomains that cannot be evaluated on a mesh are only assembled there if there are
none. -/
theorem eq_nil_of_rejects {kernels : KernelSet (NumericFunction α)}
    (rejects : kernels.Rejects stencil mesh)
    (edge : ∀ kernel ∈ kernels.edge, kernel.subdomains ≠ [])
    (vertex : ∀ kernel ∈ kernels.vertex, kernel.subdomains ≠ [])
    (face : ∀ kernel ∈ kernels.face, kernel.subdomains ≠ []) {system : LinearSystem α}
    (formed : assemble mesh kernels.toLinear = .ok system) :
    kernels.edge = [] ∧ kernels.vertex = [] ∧ kernels.face = [] ∧ kernels.dirichlet = [] := by
  obtain ⟨contributions, contributes, formed⟩ := Outcome.bind_eq_ok_iff.mp formed
  obtain ⟨start, -, enforced⟩ := Outcome.bind_eq_ok_iff.mp formed
  obtain ⟨_, formsEdge, contributes⟩ := Outcome.bind_eq_ok_iff.mp contributes
  obtain ⟨_, formsVertex, contributes⟩ := Outcome.bind_eq_ok_iff.mp contributes
  obtain ⟨_, formsFace, -⟩ := Outcome.bind_eq_ok_iff.mp contributes
  refine ⟨List.eq_nil_iff_forall_not_mem.mpr fun kernel member => ?_,
    List.eq_nil_iff_forall_not_mem.mpr fun kernel member => ?_,
    List.eq_nil_iff_forall_not_mem.mpr fun kernel member => ?_,
    List.eq_nil_iff_forall_not_mem.mpr fun kernel member => ?_⟩
  · obtain ⟨subdomain, _, contributes⟩ :=
      exists_contributed formsEdge (List.mem_map_of_mem member) (edge kernel member)
    obtain ⟨edges, answers, contributes⟩ := Outcome.bind_eq_ok_iff.mp contributes
    obtain ⟨values, evaluates, -⟩ := Outcome.bind_eq_ok_iff.mp contributes
    obtain ⟨_, rejected⟩ := rejects.edge kernel member edges
      ((Mesh.resolves_edgesOf subdomain).holds answers)
    cases evaluates.symm.trans rejected
  · obtain ⟨subdomain, _, contributes⟩ :=
      exists_contributed formsVertex member (vertex kernel member)
    obtain ⟨vertices, answers, contributes⟩ := Outcome.bind_eq_ok_iff.mp contributes
    obtain ⟨values, evaluates, -⟩ := Outcome.bind_eq_ok_iff.mp contributes
    obtain ⟨_, rejected⟩ := rejects.vertex kernel member vertices
      ((Mesh.resolves_verticesOf subdomain).holds answers)
    cases evaluates.symm.trans rejected
  · obtain ⟨subdomain, _, contributes⟩ :=
      exists_contributed formsFace member (face kernel member)
    obtain ⟨faces, answers, contributes⟩ := Outcome.bind_eq_ok_iff.mp contributes
    obtain ⟨values, evaluates, -⟩ := Outcome.bind_eq_ok_iff.mp contributes
    obtain ⟨_, rejected⟩ := rejects.face kernel member faces
      ((Mesh.resolves_facesOf subdomain).holds answers)
    cases evaluates.symm.trans rejected
  · obtain ⟨vertices, values, answers, evaluates⟩ := exists_eval_of_enforceAll enforced member
    obtain ⟨_, rejected⟩ := rejects.dirichlet kernel member vertices
      ((Mesh.resolves_verticesOf kernel.subdomain).holds answers)
    cases evaluates.symm.trans rejected

/-- On a mesh that can be built and has the dimension of a problem, its kernels are assembled if
and only if all subdomains that they are asked for are defined, and the only error is a subdomain
that is not. On a mesh of another dimension they are never assembled, unless there are none. -/
theorem assemble_resolves (built : mesh.Built) {problem : Problem} {kernels : LinearKernels α}
    (compiled : problem.compile stencil = .ok kernels) :
    (mesh.dim = stencil.dim →
      ((∃ system, assemble mesh kernels = .ok system) ↔
        ∀ subdomain ∈ kernels.subdomains, mesh.Defines subdomain) ∧
      ∀ failure, assemble mesh kernels = .error failure →
        ∃ name, .named name ∈ kernels.subdomains ∧ ¬mesh.Defines (.named name) ∧
          failure = .rejected (.unknownSubdomain name)) ∧
    (mesh.dim ≠ stencil.dim → (∀ integral ∈ problem.integrals, integral.Formed) →
      ∀ system, assemble mesh kernels = .ok system →
        kernels.edge = [] ∧ kernels.vertex = [] ∧ kernels.face = [] ∧ kernels.dirichlet = []) := by
  obtain ⟨exprs, discretizes, formsKernels⟩ := Outcome.bind_eq_ok_iff.mp compiled
  obtain ⟨set, compiles, same⟩ := Outcome.bind_eq_ok_iff.mp formsKernels
  cases same
  have wellFormed := built.wellFormed
  constructor
  · intro sameDim
    have resolves := resolves_assemble
      (KernelSet.reads_of_compile wellFormed compiles sameDim) wellFormed
    exact ⟨resolves.ok_iff, fun failure fails => resolves.error_cases fails⟩
  · intro otherDim formed system assembles
    have rejects := KernelSet.rejects_of_compile wellFormed compiles otherDim
      (problem.written_of_discretize discretizes)
    obtain ⟨edge, vertex, face⟩ := Problem.subdomains_ne_nil formed discretizes
    obtain ⟨sameEdge, sameVertex, sameFace⟩ := KernelSet.subdomains_of_compile compiles
    have listed : ∀ {β γ : Type} {kernels : List (Kernel β)} {sources : List (Kernel γ)},
        kernels.map Kernel.subdomains = sources.map Kernel.subdomains →
        (∀ source ∈ sources, source.subdomains ≠ []) →
        ∀ kernel ∈ kernels, kernel.subdomains ≠ [] := by
      intro β γ kernels sources same nonempty kernel member
      obtain ⟨source, inside, equal⟩ :=
        List.mem_map.mp (same ▸ List.mem_map_of_mem member :
          kernel.subdomains ∈ sources.map Kernel.subdomains)
      rw [← equal]
      exact nonempty source inside
    obtain ⟨noEdge, others⟩ := eq_nil_of_rejects rejects (listed sameEdge edge)
      (listed sameVertex vertex) (listed sameFace face) assembles
    exact ⟨List.map_eq_nil_iff.mpr noEdge, others⟩

/-- Conduction with a fixed value on a named subdomain: on a line that defines the subdomain, on one
that does not, and in the plane. -/
theorem assemble_resolves_conduction :
    let problem := { Problem.conduction with conditions :=
      [⟨fun _ => return .apply "u" [.vector [.sym "x_0"]], .named "left"⟩] }
    let line : Mesh ℚ := {
      coords := ⟨#[#[0, 2]], 2, by simp⟩, edges := #[⟨0, 1⟩], ratios := #[1], lengths := #[2],
      volumes := #[1, 1] }
    let plane : Mesh ℚ := { line with coords := ⟨#[#[0, 0], #[0, 2]], 2, by simp⟩ }
    ∃ kernels, problem.compile ⟨1, ⟨"u"⟩⟩ = .ok kernels ∧
      (∃ system, assemble { line with subdomains := [("left", [0])] } kernels = .ok system) ∧
      assemble line kernels = .error (.rejected (.unknownSubdomain "left")) ∧
      ∀ system, assemble plane kernels ≠ .ok system := by
  intro problem line plane
  obtain ⟨kernels, compiled, subdomains⟩ := Outcome.map_eq_ok_iff.mp
    (show (problem.compile ⟨1, ⟨"u"⟩⟩ : Outcome (LinearKernels ℚ)).map LinearKernels.subdomains =
      .ok [.everywhere, .everywhere, .boundary, .named "left"] by decide +kernel)
  have builtLine : line.Built := .build
    (show Mesh.build line.coords line.edges line.ratios line.lengths line.volumes = .ok line
      from rfl)
  have builtNamed : Mesh.Built { line with subdomains := [("left", [0])] } :=
    builtLine.withSubdomain (show line.withSubdomain "left" [0] = .ok _ from rfl)
  have builtPlane : plane.Built := .build
    (show Mesh.build plane.coords line.edges line.ratios line.lengths line.volumes = .ok plane
      from rfl)
  refine ⟨kernels, compiled, ?_, ?_, fun system assembles => ?_⟩
  · refine ((assemble_resolves builtNamed compiled).1 rfl).1.mpr fun subdomain asked => ?_
    simp only [subdomains, List.mem_cons, List.not_mem_nil, or_false] at asked
    rcases asked with rfl | rfl | rfl | rfl <;> simp [Mesh.Defines]
  · obtain ⟨ok_iff, error_cases⟩ := (assemble_resolves builtLine compiled).1 rfl
    cases outcome : assemble line kernels with
    | ok system =>
      have defined := ok_iff.mp ⟨system, outcome⟩ (.named "left") (by simp [subdomains])
      simp [Mesh.Defines, line] at defined
    | error failure =>
      obtain ⟨name, asked, -, rfl⟩ := error_cases failure outcome
      simp only [subdomains, List.mem_cons, List.not_mem_nil, or_false, reduceCtorEq, false_or,
        Subdomain.named.injEq] at asked
      rw [asked]
  · have formed : ∀ integral ∈ problem.integrals, integral.Formed := by
      intro integral member
      simp only [problem, Problem.conduction, List.mem_cons, List.not_mem_nil, or_false] at member
      rcases member with rfl | rfl | rfl
      · exact .ofMeasure _ _
      · exact .ofMeasure _ _
      · exact .on (.ofMeasure _ _) [.boundary]
    obtain ⟨edge, vertex, face, dirichlet⟩ :=
      (assemble_resolves builtPlane compiled).2 (by decide) formed system assembles
    simp [LinearKernels.subdomains, edge, vertex, face, dirichlet] at subdomains

end LinearSystem

end FiniteVolume
