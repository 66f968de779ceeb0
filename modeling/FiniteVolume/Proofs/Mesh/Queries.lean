import FiniteVolume.Proofs.Mesh.Subdomains

/-!
# Queries of meshes that were built

The steps that add to a mesh may come in any order and again and again. After any run of them the
mesh holds what the last step of each kind gave (`Recorded`), one step being enough to see this
(`Recorded.step`) and induction over the steps doing the rest (`Recorded.run`). The queries of a
subdomain agree with each other (`exists_selects`): they list in ascending order its vertices, the
edges between them and the faces that they own. So what the queries answer is known from the steps
(`queries_of_build`).
-/

namespace FiniteVolume.Mesh

variable {α : Type}

/-- What a list of vertices is given for: the owners of the faces, the boundary or a named
subdomain. -/
inductive Role where
  | owners
  | boundary
  | named (name : String)
deriving DecidableEq

/-- A step that adds to a mesh. -/
inductive BuildStep (α : Type) where
  | faces (owners : Array Nat) (areas : Array α)
  | boundaryVertices (vertices : List Nat)
  | subdomain (name : String) (vertices : List Nat)

namespace BuildStep

/-- The mesh after a step. -/
def apply (mesh : Mesh α) : BuildStep α → Outcome (Mesh α)
  | faces owners areas => mesh.withFaces owners areas
  | boundaryVertices vertices => mesh.withBoundaryVertices vertices
  | subdomain name vertices => mesh.withSubdomain name vertices

def role : BuildStep α → Role
  | faces _ _ => .owners
  | boundaryVertices _ => .boundary
  | subdomain name _ => .named name

def vertices : BuildStep α → List Nat
  | faces owners _ => owners.toList
  | boundaryVertices vertices => vertices
  | subdomain _ vertices => vertices

/-- The vertices that the last step with a role gives. -/
def lastGiven (role : Role) (steps : List (BuildStep α)) : Option (List Nat) :=
  ((steps.filter fun step => step.role = role).map vertices).getLast?

theorem lastGiven_concat (role : Role) (steps : List (BuildStep α)) (step : BuildStep α) :
    lastGiven role (steps ++ [step]) =
      if step.role = role then some step.vertices else lastGiven role steps := by
  rw [lastGiven, List.filter_append, List.map_append]
  split
  · rename_i same
    rw [List.filter_cons_of_pos (by simpa using same), List.filter_nil, List.map_singleton,
      List.getLast?_concat]
  · rename_i different
    rw [List.filter_cons_of_neg (by simpa using different), List.filter_nil, List.map_nil,
      List.append_nil, lastGiven]

/-- The vertices that a subdomain is given in some steps: all of them for the whole mesh, and for a
boundary that no step gives the owners of the faces. -/
def given (count : Nat) (steps : List (BuildStep α)) : Subdomain → Option (List Nat)
  | .everywhere => some (List.range count)
  | .boundary => some ((lastGiven .boundary steps).getD ((lastGiven .owners steps).getD []))
  | .named name => lastGiven (.named name) steps

end BuildStep

/-- A mesh in which all vertices that it stores exist, and no edge joins a vertex to itself. -/
structure Consistent (mesh : Mesh α) : Prop extends mesh.WellFormed where
  boundary : ∀ vertices, mesh.boundaryVertices = some vertices →
    ∀ vertex ∈ vertices, vertex < mesh.vertexCount
  named : ∀ name vertices, (name, vertices) ∈ mesh.subdomains →
    ∀ vertex ∈ vertices, vertex < mesh.vertexCount
  loopless : ∀ ends ∈ mesh.edges, ends.first ≠ ends.second

/-- The geometry that no further step changes. -/
def geometry (mesh : Mesh α) : NodeCoords α × Array (Ends Nat) × Array α × Array α × Array α :=
  (mesh.coords, mesh.edges, mesh.ratios, mesh.lengths, mesh.volumes)

/-- A mesh that holds what some steps gave after a start. -/
structure Recorded (start : Mesh α) (steps : List (BuildStep α)) (mesh : Mesh α) : Prop where
  consistent : mesh.Consistent
  geometry : mesh.geometry = start.geometry
  owners : mesh.owners.toList = (BuildStep.lastGiven .owners steps).getD []
  boundary : mesh.boundaryVertices = BuildStep.lastGiven .boundary steps
  named : ∀ name, mesh.subdomains.lookup name = BuildStep.lastGiven (.named name) steps

theorem Recorded.of_build {coords : NodeCoords α} {edges : Array (Ends Nat)}
    {ratios lengths volumes : Array α} {mesh : Mesh α}
    (formed : build coords edges ratios lengths volumes = .ok mesh) :
    Recorded mesh [] mesh ∧ mesh.geometry = (coords, edges, ratios, lengths, volumes) := by
  have wellFormed := WellFormed.of_build formed
  simp only [build] at formed
  obtain ⟨-, formed⟩ := Outcome.guard_eq_ok_iff.mp formed
  obtain ⟨-, formed⟩ := Outcome.guard_eq_ok_iff.mp formed
  obtain ⟨_, -, formed⟩ := Outcome.bind_eq_ok_iff.mp formed
  split at formed
  · exact absurd formed (Outcome.reject_ne_ok _ _)
  · rename_i regular
    cases formed
    have loopless : ∀ ends ∈ edges, ends.first ≠ ends.second := by
      intro ends member same
      have different := List.findIdx?_eq_none_iff.mp regular ends (Array.mem_toList_iff.mpr member)
      exact absurd same (by simpa using different)
    have consistent : Mesh.Consistent { coords, edges, ratios, lengths, volumes } := {
      wellFormed with
      boundary := fun _ same => (Option.some_ne_none _ same.symm).elim
      named := fun _ _ member => (List.not_mem_nil member).elim
      loopless }
    exact ⟨⟨consistent, rfl, rfl, rfl, fun _ => rfl⟩, rfl⟩

/-- A step replaces what the earlier steps with its role gave. -/
theorem Recorded.step {start mesh next : Mesh α} {steps : List (BuildStep α)} {step : BuildStep α}
    (recorded : Recorded start steps mesh) (applied : step.apply mesh = .ok next) :
    Recorded start (steps ++ [step]) next := by
  obtain ⟨consistent, geometry, owners, boundary, named⟩ := recorded
  -- a step has one role, and for the others it leaves what was given last
  cases step with
  | faces faceOwners areas =>
    have wellFormed := consistent.toWellFormed.of_withFaces applied
    simp only [BuildStep.apply, withFaces] at applied
    obtain ⟨-, applied⟩ := Outcome.guard_eq_ok_iff.mp applied
    obtain ⟨_, -, same⟩ := Outcome.bind_eq_ok_iff.mp applied
    cases same
    exact {
      consistent := { consistent with toWellFormed := wellFormed }
      geometry
      owners := by rw [BuildStep.lastGiven_concat]; rfl
      boundary := by rw [BuildStep.lastGiven_concat]; exact boundary
      named := fun name => by rw [BuildStep.lastGiven_concat]; exact named name }
  | boundaryVertices vertices =>
    obtain ⟨_, checked, same⟩ := Outcome.bind_eq_ok_iff.mp applied
    cases same
    have inRange := checkVertices_eq_ok_iff.mp checked
    exact {
      consistent := { consistent with
        boundary := fun _ same => Option.some.inj same ▸ inRange }
      geometry
      owners := by rw [BuildStep.lastGiven_concat]; exact owners
      boundary := by rw [BuildStep.lastGiven_concat]; rfl
      named := fun name => by rw [BuildStep.lastGiven_concat]; exact named name }
  | subdomain given vertices =>
    obtain ⟨_, checked, same⟩ := Outcome.bind_eq_ok_iff.mp applied
    cases same
    have inRange := checkVertices_eq_ok_iff.mp checked
    exact {
      consistent := { consistent with
        named := fun name listed member => by
          rcases List.mem_cons.mp member with same | earlier
          · exact (Prod.mk.inj same).2 ▸ inRange
          · exact consistent.named name listed earlier }
      geometry
      owners := by rw [BuildStep.lastGiven_concat]; exact owners
      boundary := by rw [BuildStep.lastGiven_concat]; exact boundary
      named := fun name => by
        rw [BuildStep.lastGiven_concat, List.lookup_cons, named name]
        by_cases same : name = given
        · simp [same, BuildStep.role, BuildStep.vertices]
        · have others : (name == given) = false := beq_false_of_ne same
          simp [others, Ne.symm same, BuildStep.role] }

/-- Any run of steps is recorded. -/
theorem Recorded.run {start mesh : Mesh α} {steps : List (BuildStep α)}
    (begins : Recorded start [] start)
    (runs : steps.foldlM BuildStep.apply start = .ok mesh) : Recorded start steps mesh := by
  -- what is recorded is about the last steps, so the last one is taken off
  induction steps using List.reverseRecOn generalizing mesh with
  | nil =>
    cases runs
    exact begins
  | append_singleton steps step ih =>
    rw [List.foldlM_append] at runs
    obtain ⟨before, runs, applied⟩ := Outcome.bind_eq_ok_iff.mp runs
    obtain ⟨_, applied, same⟩ := Outcome.bind_eq_ok_iff.mp applied
    cases same
    exact (ih runs).step applied

/-- The queries of a subdomain with given vertices answer with some vertices, edges and faces, all
of them in ascending order. The vertices are the given ones and the edges those between them. The
faces of a named subdomain are those that its vertices own. -/
structure Selects (mesh : Mesh α) (subdomain : Subdomain)
    (given vertices edges faces : List Nat) : Prop where
  verticesOf : mesh.verticesOf subdomain = .ok vertices
  edgesOf : mesh.edgesOf subdomain = .ok edges
  facesOf : mesh.facesOf subdomain = .ok faces
  ascending : vertices.Pairwise (· < ·) ∧ edges.Pairwise (· < ·) ∧ faces.Pairwise (· < ·)
  vertex_lt : ∀ vertex ∈ vertices, vertex < mesh.vertexCount
  edge_lt : ∀ edge ∈ edges, edge < mesh.edges.size
  face_lt : ∀ face ∈ faces, face < mesh.owners.size
  mem_vertices : ∀ vertex, vertex ∈ vertices ↔ vertex ∈ given
  mem_edges : ∀ edge, edge ∈ edges ↔ ∃ ends, mesh.edges[edge]? = some ends ∧
    ends.first ∈ vertices ∧ ends.second ∈ vertices
  mem_faces : ∀ face, face ∈ faces ↔ ∃ owner, mesh.owners[face]? = some owner ∧
    ∀ name, subdomain = .named name → owner ∈ vertices

section Listed

variable {mesh : Mesh α} {subdomain : Subdomain} {listed : Option (List Nat)}

/-- The faces of a named subdomain are those with a listed owner, and other subdomains have all. -/
theorem exists_facesOf (lists : mesh.listedVertices subdomain = .ok listed) :
    ∃ faces, mesh.facesOf subdomain = .ok faces ∧ faces.Pairwise (· < ·) ∧
      ∀ face, face ∈ faces ↔ ∃ owner, mesh.owners[face]? = some owner ∧
        ∀ name, subdomain = .named name → isListed listed owner := by
  cases subdomain with
  | everywhere | boundary =>
    refine ⟨_, rfl, List.pairwise_lt_range, fun face => ?_⟩
    rw [List.mem_range]
    simp [Array.getElem?_eq_some_iff]
  | named name =>
    refine ⟨_, Outcome.bind_eq_ok_iff.mpr ⟨listed, lists, rfl⟩, positions_ascending _ _,
      fun face => mem_positions_iff.trans (exists_congr fun owner => ?_)⟩
    rw [Array.getElem?_toList]
    exact and_congr_right fun _ => ⟨fun inside _ _ => inside, fun inside => inside name rfl⟩

/-- The queries of a subdomain whose vertices are listed agree with each other. -/
theorem exists_selects {given : List Nat} (wellFormed : mesh.WellFormed)
    (lists : mesh.listedVertices subdomain = .ok listed)
    (members : ∀ vertex, vertex ∈ given ↔ vertex < mesh.vertexCount ∧ isListed listed vertex) :
    ∃ vertices edges faces, mesh.Selects subdomain given vertices edges faces := by
  have listed_iff : ∀ {vertex}, vertex < mesh.vertexCount → (isListed listed vertex ↔
      vertex ∈ (List.range mesh.vertexCount).filter (isListed listed)) := fun inRange => by
    rw [List.mem_filter, List.mem_range, and_iff_right inRange]
  obtain ⟨faces, answers, ascending, mem_faces⟩ := exists_facesOf lists
  refine ⟨_, _, faces, {
    verticesOf := Outcome.bind_eq_ok_iff.mpr ⟨listed, lists, rfl⟩
    edgesOf := Outcome.bind_eq_ok_iff.mpr ⟨listed, lists, rfl⟩
    facesOf := answers
    ascending := ⟨List.pairwise_lt_range.filter _, positions_ascending _ _, ascending⟩
    vertex_lt := fun vertex member => List.mem_range.mp (List.mem_filter.mp member).1
    edge_lt := fun edge member => lt_of_mem_positions member
    face_lt := fun face member => ?_
    mem_vertices := fun vertex => ?_
    mem_edges := fun edge => mem_positions_iff.trans (exists_congr fun ends => ?_)
    mem_faces := fun face => (mem_faces face).trans (exists_congr fun owner => ?_) }⟩
  · obtain ⟨owner, stands, -⟩ := (mem_faces face).mp member
    exact (Array.getElem?_eq_some_iff.mp stands).1
  · rw [members, List.mem_filter, List.mem_range]
  · rw [Array.getElem?_toList]
    refine and_congr_right fun stands => ?_
    obtain ⟨first, second⟩ := wellFormed.ends ends (Array.mem_of_getElem? stands)
    rw [Bool.and_eq_true, listed_iff first, listed_iff second]
  · refine and_congr_right fun stands => forall₂_congr fun _ _ => ?_
    exact listed_iff (wellFormed.owners owner (Array.mem_of_getElem? stands))

end Listed

/-- What a subdomain lists after some steps are the vertices it is given, all of which exist. -/
theorem Recorded.selects {start mesh : Mesh α} {steps : List (BuildStep α)} {subdomain : Subdomain}
    {given : List Nat} (recorded : Recorded start steps mesh)
    (gives : BuildStep.given mesh.vertexCount steps subdomain = some given) :
    ∃ vertices edges faces, mesh.Selects subdomain given vertices edges faces := by
  obtain ⟨consistent, -, owners, boundary, named⟩ := recorded
  have listed : ∀ {given}, mesh.listedVertices subdomain = .ok (some given) →
      (∀ vertex ∈ given, vertex < mesh.vertexCount) →
      ∃ vertices edges faces, mesh.Selects subdomain given vertices edges faces := by
    intro given lists inRange
    refine exists_selects consistent.toWellFormed lists fun vertex => ?_
    rw [isListed, List.contains_iff_mem]
    exact (and_iff_right_of_imp (inRange vertex)).symm
  cases subdomain with
  | everywhere =>
    cases gives
    refine exists_selects consistent.toWellFormed rfl fun vertex => ?_
    rw [List.mem_range]
    exact (and_iff_left rfl).symm
  | boundary =>
    cases gives
    rw [← boundary, ← owners]
    refine listed rfl ?_
    cases overridden : mesh.boundaryVertices with
    | some vertices => exact consistent.boundary vertices overridden
    | none => exact fun owner member => consistent.owners owner (Array.mem_toList_iff.mp member)
  | named name =>
    have found : mesh.subdomains.lookup name = some given := (named name).trans gives
    obtain ⟨before, after, split, -⟩ := List.lookup_eq_some_iff.mp found
    refine listed ?_ (consistent.named name given (by simp [split]))
    rw [listedVertices, found]

/-- After any run of steps on a mesh that was built, all vertices that are stored exist, and the
geometry is what it was built from. The queries of a subdomain select what belongs to the vertices
that the last steps give it, and a name that no step gives is rejected. -/
theorem queries_of_build {coords : NodeCoords α} {edges : Array (Ends Nat)}
    {ratios lengths volumes : Array α} {start mesh : Mesh α} {steps : List (BuildStep α)}
    (formed : build coords edges ratios lengths volumes = .ok start)
    (runs : steps.foldlM BuildStep.apply start = .ok mesh) :
    mesh.Consistent ∧ mesh.geometry = (coords, edges, ratios, lengths, volumes) ∧
      mesh.owners.toList = (BuildStep.lastGiven .owners steps).getD [] ∧
      (∀ subdomain given, BuildStep.given mesh.vertexCount steps subdomain = some given →
        ∃ vertices inside faces, mesh.Selects subdomain given vertices inside faces) ∧
      ∀ name, BuildStep.given mesh.vertexCount steps (.named name) = none →
        mesh.verticesOf (.named name) = Outcome.reject (.unknownSubdomain name) ∧
        mesh.edgesOf (.named name) = Outcome.reject (.unknownSubdomain name) ∧
        mesh.facesOf (.named name) = Outcome.reject (.unknownSubdomain name) := by
  obtain ⟨begins, geometry⟩ := Recorded.of_build formed
  have recorded := begins.run runs
  refine ⟨recorded.consistent, recorded.geometry.trans geometry, recorded.owners,
    fun subdomain given gives => recorded.selects gives, fun name unknown => ?_⟩
  have absent : mesh.subdomains.lookup name = none := (recorded.named name).trans unknown
  have rejected : mesh.listedVertices (.named name) =
      Outcome.reject (.unknownSubdomain name) := by
    rw [listedVertices, absent]
  rw [verticesOf, edgesOf, facesOf, rejected]
  exact ⟨rfl, rfl, rfl⟩

/-- A path whose faces and whose left part are given twice. -/
theorem queries_of_build_path :
    let coords : NodeCoords ℚ := { rows := #[#[0, 1, 2, 3]], count := 4, size_eq := by simp }
    let steps : List (BuildStep ℚ) := [.subdomain "left" [3], .faces #[2] #[1],
      .faces #[3, 0, 3] #[1, 2, 1], .subdomain "left" [1, 0, 1]]
    ∃ start mesh : Mesh ℚ,
      build coords #[⟨0, 1⟩, ⟨1, 2⟩, ⟨2, 3⟩] #[1, 1, 1] #[1, 1, 1] #[1, 2, 2, 1] = .ok start ∧
      steps.foldlM BuildStep.apply start = .ok mesh ∧ mesh.Consistent ∧
      mesh.Selects (.named "left") [1, 0, 1] [0, 1] [0] [1] ∧
      mesh.Selects .boundary [3, 0, 3] [0, 3] [] [0, 1, 2] ∧
      mesh.verticesOf (.named "right") = Outcome.reject (.unknownSubdomain "right") := by
  intro coords steps
  obtain ⟨start, formed⟩ : ∃ start : Mesh ℚ, build coords #[⟨0, 1⟩, ⟨1, 2⟩, ⟨2, 3⟩] #[1, 1, 1]
      #[1, 1, 1] #[1, 2, 2, 1] = .ok start := ⟨_, rfl⟩
  obtain ⟨mesh, runs⟩ : ∃ mesh, steps.foldlM BuildStep.apply start = .ok mesh := by
    cases formed
    exact ⟨_, rfl⟩
  obtain ⟨consistent, -, -, selects, unknown⟩ := queries_of_build formed runs
  refine ⟨start, mesh, formed, runs, consistent, ?_, ?_, (unknown "right" rfl).1⟩
  · obtain ⟨vertices, inside, faces, selected⟩ := selects (.named "left") [1, 0, 1] rfl
    cases formed
    cases runs
    cases selected.verticesOf
    cases selected.edgesOf
    cases selected.facesOf
    exact selected
  · obtain ⟨vertices, inside, faces, selected⟩ := selects .boundary [3, 0, 3] rfl
    cases formed
    cases runs
    cases selected.verticesOf
    cases selected.edgesOf
    cases selected.facesOf
    exact selected

end FiniteVolume.Mesh
