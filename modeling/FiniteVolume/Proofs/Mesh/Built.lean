import FiniteVolume.Proofs.Kernel.Entity

/-!
# Meshes that can be built

Every mesh that the building functions return has a quantity for each of its entities, and refers to
vertices that exist (`Mesh.Built.wellFormed`). So the quantities of any entities can be gathered.
-/

namespace FiniteVolume.Mesh

variable {α : Type}

/-- A mesh that is built from its vertices and edges by any further steps. -/
inductive Built : Mesh α → Prop where
  | build {coords : NodeCoords α} {edges : Array (Ends Nat)} {ratios lengths volumes : Array α}
    {mesh : Mesh α} (formed : build coords edges ratios lengths volumes = .ok mesh) : Built mesh
  | withFaces {mesh next : Mesh α} {owners : Array Nat} {areas : Array α} (built : Built mesh)
    (formed : mesh.withFaces owners areas = .ok next) : Built next
  | withBoundaryVertices {mesh next : Mesh α} {vertices : List Nat} (built : Built mesh)
    (formed : mesh.withBoundaryVertices vertices = .ok next) : Built next
  | withSubdomain {mesh next : Mesh α} {name : String} {vertices : List Nat} (built : Built mesh)
    (formed : mesh.withSubdomain name vertices = .ok next) : Built next

/-- A mesh with a quantity for each of its entities, whose edges and faces belong to vertices that
exist. -/
structure WellFormed (mesh : Mesh α) : Prop where
  ratios : mesh.ratios.size = mesh.edges.size
  lengths : mesh.lengths.size = mesh.edges.size
  volumes : mesh.volumes.size = mesh.vertexCount
  areas : mesh.areas.size = mesh.owners.size
  ends : ∀ ends ∈ mesh.edges, ends.first < mesh.vertexCount ∧ ends.second < mesh.vertexCount
  owners : ∀ owner ∈ mesh.owners, owner < mesh.vertexCount

/-- The check of vertices accepts exactly those in range. -/
theorem checkVertices_eq_ok_iff {count : Nat} {vertices : List Nat} :
    checkVertices count vertices = .ok () ↔ ∀ vertex ∈ vertices, vertex < count := by
  unfold checkVertices
  split
  · rename_i vertex found
    refine ⟨fun accepted => absurd accepted (Outcome.reject_ne_ok _ _), fun inRange => ?_⟩
    have outside := List.find?_some found
    have inside := inRange vertex (List.mem_of_find?_eq_some found)
    simp only [decide_eq_true_eq] at outside
    omega
  · rename_i none
    simpa using none

/-- A mesh that is built is well formed. -/
theorem WellFormed.of_build {coords : NodeCoords α} {edges : Array (Ends Nat)}
    {ratios lengths volumes : Array α} {mesh : Mesh α}
    (formed : build coords edges ratios lengths volumes = .ok mesh) : mesh.WellFormed := by
  simp only [build] at formed
  obtain ⟨quantities, formed⟩ := Outcome.guard_eq_ok_iff.mp formed
  obtain ⟨volumes, formed⟩ := Outcome.guard_eq_ok_iff.mp formed
  obtain ⟨_, checked, formed⟩ := Outcome.bind_eq_ok_iff.mp formed
  have inRange := checkVertices_eq_ok_iff.mp checked
  split at formed
  · exact absurd formed (Outcome.reject_ne_ok _ _)
  · cases formed
    have listed : ∀ ends ∈ edges, ∀ vertex, vertex = ends.first ∨ vertex = ends.second →
        vertex ∈ edges.toList.flatMap fun ends => [ends.first, ends.second] := by
      intro ends member vertex isEnd
      exact List.mem_flatMap.mpr ⟨ends, Array.mem_toList_iff.mpr member, by simpa using isEnd⟩
    exact {
      ratios := not_not.mp fun different => quantities (Or.inl different)
      lengths := not_not.mp fun different => quantities (Or.inr different)
      volumes := not_not.mp volumes
      areas := rfl
      ends := fun ends member => ⟨inRange _ (listed ends member _ (Or.inl rfl)),
        inRange _ (listed ends member _ (Or.inr rfl))⟩
      owners := fun owner member => by simp at member }

/-- A well-formed mesh stays so with faces. -/
theorem WellFormed.of_withFaces {mesh next : Mesh α} {owners : Array Nat} {areas : Array α}
    (wellFormed : mesh.WellFormed) (formed : mesh.withFaces owners areas = .ok next) :
    next.WellFormed := by
  simp only [withFaces] at formed
  obtain ⟨sizes, formed⟩ := Outcome.guard_eq_ok_iff.mp formed
  obtain ⟨_, checked, same⟩ := Outcome.bind_eq_ok_iff.mp formed
  cases same
  have inRange := checkVertices_eq_ok_iff.mp checked
  exact { wellFormed with
    areas := (not_not.mp sizes).symm
    owners := fun owner member => inRange owner (Array.mem_toList_iff.mpr member) }

/-- Every mesh that can be built is well-formed. -/
theorem Built.wellFormed {mesh : Mesh α} (built : mesh.Built) : mesh.WellFormed := by
  induction built with
  | build formed => exact .of_build formed
  | withFaces _ formed ih => exact ih.of_withFaces formed
  | withBoundaryVertices _ formed ih =>
    obtain ⟨_, -, same⟩ := Outcome.bind_eq_ok_iff.mp formed
    cases same
    exact { ih with }
  | withSubdomain _ formed ih =>
    obtain ⟨_, -, same⟩ := Outcome.bind_eq_ok_iff.mp formed
    cases same
    exact { ih with }

variable {mesh : Mesh α}

/-- A quantity can be gathered at entities that it is given for. -/
theorem exists_gather {β : Type} {quantity : Array β} {entities : List Nat}
    (inRange : ∀ entity ∈ entities, entity < quantity.size) :
    ∃ values, gather quantity entities = .ok values ∧ ∀ value ∈ values, value ∈ quantity := by
  induction entities with
  | nil => exact ⟨[], rfl, fun _ member => nomatch member⟩
  | cons entity rest ih =>
    obtain ⟨first, later⟩ := List.forall_mem_cons.mp inRange
    obtain ⟨values, gathers, members⟩ := ih later
    refine ⟨quantity[entity] :: values, ?_, List.forall_mem_cons.mpr
      ⟨Array.getElem_mem first, members⟩⟩
    rw [gather, Outcome.ofLookup?_eq_ok_iff] at gathers ⊢
    rw [List.mapM_cons, Array.getElem?_eq_getElem first, gathers]
    rfl

/-- The coordinates of vertices that exist can be gathered, in as many rows as there are
dimensions. -/
theorem exists_coordsOf {vertices : List Nat}
    (inRange : ∀ vertex ∈ vertices, vertex < mesh.vertexCount) :
    ∃ coords, mesh.coordsOf vertices = .ok coords ∧ coords.length = mesh.dim ∧
      ∀ row ∈ coords, row.size = vertices.length := by
  have sizes : ∀ row ∈ mesh.coords.rows.toList, row.size = mesh.vertexCount := fun row member =>
    mesh.coords.size_eq row (Array.mem_toList_iff.mp member)
  obtain ⟨coords, gathers, complete⟩ : ∃ coords, mesh.coordsOf vertices = .ok coords ∧
      ∀ (index : Nat) (row : Array α), coords[index]? = some row → row.size = vertices.length := by
    refine Outcome.exists_mapM_eq_ok fun index row stands => ?_
    have size := sizes row (List.mem_of_getElem? stands)
    rw [← size] at inRange
    obtain ⟨values, gathers, -⟩ := exists_gather inRange
    exact ⟨values.toArray, Outcome.bind_eq_ok_iff.mpr ⟨values, gathers, rfl⟩,
      length_of_gather gathers⟩
  refine ⟨coords, gathers, ?_, fun row member => ?_⟩
  · rw [← (Outcome.mapM_eq_ok_iff.mp gathers).length_eq, Array.length_toList]
    rfl
  · obtain ⟨index, stands⟩ := List.mem_iff_getElem?.mp member
    exact complete index row stands

end FiniteVolume.Mesh
