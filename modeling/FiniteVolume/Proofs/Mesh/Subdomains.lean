import FiniteVolume.Proofs.Mesh.Built

/-!
# Subdomains that are not defined

A computation on a mesh that is asked for named subdomains is rejected if one of them is not
defined. Computations that fail for no other reason (`Resolves`) can be put together: one after
another, for every member of a list, or as the steps of a loop. The first of them are the lists of
vertices, edges and boundary faces of a subdomain.
-/

namespace FiniteVolume

variable {α β γ δ : Type}

/-- A subdomain is defined on a mesh. Only a named one may not be. -/
def Mesh.Defines (mesh : Mesh α) : Subdomain → Prop
  | .named name => name ∈ mesh.subdomains.map Prod.fst
  | .everywhere | .boundary => True

/-- A computation that is asked for some subdomains has an answer with a property if all of them are
defined, and otherwise it is rejected for one that is not. -/
inductive Resolves (mesh : Mesh α) (asked : List Subdomain) (property : β → Prop) :
    Outcome β → Prop where
  | answered {answer : β} (defined : ∀ subdomain ∈ asked, mesh.Defines subdomain)
    (holds : property answer) : Resolves mesh asked property (.ok answer)
  | undefined {name : String} (isAsked : .named name ∈ asked)
    (missing : ¬mesh.Defines (.named name)) :
    Resolves mesh asked property (Outcome.reject (.unknownSubdomain name))

namespace Resolves

variable {mesh : Mesh α} {asked more : List Subdomain} {property : β → Prop}
  {property' : γ → Prop} {outcome : Outcome β}

/-- An answer resolves without any subdomain. -/
theorem of_holds {answer : β} (holds : property answer) : Resolves mesh [] property (.ok answer) :=
  .answered (fun _ member => nomatch member) holds

/-- An answer has the property. -/
theorem holds {answer : β} (resolves : Resolves mesh asked property outcome)
    (answered : outcome = .ok answer) : property answer := by
  cases resolves with
  | answered _ holds =>
    cases answered
    exact holds
  | undefined => exact absurd answered (Outcome.reject_ne_ok _ _)

/-- There is an answer exactly if all subdomains are defined. -/
theorem ok_iff (resolves : Resolves mesh asked property outcome) :
    (∃ answer, outcome = .ok answer) ↔ ∀ subdomain ∈ asked, mesh.Defines subdomain := by
  cases resolves with
  | @answered answer defined => exact ⟨fun _ => defined, fun _ => ⟨answer, rfl⟩⟩
  | undefined isAsked missing =>
    constructor
    · rintro ⟨_, answered⟩
      exact absurd answered (Outcome.reject_ne_ok _ _)
    · exact fun defined => absurd (defined _ isAsked) missing

/-- The only failure is a subdomain that is not defined. -/
theorem error_cases {failure : Failure} (resolves : Resolves mesh asked property outcome)
    (fails : outcome = .error failure) :
    ∃ name, .named name ∈ asked ∧ ¬mesh.Defines (.named name) ∧
      failure = .rejected (.unknownSubdomain name) := by
  cases resolves with
  | answered => cases fails
  | undefined isAsked missing =>
    cases fails
    exact ⟨_, isAsked, missing, rfl⟩

/-- A computation may be asked for further subdomains that are defined. -/
theorem of_defined (resolves : Resolves mesh asked property outcome)
    (defined : ∀ subdomain ∈ more, mesh.Defines subdomain) :
    Resolves mesh (more ++ asked) property outcome := by
  cases resolves with
  | answered definedAsked holds =>
    exact .answered (List.forall_mem_append.mpr ⟨defined, definedAsked⟩) holds
  | undefined isAsked missing => exact .undefined (List.mem_append_right _ isAsked) missing

/-- One computation after another. -/
theorem bind {next : β → Outcome γ} (resolves : Resolves mesh asked property outcome)
    (continues : ∀ answer, property answer → Resolves mesh more property' (next answer)) :
    Resolves mesh (asked ++ more) property' (outcome >>= next) := by
  cases resolves with
  | answered defined holds => exact (continues _ holds).of_defined defined
  | undefined isAsked missing => exact .undefined (List.mem_append_left _ isAsked) missing

/-- A computation that continues without asking for subdomains, and always with an answer. -/
theorem bind_ok {next : β → Outcome γ} (resolves : Resolves mesh asked property outcome)
    (continues : ∀ answer, property answer → ∃ result, next answer = .ok result ∧
      property' result) :
    Resolves mesh asked property' (outcome >>= next) := by
  rw [← List.append_nil asked]
  refine resolves.bind fun answer holds => ?_
  obtain ⟨result, answered, holdsResult⟩ := continues answer holds
  rw [answered]
  exact of_holds holdsResult

/-- A computation for every member of a list. -/
theorem mapM {f : δ → Outcome β} {asks : δ → List Subdomain} {members : List δ}
    (each : ∀ member ∈ members, Resolves mesh (asks member) property (f member)) :
    Resolves mesh (members.flatMap asks) (fun results => ∀ result ∈ results, property result)
      (members.mapM f) := by
  induction members with
  | nil => exact of_holds fun _ member => nomatch member
  | cons member rest ih =>
    obtain ⟨first, later⟩ := List.forall_mem_cons.mp each
    rw [List.mapM_cons]
    exact first.bind fun result holds => (ih later).bind_ok fun results all =>
      ⟨result :: results, rfl, List.forall_mem_cons.mpr ⟨holds, all⟩⟩

/-- A loop over a list whose steps keep a property. -/
theorem foldlM {step : β → δ → Outcome β} {asks : δ → List Subdomain} {members : List δ}
    {start : β} (each : ∀ member ∈ members, ∀ state, property state →
      Resolves mesh (asks member) property (step state member)) (holds : property start) :
    Resolves mesh (members.flatMap asks) property (members.foldlM step start) := by
  induction members generalizing start with
  | nil => exact of_holds holds
  | cons member rest ih =>
    obtain ⟨first, later⟩ := List.forall_mem_cons.mp each
    rw [List.foldlM_cons]
    exact (first start holds).bind fun state => ih later

end Resolves

namespace Mesh

variable {mesh : Mesh α}

/-- A named subdomain is defined exactly when the mesh has an entry of that name. -/
theorem defines_named_iff {name : String} :
    mesh.Defines (.named name) ↔ mesh.subdomains.lookup name ≠ none := by
  rw [Ne, List.lookup_eq_none_iff, not_forall₂, Defines, List.mem_map]
  simp only [bne_iff_ne, Ne, not_not, exists_prop, eq_comm (a := name)]

/-- The vertices that are listed for a subdomain are found if it is defined. -/
theorem resolves_listedVertices (subdomain : Subdomain) :
    Resolves mesh [subdomain] (fun _ => True) (mesh.listedVertices subdomain) := by
  cases subdomain with
  | everywhere | boundary => exact .answered (List.forall_mem_singleton.mpr trivial) trivial
  | named name =>
    dsimp only [listedVertices]
    split
    · rename_i vertices found
      refine .answered (List.forall_mem_singleton.mpr (defines_named_iff.mpr ?_)) trivial
      rw [found]
      exact Option.some_ne_none _
    · rename_i absent
      exact .undefined (List.mem_singleton_self _) fun defined =>
        defines_named_iff.mp defined absent

/-- The vertices of a defined subdomain are found, and are vertices of the mesh. -/
theorem resolves_verticesOf (subdomain : Subdomain) :
    Resolves mesh [subdomain] (fun vertices => ∀ vertex ∈ vertices, vertex < mesh.vertexCount)
      (mesh.verticesOf subdomain) :=
  (resolves_listedVertices subdomain).bind_ok fun _ _ => ⟨_, rfl, fun _ member =>
    List.mem_range.mp (List.mem_filter.mp member).1⟩

/-- The positions of some members of a list are in its range. -/
theorem lt_of_mem_positions {members : List β} {keeps : β × Nat → Bool} {position : Nat}
    (member : position ∈ (members.zipIdx.filter keeps).map Prod.snd) :
    position < members.length := by
  obtain ⟨pair, inside, rfl⟩ := List.mem_map.mp member
  exact List.snd_lt_of_mem_zipIdx (List.mem_filter.mp inside).1

/-- The edges of a defined subdomain are found, and are edges of the mesh. -/
theorem resolves_edgesOf (subdomain : Subdomain) :
    Resolves mesh [subdomain] (fun edges => ∀ edge ∈ edges, edge < mesh.edges.size)
      (mesh.edgesOf subdomain) :=
  (resolves_listedVertices subdomain).bind_ok fun _ _ =>
    ⟨_, rfl, fun _ member => lt_of_mem_positions member⟩

/-- The faces of a defined subdomain are found, and are faces of the mesh. -/
theorem resolves_facesOf (subdomain : Subdomain) :
    Resolves mesh [subdomain] (fun faces => ∀ face ∈ faces, face < mesh.owners.size)
      (mesh.facesOf subdomain) := by
  cases subdomain with
  | everywhere | boundary =>
    exact .answered (List.forall_mem_singleton.mpr trivial) fun _ member => List.mem_range.mp member
  | named name =>
    exact (resolves_listedVertices (.named name)).bind_ok fun _ _ =>
      ⟨_, rfl, fun _ member => lt_of_mem_positions member⟩

end Mesh

end FiniteVolume
