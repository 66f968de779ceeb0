import FiniteVolume.Proofs.Kernel.Propagation
import FiniteVolume.Proofs.System.Enforcement
import FiniteVolume.Proofs.System.Resolution

/-!
# Hand-written edge kernels

An edge kernel may report anything. Assembly adds all reported blocks at their vertices or is
rejected, unless some values do not fit the mesh, and then it looks up a value or an entry that does
not exist (`assemble_propagates`): the number of the blocks is checked, the lengths of the vectors
and the vertices are not.
-/

namespace FiniteVolume

variable {α : Type}

/-- What a contribution adds at a position of the matrix, in this order. -/
def Contribution.valuesAt (contribution : Contribution α) (row col : Nat) : List α :=
  (contribution.triplets.filter fun triplet => triplet.row = row ∧ triplet.col = col).map
    Triplet.value

/-- What a contribution adds to the right-hand side at a vertex, in this order. -/
def Contribution.rhsValuesAt (contribution : Contribution α) (vertex : Nat) : List α :=
  (contribution.rhs.filter fun entry => entry.1 = vertex).map Prod.snd

variable [Arithmetic α] {mesh : Mesh α} {kernels : LinearKernels α}

namespace LinearKernels

/-- Edge kernels return values or an error for the edges of their subdomains. -/
def EdgesPropagate (kernels : LinearKernels α) (mesh : Mesh α) : Prop :=
  ∀ kernel ∈ kernels.edge, ∀ subdomain ∈ kernel.subdomains, ∀ edges,
    mesh.edgesOf subdomain = .ok edges →
      (kernel.eval mesh edges).Propagates (fun _ => True) False

/-- An edge kernel reports as many blocks as it is asked for, but they do not fit the mesh. -/
def Misfits (kernels : LinearKernels α) (mesh : Mesh α) : Prop :=
  ∃ kernel ∈ kernels.edge, ∃ subdomain ∈ kernel.subdomains, ∃ edges values,
    mesh.edgesOf subdomain = .ok edges ∧ kernel.eval mesh edges = .ok values ∧
      values.ends.length = edges.length ∧ ¬values.Fits mesh.vertexCount

end LinearKernels

variable {cause : Prop}

/-- Compiled edge kernels return values or an error. -/
theorem EdgeKernel.propagates_ofCompiled {source : Kernel (EdgeBlock (NumericFunction α))}
    (compiled : ∀ function ∈ source.block.coefficients, function.Compiled)
    (wellFormed : mesh.WellFormed) {subdomain : Subdomain} {edges : List Nat}
    (answers : mesh.edgesOf subdomain = .ok edges) :
    ((ofCompiled source).eval mesh edges).Propagates (fun _ => True) cause :=
  EdgeBlock.propagates_eval compiled wellFormed ((Mesh.resolves_edgesOf subdomain).holds answers)

namespace LinearKernels

/-- A vertex kernel contributes at vertices or is rejected. -/
theorem Compiled.propagates_vertices (compiled : kernels.Compiled) (wellFormed : mesh.WellFormed)
    {kernel : Kernel (PointBlock (NumericFunction α))} (member : kernel ∈ kernels.vertex)
    (subdomain : Subdomain) :
    Outcome.Propagates (Contribution.InRange mesh.vertexCount) cause (do
      let vertices ← mesh.verticesOf subdomain
      return Contribution.ofPointValues (← kernel.block.evalVertices mesh vertices)) := by
  refine (Mesh.resolves_verticesOf subdomain).propagates.bind fun vertices inRange => ?_
  refine (PointBlock.propagates_evalVertices (compiled.vertex kernel member) wellFormed
    inRange).bind fun values same => .answered ?_
  exact Contribution.inRange_ofPointValues (same ▸ inRange)

/-- A face kernel contributes at vertices or is rejected. -/
theorem Compiled.propagates_faces (compiled : kernels.Compiled) (wellFormed : mesh.WellFormed)
    {kernel : Kernel (PointBlock (NumericFunction α))} (member : kernel ∈ kernels.face)
    (subdomain : Subdomain) :
    Outcome.Propagates (Contribution.InRange mesh.vertexCount) cause (do
      let faces ← mesh.facesOf subdomain
      return Contribution.ofPointValues (← kernel.block.evalFaces mesh faces)) := by
  refine (Mesh.resolves_facesOf subdomain).propagates.bind fun faces inRange => ?_
  refine (PointBlock.propagates_evalFaces (compiled.face kernel member) wellFormed
    inRange).bind fun values inVertices => .answered ?_
  exact Contribution.inRange_ofPointValues inVertices

/-- An edge kernel contributes at vertices or is rejected, unless its values do not fit. -/
theorem EdgesPropagate.propagates_edges (edges : kernels.EdgesPropagate mesh)
    {kernel : EdgeKernel α} (member : kernel ∈ kernels.edge) {subdomain : Subdomain}
    (listed : subdomain ∈ kernel.subdomains) :
    Outcome.Propagates
      (fun contribution => contribution.InRange mesh.vertexCount ∨ kernels.Misfits mesh)
      (kernels.Misfits mesh) (do
        let edges ← mesh.edgesOf subdomain
        Contribution.ofEdgeValues (← kernel.eval mesh edges) edges) := by
  refine (Mesh.resolves_edgesOf subdomain).propagates.answers.bind fun asked answers => ?_
  have evaluates := (edges kernel member subdomain listed asked answers.1).answers
  refine (evaluates.imp (fun _ holds => holds) False.elim).bind fun values evaluated => ?_
  have misfits : values.ends.length = asked.length → ¬values.Fits mesh.vertexCount →
      kernels.Misfits mesh := fun complete notFits =>
    ⟨kernel, member, subdomain, listed, asked, values, answers.1, evaluated.1, complete, notFits⟩
  refine (EdgeValues.propagates_contribution values asked).answers.imp
    (fun contribution contributes => ?_) fun ⟨complete, coefficient, present, short⟩ =>
      misfits complete fun fits => absurd (fits.sizes coefficient present) (not_le.mpr short)
  have complete := (Contribution.ofEdgeValues_eq_ok_iff.mp contributes.1).1
  by_cases fits : values.Fits mesh.vertexCount
  · obtain ⟨_, contributes', inRange⟩ := fits.exists_contribution complete
    cases contributes.1.symm.trans contributes'
    exact Or.inl inRange
  · exact Or.inr (misfits complete fits)

/-- All kernels contribute at vertices or one is rejected, unless some values do not fit. -/
theorem Compiled.propagates_contributions (compiled : kernels.Compiled)
    (edges : kernels.EdgesPropagate mesh) (wellFormed : mesh.WellFormed) :
    (kernels.contributions mesh).Propagates
      (fun contributions => ∀ contribution ∈ contributions,
        contribution.InRange mesh.vertexCount ∨ kernels.Misfits mesh)
      (kernels.Misfits mesh) := by
  have flatten : ∀ {property : Contribution α → Prop} {lists : List (List (Contribution α))},
      (∀ list ∈ lists, ∀ contribution ∈ list, property contribution) →
      ∀ contribution ∈ lists.flatten, property contribution := by
    intro property lists holds contribution member
    obtain ⟨list, inside, present⟩ := List.mem_flatten.mp member
    exact holds list inside contribution present
  refine (Outcome.Propagates.mapM fun kernel member => Outcome.Propagates.mapM
    fun subdomain listed => edges.propagates_edges member listed).bind fun edge inEdge => ?_
  refine (Outcome.Propagates.mapM fun kernel member => Outcome.Propagates.mapM
    fun subdomain _ => compiled.propagates_vertices wellFormed member subdomain).bind
      fun vertex inVertex => ?_
  refine (Outcome.Propagates.mapM fun kernel member => Outcome.Propagates.mapM
    fun subdomain _ => compiled.propagates_faces wellFormed member subdomain).bind
      fun face inFace => ?_
  refine .answered (List.forall_mem_append.mpr ⟨List.forall_mem_append.mpr
    ⟨flatten inEdge, ?_⟩, ?_⟩)
  · exact fun contribution member => Or.inl (flatten inVertex contribution member)
  · exact fun contribution member => Or.inl (flatten inFace contribution member)

end LinearKernels

omit [Arithmetic α] in
/-- Triplets are accepted or rejected. -/
theorem SparseMatrix.propagates_triplets (rowCount colCount : Nat)
    (rows cols : List Nat) (values : List α) :
    (triplets rowCount colCount rows cols values).Propagates (fun _ => True) cause := by
  rw [triplets]
  split_ifs
  · exact .rejected _
  · exact .rejected _
  · exact .rejected _
  · exact .rejected _
  · exact .answered trivial

namespace LinearSystem

section Start

variable {count : Nat} {contribution : Contribution α} {system : LinearSystem α}

theorem addTo_of_beyond {vector : Array α} {index : Nat} (beyond : vector.size ≤ index)
    (value : α) : addTo vector index value = .error .indexRange :=
  if_neg (not_lt.mpr beyond)

/-- An entry that the vector does not have cannot be added to. -/
theorem foldlM_addTo_of_beyond {entries : List (Nat × α)} {start : Array α} {entry : Nat × α}
    (listed : entry ∈ entries) (beyond : start.size ≤ entry.1) :
    entries.foldlM (fun rhs (vertex, value) => addTo rhs vertex value) start =
      .error .indexRange := by
  induction entries generalizing start with
  | nil => cases listed
  | cons first rest ih =>
    rw [List.foldlM_cons]
    by_cases inside : first.1 < start.size
    · obtain ⟨next, adds, size⟩ := exists_addTo inside first.2
      have later : entry ∈ rest := (List.mem_cons.mp listed).resolve_left fun isFirst =>
        absurd inside (not_lt.mpr (isFirst ▸ beyond))
      change addTo start first.1 first.2 >>= _ = _
      rw [adds, Outcome.ok_bind]
      exact ih later (size ▸ beyond)
    · change addTo start first.1 first.2 >>= _ = _
      rw [addTo_of_beyond (not_lt.mp inside)]
      rfl

/-- A contribution has a system if it is to vertices, and otherwise an entry beyond them may be
looked up in vain. -/
theorem propagates_ofContribution (contribution : Contribution α) :
    (ofContribution count contribution).Propagates (OfSize count)
      (¬contribution.InRange count) := by
  by_cases inRange : contribution.InRange count
  · obtain ⟨system, formed, size⟩ := exists_ofContribution inRange
    rw [formed]
    exact .answered size
  · have adds : Outcome.Propagates (fun _ => True) (¬contribution.InRange count)
        (contribution.rhs.foldlM (fun rhs (vertex, value) => addTo rhs vertex value)
          (Array.replicate count Arithmetic.zero)) := by
      refine Outcome.Propagates.foldlM trivial fun entry _ rhs _ => ?_
      change Outcome.Propagates _ _ (addTo rhs entry.1 entry.2)
      by_cases inside : entry.1 < rhs.size
      · rw [addTo, if_pos inside]
        exact .answered trivial
      · rw [addTo_of_beyond (not_lt.mp inside)]
        exact .missing inRange
    have forms : Outcome.Propagates (fun _ => True) (¬contribution.InRange count)
        (ofContribution count contribution) :=
      adds.bind fun rhs _ => (SparseMatrix.propagates_triplets _ _ _ _ _).bind fun _ _ =>
        .answered trivial
    exact forms.answers.imp (fun _ formed => ofSize_of_ofContribution formed.1) id

/-- The system of a contribution stores what is added at every position, where it stores anything,
and on the diagonal. -/
theorem stored_of_ofContribution (formed : ofContribution count contribution = .ok system) :
    (∀ row < count, ∀ col, (system.matrix.rows[row]?.getD []).lookup col = SparseMatrix.addUp none
      (contribution.valuesAt row col ++ if row = col then [Arithmetic.zero] else [])) ∧
      ∀ vertex < count, system.rhs[vertex]? =
        some ((contribution.rhsValuesAt vertex).foldl Arithmetic.add Arithmetic.zero) := by
  obtain ⟨rhs, adds, formed⟩ := Outcome.bind_eq_ok_iff.mp formed
  obtain ⟨triplets, accepts, same⟩ := Outcome.bind_eq_ok_iff.mp formed
  cases same
  obtain ⟨rfl, -⟩ := SparseMatrix.triplets_eq_ok accepts
  constructor
  · intro row inside col
    have diagonal : (((List.range count).map fun vertex =>
        (⟨vertex, vertex, Arithmetic.zero⟩ : Triplet α)).filter fun triplet =>
          triplet.row = row ∧ triplet.col = col).map Triplet.value =
        if row = col then [Arithmetic.zero] else [] := by
      rw [List.filter_map, List.map_map]
      by_cases same : row = col
      · have once : (List.range count).filter (fun vertex => vertex = row) = [row] := by
          rw [List.filter_eq, List.count_eq_one_of_mem List.nodup_range (List.mem_range.mpr inside)]
          rfl
        have only : ((fun triplet : Triplet α => decide (triplet.row = row ∧ triplet.col = col)) ∘
            fun vertex => ⟨vertex, vertex, Arithmetic.zero⟩) = fun vertex => vertex = row := by
          funext vertex
          simp [← same]
        rw [if_pos same, only, once]
        rfl
      · rw [if_neg same, List.map_eq_nil_iff, List.filter_eq_nil_iff]
        intro vertex _
        simp only [Function.comp_apply, decide_eq_true_eq, not_and]
        exact fun isRow isCol => same (isRow.symm.trans isCol)
    rw [SparseMatrix.lookup_ofTriplets _ inside, List.filter_append, List.map_append, diagonal]
    rfl
  · intro vertex inside
    rw [rhs_of_foldlM_addTo adds, Array.getElem?_replicate, if_pos inside]
    rfl

end Start

end LinearSystem

namespace LinearKernels

/-- Enforcing a compiled Dirichlet kernel on a square system succeeds or is rejected. -/
theorem Compiled.propagates_enforceDirichlet (compiled : kernels.Compiled)
    {kernel : DirichletKernel (NumericFunction α)} (member : kernel ∈ kernels.dirichlet)
    {system : LinearSystem α} {count : Nat} (size : system.OfSize count) :
    Outcome.Propagates (LinearSystem.OfSize count) cause (do
      let (enforced, outcome) := system.enforceDirichlet mesh kernel
      outcome
      return enforced) := by
  have resolves := (Mesh.resolves_verticesOf kernel.subdomain :
    Resolves mesh _ _ (mesh.verticesOf kernel.subdomain))
  have steps := LinearSystem.enforcement_of_enforceDirichlet system mesh kernel
  generalize enforces : system.enforceDirichlet mesh kernel = outcome at steps
  cases steps with
  | unresolved fails =>
    obtain ⟨name, -, -, rfl⟩ := resolves.error_cases fails
    exact .rejected _
  | outside => exact .rejected _
  | @unevaluated vertices failure answers covers fails =>
    have evaluates : (kernel.block.eval mesh vertices).Propagates (fun _ => True) False :=
      DirichletBlock.propagates_eval (compiled.dirichlet kernel member) (resolves.holds answers)
    obtain ⟨error, rfl⟩ | ⟨-, absurd⟩ := evaluates.failure_cases fails
    · exact .rejected error
    · exact absurd.elim
  | unset answers covers evaluates fails =>
    obtain ⟨_, sets, -⟩ := LinearSystem.exists_enforced covers (size.lt_of_covers covers) _
    cases sets.symm.trans fails
  | enforced => exact .answered (size.of_enforceDirichlet enforces)

end LinearKernels

namespace LinearKernels

/-- Kernels that contribute to vertices only have reported values that fit. -/
theorem not_misfits_of_contributions {contributions : List (Contribution α)}
    (contributes : kernels.contributions mesh = .ok contributions)
    (inRange : ∀ entry ∈ (Contribution.sum contributions).rhs, entry.1 < mesh.vertexCount) :
    ¬kernels.Misfits mesh := by
  intro ⟨kernel, member, subdomain, listed, asked, values, answers, evaluates, _, notFits⟩
  obtain ⟨results, mapped, formed⟩ := Outcome.bind_eq_ok_iff.mp contributes
  obtain ⟨_, -, formed⟩ := Outcome.bind_eq_ok_iff.mp formed
  obtain ⟨_, -, same⟩ := Outcome.bind_eq_ok_iff.mp formed
  cases same
  obtain ⟨ofKernel, contributesKernel⟩ := Outcome.exists_of_mapM mapped member
  obtain ⟨contribution, contributes⟩ := Outcome.exists_of_mapM contributesKernel listed
  have inKernel := (Outcome.mem_iff_of_mapM contributesKernel).mpr ⟨subdomain, listed, contributes⟩
  have inResults := (Outcome.mem_iff_of_mapM mapped).mpr ⟨kernel, member, contributesKernel⟩
  obtain ⟨_, answers', contributes⟩ := Outcome.bind_eq_ok_iff.mp contributes
  cases answers.symm.trans answers'
  obtain ⟨_, evaluates', contributes⟩ := Outcome.bind_eq_ok_iff.mp contributes
  cases evaluates.symm.trans evaluates'
  have fits := EdgeValues.fits_of_contribution contributes fun entry inside => inRange entry
    (Contribution.mem_rhs_sum (List.mem_append_left _ (List.mem_append_left _
      (List.mem_flatten.mpr ⟨ofKernel, inResults, inKernel⟩))) inside)
  exact notFits fits.2

end LinearKernels

namespace LinearSystem

/-- Values that do not fit are not assembled: unless a kernel is rejected, one of their vectors or
an entry beyond the vertices is looked up in vain. -/
theorem assemble_of_misfits (compiled : kernels.Compiled) (edges : kernels.EdgesPropagate mesh)
    (wellFormed : mesh.WellFormed) (misfits : kernels.Misfits mesh)
    (notRejected : ∀ error, kernels.contributions mesh ≠ Outcome.reject error) :
    assemble mesh kernels = .error .indexRange := by
  have propagates := compiled.propagates_contributions edges wellFormed
  rw [assemble]
  cases contributes : kernels.contributions mesh with
  | error failure =>
    obtain ⟨error, rfl⟩ | ⟨rfl, -⟩ := propagates.failure_cases contributes
    · exact absurd contributes (notRejected error)
    · rfl
  | ok contributions =>
    obtain ⟨entry, listed, beyond⟩ : ∃ entry ∈ (Contribution.sum contributions).rhs,
        mesh.vertexCount ≤ entry.1 := by
      by_contra none
      refine LinearKernels.not_misfits_of_contributions contributes (fun entry listed => ?_) misfits
      exact not_le.mp fun beyond => none ⟨entry, listed, beyond⟩
    have beyond : (Array.replicate mesh.vertexCount (Arithmetic.zero : α)).size ≤ entry.1 := by
      rwa [Array.size_replicate]
    rw [Outcome.ok_bind, ofContribution, foldlM_addTo_of_beyond listed beyond]
    rfl

/-- Every outcome of assembly with any edge kernels that do not fail by themselves. There is a
system, in which all blocks are added at their vertices where no Dirichlet kernel fixes the value,
or a kernel is rejected, or values that do not fit the mesh are looked up in vain; and they are
unless a kernel is rejected before. -/
theorem assemble_propagates (built : mesh.Built) (compiled : kernels.Compiled)
    (edges : kernels.EdgesPropagate mesh) :
    (assemble mesh kernels).Propagates
      (fun system => ¬kernels.Misfits mesh ∧ ∃ blocks, kernels.blocks mesh = .ok blocks ∧
        ∀ vertex < mesh.vertexCount,
          (∀ kernel ∈ kernels.dirichlet, ¬Fixes mesh kernel vertex) →
          (∀ col, (system.matrix.rows[vertex]?.getD []).lookup col =
            SparseMatrix.addUp none (blocks.contribution.valuesAt vertex col ++
              if vertex = col then [Arithmetic.zero] else [])) ∧
          system.rhs[vertex]? = some ((blocks.contribution.rhsValuesAt vertex).foldl
            Arithmetic.add Arithmetic.zero))
      (kernels.Misfits mesh) ∧
    (kernels.Misfits mesh → (∀ error, kernels.contributions mesh ≠ Outcome.reject error) →
      assemble mesh kernels = .error .indexRange) := by
  have misses := assemble_of_misfits compiled edges built.wellFormed
  refine ⟨?_, misses⟩
  have outcomes : (assemble mesh kernels).Propagates (OfSize mesh.vertexCount)
      (kernels.Misfits mesh) := by
    refine (compiled.propagates_contributions edges built.wellFormed).bind
      fun contributions inRange => ?_
    have starts : (ofContribution mesh.vertexCount (Contribution.sum contributions)).Propagates
        (OfSize mesh.vertexCount) (kernels.Misfits mesh) := by
      refine (propagates_ofContribution _).imp (fun _ size => size) fun outside => ?_
      by_contra fits
      exact outside (Contribution.InRange.sum fun contribution member =>
        (inRange contribution member).resolve_right fits)
    exact starts.bind fun start size => Outcome.Propagates.foldlM size
      fun kernel member system size => compiled.propagates_enforceDirichlet member size
  refine outcomes.answers.imp (fun system formed => ?_) id
  obtain ⟨contributions, contributes, enforced⟩ := Outcome.bind_eq_ok_iff.mp formed.1
  obtain ⟨start, sums, enforced⟩ := Outcome.bind_eq_ok_iff.mp enforced
  obtain ⟨blocks, gives, same⟩ := LinearKernels.contributions_sum contributes
  obtain ⟨stored, entries⟩ := stored_of_ofContribution (same ▸ sums)
  refine ⟨fun misfits => ?_, blocks, gives, fun vertex inside free => ?_⟩
  · have missing := misses misfits fun error rejected =>
      Outcome.reject_ne_ok _ _ (rejected.symm.trans contributes)
    cases missing.symm.trans formed.1
  · obtain ⟨sameRow, sameEntry⟩ := sameRow_enforceAll enforced free
    exact ⟨fun col => sameRow ▸ stored vertex inside col, sameEntry.trans (entries vertex inside)⟩

end LinearSystem

theorem Mesh.built_interval : Mesh.interval.Built := by
  have line : Mesh.Built { Mesh.interval with owners := #[], areas := #[], subdomains := [] } :=
    .build (show Mesh.build Mesh.interval.coords Mesh.interval.edges Mesh.interval.ratios
      Mesh.interval.lengths Mesh.interval.volumes = .ok _ from rfl)
  have faces : Mesh.Built { Mesh.interval with subdomains := [] } :=
    line.withFaces (show Mesh.withFaces _ #[0, 1] #[1, 1] = .ok _ from rfl)
  exact faces.withSubdomain (show Mesh.withSubdomain _ "left" [0] = .ok _ from rfl)

/-- An edge kernel that reports one block, which joins a vertex to the first one. -/
def EdgeKernel.reporting (vertex : Nat) : EdgeKernel ℚ where
  subdomains := [.everywhere]
  eval _ _ := .ok ⟨⟨⟨⟨#[1], #[2]⟩, ⟨#[3], #[4]⟩⟩, ⟨#[5], #[6]⟩⟩, [⟨0, vertex⟩]⟩

/-- On an interval of two vertices a block for a third one is not assembled, and the block for the
other one is. -/
theorem LinearSystem.assemble_propagates_reporting :
    ∃ kernels : LinearKernels ℚ, Problem.conduction.compile ⟨1, ⟨"u"⟩⟩ = .ok kernels ∧
      assemble Mesh.interval (kernels.withEdgeKernel (.reporting 2)) = .error .indexRange ∧
      ∃ system, assemble Mesh.interval (kernels.withEdgeKernel (.reporting 1)) = .ok system ∧
        ¬(kernels.withEdgeKernel (.reporting 1)).Misfits Mesh.interval := by
  have observed : (do
      let kernels ← Problem.conduction.compile ⟨1, ⟨"u"⟩⟩
      let _ ← (kernels.withEdgeKernel (.reporting 2)).contributions Mesh.interval
      let _ ← assemble Mesh.interval (kernels.withEdgeKernel (.reporting 1))
      return ()) = Except.ok () := by decide +kernel
  obtain ⟨kernels, compiles, observed⟩ := Outcome.bind_eq_ok_iff.mp observed
  obtain ⟨_, contributes, observed⟩ := Outcome.bind_eq_ok_iff.mp observed
  obtain ⟨system, assembles, -⟩ := Outcome.bind_eq_ok_iff.mp observed
  obtain ⟨compiled, edges⟩ := Problem.compiled_of_compile compiles
  have built := Mesh.built_interval
  have compiledWith : ∀ vertex, (kernels.withEdgeKernel (.reporting vertex)).Compiled :=
    fun _ => ⟨compiled.vertex, compiled.face, compiled.dirichlet⟩
  have propagate : ∀ vertex,
      (kernels.withEdgeKernel (.reporting vertex)).EdgesPropagate Mesh.interval := by
    intro vertex kernel member subdomain listed asked answers
    rcases List.mem_append.mp member with inside | isHand
    · obtain ⟨source, rfl, functions⟩ := edges kernel inside
      exact EdgeKernel.propagates_ofCompiled functions built.wellFormed answers
    · rw [List.mem_singleton.mp isHand]
      exact .answered trivial
  have misfits : (kernels.withEdgeKernel (.reporting 2)).Misfits Mesh.interval := by
    refine ⟨.reporting 2, List.mem_append_right _ List.mem_cons_self, .everywhere,
      List.mem_cons_self, [0], _, by decide +kernel, rfl, rfl, fun fits => ?_⟩
    exact absurd (fits.ends ⟨0, 2⟩ List.mem_cons_self).2 (by decide)
  refine ⟨kernels, compiles, (assemble_propagates built (compiledWith 2) (propagate 2)).2 misfits
    fun error rejected => ?_, system, assembles, ?_⟩
  · exact Outcome.reject_ne_ok _ _ (rejected.symm.trans contributes)
  · exact ((assemble_propagates built (compiledWith 1) (propagate 1)).1.holds assembles).1

end FiniteVolume
