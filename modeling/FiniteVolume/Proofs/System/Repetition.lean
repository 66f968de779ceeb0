import FiniteVolume.Proofs.Kernel.Merging
import FiniteVolume.Proofs.System.Enforcement
import FiniteVolume.Proofs.System.Resolution

/-!
# Repeated conditions

A condition that is declared more than once has one Dirichlet kernel, at the place of its first
declaration. Of the kernels that fix a vertex the last one decides, so the assembled system is that
of all declared conditions exactly if, at every vertex, the last kept kernel and the last declared
one impose the same equation (`assemble_merged_eq_iff`). A repeated condition can only lose its
effect to another one that is declared in between and has a vertex in common with it
(`LastWith.eq_of_eraseDups`).
-/

namespace FiniteVolume

section LastWith

variable {α β : Type}

/-- An item is the last one of a list with a property. -/
inductive LastWith (property : α → Prop) : List α → α → Prop where
  | here {first : α} {rest : List α} (holds : property first)
    (none : ∀ later ∈ rest, ¬property later) : LastWith property (first :: rest) first
  | there {first last : α} {rest : List α} (isLast : LastWith property rest last) :
    LastWith property (first :: rest) last

variable {items : List α} {last : α}

theorem exists_lastWith (property : α → Prop) {item : α} (listed : item ∈ items)
    (holds : property item) : ∃ last, LastWith property items last := by
  induction items generalizing item with
  | nil => cases listed
  | cons first rest ih =>
    by_cases later : ∃ other ∈ rest, property other
    · obtain ⟨other, listed, holds⟩ := later
      obtain ⟨last, isLast⟩ := ih listed holds
      exact ⟨last, .there isLast⟩
    · have none : ∀ other ∈ rest, ¬property other := fun other member holds =>
        later ⟨other, member, holds⟩
      have isFirst : item = first := (List.mem_cons.mp listed).resolve_right fun inRest =>
        none item inRest holds
      exact ⟨first, .here (isFirst ▸ holds) none⟩

namespace LastWith

variable {property : α → Prop}

theorem split (isLast : LastWith property items last) :
    ∃ before after, items = before ++ last :: after ∧ property last ∧
      ∀ later ∈ after, ¬property later := by
  induction isLast with
  | here holds none => exact ⟨[], _, rfl, holds, none⟩
  | @there first _ _ _ ih =>
    obtain ⟨before, after, same, rest⟩ := ih
    exact ⟨first :: before, after, congrArg (first :: ·) same, rest⟩

/-- The last one of some related items is related to the last one. -/
theorem of_forall₂ {property' : β → Prop} {related : α → β → Prop} {others : List β} {other : β}
    (isLast : LastWith property' others other) (relates : List.Forall₂ related items others)
    (agree : ∀ item other, related item other → (property item ↔ property' other)) :
    ∃ item, related item other ∧ LastWith property items item := by
  induction isLast generalizing items with
  | here holds none =>
    cases relates with
    | @cons item _ rest _ relatesFirst relatesRest =>
      refine ⟨item, relatesFirst, .here ((agree _ _ relatesFirst).mpr holds) ?_⟩
      intro later member holdsLater
      obtain ⟨other, paired, relatesLater⟩ := exists_mem_zip_of_forall₂ relatesRest member
      exact none other (List.of_mem_zip paired).2 ((agree _ _ relatesLater).mp holdsLater)
  | there _ ih =>
    cases relates with
    | cons _ relatesRest =>
      obtain ⟨item, relatesItem, isLast⟩ := ih relatesRest
      exact ⟨item, relatesItem, .there isLast⟩

/-- The last item with a property stays the last one when only first occurrences are kept, unless
another item with the property stands between two of its occurrences. -/
theorem eq_of_eraseDups [BEq α] [LawfulBEq α] {kept : α}
    (isKept : LastWith property items.eraseDups kept) (isLast : LastWith property items last)
    (undisturbed : ∀ before between after, items = before ++ last :: (between ++ last :: after) →
      ∀ other ∈ between, property other → other = last) :
    kept = last := by
  obtain ⟨earlier, later, sameKept, holdsKept, noneLater⟩ := isKept.split
  obtain ⟨before, after, rfl, holdsLast, noneAfter⟩ := isLast.split
  by_contra different
  have occurrences := firstOccurrences_eraseDups (before ++ last :: after)
  -- The last item is kept, and earlier than the kept one.
  have lastEarlier : last ∈ earlier := by
    have listed : last ∈ (before ++ last :: after).eraseDups :=
      (occurrences.mem_iff last).mpr (List.mem_append_right _ List.mem_cons_self)
    rw [sameKept] at listed
    apply (List.mem_append.mp listed).elim id
    intro inRest
    apply (List.mem_cons.mp inRest).elim
    · exact fun same => absurd same.symm different
    · exact fun member => absurd holdsLast (noneLater last member)
  have ordered : (before ++ last :: after).idxOf last < (before ++ last :: after).idxOf kept := by
    have inOrder := occurrences.inOrder
    rw [sameKept] at inOrder
    exact (List.pairwise_append.mp inOrder).2.2 last lastEarlier kept List.mem_cons_self
  have keptListed : kept ∈ before := by
    have listed : kept ∈ before ++ last :: after :=
      (occurrences.mem_iff kept).mp (sameKept ▸ List.mem_append_right _ List.mem_cons_self)
    apply (List.mem_append.mp listed).elim id
    intro inRest
    apply (List.mem_cons.mp inRest).elim
    · exact fun same => absurd same different
    · exact fun member => absurd holdsKept (noneAfter kept member)
  -- So it occurs before the kept one already, and the kept one stands in between.
  rw [List.idxOf_append_of_mem keptListed] at ordered
  have inside := List.idxOf_lt_length_of_mem keptListed
  have lastListed : last ∈ before := by
    by_contra absent
    rw [List.idxOf_append, if_neg absent] at ordered
    omega
  obtain ⟨start, between, rfl, fresh⟩ := List.eq_append_cons_of_mem lastListed
  have inBetween : kept ∈ between := by
    rw [List.append_assoc, List.idxOf_append, if_neg fresh, List.cons_append,
      List.idxOf_cons_self] at ordered
    apply (List.mem_append.mp keptListed).elim
    · intro inStart
      rw [List.idxOf_append_of_mem inStart] at ordered
      have := List.idxOf_lt_length_of_mem inStart
      omega
    · exact fun inRest => (List.mem_cons.mp inRest).resolve_left different
  exact different (undisturbed start between after (by simp) kept inBetween holdsKept)

end LastWith

end LastWith

variable {α : Type}

/-- A vertex is in a subdomain of a mesh. -/
def Mesh.Contains (mesh : Mesh α) (subdomain : Subdomain) (vertex : Nat) : Prop :=
  ∃ vertices, mesh.verticesOf subdomain = .ok vertices ∧ vertex ∈ vertices

variable [Arithmetic α]

/-- Compiles the kernel of a condition. -/
def DirichletKernel.compile (stencil : Stencil) (kernel : DirichletKernel Expr) :
    Outcome (DirichletKernel (NumericFunction α)) :=
  kernel.mapM (NumericFunction.compile stencil.dirichletParams)

theorem DirichletKernel.subdomain_of_compile {stencil : Stencil} {kernel : DirichletKernel Expr}
    {compiled : DirichletKernel (NumericFunction α)}
    (compiles : kernel.compile stencil = .ok compiled) :
    compiled.subdomain = kernel.subdomain := by
  obtain ⟨block, -, same⟩ := Outcome.bind_eq_ok_iff.mp compiles
  cases same
  rfl

namespace LinearSystem

variable {mesh : Mesh α} {kernels others : List (DirichletKernel (NumericFunction α))}
  {start result result' : LinearSystem α} {count vertex : Nat}

/-- Of several kernels one is the last that fixes a vertex. -/
def Decides (mesh : Mesh α) (kernels : List (DirichletKernel (NumericFunction α))) (vertex : Nat)
    (kernel : DirichletKernel (NumericFunction α)) : Prop :=
  LastWith (fun kernel => Fixes mesh kernel vertex) kernels kernel

/-- The deciding kernel replaces the equation at a vertex. -/
theorem replaces_of_decides {kernel : DirichletKernel (NumericFunction α)}
    (formed : enforceAll mesh kernels start = .ok result)
    (decides : Decides mesh kernels vertex kernel) :
    ∃ block, kernel.block.at mesh vertex = .ok block ∧
      Replaces result start vertex block.coeff block.rhs := by
  obtain ⟨before, after, rfl, fixes, none⟩ := decides.split
  exact replaces_enforceAll formed fixes none

/-- Every one of several kernels has been enforced on a system of the same size. -/
theorem OfSize.of_enforceAll (size : start.OfSize count)
    (formed : enforceAll mesh kernels start = .ok result) :
    result.OfSize count ∧ ∀ kernel ∈ kernels, ∃ system next, OfSize count system ∧
      system.enforceDirichlet mesh kernel = (next, .ok ()) := by
  induction kernels generalizing start with
  | nil =>
    cases formed
    exact ⟨size, fun _ member => nomatch member⟩
  | cons kernel rest ih =>
    obtain ⟨next, enforces, formed⟩ := enforceAll_cons_iff.mp formed
    obtain ⟨sizeResult, enforced⟩ := ih (size.of_enforceDirichlet enforces) formed
    exact ⟨sizeResult, List.forall_mem_cons.mpr ⟨⟨start, next, size, enforces⟩, enforced⟩⟩

/-- Kernels that have been enforced can be enforced in another order, and repeatedly. -/
theorem OfSize.exists_enforceAll (size : start.OfSize count)
    (formed : enforceAll mesh kernels start = .ok result)
    (listed : ∀ kernel ∈ others, kernel ∈ kernels) :
    ∃ result', enforceAll mesh others start = .ok result' ∧ result'.OfSize count := by
  refine Outcome.exists_foldlM (fun kernel member state sizeState => ?_) size
  obtain ⟨system, next, sizeSystem, enforces⟩ :=
    (size.of_enforceAll formed).2 kernel (listed kernel member)
  obtain ⟨next', enforces', sizeNext⟩ := sizeState.exists_enforceDirichlet sizeSystem enforces
  refine ⟨next', ?_, sizeNext⟩
  rw [enforces']
  rfl

/-- Two lists of the same kernels lead to the same system exactly if their deciding kernels impose
the same equation at every vertex. -/
theorem OfSize.enforceAll_eq_iff (size : start.OfSize count)
    (formed : enforceAll mesh kernels start = .ok result)
    (formed' : enforceAll mesh others start = .ok result')
    (sameKernels : ∀ kernel, kernel ∈ others ↔ kernel ∈ kernels) :
    result' = result ↔ ∀ vertex kernel other, Decides mesh kernels vertex kernel →
      Decides mesh others vertex other →
        kernel.block.at mesh vertex = other.block.at mesh vertex := by
  constructor
  · intro same vertex kernel other decides decides'
    obtain ⟨block, gives, replaces⟩ := replaces_of_decides formed decides
    obtain ⟨block', gives', replaces'⟩ := replaces_of_decides formed' decides'
    subst same
    obtain ⟨coeff, rhs⟩ := replaces.coefficients_eq replaces' ⟨rfl, rfl⟩
    rw [gives, gives']
    congr 1
    calc
      block = ⟨block.coeff, block.rhs⟩ := rfl
      _ = block' := by rw [coeff, rhs]
  · intro agree
    have cols : result'.matrix.colCount = result.matrix.colCount :=
      (size.of_enforceAll formed').1.cols.trans (size.of_enforceAll formed).1.cols.symm
    refine ext_of_sameRow cols fun vertex => ?_
    by_cases fixed : ∃ kernel ∈ kernels, Fixes mesh kernel vertex
    · obtain ⟨kernel, member, fixes⟩ := fixed
      obtain ⟨first, decides⟩ :=
        exists_lastWith (fun kernel => Fixes mesh kernel vertex) member fixes
      obtain ⟨last, decides'⟩ :=
        exists_lastWith (fun kernel => Fixes mesh kernel vertex) ((sameKernels kernel).mpr member)
          fixes
      obtain ⟨block, gives, replaces⟩ := replaces_of_decides formed decides
      obtain ⟨block', gives', replaces'⟩ := replaces_of_decides formed' decides'
      have sameBlock := agree vertex first last decides decides'
      rw [gives, gives'] at sameBlock
      cases sameBlock
      exact replaces'.sameRow replaces
    · have free : ∀ kernel ∈ kernels, ¬Fixes mesh kernel vertex := fun kernel member fixes =>
        fixed ⟨kernel, member, fixes⟩
      have freeOthers : ∀ kernel ∈ others, ¬Fixes mesh kernel vertex := fun kernel member =>
        free kernel ((sameKernels kernel).mp member)
      exact (sameRow_enforceAll formed' freeOthers).trans (sameRow_enforceAll formed free).symm

/-- The last declared kernel that fixes a vertex is the last kept one, unless another condition with
a vertex in common is declared between two occurrences of one. -/
theorem Decides.eq_of_undisturbed {stencil : Stencil} {conditions : List (DirichletKernel Expr)}
    {merged declared : List (DirichletKernel (NumericFunction α))}
    {kept last : DirichletKernel (NumericFunction α)} (decides : Decides mesh merged vertex kept)
    (compilesKept : conditions.eraseDups.mapM (DirichletKernel.compile stencil) = .ok merged)
    (compilesDeclared : conditions.mapM (DirichletKernel.compile stencil) = .ok declared)
    (decides' : Decides mesh declared vertex last)
    (undisturbed : ∀ before condition between after,
      conditions = before ++ condition :: (between ++ condition :: after) →
      ∀ other ∈ between, (∃ vertex, mesh.Contains condition.subdomain vertex ∧
        mesh.Contains other.subdomain vertex) → other = condition) :
    kept = last := by
  have agree : ∀ (condition : DirichletKernel Expr) (kernel : DirichletKernel (NumericFunction α)),
      condition.compile stencil = .ok kernel →
        (mesh.Contains condition.subdomain vertex ↔ Fixes mesh kernel vertex) := by
    intro condition kernel compiles
    rw [← DirichletKernel.subdomain_of_compile compiles]
    rfl
  obtain ⟨keptCondition, compilesCondition, isKept⟩ :=
    decides.of_forall₂ (Outcome.mapM_eq_ok_iff.mp compilesKept) agree
  obtain ⟨lastCondition, compilesLast, isLast⟩ :=
    decides'.of_forall₂ (Outcome.mapM_eq_ok_iff.mp compilesDeclared) agree
  have sameCondition : keptCondition = lastCondition := by
    refine isKept.eq_of_eraseDups isLast fun before between after same other member contains => ?_
    obtain ⟨_, _, -, containsLast, -⟩ := isLast.split
    exact undisturbed before lastCondition between after same other member
      ⟨vertex, containsLast, contains⟩
  subst sameCondition
  exact Except.ok.inj (compilesCondition.symm.trans compilesLast)

/-- Where a problem is compiled and assembled, its declared conditions can be enforced one by one
too. This leads to the same system exactly if, at every vertex, the last kept kernel and the last
declared one impose the same equation, and always if no other condition with a vertex in common is
declared between two occurrences of one. -/
theorem assemble_merged_eq_iff {problem : Problem} {stencil : Stencil} {kernels : LinearKernels α}
    {merged : LinearSystem α} (compiled : problem.compile stencil = .ok kernels)
    (assembles : assemble mesh kernels = .ok merged) :
    ∃ conditions declared system,
      problem.conditions.mapM (DirichletKernel.ofCondition stencil) = .ok conditions ∧
      conditions.eraseDups.mapM (DirichletKernel.compile stencil) = .ok kernels.dirichlet ∧
      conditions.mapM (DirichletKernel.compile stencil) = .ok declared ∧
      assemble mesh { kernels with dirichlet := declared } = .ok system ∧
      (system = merged ↔ ∀ vertex kept last, Decides mesh kernels.dirichlet vertex kept →
        Decides mesh declared vertex last →
          kept.block.at mesh vertex = last.block.at mesh vertex) ∧
      ((∀ before condition between after,
        conditions = before ++ condition :: (between ++ condition :: after) →
        ∀ other ∈ between, (∃ vertex, mesh.Contains condition.subdomain vertex ∧
          mesh.Contains other.subdomain vertex) → other = condition) → system = merged) := by
  obtain ⟨exprs, discretizes, formsKernels⟩ := Outcome.bind_eq_ok_iff.mp compiled
  obtain ⟨set, compiles, same⟩ := Outcome.bind_eq_ok_iff.mp formsKernels
  cases same
  obtain ⟨formed, conditions, -, imposes, rfl⟩ := Problem.discretize_eq_ok_iff.mp discretizes
  obtain ⟨-, -, -, compilesKept⟩ := KernelSet.compile_eq_ok_iff.mp compiles
  obtain ⟨contributions, contributes, enforces⟩ := Outcome.bind_eq_ok_iff.mp assembles
  obtain ⟨start, sums, enforces⟩ := Outcome.bind_eq_ok_iff.mp enforces
  have size := ofSize_of_ofContribution sums
  obtain ⟨declared, compilesDeclared⟩ :
      ∃ declared, conditions.mapM (DirichletKernel.compile stencil) = .ok declared :=
    Outcome.exists_mapM fun condition member =>
      Outcome.exists_of_mapM compilesKept (List.mem_eraseDups.mpr member)
  have sameKernels : ∀ kernel, kernel ∈ declared ↔ kernel ∈ set.dirichlet := by
    intro kernel
    rw [Outcome.mem_iff_of_mapM compilesDeclared, Outcome.mem_iff_of_mapM compilesKept]
    simp only [List.mem_eraseDups]
    rfl
  obtain ⟨system, enforcesDeclared, -⟩ :=
    size.exists_enforceAll enforces fun kernel => (sameKernels kernel).mp
  have sameSystem := size.enforceAll_eq_iff enforces enforcesDeclared sameKernels
  refine ⟨conditions, declared, system, imposes, compilesKept, compilesDeclared,
    Outcome.bind_eq_ok_iff.mpr ⟨contributions, contributes,
      Outcome.bind_eq_ok_iff.mpr ⟨start, sums, enforcesDeclared⟩⟩, sameSystem, ?_⟩
  exact fun undisturbed => sameSystem.mpr fun vertex kept last decides decides' =>
    congrArg (fun kernel => kernel.block.at mesh vertex)
      (decides.eq_of_undisturbed compilesKept compilesDeclared decides' undisturbed)

end LinearSystem

/-- Conditions that give the unknown a value on a subdomain each. -/
def Problem.fixing (values : List (Rat × Subdomain)) : Problem where
  integrals := []
  conditions := values.map fun (value, subdomain) =>
    ⟨fun point => return .sum [.apply "u" [point.position], .num (-value)], subdomain⟩

namespace LinearSystem

/-- A repetition that follows the condition it repeats is merged without any effect. -/
theorem assemble_merged_eq_iff_repeated :
    let problem := Problem.fixing [(2, .everywhere), (1, .named "left"), (1, .named "left")]
    ∃ (kernels : LinearKernels ℚ) (declared : List (DirichletKernel (NumericFunction ℚ)))
      (merged : LinearSystem ℚ), problem.compile ⟨1, ⟨"u"⟩⟩ = .ok kernels ∧
      assemble Mesh.interval kernels = .ok merged ∧ merged.rhs = #[1, 2] ∧
      kernels.dirichlet.length = 2 ∧ declared.length = 3 ∧
      assemble Mesh.interval { kernels with dirichlet := declared } = .ok merged := by
  intro problem
  have observed : (do
      let kernels ← problem.compile ⟨1, ⟨"u"⟩⟩
      let merged ← assemble (Mesh.interval : Mesh ℚ) kernels
      return (merged.rhs, kernels.dirichlet.length)) = Except.ok (#[1, 2], 2) := by decide +kernel
  obtain ⟨kernels, compiled, observed⟩ := Outcome.bind_eq_ok_iff.mp observed
  obtain ⟨merged, assembles, same⟩ := Outcome.bind_eq_ok_iff.mp observed
  obtain ⟨rhsMerged, count⟩ := Prod.mk.inj (Except.ok.inj same)
  obtain ⟨conditions, declared, system, imposes, -, compiles, assembles', -, equal⟩ :=
    assemble_merged_eq_iff compiled assembles
  -- The repetition follows the condition that it repeats.
  have formed : problem.conditions.mapM (DirichletKernel.ofCondition ⟨1, ⟨"u"⟩⟩) =
      .ok [⟨⟨.num 1, .num 2⟩, .everywhere⟩, ⟨⟨.num 1, .num 1⟩, .named "left"⟩,
        ⟨⟨.num 1, .num 1⟩, .named "left"⟩] := by decide +kernel
  cases imposes.symm.trans formed
  have complete : declared.length = 3 := (Outcome.mapM_eq_ok_iff.mp compiles).length_eq.symm
  have same : system = merged := by
    refine equal fun before condition between after split other member _ => ?_
    cases before with
    | nil =>
      obtain ⟨isFirst, split⟩ := List.cons.inj split
      have again := split ▸ List.mem_append_right between (List.mem_cons_self (a := condition))
      simp [← isFirst] at again
    | cons first before =>
      rw [List.cons_append] at split
      have rest := (List.cons.inj split).2
      have isCondition : condition ∈ before ++ condition :: (between ++ condition :: after) := by
        simp
      have isOther : other ∈ before ++ condition :: (between ++ condition :: after) := by
        simp [member]
      rw [← rest] at isCondition isOther
      simp only [List.mem_cons, List.not_mem_nil, or_false, or_self] at isCondition isOther
      rw [isCondition, isOther]
  exact ⟨kernels, declared, merged, compiled, assembles, rhsMerged, count, complete,
    same ▸ assembles'⟩

/-- The last of three conditions repeats the first one and is merged with it, so the second one
decides at a vertex that all of them fix. -/
theorem merged_condition_overwritten :
    let problem := Problem.fixing [(1, .named "left"), (2, .everywhere), (1, .named "left")]
    ∃ (kernels : LinearKernels ℚ) (conditions : List (DirichletKernel Expr))
      (declared : List (DirichletKernel (NumericFunction ℚ))) (merged system : LinearSystem ℚ),
      problem.compile ⟨1, ⟨"u"⟩⟩ = .ok kernels ∧
      problem.conditions.mapM (DirichletKernel.ofCondition ⟨1, ⟨"u"⟩⟩) = .ok conditions ∧
      conditions.mapM (DirichletKernel.compile ⟨1, ⟨"u"⟩⟩) = .ok declared ∧
      assemble Mesh.interval kernels = .ok merged ∧
      assemble Mesh.interval { kernels with dirichlet := declared } = .ok system ∧
      merged.rhs = #[2, 2] ∧ system.rhs = #[1, 2] ∧ system ≠ merged := by
  intro problem
  have assembles : (problem.compile ⟨1, ⟨"u"⟩⟩ >>= assemble (Mesh.interval : Mesh ℚ)).map rhs =
      .ok #[2, 2] := by decide +kernel
  have declares : (do
      let kernels ← problem.compile ⟨1, ⟨"u"⟩⟩
      let conditions ← problem.conditions.mapM (DirichletKernel.ofCondition ⟨1, ⟨"u"⟩⟩)
      let declared ← conditions.mapM (DirichletKernel.compile ⟨1, ⟨"u"⟩⟩)
      assemble (Mesh.interval : Mesh ℚ) { kernels with dirichlet := declared }).map rhs =
        .ok #[1, 2] := by decide +kernel
  obtain ⟨merged, assembles, rhsMerged⟩ := Outcome.map_eq_ok_iff.mp assembles
  obtain ⟨kernels, compiled, assembles⟩ := Outcome.bind_eq_ok_iff.mp assembles
  obtain ⟨system, declares, rhsSystem⟩ := Outcome.map_eq_ok_iff.mp declares
  obtain ⟨_, compiled', declares⟩ := Outcome.bind_eq_ok_iff.mp declares
  cases compiled.symm.trans compiled'
  obtain ⟨conditions, imposes, declares⟩ := Outcome.bind_eq_ok_iff.mp declares
  obtain ⟨declared, compiles, declares⟩ := Outcome.bind_eq_ok_iff.mp declares
  refine ⟨kernels, conditions, declared, merged, system, compiled, imposes, compiles, assembles,
    declares, rhsMerged, rhsSystem, fun same => ?_⟩
  have sameRhs : (#[1, 2] : Array ℚ) = #[2, 2] := rhsSystem.symm.trans (same ▸ rhsMerged)
  revert sameRhs
  decide

end LinearSystem

end FiniteVolume
