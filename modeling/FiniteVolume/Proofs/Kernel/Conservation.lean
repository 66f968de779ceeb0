import FiniteVolume.Proofs.Kernel.Coefficients
import FiniteVolume.Proofs.Kernel.Reflection

/-!
# Conservative kernels

What an odd integrand contributes to one endpoint of an edge, it takes from the other one: the two
rows of its edge kernel are opposite (`Flux.balanced`), as long as both contributions are split off
regularly. The rows are opposite functions of the values of the field at the endpoints; as they are
affine, so are their coefficients.
-/

namespace FiniteVolume

/-- The rows of an edge block are opposite under a reading of its coefficients. -/
structure EdgeBlock.Balanced {κ : Type} {K : Type*} [Neg K] (value : κ → K)
    (block : EdgeBlock κ) : Prop where
  first : value block.linear.second.first = -value block.linear.first.first
  second : value block.linear.second.second = -value block.linear.first.second
  affine : value block.affine.second = -value block.affine.first

namespace Stencil

open FiniteVolume.Expr

variable {K : Type*} {stencil : Stencil} {reading other : Interpretation K}

/-- Two readings that differ in the endpoint values of the field only. -/
structure SameElsewhere (stencil : Stencil) (reading other : Interpretation K) : Prop where
  symbol : ∀ name, name ≠ firstValue stencil.field → name ≠ secondValue stencil.field →
    reading.symbol name = other.symbol name
  call : reading.call = other.call
  vector : reading.vector = other.vector

namespace SameElsewhere

/-- Components are read alike where only the values differ. -/
theorem component {kind name : String} (same : stencil.SameElsewhere reading other)
    (known : kind ∈ kinds) (member : name ∈ stencil.components kind) :
    reading.symbol name = other.symbol name := by
  refine same.symbol name ?_ ?_
  · rintro rfl
    exact firstValue_not_mem_components _ known member
  · rintro rfl
    exact secondValue_not_mem_components _ known member

/-- The length of the edge is read alike where only the values differ. -/
theorem edgeLength (same : stencil.SameElsewhere reading other) :
    reading.symbol edgeLength = other.symbol Stencil.edgeLength :=
  same.symbol _ (edgeLength_ne_firstValue _) (edgeLength_ne_secondValue _)

/-- Readings that differ in the endpoint values of the field only still do with the endpoints
exchanged. -/
theorem exchanged (same : stencil.SameElsewhere reading other) :
    stencil.SameElsewhere (stencil.exchanged reading) (stencil.exchanged other) where
  symbol name notFirst notSecond := by
    by_cases isEnd : ∃ pair ∈ stencil.endpointPairs, name = pair.1 ∨ name = pair.2
    · obtain ⟨pair, member, isEnd⟩ := isEnd
      have isCoord : pair ∈ stencil.firstSymbols.zip stencil.secondSymbols := by
        refine (List.mem_cons.mp member).resolve_left ?_
        rintro rfl
        exact isEnd.elim notFirst notSecond
      obtain ⟨inFirst, inSecond⟩ := List.of_mem_zip isCoord
      obtain ⟨first, second⟩ := exchanged_symbol_of_pair reading member
      obtain ⟨first', second'⟩ := exchanged_symbol_of_pair other member
      rcases isEnd with rfl | rfl
      · rw [first, first', same.component (by decide) inSecond]
      · rw [second, second', same.component (by decide) inFirst]
    · rw [Stencil.exchanged, Stencil.exchanged,
        Interpretation.bind_symbol_of_not_mem (isEnd <| stencil.exchangedValues_keys reading ·),
        Interpretation.bind_symbol_of_not_mem (isEnd <| stencil.exchangedValues_keys other ·),
        same.symbol name notFirst notSecond]
  call := same.call
  vector := same.vector

/-- Without the endpoint values, an expression does not tell such readings apart. -/
theorem alike {e : Expr} (same : stencil.SameElsewhere reading other)
    (lacksFirst : .sym (firstValue stencil.field) ∉ e.subterms)
    (lacksSecond : .sym (secondValue stencil.field) ∉ e.subterms) : ReadsAlike reading other e where
  symbol name member := by
    refine same.symbol name ?_ ?_
    · rintro rfl
      exact lacksFirst member
    · rintro rfl
      exact lacksSecond member
  call head _ _ := congrFun same.call head
  vector := same.vector

variable [Field K]

/-- Facets are read alike where only the values differ. -/
theorem pointReading (same : stencil.SameElsewhere reading other) :
    stencil.SameElsewhere (stencil.pointReading reading) (stencil.pointReading other) where
  symbol name notFirst notSecond := by
    have middle : stencil.midpoint reading = stencil.midpoint other := by
      refine List.map_congr_left fun triple member => ?_
      obtain ⟨inFirst, inSecond⟩ := List.of_mem_zip (List.of_mem_zip member).2
      dsimp only
      rw [same.component (by decide) inFirst, same.component (by decide) inSecond]
    have normal : stencil.unitNormal reading = stencil.unitNormal other := by
      refine List.map_congr_left fun triple member => ?_
      obtain ⟨inFirst, inSecond⟩ := List.of_mem_zip (List.of_mem_zip member).2
      dsimp only
      rw [same.component (by decide) inFirst, same.component (by decide) inSecond, same.edgeLength]
    simp only [Stencil.pointReading, Interpretation.bind_symbol, middle, normal,
      same.symbol name notFirst notSecond]
  call := same.call
  vector := same.vector

/-- Without the unknown, an expression does not tell such readings apart on the facet. -/
theorem alike_facetReading {e : Expr} (same : stencil.SameElsewhere reading other)
    (lacksFirst : .sym (firstValue stencil.field) ∉ e.subterms)
    (lacksSecond : .sym (secondValue stencil.field) ∉ e.subterms) (free : stencil.FieldFree e) :
    ReadsAlike (stencil.facetReading reading) (stencil.facetReading other) e where
  symbol name member := (same.pointReading.alike lacksFirst lacksSecond).symbol name member
  call head args member := by
    obtain ⟨notDerivative, notField⟩ := free head args member
    funext values
    cases head with
    | dot => exact congrFun (congrFun same.call .dot) values
    | normalDerivative => exact absurd rfl notDerivative
    | named name =>
      have others : ¬(name = stencil.field.name) := fun isField => notField (by rw [isField])
      simp only [facetReading, others, false_and, if_false, same.call]
  vector := same.vector

/-- A flux divides by the same numbers whatever the values of the unknown. -/
theorem defined {e : Expr} (same : stencil.SameElsewhere reading other)
    (flux : stencil.FluxIntegrand e) (defined : e.Defined (stencil.facetReading reading)) :
    e.Defined (stencil.facetReading other) := by
  refine defined_of_bases (fun base exponent member negative => ?_) defined
  have inside : ∀ subterm ∈ base.subterms, subterm ∈ e.subterms := fun subterm inBase =>
    mem_subterms_trans member (mem_subterms_of_arg (List.mem_singleton_self base) inBase)
  exact same.alike_facetReading (fun inBase => flux.lacksFirst (inside _ inBase))
    (fun inBase => flux.lacksSecond (inside _ inBase)) (flux.bases base exponent member negative)

end SameElsewhere

/-- The reading with given endpoint values of the field. -/
def withValues (stencil : Stencil) (reading : Interpretation K) (first second : K) :
    Interpretation K :=
  reading.bind [(firstValue stencil.field, first), (secondValue stencil.field, second)]

/-- The first value is the one that is given. -/
theorem withValues_firstValue (first second : K) :
    (stencil.withValues reading first second).symbol (firstValue stencil.field) = first := by
  rw [withValues, Interpretation.bind_symbol, List.lookup_cons_self, Option.getD_some]

/-- The second value is the one that is given. -/
theorem withValues_secondValue (first second : K) :
    (stencil.withValues reading first second).symbol (secondValue stencil.field) = second := by
  rw [withValues, Interpretation.bind_symbol, List.lookup_cons,
    beq_false_of_ne (firstValue_ne_secondValue _).symm]
  dsimp only
  rw [List.lookup_cons_self, Option.getD_some]

/-- Giving values changes nothing else. -/
theorem sameElsewhere_withValues (stencil : Stencil) (reading : Interpretation K)
    (first second : K) :
    stencil.SameElsewhere reading (stencil.withValues reading first second) where
  symbol name notFirst notSecond := by
    refine (Interpretation.bind_symbol_of_not_mem ?_).symm
    simp [notFirst, notSecond]
  call := rfl
  vector := rfl

variable [Field K]

/-- An integrand that is odd, with its edge block, at a reading where the edge has a length and the
integrand does not divide by zero, seen from either endpoint. -/
structure Flux (stencil : Stencil) (reading : Interpretation K) (integrand : Integrand) (e : Expr)
    (block : EdgeBlock Expr) : Prop where
  evaluates : stencil.point.evaluate integrand = .ok e
  isFlux : stencil.FluxIntegrand e
  formed : stencil.edgeBlock integrand = .ok block
  odd : stencil.OddAt reading e
  length : reading.symbol edgeLength ≠ 0
  forward : e.Defined (stencil.facetReading reading)
  backward : e.Defined (stencil.facetReading (stencil.exchanged reading))

namespace Flux

variable {integrand : Integrand} {e : Expr} {block : EdgeBlock Expr}

/-- The coefficients lack the endpoint values. -/
theorem not_mem_subterms {name : String} (flux : stencil.Flux reading integrand e block)
    (isValue : name ∈ [firstValue stencil.field, secondValue stencil.field]) :
    ∀ coefficient ∈ block.coefficients, .sym name ∉ coefficient.subterms := by
  obtain ⟨_, _, _, forwardParts, backwardParts, -, -, -, splitsForward, splitsBackward, rfl⟩ :=
    edgeBlock_cases flux.formed
  have absent : ∀ {e : Expr}, e.hasSymbol name = false → .sym name ∉ e.subterms :=
    hasSymbol_eq_false_iff_not_mem.mp
  have lacks : ∀ {e : Expr} {parts : AffineSplit},
      linearSplit e [firstValue stencil.field, secondValue stencil.field] = .ok parts →
      parts.affine.hasSymbol name = false ∧
        ∀ position, (parts.coefficient position).hasSymbol name = false := by
    intro e parts splits
    refine forall_parts_of_linearSplit splits ?_ fun _ _ _ _ _ formed =>
      hasSymbol_constantPartOfAll formed name isValue
    rfl
  have forward := lacks splitsForward
  have backward := lacks splitsBackward
  exact EdgeBlock.forall_coefficients_iff.mpr
    ⟨⟨absent (forward.2 0), absent (forward.2 1)⟩, ⟨absent (backward.2 0), absent (backward.2 1)⟩,
      absent forward.1, absent backward.1⟩

/-- The coefficients are read in the same way whatever the endpoint values of the field. -/
theorem alike (flux : stencil.Flux reading integrand e block)
    (same : stencil.SameElsewhere reading other) :
    ∀ coefficient ∈ block.coefficients, ReadsAlike reading other coefficient :=
  fun coefficient member => same.alike
    (flux.not_mem_subterms List.mem_cons_self coefficient member)
    (flux.not_mem_subterms (List.mem_cons_of_mem _ List.mem_cons_self) coefficient member)

/-- A flux stays one whatever the endpoint values of the field. -/
theorem sameElsewhere (flux : stencil.Flux reading integrand e block)
    (same : stencil.SameElsewhere reading other) : stencil.Flux other integrand e block where
  evaluates := flux.evaluates
  isFlux := flux.isFlux
  formed := flux.formed
  odd further sameVector sameCalls := by
    refine flux.odd further (sameVector.trans same.vector.symm) fun name isOther => ?_
    rw [sameCalls name isOther, same.call]
  length := same.edgeLength ▸ flux.length
  forward := same.defined flux.isFlux flux.forward
  backward := same.exchanged.defined flux.isFlux flux.backward

/-- Contributions that are split off regularly are so whatever the endpoint values of the field. -/
theorem splitsRegularly (flux : stencil.Flux reading integrand e block)
    (same : stencil.SameElsewhere reading other) {contribution : Expr} {coefficients : List Expr}
    (inside : ∀ coefficient ∈ coefficients, coefficient ∈ block.coefficients)
    (regular : SplitsRegularly reading contribution coefficients) :
    SplitsRegularly other contribution coefficients :=
  regular.imp_right fun defined coefficient member =>
    (flux.alike same coefficient (inside coefficient member)).defined (defined coefficient member)

variable [CharZero K]

/-- The rows of a flux are opposite. -/
theorem rows_opposite (positive : 0 < stencil.dim) (flux : stencil.Flux reading integrand e block)
    (regularForward : ∀ contribution, stencil.forwardContribution integrand = .ok contribution →
      SplitsRegularly reading contribution [block.linear.first.first, block.linear.first.second])
    (regularBackward : ∀ contribution, stencil.backwardContribution integrand = .ok contribution →
      SplitsRegularly reading contribution
        [block.linear.second.first, block.linear.second.second]) :
    stencil.rowValue reading block.linear.second block.affine.second =
      -stencil.rowValue reading block.linear.first block.affine.first := by
  rw [rowValue_first positive flux.evaluates flux.isFlux.onFacet flux.formed flux.length
      flux.forward regularForward,
    rowValue_second positive flux.evaluates flux.isFlux.onFacet flux.formed flux.length
      flux.backward regularBackward]
  exact flux.isFlux.facetValue_exchanged flux.odd flux.forward flux.backward

/-- The coefficients of a flux are opposite: two affine functions of the endpoint values of the
field are opposite only if their coefficients are. -/
theorem balanced (positive : 0 < stencil.dim) (flux : stencil.Flux reading integrand e block)
    (regularForward : ∀ contribution, stencil.forwardContribution integrand = .ok contribution →
      SplitsRegularly reading contribution [block.linear.first.first, block.linear.first.second])
    (regularBackward : ∀ contribution, stencil.backwardContribution integrand = .ok contribution →
      SplitsRegularly reading contribution
        [block.linear.second.first, block.linear.second.second]) :
    block.Balanced (valueIn reading) := by
  have rows : ∀ a b : K,
      block.affine.second.valueIn reading + block.linear.second.first.valueIn reading * a +
          block.linear.second.second.valueIn reading * b =
        -(block.affine.first.valueIn reading + block.linear.first.first.valueIn reading * a +
          block.linear.first.second.valueIn reading * b) := by
    intro a b
    have same := sameElsewhere_withValues stencil reading a b
    have opposite := (flux.sameElsewhere same).rows_opposite positive
      (fun contribution contributes => flux.splitsRegularly same
        (by simp [EdgeBlock.coefficients]) (regularForward contribution contributes))
      fun contribution contributes => flux.splitsRegularly same
        (by simp [EdgeBlock.coefficients]) (regularBackward contribution contributes)
    obtain ⟨⟨c00, c01⟩, ⟨c10, c11⟩, a0, a1⟩ :=
      EdgeBlock.forall_coefficients_iff.mp (flux.alike same)
    rwa [rowValue, rowValue, withValues_firstValue, withValues_secondValue, ← c00.valueIn,
      ← c01.valueIn, ← c10.valueIn, ← c11.valueIn, ← a0.valueIn, ← a1.valueIn] at opposite
  have origin := rows 0 0
  have first := rows 1 0
  have second := rows 0 1
  simp only [mul_zero, mul_one, add_zero] at origin first second
  refine ⟨?_, ?_, origin⟩
  · linear_combination first - origin
  · linear_combination second - origin

end Flux

end Stencil

end FiniteVolume
