import FiniteVolume.Proofs.Kernel.Edge
import FiniteVolume.Proofs.Value.Congruence

/-!
# Odd integrands

An integrand is odd if it changes its sign together with the normal and all normal derivatives. From
the other endpoint of an edge the normal and the normal derivative look reversed, so the
contributions of an odd integrand to the two endpoints are opposite
(`FluxIntegrand.facetValue_exchanged`).
-/

namespace FiniteVolume.Stencil

open FiniteVolume.Expr

variable {K : Type*} [Field K]

/-- The reading with normals and normal derivatives of the opposite sign. -/
def reflected (stencil : Stencil) (reading : Interpretation K) : Interpretation K where
  symbol name :=
    if name ∈ stencil.normalSymbols then -reading.symbol name else reading.symbol name
  vector := reading.vector
  call head args :=
    if head = .normalDerivative then -reading.call head args else reading.call head args

/-- An expression changes its sign with normals and normal derivatives, whatever the values of
symbols, of the field and of its normal derivative. All other functions are read in one way. -/
def OddAt (stencil : Stencil) (reading : Interpretation K) (e : Expr) : Prop :=
  ∀ other : Interpretation K, other.vector = reading.vector →
    (∀ name, name ≠ stencil.field.name → other.call (.named name) = reading.call (.named name)) →
    e.Defined other → e.Defined (stencil.reflected other) →
      e.valueIn (stencil.reflected other) = -e.valueIn other

/-- The unknown occurs nowhere in an expression. -/
def FieldFree (stencil : Stencil) (e : Expr) : Prop :=
  ∀ head args, .call head args ∈ e.subterms →
    head ≠ .normalDerivative ∧ head ≠ .named stencil.field.name

/-- An integrand in the unknown that may flow across a facet: it does not divide by the unknown, and
its own symbols are not those of the endpoint values. -/
structure FluxIntegrand (stencil : Stencil) (e : Expr) : Prop where
  onFacet : stencil.FacetIntegrand e
  lacksFirst : .sym (firstValue stencil.field) ∉ e.subterms
  lacksSecond : .sym (secondValue stencil.field) ∉ e.subterms
  bases : e.NegativeBases stencil.FieldFree

variable {stencil : Stencil} {reading : Interpretation K}

/-- An expression without normals and normal derivatives does not change when they are reversed. -/
theorem alike_reflected {e : Expr}
    (noNormal : ∀ name ∈ stencil.normalSymbols, .sym name ∉ e.subterms)
    (noDerivative : ∀ args, .call .normalDerivative args ∉ e.subterms) :
    ReadsAlike (stencil.reflected reading) reading e where
  symbol name member := if_neg fun isNormal => noNormal name isNormal member
  call head args member := by
    funext values
    refine if_neg ?_
    rintro rfl
    exact noDerivative args member
  vector := rfl

section Exchange

omit [Field K]

/-- A symbol that belongs to none of the endpoints is read in the same way from both. -/
theorem exchanged_symbol_of_free {name : String} (free : stencil.IsFree name)
    (notFirst : name ≠ firstValue stencil.field) (notSecond : name ≠ secondValue stencil.field) :
    (stencil.exchanged reading).symbol name = reading.symbol name := by
  refine Interpretation.bind_symbol_of_not_mem fun member => ?_
  obtain ⟨pair, inPairs, isEnd⟩ := stencil.exchangedValues_keys reading member
  rcases List.mem_cons.mp inPairs with rfl | inPairs
  · exact isEnd.elim notFirst notSecond
  · obtain ⟨inFirst, inSecond⟩ := List.of_mem_zip inPairs
    rcases isEnd with rfl | rfl
    · exact free.1 inFirst
    · exact free.2 inSecond

/-- Exchanging the symbols of pairs gives each of them the value of the other one, if all symbols
are different. -/
theorem lookup_exchange (symbol : String → K) {pairs : List (String × String)}
    (apart : pairs.Pairwise fun pair other =>
      pair.1 ≠ other.1 ∧ pair.1 ≠ other.2 ∧ pair.2 ≠ other.1 ∧ pair.2 ≠ other.2)
    (different : ∀ pair ∈ pairs, pair.1 ≠ pair.2) {pair : String × String} (member : pair ∈ pairs) :
    let values := pairs.flatMap fun (first, second) =>
      [(first, symbol second), (second, symbol first)]
    values.lookup pair.1 = some (symbol pair.2) ∧ values.lookup pair.2 = some (symbol pair.1) := by
  induction pairs with
  | nil => cases member
  | cons first rest ih =>
    obtain ⟨apartFirst, apartRest⟩ := List.pairwise_cons.mp apart
    obtain ⟨differentFirst, differentRest⟩ := List.forall_mem_cons.mp different
    dsimp only
    rw [List.flatMap_cons, List.cons_append, List.cons_append, List.nil_append]
    rcases List.mem_cons.mp member with rfl | later
    · rw [List.lookup_cons_self, List.lookup_cons, beq_false_of_ne differentFirst.symm]
      exact ⟨rfl, List.lookup_cons_self⟩
    · obtain ⟨a, b, c, d⟩ := apartFirst pair later
      rw [List.lookup_cons, beq_false_of_ne a.symm, List.lookup_cons, beq_false_of_ne c.symm,
        List.lookup_cons, beq_false_of_ne b.symm, List.lookup_cons, beq_false_of_ne d.symm]
      exact ih apartRest differentRest later

/-- The symbols of the endpoints are all different. -/
theorem endpointPairs_apart :
    stencil.endpointPairs.Pairwise (fun pair other =>
      pair.1 ≠ other.1 ∧ pair.1 ≠ other.2 ∧ pair.2 ≠ other.1 ∧ pair.2 ≠ other.2) ∧
      ∀ pair ∈ stencil.endpointPairs, pair.1 ≠ pair.2 := by
  have kind0 : "x0" ∈ kinds := by decide
  have kind1 : "x1" ∈ kinds := by decide
  have disjoint : ∀ {first second : String}, first ∈ stencil.firstSymbols →
      second ∈ stencil.secondSymbols → first ≠ second := by
    rintro first _ inFirst inSecond rfl
    exact components_disjoint kind0 kind1 (by decide) inFirst inSecond
  refine ⟨List.pairwise_cons.mpr ⟨fun pair member => ?_, ?_⟩, List.forall_mem_cons.mpr
    ⟨firstValue_ne_secondValue _, fun pair member => ?_⟩⟩
  · obtain ⟨inFirst, inSecond⟩ := List.of_mem_zip member
    refine ⟨?_, ?_, ?_, ?_⟩ <;> intro same
    · exact firstValue_not_mem_components _ kind0 (same ▸ inFirst)
    · exact firstValue_not_mem_components _ kind1 (same ▸ inSecond)
    · exact secondValue_not_mem_components _ kind0 (same ▸ inFirst)
    · exact secondValue_not_mem_components _ kind1 (same ▸ inSecond)
  · have nodupFirst : ((stencil.firstSymbols.zip stencil.secondSymbols).map Prod.fst).Nodup := by
      rw [List.map_fst_zip (by rw [firstSymbols, secondSymbols, length_components,
        length_components])]
      exact nodup_components _
    have nodupSecond : ((stencil.firstSymbols.zip stencil.secondSymbols).map Prod.snd).Nodup := by
      rw [List.map_snd_zip (by rw [firstSymbols, secondSymbols, length_components,
        length_components])]
      exact nodup_components _
    refine List.Pairwise.imp_of_mem ?_
      ((List.pairwise_map.mp nodupFirst).and (List.pairwise_map.mp nodupSecond))
    intro pair other member memberOther apart
    obtain ⟨inFirst, inSecond⟩ := List.of_mem_zip member
    obtain ⟨inFirst', inSecond'⟩ := List.of_mem_zip memberOther
    exact ⟨apart.1, disjoint inFirst inSecond', (disjoint inFirst' inSecond).symm, apart.2⟩
  · obtain ⟨inFirst, inSecond⟩ := List.of_mem_zip member
    exact disjoint inFirst inSecond

/-- Every symbol of an endpoint is read as the symbol of the other endpoint. -/
theorem exchanged_symbol_of_pair (reading : Interpretation K) {pair : String × String}
    (member : pair ∈ stencil.endpointPairs) :
    (stencil.exchanged reading).symbol pair.1 = reading.symbol pair.2 ∧
      (stencil.exchanged reading).symbol pair.2 = reading.symbol pair.1 := by
  obtain ⟨apart, different⟩ := stencil.endpointPairs_apart
  obtain ⟨first, second⟩ := lookup_exchange reading.symbol apart different member
  rw [exchanged, Interpretation.bind_symbol, Interpretation.bind_symbol, exchangedValues, first,
    second]
  exact ⟨rfl, rfl⟩

end Exchange

section Facet

/-- Exchanging the ends keeps the midpoint. -/
theorem midpoint_exchanged :
    stencil.midpoint (stencil.exchanged reading) = stencil.midpoint reading := by
  refine List.map_congr_left fun triple member => ?_
  obtain ⟨atFirst, atSecond⟩ := exchanged_symbol_of_pair reading
    (List.mem_cons_of_mem _ (List.of_mem_zip member).2)
  dsimp only at atFirst atSecond ⊢
  rw [atFirst, atSecond, add_comm]

/-- Exchanging the ends reverses the normal. -/
theorem unitNormal_exchanged :
    stencil.unitNormal (stencil.exchanged reading) =
      (stencil.unitNormal reading).map fun (name, value) => (name, -value) := by
  rw [unitNormal, unitNormal, List.map_map]
  refine List.map_congr_left fun triple member => ?_
  obtain ⟨atFirst, atSecond⟩ := exchanged_symbol_of_pair reading
    (List.mem_cons_of_mem _ (List.of_mem_zip member).2)
  dsimp only [Function.comp_apply] at atFirst atSecond ⊢
  rw [atFirst, atSecond, exchanged_edgeLength, ← neg_div, neg_sub]

/-- Exchanging the ends keeps the mean. -/
theorem meanValue_exchanged :
    stencil.meanValue (stencil.exchanged reading) = stencil.meanValue reading := by
  obtain ⟨atFirst, atSecond⟩ := exchanged_symbol_of_pair reading
    (List.mem_cons_self : _ ∈ stencil.endpointPairs)
  rw [meanValue, meanValue, atFirst, atSecond, add_comm]

/-- Exchanging the ends reverses the slope. -/
theorem slope_exchanged : stencil.slope (stencil.exchanged reading) = -stencil.slope reading := by
  obtain ⟨atFirst, atSecond⟩ := exchanged_symbol_of_pair reading
    (List.mem_cons_self : _ ∈ stencil.endpointPairs)
  rw [slope, slope, atFirst, atSecond, exchanged_edgeLength, ← neg_div, neg_sub]

/-- The normal at a point of the facet has a value of its own. -/
theorem exists_lookup_unitNormal (reading : Interpretation K) {name : String}
    (isNormal : name ∈ stencil.normalSymbols) :
    ∃ value, (stencil.unitNormal reading).lookup name = some value := by
  rw [← Option.isSome_iff_exists, List.lookup_isSome_iff]
  have keys : (stencil.unitNormal reading).map Prod.fst = stencil.normalSymbols := by
    rw [unitNormal, List.map_map]
    refine List.map_fst_zip ?_
    rw [List.length_zip, normalSymbols, firstSymbols, secondSymbols, length_components,
      length_components, length_components, Nat.min_self]
  rw [← keys] at isNormal
  obtain ⟨entry, member, rfl⟩ := List.mem_map.mp isNormal
  exact ⟨entry, member, beq_self_eq_true _⟩

/-- On the facet the coordinates are the same from both endpoints, and the normals are opposite. -/
theorem pointReading_exchanged {name : String} (free : stencil.IsFree name)
    (notFirst : name ≠ firstValue stencil.field) (notSecond : name ≠ secondValue stencil.field) :
    (stencil.pointReading (stencil.exchanged reading)).symbol name =
      (stencil.reflected (stencil.pointReading reading)).symbol name := by
  simp only [pointReading, reflected, Interpretation.bind_symbol, midpoint_exchanged,
    unitNormal_exchanged, lookup_map_snd, exchanged_symbol_of_free free notFirst notSecond]
  by_cases isNormal : name ∈ stencil.normalSymbols
  · have notCoord : (stencil.midpoint reading).lookup name = none := by
      rw [List.lookup_eq_none_iff]
      intro entry member
      have isCoord := midpoint_keys (List.mem_map.mpr ⟨entry, member, rfl⟩)
      simp only [bne_iff_ne]
      rintro rfl
      exact components_disjoint (by decide) (by decide) (by decide) isNormal isCoord
    obtain ⟨value, found⟩ := exists_lookup_unitNormal reading isNormal
    rw [if_pos isNormal, notCoord, found]
    rfl
  · have unbound : (stencil.unitNormal reading).lookup name = none := by
      rw [List.lookup_eq_none_iff]
      intro entry member
      simp only [bne_iff_ne]
      rintro rfl
      exact isNormal (unitNormal_keys (List.mem_map.mpr ⟨entry, member, rfl⟩))
    rw [if_neg isNormal, unbound]
    rfl

/-- The coordinates of the generic point are no coordinates of an end. -/
theorem isFree_of_mem_coordSymbols {name : String} (isCoord : name ∈ stencil.coordSymbols) :
    stencil.IsFree name :=
  ⟨components_disjoint (by decide) (by decide) (by decide) isCoord,
    components_disjoint (by decide) (by decide) (by decide) isCoord⟩

/-- Exchanging the ends keeps the vector of the generic point. -/
theorem pointValue_exchanged :
    stencil.pointValue (stencil.exchanged reading) = stencil.pointValue reading := by
  have coords : stencil.coordSymbols.map
      (stencil.pointReading (stencil.exchanged reading)).symbol =
      stencil.coordSymbols.map (stencil.pointReading reading).symbol := by
    refine List.map_congr_left fun name isCoord => ?_
    have notNormal : name ∉ stencil.normalSymbols :=
      components_disjoint (by decide) (by decide) (by decide) isCoord
    rw [pointReading_exchanged (isFree_of_mem_coordSymbols isCoord)
      (fun same => firstValue_not_mem_components _ (by decide) (same ▸ isCoord))
      (fun same => secondValue_not_mem_components _ (by decide) (same ▸ isCoord))]
    exact if_neg notNormal
  rw [pointValue, coords]
  rfl

/-- Functions are read on the facet as from the other endpoint, where normal derivatives are
reversed. -/
theorem facetReading_exchanged_call :
    (stencil.facetReading (stencil.exchanged reading)).call =
      (stencil.reflected (stencil.facetReading reading)).call := by
  classical
  funext head args
  cases head with
  | dot => rfl
  | normalDerivative => exact slope_exchanged
  | named name =>
    simp only [facetReading, reflected, reduceCtorEq, if_false]
    exact if_congr (by rw [pointValue_exchanged]) meanValue_exchanged rfl

/-- The symbols of an integrand are free. -/
theorem isFree_of_mem_subterms {e : Expr} (onFacet : stencil.FacetIntegrand e) {name : String}
    (member : .sym name ∈ e.subterms) : stencil.IsFree name := by
  have below : ∀ {e : Expr}, .sym name ∈ e.subterms → e ≠ .sym name →
      ∃ arg ∈ e.args, .sym name ∈ arg.subterms := by
    intro e member different
    rw [subterms_eq_cons, List.mem_cons, List.mem_flatMap] at member
    exact member.resolve_left different.symm
  have inVector : ∀ {components : List Expr}, .sym name ∈ (Expr.vector components).subterms →
      ∃ component ∈ components, .sym name ∈ component.subterms := fun member =>
    below member (by simp)
  have inPosition : .sym name ∈ stencil.position.subterms → stencil.IsFree name := by
    intro member
    obtain ⟨component, isComponent, member⟩ := inVector member
    obtain ⟨coord, isCoord, rfl⟩ := List.mem_map.mp isComponent
    cases List.mem_singleton.mp member
    exact isFree_of_mem_coordSymbols isCoord
  induction onFacet with
  | num value => cases List.mem_singleton.mp member
  | sym allowed =>
    cases List.mem_singleton.mp member
    exact allowed
  | add scalars ih =>
    obtain ⟨term, isTerm, member⟩ := below member (by simp)
    exact ih term isTerm member
  | mul scalars ih =>
    obtain ⟨factor, isFactor, member⟩ := below member (by simp)
    exact ih factor isFactor member
  | @pow base exponent scalar ih =>
    obtain ⟨arg, isArg, member⟩ := below member (by simp)
    exact ih (List.mem_singleton.mp isArg ▸ member)
  | dot sameLength scalarsLeft scalarsRight ihLeft ihRight =>
    obtain ⟨operand, isOperand, member⟩ := below member (by simp)
    simp only [args, List.mem_cons, List.not_mem_nil, or_false] at isOperand
    rcases isOperand with rfl | rfl
    · obtain ⟨component, isComponent, member⟩ := inVector member
      exact ihLeft component isComponent member
    · obtain ⟨component, isComponent, member⟩ := inVector member
      exact ihRight component isComponent member
  | call called scalar ih =>
    obtain ⟨arg, isArg, member⟩ := below member (by simp)
    exact ih (List.mem_singleton.mp isArg ▸ member)
  | sample isSample =>
    obtain ⟨arg, isArg, inArg⟩ := below member (by simp)
    obtain ⟨-, rfl⟩ | ⟨-, rfl⟩ := isSample
    · exact inPosition (List.mem_singleton.mp isArg ▸ inArg)
    · rw [List.mem_singleton.mp isArg] at inArg
      obtain ⟨position, isPosition, inside⟩ := below inArg (by simp [ScalarField.valueAt, apply])
      exact inPosition (List.mem_singleton.mp isPosition ▸ inside)

/-- From the other endpoint, a flux is read on the facet with normals and normal derivatives
reversed. -/
theorem FluxIntegrand.alike {e : Expr} (flux : stencil.FluxIntegrand e) :
    ReadsAlike (stencil.facetReading (stencil.exchanged reading))
      (stencil.reflected (stencil.facetReading reading)) e where
  symbol name member := by
    refine pointReading_exchanged (isFree_of_mem_subterms flux.onFacet member) ?_ ?_
    · rintro rfl
      exact flux.lacksFirst member
    · rintro rfl
      exact flux.lacksSecond member
  call head args _ := congrFun facetReading_exchanged_call head
  vector := rfl

/-- An odd flux is opposite from the other endpoint. -/
theorem FluxIntegrand.facetValue_exchanged {e : Expr} (flux : stencil.FluxIntegrand e)
    (odd : stencil.OddAt reading e) (definedForward : e.Defined (stencil.facetReading reading))
    (definedBackward : e.Defined (stencil.facetReading (stencil.exchanged reading))) :
    stencil.facetValue e (stencil.exchanged reading) = -stencil.facetValue e reading := by
  have ratio : (stencil.exchanged reading).symbol edgeRatio = reading.symbol edgeRatio :=
    exchanged_symbol_of_free isFree_edgeRatio (edgeRatio_ne_firstValue _)
      (edgeRatio_ne_secondValue _)
  have opposite := odd (stencil.facetReading reading) rfl (fun name other => by
    funext args
    exact if_neg fun both => other both.1) definedForward (flux.alike.defined definedBackward)
  rw [facetValue, facetValue, exchanged_edgeLength, ratio, flux.alike.valueIn, opposite, mul_neg]

end Facet

end FiniteVolume.Stencil
