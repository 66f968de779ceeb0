import FiniteVolume.Proofs.Stencil.Facet

/-!
# Contributions of a facet

A localized contribution samples the field at three positions. The values at the endpoints and their
mean take the place of these samples, and no other application of the field is accepted, so that the
result can be read without the field (`Sampled.value_of_unsampled`). Then the midpoint of the edge
and its direction take the place of coordinates and normal. What results has the value of the
integrand on the facet times the area of the facet (`valueIn_discretizeEdge`).
-/

namespace FiniteVolume.Stencil

open FiniteVolume.Expr

variable {K : Type*} [Field K] [CharZero K] {stencil : Stencil}

section Samples

variable {after : Interpretation K} {position new : Expr}

theorem replacement?_sample {field : ScalarField} {subterm : Expr} :
    replacement? [(field.valueAt position, new)] subterm =
      if field.valueAt position = subterm then some new else none :=
  replacement?_cons _ [] subterm

omit [CharZero K] in
/-- A replacement with the value of a sample can take its place. -/
theorem replaces_sample {field : ScalarField} (sound : new.Sound after)
    (value : new.valueIn after = (field.valueAt position).valueIn after) (e : Expr) :
    Replaces (replacement? [(field.valueAt position, new)]) after after e where
  replaced subterm _ replaced found := by
    rw [replacement?_sample] at found
    split at found
    · rename_i same
      cases found
      exact same ▸ ⟨sound, value⟩
    · cases found
  symbol _ _ _ := rfl
  call _ _ _ _ _ := rfl
  vector := rfl
  vectors components := by
    rw [replacement?_sample, if_neg (by simp [ScalarField.valueAt, apply])]

variable {positions : List (List String)} {names : List String} {value : K} {e result : Expr}

/-- The value of the field at a position takes the place of its samples there. -/
theorem Localized.subst_sample (localized : stencil.Localized (names :: positions) after value e)
    (replacement : stencil.Localized positions after
      ((stencil.field.valueAt (vectorOf names)).valueIn after) new)
    (formed : e.subst [(stencil.field.valueAt (vectorOf names), new)] = some result) :
    stencil.Localized positions after value result := by
  have replaces := replaces_sample replacement.sound replacement.value e
  have carries := carries_replaceWith formed localized.sound replaces
  have kept : ∀ name, replacement? [(stencil.field.valueAt (vectorOf names), new)] (.sym name) =
      none := fun name => by
    rw [replacement?_sample, if_neg (by simp [ScalarField.valueAt, apply])]
  refine ⟨?_, carries.sound, carries.value.trans localized.value⟩
  refine localized.scalar.replaceWith formed (fun subterm replaced found => ?_) replaces.vectors
    (fun _ free _ => free) ?_
  · rw [replacement?_sample] at found
    split at found
    · cases found
      exact replacement.scalar
    · cases found
  · rintro head args rebuilt ⟨rfl, names', member, rfl⟩ notReplaced rebuilds
    have unchanged : replaceWith (replacement? [(stencil.field.valueAt (vectorOf names), new)])
        (vectorOf names') = some (vectorOf names') :=
      replaceWith_vector_sym (replaces.vectors _) fun name _ => kept name
    obtain ⟨_, rebuildsPosition, rfl⟩ := mapM_singleton_eq_some rebuilds
    cases rebuildsPosition.symm.trans unchanged
    have elsewhere : names' ≠ names := by
      rintro rfl
      rw [replacement?_sample, ScalarField.valueAt, apply, if_pos rfl] at notReplaced
      cases notReplaced
    exact ⟨rfl, names', (List.mem_cons.mp member).resolve_left elsewhere, rfl⟩

end Samples

/-- The mean of two symbols has the mean of their values. -/
theorem sound_mean {reading : Interpretation K} {left right : String} {result : Expr}
    (formed : mean left right = some result) :
    result.Sound reading ∧
      result.valueIn reading = (reading.symbol left + reading.symbol right) / 2 := by
  have soundSum : (Expr.sum [.sym left, .sym right]).Sound reading :=
    (hereditary_sound reading).sum (forall_mem_pair ⟨sound_sym left, sound_sym right⟩)
  have soundTwo : (Expr.int 2).Sound reading := (hereditary_sound reading).num _
  have nonzero : (Expr.int 2).valueIn reading ≠ 0 := by simp [int]
  refine ⟨(hereditary_sound reading).quot formed soundSum soundTwo nonzero, ?_⟩
  rw [valueIn_quot formed soundSum.1 soundTwo.1 nonzero, valueIn_sum]
  simp [int]

/-- An expression in which the field is not found calls no function of its name. -/
theorem ne_of_findIn?_eq_none {field : ScalarField} {e : Expr} (unsampled : field.findIn? e = none)
    {name : String} {args : List Expr} (member : .call (.named name) args ∈ e.subterms) :
    name ≠ field.name := by
  have notCall := List.find?_eq_none.mp unsampled _ member
  simpa [isCallOf] using notCall

section Samples

variable {after : Interpretation K} {value : K} {e result : Expr}

/-- Sampling the field leaves no application of it, and keeps the value if the field has at the
three positions the values that are put there. -/
theorem Localized.sampleField
    (first : (stencil.field.valueAt stencil.first).valueIn after =
      after.symbol (firstValue stencil.field))
    (second : (stencil.field.valueAt stencil.second).valueIn after =
      after.symbol (secondValue stencil.field))
    (generic : (stencil.field.valueAt stencil.position).valueIn after =
      (after.symbol (firstValue stencil.field) + after.symbol (secondValue stencil.field)) / 2)
    (localized : stencil.Localized stencil.localPositions after value e)
    (formed : stencil.sampleField e stencil.field = .ok result) :
    stencil.Localized [] after value result ∧ stencil.field.findIn? result = none := by
  obtain ⟨withoutFirst, withoutSecond, middle, putsFirst, putsSecond, meanFormed, putsMiddle,
    unsampled⟩ := sampleField_cases formed
  have localizedMiddle : stencil.Localized [] after
      ((stencil.field.valueAt stencil.position).valueIn after) middle := by
    refine ⟨hereditary_scalar.quot meanFormed (hereditary_scalar.sum (forall_mem_pair
      ⟨.sym isFree_firstValue, .sym isFree_secondValue⟩)) (.num _) trivial,
      (sound_mean meanFormed).1, ?_⟩
    rw [(sound_mean meanFormed).2, generic]
  have atFirst := localized.subst_sample (by
    change Localized _ _ _ ((stencil.field.valueAt stencil.first).valueIn after) _
    rw [first]
    exact localized_sym isFree_firstValue) putsFirst
  have atSecond := atFirst.subst_sample (by
    change Localized _ _ _ ((stencil.field.valueAt stencil.second).valueIn after) _
    rw [second]
    exact localized_sym isFree_secondValue) putsSecond
  exact ⟨atSecond.subst_sample localizedMiddle putsMiddle, unsampled⟩

end Samples

variable {reading : Interpretation K}

omit [CharZero K] in
/-- Without the field, it does not matter how the field is read. -/
theorem Localized.value_of_unsampled {marks : Marks K} {value : K} {e : Expr}
    (localized : stencil.Localized [] (marks.localReading stencil reading) value e)
    (unsampled : stencil.field.findIn? e = none) :
    e.Sound (stencil.pointReading reading) ∧ e.valueIn (stencil.pointReading reading) = value := by
  have agree : Agree (stencil.SamplesAt []) (marks.localReading stencil reading)
      (stencil.pointReading reading) e := by
    refine ⟨fun name args member => ?_, fun head args isSample => ?_⟩
    · have other : name ≠ stencil.field.name := ne_of_findIn?_eq_none unsampled member
      funext values
      simp [Marks.localReading, facetReading, other, pointReading, Interpretation.bind]
    · obtain ⟨-, names, nowhere, -⟩ := isSample
      cases nowhere
  have same : ∀ name, stencil.IsFree name → (marks.localReading stencil reading).symbol name =
      (stencil.pointReading reading).symbol name := fun name => Marks.localReading_symbol
  refine ⟨⟨localized.scalar.defined_congr same agree localized.sound.1, localized.sound.2⟩, ?_⟩
  rw [← localized.scalar.valueIn_congr same agree, localized.value]

/-- The rules for coordinates put those of the midpoint in their place. -/
theorem binds_midpointRules {rules : List Rule} (formed : stencil.midpointRules = some rules) :
    List.Forall₂ (Binds (reading.bind (stencil.unitNormal reading))) (stencil.midpoint reading)
      rules := by
  have endpoint : ∀ kind ∈ kinds, kind ≠ "n" → ∀ name ∈ stencil.components kind,
      (reading.bind (stencil.unitNormal reading)).symbol name = reading.symbol name :=
    fun kind known notNormal name member => Interpretation.bind_symbol_of_not_mem fun isNormal =>
      components_disjoint known (by decide) notNormal member (unitNormal_keys isNormal)
  refine List.forall₂_map_left_iff.mpr (forall₂_of_mapM formed ?_)
  rintro ⟨coord, first, second⟩ member rule formed
  obtain ⟨memberFirst, memberSecond⟩ := List.of_mem_zip (List.of_mem_zip member).2
  obtain ⟨middle, meanFormed, same⟩ := Option.bind_eq_some_iff.mp formed
  cases same
  refine ⟨rfl, (sound_mean meanFormed).1, ?_⟩
  rw [(sound_mean meanFormed).2, endpoint "x0" (by decide) (by decide) first memberFirst,
    endpoint "x1" (by decide) (by decide) second memberSecond]

/-- The rules for the normal put the direction of the edge in its place. -/
theorem binds_normalRules {rules : List Rule} (length : reading.symbol edgeLength ≠ 0)
    (formed : stencil.normalRules = some rules) :
    List.Forall₂ (Binds reading) (stencil.unitNormal reading) rules := by
  refine List.forall₂_map_left_iff.mpr (forall₂_of_mapM formed ?_)
  rintro ⟨normal, first, second⟩ member rule formed
  obtain ⟨difference, subtracts, formed⟩ := Option.bind_eq_some_iff.mp formed
  obtain ⟨quotient, divides, same⟩ := Option.bind_eq_some_iff.mp formed
  cases same
  have soundDifference : difference.Sound reading :=
    (hereditary_sound reading).sub subtracts (sound_sym second) (sound_sym first)
  have nonzero : (Expr.sym edgeLength).valueIn reading ≠ 0 := by rwa [valueIn_sym]
  refine ⟨rfl, (hereditary_sound reading).quot divides soundDifference (sound_sym _) nonzero, ?_⟩
  rw [valueIn_quot divides soundDifference.1 (sound_sym _).1 nonzero,
    valueIn_sub subtracts (sound_sym first).1, valueIn_sym, valueIn_sym, valueIn_sym]

/-- Marks can be chosen away from finitely many values. -/
theorem Marks.exists_spares (values : List K) :
    ∃ marks : Marks K, ∀ value ∈ values, marks.Spares value := by
  classical
  obtain ⟨generic, isNew⟩ := Infinite.exists_notMem_finset values.toFinset
  obtain ⟨first, isNewFirst⟩ := Infinite.exists_notMem_finset (insert generic values.toFinset)
  obtain ⟨second, isNewSecond⟩ :=
    Infinite.exists_notMem_finset (insert first (insert generic values.toFinset))
  simp only [Finset.mem_insert, List.mem_toFinset, not_or] at isNew isNewFirst isNewSecond
  refine ⟨⟨generic, first, second, isNewFirst.1, isNewSecond.2.1, Ne.symm isNewSecond.1⟩, ?_⟩
  intro value member
  refine ⟨?_, ?_, ?_⟩ <;> rintro rfl
  · exact isNew member
  · exact isNewFirst.2 member
  · exact isNewSecond.2.2 member

/-- The contribution of an integrand on a facet has the value of the integrand there times the area
of the facet. -/
theorem valueIn_discretizeEdge {integrand : Integrand} {e result : Expr}
    (positive : 0 < stencil.dim) (length : reading.symbol edgeLength ≠ 0)
    (evaluates : stencil.point.evaluate integrand = .ok e) (onFacet : stencil.FacetIntegrand e)
    (defined : e.Defined (stencil.facetReading reading))
    (formed : stencil.discretizeEdge integrand [stencil.field] = .ok result) :
    result.Sound reading ∧ result.valueIn reading = stencil.facetValue e reading := by
  obtain ⟨area, localized, contribution, sampled, middle, atMiddle, normal, areaFormed, localizes,
    multiplied, samples, middleFormed, putsMiddle, normalFormed, putsNormal⟩ :=
    discretizeEdge_cases evaluates formed
  -- no argument of a function has the value of a mark, so marks cannot be mistaken for it
  obtain ⟨marks, spares⟩ :=
    Marks.exists_spares (e.subterms.map (valueIn (stencil.facetReading reading)))
  have localizedArea : stencil.Localized stencil.localPositions (marks.localReading stencil reading)
      (reading.symbol edgeLength * reading.symbol edgeRatio) area := by
    have product : stencil.Localized stencil.localPositions (marks.localReading stencil reading)
        (_ * _) area :=
      (localized_sym isFree_edgeLength).prod (localized_sym isFree_edgeRatio) areaFormed
    rwa [Marks.localReading_symbol isFree_edgeLength, Marks.localReading_symbol isFree_edgeRatio,
      pointReading_edgeLength, pointReading_edgeRatio] at product
  have localizedIntegrand := localized_of_localize (marks.localizes positive length) onFacet defined
    (fun subterm member => spares _ (List.mem_map.mpr ⟨subterm, member, rfl⟩)) localizes
  have localizedContribution := localizedArea.prod localizedIntegrand multiplied
  have valueFirst : (marks.localReading stencil reading).symbol (firstValue stencil.field) =
      reading.symbol (firstValue stencil.field) := by
    rw [Marks.localReading_symbol isFree_firstValue, pointReading_firstValue]
  have valueSecond : (marks.localReading stencil reading).symbol (secondValue stencil.field) =
      reading.symbol (secondValue stencil.field) := by
    rw [Marks.localReading_symbol isFree_secondValue, pointReading_secondValue]
  obtain ⟨localizedSampled, unsampled⟩ := localizedContribution.sampleField
    (by rw [Marks.valueIn_first positive, valueFirst])
    (by rw [Marks.valueIn_second positive, valueSecond])
    (by rw [Marks.valueIn_generic, valueFirst, valueSecond, meanValue]) samples
  obtain ⟨soundSampled, valueSampled⟩ := localizedSampled.value_of_unsampled unsampled
  have carriesMiddle := carries_subst (binds_midpointRules middleFormed) soundSampled putsMiddle
  have carriesNormal :=
    carries_subst (binds_normalRules length normalFormed) carriesMiddle.sound putsNormal
  refine ⟨carriesNormal.sound, ?_⟩
  rw [carriesNormal.value, carriesMiddle.value, facetValue, ← valueSampled]
  rfl

end FiniteVolume.Stencil
