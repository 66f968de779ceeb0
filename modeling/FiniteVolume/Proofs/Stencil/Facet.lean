import FiniteVolume.Proofs.Stencil.Localization

/-!
# Integrands on a facet

What an integrand means on the facet across an edge: coordinates are those of the midpoint, the
normal points from the first endpoint to the second, the field has the mean of its endpoint values
and its normal derivative is their difference quotient (`facetReading`). The discretized expression
has the value of the integrand under this reading times the area of the facet
(`valueIn_discretizeEdge`).
-/

namespace FiniteVolume.Stencil

open FiniteVolume.Expr

variable {K : Type*} [Field K]

/-- The coordinates of the midpoint of the edge. -/
def midpoint (stencil : Stencil) (reading : Interpretation K) : List (String × K) :=
  (stencil.coordSymbols.zip (stencil.firstSymbols.zip stencil.secondSymbols)).map
    fun (coord, first, second) => (coord, (reading.symbol first + reading.symbol second) / 2)

/-- The components of the unit vector from the first endpoint of the edge to the second. -/
def unitNormal (stencil : Stencil) (reading : Interpretation K) : List (String × K) :=
  (stencil.normalSymbols.zip (stencil.firstSymbols.zip stencil.secondSymbols)).map
    fun (normal, first, second) =>
      (normal, (reading.symbol second - reading.symbol first) / reading.symbol edgeLength)

/-- The mean of the endpoint values of the field. -/
def meanValue (stencil : Stencil) (reading : Interpretation K) : K :=
  (reading.symbol (firstValue stencil.field) + reading.symbol (secondValue stencil.field)) / 2

/-- The difference quotient of the endpoint values of the field. -/
def slope (stencil : Stencil) (reading : Interpretation K) : K :=
  (reading.symbol (secondValue stencil.field) - reading.symbol (firstValue stencil.field)) /
    reading.symbol edgeLength

/-- The reading with the coordinates of the midpoint and the components of the normal. -/
def pointReading (stencil : Stencil) (reading : Interpretation K) : Interpretation K :=
  (reading.bind (stencil.unitNormal reading)).bind (stencil.midpoint reading)

/-- The value of the position vector at the midpoint. -/
def pointValue (stencil : Stencil) (reading : Interpretation K) : K :=
  (stencil.pointReading reading).vector
    (stencil.coordSymbols.map (stencil.pointReading reading).symbol)

open Classical in
/-- How an integrand is read on the facet across an edge. Every function is read as it is anywhere
else, save that the field has the mean of its endpoint values at the midpoint. -/
noncomputable def facetReading (stencil : Stencil) (reading : Interpretation K) :
    Interpretation K :=
  { stencil.pointReading reading with
    call := fun head args =>
      match head with
      | .dot => reading.call .dot args
      | .normalDerivative => stencil.slope reading
      | .named name =>
        if name = stencil.field.name ∧ args = [stencil.pointValue reading] then
          stencil.meanValue reading
        else
          reading.call (.named name) args }

/-- The contribution of an integrand on the facet across an edge: its value there times the area of
the facet. -/
noncomputable def facetValue (stencil : Stencil) (e : Expr) (reading : Interpretation K) : K :=
  reading.symbol edgeLength * reading.symbol edgeRatio * e.valueIn (stencil.facetReading reading)

variable {stencil : Stencil} {reading : Interpretation K}

/-- The unit normal binds normal symbols only. -/
theorem unitNormal_keys {name : String}
    (member : name ∈ (stencil.unitNormal reading).map Prod.fst) : name ∈ stencil.normalSymbols := by
  rw [unitNormal, List.map_map] at member
  obtain ⟨triple, inside, rfl⟩ := List.mem_map.mp member
  exact (List.of_mem_zip inside).1

/-- The midpoint binds coordinate symbols only. -/
theorem midpoint_keys {name : String} (member : name ∈ (stencil.midpoint reading).map Prod.fst) :
    name ∈ stencil.coordSymbols := by
  rw [midpoint, List.map_map] at member
  obtain ⟨triple, inside, rfl⟩ := List.mem_map.mp member
  exact (List.of_mem_zip inside).1

/-- On a facet only the coordinates and the normal are read anew. -/
theorem pointReading_symbol_of_not_mem {name : String} (notCoord : name ∉ stencil.coordSymbols)
    (notNormal : name ∉ stencil.normalSymbols) :
    (stencil.pointReading reading).symbol name = reading.symbol name := by
  rw [pointReading, Interpretation.bind_symbol_of_not_mem fun member =>
      notCoord (midpoint_keys member),
    Interpretation.bind_symbol_of_not_mem fun member => notNormal (unitNormal_keys member)]

/-- On a facet the length of the edge is as before. -/
theorem pointReading_edgeLength :
    (stencil.pointReading reading).symbol edgeLength = reading.symbol edgeLength :=
  pointReading_symbol_of_not_mem (edgeLength_not_mem_components (by decide))
    (edgeLength_not_mem_components (by decide))

/-- On a facet the ratio of the edge is as before. -/
theorem pointReading_edgeRatio :
    (stencil.pointReading reading).symbol edgeRatio = reading.symbol edgeRatio :=
  pointReading_symbol_of_not_mem (edgeRatio_not_mem_components (by decide))
    (edgeRatio_not_mem_components (by decide))

/-- On a facet the value at the first end is as before. -/
theorem pointReading_firstValue :
    (stencil.pointReading reading).symbol (firstValue stencil.field) =
      reading.symbol (firstValue stencil.field) :=
  pointReading_symbol_of_not_mem (firstValue_not_mem_components _ (by decide))
    (firstValue_not_mem_components _ (by decide))

/-- On a facet the value at the second end is as before. -/
theorem pointReading_secondValue :
    (stencil.pointReading reading).symbol (secondValue stencil.field) =
      reading.symbol (secondValue stencil.field) :=
  pointReading_symbol_of_not_mem (secondValue_not_mem_components _ (by decide))
    (secondValue_not_mem_components _ (by decide))

/-- On a facet the sample of the field is the mean of the values at the ends. -/
theorem valueIn_facetReading_sample :
    (stencil.field.valueAt stencil.position).valueIn (stencil.facetReading reading) =
      stencil.meanValue reading := by
  have position : stencil.position.valueIn (stencil.facetReading reading) =
      stencil.pointValue reading := by
    rw [Stencil.position, vectorOf, valueIn_vector, List.map_map]
    rfl
  rw [ScalarField.valueAt, apply, valueIn_call_of_ne (by simp), List.map_singleton, position]
  exact if_pos ⟨rfl, rfl⟩

/-- On a facet the normal derivative is the difference quotient along the edge. -/
theorem valueIn_facetReading_normalDerivative (args : List Expr) :
    (Expr.call .normalDerivative args).valueIn (stencil.facetReading reading) =
      stencil.slope reading :=
  valueIn_call_of_ne (by simp)

/-- Values that stand for the generic point and the endpoints of the edge, and that no argument of a
function in an integrand has. -/
structure Marks (K : Type*) where
  generic : K
  first : K
  second : K
  first_ne_generic : first ≠ generic
  second_ne_generic : second ≠ generic
  first_ne_second : first ≠ second

namespace Marks

variable (marks : Marks K)

/-- A value that stands for none of the positions. -/
def Spares (value : K) : Prop := value ≠ marks.generic ∧ value ≠ marks.first ∧ value ≠ marks.second

/-- The first coordinate of the generic point. -/
def abscissa (stencil : Stencil) (reading : Interpretation K) : K :=
  (stencil.coordSymbols.map (stencil.pointReading reading).symbol).headD 0

open Classical in
/-- The mark of a position, known from its first coordinate. -/
noncomputable def ofCoordinate (origin coordinate : K) : K :=
  if coordinate = origin + 1 then marks.first
  else if coordinate = origin + 2 then marks.second
  else marks.generic

open Classical in
/-- A reading of localized integrands that tells the endpoints and the generic point apart: their
first coordinates are different, so that the vector of each can have its own mark, and the field has
at every mark the value it has there. -/
noncomputable def localReading (stencil : Stencil) (reading : Interpretation K) :
    Interpretation K where
  symbol name :=
    if name ∈ stencil.firstSymbols then abscissa stencil reading + 1
    else if name ∈ stencil.secondSymbols then abscissa stencil reading + 2
    else (stencil.pointReading reading).symbol name
  vector components := marks.ofCoordinate (abscissa stencil reading) (components.headD 0)
  call head args :=
    match head with
    | .named name =>
      if name = stencil.field.name ∧ args = [marks.generic] then stencil.meanValue reading
      else if name = stencil.field.name ∧ args = [marks.first] then
        reading.symbol (firstValue stencil.field)
      else if name = stencil.field.name ∧ args = [marks.second] then
        reading.symbol (secondValue stencil.field)
      else (stencil.facetReading reading).call head args
    | head => reading.call head args

variable {marks}

/-- Marking the coordinates of the ends keeps all other symbols. -/
theorem localReading_symbol {name : String} (free : stencil.IsFree name) :
    (marks.localReading stencil reading).symbol name =
      (stencil.pointReading reading).symbol name := by
  simp only [localReading, if_neg free.1, if_neg free.2]

/-- The coordinates of the first end lie one after the generic point. -/
theorem localReading_first {name : String} (member : name ∈ stencil.firstSymbols) :
    (marks.localReading stencil reading).symbol name = abscissa stencil reading + 1 := by
  simp only [localReading, if_pos member]

/-- The coordinates of the second end lie two after the generic point. -/
theorem localReading_second {name : String} (member : name ∈ stencil.secondSymbols) :
    (marks.localReading stencil reading).symbol name = abscissa stencil reading + 2 := by
  have notFirst : name ∉ stencil.firstSymbols :=
    components_disjoint (by decide) (by decide) (by decide) member
  simp only [localReading, if_neg notFirst, if_pos member]

/-- The field at a vector of symbols is read at the mark of the vector. -/
theorem valueIn_valueAt (names : List String) :
    (stencil.field.valueAt (vectorOf names)).valueIn (marks.localReading stencil reading) =
      (marks.localReading stencil reading).call (.named stencil.field.name)
        [marks.ofCoordinate (abscissa stencil reading)
          ((names.map (marks.localReading stencil reading).symbol).headD 0)] := by
  rw [ScalarField.valueAt, apply, valueIn_call_of_ne (by simp), List.map_singleton, vectorOf,
    valueIn_vector, List.map_map]
  rfl

/-- The first of several names of one value has that value. -/
theorem headD_map_of_forall {names : List String} (nonempty : names ≠ []) {symbol : String → K}
    {value : K} (values : ∀ name ∈ names, symbol name = value) :
    (names.map symbol).headD 0 = value := by
  obtain ⟨name, rest, rfl⟩ := List.exists_cons_of_ne_nil nonempty
  exact values name List.mem_cons_self

/-- One after the generic point is the mark of the first end. -/
theorem ofCoordinate_first (origin : K) : marks.ofCoordinate origin (origin + 1) = marks.first := by
  simp [ofCoordinate]

/-- A sample at the first end is the value there. -/
theorem valueIn_first (positive : 0 < stencil.dim) :
    (stencil.field.valueAt stencil.first).valueIn (marks.localReading stencil reading) =
      reading.symbol (firstValue stencil.field) := by
  have head : (stencil.firstSymbols.map (marks.localReading stencil reading).symbol).headD 0 =
      abscissa stencil reading + 1 :=
    headD_map_of_forall (components_ne_nil positive "x0") fun name => localReading_first
  rw [Stencil.first, valueIn_valueAt, head, ofCoordinate_first]
  simp [localReading, marks.first_ne_generic]

variable [CharZero K]

/-- The generic point has its own mark. -/
theorem ofCoordinate_origin (origin : K) : marks.ofCoordinate origin origin = marks.generic := by
  simp [ofCoordinate]

/-- Two after the generic point is the mark of the second end. -/
theorem ofCoordinate_second (origin : K) :
    marks.ofCoordinate origin (origin + 2) = marks.second := by
  simp [ofCoordinate]

/-- A sample at the generic point is the mean of the values at the ends. -/
theorem valueIn_generic :
    (stencil.field.valueAt stencil.position).valueIn (marks.localReading stencil reading) =
      stencil.meanValue reading := by
  have coords : stencil.coordSymbols.map (marks.localReading stencil reading).symbol =
      stencil.coordSymbols.map (stencil.pointReading reading).symbol :=
    List.map_congr_left fun name member => localReading_symbol
      ⟨components_disjoint (by decide) (by decide) (by decide) member,
        components_disjoint (by decide) (by decide) (by decide) member⟩
  rw [Stencil.position, valueIn_valueAt, coords, ← abscissa, ofCoordinate_origin]
  simp [localReading]

/-- A sample at the second end is the value there. -/
theorem valueIn_second (positive : 0 < stencil.dim) :
    (stencil.field.valueAt stencil.second).valueIn (marks.localReading stencil reading) =
      reading.symbol (secondValue stencil.field) := by
  have head : (stencil.secondSymbols.map (marks.localReading stencil reading).symbol).headD 0 =
      abscissa stencil reading + 2 :=
    headD_map_of_forall (components_ne_nil positive "x1") fun name => localReading_second
  rw [Stencil.second, valueIn_valueAt, head, ofCoordinate_second]
  simp [localReading, marks.second_ne_generic, marks.first_ne_second.symm]

/-- Localization turns the reading of integrands on a facet into the one that tells positions
apart. -/
theorem localizes (positive : 0 < stencil.dim) (length : reading.symbol edgeLength ≠ 0) :
    stencil.Localizes marks.Spares (stencil.facetReading reading)
      (marks.localReading stencil reading) where
  symbol _ free := localReading_symbol free
  call name value spared := by
    obtain ⟨notGeneric, notFirst, notSecond⟩ := spared
    simp [localReading, notGeneric, notFirst, notSecond]
  sample := by rw [valueIn_generic, valueIn_facetReading_sample]
  length := by rwa [localReading_symbol isFree_edgeLength, pointReading_edgeLength]
  derivative := by
    rw [valueIn_second positive, valueIn_first positive, localReading_symbol isFree_edgeLength,
      pointReading_edgeLength, valueIn_facetReading_normalDerivative, slope]

end Marks

end FiniteVolume.Stencil
