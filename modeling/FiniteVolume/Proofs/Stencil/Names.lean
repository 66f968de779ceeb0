import FiniteVolume.Stencil.Basic
import Mathlib

/-!
# Names in a stencil

The symbols of coordinates, normals and endpoints are told apart by what stands before their index,
and none of them is the symbol of a length, a ratio or a field value. The value of a field holds a
letter that no component is spelled with, and its last letters tell the endpoint, the others the
field. No two symbols of a stencil are therefore the same (`symbols_distinct`).
-/

namespace FiniteVolume.Stencil

variable {stencil : Stencil}

/-- A component of a vector is named by its kind and its index. -/
theorem mem_components {kind name : String} :
    name ∈ stencil.components kind ↔
      ∃ index < stencil.dim, name = kind ++ "_" ++ toString index := by
  simp [components, eq_comm]

/-- Vectors have a first component in positive dimension. -/
theorem components_ne_nil (positive : 0 < stencil.dim) (kind : String) :
    stencil.components kind ≠ [] := by
  rw [components, Ne, List.map_eq_nil_iff, List.range_eq_nil]
  omega

/-- A component of a vector is written with its index, which is made of digits. -/
theorem exists_digits_of_mem_components {kind name : String}
    (member : name ∈ stencil.components kind) :
    ∃ digits : List Char, (∀ digit ∈ digits, digit.isDigit = true) ∧
      name.toList = kind.toList ++ '_' :: digits := by
  obtain ⟨index, -, rfl⟩ := mem_components.mp member
  refine ⟨(toString index).toList, fun digit inside => ?_, by simp⟩
  rw [Nat.toString_eq_repr, Nat.toList_repr] at inside
  exact Nat.isDigit_of_mem_toDigits (by decide) (by decide) inside

/-- The kinds of components that a stencil names. -/
def kinds : List String := ["x", "n", "x0", "x1"]

/-- Components of different kinds have different names. -/
theorem components_disjoint {kind kind' name : String} (member : kind ∈ kinds)
    (member' : kind' ∈ kinds) (different : kind ≠ kind') (inside : name ∈ stencil.components kind) :
    name ∉ stencil.components kind' := by
  intro inside'
  obtain ⟨digits, -, spelled⟩ := exists_digits_of_mem_components inside
  obtain ⟨digits', -, spelled'⟩ := exists_digits_of_mem_components inside'
  rw [spelled] at spelled'
  simp only [kinds, List.mem_cons, List.not_mem_nil, or_false] at member member'
  rcases member with rfl | rfl | rfl | rfl <;> rcases member' with rfl | rfl | rfl | rfl <;>
    simp at different spelled'

/-- Components are spelled with few letters. -/
theorem mem_components_letters {kind name : String} {letter : Char} (member : kind ∈ kinds)
    (inside : name ∈ stencil.components kind) (occurs : letter ∈ name.toList) :
    letter ∈ ['x', 'n', '_'] ∨ letter.isDigit = true := by
  have kindLetters : ∀ kind ∈ kinds, ∀ letter ∈ kind.toList,
      letter ∈ ['x', 'n', '_'] ∨ letter.isDigit = true := by simp [kinds]
  obtain ⟨digits, isDigit, spelled⟩ := exists_digits_of_mem_components inside
  rw [spelled, List.mem_append, List.mem_cons] at occurs
  rcases occurs with inKind | rfl | inDigits
  · exact kindLetters kind member letter inKind
  · exact Or.inl (by decide)
  · exact Or.inr (isDigit letter inDigits)

/-- A letter that no component is spelled with tells a name apart from all components. -/
theorem not_mem_components_of_letter {kind name : String} (letter : Char) (member : kind ∈ kinds)
    (occurs : letter ∈ name.toList)
    (foreign : ¬(letter ∈ ['x', 'n', '_'] ∨ letter.isDigit = true)) :
    name ∉ stencil.components kind :=
  fun inside => foreign (mem_components_letters member inside occurs)

/-- The length of the edge is no component of a vector. -/
theorem edgeLength_not_mem_components {kind : String} (member : kind ∈ kinds) :
    edgeLength ∉ stencil.components kind :=
  not_mem_components_of_letter 'e' member (by decide) (by decide)

/-- The ratio of the edge is no component of a vector. -/
theorem edgeRatio_not_mem_components {kind : String} (member : kind ∈ kinds) :
    edgeRatio ∉ stencil.components kind :=
  not_mem_components_of_letter 'e' member (by decide) (by decide)

/-- The control volume is no component of a vector. -/
theorem controlVolume_not_mem_components {kind : String} (member : kind ∈ kinds) :
    controlVolume ∉ stencil.components kind :=
  not_mem_components_of_letter 'c' member (by decide) (by decide)

/-- The area of the surface is no component of a vector. -/
theorem surfaceArea_not_mem_components {kind : String} (member : kind ∈ kinds) :
    surfaceArea ∉ stencil.components kind :=
  not_mem_components_of_letter 's' member (by decide) (by decide)

/-- The value at the first end is no component of a vector. -/
theorem firstValue_not_mem_components {kind : String} (field : ScalarField)
    (member : kind ∈ kinds) : firstValue field ∉ stencil.components kind :=
  not_mem_components_of_letter 'k' member (by simp [firstValue]) (by decide)

/-- The value at the second end is no component of a vector. -/
theorem secondValue_not_mem_components {kind : String} (field : ScalarField)
    (member : kind ∈ kinds) : secondValue field ∉ stencil.components kind :=
  not_mem_components_of_letter 'k' member (by simp [secondValue]) (by decide)

/-- The symbols of the values of a field end in the number of the endpoint. -/
theorem ne_firstValue {name : String} (last : name.toList.getLast? ≠ some '0')
    (field : ScalarField) : name ≠ firstValue field := by
  rintro rfl
  exact last (by simp [firstValue])

/-- A name that does not end in one is no value at the second end. -/
theorem ne_secondValue {name : String} (last : name.toList.getLast? ≠ some '1')
    (field : ScalarField) : name ≠ secondValue field := by
  rintro rfl
  exact last (by simp [secondValue])

theorem edgeLength_ne_firstValue (field : ScalarField) : edgeLength ≠ firstValue field :=
  ne_firstValue (by decide) field

theorem edgeLength_ne_secondValue (field : ScalarField) : edgeLength ≠ secondValue field :=
  ne_secondValue (by decide) field

theorem edgeRatio_ne_firstValue (field : ScalarField) : edgeRatio ≠ firstValue field :=
  ne_firstValue (by decide) field

theorem edgeRatio_ne_secondValue (field : ScalarField) : edgeRatio ≠ secondValue field :=
  ne_secondValue (by decide) field

/-- The values at the two ends have different names. -/
theorem firstValue_ne_secondValue (field : ScalarField) : firstValue field ≠ secondValue field :=
  ne_secondValue (by simp [firstValue]) field

/-- The components of a vector have different names. -/
theorem nodup_components (kind : String) : (stencil.components kind).Nodup := by
  refine List.nodup_range.map fun index other same => ?_
  exact Nat.repr_inj.mp ((String.append_right_inj (kind ++ "_")).mp same)

/-- A vector has as many components as there are dimensions. -/
theorem length_components (kind : String) : (stencil.components kind).length = stencil.dim := by
  rw [components, List.length_map, List.length_range]

/-- The parameters of edge coefficients have different names. -/
theorem nodup_edgeParams : stencil.edgeParams.Nodup := by
  have kind0 : "x0" ∈ kinds := by decide
  have kind1 : "x1" ∈ kinds := by decide
  have coords : (stencil.firstSymbols ++ stencil.secondSymbols).Nodup := by
    refine List.nodup_append.mpr ⟨nodup_components _, nodup_components _, ?_⟩
    rintro name inFirst _ inSecond rfl
    exact components_disjoint kind0 kind1 (by decide) inFirst inSecond
  refine List.nodup_append.mpr ⟨coords, by decide, ?_⟩
  rintro name inCoords _ inGeometry rfl
  rcases List.mem_append.mp inCoords with inside | inside <;>
    rcases List.mem_cons.mp inGeometry with rfl | isLength
  · exact edgeRatio_not_mem_components kind0 inside
  · exact edgeLength_not_mem_components kind0 (List.mem_singleton.mp isLength ▸ inside)
  · exact edgeRatio_not_mem_components kind1 inside
  · exact edgeLength_not_mem_components kind1 (List.mem_singleton.mp isLength ▸ inside)

/-- The kernel of an edge has two parameters for each dimension, and two more. -/
theorem length_edgeParams : stencil.edgeParams.length = 2 * stencil.dim + 2 := by
  rw [edgeParams, List.length_append, List.length_append, firstSymbols, secondSymbols,
    length_components, length_components, Nat.two_mul]
  rfl

/-- The kernel of a vertex has one parameter for each dimension, and one more. -/
theorem length_vertexParams : stencil.vertexParams.length = stencil.dim + 1 := by
  rw [vertexParams, List.length_cons, coordSymbols, length_components]

/-- The kernel of a face has one parameter for each dimension, and one more. -/
theorem length_faceParams : stencil.faceParams.length = stencil.dim + 1 := by
  rw [faceParams, List.length_cons, coordSymbols, length_components]

/-- The parameters of the kernel of a vertex are different. -/
theorem nodup_vertexParams : stencil.vertexParams.Nodup :=
  List.nodup_cons.mpr ⟨controlVolume_not_mem_components (by decide), nodup_components _⟩

/-- The parameters of the kernel of a face are different. -/
theorem nodup_faceParams : stencil.faceParams.Nodup :=
  List.nodup_cons.mpr ⟨surfaceArea_not_mem_components (by decide), nodup_components _⟩

/-- The names of lengths, ratios and sizes, which do not depend on the dimension. -/
def measures : List String := [edgeLength, edgeRatio, controlVolume, surfaceArea]

/-- The symbols of the values of a field. -/
def values (field : ScalarField) : List String := [firstValue field, secondValue field]

/-- All symbols that a stencil generates, with the values of the given fields. -/
def symbols (stencil : Stencil) (fields : List ScalarField) : List String :=
  stencil.coordSymbols ++ stencil.normalSymbols ++ stencil.firstSymbols ++ stencil.secondSymbols ++
    measures ++ fields.flatMap values

/-- Measures are no components of vectors. -/
theorem measures_not_mem_components {kind name : String} (member : kind ∈ kinds)
    (isMeasure : name ∈ measures) : name ∉ stencil.components kind := by
  simp only [measures, List.mem_cons, List.not_mem_nil, or_false] at isMeasure
  rcases isMeasure with rfl | rfl | rfl | rfl
  · exact edgeLength_not_mem_components member
  · exact edgeRatio_not_mem_components member
  · exact controlVolume_not_mem_components member
  · exact surfaceArea_not_mem_components member

/-- The values of a field are those at the two ends. -/
theorem mem_values {field : ScalarField} {name : String} :
    name ∈ values field ↔ name = firstValue field ∨ name = secondValue field := by
  simp [values]

/-- The values of a field are no components of vectors. -/
theorem values_not_mem_components {kind name : String} {field : ScalarField}
    (member : kind ∈ kinds) (isValue : name ∈ values field) :
    name ∉ stencil.components kind := by
  rcases mem_values.mp isValue with rfl | rfl
  · exact firstValue_not_mem_components field member
  · exact secondValue_not_mem_components field member

/-- The values of a field are no measures. -/
theorem values_not_mem_measures {name : String} {field : ScalarField}
    (isValue : name ∈ values field) : name ∉ measures := by
  have last : ∀ name ∈ measures, name.toList.getLast? ≠ some '0' ∧
      name.toList.getLast? ≠ some '1' := by decide
  intro isMeasure
  obtain ⟨notFirst, notSecond⟩ := last name isMeasure
  rcases mem_values.mp isValue with same | same
  · exact ne_firstValue notFirst field same
  · exact ne_secondValue notSecond field same

/-- Different fields have different values, as the end of a name tells the endpoint and the rest
of it tells the field. -/
theorem values_disjoint {field other : ScalarField} (different : field.name ≠ other.name) :
    List.Disjoint (values field) (values other) := by
  intro name isValue isValue'
  rcases mem_values.mp isValue with rfl | rfl <;> rcases mem_values.mp isValue' with same | same
  · exact different ((String.append_left_inj "_k0").mp same)
  · exact ne_secondValue (by simp [firstValue]) other same
  · exact ne_firstValue (by simp [secondValue]) other same
  · exact different ((String.append_left_inj "_k1").mp same)

/-- The values of a field have different names. -/
theorem nodup_values (field : ScalarField) : (values field).Nodup := by
  simp [values, firstValue_ne_secondValue]

/-- The components of all vectors of a stencil have different names. -/
theorem nodup_kinds_components : (kinds.flatMap stencil.components).Nodup := by
  refine List.nodup_flatMap.mpr ⟨fun kind _ => nodup_components kind, ?_⟩
  have different : kinds.Pairwise (· ≠ ·) := by decide
  refine different.imp_of_mem fun member member' different name inside inside' => ?_
  exact components_disjoint member member' different inside inside'

/-- The symbols of a stencil are the components of vectors, the measures and the values of the
fields. -/
theorem symbols_eq (fields : List ScalarField) :
    stencil.symbols fields =
      kinds.flatMap stencil.components ++ measures ++ fields.flatMap values := by
  simp [symbols, kinds, coordSymbols, normalSymbols, firstSymbols, secondSymbols]

/-- No symbol of a stencil stands for two things if the fields have different names. -/
theorem nodup_symbols {fields : List ScalarField}
    (distinct : (fields.map ScalarField.name).Nodup) : (stencil.symbols fields).Nodup := by
  have ofComponents : (kinds.flatMap stencil.components ++ measures).Nodup := by
    refine List.nodup_append.mpr ⟨nodup_kinds_components, by decide, ?_⟩
    rintro name inComponents _ isMeasure rfl
    obtain ⟨kind, member, inside⟩ := List.mem_flatMap.mp inComponents
    exact measures_not_mem_components member isMeasure inside
  have ofFields : (fields.flatMap values).Nodup := by
    refine List.nodup_flatMap.mpr ⟨fun field _ => nodup_values field, ?_⟩
    exact (List.pairwise_map.mp distinct).imp fun different => values_disjoint different
  rw [symbols_eq]
  refine List.nodup_append.mpr ⟨ofComponents, ofFields, ?_⟩
  rintro name generated _ ofField rfl
  obtain ⟨field, -, isValue⟩ := List.mem_flatMap.mp ofField
  rcases List.mem_append.mp generated with inComponents | isMeasure
  · obtain ⟨kind, member, inside⟩ := List.mem_flatMap.mp inComponents
    exact values_not_mem_components member isValue inside
  · exact values_not_mem_measures isValue isMeasure

/-- The parameters of the four kinds of kernels. -/
def parameterLists (stencil : Stencil) : List (List String) :=
  [stencil.edgeParams, stencil.vertexParams, stencil.faceParams, stencil.dirichletParams]

/-- Parameters are components of vectors, lengths, ratios and sizes. -/
theorem mem_parameters_cases {params : List String} {name : String}
    (known : params ∈ stencil.parameterLists) (member : name ∈ params) :
    (∃ kind ∈ kinds, name ∈ stencil.components kind) ∨ name ∈ measures := by
  have isCoord : name ∈ stencil.coordSymbols → ∃ kind ∈ kinds, name ∈ stencil.components kind :=
    fun inside => ⟨"x", by decide, inside⟩
  simp only [parameterLists, List.mem_cons, List.not_mem_nil, or_false] at known
  rcases known with rfl | rfl | rfl | rfl
  · rcases List.mem_append.mp member with inCoords | inGeometry
    · rcases List.mem_append.mp inCoords with inFirst | inSecond
      · exact Or.inl ⟨"x0", by decide, inFirst⟩
      · exact Or.inl ⟨"x1", by decide, inSecond⟩
    · have known : ∀ name ∈ [edgeRatio, edgeLength], name ∈ measures := by decide
      exact Or.inr (known name inGeometry)
  · rcases List.mem_cons.mp member with rfl | inside
    · exact Or.inr (by decide)
    · exact Or.inl (isCoord inside)
  · rcases List.mem_cons.mp member with rfl | inside
    · exact Or.inr (by decide)
    · exact Or.inl (isCoord inside)
  · exact Or.inl (isCoord member)

/-- The values of a field are no parameters of any kernel. -/
theorem values_not_mem_parameters {params : List String} {name : String} {field : ScalarField}
    (known : params ∈ stencil.parameterLists) (isValue : name ∈ values field) : name ∉ params := by
  intro member
  rcases mem_parameters_cases known member with ⟨kind, isKind, inside⟩ | isMeasure
  · exact values_not_mem_components isKind isValue inside
  · exact values_not_mem_measures isValue isMeasure

/-- The values of a field are no parameters of edge coefficients. -/
theorem ne_values_of_mem_edgeParams {field : ScalarField} {name : String}
    (member : name ∈ stencil.edgeParams) : name ≠ firstValue field ∧ name ≠ secondValue field := by
  have foreign : ∀ value ∈ values field, value ∉ stencil.edgeParams := fun value isValue =>
    values_not_mem_parameters List.mem_cons_self isValue
  constructor
  · rintro rfl
    exact foreign _ (mem_values.mpr (Or.inl rfl)) member
  · rintro rfl
    exact foreign _ (mem_values.mpr (Or.inr rfl)) member

/-- The symbols of a stencil are pairwise different in every dimension and for any fields with
different names. No kernel has a parameter twice or a value of a field as a parameter. -/
theorem symbols_distinct (stencil : Stencil) (fields : List ScalarField)
    (distinct : (fields.map ScalarField.name).Nodup) :
    (stencil.symbols fields).Nodup ∧
      ∀ params ∈ stencil.parameterLists,
        params.Nodup ∧ ∀ field, ∀ name ∈ values field, name ∉ params := by
  refine ⟨nodup_symbols distinct, fun params known => ⟨?_, fun field name isValue =>
    values_not_mem_parameters known isValue⟩⟩
  simp only [parameterLists, List.mem_cons, List.not_mem_nil, or_false] at known
  rcases known with rfl | rfl | rfl | rfl
  · exact nodup_edgeParams
  · exact nodup_vertexParams
  · exact nodup_faceParams
  · exact nodup_components "x"

/-- Fields that are named like a coordinate, like a length and like the value of another field. -/
theorem symbols_distinct_lookalikes :
    let stencil : Stencil := ⟨12, ⟨"x"⟩⟩
    let fields : List ScalarField := [⟨"x"⟩, ⟨"x_1"⟩, ⟨"x_k0"⟩, ⟨"edge_length"⟩, ⟨""⟩]
    (fields.map ScalarField.name).Nodup ∧ (stencil.symbols fields).Nodup ∧
      ∀ params ∈ stencil.parameterLists,
        params.Nodup ∧ ∀ field, ∀ name ∈ values field, name ∉ params := by
  intro stencil fields
  have distinct : (fields.map ScalarField.name).Nodup := by decide
  exact ⟨distinct, symbols_distinct stencil fields distinct⟩

end FiniteVolume.Stencil
