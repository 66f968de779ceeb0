import Mathlib

/-!
# Partial maps over lists

A partial map has values on a whole list exactly when it has one on every member, and then the
results stand in the order of the members (`mapM_eq_some_iff`).
-/

namespace FiniteVolume

variable {α β : Type} {γ : Type*}

/-- A partial map answers on a list exactly when it does on each member. -/
theorem mapM_eq_some_iff {f : α → Option β} {members : List α} {results : List β} :
    members.mapM f = some results ↔
      List.Forall₂ (fun member result => f member = some result) members results := by
  induction members generalizing results with
  | nil => simp [List.forall₂_nil_left_iff, eq_comm]
  | cons member rest ih =>
    rw [List.mapM_cons, List.forall₂_cons_left_iff, Option.bind_eq_bind, Option.bind_eq_some_iff]
    constructor
    · rintro ⟨result, found, mapped⟩
      rw [Option.bind_eq_bind, Option.bind_eq_some_iff] at mapped
      obtain ⟨others, mapped, same⟩ := mapped
      cases same
      exact ⟨result, others, found, ih.mp mapped, rfl⟩
    · rintro ⟨result, others, found, mapped, rfl⟩
      refine ⟨result, found, ?_⟩
      rw [ih.mpr mapped]
      rfl

theorem mapM_cons_eq_some {f : α → Option β} {member : α} {rest : List α} {results : List β}
    (mapped : (member :: rest).mapM f = some results) :
    ∃ result others, f member = some result ∧ rest.mapM f = some others ∧
      results = result :: others := by
  obtain ⟨result, others, found, related, same⟩ :=
    List.forall₂_cons_left_iff.mp (mapM_eq_some_iff.mp mapped)
  exact ⟨result, others, found, mapM_eq_some_iff.mpr related, same⟩

theorem mapM_singleton_eq_some {f : α → Option β} {member : α} {results : List β}
    (mapped : [member].mapM f = some results) :
    ∃ result, f member = some result ∧ results = [result] := by
  obtain ⟨result, _, found, nothing, rfl⟩ := mapM_cons_eq_some mapped
  rw [List.mapM_nil] at nothing
  cases nothing
  exact ⟨result, found, rfl⟩

theorem mapM_pair_eq_some {f : α → Option β} {first second : α} {results : List β}
    (mapped : [first, second].mapM f = some results) :
    ∃ left right, f first = some left ∧ f second = some right ∧ results = [left, right] := by
  obtain ⟨left, _, foundFirst, tail, rfl⟩ := mapM_cons_eq_some mapped
  obtain ⟨right, foundSecond, rfl⟩ := mapM_singleton_eq_some tail
  exact ⟨left, right, foundFirst, foundSecond, rfl⟩

/-- Every result of a partial map is that of a member. -/
theorem exists_of_mem_mapM {f : α → Option β} {members : List α} {results : List β}
    (mapped : members.mapM f = some results) {result : β} (present : result ∈ results) :
    ∃ member ∈ members, f member = some result := by
  induction members generalizing results with
  | nil =>
    cases mapped
    cases present
  | cons member rest ih =>
    obtain ⟨first, others, found, tail, rfl⟩ := mapM_cons_eq_some mapped
    rcases List.mem_cons.mp present with rfl | later
    · exact ⟨member, List.mem_cons_self, found⟩
    · obtain ⟨source, inside, found⟩ := ih tail later
      exact ⟨source, List.mem_cons_of_mem _ inside, found⟩

/-- What holds of the result of every member holds of all results. -/
theorem forall_mem_of_mapM {f : α → Option β} {property : β → Prop} {members : List α}
    {results : List β} (mapped : members.mapM f = some results)
    (each : ∀ member ∈ members, ∀ result, f member = some result → property result) :
    ∀ result ∈ results, property result := by
  intro result present
  obtain ⟨member, inside, found⟩ := exists_of_mem_mapM mapped present
  exact each member inside result found

/-- A relation that holds of the members with a property holds of all members if all have it. -/
theorem forall₂_of_forall_mem {source : α → Prop} {related : α → β → Prop} {members : List α}
    {results : List β} (holds : ∀ member ∈ members, source member)
    (each : List.Forall₂ (fun member result => source member → related member result) members
      results) : List.Forall₂ related members results :=
  ((List.forall₂_and_left members results).mpr ⟨holds, each⟩).imp fun _ _ both => both.2 both.1

/-- A relation between members and results that a partial map establishes. -/
theorem forall₂_of_mapM {f : α → Option β} {related : α → β → Prop} {members : List α}
    {results : List β} (mapped : members.mapM f = some results)
    (relates : ∀ member ∈ members, ∀ result, f member = some result → related member result) :
    List.Forall₂ related members results :=
  forall₂_of_forall_mem relates
    ((mapM_eq_some_iff.mp mapped).imp fun _ result found passes => passes result found)

/-- A quantity that members and their results have in common. -/
theorem map_eq_of_forall₂ {before : α → γ} {after : β → γ} {members : List α} {results : List β}
    (all : List.Forall₂ (fun member result => after result = before member) members results) :
    results.map after = members.map before := by
  induction all with
  | nil => rfl
  | cons same _ ih => exact congrArg₂ List.cons same ih

/-- A quantity that a partial map keeps has the same values on the results as on the members. -/
theorem map_eq_of_mapM {f : α → Option β} {members : List α} {results : List β}
    (mapped : members.mapM f = some results) (before : α → γ) {h : β → γ}
    (kept : ∀ member ∈ members, ∀ result, f member = some result → h result = before member) :
    results.map h = members.map before :=
  map_eq_of_forall₂ (forall₂_of_mapM mapped kept)

/-- A partial map that has a value on every member has one on the list. -/
theorem mapM_eq_some_map {f : α → Option β} {members : List α} {image : α → β}
    (defined : ∀ member ∈ members, f member = some (image member)) :
    members.mapM f = some (members.map image) := by
  rw [mapM_eq_some_iff]
  induction members with
  | nil => exact .nil
  | cons member rest ih =>
    exact .cons (defined member List.mem_cons_self)
      (ih fun other inside => defined other (List.mem_cons_of_mem _ inside))

/-- A partial map answers on a list if it does on each member. -/
theorem exists_mapM_eq_some {f : α → Option β} {members : List α}
    (each : ∀ member ∈ members, ∃ result, f member = some result) :
    ∃ results, members.mapM f = some results := by
  induction members with
  | nil => exact ⟨[], rfl⟩
  | cons member rest ih =>
    obtain ⟨⟨first, found⟩, later⟩ := List.forall_mem_cons.mp each
    obtain ⟨results, mapped⟩ := ih later
    exact ⟨first :: results, mapM_eq_some_iff.mpr (.cons found (mapM_eq_some_iff.mp mapped))⟩

/-- Related lists are related at every position. -/
theorem exists_getElem?_of_forall₂ {related : α → β → Prop} {members : List α} {results : List β}
    (all : List.Forall₂ related members results) {position : Nat} {member : α}
    (stands : members[position]? = some member) :
    ∃ result, results[position]? = some result ∧ related member result := by
  induction all generalizing position with
  | nil => cases stands
  | @cons _ result _ _ first _ ih =>
    cases position with
    | zero =>
      cases stands
      exact ⟨result, rfl, first⟩
    | succ position => exact ih stands

/-- Every member of a list is paired with a related result. -/
theorem exists_mem_zip_of_forall₂ {related : α → β → Prop} {members : List α} {results : List β}
    (all : List.Forall₂ related members results) {member : α} (inside : member ∈ members) :
    ∃ result, (member, result) ∈ members.zip results ∧ related member result := by
  obtain ⟨position, stands⟩ := List.mem_iff_getElem?.mp inside
  obtain ⟨result, standsResult, holds⟩ := exists_getElem?_of_forall₂ all stands
  exact ⟨result, List.mem_of_getElem? (List.getElem?_zip_eq_some.mpr ⟨stands, standsResult⟩), holds⟩

/-- What holds of all related members holds of each. -/
theorem forall_mem_of_forall₂ {property : α → Prop} {members : List α} {results : List β}
    (all : List.Forall₂ (fun member _ => property member) members results) :
    ∀ member ∈ members, property member := by
  intro member inside
  obtain ⟨_, -, holds⟩ := exists_mem_zip_of_forall₂ all inside
  exact holds

/-- A property that passes from related members to their results passes from all members to all
results. -/
theorem forall_mem_results {source : α → Prop} {property : β → Prop} {members : List α}
    {results : List β} (holds : ∀ member ∈ members, source member)
    (each : List.Forall₂ (fun member result => source member → property result) members results) :
    ∀ result ∈ results, property result :=
  forall_mem_of_forall₂ (forall₂_of_forall_mem holds each).flip

/-- A property that results share with the members they come from. -/
theorem exists_mem_iff_of_mapM {f : α → Option β} {members : List α} {results : List β}
    {before : α → Prop} {after : β → Prop} (mapped : members.mapM f = some results)
    (shared : ∀ member ∈ members, ∀ result, f member = some result →
      (after result ↔ before member)) :
    (∃ result ∈ results, after result) ↔ ∃ member ∈ members, before member := by
  constructor
  · rintro ⟨result, present, holds⟩
    obtain ⟨member, inside, found⟩ := exists_of_mem_mapM mapped present
    exact ⟨member, inside, (shared member inside result found).mp holds⟩
  · rintro ⟨member, inside, holds⟩
    obtain ⟨result, paired, found⟩ :=
      exists_mem_zip_of_forall₂ (mapM_eq_some_iff.mp mapped) inside
    exact ⟨result, (List.of_mem_zip paired).2, (shared member inside result found).mpr holds⟩

/-- A relation between the results of any two members. -/
theorem pairwise_of_mapM {f : α → Option β} {members : List α} {results : List β}
    {related : β → β → Prop} (mapped : members.mapM f = some results)
    (relates : members.Pairwise fun left right => ∀ first second, f left = some first →
      f right = some second → related first second) : results.Pairwise related := by
  induction members generalizing results with
  | nil =>
    cases mapped
    exact .nil
  | cons member rest ih =>
    obtain ⟨first, others, found, tail, rfl⟩ := mapM_cons_eq_some mapped
    obtain ⟨relatesFirst, later⟩ := List.pairwise_cons.mp relates
    refine List.pairwise_cons.mpr ⟨fun second present => ?_, ih tail later⟩
    obtain ⟨other, inside, found'⟩ := exists_of_mem_mapM tail present
    exact relatesFirst other inside first second found found'

/-- A lookup in a list of mapped values maps what is found. -/
theorem lookup_map_snd {K V W : Type*} [BEq K] (f : V → W) (values : List (K × V)) (key : K) :
    (values.map fun (key, value) => (key, f value)).lookup key = (values.lookup key).map f := by
  induction values with
  | nil => rfl
  | cons first rest ih =>
    rw [List.map_cons, List.lookup_cons, List.lookup_cons, ih]
    split <;> rfl

end FiniteVolume
