import FiniteVolume.Expr.Text
import FiniteVolume.Proofs.PartialMap

/-!
# Outcomes

A computation that may be rejected has an answer exactly when every step of it has one.
-/

namespace FiniteVolume.Outcome

variable {α β γ : Type}

/-- Two steps answer exactly when both do. -/
theorem bind_eq_ok_iff {outcome : Outcome α} {next : α → Outcome β} {answer : β} :
    outcome >>= next = .ok answer ↔ ∃ value, outcome = .ok value ∧ next value = .ok answer := by
  cases outcome with
  | error failure =>
    constructor
    · intro answered
      cases answered
    · rintro ⟨_, same, -⟩
      cases same
  | ok value =>
    refine ⟨fun answered => ⟨value, rfl, answered⟩, ?_⟩
    rintro ⟨_, same, answered⟩
    cases same
    exact answered

/-- A computation fails in its first step or after it. -/
theorem bind_eq_error_iff {outcome : Outcome α} {next : α → Outcome β} {failure : Failure} :
    outcome >>= next = .error failure ↔
      outcome = .error failure ∨ ∃ value, outcome = .ok value ∧ next value = .error failure := by
  cases outcome with
  | error reason =>
    refine ⟨fun fails => Or.inl (congrArg Except.error (Except.error.inj fails)), ?_⟩
    rintro (same | ⟨_, same, -⟩)
    · cases same
      rfl
    · cases same
  | ok value =>
    refine ⟨fun fails => Or.inr ⟨value, rfl, fails⟩, ?_⟩
    rintro (same | ⟨_, same, fails⟩)
    · cases same
    · cases same
      exact fails

theorem ok_bind (value : α) (next : α → Outcome β) : Except.ok value >>= next = next value := rfl

theorem error_bind (failure : Failure) (next : α → Outcome β) :
    Except.error failure >>= next = .error failure :=
  rfl

/-- A computation over exponents answers exactly when they stay in range. -/
theorem ofPower?_eq_ok_iff {value? : Option α} {value : α} :
    ofPower? value? = .ok value ↔ value? = some value := by
  cases value? <;> simp [ofPower?]

theorem reject_ne_ok (error : Error) (answer : α) : reject error ≠ .ok answer :=
  fun same => nomatch same

/-- What is checked before a computation goes on holds if it has an answer. -/
theorem guard_eq_ok_iff {violated : Prop} [Decidable violated] {error : Error}
    {next : Unit → Outcome β} {answer : β} :
    (if violated then reject error >>= next else next ()) = .ok answer ↔
      ¬violated ∧ next () = .ok answer := by
  by_cases holds : violated
  · rw [if_pos holds]
    refine ⟨fun answered => ?_, fun both => absurd holds both.1⟩
    obtain ⟨_, rejected, -⟩ := bind_eq_ok_iff.mp answered
    exact absurd rejected (reject_ne_ok _ _)
  · rw [if_neg holds, and_iff_right holds]

theorem expr_reject_ne_ok (e : Expr) (reason : Unsupported) (answer : α) :
    e.reject reason ≠ .ok answer := by
  intro same
  obtain ⟨_, -, rejected⟩ := bind_eq_ok_iff.mp same
  exact reject_ne_ok _ _ rejected

/-- A computation that tests as answered has an answer. -/
theorem exists_of_isOk {outcome : Outcome α} (answered : outcome.isOk = true) :
    ∃ answer, outcome = .ok answer := by
  cases outcome with
  | error failure => cases answered
  | ok answer => exact ⟨answer, rfl⟩

/-- A lookup answers exactly when it finds something. -/
theorem ofLookup?_eq_ok_iff {value? : Option α} {value : α} :
    ofLookup? value? = .ok value ↔ value? = some value := by
  cases value? <;> simp [ofLookup?]

/-- A lookup fails by its range alone. -/
theorem ofLookup?_eq_error_iff {value? : Option α} {failure : Failure} :
    ofLookup? value? = .error failure ↔ value? = none ∧ failure = .indexRange := by
  cases value? <;> simp [ofLookup?, eq_comm]

/-- What is mapped answers exactly when the computation does. -/
theorem map_eq_ok_iff {outcome : Outcome α} {f : α → β} {answer : β} :
    outcome.map f = .ok answer ↔ ∃ value, outcome = .ok value ∧ f value = answer := by
  cases outcome <;> simp [Except.map]

/-- Answers for a whole list are answers for every member, in their order. -/
theorem mapM_eq_ok_iff {f : α → Outcome β} {members : List α} {results : List β} :
    members.mapM f = .ok results ↔
      List.Forall₂ (fun member result => f member = .ok result) members results := by
  induction members generalizing results with
  | nil =>
    rw [List.mapM_nil, List.forall₂_nil_left_iff]
    exact ⟨fun same => (Except.ok.inj same).symm, fun same => congrArg Except.ok same.symm⟩
  | cons member rest ih =>
    rw [List.mapM_cons, List.forall₂_cons_left_iff, bind_eq_ok_iff]
    constructor
    · rintro ⟨result, answered, mapped⟩
      obtain ⟨others, mappedRest, same⟩ := bind_eq_ok_iff.mp mapped
      cases same
      exact ⟨result, others, answered, ih.mp mappedRest, rfl⟩
    · rintro ⟨result, others, answered, related, rfl⟩
      exact ⟨result, answered, bind_eq_ok_iff.mpr ⟨others, ih.mpr related, rfl⟩⟩

/-- Steps over a list answer if each of them does. -/
theorem exists_mapM {f : α → Outcome β} {members : List α}
    (each : ∀ member ∈ members, ∃ result, f member = .ok result) :
    ∃ results, members.mapM f = .ok results := by
  induction members with
  | nil => exact ⟨[], rfl⟩
  | cons member rest ih =>
    obtain ⟨⟨first, answered⟩, later⟩ := List.forall_mem_cons.mp each
    obtain ⟨others, mapped⟩ := ih later
    exact ⟨first :: others, mapM_eq_ok_iff.mpr (.cons answered (mapM_eq_ok_iff.mp mapped))⟩

/-- A computation that has answers for a list has one for every member. -/
theorem exists_of_mapM {f : α → Outcome β} {members : List α} {results : List β}
    (mapped : members.mapM f = .ok results) {member : α} (inside : member ∈ members) :
    ∃ result, f member = .ok result := by
  obtain ⟨result, -, answered⟩ := exists_mem_zip_of_forall₂ (mapM_eq_ok_iff.mp mapped) inside
  exact ⟨result, answered⟩

/-- The answers of a computation for the members of a list are those for its members. -/
theorem mem_iff_of_mapM {f : α → Outcome β} {members : List α} {results : List β}
    (mapped : members.mapM f = .ok results) {result : β} :
    result ∈ results ↔ ∃ member ∈ members, f member = .ok result := by
  rw [mapM_eq_ok_iff] at mapped
  induction mapped with
  | nil => simp
  | cons first _ ih => simp [ih, first, eq_comm]

/-- What a loop answers has a property that its steps keep. -/
theorem property_of_foldlM (property : β → Prop) {step : β → α → Outcome β} {members : List α}
    {start result : β} (looped : members.foldlM step start = .ok result) (holds : property start)
    (each : ∀ member ∈ members, ∀ state next, property state → step state member = .ok next →
      property next) : property result := by
  induction members generalizing start with
  | nil =>
    cases looped
    exact holds
  | cons member rest ih =>
    obtain ⟨next, answered, looped⟩ := bind_eq_ok_iff.mp looped
    obtain ⟨first, later⟩ := List.forall_mem_cons.mp each
    exact ih looped (first start next holds answered) later

/-- A loop has an answer with a property that its steps keep. -/
theorem exists_foldlM {property : β → Prop} {step : β → α → Outcome β} {members : List α}
    {start : β} (each : ∀ member ∈ members, ∀ state, property state →
      ∃ next, step state member = .ok next ∧ property next) (holds : property start) :
    ∃ result, members.foldlM step start = .ok result ∧ property result := by
  induction members generalizing start with
  | nil => exact ⟨start, rfl, holds⟩
  | cons member rest ih =>
    obtain ⟨first, later⟩ := List.forall_mem_cons.mp each
    obtain ⟨next, answered, holdsNext⟩ := first start holds
    rw [List.foldlM_cons, answered]
    exact ih later holdsNext

/-- A computation whose answers come with related ones of another. -/
theorem exists_related_mapM {f : α → Outcome β} {g : α → Outcome γ} {related : β → γ → Prop}
    (each : ∀ member result, f member = .ok result →
      ∃ other, g member = .ok other ∧ related result other)
    {members : List α} {results : List β} (mapped : members.mapM f = .ok results) :
    ∃ others, members.mapM g = .ok others ∧ List.Forall₂ related results others := by
  simp only [mapM_eq_ok_iff] at mapped ⊢
  induction mapped with
  | nil => exact ⟨[], .nil, .nil⟩
  | cons first _ ih =>
    obtain ⟨other, answered, relates⟩ := each _ _ first
    obtain ⟨others, mapped, relatesRest⟩ := ih
    exact ⟨other :: others, .cons answered mapped, .cons relates relatesRest⟩

/-- A computation with an answer for the member at every position has answers for the list. -/
theorem exists_mapM_eq_ok {f : α → Outcome β} {members : List α} {property : Nat → β → Prop}
    (each : ∀ position member, members[position]? = some member →
      ∃ result, f member = .ok result ∧ property position result) :
    ∃ results, members.mapM f = .ok results ∧
      ∀ position result, results[position]? = some result → property position result := by
  induction members generalizing property with
  | nil => exact ⟨[], rfl, fun _ _ stands => nomatch stands⟩
  | cons member rest ih =>
    obtain ⟨first, answered, holds⟩ := each 0 member rfl
    obtain ⟨others, mapped, later⟩ :=
      ih fun position other stands => each (position + 1) other stands
    refine ⟨first :: others, mapM_eq_ok_iff.mpr (.cons answered (mapM_eq_ok_iff.mp mapped)), ?_⟩
    intro position result stands
    cases position with
    | zero =>
      cases stands
      exact holds
    | succ position => exact later position result stands

/-- A computation has an answer with a property or is rejected, and it looks up what does not exist
only if there is a cause. -/
inductive Propagates (property : α → Prop) (cause : Prop) : Outcome α → Prop where
  | answered {answer : α} (holds : property answer) : Propagates property cause (.ok answer)
  | rejected (error : Error) : Propagates property cause (reject error)
  | missing (caused : cause) : Propagates property cause (.error .indexRange)

namespace Propagates

variable {property : α → Prop} {property' : β → Prop} {cause : Prop} {outcome : Outcome α}

/-- An answer has the property. -/
theorem holds {answer : α} (propagates : Propagates property cause outcome)
    (answered : outcome = .ok answer) : property answer := by
  cases propagates with
  | answered holds =>
    cases answered
    exact holds
  | rejected => exact absurd answered (reject_ne_ok _ _)
  | missing => cases answered

/-- The only failure besides an error has the cause. -/
theorem failure_cases {failure : Failure} (propagates : Propagates property cause outcome)
    (fails : outcome = .error failure) :
    (∃ error, failure = .rejected error) ∨ failure = .indexRange ∧ cause := by
  cases propagates with
  | answered => cases fails
  | rejected error =>
    cases fails
    exact Or.inl ⟨error, rfl⟩
  | missing caused =>
    cases fails
    exact Or.inr ⟨rfl, caused⟩

/-- What propagates may be weakened. -/
theorem imp {weaker : α → Prop} {cause' : Prop} (propagates : Propagates property cause outcome)
    (weaken : ∀ answer, property answer → weaker answer) (causes : cause → cause') :
    Propagates weaker cause' outcome := by
  cases propagates with
  | answered holds => exact .answered (weaken _ holds)
  | rejected error => exact .rejected error
  | missing caused => exact .missing (causes caused)

/-- The answer is the one that the computation gives. -/
theorem answers (propagates : Propagates property cause outcome) :
    Propagates (fun answer => outcome = .ok answer ∧ property answer) cause outcome := by
  cases propagates with
  | answered holds => exact .answered ⟨rfl, holds⟩
  | rejected error => exact .rejected error
  | missing caused => exact .missing caused

/-- A lookup fails only for the cause of missing entries. -/
theorem ofLookup? {value? : Option α} (causes : value? = none → cause) :
    Propagates (fun value => value? = some value) cause (ofLookup? value?) := by
  cases value? with
  | none => exact .missing (causes rfl)
  | some value => exact .answered rfl

/-- Two steps propagate a cause if each of them does. -/
theorem bind {next : α → Outcome β} (propagates : Propagates property cause outcome)
    (continues : ∀ answer, property answer → Propagates property' cause (next answer)) :
    Propagates property' cause (outcome >>= next) := by
  cases propagates with
  | answered holds => exact continues _ holds
  | rejected error => exact .rejected error
  | missing caused => exact .missing caused

/-- Steps over a list propagate a cause if each of them does. -/
theorem mapM {f : β → Outcome α} {members : List β}
    (each : ∀ member ∈ members, Propagates property cause (f member)) :
    Propagates (fun results => ∀ result ∈ results, property result) cause (members.mapM f) := by
  induction members with
  | nil => exact .answered fun _ member => nomatch member
  | cons member rest ih =>
    obtain ⟨first, later⟩ := List.forall_mem_cons.mp each
    rw [List.mapM_cons]
    exact first.bind fun result holds => (ih later).bind fun results all =>
      .answered (List.forall_mem_cons.mpr ⟨holds, all⟩)

/-- A loop propagates a cause if each of its steps does. -/
theorem foldlM {step : α → β → Outcome α} {members : List β} {start : α} (holds : property start)
    (each : ∀ member ∈ members, ∀ state, property state →
      Propagates property cause (step state member)) :
    Propagates property cause (members.foldlM step start) := by
  induction members generalizing start with
  | nil => exact .answered holds
  | cons member rest ih =>
    obtain ⟨first, later⟩ := List.forall_mem_cons.mp each
    rw [List.foldlM_cons]
    exact (first start holds).bind fun state holds => ih holds later

end Propagates

end FiniteVolume.Outcome
