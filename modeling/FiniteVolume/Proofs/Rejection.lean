import FiniteVolume.Proofs.Outcome

/-!
# Kinds of rejections

A computation that has no answer says why. All its reasons are of one kind if those of its steps
are, apart from exponents that leave their range (`Outcome.ErrorsAre`).
-/

namespace FiniteVolume

/-- The error is a construct that is not supported. -/
def Error.IsUnsupported : Error → Prop
  | .unsupported _ _ => True
  | _ => False

/-- The error is a nonlinear rest. -/
def Error.IsNonLinear : Error → Prop
  | .nonLinear _ _ => True
  | _ => False

/-- A rejection with an error of one kind, unless an exponent left its range. -/
def Failure.Is (kind : Error → Prop) : Failure → Prop
  | .rejected error => kind error
  | .exponentRange => True
  | .indexRange => False

namespace Outcome

variable {α β : Type} {kind : Error → Prop} {outcome : Outcome α}

/-- All errors of a computation are of one kind. -/
def ErrorsAre (kind : Error → Prop) (outcome : Outcome α) : Prop :=
  ∀ failure, outcome = .error failure → failure.Is kind

/-- A computation has no answer, and all its errors are of one kind. -/
structure RejectsAs (kind : Error → Prop) (outcome : Outcome α) : Prop where
  unanswered : ∀ answer, outcome ≠ .ok answer
  errors : outcome.ErrorsAre kind

/-- There is an error, unless an exponent left its range. -/
theorem RejectsAs.exists_error (rejects : outcome.RejectsAs kind)
    (inRange : outcome ≠ .error .exponentRange) :
    ∃ error, outcome = reject error ∧ kind error := by
  cases outcome with
  | ok answer => exact absurd rfl (rejects.unanswered answer)
  | error failure =>
    have holds := rejects.errors failure rfl
    cases failure with
    | rejected error => exact ⟨error, rfl, holds⟩
    | exponentRange => exact absurd rfl inRange
    | indexRange => exact holds.elim

/-- An answer is no error. -/
theorem errorsAre_ok (answer : α) : ErrorsAre kind (.ok answer) :=
  fun _ same => nomatch same

/-- A rejection is of the kind of its error. -/
theorem errorsAre_reject_of {error : Error} (isKind : kind error) :
    (reject error : Outcome α).ErrorsAre kind := by
  intro failure same
  cases same
  exact isKind

/-- An overflow is no rejection. -/
theorem errorsAre_ofPower? (value? : Option α) : (ofPower? value?).ErrorsAre kind := by
  intro failure same
  cases value? <;> cases same
  trivial

/-- A kind of error may be widened. -/
theorem ErrorsAre.imp {kind' : Error → Prop} (errors : outcome.ErrorsAre kind)
    (weaken : ∀ error, kind error → kind' error) : outcome.ErrorsAre kind' := by
  intro failure fails
  have holds := errors failure fails
  cases failure with
  | rejected error => exact weaken error holds
  | exponentRange | indexRange => exact holds

/-- Two steps reject by errors of a kind if each of them does. -/
theorem ErrorsAre.bind {next : α → Outcome β} (errors : outcome.ErrorsAre kind)
    (continues : ∀ answer, outcome = .ok answer → (next answer).ErrorsAre kind) :
    (outcome >>= next).ErrorsAre kind := by
  intro failure same
  obtain fails | ⟨answer, answered, fails⟩ := bind_eq_error_iff.mp same
  · exact errors failure fails
  · exact continues answer answered failure fails

/-- Steps over a list reject by errors of a kind if each of them does. -/
theorem errorsAre_mapM {f : α → Outcome β} {members : List α}
    (each : ∀ member ∈ members, (f member).ErrorsAre kind) :
    (members.mapM f).ErrorsAre kind := by
  induction members with
  | nil => exact errorsAre_ok _
  | cons member rest ih =>
    obtain ⟨first, later⟩ := List.forall_mem_cons.mp each
    rw [List.mapM_cons]
    exact first.bind fun _ _ => (ih later).bind fun _ _ => errorsAre_ok _

/-- What is rejected stays rejected, whatever would follow. -/
theorem RejectsAs.bind {next : α → Outcome β} (rejects : outcome.RejectsAs kind) :
    (outcome >>= next).RejectsAs kind where
  unanswered answer same := by
    obtain ⟨value, answered, -⟩ := bind_eq_ok_iff.mp same
    exact rejects.unanswered value answered
  errors := rejects.errors.bind fun value answered => absurd answered (rejects.unanswered value)

/-- Two steps are rejected if the first one fails by a kind of error only and the second one is
rejected. -/
theorem ErrorsAre.rejects {next : α → Outcome β} (errors : outcome.ErrorsAre kind)
    (continues : ∀ answer, outcome = .ok answer → (next answer).RejectsAs kind) :
    (outcome >>= next).RejectsAs kind where
  unanswered answer same := by
    obtain ⟨value, answered, same⟩ := bind_eq_ok_iff.mp same
    exact (continues value answered).unanswered answer same
  errors := errors.bind fun value answered => (continues value answered).errors

/-- Rejecting a tree is a rejection as unsupported. -/
theorem rejectsAs_reject (e : Expr) (reason : Unsupported) :
    (e.reject reason : Outcome α).RejectsAs Error.IsUnsupported :=
  (errorsAre_ofPower? _).rejects fun _ _ =>
    ⟨reject_ne_ok _, fun failure same => by cases same; trivial⟩

end Outcome

end FiniteVolume
