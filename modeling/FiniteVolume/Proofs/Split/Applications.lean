import FiniteVolume.Proofs.Canonical.Completeness
import FiniteVolume.Proofs.Expr.Mentions
import FiniteVolume.Proofs.Split.ConstantPart

/-!
# Functions in coefficients

The derivative of an expression may call functions that the expression does not call, but only on
arguments that hold the unknown. Where nothing is left to multiply out, expansion keeps these
arguments, so none of the calls is in a part without the unknown (`findCall?_coefficient`).
-/

namespace FiniteVolume.Expr

variable {function : String} {unknowns : List String} {e result : Expr}

/-- A node that calls the function only on arguments that expansion keeps, with an unknown in one of
them. -/
def StaysNode (function : String) (unknowns : List String) : Expr → Prop
  | .call head args => head = .named function → (∀ arg ∈ args, arg.expand = some arg) ∧
      ∃ unknown ∈ unknowns, (Expr.call head args).hasSymbol unknown = true
  | _ => True

/-- A tree in which all calls of the function stay, however often it is expanded. -/
def CallsStay (function : String) (unknowns : List String) (e : Expr) : Prop :=
  ∀ subterm ∈ e.subterms, StaysNode function unknowns subterm

/-- Calls stay in a tree if they stay at its root and in its children. -/
theorem callsStay_iff :
    e.CallsStay function unknowns ↔
      StaysNode function unknowns e ∧ ∀ arg ∈ e.args, arg.CallsStay function unknowns :=
  forall_subterms_iff (StaysNode function unknowns)

/-- Sums, products and powers move no calls. -/
theorem hereditary_callsStay (function : String) (unknowns : List String) :
    Hereditary (CallsStay function unknowns) fun _ => True :=
  .ofNodes _ (fun _ => trivial) (fun _ => trivial) (fun _ => trivial) fun _ _ => trivial

/-- Calls stay in a tree that does not call the function. -/
theorem callsStay_of_uncalled (uncalled : ¬e.Calls (.named function)) :
    e.CallsStay function unknowns := by
  intro subterm member
  cases subterm with
  | call head args =>
    rintro rfl
    exact absurd ⟨args, member⟩ uncalled
  | _ => trivial

/-- Calls of other functions stay if the calls in their arguments do. -/
theorem callsStay_call {head : Head} {args : List Expr} (other : head ≠ .named function)
    (stay : ∀ arg ∈ args, arg.CallsStay function unknowns) :
    (Expr.call head args).CallsStay function unknowns :=
  callsStay_iff.mpr ⟨fun same => absurd same other, stay⟩

/-- Expansion does not reach into calls that stay. -/
theorem CallsStay.expand (stay : e.CallsStay function unknowns)
    (expands : e.expand = some result) : result.CallsStay function unknowns := by
  have hereditary := hereditary_callsStay function unknowns
  have args : ∀ {e : Expr}, e.CallsStay function unknowns →
      ∀ arg ∈ e.args, arg.CallsStay function unknowns := fun stay => (callsStay_iff.mp stay).2
  refine expand_induction (motive := fun e result =>
      e.CallsStay function unknowns → result.CallsStay function unknowns)
    (fun _ stay => stay) (fun _ stay => stay) ?add ?mul ?powSum ?pow ?vector ?dot ?call expands stay
  case add =>
    intro terms results each stay
    exact hereditary.sum (forall_mem_results (args stay) each)
  case mul =>
    intro factors results result each distributed stay
    exact hereditary.distributeFrom distributed (hereditary.num 1)
      (forall_mem_results (args stay) each)
  case powSum =>
    intro base terms exponent result stays _ multiplied stay
    exact hereditary.distributeRepeatedly multiplied (hereditary.num 1)
      (stays (args stay base (List.mem_singleton_self base)))
  case pow =>
    intro base exponent inner result _ stays _ powered stay
    exact hereditary.power powered (stays (args stay base (List.mem_singleton_self base)))
      fun _ => trivial
  case vector =>
    intro components results each stay
    exact callsStay_iff.mpr ⟨trivial, forall_mem_results (args stay) each⟩
  case dot =>
    intro left right product result _ written stays stay
    have stayLeft : (Expr.vector left).CallsStay function unknowns :=
      args stay _ List.mem_cons_self
    have stayRight : (Expr.vector right).CallsStay function unknowns :=
      args stay _ (List.mem_cons_of_mem _ List.mem_cons_self)
    exact stays (hereditary.innerProduct written (args stayLeft) (args stayRight))
  case call =>
    intro head es results _ expanded each stay
    by_cases isCall : head = .named function
    · -- the arguments are the ones that expansion keeps
      have kept : es.mapM Expr.expand = some es :=
        (mapM_eq_some_map ((callsStay_iff.mp stay).1 isCall).1).trans
          (congrArg some (List.map_id es))
      cases kept.symm.trans expanded
      exact stay
    · exact callsStay_call isCall (forall_mem_results (args stay) each)

/-- Calls stay when the terms with symbols are left out. -/
theorem CallsStay.constantPartOfAll {names : List String} (stay : e.CallsStay function unknowns)
    (formed : e.constantPartOfAll names = some result) : result.CallsStay function unknowns :=
  (hereditary_callsStay function unknowns).closed.constantPartOfAll
    (fun expands stay => stay.expand expands) formed stay

/-- Calls that stay are seen by the unknowns in them. -/
theorem CallsStay.findCall?_eq_none (stay : e.CallsStay function unknowns)
    (lacks : ∀ unknown ∈ unknowns, e.hasSymbol unknown = false) : e.findCall? function = none := by
  refine findCall?_eq_none_iff.mpr ?_
  rintro ⟨args, member⟩
  obtain ⟨-, unknown, isUnknown, occurs⟩ := stay _ member rfl
  have inside := mem_subterms_trans member (hasSymbol_iff_mem.mp occurs)
  exact hasSymbol_eq_false_iff_not_mem.mp (lacks unknown isUnknown) inside

/-- A call of any function stays if its arguments are distributed and one of them holds an
unknown. -/
theorem callsStay_apply {name unknown : String} {args : List Expr} (isUnknown : unknown ∈ unknowns)
    (parts : ∀ arg ∈ args, arg.Distributed ∧ ¬arg.Calls (.named function))
    (occurs : ∃ arg ∈ args, arg.hasSymbol unknown = true) :
    (Expr.apply name args).CallsStay function unknowns :=
  callsStay_iff.mpr ⟨fun _ => ⟨fun arg member => (parts arg member).1.expand_eq_self, unknown,
    isUnknown, hasSymbol_iff.mpr (Or.inr occurs)⟩,
    fun arg member => callsStay_of_uncalled (parts arg member).2⟩

/-- Differentiation only brings in calls on arguments that hold the unknown. -/
theorem differentiated_callsStay {unknown : String} (isUnknown : unknown ∈ unknowns) :
    Differentiated unknown (fun e => e.Distributed ∧ ¬e.Calls (.named function))
      (CallsStay function unknowns) fun _ => True := by
  have parts : ∀ e : Expr, e.Distributed ∧ ¬e.Calls (.named function) →
      ∀ arg ∈ e.args, arg.Distributed ∧ ¬arg.Calls (.named function) :=
    fun e holds arg member => ⟨holds.1.arg member, fun ⟨args, inside⟩ =>
      holds.2 ⟨args, mem_subterms_of_arg member inside⟩⟩
  have hereditary := hereditary_callsStay function unknowns
  exact {
    hereditary.powered with
    arg := parts
    keep := fun e holds => callsStay_of_uncalled holds.2
    vector := fun _ stay => callsStay_iff.mpr ⟨trivial, stay⟩
    base := fun _ _ _ _ _ => trivial
    pointwise := fun known arg derivative holds occurs formed => by
      have partsArg := parts _ holds
      refine hereditary.powered.pointwise formed
        (callsStay_of_uncalled (partsArg arg List.mem_cons_self).2) (fun applied _ => ?_) trivial
        fun _ => trivial
      exact callsStay_apply isUnknown partsArg ⟨arg, List.mem_cons_self, occurs⟩
    apply := fun head args derived holds occurs _ => by
      obtain same | inArgs := hasSymbol_iff.mp occurs
      · cases same
      · exact callsStay_apply isUnknown (parts _ holds) inArgs
    gradient := fun _ _ _ stay => callsStay_call (by simp) stay
    dot := fun left right left' right' holds _ _ stay stay' => by
      have partsOperands := parts _ holds
      exact ⟨callsStay_call (by simp) (forall_mem_pair
          ⟨stay, callsStay_of_uncalled (partsOperands right (by simp [args])).2⟩),
        callsStay_call (by simp) (forall_mem_pair
          ⟨callsStay_of_uncalled (partsOperands left (by simp [args])).2, stay'⟩)⟩ }

/-- If the expansion is complete, the coefficient of an unknown calls no function that the expansion
does not call. -/
theorem findCall?_coefficient {expanded derivative coefficient : Expr} {unknown : String}
    (distributed : expanded.Distributed) (uncalled : ¬expanded.Calls (.named function))
    (isUnknown : unknown ∈ unknowns) (differentiates : expanded.diff unknown = some derivative)
    (formed : derivative.constantPartOfAll unknowns = some coefficient) :
    coefficient.findCall? function = none := by
  have stay := (differentiated_callsStay isUnknown).diff expanded derivative differentiates
    ⟨distributed, uncalled⟩
  exact (stay.constantPartOfAll formed).findCall?_eq_none (hasSymbol_constantPartOfAll formed)

end FiniteVolume.Expr
