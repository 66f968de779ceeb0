import FiniteVolume.Proofs.Expr.Derivative
import FiniteVolume.Proofs.Expr.Recursion

/-!
# Names in an expression

The names of an expression are those of its symbols and the heads of its calls. Expansion brings no
name in (`inherited_mentionsOnly`). Differentiation brings no symbol in, but functions that are
derivatives of those in the expression (`differentiated_mentionsOnly`).
-/

namespace FiniteVolume.Expr

variable {symbols symbols' : String → Prop} {heads heads' : Head → Prop} {e result : Expr}

/-- A node that is no symbol and no call of a name that is not allowed. -/
def AllowedNode (symbols : String → Prop) (heads : Head → Prop) : Expr → Prop
  | .sym name => symbols name
  | .call head _ => heads head
  | _ => True

/-- A tree in which only allowed names occur. -/
def MentionsOnly (symbols : String → Prop) (heads : Head → Prop) (e : Expr) : Prop :=
  ∀ subterm ∈ e.subterms, AllowedNode symbols heads subterm

/-- What a tree mentions is asked of the tree itself and of its children. -/
theorem mentionsOnly_iff :
    e.MentionsOnly symbols heads ↔
      AllowedNode symbols heads e ∧ ∀ arg ∈ e.args, arg.MentionsOnly symbols heads :=
  forall_subterms_iff (AllowedNode symbols heads)

/-- A symbol that is allowed mentions nothing else. -/
theorem mentionsOnly_sym {name : String} (allowed : symbols name) :
    (Expr.sym name).MentionsOnly symbols heads :=
  mentionsOnly_iff.mpr ⟨allowed, fun _ member => nomatch member⟩

/-- The symbols in a tree are among those it mentions. -/
theorem MentionsOnly.symbol (mentions : e.MentionsOnly symbols heads) {name : String}
    (occurs : .sym name ∈ e.subterms) : symbols name :=
  mentions _ occurs

/-- The heads in a tree are among those it mentions. -/
theorem MentionsOnly.head (mentions : e.MentionsOnly symbols heads) {head : Head}
    {args : List Expr} (occurs : .call head args ∈ e.subterms) : heads head :=
  mentions _ occurs

/-- The calls of a head in a tree. -/
def Calls (e : Expr) (head : Head) : Prop := ∃ args, .call head args ∈ e.subterms

/-- A tree mentions its own symbols and heads only. -/
theorem mentionsOnly_self (e : Expr) :
    e.MentionsOnly (fun name => .sym name ∈ e.subterms) e.Calls := by
  intro subterm member
  cases subterm with
  | sym name => exact member
  | call head args => exact ⟨args, member⟩
  | _ => trivial

/-- A tree mentions nothing outside wider sets of symbols and heads. -/
theorem MentionsOnly.mono (mentions : e.MentionsOnly symbols heads)
    (widerSymbols : ∀ name, symbols name → symbols' name)
    (widerHeads : ∀ head, heads head → heads' head) : e.MentionsOnly symbols' heads' := by
  intro subterm member
  have allowed := mentions subterm member
  cases subterm with
  | sym name => exact widerSymbols name allowed
  | call head args => exact widerHeads head allowed
  | _ => trivial

/-- The search for a call finds none exactly when the tree does not call the function. -/
theorem findCall?_eq_none_iff {name : String} :
    e.findCall? name = none ↔ ¬e.Calls (.named name) := by
  rw [findCall?, List.find?_eq_none]
  constructor
  · rintro absent ⟨args, member⟩
    exact absent _ member (by simp [isCallOf])
  · intro absent subterm member isCall
    cases subterm with
    | call head args =>
      cases head with
      | named called =>
        cases (show called = name by simpa [isCallOf] using isCall)
        exact absent ⟨args, member⟩
      | _ => cases isCall
    | _ => cases isCall

/-- Without calls of a function its name is not mentioned. -/
theorem MentionsOnly.without {name : String} (mentions : e.MentionsOnly symbols heads)
    (absent : e.findCall? name = none) :
    e.MentionsOnly symbols fun head => heads head ∧ head ≠ .named name := by
  intro subterm member
  have allowed := mentions subterm member
  cases subterm with
  | call head args =>
    refine ⟨allowed, ?_⟩
    rintro rfl
    exact findCall?_eq_none_iff.mp absent ⟨args, member⟩
  | _ => exact allowed

/-- What a tree mentions is inherited by its parts and its rearrangements. -/
theorem inherited_mentionsOnly (symbols : String → Prop) (heads : Head → Prop) :
    Inherited (MentionsOnly symbols heads) where
  toHereditary := .ofNodes _ (fun _ => trivial) (fun _ => trivial) (fun _ => trivial)
    fun _ _ => trivial
  arg _ mentions := (mentionsOnly_iff.mp mentions).2
  vector _ mentions := mentionsOnly_iff.mpr ⟨trivial, mentions⟩
  call _ _ _ before _ mentions := mentionsOnly_iff.mpr ⟨(mentionsOnly_iff.mp before).1, mentions⟩

/-- The heads of a derivative: those of the expression, and the functions that differentiation
brings in for them. -/
def DerivedHead (heads : Head → Prop) (head : Head) : Prop :=
  heads head ∨ ∃ outer function, heads outer ∧ head = .named function ∧
    InDerivative outer.name function

/-- A derivative has no symbols but those of the expression. -/
theorem differentiated_mentionsOnly (symbols : String → Prop) (heads : Head → Prop)
    (name : String) :
    Differentiated name (MentionsOnly symbols heads) (MentionsOnly symbols (DerivedHead heads))
      fun _ => True where
  toPowered := (inherited_mentionsOnly symbols (DerivedHead heads)).powered
  arg := (inherited_mentionsOnly symbols heads).arg
  keep _ mentions := mentions.mono (fun _ => id) fun _ => Or.inl
  vector := (inherited_mentionsOnly symbols (DerivedHead heads)).vector
  base _ _ _ _ _ := trivial
  pointwise function arg derivative mentions _ formed := by
    obtain ⟨called, parts⟩ := mentionsOnly_iff.mp mentions
    have keepsArg : arg.MentionsOnly symbols (DerivedHead heads) :=
      (parts arg List.mem_cons_self).mono (fun _ => id) fun _ => Or.inl
    refine (inherited_mentionsOnly symbols (DerivedHead heads)).powered.pointwise formed keepsArg
      (fun known applied => ?_) trivial fun _ => trivial
    exact mentionsOnly_iff.mpr ⟨Or.inr ⟨_, _, called, rfl, .known rfl applied⟩,
      List.forall_mem_singleton.mpr keepsArg⟩
  apply head args function mentions _ derived := by
    obtain ⟨called, parts⟩ := mentionsOnly_iff.mp mentions
    exact mentionsOnly_iff.mpr ⟨Or.inr ⟨head, function, called, rfl, derived⟩,
      fun arg member => (parts arg member).mono (fun _ => id) fun _ => Or.inl⟩
  gradient args derivatives mentions derivative :=
    mentionsOnly_iff.mpr ⟨Or.inl (mentionsOnly_iff.mp mentions).1, derivative⟩
  dot left right left' right' mentions _ _ derivative derivative' := by
    obtain ⟨called, parts⟩ := mentionsOnly_iff.mp mentions
    have keeps : ∀ operand ∈ [left, right], operand.MentionsOnly symbols (DerivedHead heads) :=
      fun operand member => (parts operand member).mono (fun _ => id) fun _ => Or.inl
    have calls : ∀ operands,
        (∀ operand ∈ operands, MentionsOnly symbols (DerivedHead heads) operand) →
        (Expr.call .dot operands).MentionsOnly symbols (DerivedHead heads) :=
      fun operands mention => mentionsOnly_iff.mpr ⟨Or.inl called, mention⟩
    exact ⟨calls _ (forall_mem_pair ⟨derivative, keeps right (by simp)⟩),
      calls _ (forall_mem_pair ⟨keeps left (by simp), derivative'⟩)⟩

end FiniteVolume.Expr
