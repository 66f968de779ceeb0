import FiniteVolume.Proofs.Expr.Scalar
import FiniteVolume.Proofs.Value.Substitution

/-!
# Values of scalar expressions

The value of a scalar expression without samples depends on its symbols and its named calls only
(`Scalar.valueIn_congr`). Rules that replace symbols change the values of these symbols
(`carries_subst`).
-/

namespace FiniteVolume.Expr

variable {symbols : String → Prop} {samples : Head → List Expr → Prop}

variable {K : Type*}

/-- Two interpretations read the named calls of an expression in the same way, and it has no
samples. -/
structure Agree (samples : Head → List Expr → Prop) (left right : Interpretation K) (e : Expr) :
    Prop where
  calls : ∀ name args, .call (.named name) args ∈ e.subterms →
    left.call (.named name) = right.call (.named name)
  unsampled : ∀ head args, samples head args → .call head args ∉ e.subterms

/-- Interpretations that agree on an expression agree on its children. -/
theorem Agree.arg {left right : Interpretation K} {e arg : Expr}
    (agree : Agree samples left right e) (member : arg ∈ e.args) :
    Agree samples left right arg where
  calls name args inside := agree.calls name args (mem_subterms_of_arg member inside)
  unsampled head args isSample inside :=
    agree.unsampled head args isSample (mem_subterms_of_arg member inside)

/-- The same interpretation with new values of some symbols. -/
def Interpretation.bind (reading : Interpretation K) (values : List (String × K)) :
    Interpretation K :=
  { reading with symbol := fun name => (values.lookup name).getD (reading.symbol name) }

/-- A bound symbol has the value it is bound to, and other symbols stay. -/
theorem Interpretation.bind_symbol (reading : Interpretation K) (values : List (String × K))
    (name : String) :
    (reading.bind values).symbol name = (values.lookup name).getD (reading.symbol name) :=
  rfl

/-- A symbol that is not bound stays. -/
theorem Interpretation.bind_symbol_of_not_mem {reading : Interpretation K}
    {values : List (String × K)} {name : String} (absent : name ∉ values.map Prod.fst) :
    (reading.bind values).symbol name = reading.symbol name := by
  have unbound : values.lookup name = none := by
    rw [List.lookup_eq_none_iff]
    intro entry member
    simpa using fun same : name = entry.1 => absent (List.mem_map.mpr ⟨entry, member, same.symm⟩)
  rw [bind_symbol, unbound, Option.getD_none]

variable [Field K]

/-- Interpretations that agree on a scalar expression without samples give it the same value if they
give the same values to its symbols. -/
theorem Scalar.valueIn_congr {left right : Interpretation K} {e : Expr}
    (scalar : Scalar symbols samples e)
    (same : ∀ name, symbols name → left.symbol name = right.symbol name)
    (agree : Agree samples left right e) : e.valueIn left = e.valueIn right := by
  induction scalar with
  | num value => rw [valueIn_num, valueIn_num]
  | sym allowed => rw [valueIn_sym, valueIn_sym, same _ allowed]
  | add scalars ih =>
    rw [valueIn_add, valueIn_add]
    exact congrArg List.sum (List.map_congr_left fun term member =>
      ih term member (agree.arg member))
  | mul scalars ih =>
    rw [valueIn_mul, valueIn_mul]
    exact congrArg List.prod (List.map_congr_left fun factor member =>
      ih factor member (agree.arg member))
  | pow exponent scalar ih =>
    rw [valueIn_pow, valueIn_pow, ih (agree.arg (List.mem_singleton_self _))]
  | @dot leftOperand rightOperand sameLength scalarsLeft scalarsRight ihLeft ihRight =>
    have insideLeft :
        Expr.vector leftOperand ∈ [Expr.vector leftOperand, .vector rightOperand] := by
      simp
    have insideRight :
        Expr.vector rightOperand ∈ [Expr.vector leftOperand, .vector rightOperand] := by
      simp
    exact (valueIn_dot_congr sameLength
      (List.map_congr_left fun component member =>
        ihLeft component member ((agree.arg insideLeft).arg member))
      (List.map_congr_left fun component member =>
        ihRight component member ((agree.arg insideRight).arg member))).2
  | call name scalar ih =>
    rw [valueIn_call_of_ne (by simp), valueIn_call_of_ne (by simp), List.map_singleton,
      List.map_singleton, ih (agree.arg (List.mem_singleton_self _)),
      agree.calls name _ (self_mem_subterms _)]
  | sample isSample => exact absurd (self_mem_subterms _) (agree.unsampled _ _ isSample)

/-- With equal values, an expression without samples is defined at both interpretations or at
none. -/
theorem Scalar.defined_congr {left right : Interpretation K} {e : Expr}
    (scalar : Scalar symbols samples e)
    (same : ∀ name, symbols name → left.symbol name = right.symbol name)
    (agree : Agree samples left right e) (defined : e.Defined left) : e.Defined right := by
  induction scalar with
  | num value => exact (hereditary_defined right).num value
  | sym allowed => exact (sound_sym _).1
  | add scalars ih =>
    exact ((hereditary_defined right).add_iff _).mpr fun term member =>
      ih term member (agree.arg member) (defined.arg member)
  | mul scalars ih =>
    exact ((hereditary_defined right).mul_iff _).mpr fun factor member =>
      ih factor member (agree.arg member) (defined.arg member)
  | @pow base exponent scalar ih =>
    have agreeBase := agree.arg (List.mem_singleton_self base)
    obtain ⟨definedBase, nonzero⟩ := ((hereditary_defined left).pow_iff base exponent).mp defined
    refine ((hereditary_defined right).pow_iff base exponent).mpr ⟨ih agreeBase definedBase, ?_⟩
    rw [← scalar.valueIn_congr same agreeBase]
    exact nonzero
  | @dot leftOperand rightOperand sameLength scalarsLeft scalarsRight ihLeft ihRight =>
    refine negativeBases_iff.mpr ⟨fun _ _ => by simp, forall_mem_pair ⟨?_, ?_⟩⟩
    · have inside : Expr.vector leftOperand ∈ [Expr.vector leftOperand, .vector rightOperand] := by
        simp
      refine negativeBases_iff.mpr ⟨fun _ _ => by simp, fun component member => ?_⟩
      exact ihLeft component member ((agree.arg inside).arg member)
        ((defined.arg inside).arg member)
    · have inside : Expr.vector rightOperand ∈ [Expr.vector leftOperand, .vector rightOperand] := by
        simp
      refine negativeBases_iff.mpr ⟨fun _ _ => by simp, fun component member => ?_⟩
      exact ihRight component member ((agree.arg inside).arg member)
        ((defined.arg inside).arg member)
  | @call name arg scalar ih =>
    have inside := List.mem_singleton_self arg
    exact negativeBases_iff.mpr ⟨fun _ _ => by simp,
      List.forall_mem_singleton.mpr (ih (agree.arg inside) (defined.arg inside))⟩
  | sample isSample => exact absurd (self_mem_subterms _) (agree.unsampled _ _ isSample)

/-- A rule that replaces a symbol by an expression of a given value. -/
structure Binds (reading : Interpretation K) (entry : String × K) (rule : Rule) : Prop where
  key : rule.1 = .sym entry.1
  sound : rule.2.Sound reading
  value : rule.2.valueIn reading = entry.2

/-- The first rule that applies replaces. -/
theorem replacement?_cons (rule : Rule) (rules : List Rule) (e : Expr) :
    replacement? (rule :: rules) e = if rule.1 = e then some rule.2 else replacement? rules e := by
  unfold replacement?
  by_cases same : rule.1 = e <;> simp [same]

section Binds

variable {rules : List Rule} {values : List (String × K)} {after : Interpretation K}

/-- What rules for symbols replace is a symbol, and its replacement has the value it is bound to. -/
theorem lookup_of_replacement? (binds : List.Forall₂ (Binds after) values rules)
    {subterm new : Expr} (found : replacement? rules subterm = some new) :
    ∃ name, subterm = .sym name ∧ new.Sound after ∧
      values.lookup name = some (new.valueIn after) := by
  induction binds with
  | nil => cases found
  | @cons entry rule values rules bound _ ih =>
    rw [replacement?_cons] at found
    split at found
    · rename_i same
      cases found
      refine ⟨entry.1, same.symm.trans bound.key, bound.sound, ?_⟩
      rw [bound.value]
      exact List.lookup_cons_self
    · rename_i different
      obtain ⟨name, rfl, sound, value⟩ := ih found
      refine ⟨name, rfl, sound, ?_⟩
      have otherName : name ≠ entry.1 := by
        rintro rfl
        exact different bound.key
      rw [List.lookup_cons, beq_false_of_ne otherName]
      exact value

/-- What rules for symbols do not replace is not bound. -/
theorem lookup_eq_none_of_replacement? (binds : List.Forall₂ (Binds after) values rules)
    {name : String} (kept : replacement? rules (.sym name) = none) : values.lookup name = none := by
  induction binds with
  | nil => rfl
  | @cons entry rule values rules bound _ ih =>
    rw [replacement?_cons] at kept
    split at kept
    · cases kept
    · rename_i different
      have otherName : name ≠ entry.1 := by
        rintro rfl
        exact different bound.key
      rw [List.lookup_cons, beq_false_of_ne otherName]
      exact ih kept

/-- Before symbols are replaced, they have the values of their replacements. -/
theorem replaces_of_binds (binds : List.Forall₂ (Binds after) values rules) (e : Expr) :
    Replaces (replacement? rules) (after.bind values) after e where
  replaced subterm _ new found := by
    obtain ⟨name, rfl, sound, value⟩ := lookup_of_replacement? binds found
    refine ⟨sound, ?_⟩
    rw [valueIn_sym, Interpretation.bind_symbol, value, Option.getD_some]
  symbol name _ kept := by
    rw [Interpretation.bind_symbol, lookup_eq_none_of_replacement? binds kept, Option.getD_none]
  call _ _ _ _ _ := rfl
  vector := rfl
  vectors components := by
    refine Option.eq_none_iff_forall_ne_some.mpr fun new found => ?_
    obtain ⟨name, same, -⟩ := lookup_of_replacement? binds found
    cases same

/-- A substitution of symbols carries the value over from their new values. -/
theorem carries_subst [CharZero K] (binds : List.Forall₂ (Binds after) values rules)
    {e result : Expr} (sound : e.Sound (after.bind values)) (formed : e.subst rules = some result) :
    Carries (after.bind values) after e result :=
  carries_replaceWith formed sound (replaces_of_binds binds e)

end Binds

end FiniteVolume.Expr
