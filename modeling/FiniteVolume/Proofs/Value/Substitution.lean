import FiniteVolume.Proofs.Expr.Substitution
import FiniteVolume.Proofs.Value.Expansion

/-!
# Substitution and the value

A substitution changes the interpretation: after it, every replacement has the value that the tree
in its place had before, and whatever is not replaced is read as before (`Replaces`). Then the whole
expression keeps its value (`carries_replaceWith`). Normalization replaces nothing.
-/

namespace FiniteVolume.Expr

variable {K : Type*} [Field K]

/-- The replacements in an expression have after the substitution the values that the replaced trees
have before it, and nothing else is read in another way. No vector is replaced, so the operands of
inner products stay vectors. -/
structure Replaces (replacement? : Expr → Option Expr) (before after : Interpretation K)
    (e : Expr) : Prop where
  replaced : ∀ subterm ∈ e.subterms, ∀ replacement, replacement? subterm = some replacement →
    replacement.Sound after ∧ replacement.valueIn after = subterm.valueIn before
  symbol : ∀ name, .sym name ∈ e.subterms → replacement? (.sym name) = none →
    after.symbol name = before.symbol name
  call : ∀ head args, .call head args ∈ e.subterms → replacement? (.call head args) = none →
    head ≠ .dot → after.call head = before.call head
  vector : after.vector = before.vector
  vectors : ∀ components, replacement? (.vector components) = none

variable {replacement? : Expr → Option Expr} {before after : Interpretation K}

theorem Replaces.arg {e arg : Expr} (replaces : Replaces replacement? before after e)
    (member : arg ∈ e.args) : Replaces replacement? before after arg where
  replaced subterm inside := replaces.replaced subterm (mem_subterms_of_arg member inside)
  symbol name inside := replaces.symbol name (mem_subterms_of_arg member inside)
  call head args inside := replaces.call head args (mem_subterms_of_arg member inside)
  vector := replaces.vector
  vectors := replaces.vectors

/-- What a rebuilt expression has in common with the original. A vector is rebuilt component by
component. -/
structure Carries (before after : Interpretation K) (e result : Expr) : Prop where
  sound : result.Sound after
  value : result.valueIn after = e.valueIn before
  components : ∀ components, e = .vector components → ∃ rebuilt, result = .vector rebuilt ∧
    rebuilt.map (valueIn after) = components.map (valueIn before)

theorem sound_dot {left right : List Expr} (sameLength : left.length = right.length)
    (sound : ∀ e ∈ [Expr.vector left, .vector right], e.Sound after) :
    (Expr.call .dot [.vector left, .vector right]).Sound after :=
  ⟨negativeBases_iff.mpr ⟨fun _ _ => by simp, fun e member => (sound e member).1⟩,
    vectorDots_iff.mpr ⟨fun args same => ⟨left, right, by simp_all, sameLength⟩,
      fun e member => (sound e member).2⟩⟩

/-- Inner products have equal values if the components of their operands do. -/
theorem valueIn_dot_congr {left right left' right' : List Expr}
    (sameLength : left.length = right.length)
    (leftValues : left'.map (valueIn after) = left.map (valueIn before))
    (rightValues : right'.map (valueIn after) = right.map (valueIn before)) :
    left'.length = right'.length ∧
      (Expr.call .dot [.vector left', .vector right']).valueIn after =
        (Expr.call .dot [.vector left, .vector right]).valueIn before := by
  have leftLength := congrArg List.length leftValues
  have rightLength := congrArg List.length rightValues
  simp only [List.length_map] at leftLength rightLength
  have sameLength' : left'.length = right'.length := by omega
  refine ⟨sameLength', ?_⟩
  rw [valueIn_dot_zipWith sameLength', valueIn_dot_zipWith sameLength, leftValues, rightValues]

/-- An inner product is carried over if the vectors that it is taken of are. -/
theorem Carries.dot {left right : List Expr} {left' right' : Expr}
    (sameLength : left.length = right.length) (first : Carries before after (.vector left) left')
    (second : Carries before after (.vector right) right') :
    Carries before after (.call .dot [.vector left, .vector right])
      (.call .dot [left', right']) := by
  obtain ⟨rebuiltLeft, rfl, leftValues⟩ := first.components left rfl
  obtain ⟨rebuiltRight, rfl, rightValues⟩ := second.components right rfl
  obtain ⟨sameLength', value⟩ := valueIn_dot_congr sameLength leftValues rightValues
  exact ⟨sound_dot sameLength' (forall_mem_pair ⟨first.sound, second.sound⟩), value, by simp⟩

/-- Readings that agree on all parts of an expression give it the same value. -/
theorem carries_self {e : Expr} (sound : e.Sound before)
    (agrees : Replaces (fun _ => none) before after e) : Carries before after e e := by
  induction e with
  | num value =>
    exact ⟨(hereditary_sound after).num value, by rw [valueIn_num, valueIn_num], by simp⟩
  | sym name =>
    refine ⟨sound_sym name, ?_, by simp⟩
    rw [valueIn_sym, valueIn_sym, agrees.symbol name (self_mem_subterms _) rfl]
  | add terms ih =>
    have carries := fun term member => ih term member (sound.arg member) (agrees.arg member)
    refine ⟨((hereditary_sound after).add_iff terms).mpr fun term member =>
      (carries term member).sound, ?_, by simp⟩
    rw [valueIn_add, valueIn_add]
    exact congrArg List.sum (List.map_congr_left fun term member => (carries term member).value)
  | mul factors ih =>
    have carries := fun factor member => ih factor member (sound.arg member) (agrees.arg member)
    refine ⟨((hereditary_sound after).mul_iff factors).mpr fun factor member =>
      (carries factor member).sound, ?_, by simp⟩
    rw [valueIn_mul, valueIn_mul]
    exact congrArg List.prod
      (List.map_congr_left fun factor member => (carries factor member).value)
  | pow base exponent ih =>
    obtain ⟨soundBase, nonzero⟩ := ((hereditary_sound before).pow_iff base exponent).mp sound
    have carries := ih soundBase
      (agrees.arg (e := .pow base exponent) (List.mem_singleton_self base))
    refine ⟨((hereditary_sound after).pow_iff base exponent).mpr ⟨carries.sound, ?_⟩, ?_, by simp⟩
    · rw [carries.value]
      exact nonzero
    · rw [valueIn_pow, valueIn_pow, carries.value]
  | vector components ih =>
    have carries := fun e member => ih e member (sound.arg member) (agrees.arg member)
    have values : components.map (valueIn after) = components.map (valueIn before) :=
      List.map_congr_left fun e member => (carries e member).value
    refine ⟨sound_vector fun e member => (carries e member).sound, ?_, ?_⟩
    · rw [valueIn_vector, valueIn_vector, values, agrees.vector]
    · rintro _ same
      cases same
      exact ⟨components, rfl, values⟩
  | call head args ih =>
    have carries := fun arg member => ih arg member (sound.arg member) (agrees.arg member)
    by_cases isDot : head = .dot
    · subst isDot
      obtain ⟨left, right, rfl, sameLength⟩ := sound.2.dotOperands
      exact .dot sameLength (carries (.vector left) (by simp)) (carries (.vector right) (by simp))
    · refine ⟨sound_call isDot fun arg member => (carries arg member).sound, ?_, by simp⟩
      have values : args.map (valueIn after) = args.map (valueIn before) :=
        List.map_congr_left fun arg member => (carries arg member).value
      rw [valueIn_call_of_ne isDot, values, valueIn_call_of_ne isDot,
        agrees.call head args (self_mem_subterms _) rfl isDot]

variable [CharZero K]

/-- A substitution carries the value over to the rebuilt expression. -/
theorem carries_replaceWith {e result : Expr}
    (formed : replaceWith replacement? e = some result) (sound : e.Sound before)
    (replaces : Replaces replacement? before after e) : Carries before after e result := by
  induction e using induction_args generalizing result with
  | step e ih =>
    have operand : ∀ arg ∈ e.args, ∀ result, replaceWith replacement? arg = some result →
        Carries before after arg result := fun arg member result rebuilt =>
      ih arg member rebuilt (sound.arg member) (replaces.arg member)
    have operands : ∀ {results : List Expr},
        e.args.mapM (replaceWith replacement?) = some results →
        (∀ result ∈ results, result.Sound after) ∧
          results.map (valueIn after) = e.args.map (valueIn before) := by
      intro results rebuilt
      exact ⟨forall_mem_of_mapM rebuilt fun arg member result rebuilt =>
          (operand arg member result rebuilt).sound,
        map_eq_of_mapM rebuilt _ fun arg member result rebuilt =>
          (operand arg member result rebuilt).value⟩
    obtain found | ⟨kept, rebuilds⟩ := replaceWith_cases formed
    · obtain ⟨soundResult, value⟩ := replaces.replaced e (self_mem_subterms e) result found
      refine ⟨soundResult, value, ?_⟩
      rintro components rfl
      rw [replaces.vectors components] at found
      cases found
    · cases rebuilds with
      | num value =>
        exact ⟨(hereditary_sound after).num value, by rw [valueIn_num, valueIn_num], by simp⟩
      | sym name =>
        refine ⟨sound_sym name, ?_, by simp⟩
        rw [valueIn_sym, valueIn_sym, replaces.symbol name (self_mem_subterms _) kept]
      | add rebuilt =>
        obtain ⟨soundTerms, values⟩ := operands rebuilt
        refine ⟨(hereditary_sound after).sum soundTerms, ?_, by simp⟩
        rw [valueIn_sum, values, valueIn_add, args]
      | mul rebuilt multiplied =>
        obtain ⟨soundFactors, values⟩ := operands rebuilt
        refine ⟨(hereditary_sound after).prod multiplied soundFactors, ?_, by simp⟩
        rw [valueIn_prod multiplied fun e member => (soundFactors e member).1, values, valueIn_mul,
          args]
      | @pow base inner _ exponent rebuilt powered =>
        obtain ⟨-, nonzero⟩ := ((hereditary_sound before).pow_iff base exponent).mp sound
        obtain ⟨soundInner, value, -⟩ := operand base (List.mem_singleton_self base) inner rebuilt
        have nonzero : exponent.val < 0 → inner.valueIn after ≠ 0 := fun negative =>
          value ▸ nonzero negative
        refine ⟨(hereditary_sound after).power powered soundInner nonzero, ?_, by simp⟩
        rw [valueIn_power powered soundInner.1 nonzero, value, valueIn_pow]
      | @vector components results rebuilt =>
        obtain ⟨soundComponents, values⟩ := operands rebuilt
        refine ⟨sound_vector soundComponents, ?_, ?_⟩
        · rw [valueIn_vector, values, valueIn_vector, replaces.vector, args]
        · rintro _ same
          cases same
          exact ⟨results, rfl, values⟩
      | @call head _ results rebuilt =>
        by_cases isDot : head = .dot
        · subst isDot
          obtain ⟨left, right, rfl, sameLength⟩ := sound.2.dotOperands
          obtain ⟨left', right', rebuildsLeft, rebuildsRight, rfl⟩ := mapM_pair_eq_some rebuilt
          exact .dot sameLength (operand (.vector left) (by simp [args]) left' rebuildsLeft)
            (operand (.vector right) (by simp [args]) right' rebuildsRight)
        · obtain ⟨soundArgs, values⟩ := operands rebuilt
          refine ⟨sound_call isDot soundArgs, ?_, by simp⟩
          rw [valueIn_call_of_ne isDot, values, valueIn_call_of_ne isDot,
            replaces.call head _ (self_mem_subterms _) kept isDot, args]

/-- Normalization keeps the value. -/
theorem keepsValue_normalize {reading : Interpretation K} : KeepsValue reading normalize := by
  intro e result formed sound
  have carries : Carries reading reading e result := carries_replaceWith formed sound
    { replaced := fun _ _ _ found => nomatch found
      symbol := fun _ _ _ => rfl
      call := fun _ _ _ _ _ => rfl
      vector := rfl
      vectors := fun _ => rfl }
  exact ⟨carries.sound, carries.value⟩

end FiniteVolume.Expr
