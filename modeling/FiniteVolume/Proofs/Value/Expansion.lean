import FiniteVolume.Proofs.Expr.Recursion
import FiniteVolume.Proofs.Value.Arithmetic

/-!
# Expansion and normalization keep the value

An expression whose inner products are all taken of two vectors of equal length keeps its value when
it is expanded or normalized, at every interpretation that makes no base of a negative power vanish
(`keepsValue_expand`).
-/

namespace FiniteVolume.Expr

/-- Every inner product is taken of two vectors of equal length. Nothing else is asked of the types
of an expression. -/
def VectorDots (e : Expr) : Prop :=
  ∀ subterm ∈ e.subterms, ∀ args, subterm = .call .dot args →
    ∃ left right, args = [.vector left, .vector right] ∧ left.length = right.length

/-- The condition on inner products is asked of a tree itself and of its children. -/
theorem vectorDots_iff {e : Expr} :
    e.VectorDots ↔ (∀ args, e = .call .dot args →
      ∃ left right, args = [.vector left, .vector right] ∧ left.length = right.length) ∧
        ∀ arg ∈ e.args, arg.VectorDots :=
  forall_subterms_iff _

/-- The children of a tree keep its condition on inner products. -/
theorem VectorDots.arg {e arg : Expr} (dots : e.VectorDots) (member : arg ∈ e.args) :
    arg.VectorDots :=
  (vectorDots_iff.mp dots).2 arg member

/-- Other calls meet the condition on inner products if their arguments do. -/
theorem VectorDots.call {head : Head} {args : List Expr} (notDot : head ≠ .dot)
    (dots : ∀ arg ∈ args, arg.VectorDots) : (Expr.call head args).VectorDots :=
  vectorDots_iff.mpr ⟨fun _ same => absurd (by simp_all) notDot, dots⟩

/-- An inner product of vectors of one length meets the condition if its operands do. -/
theorem VectorDots.dot {left right : List Expr} (sameLength : left.length = right.length)
    (dots : ∀ arg ∈ [Expr.vector left, .vector right], arg.VectorDots) :
    (Expr.call .dot [.vector left, .vector right]).VectorDots :=
  vectorDots_iff.mpr ⟨fun args same => ⟨left, right, by simp_all, sameLength⟩, dots⟩

/-- A vector meets the condition on inner products if its components do. -/
theorem VectorDots.vector {components : List Expr}
    (dots : ∀ component ∈ components, component.VectorDots) : (Expr.vector components).VectorDots :=
  vectorDots_iff.mpr ⟨fun _ => by simp, dots⟩

/-- Sums, products and powers do not touch inner products. -/
theorem hereditary_vectorDots : Hereditary VectorDots fun _ => True :=
  Hereditary.ofNodes _ (fun _ _ => by simp) (fun _ _ => by simp) (fun _ _ => by simp)
    (fun _ _ _ => by simp)

variable {K : Type*} [Field K] {reading : Interpretation K}

/-- What rewriting asks of an expression at an interpretation, and what it keeps. -/
def Sound (reading : Interpretation K) (e : Expr) : Prop := e.Defined reading ∧ e.VectorDots

/-- Sums, products and powers are sound if their operands are and no negative power has base
zero. -/
theorem hereditary_sound (reading : Interpretation K) :
    Hereditary (Sound reading) fun base => base.valueIn reading ≠ 0 :=
  (hereditary_defined reading).and hereditary_vectorDots

/-- The children of a sound tree are sound. -/
theorem Sound.arg {e arg : Expr} (sound : e.Sound reading) (member : arg ∈ e.args) :
    arg.Sound reading :=
  ⟨sound.1.arg member, sound.2.arg member⟩

/-- A symbol is sound. -/
theorem sound_sym (name : String) : (Expr.sym name).Sound reading :=
  ⟨negativeBases_iff.mpr ⟨fun _ _ => by simp, fun _ member => nomatch member⟩,
    vectorDots_iff.mpr ⟨fun _ => by simp, fun _ member => nomatch member⟩⟩

/-- A vector is sound if its components are. -/
theorem sound_vector {components : List Expr} (sound : ∀ e ∈ components, e.Sound reading) :
    (Expr.vector components).Sound reading :=
  ⟨negativeBases_iff.mpr ⟨fun _ _ => by simp, fun e member => (sound e member).1⟩,
    vectorDots_iff.mpr ⟨fun _ => by simp, fun e member => (sound e member).2⟩⟩

/-- A call other than an inner product is sound if its arguments are. -/
theorem sound_call {head : Head} {args : List Expr} (notDot : head ≠ .dot)
    (sound : ∀ e ∈ args, e.Sound reading) : (Expr.call head args).Sound reading :=
  ⟨negativeBases_iff.mpr ⟨fun _ _ => by simp, fun e member => (sound e member).1⟩,
    vectorDots_iff.mpr ⟨fun _ same => absurd (by simp_all) notDot,
      fun e member => (sound e member).2⟩⟩

/-- An inner product that meets the condition is of two vectors of one length. -/
theorem VectorDots.dotOperands {args : List Expr} (dots : (Expr.call .dot args).VectorDots) :
    ∃ left right, args = [.vector left, .vector right] ∧ left.length = right.length :=
  (vectorDots_iff.mp dots).1 args rfl

/-- A call other than an inner product is read by the reading of its head. -/
theorem valueIn_call_of_ne {head : Head} {args : List Expr} (notDot : head ≠ .dot) :
    (Expr.call head args).valueIn reading = reading.call head (args.map (valueIn reading)) :=
  valueIn_call (dotOperands?_of_ne notDot args)

/-- A rewriting that keeps the value of every expression it is sound for. -/
def KeepsValue (reading : Interpretation K) (rewrite : Expr → Option Expr) : Prop :=
  ∀ e result, rewrite e = some result → e.Sound reading →
    result.Sound reading ∧ result.valueIn reading = e.valueIn reading

variable [CharZero K]

/-- Distributing multiplies the values. -/
theorem distributiveQuantity_valueIn (reading : Interpretation K) :
    DistributiveQuantity (Defined reading) (valueIn reading) where
  toDistributive := (hereditary_defined reading).closed.distributive
  terms e _ := by cases e <;> simp [terms, valueIn_add]
  quantity_sum es _ := valueIn_sum es
  quantity_product _ _ definedLeft definedRight a inLeft b inRight _ formed := by
    rw [valueIn_prod formed (forall_mem_pair
      ⟨(hereditary_defined reading).terms definedLeft a inLeft,
        (hereditary_defined reading).terms definedRight b inRight⟩)]
    simp

/-- An inner product that is written out has the sum of the products of components as its value. -/
theorem valueIn_innerProduct {left right : List Expr} {result : Expr}
    (formed : innerProduct left right = some result)
    (definedLeft : ∀ e ∈ left, e.Defined reading)
    (definedRight : ∀ e ∈ right, e.Defined reading) :
    result.valueIn reading =
      ((left.zip right).map fun (a, b) => a.valueIn reading * b.valueIn reading).sum := by
  obtain ⟨products, multiplied, same⟩ := Option.bind_eq_some_iff.mp formed
  cases same
  rw [valueIn_sum]
  refine congrArg List.sum (map_eq_of_mapM multiplied _ fun (a, b) member product formed => ?_)
  rw [valueIn_prod formed (forall_mem_pair ⟨definedLeft a (List.of_mem_zip member).1,
    definedRight b (List.of_mem_zip member).2⟩)]
  simp

/-- Expansion keeps the value. -/
theorem keepsValue_expand : KeepsValue reading expand := by
  intro e result expands
  have hereditary := hereditary_sound reading
  have soundOne := hereditary.num 1
  have parts : ∀ {es results : List Expr}, List.Forall₂ (fun e result => e.Sound reading →
        result.Sound reading ∧ result.valueIn reading = e.valueIn reading) es results →
      (∀ e ∈ es, e.Sound reading) → (∀ result ∈ results, result.Sound reading) ∧
        results.map (valueIn reading) = es.map (valueIn reading) := by
    intro es results each sound
    have kept := forall₂_of_forall_mem sound each
    exact ⟨forall_mem_of_forall₂ (kept.imp fun _ _ => And.left).flip,
      map_eq_of_forall₂ (kept.imp fun _ _ => And.right)⟩
  refine expand_induction (motive := fun e result => e.Sound reading →
      result.Sound reading ∧ result.valueIn reading = e.valueIn reading)
    (fun _ sound => ⟨sound, rfl⟩) (fun _ sound => ⟨sound, rfl⟩) ?add ?mul ?powSum ?pow ?vector ?dot
    ?call expands
  case add =>
    intro terms results each sound
    obtain ⟨soundTerms, values⟩ := parts each fun _ => sound.arg
    exact ⟨hereditary.sum soundTerms, by rw [valueIn_sum, values, valueIn_add]⟩
  case mul =>
    intro factors results result each distributed sound
    obtain ⟨soundFactors, values⟩ := parts each fun _ => sound.arg
    refine ⟨hereditary.distributeFrom distributed soundOne soundFactors, ?_⟩
    rw [(distributiveQuantity_valueIn reading).quantity_distributeFrom distributed soundOne.1
      fun e member => (soundFactors e member).1, values, valueIn_mul]
    simp [one]
  case powSum =>
    intro base terms exponent result keeps greater multiplied sound
    obtain ⟨soundBase, -⟩ := (hereditary.pow_iff base exponent).mp sound
    obtain ⟨soundExpanded, value⟩ := keeps soundBase
    refine ⟨hereditary.distributeRepeatedly multiplied soundOne soundExpanded, ?_⟩
    rw [(distributiveQuantity_valueIn reading).quantity_distributeRepeatedly multiplied soundOne.1
      soundExpanded.1, value, valueIn_pow]
    have positive : (exponent.val.toNat : Int) = exponent.val := by omega
    rw [← zpow_natCast, positive]
    simp [one]
  case pow =>
    intro base exponent inner result _ keeps _ powered sound
    obtain ⟨soundBase, nonzero⟩ := (hereditary.pow_iff base exponent).mp sound
    obtain ⟨soundInner, value⟩ := keeps soundBase
    have nonzero : exponent.val < 0 → inner.valueIn reading ≠ 0 := fun negative =>
      value ▸ nonzero negative
    refine ⟨hereditary.power powered soundInner nonzero, ?_⟩
    rw [valueIn_power powered soundInner.1 nonzero, value, valueIn_pow]
  case vector =>
    intro components results each sound
    obtain ⟨soundComponents, values⟩ := parts each fun _ => sound.arg
    exact ⟨sound_vector soundComponents, by rw [valueIn_vector, values, valueIn_vector]⟩
  case dot =>
    intro left right product result sameLength written keeps sound
    have soundLeft : (Expr.vector left).Sound reading := sound.arg List.mem_cons_self
    have soundRight : (Expr.vector right).Sound reading :=
      sound.arg (List.mem_cons_of_mem _ List.mem_cons_self)
    obtain ⟨soundResult, value⟩ :=
      keeps (hereditary.innerProduct written (fun _ => soundLeft.arg) fun _ => soundRight.arg)
    refine ⟨soundResult, value.trans ?_⟩
    rw [valueIn_innerProduct written (fun e member => (soundLeft.arg member).1)
      (fun e member => (soundRight.arg member).1), valueIn_dot sameLength]
  case call =>
    intro head args results notDot _ each sound
    have headNotDot : head ≠ .dot := by
      rintro rfl
      obtain ⟨left, right, rfl, sameLength⟩ := sound.2.dotOperands
      simp [dotOperands?, sameLength] at notDot
    obtain ⟨soundArgs, values⟩ := parts each fun _ => sound.arg
    exact ⟨sound_call headNotDot soundArgs, by
      rw [valueIn_call_of_ne headNotDot, values, valueIn_call_of_ne headNotDot]⟩

end FiniteVolume.Expr
