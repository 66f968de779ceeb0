import FiniteVolume.Proofs.Numeric.Exact

/-!
# Field arithmetic

Arithmetic without rounding in a field. Powers computed by squaring and multiplying are powers there
(`powNat_eq_pow`, `powInt_eq_zpow`).
-/

namespace FiniteVolume

/-- Arithmetic whose operations are those of a field. A rational that it has no number for is out of
its range; one that it has a number for stands for itself. -/
class FieldArithmetic (α : Type) [Field α] [Arithmetic α] : Prop extends ExactArithmetic α where
  emptySum_eq : (Arithmetic.emptySum : α) = 0
  one_eq : (Arithmetic.one : α) = 1
  mul_eq (left right : α) : Arithmetic.mul left right = left * right
  div_eq (left right : α) : Arithmetic.div left right = left / right
  eq_of_ofRational? {value : ℚ} {number : α} :
    Arithmetic.ofRational? value = some number → number = value

instance fieldArithmetic_rational : FieldArithmetic ℚ where
  emptySum_eq := rfl
  one_eq := rfl
  mul_eq _ _ := rfl
  div_eq _ _ := rfl
  eq_of_ofRational? found := (Option.some.inj found).symm

namespace FieldArithmetic

variable {α : Type} [Field α] [Arithmetic α] [FieldArithmetic α]

theorem add_eq_add : (Arithmetic.add : α → α → α) = (· + ·) :=
  funext₂ ExactArithmetic.add_eq

theorem mul_eq_mul : (Arithmetic.mul : α → α → α) = (· * ·) :=
  funext₂ mul_eq

/-- After the lowest binary digits of the exponent, the product is the power by the number that
these digits form, and the square is the power by the weight of the next digit. -/
theorem foldl_digits (base : α) (exponent count : Nat) :
    (List.range count).foldl
      (fun (product, square) digit =>
        (if exponent.testBit digit then Arithmetic.mul product square else product,
          Arithmetic.mul square square))
      (Arithmetic.one, base) = (base ^ (exponent % 2 ^ count), base ^ 2 ^ count) := by
  induction count with
  | zero => simp [one_eq, Nat.mod_one]
  | succ count ih =>
    have square : base ^ 2 ^ count * base ^ 2 ^ count = base ^ 2 ^ (count + 1) := by
      rw [← pow_add, ← Nat.two_mul, ← Nat.pow_succ']
    rw [List.range_succ, List.foldl_append, ih, List.foldl_cons, List.foldl_nil]
    dsimp only
    rw [mul_eq, mul_eq, square, Nat.mod_pow_succ, ← Nat.toNat_testBit]
    refine Prod.ext ?_ rfl
    cases exponent.testBit count with
    | false => simp
    | true =>
      dsimp only
      rw [if_pos rfl, Bool.toNat_true, Nat.mul_one, ← pow_add, Nat.add_comm]

/-- Squaring and multiplying gives the power. -/
theorem powNat_eq_pow (base : α) (exponent : Nat) :
    Arithmetic.powNat base exponent = base ^ exponent := by
  have digits : exponent % 2 ^ (exponent.log2 + 1) = exponent :=
    Nat.mod_eq_of_lt Nat.lt_log2_self
  rw [Arithmetic.powNat, foldl_digits, digits]

/-- Powers by repeated multiplication are the powers of the field. -/
theorem powInt_eq_zpow (base : α) (exponent : Int) :
    Arithmetic.powInt base exponent = base ^ exponent := by
  simp only [Arithmetic.powInt, powNat_eq_pow]
  split
  · rename_i negative
    have opposite : exponent = -(exponent.natAbs : Int) := by omega
    rw [div_eq, one_eq, one_div, opposite, zpow_neg, zpow_natCast, Int.natAbs_neg,
      Int.natAbs_natCast]
  · rename_i nonnegative
    have same : exponent = (exponent.natAbs : Int) := by omega
    rw [same, zpow_natCast, Int.natAbs_natCast]

end FieldArithmetic

end FiniteVolume
