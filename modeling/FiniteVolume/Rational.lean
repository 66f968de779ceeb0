/-!
# Exact rationals

Numeric constants of expressions are exact. `Rational.power` is the integer power: a constant that
does not grow is raised to any exponent at once (`power_eq_zpow`). `Rational.render` writes a
rational in lowest terms.
-/

namespace FiniteVolume.Rational

/-- An integer power of a rational. Powers of zero, one and minus one only take a look at the
exponent, however large it is. -/
def power (value : Rat) (exponent : Int) : Rat :=
  if value = 1 then 1
  else if value = -1 then (if exponent % 2 = 0 then 1 else -1)
  else if value = 0 then (if exponent = 0 then 1 else 0)
  else value ^ exponent

/-- A rational in lowest terms, as a fraction unless it is an integer. -/
def render (value : Rat) : String :=
  if value.den = 1 then toString value.num else toString value.num ++ "/" ++ toString value.den

theorem one_pow (n : Nat) : (1 : Rat) ^ n = 1 := by
  induction n with
  | zero => rfl
  | succ n ih => rw [Rat.pow_succ, ih, Rat.mul_one]

theorem zero_pow_succ (n : Nat) : (0 : Rat) ^ (n + 1) = 0 := by
  rw [Rat.pow_succ, Rat.mul_zero]

/-- The powers of minus one alternate. -/
theorem neg_one_pow (n : Nat) : (-1 : Rat) ^ n = if n % 2 = 0 then 1 else -1 := by
  induction n with
  | zero => rfl
  | succ n ih =>
    rw [Rat.pow_succ, ih]
    have parity : n % 2 = 0 ∧ (n + 1) % 2 = 1 ∨ n % 2 = 1 ∧ (n + 1) % 2 = 0 := by omega
    rcases parity with ⟨before, after⟩ | ⟨before, after⟩
    · rw [before, after]
      decide +kernel
    · rw [before, after]
      decide +kernel

/-- Powers by repeated multiplication are the powers of the field. -/
theorem power_eq_zpow (value : Rat) (exponent : Int) : power value exponent = value ^ exponent := by
  unfold power
  split
  · rename_i isOne
    subst isOne
    cases exponent with
    | ofNat n => exact (one_pow n).symm
    | negSucc n =>
      refine Eq.trans ?_ (congrArg Inv.inv (one_pow (n + 1))).symm
      decide +kernel
  · split
    · rename_i isNegOne
      subst isNegOne
      cases exponent with
      | ofNat n =>
        refine Eq.trans ?_ (neg_one_pow n).symm
        have : (Int.ofNat n % 2 = 0) ↔ n % 2 = 0 := by
          simp only [Int.ofNat_eq_natCast]
          omega
        simp only [this]
      | negSucc n =>
        refine Eq.trans ?_ (congrArg Inv.inv (neg_one_pow (n + 1))).symm
        have : (Int.negSucc n % 2 = 0) ↔ (n + 1) % 2 = 0 := by omega
        simp only [this]
        split <;> decide +kernel
    · split
      · rename_i isZero
        subst isZero
        cases exponent with
        | ofNat n =>
          cases n with
          | zero => rfl
          | succ n =>
            refine Eq.trans ?_ (zero_pow_succ n).symm
            rw [if_neg (by simp only [Int.ofNat_eq_natCast]; omega)]
        | negSucc n =>
          refine Eq.trans ?_ (congrArg Inv.inv (zero_pow_succ n)).symm
          rw [if_neg (by omega)]
          decide +kernel
      · rfl

end FiniteVolume.Rational
