/-!
# Exponents

Integer powers carry an exponent of at most 64 bits, sign included. Arithmetic on exponents is
checked: a sum or a product that leaves the range has no value, so no power is ever wrong.
-/

namespace FiniteVolume

/-- An exponent of an integer power: an integer of at most 64 bits, sign included. -/
structure Exponent where
  val : Int
  least_le : -9223372036854775808 ≤ val := by decide
  le_greatest : val ≤ 9223372036854775807 := by decide
deriving DecidableEq

namespace Exponent

/-- The exponent with a given value, if the value is in range. -/
def ofInt? (n : Int) : Option Exponent :=
  if inRange : -9223372036854775808 ≤ n ∧ n ≤ 9223372036854775807 then
    some ⟨n, inRange.1, inRange.2⟩
  else
    none

def zero : Exponent := { val := 0 }

def one : Exponent := { val := 1 }

def negOne : Exponent := { val := -1 }

def negTwo : Exponent := { val := -2 }

/-- The sum of two exponents, if it is in range. -/
def add? (left right : Exponent) : Option Exponent :=
  ofInt? (left.val + right.val)

/-- The product of two exponents, if it is in range. -/
def mul? (left right : Exponent) : Option Exponent :=
  ofInt? (left.val * right.val)

/-- The exponent less one, if that is in range. -/
def pred? (exponent : Exponent) : Option Exponent :=
  ofInt? (exponent.val - 1)

/-- Whether the exponent fits into 32 bits, sign included. -/
def isShort (exponent : Exponent) : Bool :=
  -2147483648 ≤ exponent.val && exponent.val ≤ 2147483647

/-- Exponents are ordered by value. -/
instance : Ord Exponent := ⟨fun left right => compare left.val right.val⟩

/-- Exponents are equal if their values are. -/
@[ext]
theorem ext {left right : Exponent} (same : left.val = right.val) : left = right := by
  cases left
  cases right
  cases same
  rfl

/-- An integer is an exponent exactly when it is in range. -/
theorem ofInt?_eq_some_iff {n : Int} {exponent : Exponent} :
    ofInt? n = some exponent ↔ exponent.val = n := by
  constructor
  · intro found
    unfold ofInt? at found
    split at found
    · cases found
      rfl
    · cases found
  · rintro rfl
    simp [ofInt?, exponent.least_le, exponent.le_greatest]

/-- The integers that are no exponents are those out of range. -/
theorem ofInt?_eq_none_iff {n : Int} :
    ofInt? n = none ↔ n < -9223372036854775808 ∨ 9223372036854775807 < n := by
  unfold ofInt?
  split <;> simp <;> omega

/-- A sum of exponents that is in range is the sum of their values. -/
theorem val_of_add? {left right total : Exponent} (defined : left.add? right = some total) :
    total.val = left.val + right.val :=
  ofInt?_eq_some_iff.mp defined

/-- A product of exponents that is in range is the product of their values. -/
theorem val_of_mul? {left right total : Exponent} (defined : left.mul? right = some total) :
    total.val = left.val * right.val :=
  ofInt?_eq_some_iff.mp defined

/-- The exponent before another one is less by one. -/
theorem val_of_pred? {exponent less : Exponent} (defined : exponent.pred? = some less) :
    less.val = exponent.val - 1 :=
  ofInt?_eq_some_iff.mp defined

end Exponent

end FiniteVolume
