import FiniteVolume.Expr.Derivative
import FiniteVolume.Proofs.Value.Basic

/-!
# Values over dual numbers

A dual number is a value together with a rate. An expression has a dual value when one symbol moves
at the rate one, all others stand still, and known functions move by their slopes. Its value is the
value of the expression (`fst_dualIn`), and it stands still if the symbol does not occur
(`snd_dualIn_of_lacks`).
-/

open DualNumber

namespace FiniteVolume

/-- The slope of a known function, by the rules of calculus. -/
def Pointwise.slope {K : Type*} [Field K] (reading : Expr.Interpretation K) (function : Pointwise)
    (a : K) : K :=
  match function with
  | sin => reading.call (.named cos.name) [a]
  | cos => -reading.call (.named sin.name) [a]
  | tan => 1 / reading.call (.named cos.name) [a] ^ 2
  | exp => reading.call (.named exp.name) [a]
  | log => 1 / a
  | sqrt => 1 / (2 * reading.call (.named sqrt.name) [a])
  | sinh => reading.call (.named cosh.name) [a]
  | cosh => reading.call (.named sinh.name) [a]
  | tanh => 1 / reading.call (.named cosh.name) [a] ^ 2
  | abs => reading.call (.named sign.name) [a]
  | sign => 0

/-- Where a known function has its slope: nothing that the slope divides by is zero. -/
def Pointwise.HasSlope {K : Type*} [Field K] (reading : Expr.Interpretation K)
    (function : Pointwise) (a : K) : Prop :=
  match function with
  | tan => reading.call (.named cos.name) [a] ≠ 0
  | log => a ≠ 0
  | sqrt => reading.call (.named sqrt.name) [a] ≠ 0
  | tanh => reading.call (.named cosh.name) [a] ≠ 0
  | _ => True

namespace Expr

variable {K : Type*} [Field K]

/-- A function moves by its slope times the rate of its argument. -/
def dualCall (reading : Interpretation K) (function : Pointwise) (x : K[ε]) : K[ε] :=
  TrivSqZeroExt.inl (reading.call (.named function.name) [x.fst]) +
    TrivSqZeroExt.inr (function.slope reading x.fst * x.snd)

/-- An integer power of a dual number. -/
def dualPower (x : K[ε]) : Int → K[ε]
  | .ofNat n => x ^ n
  | .negSucc n => (x ^ (n + 1))⁻¹

mutual

/-- The value of an expression of numbers, symbols, sums, products, powers, inner products and known
functions over the dual numbers, where one symbol moves at the rate one. -/
def dualIn (reading : Interpretation K) (name : String) : Expr → K[ε]
  | .num value => TrivSqZeroExt.inl (value : K)
  | .sym symbol =>
    TrivSqZeroExt.inl (reading.symbol symbol) + if symbol = name then ε else 0
  | .add terms => (dualsIn reading name terms).sum
  | .mul factors => (dualsIn reading name factors).prod
  | .pow base exponent => dualPower (dualIn reading name base) exponent.val
  | .call .dot [.vector left, .vector right] =>
    (List.zipWith (· * ·) (dualsIn reading name left) (dualsIn reading name right)).sum
  | .call (.named function) [arg] =>
    match Pointwise.ofName? function with
    | some known => dualCall reading known (dualIn reading name arg)
    | none => 0
  | _ => 0

/-- The dual values of all expressions of a list. -/
def dualsIn (reading : Interpretation K) (name : String) : List Expr → List K[ε]
  | [] => []
  | e :: rest => dualIn reading name e :: dualsIn reading name rest

end

/-- An expression of numbers, symbols, sums, products, powers with exponents other than zero, inner
products of vectors of equal length and known functions of one argument. -/
inductive Elementary : Expr → Prop where
  | num (value : Rat) : Elementary (.num value)
  | sym (name : String) : Elementary (.sym name)
  | add {terms : List Expr} (elementary : ∀ term ∈ terms, Elementary term) :
    Elementary (.add terms)
  | mul {factors : List Expr} (elementary : ∀ factor ∈ factors, Elementary factor) :
    Elementary (.mul factors)
  | pow {base : Expr} {exponent : Exponent} (elementary : Elementary base)
    (nonzero : exponent.val ≠ 0) : Elementary (.pow base exponent)
  | dot {left right : List Expr} (sameLength : left.length = right.length)
    (elementaryLeft : ∀ component ∈ left, Elementary component)
    (elementaryRight : ∀ component ∈ right, Elementary component) :
    Elementary (.call .dot [.vector left, .vector right])
  | call (function : Pointwise) {arg : Expr} (elementary : Elementary arg) :
    Elementary (function.call arg)

variable {reading : Interpretation K} {name : String}

/-- The dual values of several trees are read one by one. -/
theorem dualsIn_eq_map (es : List Expr) :
    dualsIn reading name es = es.map (dualIn reading name) := by
  induction es with
  | nil => rfl
  | cons e rest ih => simp [dualsIn, ih]

/-- The dual value of a sum is the sum of the dual values. -/
theorem dualIn_add (terms : List Expr) :
    (Expr.add terms).dualIn reading name = (terms.map (dualIn reading name)).sum :=
  congrArg List.sum (dualsIn_eq_map terms)

/-- The dual value of a product is the product of the dual values. -/
theorem dualIn_mul (factors : List Expr) :
    (Expr.mul factors).dualIn reading name = (factors.map (dualIn reading name)).prod :=
  congrArg List.prod (dualsIn_eq_map factors)

/-- The dual value of an inner product is the sum of the products of components. -/
theorem dualIn_dot (left right : List Expr) :
    (Expr.call .dot [.vector left, .vector right]).dualIn reading name =
      ((left.zip right).map fun (a, b) => a.dualIn reading name * b.dualIn reading name).sum := by
  rw [dualIn, dualsIn_eq_map, dualsIn_eq_map, List.zipWith_map, List.zip_eq_zipWith,
    List.map_zipWith]

/-- A function of one argument is found by its name. -/
theorem ofName?_name (function : Pointwise) :
    Pointwise.ofName? function.name = some function := by
  cases function <;> decide +kernel

/-- The dual value of a function is that of its chain rule. -/
theorem dualIn_call (function : Pointwise) (arg : Expr) :
    (function.call arg).dualIn reading name =
      dualCall reading function (arg.dualIn reading name) := by
  rw [Pointwise.call, apply, dualIn, ofName?_name]

/-- The value of a function of one argument is read from the value of the argument. -/
theorem valueIn_pointwise (function : Pointwise) (arg : Expr) :
    (function.call arg).valueIn reading =
      reading.call (.named function.name) [arg.valueIn reading] :=
  valueIn_call rfl

/-- The real part of a sum is the sum of the real parts. -/
theorem fst_list_sum (values : List K[ε]) :
    values.sum.fst = (values.map TrivSqZeroExt.fst).sum :=
  map_list_sum (TrivSqZeroExt.fstHom K K K) values

/-- The real part of a product is the product of the real parts. -/
theorem fst_list_prod (values : List K[ε]) :
    values.prod.fst = (values.map TrivSqZeroExt.fst).prod :=
  map_list_prod (TrivSqZeroExt.fstHom K K K) values

/-- The infinitesimal part of a sum is the sum of the infinitesimal parts. -/
theorem snd_list_sum (values : List K[ε]) :
    values.sum.snd = (values.map TrivSqZeroExt.snd).sum :=
  map_list_sum (TrivSqZeroExt.sndHom K K) values

/-- The real part of a power is the power of the real part. -/
theorem fst_dualPower (x : K[ε]) (exponent : Int) :
    (dualPower x exponent).fst = x.fst ^ exponent := by
  cases exponent with
  | ofNat n => exact (TrivSqZeroExt.fst_pow x n).trans (zpow_natCast x.fst n).symm
  | negSucc n => rw [dualPower, TrivSqZeroExt.fst_inv, TrivSqZeroExt.fst_pow, zpow_negSucc]

/-- The power rule, where the base does not vanish under a negative exponent. -/
theorem snd_dualPower {x : K[ε]} {exponent : Int} (nonzero : exponent ≠ 0)
    (regular : exponent < 0 → x.fst ≠ 0) :
    (dualPower x exponent).snd = exponent * x.fst ^ (exponent - 1) * x.snd := by
  cases exponent with
  | ofNat n =>
    obtain ⟨n, rfl⟩ := Nat.exists_eq_succ_of_ne_zero fun isZero => nonzero (congrArg _ isZero)
    have lower : (Int.ofNat (n + 1) - 1 : ℤ) = (n : ℤ) := by simp
    rw [dualPower, TrivSqZeroExt.snd_pow, Nat.pred_succ, lower, zpow_natCast]
    rw [smul_eq_mul, nsmul_eq_mul, Int.ofNat_eq_natCast, Int.cast_natCast]
    ring
  | negSucc n =>
    have unit : x.fst ≠ 0 := regular (Int.negSucc_lt_zero n)
    have lower : (Int.negSucc n - 1 : ℤ) = -((n + 2 : ℕ) : ℤ) := by omega
    rw [dualPower, TrivSqZeroExt.snd_inv, TrivSqZeroExt.fst_pow, TrivSqZeroExt.snd_pow,
      Nat.pred_succ, lower, zpow_neg, zpow_natCast, Int.cast_negSucc]
    simp only [smul_eq_mul, op_smul_eq_smul, nsmul_eq_mul]
    field_simp
    ring

/-- The value is the value of the expression. -/
theorem Elementary.fst_dualIn {e : Expr} (elementary : e.Elementary) :
    (e.dualIn reading name).fst = e.valueIn reading := by
  induction elementary with
  | num value => rw [dualIn, TrivSqZeroExt.fst_inl, valueIn_num]
  | sym symbol =>
    rw [dualIn, TrivSqZeroExt.fst_add, TrivSqZeroExt.fst_inl, valueIn_sym]
    split <;> simp
  | add _ ih =>
    rw [dualIn_add, fst_list_sum, List.map_map, valueIn_add]
    exact congrArg List.sum (List.map_congr_left ih)
  | mul _ ih =>
    rw [dualIn_mul, fst_list_prod, List.map_map, valueIn_mul]
    exact congrArg List.prod (List.map_congr_left ih)
  | pow _ _ ih => rw [dualIn, fst_dualPower, ih, valueIn_pow]
  | dot sameLength _ _ ihLeft ihRight =>
    rw [dualIn_dot, fst_list_sum, List.map_map, valueIn_dot sameLength]
    refine congrArg List.sum (List.map_congr_left fun pair member => ?_)
    obtain ⟨inLeft, inRight⟩ := List.of_mem_zip member
    exact congrArg₂ (· * ·) (ihLeft pair.1 inLeft) (ihRight pair.2 inRight)
  | call function _ ih =>
    rw [dualIn_call, dualCall, ih, valueIn_pointwise]
    simp

/-- A product of constants is constant. -/
theorem snd_prod_of_still {values : List K[ε]} (still : ∀ value ∈ values, value.snd = 0) :
    values.prod.snd = 0 := by
  induction values with
  | nil => exact TrivSqZeroExt.snd_one
  | cons value rest ih =>
    obtain ⟨first, later⟩ := List.forall_mem_cons.mp still
    rw [List.prod_cons, DualNumber.snd_mul, first, ih later, mul_zero, zero_mul, add_zero]

/-- A sum of constants is constant. -/
theorem snd_sum_of_still {values : List K[ε]} (still : ∀ value ∈ values, value.snd = 0) :
    values.sum.snd = 0 := by
  rw [snd_list_sum]
  refine List.sum_eq_zero fun rate member => ?_
  obtain ⟨value, inside, rfl⟩ := List.mem_map.mp member
  exact still value inside

/-- A power of a constant is constant. -/
theorem snd_dualPower_of_still {x : K[ε]} (still : x.snd = 0) (exponent : Int) :
    (dualPower x exponent).snd = 0 := by
  have power : ∀ n : ℕ, (x ^ n).snd = 0 := fun n => by
    rw [TrivSqZeroExt.snd_pow, still, smul_zero, smul_zero]
  cases exponent with
  | ofNat n => exact power n
  | negSucc n => rw [dualPower, TrivSqZeroExt.snd_inv, power, smul_zero, smul_zero, neg_zero]

/-- An expression without the symbol stands still. -/
theorem Elementary.snd_dualIn_of_lacks {e : Expr} (elementary : e.Elementary)
    (lacks : e.hasSymbol name = false) : (e.dualIn reading name).snd = 0 := by
  have parts : ∀ {e arg : Expr}, e.hasSymbol name = false → arg ∈ e.args →
      arg.hasSymbol name = false := fun lacks member => (hasSymbol_eq_false_iff.mp lacks).2 _ member
  induction elementary with
  | num value => rw [dualIn, TrivSqZeroExt.snd_inl]
  | sym symbol =>
    have different : symbol ≠ name := fun same =>
      (hasSymbol_eq_false_iff.mp lacks).1 (congrArg Expr.sym same)
    rw [dualIn, if_neg different, add_zero, TrivSqZeroExt.snd_inl]
  | add _ ih =>
    rw [dualIn_add]
    refine snd_sum_of_still fun value member => ?_
    obtain ⟨term, inside, rfl⟩ := List.mem_map.mp member
    exact ih term inside (parts lacks inside)
  | mul _ ih =>
    rw [dualIn_mul]
    refine snd_prod_of_still fun value member => ?_
    obtain ⟨factor, inside, rfl⟩ := List.mem_map.mp member
    exact ih factor inside (parts lacks inside)
  | pow _ _ ih =>
    rw [dualIn]
    exact snd_dualPower_of_still (ih (parts lacks (List.mem_singleton_self _))) _
  | @dot left right _ _ _ ihLeft ihRight =>
    have lacksLeft : (Expr.vector left).hasSymbol name = false := parts lacks (by simp [args])
    have lacksRight : (Expr.vector right).hasSymbol name = false := parts lacks (by simp [args])
    rw [dualIn_dot]
    refine snd_sum_of_still fun value member => ?_
    obtain ⟨pair, inside, rfl⟩ := List.mem_map.mp member
    obtain ⟨inLeft, inRight⟩ := List.of_mem_zip inside
    rw [DualNumber.snd_mul, ihLeft pair.1 inLeft (parts lacksLeft inLeft),
      ihRight pair.2 inRight (parts lacksRight inRight), mul_zero, zero_mul, add_zero]
  | call function _ ih =>
    rw [dualIn_call, dualCall, ih (parts lacks List.mem_cons_self), mul_zero]
    simp

end Expr

end FiniteVolume
